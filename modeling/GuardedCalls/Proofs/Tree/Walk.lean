import GuardedCalls.Proofs.Tree.Path
import GuardedCalls.Proofs.Tree.Shape
import GuardedCalls.Tree.Walk

/-! Following a path part by part. What one part does depends on the tree and the place alone, and all
that is said of whole paths goes back to that. -/

namespace GuardedCalls.Node

/-- Where one part leads: to a place, into a link, to a name that its directory does not hold, or
nowhere. -/
inductive Lead
  | goes (place : Place)
  | link (target : Text)
  | missing
  | fault (e : TreeFault)

def lead (top : Node) (here : Place) (part : Text) : Lead :=
  match top.at? here with
  | some (.dir es) =>
    if part = [] || part = ['.'] then .goes here
    else if part = ['.', '.'] then .goes here.dropLast
    else if 255 < Utf8.size part then .fault .nameTooLong
    else
      match es.lookup part with
      | none => .missing
      | some (.link target) => .link target
      | some _ => .goes (here ++ [part])
  | _ => .fault .notDirectory

/-- The place from which the target of a link is followed. -/
def linkStart (here : Place) (target : Text) : Place :=
  if Path.isAbsolute target then [] else here

theorem walk_nil (top : Node) (follow : Bool) (links : Nat) (here : Place) :
    walk top follow links here [] = .ok (.found here) := by
  rw [walk]

theorem walk_cons (top : Node) (follow : Bool) (links : Nat) (here : Place) (part : Text)
    (rest : List Text) : walk top follow links here (part :: rest) =
      match top.lead here part with
      | .goes place => walk top follow links place rest
      | .link target =>
        if rest.isEmpty && !follow then .ok (.found (here ++ [part]))
        else
          match links with
          | 0 => .error .tooManyLinks
          | links + 1 => walk top follow links (linkStart here target) (Path.parts target ++ rest)
      | .missing =>
        if rest.all (·.isEmpty) then .ok (.absent here part (!rest.isEmpty)) else .error .notFound
      | .fault e => .error e := by
  rw [walk, lead]
  cases top.at? here with
  | none => rfl
  | some n =>
    cases n with
    | file => rfl
    | link => rfl
    | dir es =>
      simp only
      split
      · rfl
      split
      · rfl
      split
      · rfl
      cases es.lookup part with
      | none => rfl
      | some node => cases node <;> rfl

/-- A walk is through with one part more or has one link less to follow. -/
theorem walk_induction (top : Node) {P : Nat → Place → List Text → Prop}
    (nil : ∀ links here, P links here [])
    (cons : ∀ links here part rest,
      (∀ place, top.lead here part = .goes place → P links place rest) →
      (∀ target less, top.lead here part = .link target → links = less + 1 →
        P less (linkStart here target) (Path.parts target ++ rest)) → P links here (part :: rest))
    (links : Nat) (here : Place) (parts : List Text) : P links here parts := by
  induction links using Nat.strongRecOn generalizing here parts with
  | ind links ih =>
    induction parts generalizing here with
    | nil => exact nil links here
    | cons part rest ihr =>
      refine cons links here part rest (fun place _ => ihr place) fun target less _ hless => ?_
      exact ih less (by omega) _ _

/-- A name in a directory leads where its entry does. -/
theorem lead_name {top : Node} {here : Place} {es : List (Text × Node)} {name : Text}
    (hd : top.at? here = some (.dir es)) (hn : IsName name) : top.lead here name =
      if 255 < Utf8.size name then .fault .nameTooLong
      else
        match es.lookup name with
        | none => .missing
        | some (.link target) => .link target
        | some _ => .goes (here ++ [name]) := by
  rw [lead, hd]
  simp only [hn.nonempty, hn.here, hn.above, decide_false, Bool.or_false, Bool.false_eq_true,
    if_false]

theorem at?_of_lead_link {top : Node} {here : Place} {part target : Text}
    (h : top.lead here part = .link target) : top.at? (here ++ [part]) = some (.link target) := by
  rw [lead] at h
  split at h
  next es hes =>
    split at h
    · contradiction
    split at h
    · contradiction
    split at h
    · contradiction
    rw [at?_concat hes]
    split at h
    · contradiction
    next t hl =>
      rw [hl]
      exact congrArg _ (congrArg _ (Lead.link.inj h))
    · contradiction
  · contradiction

/-- A part leads to a node that is there and is no link. -/
theorem at?_of_lead_goes {top : Node} {here place : Place} {part : Text}
    (h : top.lead here part = .goes place) :
    ∃ m, top.at? place = some m ∧ ∀ target, m ≠ .link target := by
  rw [lead] at h
  split at h
  next es hes =>
    split at h
    · obtain rfl := Lead.goes.inj h
      exact ⟨_, hes, dir_ne_link es⟩
    split at h
    · obtain rfl := Lead.goes.inj h
      rcases List.eq_nil_or_concat' here with rfl | ⟨above, name, rfl⟩
      · exact ⟨_, hes, dir_ne_link es⟩
      · obtain ⟨d, hd, hname⟩ := Option.bind_eq_some_iff.1 (at?_append top above [name] ▸ hes)
        refine ⟨d, by simpa using hd, ?_⟩
        rintro target rfl
        simp [at?] at hname
    split at h
    · contradiction
    split at h
    · contradiction
    · contradiction
    next node hlink hl =>
      obtain rfl := Lead.goes.inj h
      exact ⟨node, (at?_concat hes part).trans hl, hlink⟩
  · contradiction

theorem lead_shape (top : Node) (here : Place) (part : Text) :
    top.shape.lead here part = top.lead here part := by
  rw [lead, lead, at?_shape]
  cases top.at? here with
  | none => rfl
  | some n =>
    cases n with
    | file => rfl
    | link => rfl
    | dir es =>
      simp only [Option.map_some, shape, lookup_shapeAmong]
      cases es.lookup part with
      | none => rfl
      | some node => cases node <;> rfl

/-- A walk is what its parts do. -/
theorem walk_congr {top after : Node} (h : ∀ here part, after.lead here part = top.lead here part)
    (follow : Bool) (links : Nat) (here : Place) (parts : List Text) :
    walk after follow links here parts = walk top follow links here parts := by
  induction links, here, parts using walk_induction top with
  | nil links here => rw [walk_nil, walk_nil]
  | cons links here part rest hto hlink =>
    rw [walk_cons, walk_cons, h]
    cases hm : top.lead here part with
    | goes place => exact hto place hm
    | missing => rfl
    | fault e => rfl
    | link target =>
      cases links with
      | zero => rfl
      | succ less => simp only [hlink target less hm rfl]

theorem walk_shape (top : Node) (follow : Bool) (links : Nat) (here : Place) (parts : List Text) :
    walk top.shape follow links here parts = walk top follow links here parts :=
  walk_congr (lead_shape top) follow links here parts

/-- A walk that leads somewhere: what each of its parts does. -/
inductive Walks (top : Node) (follow : Bool) (spot : Spot) : Nat → Place → List Text → Prop
  | done {links : Nat} {here : Place} :
      spot = .found here → Walks top follow spot links here []
  | goes {links : Nat} {here place : Place} {part : Text} {rest : List Text} :
      top.lead here part = .goes place → Walks top follow spot links place rest →
        Walks top follow spot links here (part :: rest)
  | link {links : Nat} {here : Place} {part target : Text} {rest : List Text} :
      top.lead here part = .link target → (rest.isEmpty && !follow) = false →
        Walks top follow spot links (linkStart here target) (Path.parts target ++ rest) →
        Walks top follow spot (links + 1) here (part :: rest)
  | kept {links : Nat} {here : Place} {part target : Text} :
      top.lead here part = .link target → follow = false → spot = .found (here ++ [part]) →
        Walks top follow spot links here [part]
  | absent {links : Nat} {here : Place} {part : Text} {rest : List Text} :
      top.lead here part = .missing → rest.all (·.isEmpty) = true →
        spot = .absent here part (!rest.isEmpty) → Walks top follow spot links here (part :: rest)

theorem walks_of_eq_ok {top : Node} {follow : Bool} {links : Nat} {here : Place} {parts : List Text}
    {spot : Spot} (h : walk top follow links here parts = .ok spot) :
    Walks top follow spot links here parts := by
  induction links, here, parts using walk_induction top with
  | nil links here =>
    rw [walk_nil] at h
    exact .done (Except.ok.inj h).symm
  | cons links here part rest hto hlink =>
    rw [walk_cons] at h
    cases hm : top.lead here part with
    | goes place =>
      rw [hm] at h
      exact .goes hm (hto place hm h)
    | missing =>
      simp only [hm] at h
      split at h
      · next hrest => exact .absent hm hrest (Except.ok.inj h).symm
      · contradiction
    | fault e => simp [hm] at h
    | link target =>
      simp only [hm] at h
      split at h
      · next hlast =>
        obtain ⟨hrest, hfollow⟩ : rest = [] ∧ follow = false := by simpa using hlast
        exact hrest ▸ .kept hm hfollow (Except.ok.inj h).symm
      · next hmore =>
        cases links with
        | zero => contradiction
        | succ less => exact .link hm (Bool.eq_false_iff.2 hmore) (hlink target less hm rfl h)

namespace Walks
variable {top : Node} {follow : Bool} {spot : Spot}

theorem walk_eq {links : Nat} {here : Place} {parts : List Text}
    (h : Walks top follow spot links here parts) : walk top follow links here parts = .ok spot := by
  induction h with
  | done hspot => rw [walk_nil, hspot]
  | goes hm _ ih =>
    rw [walk_cons, hm]
    exact ih
  | link hm hmore _ ih =>
    rw [walk_cons, hm]
    simpa only [hmore, Bool.false_eq_true, if_false] using ih
  | kept hm hfollow hspot => simp [walk_cons, hm, hfollow, hspot]
  | absent hm hrest hspot => simp only [walk_cons, hm, hrest, if_true, hspot]

end Walks

/-- What follows a path that leads to a place is followed from there. -/
theorem walk_append {top : Node} {links : Nat} {here place : Place} {parts : List Text}
    (h : walk top true links here parts = .ok (.found place)) (follow : Bool) {rest : List Text}
    (hrest : rest ≠ []) :
    ∃ less, walk top follow links here (parts ++ rest) = walk top follow less place rest := by
  replace h := walks_of_eq_ok h
  induction h with
  | @done links here hspot =>
    obtain rfl := Spot.found.inj hspot
    exact ⟨links, rfl⟩
  | goes hm _ ih =>
    rw [List.cons_append, walk_cons, hm]
    exact ih
  | @link _ _ _ _ more hm _ _ ih =>
    have hmore : (more ++ rest).isEmpty = false := by simp [hrest]
    simp only [List.cons_append, walk_cons, hm, hmore, Bool.false_and, Bool.false_eq_true, if_false,
      ← List.append_assoc]
    exact ih
  | kept _ hfollow => contradiction
  | absent _ _ hspot => contradiction

/-- A path that goes on behind some parts has a place where it goes on from. -/
theorem exists_of_walk_append {top : Node} {follow : Bool} {links : Nat} {here : Place}
    {parts : List Text} {name : Text} (hname : name ≠ []) {spot : Spot}
    (h : walk top follow links here (parts ++ [name]) = .ok spot) :
    ∃ place, walk top true links here parts = .ok (.found place) := by
  induction links, here, parts using walk_induction top with
  | nil links here => exact ⟨here, walk_nil top true links here⟩
  | cons links here part rest hto hlink =>
    have hmore : (rest ++ [name]).isEmpty = false := by simp
    rw [List.cons_append, walk_cons] at h
    rw [walk_cons]
    cases hm : top.lead here part with
    | goes place =>
      rw [hm] at h
      exact hto place hm h
    | missing => simp [hm, hname] at h
    | fault e => simp [hm] at h
    | link target =>
      simp only [hm, hmore, Bool.false_and, Bool.false_eq_true, if_false] at h
      simp only [Bool.not_true, Bool.and_false, Bool.false_eq_true, if_false]
      cases links with
      | zero => contradiction
      | succ less => exact hlink target less hm rfl (by rwa [List.append_assoc])

/-- A walk is taken again where every part that leads on leads there still. -/
theorem walk_found_of_lead {top after : Node} (hsame : ∀ here part l, top.lead here part = l →
      l ≠ .missing → (∀ e, l ≠ .fault e) → after.lead here part = l)
    {follow : Bool} {links : Nat} {here place : Place} {parts : List Text}
    (h : walk top follow links here parts = .ok (.found place)) :
    walk after follow links here parts = .ok (.found place) := by
  replace h := walks_of_eq_ok h
  apply Walks.walk_eq
  induction h with
  | done hspot => exact .done hspot
  | goes hm _ ih => exact .goes (hsame _ _ _ hm (by simp) (by simp)) ih
  | link hm hmore _ ih => exact .link (hsame _ _ _ hm (by simp) (by simp)) hmore ih
  | kept hm hfollow hspot => exact .kept (hsame _ _ _ hm (by simp) (by simp)) hfollow hspot
  | absent _ _ hspot => contradiction

/-- A slash too many between two names does no harm. -/
theorem walk_append_nil (top : Node) (follow : Bool) (links : Nat) (here : Place)
    (parts : List Text) {rest : List Text} (hrest : rest ≠ []) :
    walk top follow links here (parts ++ [] :: rest) =
      walk top follow links here (parts ++ rest) := by
  induction links, here, parts using walk_induction top with
  | nil links here =>
    obtain ⟨part, rest, rfl⟩ := List.exists_cons_of_ne_nil hrest
    rw [List.nil_append, List.nil_append, walk_cons]
    cases hn : top.at? here with
    | none => simp [walk_cons, lead, hn]
    | some n => cases n <;> simp [walk_cons, lead, hn]
  | cons links here part parts hto hlink =>
    have hlong : (parts ++ [] :: rest).isEmpty = false := by simp
    have hshort : (parts ++ rest).isEmpty = false := by simp [hrest]
    rw [List.cons_append, List.cons_append, walk_cons, walk_cons]
    cases hm : top.lead here part with
    | goes next => exact hto next hm
    | missing => simp [hlong, hshort]
    | fault e => rfl
    | link target =>
      simp only [hlong, hshort, Bool.false_and, Bool.false_eq_true, if_false]
      cases links with
      | zero => rfl
      | succ less =>
        simp only [← List.append_assoc]
        exact hlink target less hm rfl

/-- Where the last link is not followed, there is no difference unless it is one. -/
theorem walk_follow {top : Node} {links : Nat} {here place : Place} {parts : List Text}
    (h : walk top false links here parts = .ok (.found place))
    (hlink : ∀ target, top.at? place ≠ some (.link target)) :
    walk top true links here parts = .ok (.found place) := by
  apply Walks.walk_eq
  replace h := walks_of_eq_ok h
  induction h with
  | done hspot => exact .done hspot
  | goes hm _ ih => exact .goes hm ih
  | link hm _ _ ih => exact .link hm (by simp) ih
  | kept hm _ hspot =>
    rw [Spot.found.inj hspot] at hlink
    exact absurd (at?_of_lead_link hm) (hlink _)
  | absent _ _ hspot => contradiction

/-- A path that leads to its end also leads to what its last part names. -/
theorem walk_unfollowed {top : Node} {links : Nat} {here place : Place} {parts : List Text}
    (h : walk top true links here parts = .ok (.found place))
    (hhere : parts = [] → ∃ m, top.at? here = some m) :
    ∃ p m, walk top false links here parts = .ok (.found p) ∧ top.at? p = some m := by
  replace h := walks_of_eq_ok h
  induction h with
  | @done links here _ =>
    obtain ⟨m, hm⟩ := hhere rfl
    exact ⟨here, m, walk_nil top false links here, hm⟩
  | goes hm _ ih =>
    obtain ⟨m, hplace, -⟩ := at?_of_lead_goes hm
    rw [walk_cons, hm]
    exact ih fun _ => ⟨m, hplace⟩
  | @link links here part target rest hm _ _ ih =>
    rw [walk_cons, hm]
    by_cases hrest : rest = []
    · exact ⟨here ++ [part], .link target, by simp [hrest], at?_of_lead_link hm⟩
    · simp only [List.isEmpty_eq_false_iff.2 hrest, Bool.false_and, Bool.false_eq_true, if_false]
      exact ih fun hnil => absurd (List.append_eq_nil_iff.1 hnil).2 hrest
  | kept _ hfollow => contradiction
  | absent _ _ hspot => contradiction

/-- A walk that follows links to the end leads to a node that is there and is no link. -/
theorem walk_found {top : Node} {links : Nat} {here place : Place} {parts : List Text}
    (h : walk top true links here parts = .ok (.found place))
    (hhere : parts = [] → ∃ m, top.at? here = some m ∧ ∀ target, m ≠ .link target) :
    ∃ m, top.at? place = some m ∧ ∀ target, m ≠ .link target := by
  replace h := walks_of_eq_ok h
  induction h with
  | done hspot =>
    rw [Spot.found.inj hspot]
    exact hhere rfl
  | goes hm _ ih => exact ih fun _ => at?_of_lead_goes hm
  | link _ _ _ ih => exact ih fun hnil => by simp [Path.parts_ne_nil] at hnil
  | kept _ hfollow => contradiction
  | absent _ _ hspot => contradiction

/-- The names of a place lead to it, if none of them is too long, and a path goes on from there. -/
theorem walk_names_append {top n m : Node} (follow : Bool) (links : Nat) {here q : Place}
    (hn : top.at? here = some n) (hm : n.at? q = some m) (hlink : ∀ target, m ≠ .link target)
    (hnames : ∀ name ∈ q, IsName name) (rest : List Text) :
    walk top follow links here (q ++ rest) =
      if ∀ name ∈ q, Utf8.size name ≤ 255 then walk top follow links (here ++ q) rest
      else .error .nameTooLong := by
  induction q generalizing here n with
  | nil => simp
  | cons name q ih =>
    obtain ⟨es, node, rfl, hl, hnode⟩ := exists_of_at?_cons hm
    obtain ⟨hname, hq⟩ := List.forall_mem_cons.1 hnames
    have hlead : top.lead here name =
        if 255 < Utf8.size name then .fault .nameTooLong else .goes (here ++ [name]) := by
      rw [lead_name hn hname, hl]
      cases node with
      | file => rfl
      | dir => rfl
      | link target =>
        cases q with
        | nil => exact absurd (by simpa using hnode.symm) (hlink target)
        | cons => simp [at?] at hnode
    have hnext : top.at? (here ++ [name]) = some node := (at?_concat hn name).trans hl
    rw [List.cons_append, walk_cons, hlead]
    by_cases hsize : Utf8.size name ≤ 255
    · simp only [if_neg (Nat.not_lt.2 hsize), ih hnext hnode hq, List.forall_mem_cons, hsize,
        true_and, List.append_assoc, List.singleton_append]
    · simp [Nat.not_le.1 hsize, hsize]

theorem walk_names {top n m : Node} (follow : Bool) (links : Nat) {here q : Place}
    (hn : top.at? here = some n) (hm : n.at? q = some m) (hlink : ∀ target, m ≠ .link target)
    (hnames : ∀ name ∈ q, IsName name) :
    walk top follow links here q =
      if ∀ name ∈ q, Utf8.size name ≤ 255 then .ok (.found (here ++ q)) else .error .nameTooLong := by
  have hwalk := walk_names_append follow links hn hm hlink hnames []
  rwa [List.append_nil, walk_nil] at hwalk

end GuardedCalls.Node
