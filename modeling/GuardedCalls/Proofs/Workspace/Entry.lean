import GuardedCalls.Proofs.Workspace.Discovery
import GuardedCalls.Workspace.Guard
import GuardedCalls.Workspace.Store

/-! Source files below a root: how the scan reads them, and where the guard leads from the names that
are in its report. -/

namespace GuardedCalls

/-- The names that lead from the root to a source file, and the text in it. -/
structure Entry where
  names : List Text
  source : Text
deriving DecidableEq, Repr

namespace Entry

def file (e : Entry) : Text := Text.join ['/'] e.names

def report (rules : RuleSet) (e : Entry) : FileReport := rules.scan e.file e.source

/-- A tree has the text of the entry in its place below the root. -/
structure Holds (e : Entry) (root : Place) (top : Node) : Prop where
  name : ∀ name ∈ e.names, IsName name
  content : ∃ b, top.at? (root ++ e.names) = some (.file b) ∧ Utf8.decode b = .ok e.source

end Entry

namespace Node
variable {top : Node} {base place : Place} {root : Text} {names : List Text} {b : Bytes}

/-- Reading goes by the shape of the tree and by the content in one place. -/
theorem readSource_joinAll (hroot : top.canonical base root = .ok place)
    (hnames : ∀ name ∈ names, IsName name) (hb : top.at? (place ++ names) = some (.file b)) :
    top.readSource base (Path.joinAll root names) =
      match top.shape.locate base true (Path.joinAll root names) with
      | .error fault => .error fault.message
      | .ok _ => (Utf8.decode b).mapError fun fault => "invalid UTF-8: ".toList ++ fault.message := by
  rw [readSource, read, locate_shape]
  cases hl : top.locate base true (Path.joinAll root names) with
  | error fault => rfl
  | ok spot =>
    obtain rfl := locate_joinAll hroot hb hnames hl
    simp only [bind, Except.bind, contentAt, hb]
    cases Utf8.decode b <;> rfl

theorem readSource_eq_ok (hroot : top.canonical base root = .ok place) (hne : names ≠ [])
    (hnames : ∀ name ∈ names, IsName name) (hb : top.at? (place ++ names) = some (.file b))
    (hpath : checkPath (Path.joinAll root names) = .ok ()) (hsize : ∀ name ∈ names, Utf8.size name ≤ 255)
    {source : Text} (hdecode : Utf8.decode b = .ok source) :
    top.readSource base (Path.joinAll root names) = .ok source := by
  have hlocate : top.locate base true (Path.joinAll root names) = .ok (.found (place ++ names)) :=
    locate_eq_ok.2 ⟨hpath, (walk_joinAll hroot hb hne hnames).trans (if_pos hsize)⟩
  rw [readSource_joinAll hroot hnames hb, locate_shape, hlocate, hdecode]
  rfl

/-- A file that was read is read again in a tree of the same shape, with what it then holds. -/
theorem readSource_of_ok (hroot : top.canonical base root = .ok place) {e : Entry}
    (hb : top.at? (place ++ e.names) = some (.file b)) {source : Text}
    (h : top.readSource base (Path.joinAll root e.names) = .ok source) {after : Node}
    (hs : after.shape = top.shape) (he : e.Holds place after) :
    after.readSource base (Path.joinAll root e.names) = .ok e.source := by
  obtain ⟨b', hb', hdecode⟩ := he.content
  have hroot' := (canonical_congr hs base root).trans hroot
  rw [readSource_joinAll hroot he.name hb] at h
  rw [readSource_joinAll hroot' he.name hb', hs, hdecode]
  cases hl : top.shape.locate base true (Path.joinAll root e.names) with
  | error fault => simp [hl] at h
  | ok spot => rfl

theorem decode_of_readSource (hroot : top.canonical base root = .ok place)
    (hnames : ∀ name ∈ names, IsName name) (hb : top.at? (place ++ names) = some (.file b))
    {source : Text} (h : top.readSource base (Path.joinAll root names) = .ok source) :
    Utf8.decode b = .ok source := by
  rw [readSource_joinAll hroot hnames hb] at h
  cases hl : top.shape.locate base true (Path.joinAll root names) with
  | error fault => simp [hl] at h
  | ok spot =>
    cases hd : Utf8.decode b with
    | error fault => simp [hl, hd, Except.mapError] at h
    | ok t => simpa [hl, hd, Except.mapError] using h

theorem readSource_congr (hroot : top.canonical base root = .ok place)
    (hnames : ∀ name ∈ names, IsName name) (hb : top.at? (place ++ names) = some (.file b))
    {after : Node} (hs : after.shape = top.shape)
    (hb' : after.at? (place ++ names) = some (.file b)) :
    after.readSource base (Path.joinAll root names) =
      top.readSource base (Path.joinAll root names) := by
  have hroot' := (canonical_congr hs base root).trans hroot
  rw [readSource_joinAll hroot hnames hb, readSource_joinAll hroot' hnames hb', hs]

end Node

namespace Guard

theorem validate_congr (g : Guard) {top after : Node} (hs : after.shape = top.shape) (path : Text) :
    g.validate after path = g.validate top path := by
  rw [validate, validate, resolve, resolve, Node.canonical_congr hs, Node.canonical_congr hs]

/-- What the guard lets through is below the root, past none of the forbidden names. -/
theorem check_eq_ok {g : Guard} {place found : Place} : g.check place = .ok found ↔
    found = place ∧ ∃ below, place = g.root ++ below ∧ ∀ name ∈ below, name ∉ g.forbidden := by
  rw [check]
  split
  · next hb =>
    refine iff_of_false (by simp) fun ⟨_, below, hplace, _⟩ => ?_
    rw [Path.dropStart?_eq_some.2 hplace] at hb
    contradiction
  next below hb =>
  obtain rfl := Path.dropStart?_eq_some.1 hb
  simp only [List.append_cancel_left_eq, exists_eq_left']
  split
  · next name hname =>
    have hmem := List.mem_of_find?_eq_some hname
    have hforbidden : name ∈ g.forbidden := by simpa using List.find?_some hname
    exact iff_of_false (by simp) fun ⟨_, hfree⟩ => hfree name hmem hforbidden
  · next hname =>
    have hfree : ∀ name ∈ below, name ∉ g.forbidden := by simpa using hname
    rw [Except.ok.injEq, eq_comm]
    exact (and_iff_left hfree).symm

theorem eq_of_check {g : Guard} {place found : Place} (h : g.check place = .ok found) :
    found = place :=
  (check_eq_ok.1 h).1

theorem validate_eq_ok {g : Guard} {top : Node} {path : Text} {place : Place} :
    g.validate top path = .ok place ↔ g.resolve top path = .ok place ∧ g.check place = .ok place := by
  rw [validate]
  cases g.resolve top path with
  | error e => simp
  | ok found =>
    simp only [Except.ok.injEq]
    constructor
    · intro h
      obtain rfl := eq_of_check h
      exact ⟨rfl, h⟩
    · rintro ⟨rfl, h⟩
      exact h

/-- What the guard lets through is there and is no link. -/
theorem validate_found {g : Guard} {top : Node} {path : Text} {place : Place}
    (h : g.validate top path = .ok place) :
    top.isDir = true ∧ ∃ m, top.at? place = some m ∧ ∀ target, m ≠ .link target := by
  rw [validate, resolve] at h
  split at h
  · next found hfound =>
    obtain rfl := eq_of_check h
    split at hfound
    · exact ⟨Node.isDir_of_canonical hfound, Node.canonical_found hfound⟩
    · exact ⟨Node.isDir_of_canonical hfound, Node.canonical_found hfound⟩
  · contradiction

/-- The name of a file below the root leads to that file; the root itself is no file then. -/
theorem validate_join {g : Guard} {top : Node} {names : List Text} {b : Bytes} {found : Place}
    (hnames : ∀ name ∈ names, IsName name) (hb : top.at? (g.root ++ names) = some (.file b))
    (h : g.validate top (Text.join ['/'] names) = .ok found) :
    found = g.root ++ names ∧ names ≠ [] := by
  rw [validate] at h
  split at h
  · next place hplace =>
    obtain rfl := eq_of_check h
    rw [resolve] at hplace
    by_cases hne : names = []
    · subst hne
      rw [List.append_nil] at hb
      have hparts : Path.parts ['.'] = [['.']] := rfl
      simp [Node.canonical_eq_ok, Text.join, Node.start, Path.isAbsolute, hparts, Node.walk_cons,
        Node.lead, hb] at hplace
    · refine ⟨?_, hne⟩
      rw [if_neg (by simpa using Path.join_ne_nil hne hnames),
        Node.canonical_join hb hne hnames] at hplace
      exact hplace.1
  · contradiction

section Below
variable {g : Guard} {top : Node} {below : List Text} {name : Text} {b : Bytes}

/-- The name of a file is looked at like those of the directories above it. -/
theorem check_concat (hbelow : ∀ name ∈ below, name ∉ g.forbidden) :
    g.check (g.root ++ (below ++ [name])) =
      if name ∈ g.forbidden then .error (.forbidden (g.root ++ (below ++ [name])) name)
      else .ok (g.root ++ (below ++ [name])) := by
  have hnone : below.find? g.forbidden.contains = none := by simpa using hbelow
  have hfind : (below ++ [name]).find? g.forbidden.contains =
      if name ∈ g.forbidden then some name else none := by
    rw [List.find?_append, hnone, Option.none_or]
    by_cases hname : name ∈ g.forbidden <;> simp [hname]
  rw [check, Path.dropStart?_eq_some.2 rfl]
  simp only [hfind]
  by_cases hname : name ∈ g.forbidden <;> simp [hname]

theorem validate_concat (hnames : ∀ n ∈ below ++ [name], IsName n)
    (hb : top.at? (g.root ++ (below ++ [name])) = some (.file b))
    (husable : ∀ n ∈ below ++ [name], Node.IsUsable n)
    (hbelow : ∀ name ∈ below, name ∉ g.forbidden) :
    g.validate top (Text.join ['/'] (below ++ [name])) =
      if name ∈ g.forbidden then .error (.forbidden (g.root ++ (below ++ [name])) name)
      else .ok (g.root ++ (below ++ [name])) := by
  have hne : below ++ [name] ≠ [] := by simp
  have hresolve : g.resolve top (Text.join ['/'] (below ++ [name])) =
      .ok (g.root ++ (below ++ [name])) := by
    rw [resolve, if_neg (by simpa using Path.join_ne_nil hne hnames)]
    exact (Node.canonical_join hb hne hnames).2 ⟨rfl, husable⟩
  rw [validate, hresolve, ← check_concat hbelow]

/-- A file in the root itself. -/
theorem validate_singleton (hname : IsName name) (hb : top.at? (g.root ++ [name]) = some (.file b))
    (husable : Node.IsUsable name) :
    g.validate top (Text.join ['/'] [name]) =
      if name ∈ g.forbidden then .error (.forbidden (g.root ++ [name]) name)
      else .ok (g.root ++ [name]) :=
  validate_concat (List.forall_mem_singleton.2 hname) hb (List.forall_mem_singleton.2 husable)
    fun _ hmem => absurd hmem List.not_mem_nil

theorem validate_name (hname : IsName name) (hb : top.at? (g.root ++ [name]) = some (.file b))
    (husable : Node.IsUsable name) (hallowed : name ∉ g.forbidden) :
    g.validate top (Text.join ['/'] [name]) = .ok (g.root ++ [name]) :=
  (validate_singleton hname hb husable).trans (if_neg hallowed)

end Below

end Guard
end GuardedCalls
