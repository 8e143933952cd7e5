import GuardedCalls.Proofs.Tree.Write

/-! What a write leaves of a tree. All that was there stays, so a path that led somewhere leads there
still, and only at the place of the write there may be a new file or another content. -/

namespace GuardedCalls.Node

@[simp] theorem kind_shape (n : Node) : n.shape.kind = n.kind := by
  cases n <;> rfl

theorem kind_congr {top after : Node} (hs : after.shape = top.shape) (p : Place) :
    (after.at? p).map kind = (top.at? p).map kind := by
  have hkind (n : Node) : (n.at? p).map kind = ((n.at? p).map shape).map kind := by
    rw [Option.map_map]
    exact congrArg (Option.map · (n.at? p)) (funext fun m => (kind_shape m).symm)
  rw [hkind, at?_congr hs, ← hkind]

theorem at?_of_kind_file {top : Node} {p : Place} (h : (top.at? p).map kind = some .file) :
    ∃ b, top.at? p = some (.file b) := by
  obtain ⟨m, hm, hkind⟩ := Option.map_eq_some_iff.1 h
  obtain ⟨b, rfl⟩ := kind_eq_file.1 hkind
  exact ⟨b, hm⟩

/-- What a file holds. -/
def content? : Node → Option Bytes
  | .file b => some b
  | _ => none

theorem at?_of_content? {top : Node} {p : Place} {b : Bytes}
    (h : (top.at? p).map content? = some (some b)) : top.at? p = some (.file b) := by
  obtain ⟨m, hm, hcontent⟩ := Option.map_eq_some_iff.1 h
  cases m with
  | file c => rwa [Option.some.inj hcontent] at hm
  | link => simp [content?] at hcontent
  | dir => simp [content?] at hcontent

theorem WellFormed.put {n d d' : Node} {p : Place} (h : n.WellFormed) (hp : n.at? p = some d)
    (hd : d'.WellFormed) : (n.put p d').WellFormed := by
  induction p generalizing n with
  | nil => simpa [Node.put] using hd
  | cons name p ih =>
    obtain ⟨es, node, rfl, hl, hp⟩ := exists_of_at?_cons hp
    rw [put_cons hl]
    refine .dir _ (by simpa using h.nodup) (fun e he => ?_) (fun e he => ?_)
    · have hmem := List.mem_map_of_mem (f := Prod.fst) he
      rw [map_fst_modifyEntry] at hmem
      obtain ⟨e', he', heq⟩ := List.mem_map.1 hmem
      exact heq ▸ h.isName he'
    · obtain ⟨⟨k, m⟩, hm, rfl⟩ := List.mem_map.1 he
      by_cases hk : k = name
      · obtain rfl := eq_of_lookup h.nodup hl (hk ▸ hm)
        simpa [hk] using ih (h.entry hm) hp
      · simpa [hk] using h.entry hm

/-- Whatever a tree holds is in another one too. Only at some places there may be new nodes, or other
contents of files. -/
structure Extends (top : Node) (ps : List Place) (after : Node) : Prop where
  wellFormed : after.WellFormed
  kind : ∀ q k, (top.at? q).map kind = some k → (after.at? q).map kind = some k
  fresh : ∀ q, top.at? q = none → after.at? q ≠ none → q ∈ ps
  content : ∀ q b, q ∉ ps → top.at? q = some (.file b) → after.at? q = some (.file b)

namespace Extends
variable {top mid after : Node} {ps qs : List Place}

theorem of_shape (ht : top.WellFormed) (hs : after.shape = top.shape)
    (content : ∀ q b, q ∉ ps → top.at? q = some (.file b) → after.at? q = some (.file b)) :
    Extends top ps after where
  wellFormed := ht.of_shape hs
  kind q _ hk := (kind_congr hs q).trans hk
  fresh q hnone hsome := by
    have hkind := kind_congr hs q
    rw [hnone, Option.map_none, Option.map_eq_none_iff] at hkind
    exact absurd hkind hsome
  content := content

theorem trans (h : Extends top ps mid) (h' : Extends mid qs after) :
    Extends top (ps ++ qs) after where
  wellFormed := h'.wellFormed
  kind q k hk := h'.kind q k (h.kind q k hk)
  fresh q hnone hsome := by
    by_cases hmid : mid.at? q = none
    · exact List.mem_append_right ps (h'.fresh q hmid hsome)
    · exact List.mem_append_left qs (h.fresh q hnone hmid)
  content q b hq hb := by
    rw [List.mem_append, not_or] at hq
    exact h'.content q b hq.2 (h.content q b hq.1 hb)

/-- A part leads where it led before, unless it led nowhere. -/
theorem lead_eq (h : Extends top ps after) {here : Place} {part : Text} {l : Lead}
    (hl : top.lead here part = l) (hmissing : l ≠ .missing) (hfault : ∀ e, l ≠ .fault e) :
    after.lead here part = l :=
  lead_eq_of_kind h.kind hl hmissing hfault

theorem walk_found (h : Extends top ps after) {follow : Bool} {links : Nat} {here place : Place}
    {parts : List Text} (hw : walk top follow links here parts = .ok (.found place)) :
    walk after follow links here parts = .ok (.found place) :=
  walk_found_of_lead (fun _ _ _ => h.lead_eq) hw

theorem canonical_eq (h : Extends top ps after) {base place : Place} {path : Text}
    (hp : top.canonical base path = .ok place) : after.canonical base path = .ok place := by
  obtain ⟨hnul, hne, hw⟩ := canonical_eq_ok.1 hp
  exact canonical_eq_ok.2 ⟨hnul, hne, h.walk_found hw⟩

theorem locate_found (h : Extends top ps after) {base place : Place} {follow : Bool} {path : Text}
    (hp : top.locate base follow path = .ok (.found place)) :
    after.locate base follow path = .ok (.found place) := by
  obtain ⟨hpath, hw⟩ := locate_eq_ok.1 hp
  exact locate_eq_ok.2 ⟨hpath, h.walk_found hw⟩

/-- A file that could be read is read as before, unless its place is one of those. -/
theorem read_eq (h : Extends top ps after) {base : Place} {path : Text} {b : Bytes}
    (hread : top.read base path = .ok b)
    (hplace : ∀ p, after.canonical base path = .ok p → p ∉ ps) : after.read base path = .ok b := by
  rw [read, bind_eq_ok] at hread
  obtain ⟨spot, hspot, hread⟩ := hread
  cases spot with
  | absent => simp at hread
  | found place =>
    have hat : top.at? place = some (.file b) := by
      simp only [contentAt] at hread
      split at hread <;> simp_all
    have hspot' := h.locate_found hspot
    rw [read, hspot', ok_bind]
    simp only [contentAt, h.content place b (hplace place (canonical_of_locate hspot')) hat]

end Extends

/-- The name that a walk does not find is a part of a path. -/
theorem slash_notMem_of_walk_absent {top : Node} {follow : Bool} {links : Nat} {here parent : Place}
    {parts : List Text} {name : Text} {slashes : Bool}
    (h : walk top follow links here parts = .ok (.absent parent name slashes))
    (hparts : ∀ part ∈ parts, '/' ∉ part) : '/' ∉ name := by
  replace h := walks_of_eq_ok h
  induction h with
  | done hspot => contradiction
  | goes _ _ ih => exact ih (List.forall_mem_cons.1 hparts).2
  | link _ _ _ ih =>
    refine ih fun p hp => ?_
    cases List.mem_append.1 hp with
    | inl hp => exact Path.slash_notMem_of_mem_parts hp
    | inr hp => exact (List.forall_mem_cons.1 hparts).2 p hp
  | kept _ _ hspot => contradiction
  | absent _ _ hspot =>
    obtain ⟨-, rfl, -⟩ := Spot.absent.inj hspot
    exact (List.forall_mem_cons.1 hparts).1

/-- A name that a directory does not hold could be one in it. -/
theorem isName_of_lead_missing {top : Node} {parent : Place} {name : Text}
    (h : top.lead parent name = .missing) (hslash : '/' ∉ name) : IsName name := by
  rw [lead] at h
  split at h
  · split at h
    · contradiction
    next hhere =>
    split at h
    · contradiction
    next habove =>
    simp only [Bool.or_eq_true, decide_eq_true_eq, not_or] at hhere
    exact ⟨hhere.1, hslash, hhere.2, habove⟩
  · contradiction

section Put
variable {top : Node} (hw : top.WellFormed)
include hw

/-- A file in place of another. -/
theorem extends_put_file {p : Place} {old : Bytes} (hp : top.at? p = some (.file old))
    (content : Bytes) : Extends top [p] (top.put p (.file content)) :=
  .of_shape hw (hw.shape_put hp content) fun q b hq hb => at?_put_file hp hb (by simpa using hq) _

variable {parent : Place} {es : List (Text × Node)} {name : Text}
  (hd : top.at? parent = some (.dir es)) (hl : es.lookup name = none)
include hd hl

theorem wellFormed_put_new (hname : IsName name) (content : Bytes) :
    (top.put (parent ++ [name]) (.file content)).WellFormed := by
  have hdir := (hw.at? hd).1
  have hfresh := notMem_of_lookup_eq_none hl
  rw [put_fresh hw hd hfresh]
  refine hw.put hd (.dir _ ?_ (List.forall_mem_append.2 ⟨fun _ => hdir.isName, ?_⟩)
    (List.forall_mem_append.2 ⟨fun _ => hdir.entry, ?_⟩))
  · rw [List.map_append, List.nodup_append]
    refine ⟨hdir.nodup, by simp, fun a ha b hb hab => hfresh ?_⟩
    obtain rfl : b = name := by simpa using hb
    exact hab ▸ ha
  · simpa using hname
  · simpa using WellFormed.file content

/-- A new file in a directory. -/
theorem extends_put_new (hname : IsName name) (content : Bytes) :
    Extends top [parent ++ [name]] (top.put (parent ++ [name]) (.file content)) where
  wellFormed := wellFormed_put_new hw hd hl hname content
  kind _ _ hk := kind_put_new_of_some hd hl content hk
  fresh q hq hsome := by
    by_cases hne : q = parent ++ [name]
    · simp [hne]
    · have hnot := kind_put_new hd hl content q
      rw [if_neg hne, hq, Option.map_none, Option.map_eq_none_iff] at hnot
      exact absurd hnot hsome
  content q b hq hb := by
    have hfree : ∀ all, es.lookup name ≠ some (.dir all) := by simp [hl]
    have hsame := map_put_file (f := content?) (fun _ _ => rfl) hd hfree content q
    rw [if_neg (by simpa using hq), hb] at hsame
    exact at?_of_content? hsame

end Put

/-- A write to a file extends the tree at the place to which the path then leads. -/
theorem exists_extends {top after : Node} (hw : top.WellFormed) {base : Place} {path : Text}
    {content : Bytes} (h : top.write base path content = .ok after) :
    ∃ place, after.canonical base path = .ok place ∧ after.at? place = some (.file content) ∧
      Extends top [place] after := by
  obtain ⟨place, hplace, hcontent⟩ := exists_written hw h
  refine ⟨place, canonical_of_locate hplace, hcontent, ?_⟩
  obtain ⟨found, old, hspot, hm, rfl⟩ | ⟨parent, name, hspot, rfl⟩ := write_cases h
  · have hextends := extends_put_file hw hm content
    obtain rfl : found = place := by
      have hagain := hextends.locate_found hspot
      rw [hagain] at hplace
      simpa using hplace
    exact hextends
  · obtain ⟨hpath, hwalk⟩ := locate_eq_ok.1 hspot
    have hmissing := walk_absent hwalk
    obtain ⟨es, hd, hl⟩ := exists_of_lead_missing hmissing
    obtain rfl : parent ++ [name] = place := by
      have hagain := locate_eq_ok.2 ⟨hpath, walk_put_new hwalk content⟩
      rw [hagain] at hplace
      simpa using hplace
    have hname := isName_of_lead_missing hmissing
      (slash_notMem_of_walk_absent hwalk fun part => Path.slash_notMem_of_mem_parts)
    exact extends_put_new hw hd hl hname content

end GuardedCalls.Node
