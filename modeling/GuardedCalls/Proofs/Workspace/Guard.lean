import GuardedCalls.Proofs.Workspace.Entry
import Mathlib

/-! What the guard lets through: paths that lead below the root, past no forbidden name. A path is
followed to its end first, and then judged by the names of the place where it leads. -/

namespace GuardedCalls
namespace Node

mutual

/-- The names of all that is in a tree. -/
def namesBelow : Node → List Text
  | file _ => []
  | link _ => []
  | dir es => namesAmong es

def namesAmong : List (Text × Node) → List Text
  | [] => []
  | (name, node) :: es => name :: (namesBelow node ++ namesAmong es)

end

theorem mem_namesAmong {es : List (Text × Node)} {name : Text} {node : Node}
    (h : (name, node) ∈ es) : name ∈ namesAmong es ∧ namesBelow node ⊆ namesAmong es := by
  induction es with
  | nil => contradiction
  | cons e es ih =>
    rw [namesAmong]
    rcases List.mem_cons.1 h with rfl | h
    · exact ⟨List.mem_cons_self, fun n hn =>
        List.mem_cons_of_mem _ (List.mem_append_left _ hn)⟩
    · obtain ⟨hname, hnode⟩ := ih h
      exact ⟨List.mem_cons_of_mem _ (List.mem_append_right _ hname), fun n hn =>
        List.mem_cons_of_mem _ (List.mem_append_right _ (hnode hn))⟩

theorem subset_namesBelow {n m : Node} {p : Place} (h : n.at? p = some m) : p ⊆ n.namesBelow := by
  induction p generalizing n with
  | nil => exact List.nil_subset _
  | cons name p ih =>
    obtain ⟨es, node, rfl, hl, h⟩ := exists_of_at?_cons h
    obtain ⟨hname, hnode⟩ := mem_namesAmong (mem_of_lookup hl)
    exact List.cons_subset.2 ⟨hname, List.Subset.trans (ih h) hnode⟩

instance (name : Text) : Decidable (IsUsable name) :=
  decidable_of_iff ('\x00' ∉ name ∧ Utf8.size name ≤ 255)
    ⟨fun ⟨nul, size⟩ => ⟨nul, size⟩, fun h => ⟨h.nul, h.size⟩⟩

/-- A tree as an operating system keeps it. -/
structure IsKept (top : Node) : Prop where
  wellFormed : top.WellFormed
  usable : ∀ name ∈ top.namesBelow, IsUsable name

instance (top : Node) : Decidable top.IsKept :=
  decidable_of_iff (top.WellFormed ∧ ∀ name ∈ top.namesBelow, IsUsable name)
    ⟨fun ⟨wellFormed, usable⟩ => ⟨wellFormed, usable⟩, fun h => ⟨h.wellFormed, h.usable⟩⟩

namespace IsKept
variable {top m : Node} {p : Place}

theorem isUsable (ht : top.IsKept) (hm : top.at? p = some m) : ∀ name ∈ p, IsUsable name :=
  fun name hmem => ht.usable name (subset_namesBelow hm hmem)

theorem nul_notMem_toText (ht : top.IsKept) (hm : top.at? p = some m) : '\x00' ∉ p.toText :=
  (Place.notMem_toText (by decide)).2 fun name hmem => (ht.isUsable hm name hmem).nul

/-- The place of a path is the place of its own text. -/
theorem canonical_toText {base : Place} {path : Text} (ht : top.IsKept)
    (h : top.canonical base path = .ok p) (base' : Place) :
    top.canonical base' p.toText = .ok p := by
  obtain ⟨m, hm, hlink⟩ := canonical_found h
  have hwalk := walk_start_toText (isDir_of_canonical h) base' true hm hlink
    (ht.wellFormed.at? hm).2
  rw [if_pos fun name hmem => (ht.isUsable hm name hmem).size] at hwalk
  exact canonical_eq_ok.2 ⟨ht.nul_notMem_toText hm, by simp [Place.toText_eq], hwalk⟩

/-- Behind the text of a place a path is followed from there. -/
theorem walk_join {base : Place} {root path : Text} (ht : top.IsKept)
    (h : top.canonical base root = .ok p) (hpath : Path.isAbsolute path = false) :
    walk top true maxLinks (start [] (Path.join p.toText path))
        (Path.parts (Path.join p.toText path)) =
      walk top true maxLinks p (Path.parts path) := by
  obtain ⟨m, hm, hlink⟩ := canonical_found h
  have hnames := (ht.wellFormed.at? hm).2
  rw [start, ite_self, Place.parts_join hnames hpath, walk_cons, lead_top (isDir_of_canonical h)]
  simp only [walk_names_append true _ (at?_nil top) hm hlink hnames]
  rw [if_pos fun name hmem => (ht.isUsable hm name hmem).size, List.nil_append]

end IsKept

/-- A point leads nowhere else. -/
theorem walk_point (top : Node) (follow : Bool) (links : Nat) (here : Place) :
    walk top follow links here (Path.parts ['.']) = walk top follow links here (Path.parts []) := by
  have hparts : Path.parts ['.'] = [['.']] := rfl
  rw [hparts, Path.parts, walk_cons, walk_cons]
  cases hn : top.at? here with
  | none => simp [lead, hn]
  | some n => cases n <;> simp [lead, hn]

end Node

namespace Guard
variable {g : Guard} {top : Node} {base : Place} {root : Text}

theorem ofPath_eq_ok {forbidden : List Text} : ofPath top base root forbidden = .ok g ↔
    top.canonical base root = .ok g.root ∧ g.forbidden = forbidden := by
  rw [ofPath]
  obtain ⟨place, names⟩ := g
  cases top.canonical base root <;> simp [eq_comm]

/-- To follow a path from the root is to follow it behind the text of the root. -/
theorem resolve_eq (ht : top.IsKept) (hroot : top.canonical base root = .ok g.root) (path : Text) :
    g.resolve top path = top.canonical [] (Path.join g.root.toText path) := by
  rw [resolve]
  cases hpath : Path.isAbsolute path with
  | true =>
    have hne : path ≠ [] := by
      rintro rfl
      contradiction
    have hstart : Node.start g.root path = Node.start [] path := by
      rw [Node.start, Node.start, if_pos hpath, if_pos hpath]
    rw [if_neg (by simpa using hne), Path.join_of_isAbsolute hpath]
    exact Node.canonical_eq_of_walk Iff.rfl hne hne (by rw [hstart])
  | false =>
    obtain ⟨m, hm, -⟩ := Node.canonical_found hroot
    have hwalk := ht.walk_join hroot hpath
    have hnul : '\x00' ∈ Path.join g.root.toText path ↔ '\x00' ∈ path := by
      rw [Path.mem_join (by decide) hpath, or_iff_right (ht.nul_notMem_toText hm)]
    have hne : Path.join g.root.toText path ≠ [] := by
      rw [Path.join, hpath, if_neg Bool.false_ne_true]
      split <;> simp [Place.toText_eq]
    split
    · next hempty =>
      obtain rfl : path = [] := by simpa using hempty
      refine Node.canonical_eq_of_walk (by simp [hnul]) (by simp) hne ?_
      rw [hwalk]
      exact Node.walk_point top true _ g.root
    · next hempty =>
      refine Node.canonical_eq_of_walk hnul.symm (by simpa using hempty) hne ?_
      rw [hwalk, Node.start, hpath, if_neg Bool.false_ne_true]

/-- What is not below the root is refused as such. -/
theorem check_eq_outside {place found found' : Place} :
    g.check place = .error (.outside found found') ↔
      found = place ∧ found' = g.root ∧ ¬ g.root <+: place := by
  rw [check]
  split
  · next hb =>
    have hout : ¬ g.root <+: place := by
      rintro ⟨below, hbelow⟩
      rw [Path.dropStart?_eq_some.2 hbelow.symm] at hb
      contradiction
    rw [Except.error.injEq, SafetyFault.outside.injEq, and_iff_left hout, eq_comm,
      eq_comm (a := g.root)]
  · next below hb =>
    have hin : g.root <+: place := ⟨below, (Path.dropStart?_eq_some.1 hb).symm⟩
    split <;> simp [hin]

/-- Below the root the first forbidden name is what is refused. -/
theorem check_eq_forbidden {place found : Place} {name : Text} :
    g.check place = .error (.forbidden found name) ↔ found = place ∧ name ∈ g.forbidden ∧
      ∃ before after, place = g.root ++ (before ++ name :: after) ∧
        ∀ n ∈ before, n ∉ g.forbidden := by
  rw [check]
  split
  · next hb =>
    refine iff_of_false (by simp) ?_
    rintro ⟨-, -, before, after, hplace, -⟩
    rw [Path.dropStart?_eq_some.2 hplace] at hb
    contradiction
  · next below hb =>
    obtain rfl := Path.dropStart?_eq_some.1 hb
    have hfind : below.find? g.forbidden.contains = some name ↔ name ∈ g.forbidden ∧
        ∃ before after, below = before ++ name :: after ∧ ∀ n ∈ before, n ∉ g.forbidden := by
      simp [List.find?_eq_some_iff_append]
    simp only [List.append_cancel_left_eq, ← hfind]
    cases below.find? g.forbidden.contains with
    | none => simp
    | some name' => simp [eq_comm]

theorem check_ne_unresolved {place : Place} {e : TreeFault} :
    g.check place ≠ .error (.unresolved e) := by
  rw [check]
  split
  · simp
  · split <;> simp

theorem validate_eq_error {path : Text} {fault : SafetyFault} :
    g.validate top path = .error fault ↔
      (∃ e, g.resolve top path = .error e ∧ fault = .unresolved e) ∨
        ∃ p, g.resolve top path = .ok p ∧ g.check p = .error fault := by
  rw [validate]
  cases g.resolve top path <;> simp [eq_comm]

/-- The guard of a root lets a path through if it leads to a place whose names go on from those of the
root, and none of them after that is forbidden. A path is judged in this order: it must lead
somewhere, then below the root, then past no forbidden name, of which the first is blamed. What is let
through is let through again by the text of its place. -/
theorem validate_confined {forbidden : List Text} (ht : top.IsKept)
    (hg : Guard.ofPath top base root forbidden = .ok g) (path : Text) :
    let resolved := top.canonical [] (Path.join g.root.toText path)
    (∀ p, g.validate top path = .ok p ↔ resolved = .ok p ∧
      ∃ below, p = g.root ++ below ∧ ∀ name ∈ below, name ∉ forbidden) ∧
    (∀ e, g.validate top path = .error (.unresolved e) ↔ resolved = .error e) ∧
    (∀ p, g.validate top path = .error (.outside p g.root) ↔
      resolved = .ok p ∧ ¬ g.root <+: p) ∧
    (∀ p name, g.validate top path = .error (.forbidden p name) ↔ resolved = .ok p ∧
      name ∈ forbidden ∧ ∃ before after, p = g.root ++ (before ++ name :: after) ∧
        ∀ n ∈ before, n ∉ forbidden) ∧
    ∀ p, g.validate top path = .ok p → g.validate top p.toText = .ok p := by
  obtain ⟨hroot, rfl⟩ := ofPath_eq_ok.1 hg
  intro resolved
  have hresolved : g.resolve top path = resolved := resolve_eq ht hroot path
  refine ⟨fun p => ?_, fun e => ?_, fun p => ?_, fun p name => ?_, fun p hp => ?_⟩
  · rw [validate_eq_ok, check_eq_ok, hresolved, and_iff_right rfl]
  · simp [validate_eq_error, check_ne_unresolved, hresolved]
  · simp [validate_eq_error, check_eq_outside, hresolved]
  · simp [validate_eq_error, check_eq_forbidden, hresolved]
  · obtain ⟨hp, hcheck⟩ := validate_eq_ok.1 hp
    refine validate_eq_ok.2 ⟨?_, hcheck⟩
    rw [resolve_eq ht hroot, Path.join_of_isAbsolute p.isAbsolute_toText]
    exact ht.canonical_toText (hresolved ▸ hp) []

/-- A root behind a link, a link that leaves the root and comes back, one to a sibling with a longer
name, and one past a forbidden name. -/
theorem validate_confined_linked :
    let top : Node := .dir [("w".toList, .dir [("src".toList, .dir [("a.ts".toList, .file [])]),
        ("dist".toList, .dir [("b.ts".toList, .file [])]), ("back".toList, .link "../r/src".toList),
        ("out".toList, .link "/w2/c.ts".toList), ("past".toList, .link "back/../dist/b.ts".toList)]),
      ("w2".toList, .dir [("c.ts".toList, .file [])]), ("r".toList, .link "w".toList)]
    let g : Guard := ⟨["w".toList], ["dist".toList]⟩
    top.IsKept ∧ ofPath top [] "r".toList ["dist".toList] = .ok g ∧
      g.validate top "back/a.ts".toList = .ok ["w".toList, "src".toList, "a.ts".toList] ∧
      g.validate top "/w/src/a.ts".toList = .ok ["w".toList, "src".toList, "a.ts".toList] ∧
      g.validate top "out".toList = .error (.outside ["w2".toList, "c.ts".toList] ["w".toList]) ∧
      g.validate top "past".toList =
        .error (.forbidden ["w".toList, "dist".toList, "b.ts".toList] "dist".toList) ∧
      g.validate top "back/b.ts".toList = .error (.unresolved .notFound) := by
  intro top g
  have ht : top.IsKept := by decide +kernel
  have hg : ofPath top [] "r".toList ["dist".toList] = .ok g := by cbv
  have hfound : top.canonical [] "/w/back/a.ts".toList =
      .ok ["w".toList, "src".toList, "a.ts".toList] := by cbv
  have hout : top.canonical [] "/w/out".toList = .ok ["w2".toList, "c.ts".toList] := by cbv
  have hpast : top.canonical [] "/w/past".toList =
      .ok ["w".toList, "dist".toList, "b.ts".toList] := by cbv
  have hnone : top.canonical [] "/w/back/b.ts".toList = .error .notFound := by cbv
  obtain ⟨hok, -, -, -, hagain⟩ := validate_confined ht hg "back/a.ts".toList
  have hlet : g.validate top "back/a.ts".toList = .ok ["w".toList, "src".toList, "a.ts".toList] :=
    (hok _).2 ⟨hfound, ["src".toList, "a.ts".toList], rfl, by decide⟩
  obtain ⟨-, -, houtside, -⟩ := validate_confined ht hg "out".toList
  obtain ⟨-, -, -, hforbidden, -⟩ := validate_confined ht hg "past".toList
  obtain ⟨-, hunresolved, -⟩ := validate_confined ht hg "back/b.ts".toList
  exact ⟨ht, hg, hlet, hagain _ hlet, (houtside _).2 ⟨hout, by decide⟩,
    (hforbidden _ _).2 ⟨hpast, by decide, [], ["b.ts".toList], rfl, by simp⟩,
    (hunresolved _).2 hnone⟩

end Guard
end GuardedCalls
