import GuardedCalls.Proofs.Text.Order
import GuardedCalls.Proofs.Tree.Extension
import GuardedCalls.Proofs.Tree.Rearranged
import GuardedCalls.Proofs.Workspace.Discovery
import Mathlib

/-! What a search returns: the files below its root that have one of the extensions and lie in none of
the ignored directories, each once and in the order of their paths. It goes neither by the name of the
root nor by the order in which directories list their entries. -/

namespace GuardedCalls
namespace Path

/-- A name with an extension: something, a point, and no further point after it. -/
def HasExtension (name ext : Text) : Prop :=
  ∃ stem, stem ≠ [] ∧ '.' ∉ ext ∧ name = stem ++ '.' :: ext

theorem extension?_of_notMem {name : Text} (h : '.' ∉ name) : extension? name = none := by
  have hall : name.reverse.takeWhile (· ≠ '.') = name.reverse := by
    refine List.takeWhile_eq_self_iff.2 fun c hc => ?_
    have hne : c ≠ '.' := fun he => h (he ▸ List.mem_reverse.1 hc)
    simpa using hne
  simp only [extension?, hall, List.length_reverse, decide_true, Bool.true_or, if_true]

theorem extension?_append (stem : Text) {ext : Text} (h : '.' ∉ ext) :
    extension? (stem ++ '.' :: ext) = if stem = [] then none else some ext := by
  have hext : (stem ++ '.' :: ext).reverse.takeWhile (· ≠ '.') = ext.reverse := by
    have hall : ∀ c ∈ ext.reverse, decide (c ≠ '.') = true := fun c hc => by
      have hne : c ≠ '.' := fun he => h (he ▸ List.mem_reverse.1 hc)
      simpa using hne
    rw [List.reverse_append, List.reverse_cons, List.append_assoc,
      List.takeWhile_append_of_pos hall]
    simp
  have hlength : ext.length ≠ (stem ++ '.' :: ext).length := by simp; omega
  have hbefore : (stem ++ '.' :: ext).take ((stem ++ '.' :: ext).length - ext.length - 1) = stem := by
    have hcut : (stem ++ '.' :: ext).length - ext.length - 1 = stem.length := by simp; omega
    rw [hcut, List.take_left]
  simp only [extension?, hext, List.reverse_reverse, hbefore, hlength, decide_false,
    Bool.false_or, List.isEmpty_iff]

theorem extension?_eq_some {name ext : Text} :
    extension? name = some ext ↔ HasExtension name ext := by
  constructor
  · intro h
    by_cases hpoint : '.' ∈ name
    · obtain ⟨behind, before, hsplit, hfree⟩ :=
        List.eq_append_cons_of_mem (List.mem_reverse.2 hpoint)
      obtain rfl : name = before.reverse ++ '.' :: behind.reverse := by
        simpa using congrArg List.reverse hsplit
      rw [extension?_append _ (by simpa using hfree)] at h
      split at h
      · contradiction
      · next hstem => exact ⟨_, hstem, by simpa [← Option.some.inj h] using hfree,
          by rw [← Option.some.inj h]⟩
    · rw [extension?_of_notMem hpoint] at h
      contradiction
  · rintro ⟨stem, hstem, hfree, rfl⟩
    rw [extension?_append stem hfree, if_neg hstem]

/-- The components that are no names come before those that are: the top, the point, the two points. -/
def componentRank (c : Text) : Nat :=
  if c = ['/'] then 0 else if c = ['.'] then 1 else if c = ['.', '.'] then 2 else 3

/-- What the order of paths looks at. -/
def orderKey (path : Text) : List (Nat ×ₗ Text) :=
  (components path).map fun c => toLex (componentRank c, c)

/-- The order of paths goes by their components, so it is not that of their texts. -/
def Before (p q : Text) : Prop :=
  orderKey p < orderKey q

theorem not_before_self (p : Text) : ¬ Before p p :=
  lt_irrefl (orderKey p)

theorem before_joinAll {root : Text} {a b : List Text} (hr : root ≠ [])
    (ha : ∀ name ∈ a, IsName name) (hb : ∀ name ∈ b, IsName name) (h : a < b) :
    Before (joinAll root a) (joinAll root b) := by
  have hnames {names : List Text} (hn : ∀ name ∈ names, IsName name) :
      names.map (fun c => toLex (componentRank c, c)) =
        names.map fun c => (toLex (3, c) : Nat ×ₗ Text) := by
    refine List.map_congr_left fun name hmem => ?_
    have hslash : name ≠ ['/'] := fun he => (hn name hmem).slash (by simp [he])
    rw [componentRank, if_neg hslash, if_neg (hn name hmem).here, if_neg (hn name hmem).above]
  rw [Before, orderKey, orderKey, components_joinAll hr ha, components_joinAll hr hb,
    List.map_append, List.map_append, hnames ha, hnames hb]
  refine List.append_left_lt (List.map_lt (fun x y hxy => ?_) h)
  exact Prod.Lex.toLex_lt_toLex.2 (.inr ⟨rfl, hxy⟩)

end Path

namespace Discovery
variable {d : Discovery} {es es' : List (Text × Node)} {names : Place}

theorem pairwise_sourcesIn {n : Node} (hn : n.WellFormed) (d : Discovery) (root : Text) :
    (d.sourcesIn root n).Pairwise (· < ·) := by
  have hle {a b : List Text} : Text.lexLe Text.le a b = true ↔ a ≤ b :=
    Text.lexLe_eq_true fun _ _ => Text.le_eq_true
  have hsorted : (d.sourcesIn root n).Pairwise (· ≤ ·) := by
    refine (List.pairwise_mergeSort ?_ ?_ _).imp hle.1
    · intro a b c hab hbc
      exact hle.2 ((hle.1 hab).trans (hle.1 hbc))
    · intro a b
      rw [Bool.or_eq_true, hle, hle]
      exact le_total a b
  exact hsorted.imp₂ (fun _ _ hab hne => lt_of_le_of_ne hab hne) (nodup_sourcesIn hn d root)

/-- Below a directory the path of the directory does not count. -/
theorem mem_sourcesIn_dir (hn : (Node.dir es).WellFormed) {root : Text} :
    names ∈ d.sourcesIn root (.dir es) ↔ ∃ above name ext, names = above ++ [name] ∧
      (∃ b, (Node.dir es).at? names = some (.file b)) ∧ Path.HasExtension name ext ∧
      ext ∈ d.extensions ∧ ∀ dir ∈ above, dir ∉ d.ignoredDirs := by
  have hsource (above : List Text) (name : Text) :
      d.isSource (Path.components root ++ (above ++ [name])) = true ↔
        ∃ ext, Path.HasExtension name ext ∧ ext ∈ d.extensions := by
    rw [isSource, ← List.append_assoc, List.getLast?_concat, Option.bind_some]
    simp [Option.any_eq_true, Path.extension?_eq_some]
  rw [mem_sourcesIn hn]
  rcases List.eq_nil_or_concat' names with rfl | ⟨above, name, rfl⟩
  · simp
  · rw [hsource, List.dropLast_concat]
    constructor
    · rintro ⟨hfile, hfree, ext, hext, hmem⟩
      exact ⟨above, name, ext, rfl, hfile, hext, hmem, hfree⟩
    · rintro ⟨above', name', ext, heq, hfile, hext, hmem, hfree⟩
      obtain ⟨rfl, hname⟩ := List.append_inj' heq rfl
      obtain rfl : name = name' := by simpa using hname
      exact ⟨hfile, hfree, ext, hext, hmem⟩

theorem sourcesIn_rearranged (hn : (Node.dir es).WellFormed)
    (h : Node.Rearranged (.dir es) (.dir es')) (root root' : Text) :
    d.sourcesIn root' (.dir es') = d.sourcesIn root (.dir es) := by
  have hn' := h.wellFormed hn
  have hfile (names : Place) : (∃ b, (Node.dir es').at? names = some (.file b)) ↔
      ∃ b, (Node.dir es).at? names = some (.file b) := by
    have hkind (n : Node) (hnode : (n.at? names).map Node.kind = some .file) :
        ∃ b, n.at? names = some (.file b) := Node.at?_of_kind_file hnode
    constructor
    · rintro ⟨b, hb⟩
      exact hkind _ (by rw [← h.kind_at?, hb]; rfl)
    · rintro ⟨b, hb⟩
      exact hkind _ (by rw [h.kind_at?, hb]; rfl)
  refine List.Pairwise.eq_of_mem_iff (pairwise_sourcesIn hn' d root') (pairwise_sourcesIn hn d root)
    fun names => ?_
  rw [mem_sourcesIn_dir hn', mem_sourcesIn_dir hn, hfile]

section Root
variable {top : Node} {base place : Place} {root : Text}

/-- A search whose root is a directory starts there, also behind links. -/
theorem rootNode_of_locate (hroot : top.locate base true root = .ok (.found place))
    (hdir : top.at? place = some (.dir es)) : rootNode top base root = .ok (.dir es) := by
  obtain ⟨hpath, hwalk⟩ := Node.locate_eq_ok.1 hroot
  obtain ⟨p, m, hunfollowed, hm⟩ :=
    Node.walk_unfollowed hwalk fun hnil => absurd hnil (Path.parts_ne_nil root)
  have hspot : top.locate base false root = .ok (.found p) :=
    Node.locate_eq_ok.2 ⟨hpath, hunfollowed⟩
  refine rootNode_eq_ok.2 ⟨p, m, hspot, hm, ?_⟩
  by_cases hlink : ∃ target, m = .link target
  · obtain ⟨target, rfl⟩ := hlink
    exact .inr ⟨target, place, rfl, hroot, by rw [hdir]; rfl⟩
  · have hplace := Node.canonical_of_locate_unfollowed hspot hm fun target ht => hlink ⟨target, ht⟩
    obtain rfl : p = place := Except.ok.inj (hplace.symm.trans (Node.canonical_of_locate hroot))
    exact .inl ⟨fun target ht => hlink ⟨target, ht⟩, Option.some.inj (hdir.symm.trans hm)⟩

theorem files_of_locate (d : Discovery) (hroot : top.locate base true root = .ok (.found place))
    (hdir : top.at? place = some (.dir es)) :
    d.files top base root = .ok ((d.sourcesIn root (.dir es)).map (Path.joinAll root)) :=
  files_eq_ok.2 ⟨.dir es, rootNode_of_locate hroot hdir, rfl⟩

theorem root_ne_nil (hroot : top.locate base true root = .ok (.found place)) : root ≠ [] :=
  (Node.checkPath_eq_ok.1 (Node.locate_eq_ok.1 hroot).1).2.1

/-- A search in a directory returns paths below it that are all different and in their order: those of
the files with one of the extensions, past no ignored directory below the root. The entries may be
listed in any order, anywhere in the tree, and the directory may have any path in any tree. -/
theorem files_exact (d : Discovery) (ht : top.WellFormed)
    (hroot : top.locate base true root = .ok (.found place))
    (hdir : top.at? place = some (.dir es)) :
    ∃ sources : List Place,
      let paths := sources.map (Path.joinAll root)
      d.files top base root = .ok paths ∧ paths.Nodup ∧ paths.Pairwise Path.Before ∧
      (∀ names, names ∈ sources ↔ ∃ above name ext, names = above ++ [name] ∧
        (∃ b, top.at? (place ++ names) = some (.file b)) ∧ Path.HasExtension name ext ∧
        ext ∈ d.extensions ∧ ∀ dir ∈ above, dir ∉ d.ignoredDirs) ∧
      (∀ top', top.Rearranged top' → d.files top' base root = .ok paths) ∧
      ∀ top' base' root' place', top'.locate base' true root' = .ok (.found place') →
        top'.at? place' = some (.dir es) →
        d.files top' base' root' = .ok (sources.map (Path.joinAll root')) := by
  have hn := (ht.at? hdir).1
  have hbelow (names : Place) : top.at? (place ++ names) = (Node.dir es).at? names := by
    rw [Node.at?_append, hdir, Option.bind_some]
  have hmem (names : Place) : names ∈ d.sourcesIn root (.dir es) ↔ _ := mem_sourcesIn_dir hn
  have hnames : ∀ names ∈ d.sourcesIn root (.dir es), ∀ name ∈ names, IsName name := by
    intro names hsource
    obtain ⟨-, -, -, -, ⟨b, hb⟩, -⟩ := (hmem names).1 hsource
    exact (hn.at? hb).2
  have hordered : ((d.sourcesIn root (.dir es)).map (Path.joinAll root)).Pairwise Path.Before := by
    refine List.pairwise_map.2 ((pairwise_sourcesIn hn d root).imp_of_mem fun ha hb hab => ?_)
    exact Path.before_joinAll (root_ne_nil hroot) (hnames _ ha) (hnames _ hb) hab
  refine ⟨d.sourcesIn root (.dir es), files_of_locate d hroot hdir, ?_, hordered, ?_, ?_, ?_⟩
  · refine hordered.imp fun {a b} hab => ?_
    rintro rfl
    exact Path.not_before_self a hab
  · simpa only [hbelow] using hmem
  · intro top' hsame
    obtain ⟨es', hdir', hentries⟩ := hsame.exists_dir hdir
    have hroot' := (hsame.locate_eq base true root).trans hroot
    rw [files_of_locate d hroot' hdir', sourcesIn_rearranged hn hentries root root]
  · intro top' base' root' place' hroot' hdir'
    rw [files_of_locate d hroot' hdir', sourcesIn_rearranged hn (.refl hn) root root']

end Root

/-- The root is a link to a directory with an ignored name. The path in a directory comes before one
that its text does not come before; a name that starts with its only point, a link and a file in an
ignored directory are left out. -/
theorem files_exact_linked :
    let d : Discovery := ⟨["ts".toList], ["dist".toList]⟩
    let es : List (Text × Node) := [("b.tsx".toList, .file []), ("a.ts".toList, .file []),
      ("a".toList, .dir [("b.ts".toList, .file []),
        ("dist".toList, .dir [("c.ts".toList, .file [])])]),
      (".ts".toList, .file []), ("l.ts".toList, .link "a.ts".toList)]
    let top : Node := .dir [("dist".toList, .dir es), ("r".toList, .link "dist".toList)]
    let top' : Node := .dir [("r".toList, .link "dist".toList), ("dist".toList, .dir es.reverse)]
    let paths := ["r/a/b.ts".toList, "r/a.ts".toList]
    top.WellFormed ∧ top.locate [] true "r".toList = .ok (.found ["dist".toList]) ∧
      top.at? ["dist".toList] = some (.dir es) ∧ top.Rearranged top' ∧
      d.files top [] "r".toList = .ok paths ∧ paths.Pairwise Path.Before ∧
      d.files top' [] "r".toList = .ok paths := by
  intro d es top top' paths
  have ht : top.WellFormed := by decide +kernel
  have hroot : top.locate [] true "r".toList = .ok (.found ["dist".toList]) := by cbv
  have hdir : top.at? ["dist".toList] = some (.dir es) := rfl
  have hsame : top.Rearranged top' := by
    refine .dir _ _ (.swap _ _ []) fun name node node' hmem hmem' => ?_
    simp only [List.mem_cons, Prod.mk.injEq, List.not_mem_nil, or_false] at hmem hmem'
    rcases hmem with ⟨rfl, rfl⟩ | ⟨rfl, rfl⟩
    · obtain rfl : node' = .dir es.reverse := by simpa using hmem'
      exact .of_perm (ht.at? hdir).1 es.reverse_perm.symm
    · obtain rfl : node' = .link "dist".toList := by simpa using hmem'
      exact .link _
  have hfiles : d.files top [] "r".toList = .ok paths := by cbv
  obtain ⟨sources, hsources, -, hordered, -, hrearranged, -⟩ := files_exact d ht hroot hdir
  have hpaths : sources.map (Path.joinAll "r".toList) = paths :=
    Except.ok.inj (hsources.symm.trans hfiles)
  rw [hpaths] at hordered hrearranged
  exact ⟨ht, hroot, hdir, hsame, hfiles, hordered, hrearranged top' hsame⟩

end Discovery
end GuardedCalls
