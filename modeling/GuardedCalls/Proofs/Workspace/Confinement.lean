import GuardedCalls.Proofs.Workspace.Independence
import Mathlib

/-! What a run can change: the contents of files below the root, past no ignored directory, each of them
the file of an entry that was fixed. The report is taken as it comes: its paths may lead anywhere, also
through links, and several of them to one file. -/

namespace GuardedCalls.Fixer
variable {x : Fixer} {top next after : Node} {r : FileReport} {rs : List FileReport}
  {o : Outcome} {os : List Outcome}

/-- Nothing but contents of files differs in the tree after a run, and where one does, the guard leads
there from an entry that was fixed. -/
structure Confined (x : Fixer) (top : Node) (rs : List FileReport) (os : List Outcome)
    (after : Node) : Prop where
  shape : after.shape = top.shape
  file : ∀ p b, top.at? p = some (.file b) → after.at? p ≠ some (.file b) →
    ∃ ro ∈ rs.zip os, ro.2.isModified = true ∧ x.guard.validate top ro.1.file = .ok p

namespace Confined

theorem nil (x : Fixer) (top : Node) : x.Confined top [] [] top :=
  ⟨rfl, fun _ _ hp hne => absurd hp hne⟩

/-- An entry and the run over those after it. The guard leads to the same places in both trees, since
they have one shape. -/
theorem cons (h : x.Confined top [r] [o] next) (hrest : x.Confined next rs os after) :
    x.Confined top (r :: rs) (o :: os) after := by
  refine ⟨hrest.shape.trans h.shape, fun p b hp hne => ?_⟩
  by_cases hnext : next.at? p = some (.file b)
  · obtain ⟨ro, hmem, hmodified, hv⟩ := hrest.file p b hnext hne
    rw [x.guard.validate_congr h.shape] at hv
    exact ⟨ro, List.mem_cons_of_mem _ hmem, hmodified, hv⟩
  · obtain ⟨ro, hmem, hrest⟩ := h.file p b hp hnext
    have hro : ro = (r, o) := by simpa using hmem
    exact ⟨ro, hro ▸ List.mem_cons_self, hrest⟩

end Confined

/-- The step of a run. -/
theorem confined_applyOne (x : Fixer) (ht : top.WellFormed) (r : FileReport) :
    x.Confined top [r] [(x.applyOne top r).1] (x.applyOne top r).2.2 := by
  obtain ⟨p, hchange, hmodified, htree⟩ | ⟨-, -, htree⟩ := x.applyOne_cases ht r
  · obtain ⟨hv, ⟨b, hb⟩, -, -⟩ := planned ht (change?_eq_some.1 hchange).2.1
    cases hdry : x.dryRun with
    | true =>
      rw [htree, written_dry hdry]
      exact ⟨rfl, fun _ _ hq hne => absurd hq hne⟩
    | false =>
      rw [htree, written_real hdry]
      refine ⟨ht.shape_put hb _, fun q c hq hne => ?_⟩
      by_cases hqp : q = p.path
      · exact ⟨(r, _), List.mem_cons_self, hmodified, hqp ▸ hv⟩
      · exact absurd (Node.at?_put_file hb hq hqp _) hne
  · rw [htree]
    exact ⟨rfl, fun _ _ hq hne => absurd hq hne⟩

theorem confined_apply (x : Fixer) (ht : top.WellFormed) (rs : List FileReport) :
    x.Confined top rs (x.apply top rs).1 (x.apply top rs).2.2 := by
  induction rs generalizing top with
  | nil => exact .nil x top
  | cons r rs ih =>
    have hstep := x.confined_applyOne ht r
    rw [apply_cons]
    exact hstep.cons (ih (ht.of_shape hstep.shape))

/-- Only an entry that needs a fix is fixed or fails. -/
theorem needsFix_of_applyOne (h : (x.applyOne top r).1.isSkipped = false) : r.needsFix = true := by
  rw [← Bool.not_eq_false]
  intro hn
  obtain ⟨reason, hskip⟩ := applyOne_of_not_needsFix hn
  rw [hskip] at h
  contradiction

/-- There is one outcome for each entry, in the order of the report. -/
theorem forall₂_apply (x : Fixer) (top : Node) (rs : List FileReport) :
    List.Forall₂ (fun r o => o.file = r.file ∧ (o.isSkipped = false → r.needsFix = true)) rs
      (x.apply top rs).1 := by
  induction rs generalizing top with
  | nil => exact .nil
  | cons r rs ih => exact .cons ⟨x.file_applyOne top r, needsFix_of_applyOne⟩ (ih _)

/-- An entry that is not fixed leaves the tree as the entries before it did. -/
theorem apply_take_succ (x : Fixer) (ht : top.WellFormed) (rs : List FileReport) {i : Nat}
    (hi : (x.apply top rs).1[i]? = some o) (ho : o.isModified = false) :
    (x.apply top (rs.take (i + 1))).2.2 = (x.apply top (rs.take i)).2.2 := by
  induction rs generalizing top i with
  | nil => rw [List.take_nil, List.take_nil]
  | cons r rs ih =>
    rw [apply_cons] at hi
    cases i with
    | zero =>
      obtain rfl : (x.applyOne top r).1 = o := by simpa using hi
      obtain ⟨-, -, hmodified, -⟩ | ⟨-, -, htree⟩ := x.applyOne_cases ht r
      · rw [hmodified] at ho
        contradiction
      · exact htree
    | succ i =>
      rw [List.take_succ_cons, List.take_succ_cons, apply_cons, apply_cons]
      exact ih (ht.of_shape (x.confined_applyOne ht r).shape) hi

/-- A run changes nothing in the tree but contents of files. A file that it changes is the one to which
the guard leads from an entry that was fixed; it is below the root, and no name on the way from there is
ignored. The outcomes are those of the entries, one for each in their order, and those that are skipped
or fail change nothing. Only entries with findings in files not yet protected are fixed or fail. -/
theorem apply_confined {rules : RuleSet} {base : Place} {root : Text} {dryRun : Bool}
    (ht : top.WellFormed) (hx : ofRoot rules top base root dryRun = .ok x) (rs : List FileReport) :
    let outcomes := (x.apply top rs).1
    let after := (x.apply top rs).2.2
    top.canonical base root = .ok x.guard.root ∧ after.shape = top.shape ∧
      (∀ p b, top.at? p = some (.file b) → after.at? p ≠ some (.file b) →
        (∃ ro ∈ rs.zip outcomes, ro.2.isModified = true ∧ x.guard.validate top ro.1.file = .ok p) ∧
          ∃ below, p = x.guard.root ++ below ∧ ∀ name ∈ below, name ∉ rules.discovery.ignoredDirs) ∧
      List.Forall₂ (fun r o => o.file = r.file ∧
        (o.isModified = true ∨ o.isFailed = true →
          0 < r.issuesCount ∧ r.alreadyProtected = false)) rs outcomes ∧
      ∀ i o, outcomes[i]? = some o → o.isModified = false →
        (x.apply top (rs.take (i + 1))).2.2 = (x.apply top (rs.take i)).2.2 := by
  intro outcomes after
  obtain ⟨hroot, hforbidden⟩ : top.canonical base root = .ok x.guard.root ∧
      x.guard.forbidden = rules.discovery.ignoredDirs := by
    obtain ⟨place, hroot, rfl⟩ := ofRoot_eq_ok.1 hx
    exact ⟨hroot, rfl⟩
  have hconfined := x.confined_apply ht rs
  refine ⟨hroot, hconfined.shape, fun p b hp hne => ?_, ?_, ?_⟩
  · obtain ⟨ro, hmem, hmodified, hv⟩ := hconfined.file p b hp hne
    refine ⟨⟨ro, hmem, hmodified, hv⟩, ?_⟩
    obtain ⟨-, below, hbelow, hfree⟩ := Guard.check_eq_ok.1 (Guard.validate_eq_ok.1 hv).2
    exact ⟨below, hbelow, hforbidden ▸ hfree⟩
  · refine (x.forall₂_apply top rs).imp fun r o ⟨hfile, hneeds⟩ => ⟨hfile, fun h => ?_⟩
    have hskip : o.isSkipped = false := by
      cases o with
      | modified => rfl
      | skipped => simp [Outcome.isModified, Outcome.isFailed] at h
      | failed => rfl
    simpa [FileReport.needsFix] using hneeds hskip
  · exact fun i o hi ho => x.apply_take_succ ht rs hi ho

/-- A link leads into an ignored directory, a path above the root, and two to one file. -/
theorem apply_confined_linked :
    let call := Utf8.encode "a.map(f)".toList
    let top : Node := .dir [("w".toList, .dir [("a.ts".toList, .file call),
      ("dist".toList, .dir [("b.ts".toList, .file call)]),
      ("l.ts".toList, .link "dist/b.ts".toList)]), ("c.ts".toList, .file call)]
    let x : Fixer := ⟨.standard, ⟨["w".toList], RuleSet.standardDiscovery.ignoredDirs⟩, false⟩
    let rs := ["l.ts", "../c.ts", "a.ts", "./a.ts"].map fun file =>
      RuleSet.standard.scan file.toList "a.map(f)".toList
    ofRoot .standard top ["w".toList] ['.'] false = .ok x ∧
      (x.apply top rs).1.map Outcome.file = rs.map FileReport.file ∧
      (x.apply top rs).2.2.at? ["w".toList, "dist".toList, "b.ts".toList] = some (.file call) ∧
      (x.apply top rs).2.2.at? ["c.ts".toList] = some (.file call) := by
  intro call top x rs
  have ht : top.WellFormed := by decide +kernel
  have hx : ofRoot .standard top ["w".toList] ['.'] false = .ok x := by cbv
  obtain ⟨-, -, hchanged, houtcomes, -⟩ := apply_confined ht hx rs
  have hstill (p : Place) (hp : top.at? p = some (.file call))
      (hbelow : ∀ below, p = "w".toList :: below → "dist".toList ∈ below) :
      (x.apply top rs).2.2.at? p = some (.file call) := by
    by_contra hne
    obtain ⟨-, below, hplace, hfree⟩ := hchanged p call hp hne
    exact hfree _ (hbelow below hplace) (by decide)
  refine ⟨hx, ?_, hstill _ rfl ?_, hstill _ rfl ?_⟩
  · have hfiles : List.Forall₂ (· = ·) (rs.map FileReport.file)
        ((x.apply top rs).1.map Outcome.file) := by
      rw [List.forall₂_map_left_iff, List.forall₂_map_right_iff]
      exact houtcomes.imp fun _ _ h => h.1.symm
    exact (List.forall₂_eq_eq_eq ▸ hfiles : _ = _).symm
  · rintro below ⟨⟩
    decide
  · rintro below ⟨⟩

end GuardedCalls.Fixer
