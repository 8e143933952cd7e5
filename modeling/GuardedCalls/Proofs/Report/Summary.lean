import GuardedCalls.Proofs.Text.Order
import GuardedCalls.Workspace.Store
import Mathlib

/-! What a report keeps of the files it is made from, and how far their order matters: it shows in the
lists, but neither in the totals nor in the worklist. -/

namespace GuardedCalls

/-- A file that could not be scanned counts no calls and is not protected. -/
def FileReport.IsSettled (r : FileReport) : Prop :=
  r.error ≠ none → r.issuesCount = 0 ∧ r.alreadyProtected = false

instance (r : FileReport) : Decidable r.IsSettled :=
  inferInstanceAs (Decidable (r.error ≠ none → _))

theorem RuleSet.isSettled_of_mem_scanFiles {rules : RuleSet} {top : Node} {base : Place} {root : Text}
    {paths : List Text} {r : FileReport} (h : r ∈ (rules.scanFiles top base root paths).1) :
    r.IsSettled := by
  rw [scanFiles, List.map_map] at h
  obtain ⟨path, -, rfl⟩ := List.mem_map.1 h
  rw [Function.comp_apply, scanFile]
  cases top.readSource base path with
  | ok source => exact fun herror => absurd rfl herror
  | error reason => exact fun _ => ⟨rfl, rfl⟩

/-- The sum is cut to 64 bits at each step, which comes to the same as once at the end. -/
theorem Totals.issues_ofFiles (files : List FileReport) :
    (Totals.ofFiles files).issues = (files.map FileReport.issuesCount).sum % UInt64.size := by
  have hround (n : Nat) :
      files.foldl (fun n r => (n + r.issuesCount) % UInt64.size) (n % UInt64.size) =
        (n + (files.map FileReport.issuesCount).sum) % UInt64.size := by
    induction files generalizing n with
    | nil => rfl
    | cons r files ih =>
      rw [List.foldl_cons, Nat.mod_add_mod, ih, List.map_cons, List.sum_cons, Nat.add_assoc]
  simpa [ofFiles] using hround 0

/-- Files without findings add nothing. -/
theorem sum_filter_issuesCount (files : List FileReport) :
    ((files.filter (0 < ·.issuesCount)).map FileReport.issuesCount).sum =
      (files.map FileReport.issuesCount).sum := by
  induction files with
  | nil => rfl
  | cons r files ih =>
    by_cases hr : 0 < r.issuesCount
    · simp [hr, ih]
    · simp [Nat.eq_zero_of_not_pos hr, ih]

theorem Totals.ofFiles_perm {files others : List FileReport} (h : files.Perm others) :
    Totals.ofFiles files = Totals.ofFiles others := by
  have hissues := congrArg (· % UInt64.size) (h.map FileReport.issuesCount).sum_eq
  simp only [← issues_ofFiles] at hissues
  rw [ofFiles, ofFiles, Totals.mk.injEq]
  exact ⟨h.length_eq, h.countP_eq _, h.countP_eq _, hissues⟩

namespace ScanReport

section Lists
variable {files : List FileReport}

/-- Of settled files none is left out for its error. -/
theorem filesWithIssues_ofFiles (h : ∀ r ∈ files, r.IsSettled) :
    (ofFiles files).filesWithIssues = files.filter (0 < ·.issuesCount) := by
  refine List.filter_congr fun r hr => ?_
  cases he : r.error with
  | none => rfl
  | some error => simp [(h r hr (by simp [he])).1]

theorem filesProtected_ofFiles (h : ∀ r ∈ files, r.IsSettled) : (ofFiles files).filesProtected =
    (files.filter (·.alreadyProtected)).map FileReport.file := by
  refine congrArg (List.map FileReport.file) (List.filter_congr fun r hr => ?_)
  cases he : r.error with
  | none => rfl
  | some error => simp [(h r hr (by simp [he])).2]

theorem filesFailed_ofFiles (files : List FileReport) :
    (ofFiles files).filesFailed.map (fun f => (f.file, some f.error)) =
      (files.filter (·.error ≠ none)).map fun r => (r.file, r.error) := by
  change (files.filterMap fun r => r.error.map fun error => FailedFile.mk r.file error).map _ = _
  induction files with
  | nil => rfl
  | cons r files ih => cases he : r.error <;> simp [he, ih]

theorem totals_ofFiles (h : ∀ r ∈ files, r.IsSettled) : (ofFiles files).totals = {
    files := files.length
    filesProtected := (ofFiles files).filesProtected.length
    filesWithIssues := (ofFiles files).filesWithIssues.length
    issues := ((ofFiles files).filesWithIssues.map FileReport.issuesCount).sum % UInt64.size } := by
  rw [filesProtected_ofFiles h, filesWithIssues_ofFiles h, sum_filter_issuesCount, List.length_map,
    ← List.countP_eq_length_filter, ← List.countP_eq_length_filter, ← Totals.issues_ofFiles]
  rfl

end Lists

/-- What the worklist goes by: first the number of findings, the larger before the smaller, and then the
name. -/
def rank (r : FileReport) : Natᵒᵈ ×ₗ Text :=
  toLex (OrderDual.toDual r.issuesCount, r.file)

theorem rank_le_rank {a b : FileReport} : rank a ≤ rank b ↔
    b.issuesCount < a.issuesCount ∨ a.issuesCount = b.issuesCount ∧ a.file ≤ b.file := by
  simp [rank, Prod.Lex.toLex_le_toLex]

theorem comesBefore_eq_true {a b : FileReport} : comesBefore a b = true ↔ rank a ≤ rank b := by
  simp [comesBefore, rank_le_rank, Text.le_eq_true]

theorem pairwise_rank (files : List FileReport) :
    (files.mergeSort comesBefore).Pairwise fun a b => rank a ≤ rank b := by
  refine (List.pairwise_mergeSort ?_ ?_ files).imp comesBefore_eq_true.1
  · intro a b c hab hbc
    exact comesBefore_eq_true.2 ((comesBefore_eq_true.1 hab).trans (comesBefore_eq_true.1 hbc))
  · intro a b
    rw [Bool.or_eq_true, comesBefore_eq_true, comesBefore_eq_true]
    exact le_total (rank a) (rank b)

/-- Files of one rank may stand in either order, but their ranks stand in one order only. -/
theorem map_rank_mergeSort {files others : List FileReport} (h : files.Perm others) :
    (files.mergeSort comesBefore).map rank = (others.mergeSort comesBefore).map rank := by
  refine List.Perm.eq_of_pairwise (fun _ _ _ _ => le_antisymm)
    (List.pairwise_map.2 (pairwise_rank files)) (List.pairwise_map.2 (pairwise_rank others))
    (List.Perm.map rank ?_)
  exact (List.mergeSort_perm files _).trans (h.trans (List.mergeSort_perm others _).symm)

theorem worklist_eq (report : ScanReport) : report.worklist =
    ((report.candidates.mergeSort comesBefore).map rank).map fun x => (ofLex x).2 := by
  rw [worklist, List.map_map]
  rfl

theorem worklist_perm {files others : List FileReport} (h : files.Perm others) :
    (ofFiles files).worklist = (ofFiles others).worklist := by
  have hcandidates : (ofFiles files).candidates.Perm (ofFiles others).candidates :=
    (h.filter _).filter _
  rw [worklist_eq, worklist_eq, map_rank_mergeSort hcandidates]

end ScanReport
end GuardedCalls
