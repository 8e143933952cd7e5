import GuardedCalls.Proofs.Rewrite.Batch
import GuardedCalls.Rewrite.Source
import Mathlib.Data.List.Basic

/-! The order of edits and of findings. Edits of different lines do not meet, so a batch does what its
edits do one after the other in the order given, and findings count only by their order on each line. -/

namespace GuardedCalls

section FallingKeys
variable {α : Type} {key : α → Nat} {l l' : List α}

theorem mem_of_filter_eq (h : ∀ n, l.filter (key · = n) = l'.filter (key · = n)) {a : α}
    (ha : a ∈ l) : a ∈ l' := by
  have hown : a ∈ l.filter (key · = key a) := List.mem_filter.2 ⟨ha, by simp⟩
  rw [h] at hown
  exact (List.mem_filter.1 hown).1

/-- Members in falling order of their keys are told by the members of each key. -/
theorem eq_of_filter_eq (hl : l.Pairwise fun a b => key b ≤ key a)
    (hl' : l'.Pairwise fun a b => key b ≤ key a)
    (h : ∀ n, l.filter (key · = n) = l'.filter (key · = n)) : l = l' := by
  induction l generalizing l' with
  | nil =>
    symm
    rw [List.eq_nil_iff_forall_not_mem]
    exact fun a ha => List.not_mem_nil (mem_of_filter_eq (fun n => (h n).symm) ha)
  | cons a l ih =>
    cases l' with
    | nil => exact absurd (mem_of_filter_eq h List.mem_cons_self) List.not_mem_nil
    | cons b l' =>
      obtain ⟨ha, htail⟩ := List.pairwise_cons.1 hl
      obtain ⟨hb, htail'⟩ := List.pairwise_cons.1 hl'
      -- each of the two is the first member with the greatest key
      have hab : key a ≤ key b := by
        rcases List.mem_cons.1 (mem_of_filter_eq h List.mem_cons_self) with rfl | hm
        · exact Nat.le_refl _
        · exact hb a hm
      have hba : key b ≤ key a := by
        have hback (n : Nat) := (h n).symm
        rcases List.mem_cons.1 (mem_of_filter_eq hback List.mem_cons_self) with rfl | hm
        · exact Nat.le_refl _
        · exact ha b hm
      have hkey : key b = key a := by omega
      have hfirst := h (key a)
      rw [List.filter_cons_of_pos (by simp), List.filter_cons_of_pos (by simp [hkey])] at hfirst
      obtain ⟨rfl, -⟩ := List.cons.inj hfirst
      have hrest (n : Nat) : l.filter (key · = n) = l'.filter (key · = n) := by
        have hn := h n
        by_cases hk : key a = n
        · simpa [hk] using hn
        · simpa [hk] using hn
      rw [ih htail htail' hrest]

theorem pairwise_mergeSort_key (key : α → Nat) (l : List α) :
    (l.mergeSort fun a b => key b ≤ key a).Pairwise fun a b => key b ≤ key a := by
  have hsorted : (l.mergeSort fun a b => key b ≤ key a).Pairwise
      fun a b => decide (key b ≤ key a) = true :=
    List.pairwise_mergeSort (by simp; omega) (by simp; omega) l
  exact hsorted.imp fun h => of_decide_eq_true h

theorem mergeSort_eq_of_filter_eq (h : ∀ n, l.filter (key · = n) = l'.filter (key · = n)) :
    (l.mergeSort fun a b => key b ≤ key a) = l'.mergeSort fun a b => key b ≤ key a := by
  refine eq_of_filter_eq (pairwise_mergeSort_key key l) (pairwise_mergeSort_key key l') fun n => ?_
  rw [filter_mergeSort, filter_mergeSort, h]

theorem perm_of_filter_eq (h : ∀ n, l.filter (key · = n) = l'.filter (key · = n)) : l.Perm l' := by
  have hsorted := List.mergeSort_perm l fun a b => key b ≤ key a
  rw [mergeSort_eq_of_filter_eq h] at hsorted
  exact hsorted.symm.trans (List.mergeSort_perm l' _)

end FallingKeys

/-- The line that a result is of. -/
def EditResult.line : EditResult → Nat
  | applied line => line
  | notFound line => line
  | outOfRange line _ => line

namespace LineEdit
variable {e f : LineEdit} {es : List LineEdit} {lines : List Text}

@[simp] theorem line_result (e : LineEdit) (lines : List Text) : (e.result lines).line = e.line := by
  rw [result]
  split
  · rfl
  · split <;> rfl

theorem map_line_results (es : List LineEdit) (lines : List Text) :
    (applyAll es lines).1.map EditResult.line = es.map LineEdit.line := by
  induction es generalizing lines with
  | nil => rfl
  | cons e es ih => rw [applyAll_cons, List.map_cons, List.map_cons, ih, line_result]

theorem apply_comm (h : e.line ≠ f.line) (lines : List Text) :
    e.apply (f.apply lines) = f.apply (e.apply lines) := by
  apply List.ext_getElem?
  intro i
  rw [getElem?_apply, getElem?_apply, getElem?_apply, getElem?_apply, Option.map_map,
    Option.map_map]
  congr 1
  funext line
  by_cases he : e.line = i + 1
  · have hf : f.line ≠ i + 1 := fun hf => h (he.trans hf.symm)
    simp [he, hf]
  · simp [he]

theorem result_apply_of_ne (h : e.line ≠ f.line) (lines : List Text) :
    f.result (e.apply lines) = f.result lines := by
  have htarget : f.target? (e.apply lines) = f.target? lines := by
    rw [target?, target?]
    split
    · rfl
    · have hother : e.line ≠ f.line - 1 + 1 := by omega
      rw [getElem?_apply]
      simp [hother]
  rw [result, result, htarget, length_apply]

/-- What comes of the edits of one line does not depend on an edit of another line before them. -/
theorem results_apply_of_ne {n : Nat} (he : e.line ≠ n) (hes : ∀ f ∈ es, f.line = n)
    (lines : List Text) : (applyAll es (e.apply lines)).1 = (applyAll es lines).1 := by
  induction es generalizing lines with
  | nil => rfl
  | cons f es ih =>
    obtain ⟨hf, hes⟩ := List.forall_mem_cons.1 hes
    have hne : e.line ≠ f.line := hf ▸ he
    rw [applyAll_cons, applyAll_cons, result_apply_of_ne hne, apply_comm hne.symm, ih hes]

/-- The results for one line are those of its edits alone. -/
theorem filter_results (es : List LineEdit) (lines : List Text) (n : Nat) :
    (applyAll es lines).1.filter (·.line = n) = (applyAll (es.filter (·.line = n)) lines).1 := by
  induction es generalizing lines with
  | nil => rfl
  | cons e es ih =>
    rw [applyAll_cons]
    by_cases he : e.line = n
    · rw [List.filter_cons_of_pos (by simpa using he), List.filter_cons_of_pos (by simpa using he),
        ih, applyAll_cons]
    · have hes : ∀ f ∈ es.filter (·.line = n), f.line = n := fun f hf => by
        simpa using (List.mem_filter.1 hf).2
      rw [List.filter_cons_of_neg (by simpa using he), List.filter_cons_of_neg (by simpa using he),
        ih, results_apply_of_ne he hes]

theorem pairwise_results_applyBatch (es : List LineEdit) (lines : List Text) :
    (applyBatch es lines).1.Pairwise fun a b => b.line ≤ a.line := by
  have hlines : ((applyBatch es lines).1.map EditResult.line).Pairwise fun m n => n ≤ m := by
    rw [applyBatch, map_line_results, List.pairwise_map]
    exact pairwise_mergeSort_key LineEdit.line es
  exact List.pairwise_map.1 hlines

theorem results_applyBatch (es : List LineEdit) (lines : List Text) :
    (applyBatch es lines).1 = (applyAll es lines).1.mergeSort fun a b => b.line ≤ a.line := by
  have hsorted : ((applyBatch es lines).1.mergeSort fun a b => b.line ≤ a.line) =
      (applyBatch es lines).1 :=
    List.mergeSort_of_pairwise (by simpa using pairwise_results_applyBatch es lines)
  rw [← hsorted]
  refine mergeSort_eq_of_filter_eq fun n => ?_
  rw [applyBatch, filter_results, filter_batchOrder, ← filter_results]

/-- A batch leaves the lines that its edits leave one after the other in the order given, and its
results are those of that run, later lines first and those of one line as they came. -/
theorem applyBatch_eq_inOrder (es : List LineEdit) (lines : List Text) :
    let inOrder := applyAll es lines
    let batch := applyBatch es lines
    batch.2 = inOrder.2 ∧ batch.2.length = lines.length ∧
      batch.1 = inOrder.1.mergeSort fun a b => b.line ≤ a.line := by
  intro inOrder batch
  refine ⟨?_, length_applyBatch es lines, results_applyBatch es lines⟩
  apply List.ext_getElem?
  intro i
  rw [getElem?_applyBatch, getElem?_applyAll]

end LineEdit

namespace Rewrite
variable {rules : RuleSet} {fs gs : List Finding}

theorem filter_edits (rules : RuleSet) (fs : List Finding) (n : Nat) :
    (edits rules fs).filter (·.line = n) = edits rules (fs.filter (·.line = n)) := by
  rw [edits, edits, List.filter_filterMap, List.filterMap_filter]
  refine List.filterMap_congr fun f _ => ?_
  cases rules.helperFor? f.method with
  | none => simp
  | some helper => simp [Option.filter, callEdit]

theorem batchOrder_edits (h : ∀ n, fs.filter (·.line = n) = gs.filter (·.line = n)) :
    LineEdit.batchOrder (edits rules fs) = LineEdit.batchOrder (edits rules gs) :=
  mergeSort_eq_of_filter_eq fun n => by rw [filter_edits, filter_edits, h]

end Rewrite

theorem RuleSet.requiredHelpers_perm (rules : RuleSet) {fs gs : List Finding} (h : fs.Perm gs) :
    rules.requiredHelpers fs = rules.requiredHelpers gs := by
  simp only [requiredHelpers, h.any_eq]

/-- Two lists with the same findings of each line in the same order are rewritten alike, and give rise
to the same warnings, though not in one order. -/
theorem RuleSet.rewrite_order (rules : RuleSet) (source : Text) {fs gs : List Finding}
    (h : ∀ n, fs.filter (·.line = n) = gs.filter (·.line = n)) :
    let r := rules.rewrite source fs
    let s := rules.rewrite source gs
    r.text = s.text ∧ r.calls = s.calls ∧ r.importAdded = s.importAdded ∧
      Import.statement (rules.requiredHelpers fs) rules.helperModule =
        Import.statement (rules.requiredHelpers gs) rules.helperModule ∧
      r.warnings.Perm s.warnings := by
  intro r s
  have hperm := perm_of_filter_eq h
  have hbatch : LineEdit.applyBatch (Rewrite.edits rules fs) source.pieces =
      LineEdit.applyBatch (Rewrite.edits rules gs) source.pieces := by
    rw [LineEdit.applyBatch, LineEdit.applyBatch, Rewrite.batchOrder_edits h]
  have hhelpers := rules.requiredHelpers_perm hperm
  have hwarnings : (Rewrite.unknownMethods rules fs).Perm (Rewrite.unknownMethods rules gs) :=
    (hperm.filter _).map _
  simp only [r, s, rewrite, hbatch, hhelpers]
  exact ⟨trivial, trivial, trivial, trivial, hwarnings.append_right _⟩

/-- Two findings of one line keep their order; a line that is not there and a method without a rule may
stand anywhere between them. -/
theorem RuleSet.rewrite_order_interleaved :
    let source := "b.filter(f)\na.map(ba.map(g))".toList
    let find line (method receiver : String) : Finding := ⟨line, method.toList, receiver.toList, []⟩
    let fs := [find 7 "map" "c", find 2 "map" "a", find 2 "flatMap" "a", find 2 "map" "ba",
      find 1 "filter" "b"]
    let gs := [find 2 "map" "a", find 1 "filter" "b", find 2 "flatMap" "a", find 7 "map" "c",
      find 2 "map" "ba"]
    let s := standard.rewrite source gs
    (∀ n, fs.filter (·.line = n) = gs.filter (·.line = n)) ∧ s.calls = 3 ∧ s.importAdded = true ∧
      s.text = (standard.rewrite source fs).text ∧
      s.warnings.Perm (standard.rewrite source fs).warnings := by
  intro source find fs gs s
  have hlines (n : Nat) : fs.filter (·.line = n) = gs.filter (·.line = n) := by
    match n with
    | 0 | 1 | 2 | 3 | 4 | 5 | 6 | 7 => rfl
    | n + 8 => simp [fs, gs, find]
  have hsorted : LineEdit.batchOrder (Rewrite.edits standard fs) = Rewrite.edits standard fs :=
    List.mergeSort_of_pairwise (by decide +kernel)
  have hvalue : (standard.rewrite source fs).calls = 3 ∧
      (standard.rewrite source fs).importAdded = true := by
    simp only [rewrite, LineEdit.applyBatch, hsorted]
    decide +kernel
  obtain ⟨htext, hcalls, hadded, -, hwarnings⟩ := standard.rewrite_order source hlines
  exact ⟨hlines, hcalls.symm.trans hvalue.1, hadded.symm.trans hvalue.2, htext.symm,
    hwarnings.symm⟩

end GuardedCalls
