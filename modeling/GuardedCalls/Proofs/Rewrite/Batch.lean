import GuardedCalls.Proofs.Text.Search
import GuardedCalls.Rewrite.LineEdit

/-! Batches of edits line by line. Edits of different lines do not meet, and those of one line are
applied in the order given. -/

namespace GuardedCalls

/-- Members that are sorted by falling keys stay in their order if they have the same key. -/
theorem filter_mergeSort {α : Type} (key : α → Nat) (l : List α) (n : Nat) :
    (l.mergeSort fun a b => key b ≤ key a).filter (key · = n) = l.filter (key · = n) := by
  have hperm := List.mergeSort_perm l fun a b => key b ≤ key a
  have hsorted : (l.filter (key · = n)).Pairwise fun a b => decide (key b ≤ key a) := by
    rw [List.pairwise_filter]
    refine List.pairwise_of_forall fun a b ha hb => ?_
    have ha : key a = n := by simpa using ha
    have hb : key b = n := by simpa using hb
    simp [ha, hb]
  have hkept : (l.filter (key · = n)).Sublist (l.mergeSort fun a b => key b ≤ key a) :=
    List.sublist_mergeSort (by simp; omega) (by simp; omega) hsorted List.filter_sublist
  have hsub := hkept.filter (key · = n)
  rw [List.filter_filter] at hsub
  simp only [Bool.and_self] at hsub
  exact (hsub.eq_of_length ((hperm.filter _).length_eq).symm).symm

namespace LineEdit

/-- An edit of the line it is for; without its text the line stays as it is. -/
def onLine (e : LineEdit) (line : Text) : Text :=
  (Text.replaceFirst? e.search e.replacement line).getD line

def allOnLine (es : List LineEdit) (line : Text) : Text :=
  es.foldl (fun line e => e.onLine line) line

theorem getElem?_apply (e : LineEdit) (lines : List Text) (i : Nat) :
    (e.apply lines)[i]? =
      lines[i]?.map fun line => if e.line = i + 1 then e.onLine line else line := by
  have hid : lines[i]? = lines[i]?.map fun line => line := by cases lines[i]? <;> rfl
  rw [apply, target?]
  split
  · rename_i h
    by_cases hi : e.line = i + 1
    · rw [if_neg (by omega), hi, Nat.add_sub_cancel] at h
      simp only [hi, if_pos]
      cases hl : lines[i]? with
      | none => rfl
      | some line =>
        rw [hl, Option.bind_some] at h
        simp [onLine, h]
    · simpa only [hi, if_false] using hid
  · rename_i after h
    obtain ⟨line, hl, hr⟩ := Option.bind_eq_some_iff.1 h
    split at hl
    · contradiction
    · have hlt := (List.getElem?_eq_some_iff.1 hl).1
      rw [List.getElem?_set]
      by_cases hi : e.line = i + 1
      · have hsub : e.line - 1 = i := by omega
        rw [hsub] at hl hlt
        rw [if_pos hsub, if_pos (hsub ▸ hlt), hl]
        simp [hi, onLine, hr]
      · rw [if_neg (by omega)]
        simpa only [hi, if_false] using hid

theorem length_apply (e : LineEdit) (lines : List Text) : (e.apply lines).length = lines.length := by
  rw [apply]
  split
  · rfl
  · exact List.length_set

theorem applyAll_cons (e : LineEdit) (es : List LineEdit) (lines : List Text) :
    applyAll (e :: es) lines =
      (e.result lines :: (applyAll es (e.apply lines)).1, (applyAll es (e.apply lines)).2) := rfl

theorem length_applyAll (es : List LineEdit) (lines : List Text) :
    (applyAll es lines).2.length = lines.length := by
  induction es generalizing lines with
  | nil => rfl
  | cons e es ih => rw [applyAll, ih, length_apply]

theorem length_applyBatch (es : List LineEdit) (lines : List Text) :
    (applyBatch es lines).2.length = lines.length :=
  length_applyAll (batchOrder es) lines

theorem getElem?_applyAll (es : List LineEdit) (lines : List Text) (i : Nat) :
    (applyAll es lines).2[i]? = lines[i]?.map (allOnLine (es.filter (·.line = i + 1))) := by
  induction es generalizing lines with
  | nil =>
    rw [applyAll]
    cases lines[i]? <;> rfl
  | cons e es ih =>
    rw [applyAll, ih, getElem?_apply, Option.map_map]
    congr 1
    funext line
    by_cases he : e.line = i + 1 <;> simp [he, allOnLine]

/-- A batch keeps the order of the edits of one line. -/
theorem filter_batchOrder (es : List LineEdit) (n : Nat) :
    (batchOrder es).filter (·.line = n) = es.filter (·.line = n) :=
  filter_mergeSort LineEdit.line es n

theorem getElem?_applyBatch (es : List LineEdit) (lines : List Text) (i : Nat) :
    (applyBatch es lines).2[i]? = lines[i]?.map (allOnLine (es.filter (·.line = i + 1))) := by
  rw [applyBatch, getElem?_applyAll, filter_batchOrder]

/-- Whether the line of an edit has its text. -/
def Applies (e : LineEdit) (lines : List Text) : Prop :=
  ∃ line, e.target? lines = some line ∧ e.search <:+: line

theorem isApplied_result (e : LineEdit) (lines : List Text) :
    (e.result lines).isApplied = true ↔ e.Applies lines := by
  rw [result, Applies]
  cases e.target? lines with
  | none => simp [EditResult.isApplied]
  | some line =>
    simp only [Text.replaceFirst?_isSome, Option.some.injEq, exists_eq_left']
    split <;> simp_all [EditResult.isApplied]

theorem apply_of_not_applies {e : LineEdit} {lines : List Text} (h : ¬ e.Applies lines) :
    e.apply lines = lines := by
  have hnone : (e.target? lines).bind (Text.replaceFirst? e.search e.replacement) = none := by
    cases ht : e.target? lines with
    | none => rfl
    | some line =>
      rw [Option.bind_some, ← Option.not_isSome_iff_eq_none, Text.replaceFirst?_isSome]
      exact fun hi => h ⟨line, ht, hi⟩
  rw [apply, hnone]

/-- An edit that applies replaces its text at one place of its line. -/
theorem exists_apply {e : LineEdit} {lines : List Text} (h : e.Applies lines) :
    ∃ before after, lines[e.line - 1]? = some (before ++ e.search ++ after) ∧
      e.apply lines = lines.set (e.line - 1) (before ++ e.replacement ++ after) := by
  obtain ⟨line, ht, hi⟩ := h
  obtain ⟨⟨before, after⟩, hcut⟩ := Option.isSome_iff_exists.1 (Text.cut?_isSome.2 hi)
  have hr : Text.replaceFirst? e.search e.replacement line =
      some (before ++ e.replacement ++ after) := by
    rw [Text.replaceFirst?, hcut, Option.map_some]
  have happly : e.apply lines = lines.set (e.line - 1) (before ++ e.replacement ++ after) := by
    rw [apply, ht, Option.bind_some, hr]
  rw [target?] at ht
  split at ht
  · contradiction
  · exact ⟨before, after, by rw [ht, Text.cut?_eq_some hcut], happly⟩

/-- So it does in the text of all lines. -/
theorem flatten_apply {e : LineEdit} {lines : List Text} (h : e.Applies lines) :
    ∃ x y, lines.flatten = x ++ e.search ++ y ∧ (e.apply lines).flatten = x ++ e.replacement ++ y := by
  obtain ⟨before, after, hl, happly⟩ := exists_apply h
  obtain ⟨hlt, hline⟩ := List.getElem?_eq_some_iff.1 hl
  have hsplit := List.take_append_drop (e.line - 1) lines
  rw [← List.getElem_cons_drop hlt, hline] at hsplit
  refine ⟨(lines.take (e.line - 1)).flatten ++ before,
    after ++ (lines.drop (e.line - 1 + 1)).flatten, ?_, ?_⟩
  · have hflat := congrArg List.flatten hsplit
    simpa using hflat.symm
  · rw [happly, List.set_eq_take_append_cons_drop, if_pos hlt]
    simp

/-- Nothing is applied exactly if no edit finds its text in the lines as they were. -/
theorem countP_applyAll_eq_zero (es : List LineEdit) (lines : List Text) :
    (applyAll es lines).1.countP EditResult.isApplied = 0 ↔ ∀ e ∈ es, ¬ e.Applies lines := by
  induction es generalizing lines with
  | nil => simp [applyAll]
  | cons e es ih =>
    rw [applyAll, List.countP_cons, List.forall_mem_cons]
    by_cases he : e.Applies lines
    · simp [(isApplied_result e lines).2 he, he]
    · have hr := mt (isApplied_result e lines).1 he
      rw [if_neg hr, Nat.add_zero, ih, apply_of_not_applies he]
      simp [he]

theorem applyAll_of_not_applies {es : List LineEdit} {lines : List Text}
    (h : ∀ e ∈ es, ¬ e.Applies lines) : (applyAll es lines).2 = lines := by
  induction es with
  | nil => rfl
  | cons e es ih =>
    rw [applyAll, apply_of_not_applies (h e List.mem_cons_self)]
    exact ih fun a ha => h a (List.mem_cons_of_mem e ha)

theorem countP_applyBatch_eq_zero (es : List LineEdit) (lines : List Text) :
    (applyBatch es lines).1.countP EditResult.isApplied = 0 ↔ ∀ e ∈ es, ¬ e.Applies lines := by
  rw [applyBatch, countP_applyAll_eq_zero]
  simp [batchOrder]

theorem applyBatch_of_not_applies {es : List LineEdit} {lines : List Text}
    (h : ∀ e ∈ es, ¬ e.Applies lines) : (applyBatch es lines).2 = lines :=
  applyAll_of_not_applies (by simpa [batchOrder] using h)

end LineEdit
end GuardedCalls
