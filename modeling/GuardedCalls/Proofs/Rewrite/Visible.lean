import GuardedCalls.Proofs.Rewrite.Protection
import GuardedCalls.Proofs.Rewrite.Repeat

/-! Which rewrites show in the text. An edit puts a blank where a parenthesis was and leaves everything
behind it alone, so of the edits that apply the rightmost one is never undone, whatever the names in the
rules and in the findings. -/

namespace GuardedCalls

/-- From some place on two texts are the same, and before it the one has a parenthesis and the other a
blank. -/
def Text.Parted (t u : Text) : Prop :=
  ∃ x y s, t = x ++ '(' :: s ∧ u = y ++ ' ' :: s

namespace Text.Parted
variable {t u v : Text}

theorem ne (h : Parted t u) : u ≠ t := by
  obtain ⟨x, y, s, rfl, rfl⟩ := h
  intro he
  obtain ⟨-, hs⟩ := List.append_inj' he rfl
  simp at hs

/-- The place further to the right is the one that counts. -/
theorem trans (h : Parted t u) (h' : Parted u v) : Parted t v := by
  obtain ⟨x, y, s, rfl, rfl⟩ := h
  obtain ⟨x', y', s', hu, rfl⟩ := h'
  rcases List.append_eq_append_iff.1 hu with ⟨w, hx, hw⟩ | ⟨w, hy, hw⟩
  · cases w with
    | nil => simp at hw
    | cons c w =>
      obtain ⟨-, rfl⟩ := List.cons.inj hw
      exact ⟨x ++ '(' :: w, y', s', by simp, rfl⟩
  · cases w with
    | nil => simp at hw
    | cons c w =>
      obtain ⟨-, rfl⟩ := List.cons.inj hw
      exact ⟨x, y' ++ ' ' :: w, s, rfl, by simp⟩

end Text.Parted

namespace LineEdit

/-- The text of the edit ends with a parenthesis and its replacement with a blank. -/
structure IsCall (e : LineEdit) : Prop where
  search : ∃ n, e.search = n ++ ['(']
  replacement : ∃ n, e.replacement = n ++ [' ']

variable {e : LineEdit} {es : List LineEdit} {lines : List Text}

theorem parted_apply (he : e.IsCall) (h : e.Applies lines) :
    Text.Parted lines.flatten (e.apply lines).flatten := by
  obtain ⟨x, y, hbefore, hafter⟩ := flatten_apply h
  obtain ⟨n, hn⟩ := he.search
  obtain ⟨m, hm⟩ := he.replacement
  exact ⟨x ++ n, x ++ m, y, by simp [hbefore, hn], by simp [hafter, hm]⟩

/-- Edits of which some apply change the text. The induction is on the edits: what one of them has
changed is changed after the rest too, or further to the right. -/
theorem parted_applyAll (hes : ∀ e ∈ es, e.IsCall)
    (h : (applyAll es lines).1.countP EditResult.isApplied ≠ 0) :
    Text.Parted lines.flatten (applyAll es lines).2.flatten := by
  induction es generalizing lines with
  | nil => simp [applyAll] at h
  | cons e es ih =>
    obtain ⟨he, hrest⟩ := List.forall_mem_cons.1 hes
    by_cases hlater : (applyAll es (e.apply lines)).1.countP EditResult.isApplied = 0
    · have hnone := (countP_applyAll_eq_zero es _).1 hlater
      have happlies : e.Applies lines := by
        rw [applyAll, List.countP_cons, hlater, Nat.zero_add] at h
        rw [← isApplied_result]
        simpa using h
      rw [applyAll, applyAll_of_not_applies hnone]
      exact parted_apply he happlies
    · have hparted := ih hrest hlater
      rw [applyAll]
      by_cases happlies : e.Applies lines
      · exact (parted_apply he happlies).trans hparted
      · rwa [apply_of_not_applies happlies] at hparted ⊢

theorem parted_applyBatch (hes : ∀ e ∈ es, e.IsCall)
    (h : (applyBatch es lines).1.countP EditResult.isApplied ≠ 0) :
    Text.Parted lines.flatten (applyBatch es lines).2.flatten :=
  parted_applyAll (fun e he => hes e ((List.mergeSort_perm es _).mem_iff.1 he)) h

end LineEdit

theorem Rewrite.isCall_callEdit (f : Finding) (helper : Text) : (callEdit f helper).IsCall :=
  ⟨⟨f.receiver ++ '.' :: f.method, by simp [callEdit]⟩,
    ⟨helper ++ '(' :: f.receiver ++ [','], by simp [callEdit]⟩⟩

theorem Import.isPresent_of_infix {names : List Text} {module t : Text}
    (h : statement names module <:+: t) : isPresent t module = true := by
  have hfrom : "from ".toList ++ ('"' :: module ++ ['"']) <:+: statement names module := by
    delta statement
    exact ⟨"import \x7b ".toList ++ Text.join ", ".toList names ++ " \x7d ".toList, [';'], by simp⟩
  have hfound := Text.contains_eq_true.2 (hfrom.trans h)
  rw [isPresent, List.any_cons, Bool.or_eq_true, Bool.or_eq_true]
  exact .inl (.inl hfound)

namespace RuleSet
variable {rules : RuleSet} {source : Text} {findings : List Finding}

theorem isCall_of_mem_edits {e : LineEdit} (he : e ∈ Rewrite.edits rules findings) : e.IsCall := by
  obtain ⟨f, -, rule, -, -, rfl⟩ := exists_rule_of_mem_edits he
  exact Rewrite.isCall_callEdit f rule.helper

theorem isPresent_of_importAdded (hadd : (rules.rewrite source findings).importAdded = true) :
    Import.isPresent (rules.rewrite source findings).text rules.helperModule = true :=
  Import.isPresent_of_infix (infix_of_importAdded hadd)

/-- An import that is added was not there before, and one that is not leaves the lines as they were
edited. -/
theorem text_ne_of_calls (hcalls : (rules.rewrite source findings).calls ≠ 0) :
    (rules.rewrite source findings).text ≠ source := by
  cases hadd : (rules.rewrite source findings).importAdded with
  | true =>
    intro he
    have hpresent := isPresent_of_importAdded hadd
    rw [he] at hpresent
    simp [rewrite, hpresent] at hadd
  | false =>
    have hparted := LineEdit.parted_applyBatch (fun _ => isCall_of_mem_edits) hcalls
    rw [Text.flatten_pieces] at hparted
    simp only [rewrite] at hadd ⊢
    rw [hadd, if_neg (by simp)]
    exact hparted.ne

/-- A rewrite changes the text exactly if it rewrites a call. It then imports the helpers unless they
are imported, and leaves a text that counts as protected. No rule or finding is excluded. -/
theorem rewrite_visible (rules : RuleSet) (source : Text) (findings : List Finding) :
    let r := rules.rewrite source findings
    (r.text ≠ source ↔ 0 < r.calls) ∧
      (r.importAdded = true ↔ 0 < r.calls ∧ Import.isPresent source rules.helperModule = false) ∧
      (0 < r.calls → rules.isProtected r.text = true) := by
  intro r
  refine ⟨⟨fun hne => ?_, fun hcalls => text_ne_of_calls (Nat.ne_of_gt hcalls)⟩, ?_,
    fun hcalls => isProtected_of_calls (Nat.ne_of_gt hcalls)⟩
  · rw [Nat.pos_iff_ne_zero]
    exact fun hzero => hne (rewrite_of_calls_eq_zero hzero).1
  · have hadd : r.importAdded =
        (decide (0 < r.calls) && !Import.isPresent source rules.helperModule) := rfl
    rw [hadd, Bool.and_eq_true, decide_eq_true_eq, Bool.not_eq_true']

/-- The second edit takes away all that the first one has put on the line; neither the helper of the
first nor the method of the second is an identifier. -/
theorem rewrite_visible_retaken :
    let rules : RuleSet := { standard with
      rules := [⟨"f".toList, "p.q".toList⟩, ⟨"q(a, x".toList, "k".toList⟩] }
    let source := "import '@/lib/arrayHelpers'\na.f(x(".toList
    let findings : List Finding := [⟨2, "f".toList, "a".toList, []⟩, ⟨2, "q(a, x".toList, "p".toList, []⟩]
    let r := rules.rewrite source findings
    r.calls = 2 ∧ r.text = "import '@/lib/arrayHelpers'\nk(p, ".toList ∧ r.text ≠ source ∧
      r.importAdded = false ∧ rules.isProtected r.text = true := by
  intro rules source findings r
  have hsorted : LineEdit.batchOrder (Rewrite.edits rules findings) =
      Rewrite.edits rules findings := List.mergeSort_of_pairwise (by decide +kernel)
  have hvalue : r.calls = 2 ∧ r.text = "import '@/lib/arrayHelpers'\nk(p, ".toList ∧
      r.importAdded = false := by
    simp only [r, rewrite, LineEdit.applyBatch, hsorted]
    decide +kernel
  obtain ⟨hcalls, htext, himport⟩ := hvalue
  obtain ⟨hchanged, -, hprotected⟩ := rewrite_visible rules source findings
  have hpos : 0 < r.calls := by omega
  exact ⟨hcalls, htext, hchanged.2 hpos, himport, hprotected hpos⟩

end RuleSet
end GuardedCalls
