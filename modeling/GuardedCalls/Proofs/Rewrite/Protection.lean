import GuardedCalls.Proofs.Rewrite.Inserted

/-! A rewrite that rewrites a call leaves a text that mentions a helper, so a scan takes it for
protected. -/

namespace GuardedCalls

/-- Of the edits that apply, the last one is not undone by another. -/
theorem LineEdit.exists_replacement {es : List LineEdit} {lines : List Text}
    (h : (applyAll es lines).1.countP EditResult.isApplied ≠ 0) :
    ∃ e ∈ es, ∃ line ∈ (applyAll es lines).2, e.replacement <:+: line := by
  induction es generalizing lines with
  | nil => simp [applyAll] at h
  | cons e es ih =>
    by_cases hrest : ∀ a ∈ es, ¬ a.Applies (e.apply lines)
    · have he : e.Applies lines := by
        rw [applyAll, List.countP_cons, (countP_applyAll_eq_zero es _).2 hrest, Nat.zero_add] at h
        rw [← isApplied_result]
        simpa using h
      obtain ⟨before, after, hl, happly⟩ := exists_apply he
      refine ⟨e, List.mem_cons_self, before ++ e.replacement ++ after, ?_, before, after, rfl⟩
      rw [applyAll, applyAll_of_not_applies hrest, happly]
      exact List.mem_set (List.getElem?_eq_some_iff.1 hl).1 _
    · have hcount : (applyAll es (e.apply lines)).1.countP EditResult.isApplied ≠ 0 := fun h0 =>
        hrest ((countP_applyAll_eq_zero es _).1 h0)
      obtain ⟨a, ha, line, hl, hi⟩ := ih hcount
      exact ⟨a, List.mem_cons_of_mem e ha, line, hl, hi⟩

theorem Text.infix_join {separator name : Text} {names : List Text} (h : name ∈ names) :
    name <:+: Text.join separator names := by
  induction names with
  | nil => contradiction
  | cons n names ih =>
    cases names with
    | nil => simp_all [Text.join]
    | cons next names =>
      rw [Text.join, List.intercalate_cons_cons]
      rcases List.mem_cons.1 h with rfl | h
      · exact ⟨[], separator ++ separator.intercalate (next :: names), by simp⟩
      · exact (ih h).trans ⟨n ++ separator, [], by simp [Text.join]⟩

namespace RuleSet
variable {rules : RuleSet}

theorem isProtected_of_infix {rule : Rule} (hr : rule ∈ rules.rules) {t : Text}
    (hi : rule.helper <:+: t) : rules.isProtected t = true := by
  rw [isProtected, List.any_eq_true]
  exact ⟨rule.helper, List.mem_map_of_mem hr, Text.contains_eq_true.2 hi⟩

theorem helper_mem_requiredHelpers {findings : List Finding} {f : Finding} (hf : f ∈ findings)
    {rule : Rule} (hr : rule ∈ rules.rules) (hm : f.method = rule.method) :
    rule.helper ∈ rules.requiredHelpers findings :=
  mem_requiredHelpers_found.2 (.inr ⟨rule, mem_found.2 ⟨hr, f, hf, hm⟩, rfl⟩)

theorem Import.infix_statement {name : Text} {names : List Text} (module : Text)
    (h : name ∈ names) : name <:+: Import.statement names module := by
  have hjoin : name <:+: Text.join ", ".toList names := Text.infix_join h
  delta Import.statement
  exact hjoin.trans ⟨"import \x7b ".toList,
    " \x7d from \"".toList ++ module ++ "\";".toList, by simp only [List.append_assoc]⟩

theorem exists_rule_of_mem_edits {findings : List Finding} {e : LineEdit}
    (he : e ∈ Rewrite.edits rules findings) :
    ∃ f ∈ findings, ∃ rule ∈ rules.rules, f.method = rule.method ∧
      e = Rewrite.callEdit f rule.helper := by
  obtain ⟨f, hf, hedit⟩ := List.mem_filterMap.1 he
  obtain ⟨helper, hhelper, rfl⟩ := Option.map_eq_some_iff.1 hedit
  obtain ⟨rule, hr, hmethod, rfl⟩ := exists_rule_of_helperFor? hhelper
  exact ⟨f, hf, rule, hr, hmethod.symm, rfl⟩

/-- The text of a rewrite that adds the import has its statement somewhere. -/
theorem infix_of_importAdded {source : Text} {findings : List Finding}
    (hadd : (rules.rewrite source findings).importAdded = true) :
    Import.statement (rules.requiredHelpers findings) rules.helperModule <:+:
      (rules.rewrite source findings).text := by
  obtain ⟨before, after, htext, -⟩ := rules.text_rewrite_parts source findings
  rw [hadd, if_pos rfl] at htext
  rw [htext]
  exact (List.prefix_append _ _).isInfix.trans ⟨before, after, rfl⟩

/-- The helper stands in the import, or else in the call rewritten last. The rules need not be valid,
and the findings need not come from a scan. -/
theorem isProtected_of_calls {source : Text} {findings : List Finding}
    (hcalls : (rules.rewrite source findings).calls ≠ 0) :
    rules.isProtected (rules.rewrite source findings).text = true := by
  obtain ⟨e, he, piece, hp, hi⟩ := LineEdit.exists_replacement hcalls
  have he : e ∈ Rewrite.edits rules findings := by
    simpa [LineEdit.batchOrder] using he
  obtain ⟨f, hf, rule, hr, hmethod, rfl⟩ := exists_rule_of_mem_edits he
  apply isProtected_of_infix hr
  cases hadd : (rules.rewrite source findings).importAdded with
  | true =>
    have hname := helper_mem_requiredHelpers hf hr hmethod
    exact (Import.infix_statement _ hname).trans (infix_of_importAdded hadd)
  | false =>
    have hhelper : rule.helper <:+: (Rewrite.callEdit f rule.helper).replacement :=
      ⟨[], '(' :: f.receiver ++ ", ".toList, by simp [Rewrite.callEdit]⟩
    simp only [rewrite] at hadd ⊢
    rw [hadd, if_neg (by simp)]
    exact (hhelper.trans hi).trans (List.infix_of_mem_flatten hp)

theorem isProtected_rewrite (h : rules.WellFormed) {source : Text}
    (hf : rules.findings source ≠ []) :
    rules.isProtected (rules.rewrite source (rules.findings source)).text = true :=
  isProtected_of_calls (mt (calls_findings h source).1 hf)

/-- A rewrite of a text that is not protected changes it. -/
theorem rewrite_ne (h : rules.WellFormed) {source : Text} (hp : rules.isProtected source = false)
    (hf : rules.findings source ≠ []) :
    source ≠ (rules.rewrite source (rules.findings source)).text := by
  intro he
  have := isProtected_rewrite h hf
  rw [← he, hp] at this
  contradiction

end RuleSet
end GuardedCalls
