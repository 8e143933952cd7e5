import GuardedCalls.Proofs.Text.Identifier
import GuardedCalls.Rules.Validation
import Mathlib.Data.List.Nodup

/-! What a rule set without issues is like. -/

namespace GuardedCalls
open Text (isIdentifier isBlankText)

theorem Text.isBlank_of_isIdentStart {c : Char} (h : isIdentStart c = true) : isBlank c = false := by
  rw [isIdentStart] at h
  delta Char.isAlpha Char.isUpper Char.isLower at h
  simp [UInt32.le_iff_toNat_le] at h
  have hn : c.toNat = c.val.toNat := rfl
  simp only [isBlank, hn]
  rcases h with (h | rfl) | rfl
  · simp
    omega
  · decide
  · decide

theorem Text.isIdentChar_of_isBlank {c : Char} (h : isBlank c = true) : isIdentChar c = false := by
  cases hs : isIdentStart c with
  | true => simp [Text.isBlank_of_isIdentStart hs] at h
  | false =>
    rw [isIdentChar, hs, Bool.false_or]
    delta Char.isDigit
    simp only [isBlank, Bool.or_eq_true, Bool.and_eq_true, decide_eq_true_eq] at h
    simp only [Bool.and_eq_false_iff, decide_eq_false_iff_not, ge_iff_le, UInt32.le_iff_toNat_le]
    have hn : c.toNat = c.val.toNat := rfl
    simp
    omega

theorem Text.isBlankText_of_isIdentifier {v : Text} (h : isIdentifier v = true) :
    isBlankText v = false := by
  cases v with
  | nil => simp [isIdentifier] at h
  | cons c v => simp [isBlankText, Text.isBlank_of_isIdentStart (isIdentifier_cons.1 h).1]

/-- Methods and helpers are identifiers, and no method has two rules. -/
structure RuleSet.WellFormed (rules : RuleSet) : Prop where
  nonempty : rules.rules ≠ []
  helperModule : isBlankText rules.helperModule = false
  emptyHelper : isBlankText rules.emptyHelper = false
  method : ∀ rule ∈ rules.rules, isIdentifier rule.method = true
  helper : ∀ rule ∈ rules.rules, isIdentifier rule.helper = true
  nodup : (rules.rules.map Rule.method).Nodup

theorem Rule.issues_eq_nil {seen : List Text} {rule : Rule} :
    rule.issues seen = [] ↔
      isIdentifier rule.method = true ∧ isIdentifier rule.helper = true ∧ rule.method ∉ seen := by
  constructor
  · intro h
    rw [issues] at h
    split at h
    · simp at h
    · obtain ⟨⟨hm, hh⟩, hs⟩ := by simpa only [List.append_eq_nil_iff] using h
      refine ⟨?_, ?_, ?_⟩
      · simpa using hm
      · split at hh
        · simp at hh
        · simpa using hh
      · simpa using hs
  · rintro ⟨hm, hh, hs⟩
    simp [issues, Text.isBlankText_of_isIdentifier hm, Text.isBlankText_of_isIdentifier hh, hm, hh,
      hs]

namespace RuleSet

/-- The methods of the rules before count as seen. -/
theorem ruleIssues_eq_nil {seen : List Text} {rs : List Rule} :
    ruleIssues seen rs = [] ↔
      (∀ rule ∈ rs, isIdentifier rule.method = true ∧ isIdentifier rule.helper = true) ∧
        (rs.map Rule.method).Nodup ∧ ∀ rule ∈ rs, rule.method ∉ seen := by
  induction rs generalizing seen with
  | nil => simp [ruleIssues]
  | cons rule rs ih =>
    rw [ruleIssues, List.append_eq_nil_iff, Rule.issues_eq_nil, ih]
    simp only [List.mem_cons, List.map_cons, List.nodup_cons, List.mem_map, forall_eq_or_imp]
    constructor
    · rintro ⟨⟨hm, hh, hs⟩, hi, hn, hseen⟩
      refine ⟨⟨⟨hm, hh⟩, hi⟩, ⟨?_, hn⟩, hs, fun r hr h => hseen r hr (Or.inr h)⟩
      rintro ⟨r, hr, he⟩
      exact hseen r hr (Or.inl he)
    · rintro ⟨⟨⟨hm, hh⟩, hi⟩, ⟨hne, hn⟩, hs, hseen⟩
      refine ⟨⟨hm, hh, hs⟩, hi, hn, fun r hr h => ?_⟩
      rcases h with h | h
      · exact hne ⟨r, hr, h⟩
      · exact hseen r hr h

theorem isValid_iff {rules : RuleSet} : rules.isValid = true ↔ rules.WellFormed := by
  have hone {b : Bool} {x : Issue} : (if b = true then [x] else []) = [] ↔ b = false := by
    cases b <;> simp
  rw [isValid, List.isEmpty_iff, issues]
  simp only [List.append_eq_nil_iff, hone, ruleIssues_eq_nil, List.isEmpty_eq_false_iff]
  constructor
  · rintro ⟨⟨⟨hr, hm⟩, he⟩, hi, hn, -⟩
    exact ⟨hr, hm, he, fun r h => (hi r h).1, fun r h => (hi r h).2, hn⟩
  · intro h
    exact ⟨⟨⟨h.nonempty, h.helperModule⟩, h.emptyHelper⟩,
      fun r hr => ⟨h.method r hr, h.helper r hr⟩, h.nodup, by simp⟩

theorem WellFormed.rule_eq {rules : RuleSet} (h : rules.WellFormed) {a b : Rule}
    (ha : a ∈ rules.rules) (hb : b ∈ rules.rules) (he : a.method = b.method) : a = b :=
  List.inj_on_of_nodup_map h.nodup ha hb he

theorem WellFormed.helperFor? {rules : RuleSet} (h : rules.WellFormed) {rule : Rule}
    (hr : rule ∈ rules.rules) : rules.helperFor? rule.method = some rule.helper := by
  cases hf : rules.rules.find? (·.method = rule.method) with
  | none => simpa using List.find?_eq_none.1 hf rule hr
  | some r =>
    have hm : r.method = rule.method := by simpa using List.find?_some hf
    rw [RuleSet.helperFor?, hf, h.rule_eq (List.mem_of_find?_eq_some hf) hr hm]
    rfl

theorem exists_rule_of_helperFor? {rules : RuleSet} {method helper : Text}
    (h : rules.helperFor? method = some helper) :
    ∃ rule ∈ rules.rules, rule.method = method ∧ rule.helper = helper := by
  obtain ⟨rule, hfind, hhelper⟩ := Option.map_eq_some_iff.1 h
  exact ⟨rule, List.mem_of_find?_eq_some hfind, by simpa using List.find?_some hfind, hhelper⟩

theorem WellFormed.helperFor?_eq_some {rules : RuleSet} (h : rules.WellFormed)
    {method helper : Text} : rules.helperFor? method = some helper ↔
      ∃ rule ∈ rules.rules, rule.method = method ∧ rule.helper = helper := by
  constructor
  · exact exists_rule_of_helperFor?
  · rintro ⟨rule, hr, rfl, rfl⟩
    exact h.helperFor? hr

end RuleSet
end GuardedCalls
