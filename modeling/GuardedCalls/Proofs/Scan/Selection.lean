import GuardedCalls.Scan.Source
import Mathlib.Data.List.Nodup

/-! What one entry of a rule set does to a scan: a name that is made exempt takes its findings out, and
the findings of a method are those of its own rules. Nothing else is added, lost or moved. -/

namespace GuardedCalls

theorem isExempt_insert {exempt names : List Text} {x : Text}
    (h : ∀ v, v ∈ names ↔ v = x ∨ v ∈ exempt) (v line : Text) :
    isExempt names v line = (decide (v = x) || isExempt exempt v line) := by
  have hcontains : names.contains v = (decide (v = x) || exempt.contains v) := by
    rw [Bool.eq_iff_iff]
    simp [h]
  rw [isExempt, isExempt, hcontains, Bool.or_assoc]

theorem method_of_mem_findingsOf {rules : RuleSet} {n : Nat} {line : Text} {rule : Rule} {f : Finding}
    (hf : f ∈ rules.findingsOf n line rule) : f.method = rule.method := by
  obtain ⟨v, -, rfl⟩ := List.mem_map.1 hf
  rfl

/-- Among rules of different methods one is told by its method. -/
theorem filter_method_eq {rs : List Rule} {rule : Rule} (hn : (rs.map Rule.method).Nodup)
    (hr : rule ∈ rs) : rs.filter (·.method = rule.method) = [rule] := by
  have hsame : ∀ r ∈ rs, decide (r.method = rule.method) = (r == rule) := by
    intro r hmem
    rw [Bool.eq_iff_iff, decide_eq_true_iff, beq_iff_eq]
    exact ⟨List.inj_on_of_nodup_map hn hmem hr, fun he => he ▸ rfl⟩
  rw [List.filter_congr hsame, List.filter_beq, List.count_eq_one_of_mem hn.of_map hr]
  rfl

/-- An item that is taken out gives nothing. -/
theorem flatMap_filter {α β : Type} (p : α → Bool) (f : α → List β) (xs : List α) :
    (xs.filter p).flatMap f = xs.flatMap fun x => if p x = true then f x else [] := by
  induction xs with
  | nil => rfl
  | cons x xs ih => by_cases h : p x = true <;> simp [h, ih]

namespace RuleSet
variable (rules : RuleSet) {names : List Text} {x : Text}

/-- What holds of every line holds of the text. -/
theorem filter_findings_eq {other : RuleSet} {p : Finding → Bool}
    (h : ∀ n line, (rules.findingsOn n line).filter p = other.findingsOn n line) (source : Text) :
    (rules.findings source).filter p = other.findings source := by
  rw [findings, findings, List.filter_flatMap]
  exact List.flatMap_congr fun (line, n) _ => h n line

theorem findingsOf_insert (h : ∀ v, v ∈ names ↔ v = x ∨ v ∈ rules.exempt) (n : Nat) (line : Text)
    (rule : Rule) : { rules with exempt := names }.findingsOf n line rule =
      (rules.findingsOf n line rule).filter (·.receiver ≠ x) := by
  rw [findingsOf, findingsOf, List.filter_map, List.filter_filter]
  congr 1
  refine List.filter_congr fun v _ => ?_
  rw [isExempt_insert h, Bool.not_or]
  simp

theorem findings_insert (h : ∀ v, v ∈ names ↔ v = x ∨ v ∈ rules.exempt) (source : Text) :
    { rules with exempt := names }.findings source =
      (rules.findings source).filter (·.receiver ≠ x) := by
  refine (rules.filter_findings_eq (fun n line => ?_) source).symm
  rw [findingsOn, findingsOn, List.filter_flatMap]
  exact List.flatMap_congr fun rule _ => (rules.findingsOf_insert h n line rule).symm

theorem filter_findingsOf (n : Nat) (line method : Text) (rule : Rule) :
    (rules.findingsOf n line rule).filter (·.method = method) =
      if rule.method = method then rules.findingsOf n line rule else [] := by
  split
  · next he =>
    refine List.filter_eq_self.2 fun f hf => ?_
    simpa [method_of_mem_findingsOf hf] using he
  · next hne =>
    refine List.filter_eq_nil_iff.2 fun f hf => ?_
    simpa [method_of_mem_findingsOf hf] using hne

/-- The rules of other methods have no part in the findings of a method. -/
theorem filter_method_findings (source method : Text) :
    (rules.findings source).filter (·.method = method) =
      { rules with rules := rules.rules.filter (·.method = method) }.findings source := by
  refine rules.filter_findings_eq (fun n line => ?_) source
  rw [findingsOn, findingsOn, List.filter_flatMap, flatMap_filter]
  simp only [filter_findingsOf, decide_eq_true_eq]
  rfl

/-- To make a name exempt takes the findings with that receiver out of a report and leaves the rest of
it as it is. If no method has two rules, the findings of a rule are those of a scan by that rule
alone. -/
theorem scan_separates (file source : Text) :
    (∀ (names : List Text) (x : Text), (∀ v, v ∈ names ↔ v = x ∨ v ∈ rules.exempt) →
      let kept := (rules.scan file source).issues.filter (·.receiver ≠ x)
      { rules with exempt := names }.scan file source =
        { rules.scan file source with issues := kept, issuesCount := kept.length }) ∧
      ((rules.rules.map Rule.method).Nodup → ∀ rule ∈ rules.rules,
        (rules.scan file source).issues.filter (·.method = rule.method) =
          ({ rules with rules := [rule] }.scan file source).issues) := by
  constructor
  · intro names x hnames kept
    rw [scan, rules.findings_insert hnames]
    rfl
  · intro hn rule hr
    rw [← filter_method_eq hn hr]
    exact rules.filter_method_findings source rule.method

/-- Two receivers, each with calls of two methods, around each other on a line. -/
theorem scan_separates_nested :
    let source := "a.filter(b.map(f)); a.map(g)\nb.filter(h)".toList
    let find line (method receiver code : String) : Finding :=
      ⟨line, method.toList, receiver.toList, code.toList⟩
    let names := standardExempt ++ [['a']]
    let rule : Rule := ⟨"filter".toList, "safeFilter".toList⟩
    (∀ v, v ∈ names ↔ v = ['a'] ∨ v ∈ standard.exempt) ∧
      (standard.rules.map Rule.method).Nodup ∧ rule ∈ standard.rules ∧
      ({ standard with exempt := names }.scan [] source).issues =
        [find 1 "map" "b" "a.filter(b.map(f)); a.map(g)", find 2 "filter" "b" "b.filter(h)"] ∧
      ({ standard with rules := [rule] }.scan [] source).issues =
        [find 1 "filter" "a" "a.filter(b.map(f)); a.map(g)",
          find 2 "filter" "b" "b.filter(h)"] := by
  intro source find names rule
  have hnames : ∀ v, v ∈ names ↔ v = ['a'] ∨ v ∈ standard.exempt := by
    intro v
    rw [List.mem_append, List.mem_singleton, or_comm]
    rfl
  have hn : (standard.rules.map Rule.method).Nodup := by decide +kernel
  have hr : rule ∈ standard.rules := by decide +kernel
  have hissues : (standard.scan [] source).issues =
      [find 1 "map" "b" "a.filter(b.map(f)); a.map(g)",
        find 1 "map" "a" "a.filter(b.map(f)); a.map(g)",
        find 1 "filter" "a" "a.filter(b.map(f)); a.map(g)",
        find 2 "filter" "b" "b.filter(h)"] := by decide +kernel
  obtain ⟨hexempt, hrule⟩ := standard.scan_separates [] source
  refine ⟨hnames, hn, hr, ?_, ?_⟩
  · rw [hexempt names ['a'] hnames, hissues]
    decide +kernel
  · rw [← hrule hn rule hr, hissues]
    decide +kernel

end RuleSet
end GuardedCalls
