import GuardedCalls.Proofs.Rules.Validation
import Mathlib

/-! Which rule sets are valid, and which methods are named when one is not: those of the rules at fault,
each once, in the order in which the rules come to be at fault. -/

namespace GuardedCalls
open Text (isIdentifier isBlankText)

namespace Text

/-- `[A-Za-z_$]`. -/
def IsNameStart (c : Char) : Prop :=
  ('A' ≤ c ∧ c ≤ 'Z') ∨ ('a' ≤ c ∧ c ≤ 'z') ∨ c = '_' ∨ c = '$'

/-- `[A-Za-z_$][A-Za-z0-9_$]*`. -/
def IsSpelled (t : Text) : Prop :=
  ∃ first rest, t = first :: rest ∧ IsNameStart first ∧
    ∀ c ∈ rest, IsNameStart c ∨ '0' ≤ c ∧ c ≤ '9'

theorem isIdentStart_eq_true {c : Char} : isIdentStart c = true ↔ IsNameStart c := by
  simp [isIdentStart, IsNameStart, Char.isAlpha, Char.isUpper, Char.isLower, Char.le_def, or_assoc]

theorem isIdentChar_eq_true {c : Char} :
    isIdentChar c = true ↔ IsNameStart c ∨ '0' ≤ c ∧ c ≤ '9' := by
  rw [isIdentChar, Bool.or_eq_true, isIdentStart_eq_true]
  simp [Char.isDigit, Char.le_def]

theorem isIdentifier_eq_true {t : Text} : isIdentifier t = true ↔ t.IsSpelled := by
  cases t with
  | nil => simp [isIdentifier, IsSpelled]
  | cons c cs => simp [isIdentifier_cons, IsSpelled, isIdentStart_eq_true, isIdentChar_eq_true]

theorem trim_eq_nil {t : Text} : t.trim = [] ↔ isBlankText t = true := by
  rw [trim, List.reverse_eq_nil_iff, List.dropWhile_eq_nil_iff, isBlankText, List.all_eq_true]
  constructor
  · intro h c hc
    rw [← List.takeWhile_append_dropWhile (p := isBlank) (l := t), List.mem_append] at hc
    cases hc with
    | inl hc => exact List.mem_takeWhile_imp hc
    | inr hc => exact h c (List.mem_reverse.2 hc)
  · exact fun h c hc => h c ((List.dropWhile_suffix _).subset (List.mem_reverse.1 hc))

end Text

/-- A rule that comes after others with the methods `seen` has a fault, and a method to be named by. -/
def Rule.IsFaulty (rule : Rule) (seen : List Text) : Prop :=
  rule.method.trim ≠ [] ∧
    (¬ rule.method.IsSpelled ∨ ¬ rule.helper.IsSpelled ∨ rule.method ∈ seen)

/-- Rule `i` of a table is faulty, and this is its method. -/
def BlamedAt (rs : List Rule) (i : Nat) (name : Text) : Prop :=
  ∃ rule, rs[i]? = some rule ∧ rule.method = name ∧ rule.IsFaulty ((rs.take i).map Rule.method)

/-- The methods blamed in a table, each once and in the order in which they are blamed first. -/
structure Blames (rs : List Rule) (names : List Text) : Prop where
  nodup : names.Nodup
  mem : ∀ name, name ∈ names ↔ ∃ i, BlamedAt rs i name
  order : names.Pairwise fun a b => ∃ i, BlamedAt rs i a ∧ ∀ j ≤ i, ¬ BlamedAt rs j b

section Issues
variable {seen : List Text} {rule : Rule} {name : Text}

theorem Rule.mem_method_issue :
    name ∈ (if isIdentifier rule.method then [] else [Issue.badMethod rule.method]).filterMap
      Issue.method? ↔ name = rule.method ∧ ¬ rule.method.IsSpelled := by
  rw [← Text.isIdentifier_eq_true]
  by_cases hm : isIdentifier rule.method = true <;> simp [hm, Issue.method?, eq_comm]

theorem Rule.mem_helper_issue :
    name ∈ (if isBlankText rule.helper then
        [Issue.missing (some rule.method) "methods.helper".toList]
      else if isIdentifier rule.helper then []
      else [.badHelper rule.method rule.helper]).filterMap Issue.method? ↔
        name = rule.method ∧ ¬ rule.helper.IsSpelled := by
  rw [← Text.isIdentifier_eq_true]
  by_cases hh : isIdentifier rule.helper = true
  · simp [Text.isBlankText_of_isIdentifier hh, hh]
  · by_cases hb : isBlankText rule.helper = true <;> simp [hb, hh, Issue.method?, eq_comm]

theorem Rule.mem_repeated_issue :
    name ∈ (if seen.contains rule.method then [Issue.repeated rule.method] else []).filterMap
      Issue.method? ↔ name = rule.method ∧ rule.method ∈ seen := by
  by_cases hs : rule.method ∈ seen <;> simp [hs, Issue.method?, eq_comm]

/-- The issues of a rule name its method, if any. -/
theorem Rule.mem_issues :
    name ∈ (rule.issues seen).filterMap Issue.method? ↔
      name = rule.method ∧ rule.IsFaulty seen := by
  rw [issues, IsFaulty, ne_eq, Text.trim_eq_nil]
  by_cases hblank : isBlankText rule.method = true
  · simp [hblank, Issue.method?]
  · rw [if_neg hblank, List.filterMap_append, List.filterMap_append, List.mem_append,
      List.mem_append, mem_method_issue, mem_helper_issue, mem_repeated_issue, ← and_or_left,
      ← and_or_left, or_assoc, and_iff_right hblank]

end Issues

namespace RuleSet

/-- One more name, unless it stands there already. -/
def note (names : List Text) (name : Text) : List Text :=
  if names.contains name then names else names ++ [name]

theorem note_of_mem {names : List Text} {name : Text} (h : name ∈ names) :
    note names name = names := by
  simp [note, h]

theorem note_of_notMem {names : List Text} {name : Text} (h : name ∉ names) :
    note names name = names ++ [name] := by
  simp [note, h]

theorem mem_note {names : List Text} {name a : Text} :
    a ∈ note names name ↔ a ∈ names ∨ a = name := by
  by_cases h : name ∈ names
  · rw [note_of_mem h]
    exact (or_iff_left_of_imp fun he => he ▸ h).symm
  · simp [note_of_notMem h]

theorem foldl_note_same {name : Text} {xs : List Text} (h : ∀ x ∈ xs, x = name)
    (names : List Text) : xs.foldl note names = if name ∈ xs then note names name else names := by
  induction xs generalizing names with
  | nil => rfl
  | cons x xs ih =>
    obtain ⟨rfl, hxs⟩ := List.forall_mem_cons.1 h
    rw [List.foldl_cons, ih hxs, note_of_mem (mem_note.2 (Or.inr rfl)), ite_self,
      if_pos List.mem_cons_self]

theorem blamed_append (issues more : List Issue) :
    blamed (issues ++ more) = (more.filterMap Issue.method?).foldl note (blamed issues) := by
  rw [blamed, List.filterMap_append, List.foldl_append]
  rfl

theorem ruleIssues_concat (seen : List Text) (rs : List Rule) (rule : Rule) :
    ruleIssues seen (rs ++ [rule]) =
      ruleIssues seen rs ++ rule.issues ((rs.map Rule.method).reverse ++ seen) := by
  induction rs generalizing seen with
  | nil => simp [ruleIssues]
  | cons r rs ih => simp [ruleIssues, ih]

section Concat
variable {rs : List Rule} {rule : Rule}

/-- The issues of a rule, however many they are, add one name at most. -/
theorem blamed_concat : blamed (ruleIssues [] (rs ++ [rule])) =
    if rule.method ∈ (rule.issues (rs.map Rule.method).reverse).filterMap Issue.method? then
      note (blamed (ruleIssues [] rs)) rule.method
    else blamed (ruleIssues [] rs) := by
  rw [ruleIssues_concat, List.append_nil, blamed_append]
  exact foldl_note_same (fun _ h => (Rule.mem_issues.1 h).1) _

theorem blamed_of_faulty (h : rule.IsFaulty (rs.map Rule.method)) :
    blamed (ruleIssues [] (rs ++ [rule])) = note (blamed (ruleIssues [] rs)) rule.method := by
  rw [blamed_concat, if_pos]
  rw [Rule.mem_issues]
  exact ⟨rfl, by simpa [Rule.IsFaulty] using h⟩

theorem blamed_of_not_faulty (h : ¬ rule.IsFaulty (rs.map Rule.method)) :
    blamed (ruleIssues [] (rs ++ [rule])) = blamed (ruleIssues [] rs) := by
  rw [blamed_concat, if_neg]
  rw [Rule.mem_issues]
  exact fun hf => h (by simpa [Rule.IsFaulty] using hf.2)

end Concat
end RuleSet

section Table
variable {rs : List Rule} {rule : Rule} {i : Nat} {name : Text} {names : List Text}

theorem BlamedAt.lt (h : BlamedAt rs i name) : i < rs.length := by
  obtain ⟨rule, hrule, -⟩ := h
  exact (List.getElem?_eq_some_iff.1 hrule).1

/-- A rule does not change what is said of the rules before it. -/
theorem blamedAt_concat : BlamedAt (rs ++ [rule]) i name ↔ BlamedAt rs i name ∨
    i = rs.length ∧ rule.method = name ∧ rule.IsFaulty (rs.map Rule.method) := by
  rcases Nat.lt_trichotomy i rs.length with h | rfl | h
  · simp [BlamedAt, List.getElem?_append_left h, List.take_append_of_le_length h.le, h.ne]
  · simp [BlamedAt]
  · have hle : (rs ++ [rule]).length ≤ i := by rwa [List.length_append]
    have hnone : (rs ++ [rule])[i]? = none := List.getElem?_eq_none hle
    simp [BlamedAt, hnone, List.getElem?_eq_none h.le, h.ne']

/-- What comes before stays before when the table grows. -/
theorem Blames.order_concat (h : Blames rs names) (rule : Rule) :
    names.Pairwise fun a b => ∃ i, BlamedAt (rs ++ [rule]) i a ∧
      ∀ j ≤ i, ¬ BlamedAt (rs ++ [rule]) j b := by
  refine h.order.imp fun {a b} ⟨i, ha, hb⟩ => ⟨i, blamedAt_concat.2 (Or.inl ha), fun j hj hbj => ?_⟩
  rcases blamedAt_concat.1 hbj with hbj | ⟨rfl, -⟩
  · exact hb j hj hbj
  · exact Nat.not_lt.2 hj ha.lt

theorem Blames.of_not_faulty (h : Blames rs names) (hf : ¬ rule.IsFaulty (rs.map Rule.method)) :
    Blames (rs ++ [rule]) names where
  nodup := h.nodup
  mem name := by simp [blamedAt_concat, hf, h.mem]
  order := h.order_concat rule

theorem Blames.of_faulty (h : Blames rs names) (hf : rule.IsFaulty (rs.map Rule.method)) :
    Blames (rs ++ [rule]) (RuleSet.note names rule.method) := by
  have hmem (name : Text) : name ∈ RuleSet.note names rule.method ↔
      ∃ i, BlamedAt (rs ++ [rule]) i name := by
    simp [RuleSet.mem_note, h.mem, blamedAt_concat, hf, exists_or, eq_comm]
  by_cases hin : rule.method ∈ names
  · rw [RuleSet.note_of_mem hin] at hmem ⊢
    exact ⟨h.nodup, hmem, h.order_concat rule⟩
  · rw [RuleSet.note_of_notMem hin] at hmem ⊢
    refine ⟨List.nodup_append.2 ⟨h.nodup, List.nodup_singleton _, ?_⟩, hmem, ?_⟩
    · rintro a ha b hb rfl
      exact hin (List.mem_singleton.1 hb ▸ ha)
    · refine List.pairwise_append.2 ⟨h.order_concat rule, List.pairwise_singleton _ _, ?_⟩
      intro a ha b hb
      obtain rfl := List.mem_singleton.1 hb
      obtain ⟨i, hi⟩ := (h.mem a).1 ha
      refine ⟨i, blamedAt_concat.2 (Or.inl hi), fun j hj hbj => ?_⟩
      rcases blamedAt_concat.1 hbj with hbj | ⟨rfl, -⟩
      · exact hin ((h.mem _).2 ⟨j, hbj⟩)
      · exact Nat.not_lt.2 hj hi.lt

end Table

namespace RuleSet

/-- The induction adds the rules at the end of the table, since a rule is judged by those before it. -/
theorem blames_ruleIssues (rs : List Rule) : Blames rs (blamed (ruleIssues [] rs)) := by
  induction rs using List.reverseRecOn with
  | nil => exact ⟨List.nodup_nil, by simp [blamed, ruleIssues, BlamedAt], List.Pairwise.nil⟩
  | append_singleton rs rule ih =>
    by_cases hf : rule.IsFaulty (rs.map Rule.method)
    · rw [blamed_of_faulty hf]
      exact ih.of_faulty hf
    · rw [blamed_of_not_faulty hf]
      exact ih.of_not_faulty hf

/-- Only issues of rules name a method. -/
theorem blamed_issues (rules : RuleSet) : blamed rules.issues = blamed (ruleIssues [] rules.rules) := by
  have hone (b : Bool) (field : Text) :
      (if b = true then [Issue.missing none field] else []).filterMap Issue.method? = [] := by
    cases b <;> rfl
  have hnone (b : Bool) : (if b = true then [Issue.noRules] else []).filterMap Issue.method? = [] := by
    cases b <;> rfl
  rw [blamed, blamed, issues, List.filterMap_append, List.filterMap_append, List.filterMap_append,
    hnone, hone, hone, List.nil_append, List.nil_append, List.nil_append]

/-- A rule set is valid if it has rules, its two names are not blank, and its rules have identifiers and
different methods. Whether it is or not, the methods named in its issues are exactly those of the
faulty rules. -/
theorem validation_exact (rules : RuleSet) :
    (rules.isValid = true ↔ rules.rules ≠ [] ∧ rules.helperModule.trim ≠ [] ∧
      rules.emptyHelper.trim ≠ [] ∧
      (∀ rule ∈ rules.rules, rule.method.IsSpelled ∧ rule.helper.IsSpelled) ∧
      (rules.rules.map Rule.method).Nodup) ∧
    Blames rules.rules (blamed rules.issues) := by
  refine ⟨?_, rules.blamed_issues ▸ blames_ruleIssues rules.rules⟩
  simp only [isValid_iff, ne_eq, Text.trim_eq_nil, ← Text.isIdentifier_eq_true, Bool.not_eq_true]
  constructor
  · intro h
    exact ⟨h.nonempty, h.helperModule, h.emptyHelper, fun r hr => ⟨h.method r hr, h.helper r hr⟩,
      h.nodup⟩
  · rintro ⟨hr, hm, he, hnames, hn⟩
    exact ⟨hr, hm, he, fun r hr => (hnames r hr).1, fun r hr => (hnames r hr).2, hn⟩

example :
    let rule (method helper : String) : Rule := ⟨method.toList, helper.toList⟩
    let rules := { standard with rules :=
      [rule "map" "safeMap", rule " " "1", rule "find" "", rule "map" "x", rule "find" "y"] }
    blamed rules.issues = ["find".toList, "map".toList] := by decide +kernel

end RuleSet
end GuardedCalls
