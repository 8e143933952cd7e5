import GuardedCalls.Proofs.Rewrite.Call

/-! What stands before the parenthesis of a rewritten call: the helper, with the line before the
receiver in front of it. Unless a method ends with a helper, this is no call that the rules know. -/

namespace GuardedCalls
open Text (isIdentifier lastName)

namespace RuleSet

/-- No helper is the method of a rule. -/
def HelperNoMethod (rules : RuleSet) : Prop :=
  ∀ a ∈ rules.rules, ∀ b ∈ rules.rules, a.helper ≠ b.method

/-- No helper ends the method of a rule. -/
def HelperEndsNoMethod (rules : RuleSet) : Prop :=
  ∀ a ∈ rules.rules, ∀ b ∈ rules.rules, ¬ a.helper <:+ b.method

instance (rules : RuleSet) : Decidable rules.HelperNoMethod :=
  inferInstanceAs (Decidable (∀ a ∈ rules.rules, ∀ b ∈ rules.rules, a.helper ≠ b.method))

instance (rules : RuleSet) : Decidable rules.HelperEndsNoMethod :=
  inferInstanceAs (Decidable (∀ a ∈ rules.rules, ∀ b ∈ rules.rules, ¬ a.helper <:+ b.method))

end RuleSet

/-- A method that such a text ends with is the helper with the end of the line in front of it. -/
theorem Call.suffix_append {method b w : Text} (hw : '.' ∉ w) (hs : '.' :: method <:+ b ++ w) :
    ∃ u, method = u ++ w ∧ '.' :: u <:+ b := by
  obtain ⟨p, hp⟩ := hs
  rcases List.append_eq_append_iff.1 hp with ⟨q, hq, hm⟩ | ⟨q, -, hq⟩
  · cases q with
    | nil =>
      rw [List.nil_append] at hm
      exact absurd (hm ▸ List.mem_cons_self) hw
    | cons c u =>
      obtain ⟨rfl, rfl⟩ := List.cons.inj hm
      exact ⟨u, rfl, p, hq.symm⟩
  · rw [hq] at hw
    simp at hw

variable {rules : RuleSet} {s : Site}

theorem RuleSet.WellFormed.notMem_helper (h : rules.WellFormed) {rule : Rule}
    (hr : rule ∈ rules.rules) {c : Char} (hc : Text.isIdentChar c = false) : c ∉ rule.helper :=
  Text.notMem_of_isIdentifier (h.helper rule hr) hc

/-- Neither of the two stretches that a rewritten call makes has a parenthesis. -/
theorem RuleSet.Admits.paren_notMem_helper (hs : rules.Admits s) (h : rules.WellFormed) {b : Text}
    (hb : '(' ∉ b) : '(' ∉ b ++ s.rule.helper := by
  simp [hb, h.notMem_helper hs.rule (c := '(') (by decide)]

theorem RuleSet.Admits.paren_notMem_receiver (hs : rules.Admits s) :
    '(' ∉ s.receiver ++ [','] := by
  simp [Text.notMem_of_isIdentifier hs.receiver (c := '(') (by decide)]

namespace RuleSet

theorem siteOf?_helper (h : rules.WellFormed) (hends : rules.HelperEndsNoMethod) {rule : Rule}
    (hr : rule ∈ rules.rules) (b : Text) : rules.siteOf? (b ++ rule.helper) = none := by
  rw [siteOf?_eq_none]
  intro r hrr
  cases hv : Call.receiver? r.method (b ++ rule.helper) with
  | none => rfl
  | some v =>
    obtain ⟨p, hp, -⟩ := Call.receiver?_eq_some.1 hv
    obtain ⟨u, hu, -⟩ := Call.suffix_append (h.notMem_helper hr (by decide)) ⟨p, hp.symm⟩
    exact absurd ⟨u, hu.symm⟩ (hends rule hr r hrr)

/-- When the whole receiver is taken out, the line before it ends with no part of a method, so it is
enough that no helper is a method. -/
theorem siteOf?_helper_whole (h : rules.WellFormed) (hne : rules.HelperNoMethod)
    (hs : rules.Admits s) {b : Text} (hb : lastName (b ++ s.receiver) = s.receiver) :
    rules.siteOf? (b ++ s.rule.helper) = none := by
  rw [siteOf?_eq_none]
  intro r hr
  cases hv : Call.receiver? r.method (b ++ s.rule.helper) with
  | none => rfl
  | some v =>
    obtain ⟨p, hp, -⟩ := Call.receiver?_eq_some.1 hv
    obtain ⟨u, hu, q, rfl⟩ := Call.suffix_append (h.notMem_helper hs.rule (by decide)) ⟨p, hp.symm⟩
    cases u with
    | nil => exact absurd hu.symm (hne s.rule hs.rule r hr)
    | cons c u =>
      have hm := h.method r hr
      rw [hu, List.cons_append, Text.isIdentifier_cons] at hm
      have hlong : isIdentifier (c :: u ++ s.receiver) = true := by
        rw [List.cons_append, Text.isIdentifier_cons]
        refine ⟨hm.1, fun d hd => ?_⟩
        rcases List.mem_append.1 hd with hd | hd
        · exact hm.2 d (List.mem_append_left _ hd)
        · exact Text.isIdentChar_of_mem hs.receiver hd
      have hcut : lastName (q ++ '.' :: c :: u ++ s.receiver) = lastName (c :: u ++ s.receiver) := by
        rw [List.append_assoc, List.cons_append, Text.lastName_append_cons q _ (by decide)]
      have hlen := ((Text.suffix_lastName hlong).2 List.suffix_rfl).length_le
      rw [← hcut, hb] at hlen
      simp only [List.length_append, List.length_cons] at hlen
      omega

end RuleSet

/-- A line with a rewritten call has the calls of what precedes the receiver and the helper, and those
that follow. -/
theorem RuleSet.sites_guarded (h : rules.WellFormed) (hs : rules.Admits s) {b : Text} (t : Text)
    (hb : '(' ∉ b) : rules.sites (b ++ s.guarded ++ t) =
      (rules.siteOf? (b ++ s.rule.helper)).toList ++ rules.sites t := by
  rw [Site.guarded_append, sites_append h _ (hs.paren_notMem_helper h hb),
    sites_append_cons h _ hs.paren_notMem_receiver (by decide) (by decide) (by decide)]

end GuardedCalls
