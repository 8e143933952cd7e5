import GuardedCalls.Proofs.Rewrite.Standing
import GuardedCalls.Proofs.Rewrite.Substitution

/-! What a rewrite does to the calls that are exempt. They stay unless a flagged call of the same line
is masked by one of them: its search then finds the exempt call, which stands first. -/

namespace GuardedCalls.RuleSet
variable {rules : RuleSet}

/-- The calls of a line whose receivers are exempt there, from left to right. -/
def exemptCalls (rules : RuleSet) (line : Text) : List Site :=
  (rules.sites line).filter fun s => isExempt rules.exempt s.receiver line

theorem exemptCalls_eq (rules : RuleSet) (line : Text) : rules.exemptCalls line =
    (rules.sites line).filter fun s => !rules.flags line s.receiver := by
  simp [exemptCalls, flags]

theorem exemptCalls_sublist (h : rules.WellFormed) (hne : rules.HelperNoMethod) {line : Text}
    (hm : rules.Unmasked (rules.flags line) line) :
    (rules.exemptCalls line).Sublist (rules.sites (rules.rewriteLine line)) := by
  rw [rewriteLine, rewriteAll_flaggedCalls h hne hm, sites_splice h hne, exemptCalls_eq]

theorem sites_rewriteLine (h : rules.WellFormed) (hends : rules.HelperEndsNoMethod) (line : Text) :
    rules.sites (rules.rewriteLine line) = rules.standing (rules.flags line) line :=
  sites_rewriteAll h hends (fun _ hs => admits_of_mem_flaggedCalls h hs) line

theorem unmasked_of_exemptCalls_sublist (h : rules.WellFormed) (hends : rules.HelperEndsNoMethod)
    {line : Text}
    (hsub : (rules.exemptCalls line).Sublist (rules.sites (rules.rewriteLine line))) :
    rules.Unmasked (rules.flags line) line := by
  rw [exemptCalls_eq, sites_rewriteLine h hends] at hsub
  exact unmasked_of_sublist h hsub

/-- With the import taken out, the lines of the result correspond to those of the source. A line keeps
its exempt calls if no flagged call on it is masked, and unless a method ends with a helper it does so
only then. -/
theorem exemptCalls_survive (hv : rules.isValid = true) (hne : rules.HelperNoMethod)
    (source : Text) :
    ∃ before after, (rules.rewrite source (rules.findings source)).text =
        before ++ (if (rules.rewrite source (rules.findings source)).importAdded then
          rules.importLine source else []) ++ after ∧
      (before ++ after).lines.length = source.lines.length ∧
      ∀ (i : Nat) (line out : Text), source.lines[i]? = some line →
        (before ++ after).lines[i]? = some out →
          (rules.Unmasked (rules.flags line) line →
            (rules.exemptCalls line).Sublist (rules.sites out)) ∧
          (rules.HelperEndsNoMethod → (rules.exemptCalls line).Sublist (rules.sites out) →
            rules.Unmasked (rules.flags line) line) := by
  have h := isValid_iff.1 hv
  obtain ⟨before, after, htext, hlength, hlines⟩ := lines_rewrite_findings h source
  refine ⟨before, after, htext, hlength, ?_⟩
  intro i line out hi ho
  obtain rfl := hlines i line out hi ho
  exact ⟨exemptCalls_sublist h hne, fun hends => unmasked_of_exemptCalls_sublist h hends⟩

/-- A flagged call that stands before the exempt one that it ends is rewritten in its own place. -/
theorem exemptCalls_survive_behind :
    let rules : RuleSet := { standard with rules := standardRules.take 1 }
    let line := "ab=[b.map(f), ab.map(g)]".toList
    ∃ before after, (rules.rewrite line (rules.findings line)).text =
        before ++ (if (rules.rewrite line (rules.findings line)).importAdded then
          rules.importLine line else []) ++ after ∧
      ∀ out, (before ++ after).lines[0]? = some out →
        (rules.exemptCalls line).Sublist (rules.sites out) := by
  intro rules line
  have hv : rules.isValid = true := by decide +kernel
  obtain ⟨before, after, htext, -, hlines⟩ := exemptCalls_survive hv (by decide +kernel) line
  have hline : (Text.lines line)[0]? = some line := by decide +kernel
  exact ⟨before, after, htext, fun out ho => (hlines 0 line out hline ho).1 (by decide +kernel)⟩

/-- One that stands after it is looked for in the exempt call, which is lost. -/
theorem exemptCalls_lost :
    let rules : RuleSet := { standard with rules := standardRules.take 1 }
    let line := "ab=[ab.map(f), b.map(g)]".toList
    let out := "ab=[asafeMap(b, f), b.map(g)]".toList
    rules.isValid = true ∧ rules.HelperNoMethod ∧
      (rules.rewrite line (rules.findings line)).text = rules.importLine line ++ out ∧
      ¬ (rules.exemptCalls line).Sublist (rules.sites out) := by
  decide +kernel

end GuardedCalls.RuleSet
