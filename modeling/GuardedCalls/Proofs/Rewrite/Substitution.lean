import GuardedCalls.Proofs.Rewrite.Inserted
import GuardedCalls.Proofs.Rewrite.Splice

/-! A rewrite with the findings of a scan is the replacement of all flagged calls at once, each in its
own place, and at most one import. -/

namespace GuardedCalls

namespace RuleSet
variable {rules : RuleSet}

/-- The text with each flagged call replaced in its own place on its line. -/
def spliceSource (rules : RuleSet) (source : Text) : Text :=
  source.mapLines fun line => rules.splice (rules.flags line) line

/-- The text of a rewrite is that of its lines, and the import between two of its parts. -/
theorem text_rewrite_findings (h : rules.WellFormed) (source : Text) :
    ∃ before after, (rules.rewrite source (rules.findings source)).text =
        before ++ (if (rules.rewrite source (rules.findings source)).importAdded then
          rules.importLine source else []) ++ after ∧
      before ++ after = source.mapLines rules.rewriteLine := by
  obtain ⟨before, after, htext, hparts⟩ := rules.text_rewrite_parts source (rules.findings source)
  refine ⟨before, after, htext, ?_⟩
  rw [hparts, Rewrite.applyBatch_findings h, Text.mapLines, List.flatMap_def]

/-- With the import taken out, the lines of the result are those of the source, each rewritten. -/
theorem lines_rewrite_findings (h : rules.WellFormed) (source : Text) :
    ∃ before after, (rules.rewrite source (rules.findings source)).text =
        before ++ (if (rules.rewrite source (rules.findings source)).importAdded then
          rules.importLine source else []) ++ after ∧
      (before ++ after).lines.length = source.lines.length ∧
      ∀ (i : Nat) (line out : Text), source.lines[i]? = some line →
        (before ++ after).lines[i]? = some out → rules.rewriteLine line = out := by
  obtain ⟨before, after, htext, hparts⟩ := text_rewrite_findings h source
  have hlines := Text.lines_mapLines (staysLine_rewriteLine h) source
  rw [← hparts] at hlines
  refine ⟨before, after, htext, by rw [hlines, List.length_map], ?_⟩
  intro i line out hi ho
  rw [hlines, List.getElem?_map, hi] at ho
  exact Option.some.inj ho

/-- Where no flagged call is masked, every search of the rewrite finds its own call. -/
theorem rewrite_findings_eq_splice (hv : rules.isValid = true) (hne : rules.HelperNoMethod)
    (source : Text) (hm : ∀ line ∈ source.lines, rules.Unmasked (rules.flags line) line) :
    ∃ before after, (rules.rewrite source (rules.findings source)).text =
        before ++ (if (rules.rewrite source (rules.findings source)).importAdded then
          rules.importLine source else []) ++ after ∧
      before ++ after = rules.spliceSource source := by
  have h := isValid_iff.1 hv
  obtain ⟨before, after, htext, hparts⟩ := text_rewrite_findings h source
  refine ⟨before, after, htext, hparts.trans ?_⟩
  apply List.flatMap_congr
  intro piece hp
  have hline := hm piece.chomp (List.mem_map_of_mem hp)
  rw [rewriteLine, rewriteAll_flaggedCalls h hne hline]

/-- Calls of two methods, one inside the other, with receivers of which one ends the other. -/
theorem rewrite_findings_eq_splice_nested :
    let rules : RuleSet := { standard with rules := standardRules.take 2 }
    let source := "ab.map(b.filter(f))".toList
    ∃ before after, (rules.rewrite source (rules.findings source)).text =
        before ++ (if (rules.rewrite source (rules.findings source)).importAdded then
          rules.importLine source else []) ++ after ∧
      before ++ after = "safeMap(ab, safeFilter(b, f))".toList := by
  intro rules source
  have hv : rules.isValid = true := by decide +kernel
  obtain ⟨before, after, htext, hparts⟩ :=
    rewrite_findings_eq_splice hv (by decide +kernel) source (by decide +kernel)
  exact ⟨before, after, htext, hparts.trans (by decide +kernel)⟩

end RuleSet
end GuardedCalls
