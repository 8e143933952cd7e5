import GuardedCalls.Proofs.Rewrite.Inserted
import GuardedCalls.Proofs.Rewrite.Survival

/-! A second rewrite with the findings of the first scan. It changes nothing exactly if no finding hits
a call that the first rewrite has left on the line with its number, which need no longer be its line. -/

namespace GuardedCalls

theorem Rewrite.lineEnding_cases (source : Text) :
    lineEnding source = ['\n'] ∨ lineEnding source = ['\r', '\n'] := by
  rw [lineEnding]
  split
  · split <;> simp
  · simp

/-- A text with the line ending of another ends with a newline, and has no other characters than its own
but for a return before that. -/
theorem Rewrite.append_lineEnding (s source : Text) :
    ∃ x, s ++ lineEnding source = x ++ ['\n'] ∧ ∀ c, c ≠ '\r' → c ∉ s → c ∉ x := by
  rcases lineEnding_cases source with he | he <;> rw [he]
  · exact ⟨s, rfl, fun _ _ hc => hc⟩
  · refine ⟨s ++ ['\r'], by rw [List.append_assoc]; rfl, fun c hr hc => ?_⟩
    simp [hr, hc]

theorem Import.first?_lt {pieces : List Text} (h : pieces ≠ []) :
    (Import.first? pieces).getD 0 < pieces.length := by
  cases hf : Import.first? pieces with
  | none => exact List.length_pos_of_ne_nil h
  | some i => exact (List.findIdx?_eq_some_iff_getElem.1 hf).1

namespace RuleSet
variable {rules : RuleSet}

/-- The names that a rule set does not check hold no parenthesis and no newline. -/
def HasPlainNames (rules : RuleSet) : Prop :=
  ∀ c ∈ ['(', '\n'], c ∉ rules.helperModule ∧ c ∉ rules.emptyHelper

instance (rules : RuleSet) : Decidable rules.HasPlainNames :=
  List.decidableBAll (fun c => c ∉ rules.helperModule ∧ c ∉ rules.emptyHelper) ['(', '\n']

/-- A statement holds a parenthesis or a newline only if one of the names does that are not checked. -/
theorem notMem_statement (h : rules.WellFormed) {c : Char} (hc : c ∈ ['(', '\n'])
    (hmodule : c ∉ rules.helperModule) (hempty : c ∉ rules.emptyHelper) (findings : List Finding) :
    c ∉ Import.statement (rules.requiredHelpers findings) rules.helperModule := by
  have hid : Text.isIdentChar c = false := by
    rcases List.mem_pair.1 hc with rfl | rfl <;> decide
  have hbreak : c ∈ ['(', '\r', '\n'] := by
    rcases List.mem_pair.1 hc with rfl | rfl <;> decide
  refine Import.notMem_statement hbreak (fun name hn => ?_) hmodule
  cases mem_requiredHelpers hn with
  | inl hn =>
    obtain ⟨rule, hr, rfl⟩ := List.mem_map.1 hn
    exact h.notMem_helper hr hid
  | inr hn => rwa [hn]

/-- The line ends with a newline and holds nothing but the statement and perhaps a return before. -/
theorem exists_importLine (rules : RuleSet) (source : Text) :
    ∃ x, rules.importLine source = x ++ ['\n'] ∧ ∀ c, c ≠ '\r' →
      c ∉ Import.statement (rules.requiredHelpers (rules.findings source)) rules.helperModule →
        c ∉ x :=
  Rewrite.append_lineEnding _ source

theorem importLine_eq (h : rules.WellFormed) (hplain : rules.HasPlainNames) (source : Text) :
    ∃ x, rules.importLine source = x ++ ['\n'] ∧ '\n' ∉ x ∧ '(' ∉ x := by
  obtain ⟨x, hx, hnot⟩ := rules.exists_importLine source
  have hchar (c : Char) (hc : c ∈ ['(', '\n']) (hr : c ≠ '\r') : c ∉ x :=
    hnot c hr (notMem_statement h hc (hplain c hc).1 (hplain c hc).2 _)
  exact ⟨x, hx, hchar '\n' (by simp) (by decide), hchar '(' (by simp) (by decide)⟩

/-- The text of a rewrite piece by piece. -/
theorem text_rewrite_pieces (h : rules.WellFormed) (source : Text) :
    (rules.rewrite source (rules.findings source)).text =
      (if (rules.rewrite source (rules.findings source)).importAdded then
        Rewrite.insertPiece ((Import.first? source.pieces).getD 0) (rules.importLine source)
          (source.mapLines rules.rewriteLine).pieces
      else (source.mapLines rules.rewriteLine).pieces).flatten := by
  rw [Text.pieces_mapLines (staysLine_rewriteLine h), ← Rewrite.applyBatch_findings h]
  rfl

theorem pieces_ne_nil_of_importAdded {source : Text} {findings : List Finding}
    (hadd : (rules.rewrite source findings).importAdded = true) : source.pieces ≠ [] := by
  intro hnil
  simp only [rewrite, Bool.and_eq_true, decide_eq_true_eq] at hadd
  refine Nat.ne_of_gt hadd.1 ((LineEdit.countP_applyBatch_eq_zero _ _).2 fun e _ happlies => ?_)
  obtain ⟨line, ht, -⟩ := happlies
  rw [LineEdit.target?, hnil] at ht
  split at ht <;> simp at ht

/-- An import is inserted before one of the pieces. -/
theorem first?_lt_of_importAdded (h : rules.WellFormed) {source : Text}
    (hadd : (rules.rewrite source (rules.findings source)).importAdded = true) :
    (Import.first? source.pieces).getD 0 < (source.mapLines rules.rewriteLine).pieces.length := by
  rw [Text.pieces_mapLines (staysLine_rewriteLine h), List.length_map]
  exact Import.first?_lt (pieces_ne_nil_of_importAdded hadd)

/-- The calls that a rewrite with the findings of a scan leaves on the lines of its result. -/
def standingAt (rules : RuleSet) (source : Text) (i : Nat) : List Site :=
  let place := (Import.first? source.pieces).getD 0
  let left j := (source.lines[j]?.map fun line => rules.standing (rules.flags line) line).getD []
  if (rules.rewrite source (rules.findings source)).importAdded then
    if i < place then left i else if i = place then [] else left (i - 1)
  else left i

theorem sitesAt_rewrite (h : rules.WellFormed) (hends : rules.HelperEndsNoMethod)
    (hplain : rules.HasPlainNames) (source : Text) (i : Nat) :
    rules.sitesAt (rules.rewrite source (rules.findings source)).text i =
      rules.standingAt source i := by
  have hleft (j : Nat) : rules.sitesAt (source.mapLines rules.rewriteLine) j =
      (source.lines[j]?.map fun line => rules.standing (rules.flags line) line).getD [] := by
    rw [sitesAt, Text.lines_mapLines (staysLine_rewriteLine h), List.getElem?_map, Option.map_map]
    congr 2
    funext line
    exact sites_rewriteLine h hends line
  rw [text_rewrite_pieces h, standingAt]
  cases hadd : (rules.rewrite source (rules.findings source)).importAdded with
  | false => rw [if_neg (by simp), if_neg (by simp), Text.flatten_pieces, hleft]
  | true =>
    obtain ⟨x, hx, hnl, hp⟩ := importLine_eq h hplain source
    rw [if_pos rfl, if_pos rfl, hx, sitesAt_insertPiece h (first?_lt_of_importAdded h hadd) hnl hp]
    simp only [hleft]

/-- A rewrite without a rewritten call leaves the text as it is. -/
theorem rewrite_of_calls_eq_zero {source : Text} {findings : List Finding}
    (hcalls : (rules.rewrite source findings).calls = 0) :
    (rules.rewrite source findings).text = source ∧
      (rules.rewrite source findings).importAdded = false := by
  have hbatch := LineEdit.applyBatch_of_not_applies ((calls_eq_zero _ _ _).1 hcalls)
  have hadd : (rules.rewrite source findings).importAdded = false := by
    rw [importAdded_eq, hcalls]
    rfl
  refine ⟨?_, hadd⟩
  simp only [rewrite] at hadd ⊢
  rw [hadd, if_neg (by simp), hbatch, Text.flatten_pieces]

/-- A rewrite finds a call for one of the findings exactly if one of them hits a call on its line. -/
theorem calls_findings_eq_zero (h : rules.WellFormed) (source text : Text) :
    (rules.rewrite text (rules.findings source)).calls = 0 ↔
      ∀ f ∈ rules.findings source, ∀ s ∈ rules.sitesAt text (f.line - 1),
        s.rule.method = f.method → ¬ f.receiver <:+ s.receiver := by
  rw [calls_eq_zero]
  constructor
  · intro hnone f hf a ha hm hsuf
    obtain ⟨i, line, hl, s, hs, rfl⟩ := mem_findings.1 hf
    have hadmits := admits_of_mem_flaggedCalls h hs
    have hsite : (s.finding (i + 1) line).line - 1 = i := rfl
    rw [hsite, sitesAt_eq h] at ha
    cases hp : text.pieces[i]? with
    | none => simp [hp] at ha
    | some piece =>
      have ha : a ∈ rules.sites piece := by simpa [hp] using ha
      have hrule := h.rule_eq (admits_of_mem_sites h ha).rule hadmits.rule hm
      exact hnone _ ((Rewrite.mem_edits_findings h).2 ⟨i, line, hl, s, hs, rfl⟩)
        ((Site.edit_applies hadmits h i _).2 ⟨piece, hp, a, ha, hrule, hsuf⟩)
  · intro hnone e he happlies
    obtain ⟨i, line, hl, s, hs, rfl⟩ := (Rewrite.mem_edits_findings h).1 he
    have hadmits := admits_of_mem_flaggedCalls h hs
    obtain ⟨piece, hp, a, ha, hrule, hsuf⟩ := (Site.edit_applies hadmits h i _).1 happlies
    refine hnone (s.finding (i + 1) line) (mem_findings.2 ⟨i, line, hl, s, hs, rfl⟩) a ?_
      (congrArg Rule.method hrule) hsuf
    have hsite : (s.finding (i + 1) line).line - 1 = i := rfl
    rw [hsite, sitesAt_eq h, hp]
    exact ha

/-- Rewriting the result with the same findings again changes nothing exactly if none of them hits a
call on the line with its number. If no method ends with a helper, the calls that stand there are
those that the first rewrite has left, with the import moving them on by one line. -/
theorem rewrite_twice (hv : rules.isValid = true) (source : Text) :
    let findings := rules.findings source
    let once := (rules.rewrite source findings).text
    let twice := rules.rewrite once findings
    ((twice.text = once ∧ twice.calls = 0 ∧ twice.importAdded = false) ↔
      ∀ f ∈ findings, ∀ s ∈ rules.sitesAt once (f.line - 1),
        s.rule.method = f.method → ¬ f.receiver <:+ s.receiver) ∧
    (rules.HelperEndsNoMethod → rules.HasPlainNames →
      ∀ i, rules.sitesAt once i = rules.standingAt source i) := by
  intro findings once twice
  have h := isValid_iff.1 hv
  refine ⟨?_, fun hends hplain i => sitesAt_rewrite h hends hplain source i⟩
  rw [← calls_findings_eq_zero h source once]
  constructor
  · exact fun hnoop => hnoop.2.1
  · intro hcalls
    obtain ⟨htext, hadd⟩ := rewrite_of_calls_eq_zero hcalls
    exact ⟨htext, hcalls, hadd⟩

/-- A single call is not found again, and none stands on the two lines of the result. -/
theorem rewrite_twice_single :
    let rules : RuleSet := { standard with rules := standardRules.take 1 }
    let once := (rules.rewrite "a.map(f)".toList (rules.findings "a.map(f)".toList)).text
    let twice := rules.rewrite once (rules.findings "a.map(f)".toList)
    (twice.text = once ∧ twice.calls = 0 ∧ twice.importAdded = false) ∧
      ∀ i, rules.sitesAt once i = rules.standingAt "a.map(f)".toList i := by
  intro rules once twice
  have hv : rules.isValid = true := by decide +kernel
  obtain ⟨hnoop, hstanding⟩ := rewrite_twice hv "a.map(f)".toList
  exact ⟨hnoop.2 (by decide +kernel), hstanding (by decide +kernel) (by decide +kernel)⟩

/-- The finding of the second line is looked for on the first one, which the import has moved on. -/
theorem rewrite_twice_shifted :
    let rules : RuleSet := { standard with rules := standardRules.take 1 }
    let source := "a=[a.map(f)]\na.map(g)".toList
    let once := (rules.rewrite source (rules.findings source)).text
    let twice := rules.rewrite once (rules.findings source)
    rules.isValid = true ∧ once = rules.importLine source ++ "a=[a.map(f)]\nsafeMap(a, g)".toList ∧
      twice.text = rules.importLine source ++ "a=[safeMap(a, f)]\nsafeMap(a, g)".toList ∧
      twice.calls = 1 := by
  decide +kernel

end RuleSet
end GuardedCalls
