import GuardedCalls.Proofs.Rewrite.Batch
import GuardedCalls.Proofs.Rewrite.Line
import GuardedCalls.Proofs.Text.Lines
import GuardedCalls.Scan.Source

/-! Rewriting a source with its own findings: every line is rewritten by itself, with the calls that the
scan has flagged on it. -/

namespace GuardedCalls

namespace Site

def edit (n : Nat) (s : Site) : LineEdit :=
  ⟨n, s.text, s.guarded⟩

def finding (n : Nat) (line : Text) (s : Site) : Finding :=
  ⟨n, s.rule.method, s.receiver, line.trim⟩

end Site

namespace RuleSet

/-- Receivers are flagged on a line unless they are exempt there. -/
def flags (rules : RuleSet) (line name : Text) : Bool :=
  !isExempt rules.exempt name line

/-- A line after the rewrites of its flagged calls. -/
def rewriteLine (rules : RuleSet) (line : Text) : Text :=
  Site.rewriteAll (rules.flaggedCalls (rules.flags line) line) line

end RuleSet

variable {rules : RuleSet}

theorem Site.allOnLine_edit (n : Nat) (ss : List Site) (line : Text) :
    LineEdit.allOnLine (ss.map (Site.edit n)) line = Site.rewriteAll ss line := by
  rw [LineEdit.allOnLine, List.foldl_map]
  rfl

theorem RuleSet.findingsOn_eq (rules : RuleSet) (n : Nat) (line : Text) :
    rules.findingsOn n line =
      (rules.flaggedCalls (rules.flags line) line).map (Site.finding n line) := by
  rw [findingsOn, flaggedCalls, List.map_flatMap]
  congr 1
  funext rule
  rw [findingsOf, List.map_map]
  rfl

theorem Rewrite.callEdit_finding (h : rules.WellFormed) {s : Site} (hs : rules.Admits s) (n : Nat)
    (line : Text) : (rules.helperFor? (s.finding n line).method).map
      (callEdit (s.finding n line)) = some (s.edit n) := by
  simp [Site.finding, h.helperFor? hs.rule, callEdit, Site.edit, Site.text_eq, Site.guarded]

theorem Rewrite.edits_findingsOn (h : rules.WellFormed) (n : Nat) (line : Text) :
    edits rules (rules.findingsOn n line) =
      (rules.flaggedCalls (rules.flags line) line).map (Site.edit n) := by
  rw [edits, RuleSet.findingsOn_eq, List.filterMap_map, ← List.filterMap_eq_map]
  apply List.filterMap_congr
  exact fun s hs => callEdit_finding h (RuleSet.admits_of_mem_flaggedCalls h hs) n line

theorem Rewrite.edits_findings (h : rules.WellFormed) (source : Text) :
    edits rules (rules.findings source) = (source.lines.zipIdx 1).flatMap fun (line, n) =>
      (rules.flaggedCalls (rules.flags line) line).map (Site.edit n) := by
  rw [edits, RuleSet.findings, List.filterMap_flatMap]
  congr 1
  funext (line, n)
  exact edits_findingsOn h n line

/-- Of the edits made for lines that are numbered from `k`, those for one of them. -/
theorem LineEdit.filter_flatMap_zipIdx (f : Text → List Site) (lines : List Text) (k i : Nat) :
    ((lines.zipIdx k).flatMap fun (line, n) => (f line).map (Site.edit n)).filter (·.line = k + i) =
      (lines[i]?.map fun line => (f line).map (Site.edit (k + i))).getD [] := by
  have hline (n : Nat) (line : Text) : ∀ e ∈ (f line).map (Site.edit n), e.line = n := by
    intro e he
    obtain ⟨s, -, rfl⟩ := List.mem_map.1 he
    rfl
  exact Text.filter_flatMap_zipIdx (fun n line => (f line).map (Site.edit n)) LineEdit.line hline
    lines k i

namespace Site

/-- What follows the last parenthesis of a line stays. -/
theorem rewriteIn_append_of_notMem {s : Site} (hs : rules.Admits s) (h : rules.WellFormed) (t : Text)
    {e : Text} (he : '(' ∉ e) : s.rewriteIn (t ++ e) = s.rewriteIn t ++ e := by
  induction t using Text.closing_induction '(' with
  | last x hx => rw [rewriteIn_of_notMem s hx, rewriteIn_of_notMem s (by simp [hx, he])]
  | stretch x t hx ih =>
    rw [List.append_assoc, List.cons_append]
    obtain ⟨b, rfl, hb⟩ | hpass := hs.stretch_cases h hx
    · rw [← append_text, ← append_text, rewriteIn_hit hs h _ hb, rewriteIn_hit hs h _ hb,
        List.append_assoc _ t]
    · rw [rewriteIn_pass hs h _ hx hpass, rewriteIn_pass hs h _ hx hpass, ih]
      simp

theorem rewriteAll_append_of_notMem (h : rules.WellFormed) {ss : List Site}
    (hss : ∀ s ∈ ss, rules.Admits s) (t : Text) {e : Text} (he : '(' ∉ e) :
    rewriteAll ss (t ++ e) = rewriteAll ss t ++ e := by
  induction ss generalizing t with
  | nil => rfl
  | cons s ss ih =>
    rw [rewriteAll, List.foldl_cons, rewriteIn_append_of_notMem (hss s List.mem_cons_self) h t he]
    exact ih (fun a ha => hss a (List.mem_cons_of_mem s ha)) _

end Site

/-- A rewritten call ends with a blank, and without calls the line stays. -/
theorem Site.staysLine_rewriteIn {s : Site} (hs : rules.Admits s) (h : rules.WellFormed) (t : Text) :
    Text.StaysLine t (s.rewriteIn t) := by
  rw [rewriteIn, Text.replaceFirst?]
  cases hc : Text.cut? s.text t with
  | none => exact Text.StaysLine.refl t
  | some parts =>
    obtain ⟨b, a⟩ := parts
    obtain rfl := Text.cut?_eq_some hc
    have hg : '\n' ∉ s.guarded := by
      have hh := h.notMem_helper hs.rule (c := '\n') (by decide)
      have hv := Text.notMem_of_isIdentifier (c := '\n') hs.receiver (by decide)
      simp [guarded, hh, hv]
    have hlast : s.guarded.getLast? = some ' ' := by
      simp [guarded, List.getLast?_cons]
    have hne : s.guarded ≠ [] := by simp [guarded]
    rw [Option.map_some, Option.getD_some]
    refine ⟨?_, ?_, fun _ => by simp [hne]⟩
    · simp only [List.mem_append, not_or]
      rintro ⟨⟨hb, -⟩, ha⟩
      exact ⟨⟨hb, hg⟩, ha⟩
    · cases a with
      | nil => simp [hlast]
      | cons c a => simp

theorem RuleSet.staysLine_rewriteLine (h : rules.WellFormed) (line : Text) :
    Text.StaysLine line (rules.rewriteLine line) := by
  have hall (ss : List Site) (hss : ∀ s ∈ ss, rules.Admits s) (t : Text) :
      Text.StaysLine t (Site.rewriteAll ss t) := by
    induction ss generalizing t with
    | nil => exact Text.StaysLine.refl t
    | cons s ss ih =>
      exact (Site.staysLine_rewriteIn (hss s List.mem_cons_self) h t).trans
        (ih (fun a ha => hss a (List.mem_cons_of_mem s ha)) _)
  exact hall _ (fun s hs => admits_of_mem_flaggedCalls h hs) line

/-- The batch of a rewrite with the findings of a scan rewrites each line by itself. -/
theorem Rewrite.applyBatch_findings (h : rules.WellFormed) (source : Text) :
    (LineEdit.applyBatch (edits rules (rules.findings source)) source.pieces).2 =
      source.pieces.map fun piece => rules.rewriteLine piece.chomp ++ piece.ending := by
  apply List.ext_getElem?
  intro i
  rw [LineEdit.getElem?_applyBatch, edits_findings h, Nat.add_comm i 1,
    LineEdit.filter_flatMap_zipIdx fun line => rules.flaggedCalls (rules.flags line) line,
    List.getElem?_map, Text.lines, List.getElem?_map]
  cases source.pieces[i]? with
  | none => rfl
  | some piece =>
    simp only [Option.map_some, Option.getD_some, Site.allOnLine_edit]
    have hadmits : ∀ s ∈ rules.flaggedCalls (rules.flags piece.chomp) piece.chomp, rules.Admits s :=
      fun s hs => RuleSet.admits_of_mem_flaggedCalls h hs
    have hsplit := Site.rewriteAll_append_of_notMem h hadmits piece.chomp
      (Text.paren_notMem_ending piece)
    rw [Text.chomp_append_ending] at hsplit
    rw [hsplit, RuleSet.rewriteLine]

/-- The text of a call is on a line exactly if it is found in some call there. -/
theorem Site.text_infix_iff {s : Site} (hs : rules.Admits s) (h : rules.WellFormed) (t : Text) :
    s.text <:+: t ↔ ∃ a ∈ rules.sites t, s.Hits a := by
  induction t using Text.closing_induction '(' with
  | last x hx =>
    have hno : ¬ s.text <:+: x := fun hi => hx (hi.subset (by simp [text_eq]))
    simp [RuleSet.sites_of_notMem rules hx, hno]
  | stretch x t hx ih =>
    have hcut : s.text <:+: x ++ '(' :: t ↔
        s.receiver ++ '.' :: s.rule.method <:+ x ∨ s.text <:+: t := by
      rw [← Text.cut?_isSome, ← Text.cut?_isSome, text_eq,
        Text.cut?_append_closing (hs.paren_notMem h) hx]
      split <;> simp [*]
    rw [hcut, hs.suffix_iff h, ih, RuleSet.sites_append h t hx]
    simp only [List.mem_append, Option.mem_toList, or_and_right, exists_or]

theorem Site.edit_applies {s : Site} (hs : rules.Admits s) (h : rules.WellFormed) (n : Nat)
    (pieces : List Text) : (s.edit (n + 1)).Applies pieces ↔
      ∃ piece, pieces[n]? = some piece ∧ ∃ a ∈ rules.sites piece, s.Hits a := by
  have htarget : (s.edit (n + 1)).target? pieces = pieces[n]? := by
    simp [LineEdit.target?, edit]
  rw [LineEdit.Applies, htarget]
  simp only [edit, text_infix_iff hs h]

theorem RuleSet.mem_findings {source : Text} {f : Finding} : f ∈ rules.findings source ↔
    ∃ i line, source.lines[i]? = some line ∧
      ∃ s ∈ rules.flaggedCalls (rules.flags line) line, f = s.finding (i + 1) line := by
  have hon (n : Nat) (line : Text) : f ∈ rules.findingsOn n line ↔
      ∃ s ∈ rules.flaggedCalls (rules.flags line) line, f = s.finding n line := by
    rw [findingsOn_eq, List.mem_map]
    simp only [eq_comm]
  simp only [findings, List.mem_flatMap, Prod.exists, hon, List.mem_zipIdx_iff_le_and_getElem?_sub]
  constructor
  · rintro ⟨line, n, ⟨hn, hl⟩, s, hs, rfl⟩
    exact ⟨n - 1, line, hl, s, hs, by rw [Nat.sub_add_cancel hn]⟩
  · rintro ⟨i, line, hl, s, hs, rfl⟩
    exact ⟨line, i + 1, ⟨by simp, by simpa using hl⟩, s, hs, rfl⟩

/-- The edits for the findings of a text are those of the calls flagged on its lines. -/
theorem Rewrite.mem_edits_findings (h : rules.WellFormed) {source : Text} {e : LineEdit} :
    e ∈ edits rules (rules.findings source) ↔ ∃ i line, source.lines[i]? = some line ∧
      ∃ s ∈ rules.flaggedCalls (rules.flags line) line, e = s.edit (i + 1) := by
  rw [edits, List.mem_filterMap]
  constructor
  · rintro ⟨f, hf, he⟩
    obtain ⟨i, line, hl, s, hs, rfl⟩ := RuleSet.mem_findings.1 hf
    rw [callEdit_finding h (RuleSet.admits_of_mem_flaggedCalls h hs)] at he
    exact ⟨i, line, hl, s, hs, (Option.some.inj he).symm⟩
  · rintro ⟨i, line, hl, s, hs, rfl⟩
    exact ⟨s.finding (i + 1) line, RuleSet.mem_findings.2 ⟨i, line, hl, s, hs, rfl⟩,
      callEdit_finding h (RuleSet.admits_of_mem_flaggedCalls h hs) _ _⟩

theorem RuleSet.calls_eq_zero (rules : RuleSet) (source : Text) (findings : List Finding) :
    (rules.rewrite source findings).calls = 0 ↔
      ∀ e ∈ Rewrite.edits rules findings, ¬ e.Applies source.pieces :=
  LineEdit.countP_applyBatch_eq_zero _ _

theorem RuleSet.importAdded_eq (rules : RuleSet) (source : Text) (findings : List Finding) :
    (rules.rewrite source findings).importAdded =
      (decide (0 < (rules.rewrite source findings).calls) &&
        !Import.isPresent source rules.helperModule) := rfl

/-- A rewrite with the findings of a scan rewrites some call as soon as there is a finding. -/
theorem RuleSet.calls_findings (h : rules.WellFormed) (source : Text) :
    (rules.rewrite source (rules.findings source)).calls = 0 ↔ rules.findings source = [] := by
  rw [calls_eq_zero]
  constructor
  · intro hnone
    rw [List.eq_nil_iff_forall_not_mem]
    intro f hf
    obtain ⟨i, line, hl, s, hs, -⟩ := mem_findings.1 hf
    obtain ⟨hsite, -⟩ := (mem_flaggedCalls h).1 hs
    have hadmits := admits_of_mem_sites h hsite
    apply hnone (s.edit (i + 1)) ((Rewrite.mem_edits_findings h).2 ⟨i, line, hl, s, hs, rfl⟩)
    rw [Text.lines, List.getElem?_map] at hl
    obtain ⟨piece, hp, rfl⟩ := Option.map_eq_some_iff.1 hl
    refine (Site.edit_applies hadmits h i _).2 ⟨piece, hp, s, ?_, s.hits_self⟩
    have hsplit := sites_append_of_notMem h piece.chomp (Text.paren_notMem_ending piece)
    rw [Text.chomp_append_ending] at hsplit
    rwa [hsplit]
  · intro hnil
    simp [hnil, Rewrite.edits]

end GuardedCalls
