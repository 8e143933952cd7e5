import GuardedCalls.Proofs.Rewrite.Findings

/-! A rewrite with the findings of a scan misses none of them. The search for a call may come upon
another one, but only upon one that stands before it, so the calls that are still to be found stay. -/

namespace GuardedCalls

/-- Each rewrite of a line finds its text when its turn comes. -/
def Site.AllFound : List Site → Text → Prop
  | [], _ => True
  | s :: ss, line => s.text <:+: line ∧ AllFound ss (s.rewriteIn line)

/-- Each rewrite finds its text, also when some of the others are left out. -/
def Site.FoundAnyhow (ss : List Site) (line : Text) : Prop :=
  ∀ ss', ss'.Sublist ss → AllFound ss' line

/-- Each edit of a line finds its text when its turn comes. -/
def LineEdit.AllFound : List LineEdit → Text → Prop
  | [], _ => True
  | e :: es, line => e.search <:+: line ∧ AllFound es (e.onLine line)

variable {rules : RuleSet}

namespace Site

theorem allFound_edit (n : Nat) (ss : List Site) (line : Text) :
    LineEdit.AllFound (ss.map (edit n)) line ↔ AllFound ss line := by
  induction ss generalizing line with
  | nil => exact Iff.rfl
  | cons s ss ih => exact and_congr_right fun _ => ih _

theorem allFound_append (ss ss' : List Site) (line : Text) :
    AllFound (ss ++ ss') line ↔ AllFound ss line ∧ AllFound ss' (rewriteAll ss line) := by
  induction ss generalizing line with
  | nil => simp [AllFound, rewriteAll]
  | cons s ss ih =>
    rw [List.cons_append, AllFound, AllFound, ih, and_assoc]
    rfl

theorem allFound_append_cons (h : rules.WellFormed) {ss : List Site}
    (hss : ∀ s ∈ ss, rules.Admits s) {c : Char} {p t : Text} (hpp : '(' ∉ p)
    (hc : Text.isIdentChar c = false) (hp : c ≠ '.') (hpc : c ≠ '(') (hf : AllFound ss t) :
    AllFound ss (p ++ c :: t) := by
  induction ss generalizing t with
  | nil => trivial
  | cons s ss ih =>
    obtain ⟨htext, hrest⟩ := hf
    refine ⟨htext.trans ((List.suffix_cons c t).trans (List.suffix_append p _)).isInfix, ?_⟩
    rw [rewriteIn_append_cons (hss s List.mem_cons_self) h t hpp hc hp hpc]
    exact ih (fun a ha => hss a (List.mem_cons_of_mem s ha)) hrest

theorem allFound_append_of_notMem (h : rules.WellFormed) {ss : List Site}
    (hss : ∀ s ∈ ss, rules.Admits s) {t e : Text} (he : '(' ∉ e) (hf : AllFound ss t) :
    AllFound ss (t ++ e) := by
  induction ss generalizing t with
  | nil => trivial
  | cons s ss ih =>
    obtain ⟨htext, hrest⟩ := hf
    refine ⟨htext.trans (List.prefix_append t e).isInfix, ?_⟩
    rw [rewriteIn_append_of_notMem (hss s List.mem_cons_self) h t he]
    exact ih (fun a ha => hss a (List.mem_cons_of_mem s ha)) hrest

theorem allFound_guarded (h : rules.WellFormed) {s : Site} {ss : List Site} (hs : rules.Admits s)
    (hss : ∀ s ∈ ss, rules.Admits s) {t : Text} (hf : AllFound ss t) :
    AllFound ss ((s.receiver ++ [',']) ++ ' ' :: t) :=
  allFound_append_cons h hss hs.paren_notMem_receiver (by decide) (by decide) (by decide) hf

/-- A stretch more in front takes rewrites away from the rest of the line, which does no harm there. -/
theorem allFound_stretch (h : rules.WellFormed) {ss : List Site} (hss : ∀ s ∈ ss, rules.Admits s)
    {x t : Text} (hx : '(' ∉ x) (hf : FoundAnyhow ss t) : AllFound ss (x ++ '(' :: t) := by
  induction ss generalizing x t with
  | nil => trivial
  | cons s ss ih =>
    obtain ⟨hs, hss⟩ := List.forall_mem_cons.1 hss
    obtain ⟨b, rfl, hb⟩ | hpass := hs.stretch_cases h hx
    · rw [← append_text]
      refine ⟨⟨b, t, rfl⟩, ?_⟩
      rw [rewriteIn_hit hs h t hb, guarded_append]
      exact ih hss (hs.paren_notMem_helper h hb) fun ss' hsub =>
        allFound_guarded h hs (fun a ha => hss a (hsub.subset ha)) (hf ss' (hsub.cons s))
    · obtain ⟨htext, -⟩ := hf [s] (List.singleton_sublist.2 List.mem_cons_self)
      refine ⟨htext.trans ((List.suffix_cons '(' t).trans (List.suffix_append x _)).isInfix, ?_⟩
      rw [rewriteIn_pass hs h t hx hpass]
      exact ih hss hx fun ss' hsub => (hf (s :: ss') (hsub.cons_cons s)).2

/-- A rewrite that finds its call at once leaves the rest of the line to the others. -/
theorem allFound_hit (h : rules.WellFormed) {s : Site} {ss : List Site} (hs : rules.Admits s)
    (hss : ∀ s ∈ ss, rules.Admits s) {b t : Text} (hb : '(' ∉ b) (hf : FoundAnyhow ss t) :
    AllFound (s :: ss) (b ++ s.text ++ t) := by
  refine ⟨⟨b, t, rfl⟩, ?_⟩
  rw [rewriteIn_hit hs h t hb, guarded_append]
  exact allFound_stretch h hss (hs.paren_notMem_helper h hb) fun ss' hsub =>
    allFound_guarded h hs (fun a ha => hss a (hsub.subset ha)) (hf ss' hsub)

end Site

namespace RuleSet
variable {flagged : Text → Bool}

theorem flaggedCalls_of_notMem (rules : RuleSet) {t : Text} (ht : '(' ∉ t) :
    rules.flaggedCalls flagged t = [] := by
  simp [flaggedCalls, receivers_of_notMem ht]

/-- The induction is on the stretches. A flagged first stretch is passed by the rewrites of other rules,
and taken by its own unless that is left out. -/
theorem foundAnyhow_flaggedCalls (h : rules.WellFormed) (t : Text) :
    Site.FoundAnyhow (rules.flaggedCalls flagged t) t := by
  induction t using Text.closing_induction '(' with
  | last x hx =>
    intro ss hsub
    rw [flaggedCalls_of_notMem rules hx, List.sublist_nil] at hsub
    rw [hsub]
    trivial
  | stretch x t hx ih =>
    have hadmits (ss : List Site) (hsub : ss.Sublist (rules.flaggedCalls flagged t)) :
        ∀ s ∈ ss, rules.Admits s := fun s hs => admits_of_mem_flaggedCalls h (hsub.subset hs)
    have hpassed (ss : List Site) (hsub : ss.Sublist (rules.flaggedCalls flagged t)) :
        Site.AllFound ss (x ++ '(' :: t) :=
      Site.allFound_stretch h (hadmits ss hsub) hx fun ss' hsub' => ih ss' (hsub'.trans hsub)
    obtain hskip | ⟨s, hs, hf⟩ := rules.flagged_cases flagged x
    · rw [flaggedCalls_skip h t hx hskip]
      exact hpassed
    · obtain ⟨before, after, hcalls, hinsert, hbefore⟩ := flaggedCalls_insert h t hx hs hf
      rw [hinsert]
      intro ss hsub
      obtain ⟨ss₁, ss₂, rfl, hsub₁, hsub₂⟩ := List.sublist_append_iff.1 hsub
      rcases List.sublist_cons_iff.1 hsub₂ with hafter | ⟨ss₂, rfl, hafter⟩
      · exact hpassed _ (hcalls ▸ hsub₁.append hafter)
      · have hsub₁' : ss₁.Sublist (rules.flaggedCalls flagged t) :=
          hcalls ▸ hsub₁.trans (List.sublist_append_left before after)
        have hsub₂' : ss₂.Sublist (rules.flaggedCalls flagged t) :=
          hcalls ▸ hafter.trans (List.sublist_append_right before after)
        have hpass : ∀ a ∈ ss₁, ∀ c, rules.siteOf? x = some c → ¬ a.Hits c := fun a ha =>
          hbefore a (hsub₁.subset ha)
        have hrest : Site.FoundAnyhow ss₂ (Site.rewriteAll ss₁ t) := fun ss' hsub' =>
          ((Site.allFound_append ss₁ ss' t).1 (ih _ (hcalls ▸ hsub₁.append (hsub'.trans hafter)))).2
        have hs' := admits_of_siteOf? hs
        obtain ⟨b, rfl⟩ := (hs'.suffix_iff h).2 ⟨s, hs, s.hits_self⟩
        have hparen : '(' ∉ b := fun hm => hx (List.mem_append_left _ hm)
        rw [Site.allFound_append, Site.rewriteAll_pass h (hadmits ss₁ hsub₁') t hx hpass]
        refine ⟨hpassed ss₁ hsub₁', ?_⟩
        rw [← Site.append_text]
        exact Site.allFound_hit h hs' (hadmits ss₂ hsub₂') hparen hrest

end RuleSet

/-- Edits of which each finds its text on its line are all applied, whatever the order of the lines. -/
theorem LineEdit.isApplied_of_allFound {es : List LineEdit} {lines : List Text}
    (hline : ∀ e ∈ es, ∃ i < lines.length, e.line = i + 1)
    (hf : ∀ (i : Nat) (line : Text), lines[i]? = some line →
      AllFound (es.filter (·.line = i + 1)) line) :
    ∀ r ∈ (applyAll es lines).1, r.isApplied = true := by
  induction es generalizing lines with
  | nil => simp [applyAll]
  | cons e es ih =>
    obtain ⟨⟨i, hi, he⟩, hrest⟩ := List.forall_mem_cons.1 hline
    have hown := hf i _ (List.getElem?_eq_getElem hi)
    rw [List.filter_cons_of_pos (by simpa using he)] at hown
    have happlied : (e.result lines).isApplied = true := by
      refine (isApplied_result e lines).2 ⟨lines[i], ?_, hown.1⟩
      simp [target?, he, hi]
    rw [applyAll, List.forall_mem_cons]
    refine ⟨happlied, ih (by simpa [length_apply] using hrest) fun j line hj => ?_⟩
    rw [getElem?_apply] at hj
    obtain ⟨old, hold, rfl⟩ := Option.map_eq_some_iff.1 hj
    have hfound := hf j old hold
    by_cases hej : e.line = j + 1
    · rw [List.filter_cons_of_pos (by simpa using hej)] at hfound
      rw [if_pos hej]
      exact hfound.2
    · rw [List.filter_cons_of_neg (by simpa using hej)] at hfound
      rwa [if_neg hej]

/-- In a run whose edits are all applied, each of them replaces its text in the line it is for, as the
edits before it have left that line. -/
theorem LineEdit.exists_replaced {first rest : List LineEdit} {e : LineEdit} {lines : List Text}
    (h : ∀ r ∈ (applyAll (first ++ e :: rest) lines).1, r.isApplied = true) :
    let left := (applyAll first lines).2
    ∃ x y, left[e.line - 1]? = some (x ++ e.search ++ y) ∧
      (applyAll (first ++ [e]) lines).2 = left.set (e.line - 1) (x ++ e.replacement ++ y) := by
  induction first generalizing lines with
  | nil =>
    rw [List.nil_append, applyAll_cons, List.forall_mem_cons] at h
    exact exists_apply ((isApplied_result e lines).1 h.1)
  | cons a first ih =>
    rw [List.cons_append, applyAll_cons, List.forall_mem_cons] at h
    exact ih h.2

theorem LineEdit.length_results (es : List LineEdit) (lines : List Text) :
    (applyAll es lines).1.length = es.length := by
  induction es generalizing lines with
  | nil => rfl
  | cons e es ih => rw [applyAll, List.length_cons, ih, List.length_cons]

namespace RuleSet

theorem exists_helper (h : rules.WellFormed) {source : Text} {f : Finding}
    (hf : f ∈ rules.findings source) : ∃ helper, rules.helperFor? f.method = some helper := by
  obtain ⟨i, line, -, s, hs, rfl⟩ := mem_findings.1 hf
  exact ⟨s.rule.helper, h.helperFor? (admits_of_mem_flaggedCalls h hs).rule⟩

theorem length_edits_findings (h : rules.WellFormed) (source : Text) :
    (Rewrite.edits rules (rules.findings source)).length = (rules.findings source).length := by
  rw [Rewrite.edits, List.length_filterMap_eq_countP, List.countP_eq_length]
  intro f hf
  obtain ⟨helper, hh⟩ := exists_helper h hf
  simp [hh]

/-- The edits of a line find their texts in the order in which the batch takes them. -/
theorem isApplied_findings (h : rules.WellFormed) (source : Text) :
    ∀ r ∈ (LineEdit.applyBatch (Rewrite.edits rules (rules.findings source)) source.pieces).1,
      r.isApplied = true := by
  refine LineEdit.isApplied_of_allFound (fun e he => ?_) fun i piece hp => ?_
  · have he : e ∈ Rewrite.edits rules (rules.findings source) := by
      simpa [LineEdit.batchOrder] using he
    obtain ⟨i, line, hl, s, -, rfl⟩ := (Rewrite.mem_edits_findings h).1 he
    have hi := (List.getElem?_eq_some_iff.1 hl).1
    rw [Text.lines, List.length_map] at hi
    exact ⟨i, hi, rfl⟩
  · have hl : source.lines[i]? = some piece.chomp := by
      rw [Text.lines, List.getElem?_map, hp, Option.map_some]
    rw [LineEdit.filter_batchOrder, Rewrite.edits_findings h, Nat.add_comm i 1,
      LineEdit.filter_flatMap_zipIdx fun line => rules.flaggedCalls (rules.flags line) line, hl,
      Option.map_some, Option.getD_some, Site.allFound_edit]
    have hfound : Site.FoundAnyhow (rules.flaggedCalls (rules.flags piece.chomp) piece.chomp)
        piece.chomp := foundAnyhow_flaggedCalls h piece.chomp
    have hpiece := Site.allFound_append_of_notMem h (fun s hs => admits_of_mem_flaggedCalls h hs)
      (Text.paren_notMem_ending piece) (hfound _ (List.Sublist.refl _))
    rwa [Text.chomp_append_ending] at hpiece

/-- A rewrite with the issues of a scan applies every one of its edits, one for each issue, and has
nothing to remark. Each edit replaces its text in its line. -/
theorem rewrite_applies_issues (hv : rules.isValid = true) (file source : Text) :
    let report := rules.scan file source
    let edits := Rewrite.edits rules report.issues
    edits.length = report.issuesCount ∧
      (∀ r ∈ (LineEdit.applyBatch edits source.pieces).1, r.isApplied = true) ∧
      (∀ first e rest, LineEdit.batchOrder edits = first ++ e :: rest →
        let left := (LineEdit.applyAll first source.pieces).2
        ∃ x y, left[e.line - 1]? = some (x ++ e.search ++ y) ∧
          (LineEdit.applyAll (first ++ [e]) source.pieces).2 =
            left.set (e.line - 1) (x ++ e.replacement ++ y)) ∧
      (rules.rewrite source report.issues).calls = report.issuesCount ∧
      (rules.rewrite source report.issues).warnings = [] := by
  intro report edits
  have h := isValid_iff.1 hv
  have happlied : ∀ r ∈ (LineEdit.applyAll (LineEdit.batchOrder edits) source.pieces).1,
      r.isApplied = true := isApplied_findings h source
  have hlength : edits.length = report.issuesCount := length_edits_findings h source
  refine ⟨hlength, happlied, fun first e rest horder => ?_, ?_, ?_⟩
  · exact LineEdit.exists_replaced (horder ▸ happlied)
  · have hresults : (LineEdit.applyBatch edits source.pieces).1.length = edits.length := by
      rw [LineEdit.applyBatch, LineEdit.length_results, LineEdit.batchOrder, List.length_mergeSort]
    calc (rules.rewrite source report.issues).calls
        = (LineEdit.applyBatch edits source.pieces).1.countP EditResult.isApplied := rfl
      _ = (LineEdit.applyBatch edits source.pieces).1.length := List.countP_eq_length.2 happlied
      _ = report.issuesCount := hresults.trans hlength
  · have hknown : Rewrite.unknownMethods rules report.issues = [] := by
      rw [Rewrite.unknownMethods, List.map_eq_nil_iff, List.filter_eq_nil_iff]
      intro f hf
      obtain ⟨helper, hh⟩ := exists_helper h hf
      simp [hh]
    have hlost : Rewrite.lostEdits (LineEdit.applyBatch edits source.pieces).1 = [] := by
      rw [Rewrite.lostEdits, List.filterMap_eq_nil_iff]
      intro r hr
      have := happlied r hr
      cases r <;> simp_all [EditResult.isApplied]
    exact List.append_eq_nil_iff.2 ⟨hknown, hlost⟩

/-- The first rewrite makes a call, the helper being a method, and the second one takes it in place of
its own. -/
theorem rewrite_applies_issues_remade :
    let rules : RuleSet := { standard with rules := [⟨"map".toList, "map".toList⟩] }
    let source := "x.a.map(x.map(f))".toList
    let report := rules.scan [] source
    rules.rewriteLine source = "map(x, a, x.map(f))".toList ∧ report.issuesCount = 2 ∧
      (rules.rewrite source report.issues).calls = 2 := by
  intro rules source report
  have hv : rules.isValid = true := by decide +kernel
  have hcount : report.issuesCount = 2 := by decide +kernel
  obtain ⟨-, -, -, hcalls, -⟩ := rewrite_applies_issues hv [] source
  exact ⟨by decide +kernel, hcount, hcalls.trans hcount⟩

end RuleSet
end GuardedCalls
