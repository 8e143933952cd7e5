import GuardedCalls.Proofs.Rewrite.Visible
import GuardedCalls.Proofs.Text.LineEnding

/-! The import of the helpers over a run of rewrites. An import ends with a quote and holds no
parenthesis, while a call ends with a parenthesis and holds no quote. So no edit cuts into an import, and
a run adds at most one. -/

namespace GuardedCalls

/-- What lacks the last character of a needle has no part in an occurrence of it. -/
theorem Text.infix_append_of_notMem {c : Char} {e : Text} (he : c ∉ e) (n t : Text) :
    n ++ [c] <:+: t ++ e ↔ n ++ [c] <:+: t := by
  rw [← cut?_isSome, ← cut?_isSome, cut?_append_of_notMem he, Option.isSome_map]

namespace Import
variable {t module : Text}

theorem isPresent_iff : isPresent t module = true ↔
    ∃ word ∈ ["from ".toList, "import ".toList], ∃ quote ∈ ['"', '\''],
      word ++ (quote :: module ++ [quote]) <:+: t := by
  simp only [isPresent, List.any_eq_true, Bool.or_eq_true, Text.contains_eq_true, List.mem_cons,
    List.not_mem_nil, or_false]
  constructor
  · rintro ⟨quote, hq, hfrom | himport⟩
    · exact ⟨_, .inl rfl, quote, hq, hfrom⟩
    · exact ⟨_, .inr rfl, quote, hq, himport⟩
  · rintro ⟨word, rfl | rfl, quote, hq, hi⟩
    · exact ⟨quote, hq, .inl hi⟩
    · exact ⟨quote, hq, .inr hi⟩

end Import

namespace LineEdit

/-- The text of the edit ends with a parenthesis and holds no quote. -/
structure IsUnquoted (e : LineEdit) : Prop extends IsCall e where
  quote : ∀ quote ∈ ['"', '\''], quote ∉ e.search

variable {e : LineEdit} {es : List LineEdit} {lines : List Text} {module : Text}

/-- The occurrence lies before the call, or else behind its parenthesis. -/
theorem isPresent_apply (hmodule : '(' ∉ module) (he : e.IsUnquoted)
    (h : Import.isPresent lines.flatten module = true) :
    Import.isPresent (e.apply lines).flatten module = true := by
  by_cases happlies : e.Applies lines
  · obtain ⟨x, y, hbefore, hafter⟩ := flatten_apply happlies
    obtain ⟨n, hn⟩ := he.search
    obtain ⟨word, hw, quote, hq, hi⟩ := Import.isPresent_iff.1 h
    refine Import.isPresent_iff.2 ⟨word, hw, quote, hq, ?_⟩
    have hparen : '(' ∉ word ++ (quote :: module ++ [quote]) := by
      simp only [List.mem_pair] at hw hq
      rcases hw with rfl | rfl <;> rcases hq with rfl | rfl <;> simp [hmodule]
    have hquote : quote ∉ n := fun hm => he.quote quote hq (by simp [hn, hm])
    have hcall : lines.flatten = (x ++ n) ++ '(' :: y := by simp [hbefore, hn]
    rw [hcall, Text.infix_append_cons hparen] at hi
    rw [hafter]
    rcases hi with hfront | hback
    · have hends : word ++ (quote :: module ++ [quote]) = (word ++ quote :: module) ++ [quote] := by
        simp
      rw [hends, Text.infix_append_of_notMem hquote] at hfront
      rw [hends]
      exact hfront.trans ((List.prefix_append x e.replacement).trans (List.prefix_append _ y)).isInfix
    · exact hback.trans (List.suffix_append _ _).isInfix
  · rwa [apply_of_not_applies happlies]

theorem isPresent_applyAll (hmodule : '(' ∉ module) (hes : ∀ e ∈ es, e.IsUnquoted)
    (h : Import.isPresent lines.flatten module = true) :
    Import.isPresent (applyAll es lines).2.flatten module = true := by
  induction es generalizing lines with
  | nil => exact h
  | cons e es ih =>
    obtain ⟨he, hes⟩ := List.forall_mem_cons.1 hes
    exact ih hes (isPresent_apply hmodule he h)

end LineEdit

/-- The text of a call has no quotes if both of its names are identifiers. -/
theorem Rewrite.isUnquoted_callEdit {f : Finding} (hr : Text.isIdentifier f.receiver = true)
    (hm : Text.isIdentifier f.method = true) (helper : Text) : (callEdit f helper).IsUnquoted := by
  refine ⟨isCall_callEdit f helper, fun quote hq => ?_⟩
  have hquote : Text.isIdentChar quote = false ∧ quote ≠ '.' ∧ quote ≠ '(' := by
    rcases List.mem_pair.1 hq with rfl | rfl <;> decide
  obtain ⟨hid, hpoint, hparen⟩ := hquote
  have hreceiver := Text.notMem_of_isIdentifier hr hid
  have hmethod := Text.notMem_of_isIdentifier hm hid
  simp [callEdit, hreceiver, hmethod, hpoint, hparen]

namespace RuleSet
variable {rules : RuleSet} {source : Text} {findings : List Finding} {batches : List (List Finding)}

theorem isUnquoted_of_mem_edits (h : rules.WellFormed)
    (hfs : ∀ f ∈ findings, Text.isIdentifier f.receiver = true) :
    ∀ e ∈ Rewrite.edits rules findings, e.IsUnquoted := by
  intro e he
  obtain ⟨f, hf, rule, hr, hmethod, rfl⟩ := exists_rule_of_mem_edits he
  exact Rewrite.isUnquoted_callEdit (hfs f hf) (hmethod ▸ h.method rule hr) rule.helper

theorem importAdded_of_isPresent (hp : Import.isPresent source rules.helperModule = true) :
    (rules.rewrite source findings).importAdded = false := by
  simp [importAdded_eq, hp]

/-- An import of the helpers outlives a rewrite. -/
theorem isPresent_rewrite (h : rules.WellFormed) (hmodule : '(' ∉ rules.helperModule)
    (hfs : ∀ f ∈ findings, Text.isIdentifier f.receiver = true)
    (hp : Import.isPresent source rules.helperModule = true) :
    Import.isPresent (rules.rewrite source findings).text rules.helperModule = true := by
  obtain ⟨before, after, htext, hparts⟩ := rules.text_rewrite_parts source findings
  rw [importAdded_of_isPresent hp, if_neg (by simp), List.append_nil, hparts] at htext
  rw [htext]
  apply LineEdit.isPresent_applyAll hmodule
  · intro e he
    exact isUnquoted_of_mem_edits h hfs e ((List.mergeSort_perm _ _).mem_iff.1 he)
  · rwa [Text.flatten_pieces]

/-- Rewrites one after the other, each of the text that the one before it has left. -/
def rewrites (rules : RuleSet) (source : Text) : List (List Finding) → List Rewrite
  | [] => []
  | findings :: later =>
    let r := rules.rewrite source findings
    r :: rules.rewrites r.text later

theorem rewrites_cons (rules : RuleSet) (source : Text) (findings : List Finding)
    (later : List (List Finding)) : rules.rewrites source (findings :: later) =
      rules.rewrite source findings :: rules.rewrites (rules.rewrite source findings).text later := rfl

/-- A run from a text that imports the helpers keeps the import and adds none. -/
theorem rewrites_of_isPresent (h : rules.WellFormed) (hmodule : '(' ∉ rules.helperModule)
    (hb : ∀ fs ∈ batches, ∀ f ∈ fs, Text.isIdentifier f.receiver = true)
    (hp : Import.isPresent source rules.helperModule = true) :
    ∀ r ∈ rules.rewrites source batches,
      Import.isPresent r.text rules.helperModule = true ∧ r.importAdded = false := by
  induction batches generalizing source with
  | nil => simp [rewrites]
  | cons findings later ih =>
    obtain ⟨hfs, hlater⟩ := List.forall_mem_cons.1 hb
    have hstep := isPresent_rewrite h hmodule hfs hp
    rw [rewrites_cons, List.forall_mem_cons]
    exact ⟨⟨hstep, importAdded_of_isPresent hp⟩, ih hlater hstep⟩

theorem pairwise_isPresent (h : rules.WellFormed) (hmodule : '(' ∉ rules.helperModule)
    (hb : ∀ fs ∈ batches, ∀ f ∈ fs, Text.isIdentifier f.receiver = true) :
    (source :: (rules.rewrites source batches).map Rewrite.text).Pairwise fun t u =>
      Import.isPresent t rules.helperModule = true → Import.isPresent u rules.helperModule = true := by
  induction batches generalizing source with
  | nil => simp [rewrites]
  | cons findings later ih =>
    refine List.pairwise_cons.2 ⟨fun u hu hp => ?_, ih (List.forall_mem_cons.1 hb).2⟩
    obtain ⟨r, hr, rfl⟩ := List.mem_map.1 hu
    exact (rewrites_of_isPresent h hmodule hb hp r hr).1

theorem importAdded_imp_isPresent :
    ∀ r ∈ rules.rewrites source batches, r.importAdded = true →
      Import.isPresent r.text rules.helperModule = true := by
  induction batches generalizing source with
  | nil => simp [rewrites]
  | cons findings later ih =>
    rw [rewrites_cons, List.forall_mem_cons]
    exact ⟨isPresent_of_importAdded, ih⟩

/-- The import comes with the first step that rewrites a call, unless it was there before. -/
theorem countP_importAdded (h : rules.WellFormed) (hmodule : '(' ∉ rules.helperModule)
    (source : Text) (hb : ∀ fs ∈ batches, ∀ f ∈ fs, Text.isIdentifier f.receiver = true) :
    (rules.rewrites source batches).countP Rewrite.importAdded =
      if Import.isPresent source rules.helperModule = false ∧
        ∃ r ∈ rules.rewrites source batches, 0 < r.calls then 1 else 0 := by
  induction batches generalizing source with
  | nil => simp [rewrites]
  | cons findings later ih =>
    cases hp : Import.isPresent source rules.helperModule with
    | true =>
      rw [if_neg (by simp), List.countP_eq_zero]
      intro r hr
      simp [(rewrites_of_isPresent h hmodule hb hp r hr).2]
    | false =>
      have hlater := (List.forall_mem_cons.1 hb).2
      have hadd := rules.importAdded_eq source findings
      rw [hp, Bool.not_false, Bool.and_true] at hadd
      rw [rewrites_cons, List.countP_cons, ih _ hlater, hadd]
      by_cases hcalls : 0 < (rules.rewrite source findings).calls
      · have hpresent := isPresent_of_importAdded (hadd.trans (decide_eq_true hcalls))
        rw [if_neg (by simp [hpresent]), if_pos (by simpa using hcalls),
          if_pos ⟨rfl, _, List.mem_cons_self, hcalls⟩]
      · have htext := (rewrite_of_calls_eq_zero (Nat.eq_zero_of_not_pos hcalls)).1
        simp [htext, hp, hcalls]

/-- A text that imports the helpers does so after every later step of a run. The step that adds the import
makes the text import them, so there is at most one, and there is one if the text did not import them
and some call was rewritten. -/
theorem rewrites_import_once (hv : rules.isValid = true) (hmodule : '(' ∉ rules.helperModule)
    (source : Text) (batches : List (List Finding))
    (hb : ∀ fs ∈ batches, ∀ f ∈ fs, Text.isIdentifier f.receiver = true) :
    let steps := rules.rewrites source batches
    let imports (t : Text) := Import.isPresent t rules.helperModule = true
    ((source :: steps.map Rewrite.text).Pairwise fun t u => imports t → imports u) ∧
      (∀ r ∈ steps, r.importAdded = true → imports r.text) ∧
      steps.countP Rewrite.importAdded ≤ 1 ∧
      (imports source → ∀ r ∈ steps, r.importAdded = false) ∧
      (¬ imports source → (∃ r ∈ steps, 0 < r.calls) → steps.countP Rewrite.importAdded = 1) := by
  intro steps imports
  have h := isValid_iff.1 hv
  have hcount := countP_importAdded h hmodule source hb
  refine ⟨pairwise_isPresent h hmodule hb, importAdded_imp_isPresent, ?_, ?_, ?_⟩
  · rw [hcount]
    split <;> omega
  · exact fun hp r hr => (rewrites_of_isPresent h hmodule hb hp r hr).2
  · intro hp hcalls
    rw [hcount, if_pos ⟨Bool.not_eq_true _ ▸ hp, hcalls⟩]

/-- The module is named like the front of a call, and the second step looks for that call on the line of
the import. -/
theorem rewrites_import_once_named :
    let rules : RuleSet := { standard with helperModule := "a.map".toList }
    let source := "a.map(b.map(f))".toList
    let find line (receiver : String) : Finding := ⟨line, "map".toList, receiver.toList, []⟩
    let steps := rules.rewrites source [[find 1 "a"], [find 1 "a"], [find 2 "b"]]
    let imports (t : Text) := Import.isPresent t rules.helperModule = true
    steps.map Rewrite.calls = [1, 0, 1] ∧ steps.countP Rewrite.importAdded = 1 ∧
      (source :: steps.map Rewrite.text).Pairwise fun t u => imports t → imports u := by
  intro rules source find steps imports
  have hv : rules.isValid = true := by decide +kernel
  obtain ⟨hkept, -, -, -, hadded⟩ := rewrites_import_once hv (by decide +kernel) source
    [[find 1 "a"], [find 1 "a"], [find 2 "b"]] (by decide +kernel)
  exact ⟨by decide +kernel, hadded (by decide +kernel) (by decide +kernel), hkept⟩

end RuleSet
end GuardedCalls
