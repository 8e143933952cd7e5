import GuardedCalls.Proofs.Rewrite.Inserted

/-! The names of the import. They are the helpers of the methods found and the emptiness helper. The latter
is named once, but a helper is named for every method found that it serves. -/

namespace GuardedCalls

namespace Text

/-- An identifier between blanks is what trimming leaves. -/
theorem trim_blanks {b n e : Text} (hb : ∀ c ∈ b, isBlank c = true) (hn : isIdentifier n = true)
    (he : ∀ c ∈ e, isBlank c = true) : trim (b ++ n ++ e) = n := by
  have hkeep {n : Text} (hn : ∀ c ∈ n, isIdentChar c = true) (t : Text) :
      n ≠ [] → (n ++ t).dropWhile isBlank = n ++ t := by
    intro hne
    obtain ⟨c, cs, rfl⟩ := List.exists_cons_of_ne_nil hne
    have hc : isBlank c = false := by
      by_contra hblank
      have hid := isIdentChar_of_isBlank (Bool.not_eq_false _ ▸ hblank)
      simp [hn c List.mem_cons_self] at hid
    simp [hc]
  have hchars (c : Char) (hc : c ∈ n) : isIdentChar c = true := isIdentChar_of_mem hn hc
  have hne := ne_nil_of_isIdentifier hn
  have hfront : (b ++ n ++ e).dropWhile isBlank = n ++ e := by
    rw [List.append_assoc, List.dropWhile_append_of_pos hb, hkeep hchars e hne]
  have hback : (n ++ e).reverse.dropWhile isBlank = n.reverse := by
    have hblanks : ∀ c ∈ e.reverse, isBlank c = true := fun c hc => he c (List.mem_reverse.1 hc)
    have hrest := hkeep (n := n.reverse) (fun c hc => hchars c (List.mem_reverse.1 hc)) [] (by simpa)
    rw [List.append_nil] at hrest
    rw [List.reverse_append, List.dropWhile_append_of_pos hblanks, hrest]
  rw [trim, hfront, hback, List.reverse_reverse]

end Text

namespace Import

/-- The names that an import binds: they stand between its braces, with commas between them. -/
def bound (statement : Text) : List Text :=
  match Text.cut? ['{'] statement with
  | none => []
  | some (_, rest) =>
    match Text.cut? ['}'] rest with
    | none => []
    | some (names, _) => (names.splitOn ',').map Text.trim

variable {names : List Text}

theorem map_trim_splitOn (h : ∀ name ∈ names, Text.isIdentifier name = true) (hne : names ≠ []) :
    ((' ' :: Text.join ", ".toList names ++ [' ']).splitOn ',').map Text.trim = names := by
  have hcomma {name : Text} (hn : Text.isIdentifier name = true) : ',' ∉ ' ' :: name := by
    simp [Text.notMem_of_isIdentifier hn (c := ',') (by decide)]
  have hblank : ∀ c ∈ [' '], Text.isBlank c = true := List.forall_mem_singleton.2 (by decide)
  induction names with
  | nil => exact absurd rfl hne
  | cons name names ih =>
    obtain ⟨hname, hnames⟩ := List.forall_mem_cons.1 h
    cases names with
    | nil =>
      have hsingle : ',' ∉ ' ' :: name ++ [' '] := by simpa using hcomma hname
      have htrim := Text.trim_blanks hblank hname hblank
      simp only [Text.join, List.intercalate_singleton]
      rw [List.splitOn_eq_singleton hsingle, List.map_singleton]
      exact congrArg (fun n => [n]) htrim
    | cons next names =>
      have htrim := Text.trim_blanks (e := []) hblank hname (by simp)
      have hcut : ' ' :: Text.join ", ".toList (name :: next :: names) ++ [' '] =
          (' ' :: name) ++ ',' :: (' ' :: Text.join ", ".toList (next :: names) ++ [' ']) := by
        simp [Text.join, List.intercalate_cons_cons]
      rw [hcut, List.splitOn_append_cons_self_of_not_mem (hcomma hname), List.map_cons,
        ih hnames (by simp)]
      exact congrArg (· :: next :: names) (by simpa using htrim)

/-- An import binds the names it is made with, each as often as it is given. -/
theorem bound_statement (h : ∀ name ∈ names, Text.isIdentifier name = true) (hne : names ≠ [])
    (module : Text) : bound (statement names module) = names := by
  have hopen : '{' ∉ "import ".toList := by decide
  have hclose : '}' ∉ ' ' :: Text.join ", ".toList names ++ [' '] := by
    have hjoin : '}' ∉ Text.join ", ".toList names :=
      Text.notMem_join (by decide) fun name hn => Text.notMem_of_isIdentifier (h name hn) (by decide)
    simp only [List.cons_append, List.mem_cons, List.mem_append, List.not_mem_nil, or_false, not_or]
    exact ⟨by decide, hjoin, by decide⟩
  have hstart : "import \x7b ".toList = "import ".toList ++ ['{', ' '] := by decide
  have hend : " \x7d from \"".toList = [' ', '}'] ++ " from \"".toList := by decide
  have hstatement : statement names module = "import ".toList ++ '{' ::
      ((' ' :: Text.join ", ".toList names ++ [' ']) ++ '}' ::
        (" from \"".toList ++ module ++ "\";".toList)) := by
    delta statement
    rw [hstart, hend]
    simp only [List.append_assoc, List.cons_append, List.nil_append]
  rw [bound, hstatement, Text.cut?_singleton hopen]
  simp only [Text.cut?_singleton hclose]
  exact map_trim_splitOn h hne

end Import

namespace RuleSet
variable {rules : RuleSet} {findings : List Finding}

/-- The emptiness helper is never named twice. -/
theorem nodup_requiredHelpers :
    (rules.requiredHelpers findings).Nodup ↔ ((rules.found findings).map Rule.helper).Nodup := by
  obtain ⟨-, he⟩ | ⟨hnot, he⟩ := rules.requiredHelpers_cases findings
  · rw [he]
  · rw [he, List.nodup_append_comm, List.singleton_append, List.nodup_cons, and_iff_right hnot]

/-- No two of the methods found have the same helper. -/
def HelpersApart (rules : RuleSet) (findings : List Finding) : Prop :=
  ∀ f ∈ findings, ∀ g ∈ findings, rules.helperFor? f.method ≠ none →
    rules.helperFor? f.method = rules.helperFor? g.method → f.method = g.method

instance (rules : RuleSet) (findings : List Finding) : Decidable (rules.HelpersApart findings) :=
  inferInstanceAs (Decidable (∀ f ∈ findings, ∀ g ∈ findings, rules.helperFor? f.method ≠ none →
    rules.helperFor? f.method = rules.helperFor? g.method → f.method = g.method))

theorem nodup_map_helper_found (h : rules.WellFormed) :
    ((rules.found findings).map Rule.helper).Nodup ↔ rules.HelpersApart findings := by
  have hfound : (rules.found findings).Nodup := (List.Nodup.of_map _ h.nodup).filter _
  rw [List.nodup_map_iff_inj_on hfound]
  constructor
  · intro hinj f hf g hg hknown hsame
    obtain ⟨helper, hhelper⟩ := Option.ne_none_iff_exists'.1 hknown
    obtain ⟨a, ha, hfa, rfl⟩ := h.helperFor?_eq_some.1 hhelper
    obtain ⟨b, hb, hgb, hab⟩ := h.helperFor?_eq_some.1 (hsame.symm.trans hhelper)
    have heq := hinj a (mem_found.2 ⟨ha, f, hf, hfa.symm⟩) b (mem_found.2 ⟨hb, g, hg, hgb.symm⟩)
      hab.symm
    rw [← hfa, ← hgb, heq]
  · intro hapart a ha b hb hab
    obtain ⟨har, f, hf, hfa⟩ := mem_found.1 ha
    obtain ⟨hbr, g, hg, hgb⟩ := mem_found.1 hb
    have hfhelper : rules.helperFor? f.method = some a.helper := hfa ▸ h.helperFor? har
    have hghelper : rules.helperFor? g.method = some b.helper := hgb ▸ h.helperFor? hbr
    have hmethods := hapart f hf g hg (by simp [hfhelper]) (by rw [hfhelper, hghelper, hab])
    exact h.rule_eq har hbr (by rw [← hfa, ← hgb, hmethods])

/-- The names of the import are the helpers of the methods found and the emptiness helper. None stands
twice exactly if no two of these methods have the same helper; the import binds them as they are,
unless the emptiness helper is no identifier. -/
theorem requiredHelpers_nodup_iff (hv : rules.isValid = true) (findings : List Finding) :
    let names := rules.requiredHelpers findings
    (∀ name, name ∈ names ↔
      name = rules.emptyHelper ∨ ∃ f ∈ findings, rules.helperFor? f.method = some name) ∧
      (names.Nodup ↔ rules.HelpersApart findings) ∧
      (Text.isIdentifier rules.emptyHelper = true →
        Import.bound (Import.statement names rules.helperModule) = names) := by
  intro names
  have h := isValid_iff.1 hv
  have hmem (name : Text) : name ∈ names ↔
      name = rules.emptyHelper ∨ ∃ f ∈ findings, rules.helperFor? f.method = some name := by
    simp only [names, mem_requiredHelpers_found, mem_found, h.helperFor?_eq_some]
    constructor
    · rintro (rfl | ⟨rule, ⟨hr, f, hf, hm⟩, rfl⟩)
      · exact .inl rfl
      · exact .inr ⟨f, hf, rule, hr, hm.symm, rfl⟩
    · rintro (rfl | ⟨f, hf, rule, hr, hm, rfl⟩)
      · exact .inl rfl
      · exact .inr ⟨rule, ⟨hr, f, hf, hm.symm⟩, rfl⟩
  refine ⟨hmem, nodup_requiredHelpers.trans (nodup_map_helper_found h), fun hempty => ?_⟩
  have hnames : ∀ name ∈ names, Text.isIdentifier name = true := by
    intro name hn
    rcases (hmem name).1 hn with rfl | ⟨f, -, hf⟩
    · exact hempty
    · obtain ⟨rule, hr, -, rfl⟩ := h.helperFor?_eq_some.1 hf
      exact h.helper rule hr
  exact Import.bound_statement hnames (List.ne_nil_of_mem ((hmem _).2 (.inl rfl))) _

/-- The rule whose helper is shared is not found, and the emptiness helper is that of a method found. -/
theorem requiredHelpers_nodup_shared :
    let table : List Rule := [("map", "safeEach"), ("filter", "isEmpty"), ("forEach", "safeEach")].map
      fun (method, helper) => ⟨method.toList, helper.toList⟩
    let rules : RuleSet := { standard with rules := table }
    let findings : List Finding := ["filter", "map", "flatMap", "map"].map
      fun method => ⟨1, method.toList, "x".toList, []⟩
    let names := rules.requiredHelpers findings
    names = ["safeEach".toList, "isEmpty".toList] ∧ names.Nodup ∧
      Import.bound (Import.statement names rules.helperModule) = names := by
  intro table rules findings names
  have hv : rules.isValid = true := by decide +kernel
  obtain ⟨-, hnodup, hbound⟩ := requiredHelpers_nodup_iff hv findings
  exact ⟨by decide +kernel, hnodup.2 (by decide +kernel), hbound (by decide +kernel)⟩

/-- A helper of two methods found is imported twice. -/
theorem requiredHelpers_repeated :
    let table : List Rule := [("map", "safeEach"), ("forEach", "safeEach")].map
      fun (method, helper) => ⟨method.toList, helper.toList⟩
    let rules : RuleSet := { standard with rules := table }
    let findings : List Finding := ["map", "forEach"].map
      fun method => ⟨1, method.toList, "x".toList, []⟩
    let names := rules.requiredHelpers findings
    rules.isValid = true ∧ names = ["safeEach".toList, "safeEach".toList, "isEmpty".toList] ∧
      ¬ names.Nodup ∧ Import.bound (Import.statement names rules.helperModule) = names := by
  decide +kernel

end RuleSet
end GuardedCalls
