import GuardedCalls.Proofs.Rewrite.Inserted
import GuardedCalls.Proofs.Text.LineEnding
import Mathlib.Data.List.TakeWhile

/-! Scans and rewrites of a text with two-character line endings. A finding may name a call that no
scan finds, but the parenthesis keeps its text within the line, so that every edit leaves the ending
alone. -/

namespace GuardedCalls
open Text (IsPiece Unbroken crlf)

namespace LineEdit

/-- The text of the edit ends with a parenthesis, and no line ending comes from the replacement alone. -/
structure KeepsEnding (e : LineEdit) : Prop where
  closes : ∃ n, e.search = n ++ ['(']
  unbroken : Unbroken e.search → Unbroken e.replacement

variable {e : LineEdit} {es : List LineEdit} {pieces : List Text}

theorem unbroken_replaceFirst? (he : e.KeepsEnding) {x y : Text} (hx : Unbroken x)
    (hy : Text.replaceFirst? e.search e.replacement x = some y) : Unbroken y := by
  obtain ⟨⟨before, after⟩, hcut, rfl⟩ := Option.map_eq_some_iff.1 hy
  obtain rfl := Text.cut?_eq_some hcut
  have hbefore : Unbroken before := hx.of_infix ⟨[], e.search ++ after, by simp⟩
  have hsearch : Unbroken e.search := hx.of_infix ⟨before, after, rfl⟩
  have hafter : Unbroken after := hx.of_infix ⟨before ++ e.search, [], by simp⟩
  exact (hbefore.append (he.unbroken hsearch)).append hafter

theorem replaceFirst?_append (he : e.KeepsEnding) (x : Text) {s : Text} (hs : '(' ∉ s) :
    Text.replaceFirst? e.search e.replacement (x ++ s) =
      (Text.replaceFirst? e.search e.replacement x).map (· ++ s) := by
  obtain ⟨n, hn⟩ := he.closes
  rw [hn, Text.replaceFirst?_append_of_notMem hs]

theorem replaceFirst?_crlf (he : e.KeepsEnding) {p : Text} (hp : IsPiece p) :
    Text.replaceFirst? e.search e.replacement (crlf p) =
      (Text.replaceFirst? e.search e.replacement p).map crlf := by
  obtain ⟨x, s, hx, hs, rfl⟩ := hp
  have hparen : '(' ∉ s ∧ '(' ∉ crlf s := by
    rcases hs with rfl | rfl <;> simp
  rw [Text.crlf_append, Text.crlf_of_notMem hx.newline, replaceFirst?_append he x hparen.1,
    replaceFirst?_append he x hparen.2]
  cases hy : Text.replaceFirst? e.search e.replacement x with
  | none => rfl
  | some y => simp [Text.crlf_of_notMem (unbroken_replaceFirst? he hx hy).newline]

theorem isPiece_replaceFirst? (he : e.KeepsEnding) {p q : Text} (hp : IsPiece p)
    (hq : Text.replaceFirst? e.search e.replacement p = some q) : IsPiece q := by
  obtain ⟨x, s, hx, hs, rfl⟩ := hp
  have hparen : '(' ∉ s := by
    rcases hs with rfl | rfl <;> simp
  rw [replaceFirst?_append he x hparen] at hq
  obtain ⟨y, hy, rfl⟩ := Option.map_eq_some_iff.1 hq
  exact ⟨y, s, unbroken_replaceFirst? he hx hy, hs, rfl⟩

theorem target?_map (e : LineEdit) (f : Text → Text) (pieces : List Text) :
    e.target? (pieces.map f) = (e.target? pieces).map f := by
  rw [target?, target?, List.getElem?_map]
  split <;> rfl

theorem mem_of_target? {p : Text} (h : e.target? pieces = some p) : p ∈ pieces := by
  rw [target?] at h
  split at h
  · contradiction
  · exact List.mem_of_getElem? h

/-- An edit and the line endings may come in either order. -/
theorem apply_crlf (he : e.KeepsEnding) (hp : ∀ p ∈ pieces, IsPiece p) :
    e.apply (pieces.map crlf) = (e.apply pieces).map crlf := by
  rw [apply, apply, target?_map]
  cases ht : e.target? pieces with
  | none => rfl
  | some p =>
    simp only [Option.map_some, Option.bind_some, replaceFirst?_crlf he (hp p (mem_of_target? ht))]
    cases Text.replaceFirst? e.search e.replacement p with
    | none => rfl
    | some q => exact List.map_set.symm

theorem result_crlf (he : e.KeepsEnding) (hp : ∀ p ∈ pieces, IsPiece p) :
    e.result (pieces.map crlf) = e.result pieces := by
  rw [result, result, target?_map, List.length_map]
  cases ht : e.target? pieces with
  | none => rfl
  | some p =>
    simp only [Option.map_some, replaceFirst?_crlf he (hp p (mem_of_target? ht)), Option.isSome_map]

theorem isPiece_apply (he : e.KeepsEnding) (hp : ∀ p ∈ pieces, IsPiece p) :
    ∀ p ∈ e.apply pieces, IsPiece p := by
  rw [apply]
  split
  · exact hp
  · rename_i q hq
    obtain ⟨p, ht, hr⟩ := Option.bind_eq_some_iff.1 hq
    intro a ha
    cases List.mem_or_eq_of_mem_set ha with
    | inl ha => exact hp a ha
    | inr ha => exact ha ▸ isPiece_replaceFirst? he (hp p (mem_of_target? ht)) hr

theorem applyAll_crlf (he : ∀ e ∈ es, e.KeepsEnding) (hp : ∀ p ∈ pieces, IsPiece p) :
    applyAll es (pieces.map crlf) = ((applyAll es pieces).1, (applyAll es pieces).2.map crlf) := by
  induction es generalizing pieces with
  | nil => rfl
  | cons e es ih =>
    obtain ⟨hfirst, hrest⟩ := List.forall_mem_cons.1 he
    rw [applyAll, applyAll, apply_crlf hfirst hp, result_crlf hfirst hp,
      ih hrest (isPiece_apply hfirst hp)]

theorem applyBatch_crlf (he : ∀ e ∈ es, e.KeepsEnding) (hp : ∀ p ∈ pieces, IsPiece p) :
    applyBatch es (pieces.map crlf) =
      ((applyBatch es pieces).1, (applyBatch es pieces).2.map crlf) :=
  applyAll_crlf (fun e h => he e ((List.mergeSort_perm es _).mem_iff.1 h)) hp

end LineEdit

namespace Import

/-- Before a line ending, which is blank, a statement may end with its word. -/
theorem isStatementLine_append {e : Text} (he : e ≠ []) (hblank : ∀ c ∈ e, Text.isBlank c = true)
    (x : Text) : isStatementLine (x ++ e) =
      (Text.stripPrefix? "import".toList
        (((Text.stripPrefix? [byteOrderMark] x).getD x).dropWhile Text.isBlank)).any
          fun rest => rest.isEmpty || rest.head?.any isBreak := by
  have hnot (c : Char) (hc : Text.isBlank c = false) : c ∉ e := by
    intro hm
    simp [hblank c hm] at hc
  have hmark : (Text.stripPrefix? [byteOrderMark] (x ++ e)).getD (x ++ e) =
      (Text.stripPrefix? [byteOrderMark] x).getD x ++ e := by
    have hfront := Text.stripPrefix?_append_of_notMem (hnot byteOrderMark (by decide)) [] x
    rw [List.nil_append] at hfront
    rw [hfront]
    cases Text.stripPrefix? [byteOrderMark] x <;> rfl
  have hword (y : Text) : Text.stripPrefix? "import".toList (y ++ e) =
      (Text.stripPrefix? "import".toList y).map (· ++ e) :=
    Text.stripPrefix?_append_of_notMem (hnot 't' (by decide)) "impor".toList y
  have hdrop : e.dropWhile Text.isBlank = [] := List.dropWhile_eq_nil_iff.2 hblank
  rw [isStatementLine, hmark]
  generalize (Text.stripPrefix? [byteOrderMark] x).getD x = y
  simp only [List.dropWhile_append, hdrop]
  cases hy : y.dropWhile Text.isBlank with
  | nil => rfl
  | cons c y =>
    rw [if_neg (by simp)]
    rw [hword]
    cases Text.stripPrefix? "import".toList (c :: y) with
    | none => rfl
    | some rest =>
      cases rest with
      | nil =>
        obtain ⟨a, e, rfl⟩ := List.exists_cons_of_ne_nil he
        simp [isBreak, hblank a List.mem_cons_self]
      | cons a rest => simp

theorem isStatementLine_crlf {p : Text} (hp : IsPiece p) :
    isStatementLine (crlf p) = isStatementLine p := by
  obtain ⟨x, e, hx, he, rfl⟩ := hp
  have hshort : ∀ c ∈ ['\n'], Text.isBlank c = true := by simp [Text.isBlank]
  have hlong : ∀ c ∈ ['\r', '\n'], Text.isBlank c = true := by simp [Text.isBlank]
  rw [Text.crlf_append, Text.crlf_of_notMem hx.newline]
  cases he with
  | inl he => rw [he, Text.crlf_nil]
  | inr he =>
    rw [he, Text.crlf_newline, isStatementLine_append (by simp) hlong,
      isStatementLine_append (by simp) hshort]

theorem first?_crlf {pieces : List Text} (hp : ∀ p ∈ pieces, IsPiece p) :
    first? (pieces.map crlf) = first? pieces := by
  induction pieces with
  | nil => rfl
  | cons p pieces ih =>
    obtain ⟨hfirst, hrest⟩ := List.forall_mem_cons.1 hp
    have hfound := ih hrest
    rw [first?, first?] at hfound ⊢
    rw [List.map_cons, List.findIdx?_cons, List.findIdx?_cons, isStatementLine_crlf hfirst, hfound]

theorem isPresent_crlf {module : Text} (h : Unbroken module) (source : Text) :
    isPresent (crlf source) module = isPresent source module := by
  have hquoted (word : Text) (quote : Char) (hword : Unbroken word) (hquote : Unbroken [quote]) :
      Text.contains (word ++ (quote :: module ++ [quote])) (crlf source) =
        Text.contains (word ++ (quote :: module ++ [quote])) source :=
    Text.contains_crlf (hword.append ((hquote.append h).append hquote)) source
  have hfrom : Unbroken "from ".toList ∧ Unbroken "import ".toList := by decide
  rw [isPresent, isPresent]
  simp only [List.any_cons, List.any_nil, hquoted _ '"' hfrom.1 (by decide),
    hquoted _ '"' hfrom.2 (by decide), hquoted _ '\'' hfrom.1 (by decide),
    hquoted _ '\'' hfrom.2 (by decide)]

end Import

namespace Rewrite

theorem insertPiece_crlf (i : Nat) (piece : Text) (pieces : List Text) :
    insertPiece i (crlf piece) (pieces.map crlf) = (insertPiece i piece pieces).map crlf := by
  have hmark : byteOrderMark ≠ '\n' := by decide
  have hcut : (pieces.map crlf).take i ++ crlf piece :: (pieces.map crlf).drop i =
      (pieces.take i ++ piece :: pieces.drop i).map crlf := by
    rw [List.map_append, List.map_cons, List.map_take, List.map_drop]
  cases i with
  | succ i => exact hcut
  | zero =>
    cases pieces with
    | nil => exact hcut
    | cons p rest =>
      cases p with
      | nil => exact hcut
      | cons c cs =>
        by_cases hc : c = byteOrderMark
        · rw [hc, List.map_cons, Text.crlf_cons hmark]
          simp [insertPiece, Text.crlf_cons hmark]
        · have hfirst : ∃ d ds, crlf (c :: cs) = d :: ds ∧ d ≠ byteOrderMark := by
            by_cases hn : c = '\n'
            · exact ⟨'\r', '\n' :: crlf cs, by rw [hn]; rfl, by decide⟩
            · exact ⟨c, crlf cs, Text.crlf_cons hn cs, hc⟩
          obtain ⟨d, ds, hd, hne⟩ := hfirst
          rw [List.map_cons, hd]
          simp [insertPiece, hc, hne, hd]

/-- The first newline of a text is the one that counts. -/
theorem lineEnding_append {x : Text} (hx : '\n' ∉ x) (t : Text) :
    lineEnding (x ++ '\n' :: t) = if x.getLast? = some '\r' then ['\r', '\n'] else ['\n'] := by
  rw [lineEnding, Text.cut?_singleton hx]

theorem lineEnding_of_notMem {source : Text} (h : '\r' ∉ source) : lineEnding source = ['\n'] := by
  rw [lineEnding]
  split
  · rename_i line rest hcut
    have hlast : line.getLast? ≠ some '\r' := by
      intro hl
      apply h
      rw [Text.cut?_eq_some hcut]
      simp [List.mem_of_getLast? hl]
    rw [if_neg hlast]
  · rfl

theorem lineEnding_crlf {source : Text} (h : '\n' ∈ source) :
    lineEnding (crlf source) = ['\r', '\n'] := by
  obtain ⟨x, t, rfl, hx⟩ := List.eq_append_cons_of_mem h
  have hreturn : '\n' ∉ x ++ ['\r'] := by simp [hx]
  rw [Text.crlf_stretch hx, lineEnding_append hreturn]
  simp

end Rewrite

namespace RuleSet
variable {rules : RuleSet} {source : Text}

theorem isProtected_crlf (h : ∀ helper ∈ rules.helpers, Unbroken helper) (source : Text) :
    rules.isProtected (crlf source) = rules.isProtected source := by
  rw [isProtected, isProtected, Bool.eq_iff_iff, List.any_eq_true, List.any_eq_true]
  refine exists_congr fun helper => and_congr_right fun hm => ?_
  rw [Text.contains_crlf (h helper hm)]

theorem findings_crlf (rules : RuleSet) (h : '\r' ∉ source) :
    rules.findings (crlf source) = rules.findings source := by
  rw [findings, findings, Text.lines_crlf h]

/-- The text of a call is replaced by characters that stood there and by those of a helper. -/
theorem keepsEnding_edits (h : ∀ helper ∈ rules.helpers, Unbroken helper) (findings : List Finding) :
    ∀ e ∈ Rewrite.edits rules findings, e.KeepsEnding := by
  intro e he
  obtain ⟨f, -, hf⟩ := List.mem_filterMap.1 he
  obtain ⟨helper, hh, rfl⟩ := Option.map_eq_some_iff.1 hf
  obtain ⟨rule, hr, rfl⟩ := Option.map_eq_some_iff.1 hh
  have hhelper := h rule.helper (List.mem_map_of_mem (List.mem_of_find?_eq_some hr))
  refine ⟨⟨f.receiver ++ '.' :: f.method, by simp [Rewrite.callEdit]⟩, fun hsearch => ?_⟩
  have hreceiver : Unbroken f.receiver :=
    hsearch.of_infix ⟨[], '.' :: f.method ++ ['('], by simp [Rewrite.callEdit]⟩
  have hopen : Unbroken ['('] := by decide
  have hcomma : Unbroken ", ".toList := by decide
  simpa [Rewrite.callEdit] using hhelper.append (hopen.append (hreceiver.append hcomma))

theorem unbroken_statement (hhelpers : ∀ helper ∈ rules.helpers, Unbroken helper)
    (hmodule : Unbroken rules.helperModule) (hempty : Unbroken rules.emptyHelper)
    (findings : List Finding) :
    Unbroken (Import.statement (rules.requiredHelpers findings) rules.helperModule) := by
  have hnames : ∀ name ∈ rules.requiredHelpers findings, Unbroken name := by
    intro name hn
    cases mem_requiredHelpers hn with
    | inl hn => exact hhelpers name hn
    | inr hn => exact hn ▸ hempty
  constructor
  · exact Import.notMem_statement (by simp) (fun name hn => (hnames name hn).carriage)
      hmodule.carriage
  · exact Import.notMem_statement (by simp) (fun name hn => (hnames name hn).newline)
      hmodule.newline

/-- The line endings of a text show in the text of a rewrite only. -/
theorem rewrite_crlf (hhelpers : ∀ helper ∈ rules.helpers, Unbroken helper)
    (hmodule : Unbroken rules.helperModule) (hempty : Unbroken rules.emptyHelper)
    (hreturn : '\r' ∉ source) (hnewline : '\n' ∈ source) (findings : List Finding) :
    rules.rewrite (crlf source) findings =
      { rules.rewrite source findings with text := crlf (rules.rewrite source findings).text } := by
  have hpieces := Text.isPiece_of_mem_pieces hreturn
  have hbatch := LineEdit.applyBatch_crlf (keepsEnding_edits hhelpers findings) hpieces
  have hline : Import.statement (rules.requiredHelpers findings) rules.helperModule ++
      Rewrite.lineEnding (crlf source) =
        crlf (Import.statement (rules.requiredHelpers findings) rules.helperModule ++
          Rewrite.lineEnding source) := by
    have hstatement := unbroken_statement hhelpers hmodule hempty findings
    rw [Rewrite.lineEnding_crlf hnewline, Rewrite.lineEnding_of_notMem hreturn, Text.crlf_append,
      Text.crlf_of_notMem hstatement.newline, Text.crlf_newline]
  simp only [rewrite, Text.pieces_crlf, hbatch, Import.isPresent_crlf hmodule,
    Import.first?_crlf hpieces, hline, Rewrite.insertPiece_crlf,
    Text.crlf_flatten, apply_ite (List.map crlf)]

/-- A text without carriage returns has the findings of its copy with two-character line endings, and
the copy counts as protected when the text does. The rewrite of the copy is the copy of the rewrite,
also for findings that no scan has made. -/
theorem scan_rewrite_crlf (rules : RuleSet) {source : Text} (hreturn : '\r' ∉ source) :
    rules.findings (crlf source) = rules.findings source ∧
    ((∀ helper ∈ rules.helpers, Unbroken helper) →
      (∀ file, rules.scan file (crlf source) =
        { rules.scan file source with contentHash := some (crlf source).fingerprint }) ∧
      ('\n' ∈ source → Unbroken rules.helperModule → Unbroken rules.emptyHelper →
        ∀ findings, rules.rewrite (crlf source) findings =
          { rules.rewrite source findings with
            text := crlf (rules.rewrite source findings).text })) := by
  refine ⟨findings_crlf rules hreturn, fun hhelpers => ⟨fun file => ?_, ?_⟩⟩
  · rw [scan, scan, isProtected_crlf hhelpers, findings_crlf rules hreturn]
  · intro hnewline hmodule hempty findings
    exact rewrite_crlf hhelpers hmodule hempty hreturn hnewline findings

/-- No scan finds a member as a receiver; the import of its helper goes behind the mark of the text. -/
theorem scan_rewrite_crlf_member :
    let source := "\ufeffx.a.map(f)\nb".toList
    let findings : List Finding := [⟨1, "map".toList, "x.a".toList, []⟩]
    standard.findings (crlf source) = standard.findings source ∧
      standard.isProtected (crlf source) = false ∧
      (standard.rewrite (crlf source) findings).text =
        crlf (standard.rewrite source findings).text ∧
      (standard.rewrite source findings).text = byteOrderMark ::
        "import \x7b safeMap, isEmpty \x7d from \"@/lib/arrayHelpers\";\nsafeMap(x.a, f)\nb".toList := by
  intro source findings
  have hreturn : '\r' ∉ source := by decide
  obtain ⟨hfindings, hrest⟩ := scan_rewrite_crlf standard hreturn
  obtain ⟨-, hrewrite⟩ := hrest (by decide +kernel)
  have hrewrite := hrewrite (by decide) (by decide +kernel) (by decide +kernel) findings
  exact ⟨hfindings, by decide +kernel, congrArg Rewrite.text hrewrite, by decide +kernel⟩

end RuleSet
end GuardedCalls
