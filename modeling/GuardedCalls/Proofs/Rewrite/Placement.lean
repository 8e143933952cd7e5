import GuardedCalls.Proofs.Rewrite.LineEnding
import GuardedCalls.Proofs.Rewrite.Pieces

/-! Where the import of the helpers goes. Its place is taken from the text as it was; it is the place in
the rewritten text too, since an edit puts a name for a name and so leaves alone what makes a line the
start of an import statement, and the byte order mark. -/

namespace GuardedCalls

namespace Text

/-- The first newline of the text comes right after a carriage return. -/
def ReturnsFirst (t : Text) : Prop :=
  ∃ x rest, '\n' ∉ x ∧ t = x ++ '\r' :: '\n' :: rest

theorem prefix_append_of_notMem {c : Char} {e : Text} (he : c ∉ e) (n t : Text) :
    n ++ [c] <+: t ++ e ↔ n ++ [c] <+: t := by
  rw [← stripPrefix?_isSome, ← stripPrefix?_isSome, stripPrefix?_append_of_notMem he,
    Option.isSome_map]

theorem pieces_cons (c : Char) (t : Text) : ∃ p ps, pieces (c :: t) = (c :: p) :: ps := by
  rw [pieces]
  split
  · exact ⟨[], pieces t, rfl⟩
  · split
    · exact ⟨[], [], rfl⟩
    · exact ⟨_, _, rfl⟩

/-- A text starts with the character with which its first piece starts. -/
theorem head?_pieces (t : Text) : t.pieces[0]?.bind List.head? = t.head? := by
  cases t with
  | nil => rfl
  | cons c t =>
    obtain ⟨p, ps, hp⟩ := pieces_cons c t
    simp [hp]

end Text

/-- A start of a line with no character of a call. It ends with one that is in no name. -/
structure IsFront (n : Text) : Prop where
  last : ∃ m c, n = m ++ [c] ∧ Text.isIdentChar c = false
  dot : '.' ∉ n
  paren : '(' ∉ n

/-- Whether a line starts so does not depend on a name in it and the character behind the name. -/
theorem IsFront.prefix_name {n u : Text} {d : Char} (hn : IsFront n)
    (hu : Text.isIdentifier u = true) (hd : d ∉ n) (b z : Text) :
    n <+: b ++ (u ++ d :: z) ↔ n <+: b := by
  obtain ⟨m, c, rfl, hc⟩ := hn.last
  rw [← List.append_assoc, Text.prefix_append_cons hd,
    Text.prefix_append_of_notMem (Text.notMem_of_isIdentifier hu hc)]

/-- The texts of the edit are a name and a dot, and a name and a parenthesis, and more. -/
structure LineEdit.IsNamed (e : LineEdit) : Prop where
  search : ∃ u z, Text.isIdentifier u = true ∧ e.search = u ++ '.' :: z
  replacement : ∃ u z, Text.isIdentifier u = true ∧ e.replacement = u ++ '(' :: z

namespace LineEdit
variable {e : LineEdit} {es : List LineEdit}

theorem front_onLine (he : e.IsNamed) {n : Text} (hn : IsFront n) (x : Text) :
    n <+: e.onLine x ↔ n <+: x := by
  rw [onLine]
  cases hy : Text.replaceFirst? e.search e.replacement x with
  | none => rfl
  | some y =>
    obtain ⟨⟨before, after⟩, hcut, rfl⟩ := Option.map_eq_some_iff.1 hy
    obtain ⟨u, z, hu, hsearch⟩ := he.search
    obtain ⟨v, w, hv, hreplacement⟩ := he.replacement
    rw [Text.cut?_eq_some hcut, hsearch, hreplacement]
    simp only [Option.getD_some, List.append_assoc, List.cons_append]
    rw [hn.prefix_name hu hn.dot, hn.prefix_name hv hn.paren]

theorem front_allOnLine (hes : ∀ e ∈ es, e.IsNamed) {n : Text} (hn : IsFront n) (x : Text) :
    n <+: allOnLine es x ↔ n <+: x := by
  induction es generalizing x with
  | nil => rfl
  | cons e es ih =>
    obtain ⟨he, hrest⟩ := List.forall_mem_cons.1 hes
    exact (ih hrest (e.onLine x)).trans (front_onLine he hn x)

end LineEdit

namespace Import

theorem isBreak_cases {c : Char} (h : isBreak c = true) :
    Text.isIdentChar c = false ∧ c ≠ '.' ∧ c ≠ '(' := by
  rw [isBreak, Bool.or_eq_true] at h
  cases h with
  | inl h => exact ⟨Text.isIdentChar_of_isBlank h, by rintro rfl; simp [Text.isBlank] at h,
      by rintro rfl; simp [Text.isBlank] at h⟩
  | inr h =>
    simp only [List.contains_eq_mem, List.mem_cons, List.not_mem_nil, or_false,
      decide_eq_true_eq] at h
    rcases h with rfl | rfl | rfl | rfl <;> decide

/-- What an import statement starts with: a mark perhaps, blanks, the word and what ends it. -/
def Opens (n : Text) : Prop :=
  ∃ mark blanks c, (mark = [] ∨ mark = [byteOrderMark]) ∧ (∀ a ∈ blanks, Text.isBlank a = true) ∧
    isBreak c = true ∧ n = mark ++ blanks ++ "import".toList ++ [c]

theorem Opens.isFront {n : Text} (h : Opens n) : IsFront n := by
  obtain ⟨mark, blanks, c, hmark, hblanks, hc, rfl⟩ := h
  obtain ⟨hid, hdot, hparen⟩ := isBreak_cases hc
  have hnot (d : Char) (hd : d ∈ ['.', '(']) (hdc : c ≠ d) :
      d ∉ mark ++ blanks ++ "import".toList ++ [c] := by
    have hm : d ∉ mark := by
      rcases hmark with rfl | rfl <;> rcases List.mem_pair.1 hd with rfl | rfl <;> decide
    have hb : d ∉ blanks := by
      intro hd'
      have := hblanks d hd'
      rcases List.mem_pair.1 hd with rfl | rfl <;> simp [Text.isBlank] at this
    have hw : d ∉ "import".toList := by
      rcases List.mem_pair.1 hd with rfl | rfl <;> decide
    simp only [List.mem_append, List.mem_singleton, not_or]
    exact ⟨⟨⟨hm, hb⟩, hw⟩, fun h => hdc h.symm⟩
  exact ⟨⟨_, c, rfl, hid⟩, hnot '.' (by simp) hdot, hnot '(' (by simp) hparen⟩

/-- The line after a mark, if it has one. -/
theorem mark_cases (line : Text) :
    ∃ mark, (mark = [] ∨ mark = [byteOrderMark]) ∧
      line = mark ++ (Text.stripPrefix? [byteOrderMark] line).getD line := by
  cases h : Text.stripPrefix? [byteOrderMark] line with
  | none => exact ⟨[], Or.inl rfl, rfl⟩
  | some rest => exact ⟨[byteOrderMark], Or.inr rfl, Text.stripPrefix?_eq_some.1 h⟩

theorem stripMark_append {mark blanks : Text} (hmark : mark = [] ∨ mark = [byteOrderMark])
    (hblanks : ∀ a ∈ blanks, Text.isBlank a = true) (rest : Text) :
    let line := mark ++ (blanks ++ ("import".toList ++ rest))
    (Text.stripPrefix? [byteOrderMark] line).getD line = blanks ++ ("import".toList ++ rest) := by
  intro line
  cases hmark with
  | inr hmark =>
    have hstrip : Text.stripPrefix? [byteOrderMark] line =
        some (blanks ++ ("import".toList ++ rest)) := by
      rw [Text.stripPrefix?_eq_some, ← hmark]
    rw [hstrip, Option.getD_some]
  | inl hmark =>
    have hstrip : Text.stripPrefix? [byteOrderMark] line = none := by
      rw [Text.stripPrefix?_eq_none]
      rintro ⟨r, hr⟩
      cases blanks with
      | nil => simp [line, hmark, byteOrderMark] at hr
      | cons a blanks =>
        have ha : byteOrderMark = a := by simpa [line, hmark] using congrArg List.head? hr
        have := hblanks a List.mem_cons_self
        rw [← ha] at this
        revert this
        decide
    rw [hstrip, Option.getD_none]
    simp only [line, hmark, List.nil_append]

theorem isStatementLine_iff {line : Text} :
    isStatementLine line = true ↔ ∃ n, Opens n ∧ n <+: line := by
  constructor
  · intro h
    obtain ⟨mark, hmark, hline⟩ := mark_cases line
    rw [isStatementLine] at h
    generalize (Text.stripPrefix? [byteOrderMark] line).getD line = rest at h hline
    cases hword : Text.stripPrefix? "import".toList (rest.dropWhile Text.isBlank) with
    | none =>
      rw [hword] at h
      contradiction
    | some tail =>
      rw [hword] at h
      cases tail with
      | nil => contradiction
      | cons c tail =>
        have hc : isBreak c = true := h
        have hrest : ∃ blanks, (∀ a ∈ blanks, Text.isBlank a = true) ∧
            rest = blanks ++ ("import".toList ++ c :: tail) := by
          refine ⟨rest.takeWhile Text.isBlank, fun a ha => List.mem_takeWhile_imp ha, ?_⟩
          rw [← Text.stripPrefix?_eq_some.1 hword, List.takeWhile_append_dropWhile]
        obtain ⟨blanks, hblanks, rfl⟩ := hrest
        exact ⟨_, ⟨mark, blanks, c, hmark, hblanks, hc, rfl⟩, tail, by simp [hline]⟩
  · rintro ⟨n, ⟨mark, blanks, c, hmark, hblanks, hc, rfl⟩, tail, rfl⟩
    have hline : mark ++ blanks ++ "import".toList ++ [c] ++ tail =
        mark ++ (blanks ++ ("import".toList ++ c :: tail)) := by simp
    have hdrop : (blanks ++ ("import".toList ++ c :: tail)).dropWhile Text.isBlank =
        "import".toList ++ c :: tail := by
      rw [List.dropWhile_append_of_pos hblanks]
      rfl
    rw [hline, isStatementLine, stripMark_append hmark hblanks, hdrop, Text.stripPrefix?_append]
    simpa using hc

/-- Edits of calls make no line an import statement, and none that is one something else. -/
theorem isStatementLine_allOnLine {es : List LineEdit} (hes : ∀ e ∈ es, e.IsNamed) (line : Text) :
    isStatementLine (LineEdit.allOnLine es line) = isStatementLine line := by
  rw [Bool.eq_iff_iff, isStatementLine_iff, isStatementLine_iff]
  exact exists_congr fun n => and_congr_right fun hn =>
    LineEdit.front_allOnLine hes hn.isFront line

theorem isStatementLine_statement {mark : Text} (hmark : mark = [] ∨ mark = [byteOrderMark])
    (names : List Text) (module rest : Text) :
    isStatementLine (mark ++ statement names module ++ rest) = true := by
  rw [isStatementLine_iff]
  refine ⟨_, ⟨mark, [], ' ', hmark, by simp, by decide, rfl⟩, ?_⟩
  delta statement
  exact ⟨"\x7b ".toList ++ Text.join ", ".toList names ++ " \x7d from \"".toList ++ module ++
    "\";".toList ++ rest, by simp⟩

end Import

theorem LineEdit.head_allOnLine {es : List LineEdit} (hes : ∀ e ∈ es, e.IsNamed) (line : Text) :
    (allOnLine es line).head? = some byteOrderMark ↔ line.head? = some byteOrderMark := by
  have hmark : IsFront [byteOrderMark] := ⟨⟨[], byteOrderMark, rfl, by decide⟩, by decide, by decide⟩
  have hstarts (t : Text) : t.head? = some byteOrderMark ↔ [byteOrderMark] <+: t := by
    cases t <;> simp [eq_comm]
  rw [hstarts, hstarts, front_allOnLine hes hmark]

namespace Rewrite

theorem lineEnding_of_returnsFirst {source : Text} (h : source.ReturnsFirst) :
    lineEnding source = ['\r', '\n'] := by
  obtain ⟨x, rest, hx, rfl⟩ := h
  have hsplit : x ++ '\r' :: '\n' :: rest = (x ++ ['\r']) ++ '\n' :: rest := by simp
  rw [hsplit, lineEnding_append (by simp [hx])]
  simp

theorem lineEnding_of_not_returnsFirst {source : Text} (h : ¬ source.ReturnsFirst) :
    lineEnding source = ['\n'] := by
  by_cases hn : '\n' ∈ source
  · obtain ⟨x, t, rfl, hx⟩ := List.eq_append_cons_of_mem hn
    rw [lineEnding_append hx, if_neg]
    intro hlast
    obtain ⟨y, rfl⟩ := List.getLast?_eq_some_iff.1 hlast
    exact h ⟨y, t, fun hy => hx (List.mem_append_left _ hy), by simp⟩
  · have hcut : Text.cut? ([] ++ ['\n']) source = none := Text.cut?_eq_none_of_notMem hn
    rw [List.nil_append] at hcut
    rw [lineEnding, hcut]

theorem insertPiece_mark (piece cs : Text) (rest : List Text) :
    insertPiece 0 piece ((byteOrderMark :: cs) :: rest) = (byteOrderMark :: piece) :: cs :: rest := by
  simp [insertPiece]

theorem insertPiece_of_not {i : Nat} {t : Text} (h : ¬ (i = 0 ∧ t.head? = some byteOrderMark))
    (piece : Text) :
    insertPiece i piece t.pieces = t.pieces.take i ++ piece :: t.pieces.drop i := by
  obtain hwhole | ⟨hi, cs, rest, hpieces, -⟩ := insertPiece_cases i piece t.pieces
  · exact hwhole
  · have hhead : t.head? = some byteOrderMark := by
      rw [← Text.head?_pieces, hpieces]
      rfl
    exact absurd ⟨hi, hhead⟩ h

/-- The piece at the place of an insertion, with the mark if the text begins with one. -/
theorem getElem?_insertPiece {t x : Text} {i : Nat} (hi : i < t.pieces.length) (hx : '\n' ∉ x) :
    (Text.pieces (insertPiece i (x ++ ['\n']) t.pieces).flatten)[i]? =
      some ((if i = 0 ∧ t.head? = some byteOrderMark then [byteOrderMark] else []) ++ x ++
        ['\n']) := by
  by_cases h : i = 0 ∧ t.head? = some byteOrderMark
  · obtain ⟨rfl, hhead⟩ := h
    obtain ⟨u, rfl⟩ := List.head?_eq_some_iff.1 hhead
    obtain ⟨p, ps, hp⟩ := Text.pieces_cons byteOrderMark u
    have hflat : ((byteOrderMark :: (x ++ ['\n'])) :: p :: ps).flatten =
        (byteOrderMark :: x) ++ '\n' :: (p ++ ps.flatten) := by simp
    have hx' : '\n' ∉ byteOrderMark :: x := by simp [hx, byteOrderMark]
    rw [hp, insertPiece_mark, hflat, Text.pieces_append _ hx']
    simp
  · have hlen : (t.pieces.take i).length = i := by
      rw [List.length_take]
      omega
    rw [insertPiece_of_not h, Text.pieces_insert hi hx, List.getElem?_append_right (by omega), hlen,
      if_neg h]
    simp

/-- The pieces before an insertion stay. -/
theorem getElem?_insertPiece_lt {t x : Text} {i j : Nat} (hi : i < t.pieces.length)
    (hx : '\n' ∉ x) (hj : j < i) :
    (Text.pieces (insertPiece i (x ++ ['\n']) t.pieces).flatten)[j]? = t.pieces[j]? := by
  have hlen : j < (t.pieces.take i).length := by
    rw [List.length_take]
    omega
  rw [insertPiece_of_not (by omega), Text.pieces_insert hi hx, List.getElem?_append_left hlen,
    List.getElem?_take, if_pos hj]

end Rewrite

namespace LineEdit
variable {es : List LineEdit}

theorem isStatementLine_applyBatch (hes : ∀ e ∈ es, e.IsNamed) (lines : List Text) (i : Nat) :
    (applyBatch es lines).2[i]?.map Import.isStatementLine =
      lines[i]?.map Import.isStatementLine := by
  have hline : ∀ e ∈ es.filter (·.line = i + 1), e.IsNamed := fun e he =>
    hes e (List.mem_filter.1 he).1
  rw [getElem?_applyBatch, Option.map_map]
  congr 1
  funext line
  exact Import.isStatementLine_allOnLine hline line

theorem head_applyBatch (hkeep : ∀ e ∈ es, e.KeepsLine) (hes : ∀ e ∈ es, e.IsNamed) (t : Text) :
    (applyBatch es t.pieces).2.flatten.head? = some byteOrderMark ↔
      t.head? = some byteOrderMark := by
  have hline : ∀ e ∈ es.filter (·.line = 0 + 1), e.IsNamed := fun e he =>
    hes e (List.mem_filter.1 he).1
  rw [← Text.head?_pieces, ← Text.head?_pieces t, pieces_applyBatch hkeep, getElem?_applyBatch]
  cases t.pieces[0]? with
  | none => rfl
  | some line => exact head_allOnLine hline line

end LineEdit

/-- The place of the first import statement, in terms of what the lines are. -/
theorem Import.first?_eq_some_iff {lines : List Text} {i : Nat} :
    first? lines = some i ↔ lines[i]?.map isStatementLine = some true ∧
      ∀ j < i, lines[j]?.map isStatementLine = some false := by
  rw [first?, List.findIdx?_eq_some_iff_getElem]
  constructor
  · rintro ⟨hi, hfound, hbefore⟩
    refine ⟨by simp [hi, hfound], fun j hj => ?_⟩
    have hlt : j < lines.length := by omega
    simp [hlt, hbefore j hj]
  · rintro ⟨hfound, hbefore⟩
    obtain ⟨line, hline, htrue⟩ := Option.map_eq_some_iff.1 hfound
    obtain ⟨hi, rfl⟩ := List.getElem?_eq_some_iff.1 hline
    refine ⟨hi, htrue, fun j hj => ?_⟩
    have hfalse := hbefore j hj
    rw [List.getElem?_eq_getElem (by omega), Option.map_some, Option.some.injEq] at hfalse
    simp [hfalse]

/-- No line before the place of an import starts an import statement. -/
theorem Import.before_first? {lines : List Text} {j : Nat} (hj : j < (first? lines).getD 0) :
    lines[j]?.map isStatementLine = some false := by
  cases hfirst : first? lines with
  | none => simp [hfirst] at hj
  | some i =>
    rw [hfirst, Option.getD_some] at hj
    exact (first?_eq_some_iff.1 hfirst).2 j hj

namespace RuleSet
variable {rules : RuleSet} {source : Text} {findings : List Finding}

theorem isNamed_of_mem_edits (h : rules.WellFormed)
    (hf : ∀ f ∈ findings, Text.isIdentifier f.receiver = true) :
    ∀ e ∈ Rewrite.edits rules findings, e.IsNamed := by
  intro e he
  obtain ⟨f, hmem, rule, hr, -, rfl⟩ := exists_rule_of_mem_edits he
  exact ⟨⟨f.receiver, f.method ++ ['('], hf f hmem, by simp [Rewrite.callEdit]⟩,
    ⟨rule.helper, f.receiver ++ ", ".toList, h.helper rule hr, by simp [Rewrite.callEdit]⟩⟩

/-- The pieces of a rewrite that adds the import, up to the piece of that. -/
theorem pieces_of_importAdded (h : rules.WellFormed) (hmodule : '\n' ∉ rules.helperModule)
    (hempty : '\n' ∉ rules.emptyHelper)
    (hf : ∀ f ∈ findings, Text.isIdentifier f.receiver = true)
    (hadd : (rules.rewrite source findings).importAdded = true) :
    let pieces := (rules.rewrite source findings).text.pieces
    let place := (Import.first? source.pieces).getD 0
    pieces[place]? = some ((if place = 0 ∧ source.head? = some byteOrderMark then [byteOrderMark]
        else []) ++ Import.statement (rules.requiredHelpers findings) rules.helperModule ++
          Rewrite.lineEnding source) ∧
      ∀ j < place, pieces[j]? =
        (LineEdit.applyBatch (Rewrite.edits rules findings) source.pieces).2[j]? := by
  intro pieces place
  let edited := (LineEdit.applyBatch (Rewrite.edits rules findings) source.pieces).2
  have hkeep : ∀ e ∈ Rewrite.edits rules findings, e.KeepsLine := keepsLine_of_mem_edits h
  have hedited : Text.pieces edited.flatten = edited := LineEdit.pieces_applyBatch hkeep source
  have hmark : edited.flatten.head? = some byteOrderMark ↔ source.head? = some byteOrderMark :=
    LineEdit.head_applyBatch hkeep (isNamed_of_mem_edits h hf) source
  have hplace : place < (Text.pieces edited.flatten).length := by
    rw [hedited, LineEdit.length_applyBatch]
    exact Import.first?_lt (pieces_ne_nil_of_importAdded hadd)
  obtain ⟨x, hline, hx⟩ := Rewrite.append_lineEnding
    (Import.statement (rules.requiredHelpers findings) rules.helperModule) source
  have hnewline : '\n' ∉ x :=
    hx '\n' (by decide) (notMem_statement h (by simp) hmodule hempty findings)
  have hpieces : pieces =
      Text.pieces (Rewrite.insertPiece place (x ++ ['\n']) (Text.pieces edited.flatten)).flatten := by
    rw [hedited, ← hline]
    simp only [pieces, rewrite] at hadd ⊢
    rw [if_pos hadd]
  rw [hpieces]
  constructor
  · rw [Rewrite.getElem?_insertPiece hplace hnewline, List.append_assoc _ _ (Rewrite.lineEnding _),
      hline, List.append_assoc]
    simp only [hmark]
  · intro j hj
    rw [Rewrite.getElem?_insertPiece_lt hplace hnewline hj, hedited]

/-- A rewrite neither takes a mark away nor makes one. -/
theorem head_rewrite (h : rules.WellFormed) (hmodule : '\n' ∉ rules.helperModule)
    (hempty : '\n' ∉ rules.emptyHelper) (source : Text)
    (hf : ∀ f ∈ findings, Text.isIdentifier f.receiver = true) :
    (rules.rewrite source findings).text.head? = some byteOrderMark ↔
      source.head? = some byteOrderMark := by
  let edited := (LineEdit.applyBatch (Rewrite.edits rules findings) source.pieces).2
  have hkeep : ∀ e ∈ Rewrite.edits rules findings, e.KeepsLine := keepsLine_of_mem_edits h
  have hhead : edited.flatten.head? = some byteOrderMark ↔ source.head? = some byteOrderMark :=
    LineEdit.head_applyBatch hkeep (isNamed_of_mem_edits h hf) source
  cases hadd : (rules.rewrite source findings).importAdded with
  | false =>
    have htext : (rules.rewrite source findings).text = edited.flatten := by
      simp only [rewrite] at hadd ⊢
      rw [hadd, if_neg (by simp)]
    rw [htext, hhead]
  | true =>
    obtain ⟨hpiece, hbefore⟩ := pieces_of_importAdded h hmodule hempty hf hadd
    rw [← Text.head?_pieces]
    cases hplace : (Import.first? source.pieces).getD 0 with
    | succ n =>
      have hedited : Text.pieces edited.flatten = edited := LineEdit.pieces_applyBatch hkeep source
      rw [hbefore 0 (by omega), ← hhead, ← Text.head?_pieces edited.flatten, hedited]
    | zero =>
      rw [hplace] at hpiece
      rw [hpiece]
      by_cases hmark : source.head? = some byteOrderMark
      · simp [hmark]
      · have hword : byteOrderMark ≠ 'i' := by decide
        delta Import.statement
        simp [hmark, hword.symm]

/-- The import of the helpers becomes the first import statement of the text, in a piece of its own at
the place where the first one was, or else at the start. Only a mark that begins the text stays before
it, and a text begins with a mark exactly if it did so before. -/
theorem rewrite_import_place (hv : rules.isValid = true) (hmodule : '\n' ∉ rules.helperModule)
    (hempty : '\n' ∉ rules.emptyHelper) (source : Text)
    (hf : ∀ f ∈ findings, Text.isIdentifier f.receiver = true) :
    let r := rules.rewrite source findings
    let place := (Import.first? source.pieces).getD 0
    let mark := if place = 0 ∧ source.head? = some byteOrderMark then [byteOrderMark] else []
    let statement := Import.statement (rules.requiredHelpers findings) rules.helperModule
    (r.importAdded = true → Import.first? r.text.pieces = some place ∧
        ∃ eol, r.text.pieces[place]? = some (mark ++ statement ++ eol) ∧
          (source.ReturnsFirst → eol = ['\r', '\n']) ∧ (¬ source.ReturnsFirst → eol = ['\n'])) ∧
      (r.text.head? = some byteOrderMark ↔ source.head? = some byteOrderMark) := by
  intro r place mark statement
  have h := isValid_iff.1 hv
  refine ⟨fun hadd => ?_, head_rewrite h hmodule hempty source hf⟩
  obtain ⟨hpiece, hbefore⟩ := pieces_of_importAdded h hmodule hempty hf hadd
  have hmark : mark = [] ∨ mark = [byteOrderMark] := by
    simp only [mark]
    split <;> simp
  have hfirst : Import.first? r.text.pieces = some place := by
    refine Import.first?_eq_some_iff.2 ⟨?_, fun j hj => ?_⟩
    · rw [hpiece, Option.map_some, Import.isStatementLine_statement hmark]
    · rw [hbefore j hj, LineEdit.isStatementLine_applyBatch (isNamed_of_mem_edits h hf),
        Import.before_first? hj]
  exact ⟨hfirst, Rewrite.lineEnding source, hpiece, Rewrite.lineEnding_of_returnsFirst,
    Rewrite.lineEnding_of_not_returnsFirst⟩

/-- The mark stays before the import, which takes the place of the one that the text has. -/
theorem rewrite_import_place_mark :
    let source : Text := "\ufeffimport a from 'a';\r\na.map(f)".toList
    let findings : List Finding := [⟨2, "map".toList, "a".toList, []⟩]
    let r := standard.rewrite source findings
    source.ReturnsFirst ∧ r.importAdded = true ∧ Import.first? r.text.pieces = some 0 ∧
      r.text.pieces[0]? = some (byteOrderMark ::
        "import \x7b safeMap, isEmpty \x7d from \"@/lib/arrayHelpers\";\r\n".toList) ∧
      r.text.head? = some byteOrderMark := by
  intro source findings r
  have hv : standard.isValid = true := by decide +kernel
  have hf : ∀ f ∈ findings, Text.isIdentifier f.receiver = true := by decide
  have hreturn : source.ReturnsFirst :=
    ⟨"\ufeffimport a from 'a';".toList, "a.map(f)".toList, by decide, by decide⟩
  have hadd : r.importAdded = true := by decide +kernel
  obtain ⟨hplace, hhead⟩ :=
    rewrite_import_place hv (by decide +kernel) (by decide +kernel) source hf
  obtain ⟨hfirst, eol, hpiece, heol, -⟩ := hplace hadd
  refine ⟨hreturn, hadd, hfirst.trans (by decide +kernel), ?_, hhead.2 (by decide)⟩
  rw [heol hreturn] at hpiece
  exact hpiece.trans (by decide +kernel)

end RuleSet
end GuardedCalls
