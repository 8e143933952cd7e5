import GuardedCalls.Proofs.Rewrite.Findings

/-! A line inserted into a text: where it stands, and which calls the lines have after that if it has
none itself. -/

namespace GuardedCalls

/-- A piece is inserted as a whole, but after a mark that begins the text. -/
theorem Rewrite.insertPiece_cases (i : Nat) (piece : Text) (pieces : List Text) :
    insertPiece i piece pieces = pieces.take i ++ piece :: pieces.drop i ∨
      i = 0 ∧ ∃ cs rest, pieces = (byteOrderMark :: cs) :: rest ∧
        insertPiece i piece pieces = (byteOrderMark :: piece) :: cs :: rest := by
  unfold insertPiece
  split
  · rename_i c cs rest
    split
    · next hc => exact Or.inr ⟨rfl, cs, rest, by rw [hc], by rw [hc]⟩
    · exact Or.inl rfl
  · exact Or.inl rfl

/-- An inserted piece comes between two parts of the text. -/
theorem Rewrite.flatten_insertPiece (i : Nat) (piece : Text) (pieces : List Text) :
    ∃ before after, (insertPiece i piece pieces).flatten = before ++ piece ++ after ∧
      pieces.flatten = before ++ after := by
  obtain hcut | ⟨-, cs, rest, rfl, hmark⟩ := insertPiece_cases i piece pieces
  · refine ⟨(pieces.take i).flatten, (pieces.drop i).flatten, by simp [hcut], ?_⟩
    rw [← List.flatten_append, List.take_append_drop]
  · exact ⟨[byteOrderMark], cs ++ rest.flatten, by simp [hmark], by simp⟩

theorem Text.notMem_join {c : Char} {separator : Text} {names : List Text} (hsep : c ∉ separator)
    (hnames : ∀ name ∈ names, c ∉ name) : c ∉ Text.join separator names := by
  induction names with
  | nil => simp [Text.join]
  | cons name names ih =>
    have hrest := ih fun n hn => hnames n (List.mem_cons_of_mem name hn)
    have hname := hnames name List.mem_cons_self
    cases names with
    | nil => simpa [Text.join] using hname
    | cons next names =>
      rw [Text.join] at hrest ⊢
      simp [List.intercalate_cons_cons, hname, hsep, hrest]

theorem Import.notMem_statement {c : Char} (hc : c ∈ ['(', '\r', '\n']) {names : List Text}
    {module : Text} (hnames : ∀ name ∈ names, c ∉ name) (hmodule : c ∉ module) :
    c ∉ Import.statement names module := by
  have hfixed : c ∉ "import \x7b ".toList ∧ c ∉ ", ".toList ∧ c ∉ " \x7d from \"".toList ∧
      c ∉ "\";".toList := by
    simp only [List.mem_cons, List.not_mem_nil, or_false] at hc
    rcases hc with rfl | rfl | rfl <;> simp
  obtain ⟨hopen, hsep, hfrom, hend⟩ := hfixed
  have hjoin := Text.notMem_join hsep hnames
  delta Import.statement
  simp only [List.mem_append, not_or]
  exact ⟨⟨⟨⟨hopen, hjoin⟩, hfrom⟩, hmodule⟩, hend⟩

section RequiredHelpers
variable {rules : RuleSet} {findings : List Finding} {name : Text}

/-- The rules whose methods are found. -/
def RuleSet.found (rules : RuleSet) (findings : List Finding) : List Rule :=
  rules.rules.filter fun rule => findings.any (·.method = rule.method)

theorem RuleSet.mem_found {rule : Rule} :
    rule ∈ rules.found findings ↔ rule ∈ rules.rules ∧ ∃ f ∈ findings, f.method = rule.method := by
  simp [found, List.mem_filter]

theorem RuleSet.requiredHelpers_cases (rules : RuleSet) (findings : List Finding) :
    let names := (rules.found findings).map Rule.helper
    (rules.emptyHelper ∈ names ∧ rules.requiredHelpers findings = names) ∨
      (rules.emptyHelper ∉ names ∧
        rules.requiredHelpers findings = names ++ [rules.emptyHelper]) := by
  intro names
  by_cases hm : rules.emptyHelper ∈ names
  · exact .inl ⟨hm, if_pos (List.contains_iff_mem.2 hm)⟩
  · exact .inr ⟨hm, if_neg fun hc => hm (List.contains_iff_mem.1 hc)⟩

theorem RuleSet.mem_requiredHelpers_found :
    name ∈ rules.requiredHelpers findings ↔
      name = rules.emptyHelper ∨ ∃ rule ∈ rules.found findings, rule.helper = name := by
  obtain ⟨hmem, he⟩ | ⟨-, he⟩ := rules.requiredHelpers_cases findings
  · rw [he, List.mem_map, or_iff_right_of_imp]
    rintro rfl
    exact List.mem_map.1 hmem
  · rw [he, List.mem_append, List.mem_map, List.mem_singleton, or_comm]

theorem RuleSet.mem_requiredHelpers (h : name ∈ rules.requiredHelpers findings) :
    name ∈ rules.helpers ∨ name = rules.emptyHelper := by
  rcases mem_requiredHelpers_found.1 h with hempty | ⟨rule, hr, rfl⟩
  · exact .inr hempty
  · exact .inl (List.mem_map_of_mem (mem_found.1 hr).1)

end RequiredHelpers

/-- The line that a rewrite with the findings of a scan inserts if it adds the import. -/
def RuleSet.importLine (rules : RuleSet) (source : Text) : Text :=
  Import.statement (rules.requiredHelpers (rules.findings source)) rules.helperModule ++
    Rewrite.lineEnding source

/-- The text of a rewrite is that of the edited pieces, and the import between two of its parts. -/
theorem RuleSet.text_rewrite_parts (rules : RuleSet) (source : Text) (findings : List Finding) :
    ∃ before after, (rules.rewrite source findings).text =
        before ++ (if (rules.rewrite source findings).importAdded then
          Import.statement (rules.requiredHelpers findings) rules.helperModule ++
            Rewrite.lineEnding source else []) ++ after ∧
      before ++ after =
        (LineEdit.applyBatch (Rewrite.edits rules findings) source.pieces).2.flatten := by
  cases hadd : (rules.rewrite source findings).importAdded with
  | false =>
    refine ⟨(rules.rewrite source findings).text, [], by simp, ?_⟩
    simp only [rewrite] at hadd ⊢
    rw [hadd, if_neg (by simp), List.append_nil]
  | true =>
    simp only [rewrite] at hadd ⊢
    rw [hadd, if_pos rfl]
    obtain ⟨before, after, hins, hparts⟩ := Rewrite.flatten_insertPiece
      ((Import.first? source.pieces).getD 0)
      (Import.statement (rules.requiredHelpers findings) rules.helperModule ++
        Rewrite.lineEnding source)
      (LineEdit.applyBatch (Rewrite.edits rules findings) source.pieces).2
    exact ⟨before, after, hins, hparts.symm⟩

/-- The calls on a line of a text, lines being counted from zero; none if there is no such line. -/
def RuleSet.sitesAt (rules : RuleSet) (t : Text) (i : Nat) : List Site :=
  (t.lines[i]?.map rules.sites).getD []

namespace RuleSet
variable {rules : RuleSet}

theorem sites_chomp (h : rules.WellFormed) (piece : Text) :
    rules.sites piece.chomp = rules.sites piece := by
  have hsplit := sites_append_of_notMem h piece.chomp (Text.paren_notMem_ending piece)
  rwa [Text.chomp_append_ending, eq_comm] at hsplit

theorem sites_eq_flatMap_pieces (h : rules.WellFormed) (t : Text) :
    rules.sites t = t.pieces.flatMap rules.sites := by
  induction t using Text.closing_induction '\n' with
  | last x hx =>
    rw [Text.pieces_of_notMem hx]
    split
    · next hnil => rw [hnil, sites_of_notMem rules List.not_mem_nil]; rfl
    · simp
  | stretch x t hx ih =>
    have hend := sites_append_closing h x [] (c := '\n') (by decide) (by decide) (by decide)
    rw [sites_of_notMem rules List.not_mem_nil, List.append_nil] at hend
    rw [Text.pieces_append t hx, List.flatMap_cons, ← ih, hend,
      sites_append_closing h x t (by decide) (by decide) (by decide)]

theorem sites_eq_flatMap_lines (h : rules.WellFormed) (t : Text) :
    rules.sites t = t.lines.flatMap rules.sites := by
  rw [sites_eq_flatMap_pieces h, Text.lines, List.flatMap_map]
  congr 1
  funext piece
  exact (sites_chomp h piece).symm

theorem sitesAt_eq (h : rules.WellFormed) (t : Text) (i : Nat) :
    rules.sitesAt t i = (t.pieces[i]?.map rules.sites).getD [] := by
  rw [sitesAt, Text.lines, List.getElem?_map, Option.map_map]
  congr 2
  funext piece
  exact sites_chomp h piece

/-- A mark at the start of a text belongs to no call. -/
theorem sitesAt_mark (h : rules.WellFormed) (t : Text) (i : Nat) :
    rules.sitesAt (byteOrderMark :: t) i = rules.sitesAt t i := by
  have hmark : byteOrderMark ≠ '\n' := by decide
  rw [sitesAt_eq h, sitesAt_eq h, Text.pieces, if_neg hmark]
  cases ht : t.pieces with
  | nil =>
    have hnone : rules.sites [byteOrderMark] = [] := sites_of_notMem rules (by decide)
    cases i <;> simp [hnone]
  | cons p ps =>
    have hp : rules.sites (byteOrderMark :: p) = rules.sites p :=
      sites_append_cons h p List.not_mem_nil (by decide) (by decide) (by decide)
    cases i <;> simp [hp]

/-- The inserted piece has no calls, and those after it move on by one line. -/
theorem sitesAt_insertPiece (h : rules.WellFormed) {t x : Text} {i : Nat} (hi : i < t.pieces.length)
    (hx : '\n' ∉ x) (hp : '(' ∉ x) (j : Nat) :
    rules.sitesAt (Rewrite.insertPiece i (x ++ ['\n']) t.pieces).flatten j =
      if j < i then rules.sitesAt t j else if j = i then [] else rules.sitesAt t (j - 1) := by
  have hnone (p : Text) (hpp : '(' ∉ p) : rules.sites (p ++ ['\n']) = [] :=
    sites_of_notMem rules (by simp [hpp])
  have hcut : rules.sitesAt (t.pieces.take i ++ (x ++ ['\n']) :: t.pieces.drop i).flatten j =
      if j < i then rules.sitesAt t j else if j = i then [] else rules.sitesAt t (j - 1) := by
    have hlen : (t.pieces.take i).length = i := by
      rw [List.length_take]
      omega
    rw [sitesAt_eq h, Text.pieces_insert hi hx, List.getElem?_append, hlen]
    split
    · rename_i hj
      rw [List.getElem?_take, if_pos hj, sitesAt_eq h]
    · rename_i hj
      split
      · rename_i he
        simp [he, hnone x hp]
      · rename_i he
        have hsucc : j - i = (j - i - 1) + 1 := by omega
        have hback : i + (j - i - 1) = j - 1 := by omega
        rw [hsucc, List.getElem?_cons_succ, List.getElem?_drop, hback, sitesAt_eq h]
  obtain hwhole | ⟨rfl, cs, rest, hps, hmark⟩ :=
    Rewrite.insertPiece_cases i (x ++ ['\n']) t.pieces
  · rw [hwhole]
    exact hcut
  · have ht : t = byteOrderMark :: (cs ++ rest.flatten) := by
      rw [← Text.flatten_pieces t, hps]
      simp
    have hx' : '\n' ∉ byteOrderMark :: x := by simp [hx, byteOrderMark]
    have hflat : ((byteOrderMark :: (x ++ ['\n'])) :: cs :: rest).flatten =
        byteOrderMark :: x ++ '\n' :: (cs ++ rest.flatten) := by simp
    rw [hmark, hflat, sitesAt_eq h, Text.pieces_append _ hx', ht]
    cases j with
    | zero => simpa using hnone (byteOrderMark :: x) (by simp [hp, byteOrderMark])
    | succ j =>
      rw [List.getElem?_cons_succ, ← sitesAt_eq h]
      simp [sitesAt_mark h]

/-- An inserted piece without a parenthesis adds no call and parts none. -/
theorem sites_insertPiece (h : rules.WellFormed) {t x : Text} {i : Nat} (hi : i < t.pieces.length)
    (hx : '(' ∉ x) :
    rules.sites (Rewrite.insertPiece i (x ++ ['\n']) t.pieces).flatten = rules.sites t := by
  have hfront (p u : Text) (hp : '(' ∉ p) : rules.sites (p ++ '\n' :: u) = rules.sites u :=
    sites_append_cons h u hp (by decide) (by decide) (by decide)
  have hcut : rules.sites (t.pieces.take i ++ (x ++ ['\n']) :: t.pieces.drop i).flatten =
      rules.sites t := by
    have hrest (u : Text) : rules.sites ((t.pieces.take i).flatten ++ u) =
        (t.pieces.take i).flatMap rules.sites ++ rules.sites u := by
      rw [sites_eq_flatMap_pieces h, Text.pieces_take_append u hi, List.flatMap_append,
        ← sites_eq_flatMap_pieces h]
    rw [List.flatten_append, List.flatten_cons, List.append_assoc, List.singleton_append, hrest,
      hfront x _ hx, ← hrest, ← List.flatten_append, List.take_append_drop, Text.flatten_pieces]
  obtain hwhole | ⟨rfl, cs, rest, hps, hmark⟩ :=
    Rewrite.insertPiece_cases i (x ++ ['\n']) t.pieces
  · rw [hwhole]
    exact hcut
  · have ht : t = byteOrderMark :: (cs ++ rest.flatten) := by
      rw [← Text.flatten_pieces t, hps]
      simp
    have hflat : ((byteOrderMark :: (x ++ ['\n'])) :: cs :: rest).flatten =
        (byteOrderMark :: x) ++ '\n' :: (cs ++ rest.flatten) := by simp
    rw [hmark, hflat, hfront _ _ (by simp [hx, byteOrderMark]), ht]
    exact (sites_append_cons h _ List.not_mem_nil (by decide) (by decide) (by decide)).symm

end RuleSet
end GuardedCalls
