import GuardedCalls.Proofs.Rewrite.Visible
import GuardedCalls.Proofs.Text.LineEnding

/-! Rewrites piece by piece. A search ends at a parenthesis, which no line ending holds, so an edit stays
within its line whatever the finding holds, and the inserted import is all that comes between the
pieces. -/

namespace GuardedCalls

namespace LineEdit

/-- An edit of a call whose replacement has a newline only if its search has one. -/
structure KeepsLine (e : LineEdit) : Prop extends IsCall e where
  newline : '\n' ∉ e.search → '\n' ∉ e.replacement

variable {e : LineEdit} {es : List LineEdit} {lines : List Text}

theorem staysLine_onLine (he : e.KeepsLine) (x : Text) : Text.StaysLine x (e.onLine x) := by
  rw [onLine]
  cases hy : Text.replaceFirst? e.search e.replacement x with
  | none => exact Text.StaysLine.refl x
  | some y =>
    obtain ⟨⟨before, after⟩, hcut, rfl⟩ := Option.map_eq_some_iff.1 hy
    obtain rfl := Text.cut?_eq_some hcut
    obtain ⟨n, hn⟩ := he.replacement
    simp only [Option.getD_some]
    constructor
    · intro hx
      simp only [List.mem_append, not_or] at hx ⊢
      exact ⟨⟨hx.1.1, he.newline hx.1.2⟩, hx.2⟩
    · intro hlast
      cases after with
      | nil => simp [hn] at hlast
      | cons c after => simpa using hlast
    · simp [hn]

theorem onLine_append (he : e.IsCall) (x : Text) {s : Text} (hs : '(' ∉ s) :
    e.onLine (x ++ s) = e.onLine x ++ s := by
  obtain ⟨n, hn⟩ := he.search
  rw [onLine, onLine, hn, Text.replaceFirst?_append_of_notMem hs]
  cases Text.replaceFirst? (n ++ ['(']) e.replacement x <;> rfl

theorem allOnLine_append (hes : ∀ e ∈ es, e.IsCall) (x : Text) {s : Text} (hs : '(' ∉ s) :
    allOnLine es (x ++ s) = allOnLine es x ++ s := by
  induction es generalizing x with
  | nil => rfl
  | cons e es ih =>
    obtain ⟨he, hrest⟩ := List.forall_mem_cons.1 hes
    have htail := ih hrest (e.onLine x)
    rwa [← onLine_append he x hs] at htail

theorem staysLine_allOnLine (hes : ∀ e ∈ es, e.KeepsLine) (x : Text) :
    Text.StaysLine x (allOnLine es x) := by
  induction es generalizing x with
  | nil => exact Text.StaysLine.refl x
  | cons e es ih =>
    obtain ⟨he, hrest⟩ := List.forall_mem_cons.1 hes
    exact (staysLine_onLine he x).trans (ih hrest (e.onLine x))

theorem staysPiece_allOnLine (hes : ∀ e ∈ es, e.KeepsLine) (p : Text) :
    Text.StaysPiece p (allOnLine es p) := by
  refine ⟨allOnLine es p.chomp, staysLine_allOnLine hes p.chomp, ?_⟩
  rw [← allOnLine_append (fun e he => (hes e he).toIsCall) _ (Text.paren_notMem_ending p),
    Text.chomp_append_ending]

theorem staysPiece_of_getElem? (hes : ∀ e ∈ es, e.KeepsLine) {i : Nat} {p q : Text}
    (hp : lines[i]? = some p) (hq : (applyBatch es lines).2[i]? = some q) : Text.StaysPiece p q := by
  rw [getElem?_applyBatch, hp, Option.map_some, Option.some.injEq] at hq
  rw [← hq]
  exact staysPiece_allOnLine (fun e he => hes e (List.mem_filter.1 he).1) p

theorem staysPiece_applyBatch (hes : ∀ e ∈ es, e.KeepsLine) (lines : List Text) :
    List.Forall₂ Text.StaysPiece lines (applyBatch es lines).2 :=
  List.forall₂_iff_get.2 ⟨(length_applyBatch es lines).symm, fun _ hi hi' =>
    staysPiece_of_getElem? hes (List.getElem?_eq_getElem hi) (List.getElem?_eq_getElem hi')⟩

/-- Edits of calls neither part nor join lines. -/
theorem pieces_applyBatch (hes : ∀ e ∈ es, e.KeepsLine) (t : Text) :
    Text.pieces (applyBatch es t.pieces).2.flatten = (applyBatch es t.pieces).2 :=
  Text.pieces_flatten (staysPiece_applyBatch hes t.pieces)

theorem eq_applied_of_applies (h : e.Applies lines) : e.result lines = .applied e.line := by
  obtain ⟨line, ht, hi⟩ := h
  simp [result, ht, Text.replaceFirst?_isSome.2 hi]

/-- A line on which no edit applies stays. -/
theorem getElem?_applyAll_of_notMem {i : Nat}
    (h : EditResult.applied (i + 1) ∉ (applyAll es lines).1) :
    (applyAll es lines).2[i]? = lines[i]? := by
  induction es generalizing lines with
  | nil => rfl
  | cons e es ih =>
    rw [applyAll, List.mem_cons, not_or] at h
    rw [applyAll, ih h.2]
    by_cases he : e.Applies lines
    · rw [eq_applied_of_applies he, EditResult.applied.injEq] at h
      rw [getElem?_apply]
      simp [Ne.symm h.1]
    · rw [apply_of_not_applies he]

end LineEdit

namespace RuleSet
variable {rules : RuleSet} {findings : List Finding}

theorem keepsLine_of_mem_edits (h : rules.WellFormed) :
    ∀ e ∈ Rewrite.edits rules findings, e.KeepsLine := by
  intro e he
  obtain ⟨f, -, rule, hr, -, rfl⟩ := exists_rule_of_mem_edits he
  refine ⟨Rewrite.isCall_callEdit f rule.helper, fun hsearch => ?_⟩
  have hhelper : '\n' ∉ rule.helper := h.notMem_helper hr (by decide)
  have hreceiver : '\n' ∉ f.receiver := fun hm => hsearch (by simp [Rewrite.callEdit, hm])
  simp [Rewrite.callEdit, hhelper, hreceiver]

/-- A rewrite, its import taken out again, has as many pieces as the text. Each keeps its ending, and
changes only if an edit of its line was applied; the findings may name any lines, methods and
receivers. -/
theorem rewrite_keeps_pieces (hv : rules.isValid = true) (source : Text) (findings : List Finding) :
    let r := rules.rewrite source findings
    let results := (LineEdit.applyBatch (Rewrite.edits rules findings) source.pieces).1
    let line := Import.statement (rules.requiredHelpers findings) rules.helperModule ++
      Rewrite.lineEnding source
    ∃ before after : Text, r.text = before ++ (if r.importAdded then line else []) ++ after ∧
      (before ++ after).pieces.length = source.pieces.length ∧
      ∀ i p q, source.pieces[i]? = some p → (before ++ after).pieces[i]? = some q →
        q.ending = p.ending ∧ (EditResult.applied (i + 1) ∉ results → q = p) := by
  intro r results line
  have hkeep : ∀ e ∈ Rewrite.edits rules findings, e.KeepsLine :=
    keepsLine_of_mem_edits (isValid_iff.1 hv)
  obtain ⟨before, after, htext, hparts⟩ := rules.text_rewrite_parts source findings
  have hpieces : (before ++ after).pieces =
      (LineEdit.applyBatch (Rewrite.edits rules findings) source.pieces).2 := by
    rw [hparts, LineEdit.pieces_applyBatch hkeep]
  refine ⟨before, after, htext, ?_, fun i p q hp hq => ⟨?_, fun hnot => ?_⟩⟩
  · rw [hpieces]
    exact LineEdit.length_applyBatch _ source.pieces
  · rw [hpieces] at hq
    exact (LineEdit.staysPiece_of_getElem? hkeep hp hq).ending_eq (List.mem_of_getElem? hp)
  · rw [hpieces] at hq
    have hsame := LineEdit.getElem?_applyAll_of_notMem hnot
    exact Option.some.inj (hq.symm.trans (hsame.trans hp))

/-- The receiver holds a carriage return, which ends no line; the import stands behind the mark. -/
theorem rewrite_keeps_pieces_return :
    let source := "\ufeffa\rb.map(f)\r\nc".toList
    let findings : List Finding := [⟨1, "map".toList, "a\rb".toList, []⟩]
    let r := standard.rewrite source findings
    r.importAdded = true ∧ r.text = byteOrderMark ::
        "import \x7b safeMap, isEmpty \x7d from \"@/lib/arrayHelpers\";\r\nsafeMap(a\rb, f)\r\nc".toList ∧
      ∃ before after : Text, r.text = before ++
          "import \x7b safeMap, isEmpty \x7d from \"@/lib/arrayHelpers\";\r\n".toList ++ after ∧
        (before ++ after).pieces.length = 2 ∧
        ∀ q, (before ++ after).pieces[1]? = some q → q = "c".toList := by
  intro source findings r
  have hadd : r.importAdded = true := by decide +kernel
  have hv : standard.isValid = true := by decide +kernel
  obtain ⟨before, after, htext, hlength, hpieces⟩ := rewrite_keeps_pieces hv source findings
  have hline : Import.statement (standard.requiredHelpers findings) standard.helperModule ++
      Rewrite.lineEnding source =
        "import \x7b safeMap, isEmpty \x7d from \"@/lib/arrayHelpers\";\r\n".toList := by
    decide +kernel
  rw [if_pos hadd, hline] at htext
  refine ⟨hadd, by decide +kernel, before, after, htext, hlength.trans (by decide), fun q hq => ?_⟩
  exact (hpieces 1 "c".toList q (by decide) hq).2 (by decide +kernel)

end RuleSet
end GuardedCalls
