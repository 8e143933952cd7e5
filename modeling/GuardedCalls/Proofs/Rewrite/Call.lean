import GuardedCalls.Proofs.Scan.Site
import GuardedCalls.Rewrite.Source

/-! Rewriting one call of a line. The rewrite looks for the text of the call, so it finds the first
call with the same rule whose receiver ends as that of the call does. -/

namespace GuardedCalls
open Text (isIdentifier lastName)

namespace Site

/-- Whether the text of a call is found where another call stands. -/
def Hits (s a : Site) : Prop :=
  a.rule = s.rule ∧ s.receiver <:+ a.receiver

instance : DecidableRel Hits := fun _ _ => inferInstanceAs (Decidable (_ ∧ _))

theorem hits_self (s : Site) : s.Hits s :=
  ⟨rfl, List.suffix_rfl⟩

/-- The line after a rewrite of the call; without its text the line stays as it is. -/
def rewriteIn (s : Site) (line : Text) : Text :=
  (Text.replaceFirst? s.text s.guarded line).getD line

theorem text_eq (s : Site) : s.text = (s.receiver ++ '.' :: s.rule.method) ++ ['('] := by
  simp [text, Call.opening]

/-- The text of a call on a line closes a stretch. -/
theorem append_text (s : Site) (b t : Text) :
    b ++ s.text ++ t = (b ++ (s.receiver ++ '.' :: s.rule.method)) ++ '(' :: t := by
  simp [text_eq]

theorem length_stretch (s : Site) (b : Text) :
    (b ++ (s.receiver ++ '.' :: s.rule.method) ++ ['(']).length = b.length + s.text.length := by
  rw [List.append_assoc, ← text_eq, List.length_append]

theorem guarded_append (s : Site) (b t : Text) :
    b ++ s.guarded ++ t = (b ++ s.rule.helper) ++ '(' :: ((s.receiver ++ [',']) ++ ' ' :: t) := by
  simp [guarded]

end Site

variable {rules : RuleSet} {s : Site}

namespace RuleSet.Admits

theorem notMem (hs : rules.Admits s) (h : rules.WellFormed) {c : Char}
    (hc : Text.isIdentChar c = false) (hp : c ≠ '.') : c ∉ s.receiver ++ '.' :: s.rule.method := by
  rw [List.mem_append]
  rintro (hv | hm)
  · exact Text.notMem_of_isIdentifier hs.receiver hc hv
  · exact Call.notMem_opening (h.method _ hs.rule) hc hp hm

theorem paren_notMem (hs : rules.Admits s) (h : rules.WellFormed) :
    '(' ∉ s.receiver ++ '.' :: s.rule.method :=
  hs.notMem h (by decide) (by decide)

theorem suffix_iff (hs : rules.Admits s) (h : rules.WellFormed) {x : Text} :
    s.receiver ++ '.' :: s.rule.method <:+ x ↔ ∃ a, rules.siteOf? x = some a ∧ s.Hits a := by
  rw [Call.suffix_iff_receiver? hs.receiver]
  constructor
  · rintro ⟨v, hv, hsuf⟩
    exact ⟨⟨v, s.rule⟩, (h.receiver?_iff hs.rule).1 hv, rfl, hsuf⟩
  · rintro ⟨a, ha, he, hsuf⟩
    refine ⟨a.receiver, (h.receiver?_iff hs.rule).2 ?_, hsuf⟩
    rw [ha, ← he]

theorem not_suffix_iff (hs : rules.Admits s) (h : rules.WellFormed) {x : Text} :
    ¬ s.receiver ++ '.' :: s.rule.method <:+ x ↔ ∀ a, rules.siteOf? x = some a → ¬ s.Hits a := by
  simp only [hs.suffix_iff h, not_exists, not_and]

theorem paren_notMem_append (hs : rules.Admits s) (h : rules.WellFormed) {b : Text} (hb : '(' ∉ b) :
    '(' ∉ b ++ (s.receiver ++ '.' :: s.rule.method) := by
  rw [List.mem_append, not_or]
  exact ⟨hb, hs.paren_notMem h⟩

/-- A stretch ends with the text of a call, or the search for that text passes it. -/
theorem stretch_cases (hs : rules.Admits s) (h : rules.WellFormed) {x : Text} (hx : '(' ∉ x) :
    (∃ b, x = b ++ (s.receiver ++ '.' :: s.rule.method) ∧ '(' ∉ b) ∨
      ∀ a, rules.siteOf? x = some a → ¬ s.Hits a := by
  by_cases hsuf : s.receiver ++ '.' :: s.rule.method <:+ x
  · obtain ⟨b, rfl⟩ := hsuf
    exact Or.inl ⟨b, rfl, fun hb => hx (List.mem_append_left _ hb)⟩
  · exact Or.inr ((hs.not_suffix_iff h).1 hsuf)

end RuleSet.Admits

namespace Site

theorem rewriteIn_of_notMem (s : Site) {t : Text} (ht : '(' ∉ t) : s.rewriteIn t = t := by
  rw [rewriteIn, text_eq, Text.replaceFirst?, Text.cut?_eq_none_of_notMem ht]
  rfl

theorem rewriteIn_pass (hs : rules.Admits s) (h : rules.WellFormed) {x : Text} (t : Text)
    (hx : '(' ∉ x) (hpass : ∀ a, rules.siteOf? x = some a → ¬ s.Hits a) :
    s.rewriteIn (x ++ '(' :: t) = x ++ '(' :: s.rewriteIn t := by
  rw [rewriteIn, rewriteIn, text_eq, Text.replaceFirst?, Text.replaceFirst?,
    Text.cut?_append_closing (hs.paren_notMem h) hx, if_neg ((hs.not_suffix_iff h).2 hpass)]
  cases Text.cut? (s.receiver ++ '.' :: s.rule.method ++ ['(']) t <;> simp

theorem rewriteIn_hit (hs : rules.Admits s) (h : rules.WellFormed) {b : Text} (t : Text)
    (hb : '(' ∉ b) : s.rewriteIn (b ++ s.text ++ t) = b ++ s.guarded ++ t := by
  rw [append_text, rewriteIn, text_eq, Text.replaceFirst?, Text.cut?_append_closing
    (hs.paren_notMem h) (hs.paren_notMem_append h hb), if_pos (List.suffix_append _ _)]
  simp

/-- A text that ends with a character of no call stays before the rewritten line. -/
theorem rewriteIn_append_cons (hs : rules.Admits s) (h : rules.WellFormed) {c : Char} {p : Text}
    (t : Text) (hpp : '(' ∉ p) (hc : Text.isIdentChar c = false) (hp : c ≠ '.') (hpc : c ≠ '(') :
    s.rewriteIn (p ++ c :: t) = p ++ c :: s.rewriteIn t := by
  have hfront (x : Text) (hx : '(' ∉ x) : '(' ∉ p ++ c :: x := by simp [hpp, hx, hpc.symm]
  have hassoc (x u : Text) : p ++ c :: (x ++ u) = (p ++ c :: x) ++ u := by simp
  cases t using Text.closing_induction '(' with
  | last x hx => rw [rewriteIn_of_notMem s hx, rewriteIn_of_notMem s (hfront _ hx)]
  | stretch x t hx =>
    obtain ⟨b, rfl, hb⟩ | hpass := hs.stretch_cases h hx
    · rw [← append_text, rewriteIn_hit hs h t hb, List.append_assoc, hassoc, ← List.append_assoc,
        rewriteIn_hit hs h t (hfront b hb)]
      simp
    · rw [hassoc, rewriteIn_pass hs h t (hfront x hx)
        (RuleSet.siteOf?_append_cons h p x hc hp ▸ hpass), rewriteIn_pass hs h t hx hpass, hassoc]

end Site
end GuardedCalls
