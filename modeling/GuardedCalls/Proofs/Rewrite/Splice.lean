import GuardedCalls.Proofs.Rewrite.Line

/-! Rewriting all flagged calls of a line at once, each at the column where the scan found it. One
rewrite after the other comes to the same unless a flagged call is masked. -/

namespace GuardedCalls
open Text (isIdentifier lastName)

/-- Replaces the calls that begin from column `i` on; `skip` more characters belong to the call
before. -/
def Site.spliceFrom (at? : Nat → Option Site) (i skip : Nat) : Text → Text
  | [] => []
  | c :: cs =>
    match skip with
    | skip + 1 => spliceFrom at? (i + 1) skip cs
    | 0 =>
      match at? i with
      | some s => s.guarded ++ spliceFrom at? (i + 1) (s.text.length - 1) cs
      | none => c :: spliceFrom at? (i + 1) 0 cs

namespace RuleSet

def flaggedAt? (rules : RuleSet) (flagged : Text → Bool) (line : Text) (i : Nat) : Option Site :=
  (rules.siteAt? line i).filter fun s => flagged s.receiver

/-- The line with each flagged call replaced in its own place. -/
def splice (rules : RuleSet) (flagged : Text → Bool) (line : Text) : Text :=
  Site.spliceFrom (rules.flaggedAt? flagged line) 0 0 line

end RuleSet

namespace Site
variable {at? : Nat → Option Site}

theorem spliceFrom_shift (i k skip : Nat) (t : Text) :
    spliceFrom at? (k + i) skip t = spliceFrom (fun j => at? (k + j)) i skip t := by
  induction t generalizing i skip with
  | nil => rfl
  | cons c t ih =>
    cases skip with
    | zero =>
      rw [spliceFrom, spliceFrom]
      cases at? (k + i) with
      | none => exact congrArg _ (ih (i + 1) 0)
      | some s => exact congrArg _ (ih (i + 1) _)
    | succ skip => exact ih (i + 1) skip

theorem spliceFrom_skip (i : Nat) (s t : Text) :
    spliceFrom at? i s.length (s ++ t) = spliceFrom at? (i + s.length) 0 t := by
  induction s generalizing i with
  | nil => rfl
  | cons c s ih =>
    rw [List.cons_append, List.length_cons, spliceFrom, ih, Nat.add_right_comm, Nat.add_assoc]

theorem spliceFrom_keep (at? : Nat → Option Site) (i : Nat) (s t : Text)
    (hs : ∀ j, j < s.length → at? (i + j) = none) :
    spliceFrom at? i 0 (s ++ t) = s ++ spliceFrom at? (i + s.length) 0 t := by
  induction s generalizing i with
  | nil => rfl
  | cons c s ih =>
    have h0 : at? i = none := hs 0 (by simp)
    have hrest : ∀ j, j < s.length → at? (i + 1 + j) = none := by
      intro j hj
      rw [Nat.add_assoc, Nat.add_comm 1 j]
      exact hs (j + 1) (by simpa using hj)
    rw [List.cons_append, spliceFrom, h0]
    simp only [ih (i + 1) hrest, List.cons_append, List.length_cons, Nat.add_assoc, Nat.add_comm 1]

theorem spliceFrom_call (at? : Nat → Option Site) (i : Nat) {s : Site} (t : Text)
    (hs : at? i = some s) :
    spliceFrom at? i 0 (s.text ++ t) = s.guarded ++ spliceFrom at? (i + s.text.length) 0 t := by
  have hlen := s.length_text
  cases htext : s.text with
  | nil =>
    rw [htext, List.length_nil] at hlen
    omega
  | cons c cs =>
    rw [List.cons_append, spliceFrom, hs]
    simp only [htext, List.length_cons, Nat.add_sub_cancel]
    rw [spliceFrom_skip, Nat.add_assoc, Nat.add_comm 1]

end Site

namespace RuleSet
variable {rules : RuleSet} {flagged : Text → Bool}

theorem splice_of_notMem (rules : RuleSet) {t : Text} (ht : '(' ∉ t) :
    rules.splice flagged t = t := by
  have hnone : ∀ j, j < t.length → rules.flaggedAt? flagged t (0 + j) = none := by
    simp [flaggedAt?, siteAt?_of_notMem rules ht]
  simpa [splice, Site.spliceFrom] using Site.spliceFrom_keep _ 0 t [] hnone

theorem flaggedAt?_stretch (h : rules.WellFormed) {x : Text} (t : Text) (hx : '(' ∉ x) {i : Nat}
    (hi : i < (x ++ ['(']).length) :
    rules.flaggedAt? flagged (x ++ '(' :: t) i = (rules.siteOf? x).filter fun s =>
      decide (s.text.length + i = (x ++ ['(']).length) && flagged s.receiver := by
  have hi : i ≤ x.length := by simpa [Nat.lt_succ_iff] using hi
  rw [flaggedAt?, siteAt?_stretch h t hx hi, Option.filter_filter]
  simp [Bool.and_comm]

theorem flaggedAt?_shift (h : rules.WellFormed) {x : Text} (t : Text) (hx : '(' ∉ x) (i : Nat) :
    rules.flaggedAt? flagged (x ++ '(' :: t) ((x ++ ['(']).length + i) =
      rules.flaggedAt? flagged t i := by
  rw [flaggedAt?, List.length_append, List.length_singleton, siteAt?_shift h t hx, flaggedAt?]

theorem flaggedAt?_skip (h : rules.WellFormed) {x : Text} (t : Text) (hx : '(' ∉ x)
    (hskip : ∀ s, rules.siteOf? x = some s → flagged s.receiver = false) {i : Nat}
    (hi : i < (x ++ ['(']).length) : rules.flaggedAt? flagged (x ++ '(' :: t) i = none := by
  rw [flaggedAt?_stretch h t hx hi, Option.filter_eq_none_iff]
  intro s hs
  simp [hskip s hs]

/-- The flagged call of a stretch begins where its receiver does. -/
theorem flaggedAt?_call (h : rules.WellFormed) {b : Text} {s : Site} (t : Text)
    (hs : rules.siteOf? (b ++ (s.receiver ++ '.' :: s.rule.method)) = some s) (hb : '(' ∉ b)
    (hf : flagged s.receiver = true) {i : Nat} (hi : i < b.length + s.text.length) :
    rules.flaggedAt? flagged (b ++ s.text ++ t) i = if i = b.length then some s else none := by
  have hlen := s.length_stretch b
  rw [s.append_text, flaggedAt?_stretch h t ((admits_of_siteOf? hs).paren_notMem_append h hb)
    (hlen ▸ hi), hs, Option.filter_some, hf, hlen, Bool.and_true]
  congr 1
  simp
  omega

/-- What follows a stretch is spliced as a line of its own. -/
theorem splice_rest (h : rules.WellFormed) {x : Text} (t : Text) (hx : '(' ∉ x) :
    Site.spliceFrom (rules.flaggedAt? flagged (x ++ '(' :: t)) (x ++ ['(']).length 0 t =
      rules.splice flagged t := by
  have hshift : (fun j => rules.flaggedAt? flagged (x ++ '(' :: t) ((x ++ ['(']).length + j)) =
      rules.flaggedAt? flagged t := funext (flaggedAt?_shift h t hx)
  rw [← Nat.add_zero (x ++ ['(']).length, Site.spliceFrom_shift, hshift, splice]

theorem splice_skip (h : rules.WellFormed) {x : Text} (t : Text) (hx : '(' ∉ x)
    (hskip : ∀ s, rules.siteOf? x = some s → flagged s.receiver = false) :
    rules.splice flagged (x ++ '(' :: t) = x ++ '(' :: rules.splice flagged t := by
  have hkeep := Site.spliceFrom_keep (rules.flaggedAt? flagged (x ++ '(' :: t)) 0 (x ++ ['(']) t
    fun j hj => by rw [Nat.zero_add, flaggedAt?_skip h t hx hskip hj]
  rw [Nat.zero_add, splice_rest h t hx] at hkeep
  simpa [splice] using hkeep

theorem splice_call (h : rules.WellFormed) {b : Text} {s : Site} (t : Text)
    (hs : rules.siteOf? (b ++ (s.receiver ++ '.' :: s.rule.method)) = some s) (hb : '(' ∉ b)
    (hf : flagged s.receiver = true) :
    rules.splice flagged (b ++ s.text ++ t) = b ++ s.guarded ++ rules.splice flagged t := by
  have hx := (admits_of_siteOf? hs).paren_notMem_append h hb
  have htext := s.length_text
  have hkeep := Site.spliceFrom_keep (rules.flaggedAt? flagged (b ++ s.text ++ t)) 0 b (s.text ++ t)
    fun j hj => by
      rw [Nat.zero_add, flaggedAt?_call h t hs hb hf (by omega), if_neg (Nat.ne_of_lt hj)]
  have hcall := Site.spliceFrom_call (rules.flaggedAt? flagged (b ++ s.text ++ t)) b.length t
    (by rw [flaggedAt?_call h t hs hb hf (by omega), if_pos rfl])
  have hrest : Site.spliceFrom (rules.flaggedAt? flagged _) _ 0 t = _ := splice_rest h t hx
  rw [← s.append_text, s.length_stretch] at hrest
  rw [Nat.zero_add, hcall, hrest, ← List.append_assoc, ← List.append_assoc] at hkeep
  exact hkeep

theorem unmasked_append (h : rules.WellFormed) {x : Text} (t : Text) (hx : '(' ∉ x) :
    rules.Unmasked flagged (x ++ '(' :: t) ↔
      (∀ a, rules.siteOf? x = some a → ∀ b ∈ rules.sites t, b.Hits a →
        flagged b.receiver = true → flagged a.receiver = true) ∧ rules.Unmasked flagged t := by
  rw [Unmasked, sites_append h t hx, Unmasked]
  cases rules.siteOf? x <;> simp

/-- Where no call is masked, the rewrites of the calls after it pass a stretch that is not flagged. -/
theorem not_hits_of_unmasked (h : rules.WellFormed) {x : Text} (t : Text) (hx : '(' ∉ x)
    (hskip : ∀ s, rules.siteOf? x = some s → flagged s.receiver = false)
    (hm : rules.Unmasked flagged (x ++ '(' :: t)) :
    ∀ s ∈ rules.flaggedCalls flagged t, ∀ a, rules.siteOf? x = some a → ¬ s.Hits a := by
  intro s hs a ha hh
  obtain ⟨hsite, hf⟩ := (mem_flaggedCalls h).1 hs
  have hflagged := ((unmasked_append h t hx).1 hm).1 a ha s hsite hh hf
  rw [hskip a ha] at hflagged
  contradiction

/-- The induction is on the stretches. A flagged first stretch is hit by its own rewrite, the ones
before are of other rules, and the ones after it no longer find a call there. -/
theorem rewriteAll_flaggedCalls (h : rules.WellFormed) (hne : rules.HelperNoMethod) {t : Text}
    (hm : rules.Unmasked flagged t) :
    Site.rewriteAll (rules.flaggedCalls flagged t) t = rules.splice flagged t := by
  induction t using Text.closing_induction '(' with
  | last x hx => rw [Site.rewriteAll_of_notMem _ hx, splice_of_notMem rules hx]
  | stretch x t hx ih =>
    have htail := ((unmasked_append h t hx).1 hm).2
    have hadmits : ∀ s ∈ rules.flaggedCalls flagged t, rules.Admits s := fun s hs =>
      admits_of_mem_flaggedCalls h hs
    obtain hskip | ⟨s, hs, hf⟩ := rules.flagged_cases flagged x
    · rw [flaggedCalls_skip h t hx hskip, Site.rewriteAll_pass h hadmits t hx
        (not_hits_of_unmasked h t hx hskip hm), ih htail, splice_skip h t hx hskip]
    · obtain ⟨before, after, hcalls, hinsert, hpass⟩ := flaggedCalls_insert h t hx hs hf
      have hs' := admits_of_siteOf? hs
      obtain ⟨b, rfl, hb⟩ := siteOf?_before hs
      have hparen : '(' ∉ b := fun hc => hx (List.mem_append_left _ hc)
      rw [hinsert, ← Site.append_text, Site.rewriteAll_taken h (hcalls ▸ hadmits) hs' t hparen hpass
        (siteOf?_helper_whole h hne hs' hb), ← hcalls, ih htail, splice_call h t hs hparen hf]

/-- The calls that are not flagged stay, and no other calls come about. -/
theorem sites_splice (h : rules.WellFormed) (hne : rules.HelperNoMethod) (t : Text) :
    rules.sites (rules.splice flagged t) =
      (rules.sites t).filter fun s => !flagged s.receiver := by
  induction t using Text.closing_induction '(' with
  | last x hx => rw [splice_of_notMem rules hx, sites_of_notMem rules hx]; rfl
  | stretch x t hx ih =>
    obtain hskip | ⟨s, hs, hf⟩ := rules.flagged_cases flagged x
    · rw [splice_skip h t hx hskip, sites_append h _ hx, sites_append h _ hx, List.filter_append, ih]
      congr 1
      rw [eq_comm, List.filter_eq_self]
      intro s hs
      simp [hskip s (Option.mem_toList.1 hs)]
    · have hs' := admits_of_siteOf? hs
      obtain ⟨b, rfl, hb⟩ := siteOf?_before hs
      have hparen : '(' ∉ b := fun hc => hx (List.mem_append_left _ hc)
      rw [sites_append h t hx, hs, ← Site.append_text, splice_call h t hs hparen hf,
        sites_guarded h hs' _ hparen,
        siteOf?_helper_whole h hne hs' hb, ih]
      simp [hf]

end RuleSet
end GuardedCalls
