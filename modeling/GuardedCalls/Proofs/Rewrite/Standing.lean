import GuardedCalls.Proofs.Rewrite.Splice

/-! The calls that stand on a line after its flagged calls were rewritten one after the other. When no
method ends with a helper, each rewrite takes away the first call that it hits and adds none. -/

namespace GuardedCalls

/-- The calls left when each of `ss` in turn takes away the first call that it hits. -/
def Site.strike (ss calls : List Site) : List Site :=
  ss.foldl (fun left s => left.eraseP fun a => s.Hits a) calls

/-- What is left of the calls of a line by its flagged ones. -/
def RuleSet.standing (rules : RuleSet) (flagged : Text → Bool) (line : Text) : List Site :=
  Site.strike (rules.flaggedCalls flagged line) (rules.sites line)

namespace Site

theorem strike_sublist (ss calls : List Site) : (strike ss calls).Sublist calls := by
  induction ss generalizing calls with
  | nil => exact List.Sublist.refl _
  | cons s ss ih => exact (ih _).trans List.eraseP_sublist

theorem strike_append (ss ss' calls : List Site) :
    strike (ss ++ ss') calls = strike ss' (strike ss calls) :=
  List.foldl_append

theorem strike_cons_of_not {ss : List Site} {a : Site} (calls : List Site)
    (ha : ∀ s ∈ ss, ¬ s.Hits a) : strike ss (a :: calls) = a :: strike ss calls := by
  induction ss generalizing calls with
  | nil => rfl
  | cons s ss ih =>
    have hstep : (a :: calls).eraseP (fun a => s.Hits a) = a :: calls.eraseP fun a => s.Hits a :=
      List.eraseP_cons_of_neg (by simpa using ha s List.mem_cons_self)
    rw [strike, List.foldl_cons, hstep]
    exact ih _ fun b hb => ha b (List.mem_cons_of_mem s hb)

theorem strike_cons_sublist {ss : List Site} {s a : Site} (calls : List Site) (hs : s ∈ ss)
    (ha : s.Hits a) : (strike ss (a :: calls)).Sublist calls := by
  induction ss generalizing calls with
  | nil => contradiction
  | cons b ss ih =>
    by_cases hb : b.Hits a
    · have hstep : (a :: calls).eraseP (fun a => b.Hits a) = calls :=
        List.eraseP_cons_of_pos (by simpa using hb)
      rw [strike, List.foldl_cons, hstep]
      exact strike_sublist ss calls
    · have hstep : (a :: calls).eraseP (fun a => b.Hits a) = a :: calls.eraseP fun a => b.Hits a :=
        List.eraseP_cons_of_neg (by simpa using hb)
      have hs : s ∈ ss := (List.mem_cons.1 hs).resolve_left fun he => hb (he ▸ ha)
      rw [strike, List.foldl_cons, hstep]
      exact (ih _ hs).trans List.eraseP_sublist

end Site

namespace RuleSet
variable {rules : RuleSet} {flagged : Text → Bool}

theorem sites_rewriteIn (h : rules.WellFormed) (hends : rules.HelperEndsNoMethod) {s : Site}
    (hs : rules.Admits s) (t : Text) :
    rules.sites (s.rewriteIn t) = (rules.sites t).eraseP fun a => s.Hits a := by
  induction t using Text.closing_induction '(' with
  | last x hx => rw [Site.rewriteIn_of_notMem s hx, sites_of_notMem rules hx, List.eraseP_nil]
  | stretch x t hx ih =>
    obtain ⟨b, rfl, hb⟩ | hpass := hs.stretch_cases h hx
    · obtain ⟨a, ha, hh⟩ := (hs.suffix_iff h).1 (List.suffix_append b _)
      rw [sites_append h t hx, ha, ← Site.append_text, Site.rewriteIn_hit hs h t hb,
        sites_guarded h hs t hb, siteOf?_helper h hends hs.rule]
      simp [hh]
    · rw [Site.rewriteIn_pass hs h t hx hpass, sites_append h _ hx, sites_append h _ hx, ih,
        List.eraseP_append_right]
      intro a ha
      simpa using hpass a (Option.mem_toList.1 ha)

theorem sites_rewriteAll (h : rules.WellFormed) (hends : rules.HelperEndsNoMethod) {ss : List Site}
    (hss : ∀ s ∈ ss, rules.Admits s) (t : Text) :
    rules.sites (Site.rewriteAll ss t) = Site.strike ss (rules.sites t) := by
  induction ss generalizing t with
  | nil => rfl
  | cons s ss ih =>
    rw [Site.rewriteAll, List.foldl_cons, Site.strike, List.foldl_cons,
      ← sites_rewriteIn h hends (hss s List.mem_cons_self)]
    exact ih (fun a ha => hss a (List.mem_cons_of_mem s ha)) _

/-- A masked call is struck in place of the call that masks it. The induction is on the stretches: only
calls that are not flagged can be lost at the front. -/
theorem unmasked_of_sublist (h : rules.WellFormed) {t : Text}
    (hsub : ((rules.sites t).filter fun s => !flagged s.receiver).Sublist
      (rules.standing flagged t)) : rules.Unmasked flagged t := by
  induction t using Text.closing_induction '(' with
  | last x hx => simp [Unmasked, sites_of_notMem rules hx]
  | stretch x t hx ih =>
    rw [unmasked_append h t hx]
    rw [standing, sites_append h t hx] at hsub
    cases hs : rules.siteOf? x with
    | none =>
      rw [flaggedCalls_skip h t hx (by simp [hs]), hs] at hsub
      exact ⟨by simp, ih hsub⟩
    | some a =>
      cases hf : flagged a.receiver with
      | false =>
        rw [flaggedCalls_skip h t hx (by simp [hs, hf]), hs] at hsub
        simp only [Option.toList_some, List.singleton_append, hf, Bool.not_false,
          List.filter_cons_of_pos] at hsub
        by_cases hhit : ∃ s ∈ rules.flaggedCalls flagged t, s.Hits a
        · obtain ⟨s, hmem, hh⟩ := hhit
          have hcount := ((hsub.trans (Site.strike_cons_sublist _ hmem hh)).filter
            fun s => !flagged s.receiver).length_le
          simp only [hf, Bool.not_false, List.filter_cons_of_pos, List.filter_filter,
            Bool.and_self, List.length_cons] at hcount
          omega
        · have hnot : ∀ s ∈ rules.flaggedCalls flagged t, ¬ s.Hits a := by simpa using hhit
          rw [Site.strike_cons_of_not _ hnot, List.cons_sublist_cons] at hsub
          refine ⟨?_, ih hsub⟩
          intro c hc s hs' hh hfs
          obtain rfl := Option.some.inj hc
          exact absurd hh (hnot s ((mem_flaggedCalls h).2 ⟨hs', hfs⟩))
      | true =>
        obtain ⟨before, after, hcalls, hinsert, hpass⟩ := flaggedCalls_insert h t hx hs hf
        have hbefore : ∀ s ∈ before, ¬ s.Hits a := fun s hs' => hpass s hs' a hs
        rw [hinsert, hs, Option.toList_some, List.singleton_append, Site.strike_append,
          Site.strike_cons_of_not _ hbefore, Site.strike, List.foldl_cons,
          List.eraseP_cons_of_pos (by simpa using a.hits_self), ← Site.strike, ← Site.strike_append,
          ← hcalls] at hsub
        refine ⟨?_, ih (by simpa [hf, standing] using hsub)⟩
        intro c hc s _ _ _
        obtain rfl := Option.some.inj hc
        exact hf

end RuleSet
end GuardedCalls
