import GuardedCalls.Proofs.Rewrite.Applied
import GuardedCalls.Proofs.Rewrite.Repeat
import Mathlib.Algebra.BigOperators.Group.List.Basic
import Mathlib.Algebra.Order.BigOperators.Group.List
import Mathlib.Algebra.Order.Group.Nat

/-! Passes over a text, each of them a scan and a rewrite with its findings. A pass takes away one call
for each finding and makes none, so the passes come to an end when nothing more is found. -/

namespace GuardedCalls
namespace RuleSet

/-- A scan of a text and the rewrite with what it finds. -/
def pass (rules : RuleSet) (t : Text) : Text :=
  (rules.rewrite t (rules.findings t)).text

/-- The calls of all methods on the lines of a text, the exempt ones included. -/
def callCount (rules : RuleSet) (t : Text) : Nat :=
  (t.lines.flatMap fun line => rules.rules.flatMap fun rule => receivers rule.method line).length

variable {rules : RuleSet}

theorem length_flaggedCalls (h : rules.WellFormed) (flagged : Text → Bool) (t : Text) :
    (rules.flaggedCalls flagged t).length = (rules.sites t).countP fun s => flagged s.receiver := by
  induction t using Text.closing_induction '(' with
  | last x hx => rw [flaggedCalls_of_notMem rules hx, sites_of_notMem rules hx]; rfl
  | stretch x t hx ih =>
    rw [sites_append h t hx, List.countP_append, ← ih]
    obtain hskip | ⟨s, hs, hf⟩ := rules.flagged_cases flagged x
    · have hnone : (rules.siteOf? x).toList.countP (fun s => flagged s.receiver) = 0 := by
        rw [List.countP_eq_zero]
        intro s hs
        simp [hskip s (Option.mem_toList.1 hs)]
      rw [flaggedCalls_skip h t hx hskip, hnone, Nat.zero_add]
    · obtain ⟨before, after, hcalls, hinsert, -⟩ := flaggedCalls_insert h t hx hs hf
      rw [hinsert, hcalls, hs, Option.toList_some, List.countP_singleton, if_pos hf]
      simp only [List.length_append, List.length_cons]
      omega

theorem length_receivers (h : rules.WellFormed) (line : Text) :
    (rules.rules.flatMap fun rule => receivers rule.method line).length =
      (rules.sites line).length := by
  have hall := length_flaggedCalls h (fun _ => true) line
  rw [List.countP_true] at hall
  rw [← hall, flaggedCalls, List.length_flatMap, List.length_flatMap]
  simp

theorem callCount_eq (h : rules.WellFormed) (t : Text) :
    rules.callCount t = (rules.sites t).length := by
  rw [callCount, sites_eq_flatMap_lines h, List.length_flatMap, List.length_flatMap]
  simp only [length_receivers h]

/-- Rewrites that all find their texts take away one call each. -/
theorem length_sites_rewriteAll (h : rules.WellFormed) (hends : rules.HelperEndsNoMethod)
    {ss : List Site} (hss : ∀ s ∈ ss, rules.Admits s) {t : Text} (hf : Site.AllFound ss t) :
    (rules.sites (Site.rewriteAll ss t)).length + ss.length = (rules.sites t).length := by
  induction ss generalizing t with
  | nil => rfl
  | cons s ss ih =>
    obtain ⟨hs, hss⟩ := List.forall_mem_cons.1 hss
    obtain ⟨htext, hrest⟩ := hf
    obtain ⟨a, ha, hh⟩ := (Site.text_infix_iff hs h t).1 htext
    have hpos := List.length_pos_of_mem ha
    have hstep : (rules.sites (s.rewriteIn t)).length = (rules.sites t).length - 1 := by
      rw [sites_rewriteIn h hends hs, List.length_eraseP_of_mem ha (by simpa using hh)]
    have hall := ih hss hrest
    rw [hstep] at hall
    rw [Site.rewriteAll, List.foldl_cons, ← Site.rewriteAll, List.length_cons]
    omega

theorem length_sites_rewriteLine (h : rules.WellFormed) (hends : rules.HelperEndsNoMethod)
    (line : Text) :
    (rules.sites (rules.rewriteLine line)).length +
        (rules.flaggedCalls (rules.flags line) line).length = (rules.sites line).length :=
  length_sites_rewriteAll h hends (fun _ hs => admits_of_mem_flaggedCalls h hs)
    (foundAnyhow_flaggedCalls h line _ (List.Sublist.refl _))

theorem length_findings (rules : RuleSet) (source : Text) :
    (rules.findings source).length =
      (source.lines.flatMap fun line => rules.flaggedCalls (rules.flags line) line).length := by
  have hon (p : Text × Nat) : (rules.findingsOn p.2 p.1).length =
      (rules.flaggedCalls (rules.flags p.1) p.1).length := by
    rw [rules.findingsOn_eq, List.length_map]
  have hlines : source.lines.flatMap (fun line => rules.flaggedCalls (rules.flags line) line) =
      (source.lines.zipIdx 1).flatMap fun p => rules.flaggedCalls (rules.flags p.1) p.1 := by
    conv_lhs => rw [← List.zipIdx_map_fst 1 source.lines]
    rw [List.flatMap_map]
  rw [hlines, findings, List.length_flatMap, List.length_flatMap]
  simp only [hon]

/-- Each finding is a call of its own. -/
theorem length_findings_le (h : rules.WellFormed) (source : Text) :
    (rules.findings source).length ≤ source.length := by
  have hline (line : Text) : (rules.flaggedCalls (rules.flags line) line).length ≤
      (rules.sites line).length := by
    rw [length_flaggedCalls h]
    exact List.countP_le_length
  calc (rules.findings source).length
      ≤ (rules.sites source).length := by
        rw [length_findings, sites_eq_flatMap_lines h, List.length_flatMap, List.length_flatMap]
        exact List.sum_le_sum fun line _ => hline line
    _ ≤ source.length := by
        simpa [sites] using List.length_filterMap_le (rules.siteAt? source) (List.range source.length)

theorem sites_pass (h : rules.WellFormed) (hmodule : '(' ∉ rules.helperModule)
    (hempty : '(' ∉ rules.emptyHelper) (t : Text) :
    rules.sites (rules.pass t) = t.lines.flatMap fun line => rules.sites (rules.rewriteLine line) := by
  have hlines : rules.sites (t.mapLines rules.rewriteLine) =
      t.lines.flatMap fun line => rules.sites (rules.rewriteLine line) := by
    rw [sites_eq_flatMap_lines h, Text.lines_mapLines (staysLine_rewriteLine h), List.flatMap_map]
  rw [pass, text_rewrite_pieces h, ← hlines]
  cases hadd : (rules.rewrite t (rules.findings t)).importAdded with
  | false => rw [if_neg (by simp), Text.flatten_pieces]
  | true =>
    obtain ⟨x, hx, hnot⟩ := rules.exists_importLine t
    have hp : '(' ∉ x :=
      hnot '(' (by decide) (notMem_statement h (by simp) hmodule hempty (rules.findings t))
    rw [if_pos rfl, hx, sites_insertPiece h (first?_lt_of_importAdded h hadd) hp]

theorem callCount_pass (h : rules.WellFormed) (hends : rules.HelperEndsNoMethod)
    (hmodule : '(' ∉ rules.helperModule) (hempty : '(' ∉ rules.emptyHelper) (t : Text) :
    rules.callCount (rules.pass t) + (rules.findings t).length = rules.callCount t := by
  rw [callCount_eq h, callCount_eq h, sites_pass h hmodule hempty, length_findings,
    sites_eq_flatMap_lines h t, List.length_flatMap, List.length_flatMap, List.length_flatMap,
    ← List.sum_map_add]
  congr 1
  exact List.map_congr_left fun line _ => length_sites_rewriteLine h hends line

theorem pass_of_findings_nil (h : rules.WellFormed) {t : Text} (hf : rules.findings t = []) :
    rules.pass t = t :=
  (rewrite_of_calls_eq_zero ((calls_findings h t).2 hf)).1

/-- The induction is on the number of calls: as long as something is found, a pass takes one away. -/
theorem exists_iterate_pass (h : rules.WellFormed) (hends : rules.HelperEndsNoMethod)
    (hmodule : '(' ∉ rules.helperModule) (hempty : '(' ∉ rules.emptyHelper) (t : Text) :
    ∃ n ≤ rules.callCount t, rules.findings (rules.pass^[n] t) = [] := by
  induction hcount : rules.callCount t using Nat.strongRecOn generalizing t with
  | ind k ih =>
    by_cases hf : rules.findings t = []
    · exact ⟨0, Nat.zero_le k, hf⟩
    · have hstep := callCount_pass h hends hmodule hempty t
      have hpos := List.length_pos_of_ne_nil hf
      obtain ⟨n, hn, hnone⟩ := ih (rules.callCount (rules.pass t)) (by omega) (rules.pass t) rfl
      refine ⟨n + 1, by omega, ?_⟩
      rwa [Function.iterate_succ_apply]

/-- A pass leaves as many calls fewer as there were issues, and after at most as many passes as there
were calls a scan finds none and a pass changes nothing. -/
theorem passes_converge (hv : rules.isValid = true) (hends : rules.HelperEndsNoMethod)
    (hmodule : '(' ∉ rules.helperModule) (hempty : '(' ∉ rules.emptyHelper) (file : Text) :
    (∀ t, rules.callCount (rules.pass t) + (rules.scan file t).issuesCount = rules.callCount t) ∧
      ∀ t, ∃ n ≤ rules.callCount t,
        (rules.scan file (rules.pass^[n] t)).issues = [] ∧
          rules.pass (rules.pass^[n] t) = rules.pass^[n] t := by
  have h := isValid_iff.1 hv
  refine ⟨callCount_pass h hends hmodule hempty, fun t => ?_⟩
  obtain ⟨n, hn, hnone⟩ := exists_iterate_pass h hends hmodule hempty t
  exact ⟨n, hn, hnone, pass_of_findings_nil h hnone⟩

/-- The first pass takes the exempt call away in place of the one found, which only then counts. -/
theorem passes_converge_masked :
    let rules : RuleSet := { standard with rules := standardRules.take 1 }
    let t := "ab=[ab.map(f), b.map(g)]".toList
    rules.callCount t = 2 ∧ rules.callCount (rules.pass t) = 1 ∧
      ∃ n ≤ 2, (rules.scan [] (rules.pass^[n] t)).issues = [] ∧
        rules.pass (rules.pass^[n] t) = rules.pass^[n] t := by
  intro rules t
  have hv : rules.isValid = true := by decide +kernel
  have hcount : rules.callCount t = 2 := by decide +kernel
  have hissues : (rules.scan [] t).issuesCount = 1 := by decide +kernel
  obtain ⟨hstep, hend⟩ := passes_converge hv (by decide +kernel) (by decide +kernel)
    (by decide +kernel) []
  have hpass := hstep t
  exact ⟨hcount, by omega, hcount ▸ hend t⟩

end RuleSet
end GuardedCalls
