import GuardedCalls.Proofs.Rewrite.Helper

/-! Rewriting the flagged calls of a line. The rewrites are taken by rule and then by place, and each
of them searches the line that the ones before have left. -/

namespace GuardedCalls
open Text (isIdentifier lastName)

/-- The line after rewrites one after the other. -/
def Site.rewriteAll (ss : List Site) (line : Text) : Text :=
  ss.foldl (fun t s => s.rewriteIn t) line

namespace RuleSet

/-- The calls with a flagged receiver, by rule and then by place. -/
def flaggedCalls (rules : RuleSet) (flagged : Text → Bool) (line : Text) : List Site :=
  rules.rules.flatMap fun rule => ((receivers rule.method line).filter flagged).map (⟨·, rule⟩)

/-- No flagged receiver ends a receiver that is not flagged and stands before it in a call of the
same method. -/
def Unmasked (rules : RuleSet) (flagged : Text → Bool) (line : Text) : Prop :=
  (rules.sites line).Pairwise fun a b =>
    b.Hits a → flagged b.receiver = true → flagged a.receiver = true

instance (rules : RuleSet) (flagged : Text → Bool) (line : Text) :
    Decidable (rules.Unmasked flagged line) :=
  inferInstanceAs (Decidable (List.Pairwise _ _))

end RuleSet

variable {rules : RuleSet}

namespace Site

theorem rewriteAll_append (ss ss' : List Site) (line : Text) :
    rewriteAll (ss ++ ss') line = rewriteAll ss' (rewriteAll ss line) :=
  List.foldl_append

theorem rewriteAll_of_notMem (ss : List Site) {t : Text} (ht : '(' ∉ t) : rewriteAll ss t = t := by
  induction ss with
  | nil => rfl
  | cons s ss ih => simpa [rewriteAll, rewriteIn_of_notMem s ht] using ih

theorem rewriteAll_pass (h : rules.WellFormed) {ss : List Site} (hss : ∀ s ∈ ss, rules.Admits s)
    {x : Text} (t : Text) (hx : '(' ∉ x)
    (hpass : ∀ s ∈ ss, ∀ a, rules.siteOf? x = some a → ¬ s.Hits a) :
    rewriteAll ss (x ++ '(' :: t) = x ++ '(' :: rewriteAll ss t := by
  induction ss generalizing t with
  | nil => rfl
  | cons s ss ih =>
    have hstep := rewriteIn_pass (hss s List.mem_cons_self) h t hx (hpass s List.mem_cons_self)
    have hrest := ih (fun a ha => hss a (List.mem_cons_of_mem s ha)) (s.rewriteIn t)
      fun a ha => hpass a (List.mem_cons_of_mem s ha)
    simpa [rewriteAll, hstep] using hrest

theorem rewriteAll_append_cons (h : rules.WellFormed) {ss : List Site}
    (hss : ∀ s ∈ ss, rules.Admits s) {c : Char} {p : Text} (t : Text) (hpp : '(' ∉ p)
    (hc : Text.isIdentChar c = false) (hp : c ≠ '.') (hpc : c ≠ '(') :
    rewriteAll ss (p ++ c :: t) = p ++ c :: rewriteAll ss t := by
  induction ss generalizing t with
  | nil => rfl
  | cons s ss ih =>
    have hstep := rewriteIn_append_cons (hss s List.mem_cons_self) h t hpp hc hp hpc
    have hrest := ih (fun a ha => hss a (List.mem_cons_of_mem s ha)) (s.rewriteIn t)
    simpa [rewriteAll, hstep] using hrest

/-- Rewrites of other calls pass a rewritten call, if it has become no call that they know. -/
theorem rewriteAll_guarded (h : rules.WellFormed) {ss : List Site} (hss : ∀ s ∈ ss, rules.Admits s)
    {s : Site} (hs : rules.Admits s) {b : Text} (t : Text) (hb : '(' ∉ b)
    (hnone : rules.siteOf? (b ++ s.rule.helper) = none) :
    rewriteAll ss (b ++ s.guarded ++ t) = b ++ s.guarded ++ rewriteAll ss t := by
  rw [guarded_append, guarded_append,
    rewriteAll_pass h hss _ (hs.paren_notMem_helper h hb) (by simp [hnone]),
    rewriteAll_append_cons h hss _ hs.paren_notMem_receiver (by decide) (by decide) (by decide)]

/-- A stretch is taken by the first rewrite that hits it, if it is no call after that. -/
theorem rewriteAll_taken (h : rules.WellFormed) {before after : List Site}
    (hss : ∀ a ∈ before ++ after, rules.Admits a) {s : Site} (hs : rules.Admits s) {b : Text}
    (t : Text) (hb : '(' ∉ b) (hpass : ∀ a ∈ before, ∀ c,
      rules.siteOf? (b ++ (s.receiver ++ '.' :: s.rule.method)) = some c → ¬ a.Hits c)
    (hnone : rules.siteOf? (b ++ s.rule.helper) = none) :
    rewriteAll (before ++ s :: after) (b ++ s.text ++ t) =
      b ++ s.guarded ++ rewriteAll (before ++ after) t := by
  obtain ⟨hbefore, hafter⟩ := List.forall_mem_append.1 hss
  rw [rewriteAll_append, append_text, rewriteAll_pass h hbefore t (hs.paren_notMem_append h hb) hpass,
    ← append_text, rewriteAll, List.foldl_cons, rewriteIn_hit hs h _ hb, ← rewriteAll,
    rewriteAll_guarded h hafter hs _ hb hnone, rewriteAll_append]

end Site

namespace RuleSet
variable {flagged : Text → Bool}

theorem mem_flaggedCalls (h : rules.WellFormed) {t : Text} {s : Site} :
    s ∈ rules.flaggedCalls flagged t ↔ s ∈ rules.sites t ∧ flagged s.receiver = true := by
  rw [flaggedCalls, List.mem_flatMap]
  constructor
  · rintro ⟨rule, hr, hs⟩
    rw [receivers_eq h hr] at hs
    obtain ⟨v, hv, rfl⟩ := List.mem_map.1 hs
    obtain ⟨hv, hf⟩ := List.mem_filter.1 hv
    obtain ⟨a, ha, rfl⟩ := List.mem_map.1 hv
    obtain ⟨hsite, he⟩ := List.mem_filter.1 ha
    obtain rfl : a.rule = rule := by simpa using he
    exact ⟨hsite, hf⟩
  · rintro ⟨hs, hf⟩
    have hr := (admits_of_mem_sites h hs).rule
    refine ⟨s.rule, hr, List.mem_map.2 ⟨s.receiver, List.mem_filter.2 ⟨?_, hf⟩, rfl⟩⟩
    rw [receivers_eq h hr]
    exact List.mem_map_of_mem (List.mem_filter.2 ⟨hs, by simp⟩)

theorem admits_of_mem_flaggedCalls (h : rules.WellFormed) {t : Text} {s : Site}
    (hs : s ∈ rules.flaggedCalls flagged t) : rules.Admits s :=
  admits_of_mem_sites h ((mem_flaggedCalls h).1 hs).1

theorem receivers_stretch (h : rules.WellFormed) {rule : Rule} (hr : rule ∈ rules.rules) {x : Text}
    (t : Text) (hx : '(' ∉ x) : receivers rule.method (x ++ '(' :: t) =
      ((rules.siteOf? x).toList.filter fun s => s.rule = rule).map Site.receiver ++
        receivers rule.method t := by
  rw [receivers_eq h hr, receivers_eq h hr, sites_append h t hx, List.filter_append, List.map_append]

/-- A stretch has no flagged call, or it has one. -/
theorem flagged_cases (rules : RuleSet) (flagged : Text → Bool) (x : Text) :
    (∀ s, rules.siteOf? x = some s → flagged s.receiver = false) ∨
      ∃ s, rules.siteOf? x = some s ∧ flagged s.receiver = true := by
  cases hs : rules.siteOf? x with
  | none => exact Or.inl (by simp)
  | some s => cases hf : flagged s.receiver <;> simp [hf]

/-- A stretch without a flagged call leaves the rewrites of the line as they are. -/
theorem flaggedCalls_skip (h : rules.WellFormed) {x : Text} (t : Text) (hx : '(' ∉ x)
    (hskip : ∀ s, rules.siteOf? x = some s → flagged s.receiver = false) :
    rules.flaggedCalls flagged (x ++ '(' :: t) = rules.flaggedCalls flagged t := by
  rw [flaggedCalls, flaggedCalls]
  apply List.flatMap_congr
  intro rule hr
  rw [receivers_stretch h hr t hx, List.filter_append]
  have hnil : (((rules.siteOf? x).toList.filter fun s => s.rule = rule).map Site.receiver).filter
      flagged = [] := by
    rw [List.filter_eq_nil_iff]
    intro v hv
    obtain ⟨s, hs, rfl⟩ := List.mem_map.1 hv
    simp [hskip s (Option.mem_toList.1 (List.mem_filter.1 hs).1)]
  rw [hnil, List.nil_append]

/-- A stretch with a flagged call adds its rewrite before those of the same rule, and the rewrites that
come earlier pass it. -/
theorem flaggedCalls_insert (h : rules.WellFormed) {x : Text} (t : Text) (hx : '(' ∉ x) {s : Site}
    (hs : rules.siteOf? x = some s) (hf : flagged s.receiver = true) :
    ∃ before after, rules.flaggedCalls flagged t = before ++ after ∧
      rules.flaggedCalls flagged (x ++ '(' :: t) = before ++ s :: after ∧
        ∀ a ∈ before, ∀ c, rules.siteOf? x = some c → ¬ a.Hits c := by
  obtain ⟨rs, rs', hrs⟩ := List.append_of_mem (siteOf?_eq_some hs).1
  have hne {rule : Rule} (hr : rule ∈ rs ∨ rule ∈ rs') : rule ∈ rules.rules ∧ s.rule ≠ rule := by
    have hn := h.nodup.of_map
    rw [hrs, List.nodup_middle, List.nodup_cons] at hn
    constructor
    · rw [hrs]
      rcases hr with hr | hr <;> simp [hr]
    · rintro rfl
      exact hn.1 (List.mem_append.2 hr)
  let calls (line : Text) (rule : Rule) : List Site :=
    ((receivers rule.method line).filter flagged).map (⟨·, rule⟩)
  have hother {rule : Rule} (hr : rule ∈ rs ∨ rule ∈ rs') :
      calls (x ++ '(' :: t) rule = calls t rule := by
    simp only [calls]
    rw [receivers_stretch h (hne hr).1 t hx, hs]
    simp [(hne hr).2]
  have hown : calls (x ++ '(' :: t) s.rule = s :: calls t s.rule := by
    simp only [calls]
    rw [receivers_stretch h (siteOf?_eq_some hs).1 t hx, hs]
    simp [hf]
  refine ⟨rs.flatMap (calls t), calls t s.rule ++ rs'.flatMap (calls t), ?_, ?_, ?_⟩
  · rw [flaggedCalls, hrs, List.flatMap_append, List.flatMap_cons]
  · rw [flaggedCalls, hrs, List.flatMap_append, List.flatMap_cons]
    change rs.flatMap (calls _) ++ (calls _ s.rule ++ rs'.flatMap (calls _)) = _
    rw [List.flatMap_congr fun r hr => hother (Or.inl hr),
      List.flatMap_congr fun r hr => hother (Or.inr hr), hown, List.cons_append]
  · intro a ha c hc hh
    obtain ⟨rule, hr, hm⟩ := List.mem_flatMap.1 ha
    obtain ⟨v, -, rfl⟩ := List.mem_map.1 hm
    obtain rfl := Option.some.inj (hs.symm.trans hc)
    exact (hne (Or.inl hr)).2 hh.1

end RuleSet
end GuardedCalls
