import GuardedCalls.Proofs.Rewrite.Applied
import GuardedCalls.Proofs.Rewrite.Standing
import GuardedCalls.Proofs.Rewrite.Substitution

/-! Whether the calls that a rewrite puts into a text call a free function. Only the receiver is moved
behind the helper; what stands before the receiver stays and then stands before the helper. -/

namespace GuardedCalls

/-- Whether a name that follows is neither the rest of a longer name nor a member of something. -/
def Text.isDetached (before : Text) : Bool :=
  !before.getLast?.any fun c => isIdentChar c || c = '.'

namespace Site

/-- Where the text of a call is found on a line, told by the parentheses that precede it: no rewrite
changes their number. -/
def place? (s : Site) (line : Text) : Option Nat :=
  (Text.cut? s.text line).map fun parts => parts.1.count '('

/-- The last of some rewrites that has put its call at a place of the line. -/
def putAt? : List Site → Text → Nat → Option Site
  | [], _, _ => none
  | s :: ss, line, k =>
    (putAt? ss (s.rewriteIn line) k).or (if s.place? line = some k then some s else none)

/-- At a place of the line stands a rewritten call, and nothing leads up to its helper. -/
def StandsFree (s : Site) (line : Text) (k : Nat) : Prop :=
  ∃ before after, line = before ++ s.guarded ++ after ∧ before.count '(' = k ∧
    before.isDetached = true

/-- The calls that rewrites put into a line all stand free in the end. -/
def AllFree (ss : List Site) (line : Text) : Prop :=
  ∀ k s, putAt? ss line k = some s → s.StandsFree (rewriteAll ss line) k

end Site

namespace RuleSet

/-- The flagged calls of a line stand free before they are rewritten. -/
def StartsFree (rules : RuleSet) (flagged : Text → Bool) (line : Text) : Prop :=
  ∀ i < line.length, (rules.flaggedAt? flagged line i).isSome = true →
    Text.isDetached (line.take i) = true

instance (rules : RuleSet) (flagged : Text → Bool) (line : Text) :
    Decidable (rules.StartsFree flagged line) :=
  inferInstanceAs (Decidable (∀ i < line.length, (rules.flaggedAt? flagged line i).isSome = true →
    Text.isDetached (line.take i) = true))

end RuleSet

theorem Text.isDetached_append_cons {c : Char} (p b : Text) (hc : isIdentChar c = false)
    (hp : c ≠ '.') : isDetached (p ++ c :: b) = isDetached b := by
  rw [isDetached, isDetached]
  cases b with
  | nil => simp [hc, hp]
  | cons d b => simp [List.getLast?_cons]

theorem Text.isDetached_concat {c : Char} (b : Text) :
    isDetached (b ++ [c]) = !(isIdentChar c || c = '.') := by
  simp [isDetached]

variable {rules : RuleSet} {s : Site}

namespace Site

theorem place?_pass (hs : rules.Admits s) (h : rules.WellFormed) {x : Text} (t : Text)
    (hx : '(' ∉ x) (hpass : ∀ a, rules.siteOf? x = some a → ¬ s.Hits a) :
    s.place? (x ++ '(' :: t) = (s.place? t).map (· + 1) := by
  rw [place?, place?, text_eq, Text.cut?_append_closing (hs.paren_notMem h) hx,
    if_neg ((hs.not_suffix_iff h).2 hpass), Option.map_map, Option.map_map]
  congr 1
  funext parts
  simp [List.count_eq_zero.2 hx]

theorem place?_hit (hs : rules.Admits s) (h : rules.WellFormed) {b : Text} (t : Text)
    (hb : '(' ∉ b) : s.place? (b ++ s.text ++ t) = some 0 := by
  rw [append_text, place?, text_eq, Text.cut?_append_closing (hs.paren_notMem h)
    (hs.paren_notMem_append h hb), if_pos (List.suffix_append _ _)]
  simp [List.count_eq_zero.2 hb]

theorem place?_of_notMem (s : Site) {t : Text} (ht : '(' ∉ t) : s.place? t = none := by
  rw [place?, text_eq, Text.cut?_eq_none_of_notMem ht]
  rfl

theorem place?_append_cons (hs : rules.Admits s) (h : rules.WellFormed) {c : Char} {p : Text}
    (t : Text) (hpp : '(' ∉ p) (hc : Text.isIdentChar c = false) (hp : c ≠ '.') (hpc : c ≠ '(') :
    s.place? (p ++ c :: t) = s.place? t := by
  have hfront (x : Text) (hx : '(' ∉ x) : '(' ∉ p ++ c :: x := by simp [hpp, hx, hpc.symm]
  have hassoc (x u : Text) : p ++ c :: (x ++ u) = (p ++ c :: x) ++ u := by simp
  cases t using Text.closing_induction '(' with
  | last x hx => rw [place?_of_notMem s hx, place?_of_notMem s (hfront _ hx)]
  | stretch x t hx =>
    obtain ⟨b, rfl, hb⟩ | hpass := hs.stretch_cases h hx
    · rw [← append_text, place?_hit hs h t hb, List.append_assoc, hassoc, ← List.append_assoc,
        place?_hit hs h t (hfront b hb)]
    · rw [hassoc, place?_pass hs h t (hfront x hx)
        (RuleSet.siteOf?_append_cons h p x hc hp ▸ hpass), place?_pass hs h t hx hpass]

theorem putAt?_pass (h : rules.WellFormed) {ss : List Site} (hss : ∀ s ∈ ss, rules.Admits s)
    {x : Text} (t : Text) (hx : '(' ∉ x)
    (hpass : ∀ s ∈ ss, ∀ a, rules.siteOf? x = some a → ¬ s.Hits a) :
    putAt? ss (x ++ '(' :: t) 0 = none ∧ ∀ k, putAt? ss (x ++ '(' :: t) (k + 1) = putAt? ss t k := by
  induction ss generalizing t with
  | nil => exact ⟨rfl, fun _ => rfl⟩
  | cons s ss ih =>
    have hs := hss s List.mem_cons_self
    have hrest := ih (fun a ha => hss a (List.mem_cons_of_mem s ha)) (s.rewriteIn t)
      fun a ha => hpass a (List.mem_cons_of_mem s ha)
    have hplace := place?_pass hs h t hx (hpass s List.mem_cons_self)
    simp only [putAt?, rewriteIn_pass hs h t hx (hpass s List.mem_cons_self), hrest, hplace]
    constructor
    · cases s.place? t <;> simp
    · intro k
      cases s.place? t <;> simp

theorem putAt?_append_cons (h : rules.WellFormed) {ss : List Site}
    (hss : ∀ s ∈ ss, rules.Admits s) {c : Char} {p : Text} (t : Text) (hpp : '(' ∉ p)
    (hc : Text.isIdentChar c = false) (hp : c ≠ '.') (hpc : c ≠ '(') (k : Nat) :
    putAt? ss (p ++ c :: t) k = putAt? ss t k := by
  induction ss generalizing t with
  | nil => rfl
  | cons s ss ih =>
    have hs := hss s List.mem_cons_self
    rw [putAt?, putAt?, rewriteIn_append_cons hs h t hpp hc hp hpc,
      place?_append_cons hs h t hpp hc hp hpc, ih fun a ha => hss a (List.mem_cons_of_mem s ha)]

theorem putAt?_append (ss ss' : List Site) (line : Text) (k : Nat) :
    putAt? (ss ++ ss') line k = (putAt? ss' (rewriteAll ss line) k).or (putAt? ss line k) := by
  induction ss generalizing line with
  | nil => simp [putAt?, rewriteAll]
  | cons s ss ih =>
    rw [List.cons_append, putAt?, putAt?, ih, Option.or_assoc]
    rfl

/-- A rewritten call at the first parenthesis, the helper being told by what precedes it. -/
theorem standsFree_zero (h : rules.WellFormed) (hs : rules.Admits s) {x : Text} (t : Text)
    (hx : '(' ∉ x) : s.StandsFree (x ++ '(' :: t) 0 ↔
      ∃ b, x = b ++ s.rule.helper ∧ b.isDetached = true ∧ s.receiver ++ ", ".toList <+: t := by
  constructor
  · rintro ⟨b, after, hline, hcount, hb⟩
    have hparen := hs.paren_notMem_helper h (List.count_eq_zero.1 hcount)
    have hguarded : b ++ s.guarded ++ after =
        (b ++ s.rule.helper) ++ '(' :: (s.receiver ++ ", ".toList ++ after) := by simp [guarded]
    obtain ⟨rfl, rfl⟩ := (Text.append_closing_inj hx hparen).1 (hline.trans hguarded)
    exact ⟨b, rfl, hb, List.prefix_append _ _⟩
  · rintro ⟨b, rfl, hb, after, rfl⟩
    refine ⟨b, after, by simp [guarded], ?_, hb⟩
    exact List.count_eq_zero.2 fun hm => hx (List.mem_append_left _ hm)

theorem standsFree_succ {x : Text} (t : Text) (hx : '(' ∉ x) (k : Nat) :
    s.StandsFree (x ++ '(' :: t) (k + 1) ↔ s.StandsFree t k := by
  have hdetached (b : Text) : (x ++ '(' :: b).isDetached = b.isDetached :=
    Text.isDetached_append_cons x b (by decide) (by decide)
  have hcount (b : Text) : (x ++ '(' :: b).count '(' = b.count '(' + 1 := by
    simp [List.count_eq_zero.2 hx]
  constructor
  · rintro ⟨b, after, hline, hk, hb⟩
    have hmem : '(' ∈ b := List.count_pos_iff.1 (by omega)
    obtain ⟨y, b, rfl, hy⟩ := List.eq_append_cons_of_mem hmem
    rw [List.append_assoc, List.append_assoc, List.cons_append] at hline
    obtain ⟨rfl, rfl⟩ := (Text.append_closing_inj hx hy).1 hline
    rw [hcount] at hk
    exact ⟨b, after, by simp, by omega, (hdetached b).symm.trans hb⟩
  · rintro ⟨b, after, rfl, hk, hb⟩
    exact ⟨x ++ '(' :: b, after, by simp, by rw [hcount, hk], (hdetached b).trans hb⟩

theorem standsFree_of_notMem {t : Text} (ht : '(' ∉ t) (k : Nat) : ¬ s.StandsFree t k := by
  rintro ⟨b, after, rfl, -, -⟩
  exact ht (by simp [guarded])

theorem standsFree_append_cons (h : rules.WellFormed) (hs : rules.Admits s) {c : Char} {p : Text}
    (t : Text) (hpp : '(' ∉ p) (hc : Text.isIdentChar c = false) (hp : c ≠ '.') (hpc : c ≠ '(')
    (k : Nat) : s.StandsFree (p ++ c :: t) k ↔ s.StandsFree t k := by
  cases t using Text.closing_induction '(' with
  | last x hx =>
    exact iff_of_false (standsFree_of_notMem (by simp [hpp, hx, hpc.symm]) k)
      (standsFree_of_notMem hx k)
  | stretch x t hx =>
    have hx' : '(' ∉ p ++ c :: x := by simp [hpp, hx, hpc.symm]
    have hline : p ++ c :: (x ++ '(' :: t) = (p ++ c :: x) ++ '(' :: t := by simp
    rw [hline]
    cases k with
    | succ k => rw [standsFree_succ t hx', standsFree_succ t hx]
    | zero =>
      rw [standsFree_zero h hs t hx', standsFree_zero h hs t hx]
      constructor
      · rintro ⟨b, hb, hfree, ht⟩
        obtain ⟨b', rfl⟩ := (Call.suffix_append_cons (h.notMem_helper hs.rule hc)).1 ⟨b, hb.symm⟩
        obtain rfl : p ++ c :: b' = b :=
          List.append_cancel_right (by rw [List.append_assoc, List.cons_append, hb])
        exact ⟨b', rfl, (Text.isDetached_append_cons p b' hc hp).symm.trans hfree, ht⟩
      · rintro ⟨b, rfl, hfree, ht⟩
        exact ⟨p ++ c :: b, by simp, (Text.isDetached_append_cons p b hc hp).trans hfree, ht⟩

/-- The calls put after a rewritten call are those of the line after it. -/
theorem standsFree_guarded_succ (h : rules.WellFormed) (hs : rules.Admits s) {a : Site}
    (ha : rules.Admits a) {b : Text} (t : Text) (hb : '(' ∉ b) (k : Nat) :
    a.StandsFree (b ++ s.guarded ++ t) (k + 1) ↔ a.StandsFree t k := by
  rw [guarded_append, standsFree_succ _ (hs.paren_notMem_helper h hb),
    standsFree_append_cons h ha t hs.paren_notMem_receiver (by decide) (by decide) (by decide)]

theorem standsFree_guarded_zero (h : rules.WellFormed) (hs : rules.Admits s) {b : Text} (t : Text)
    (hb : '(' ∉ b) : s.StandsFree (b ++ s.guarded ++ t) 0 ↔ b.isDetached = true := by
  have hprefix : s.receiver ++ ", ".toList <+: (s.receiver ++ [',']) ++ ' ' :: t := ⟨t, by simp⟩
  rw [guarded_append, standsFree_zero h hs _ (hs.paren_notMem_helper h hb)]
  constructor
  · rintro ⟨b', hb', hfree, -⟩
    rwa [List.append_cancel_right hb']
  · exact fun hfree => ⟨b, rfl, hfree, hprefix⟩

/-- Rewrites that pass a stretch put nothing there. -/
theorem allFree_pass (h : rules.WellFormed) {ss : List Site} (hss : ∀ s ∈ ss, rules.Admits s)
    {x : Text} (t : Text) (hx : '(' ∉ x)
    (hpass : ∀ s ∈ ss, ∀ a, rules.siteOf? x = some a → ¬ s.Hits a) :
    AllFree ss (x ++ '(' :: t) ↔ AllFree ss t := by
  obtain ⟨hzero, hsucc⟩ := putAt?_pass h hss t hx hpass
  rw [AllFree, rewriteAll_pass h hss t hx hpass]
  constructor
  · intro hfree k s hk
    exact (standsFree_succ _ hx k).1 (hfree (k + 1) s ((hsucc k).trans hk))
  · intro hfree k s hk
    cases k with
    | zero => simp [hzero] at hk
    | succ k => exact (standsFree_succ _ hx k).2 (hfree k s ((hsucc k).symm.trans hk))

theorem mem_of_putAt? {ss : List Site} {line : Text} {k : Nat} (hk : putAt? ss line k = some s) :
    s ∈ ss := by
  induction ss generalizing line with
  | nil => simp [putAt?] at hk
  | cons a ss ih =>
    rw [putAt?, Option.or_eq_some_iff] at hk
    rcases hk with hk | ⟨-, hk⟩
    · exact List.mem_cons_of_mem a (ih hk)
    · split at hk
      · exact Option.some.inj hk ▸ List.mem_cons_self
      · contradiction

/-- The rewrite that takes a stretch puts its call there. -/
theorem putAt?_taken (h : rules.WellFormed) {before after : List Site}
    (hss : ∀ a ∈ before ++ after, rules.Admits a) (hs : rules.Admits s) {b : Text} (t : Text)
    (hb : '(' ∉ b) (hpass : ∀ a ∈ before, ∀ c,
      rules.siteOf? (b ++ (s.receiver ++ '.' :: s.rule.method)) = some c → ¬ a.Hits c)
    (hnone : rules.siteOf? (b ++ s.rule.helper) = none) :
    putAt? (before ++ s :: after) (b ++ s.text ++ t) 0 = some s ∧
    ∀ k, putAt? (before ++ s :: after) (b ++ s.text ++ t) (k + 1) = putAt? (before ++ after) t k := by
  obtain ⟨hbefore, hafter⟩ := List.forall_mem_append.1 hss
  have hx := hs.paren_notMem_append h hb
  have hall : rewriteAll before (b ++ s.text ++ t) = b ++ s.text ++ rewriteAll before t := by
    rw [append_text, rewriteAll_pass h hbefore t hx hpass, ← append_text]
  have hhit := rewriteIn_hit hs h (rewriteAll before t) hb
  have hplace := place?_hit hs h (rewriteAll before t) hb
  have hfront := putAt?_pass h hbefore t hx hpass
  rw [← append_text] at hfront
  have hback := putAt?_pass h hafter ((s.receiver ++ [',']) ++ ' ' :: rewriteAll before t)
    (hs.paren_notMem_helper h hb) (by simp [hnone])
  rw [← guarded_append] at hback
  have hrest (k : Nat) := putAt?_append_cons h hafter (rewriteAll before t)
    hs.paren_notMem_receiver (c := ' ') (by decide) (by decide) (by decide) k
  constructor
  · rw [putAt?_append, hall, putAt?, hhit, hback.1, hplace]
    simp
  · intro k
    rw [putAt?_append, hall, putAt?, hhit, hback.2, hrest, hplace, hfront.2, putAt?_append]
    simp

theorem allFree_taken (h : rules.WellFormed) {before after : List Site}
    (hss : ∀ a ∈ before ++ after, rules.Admits a) (hs : rules.Admits s) {b : Text} (t : Text)
    (hb : '(' ∉ b) (hpass : ∀ a ∈ before, ∀ c,
      rules.siteOf? (b ++ (s.receiver ++ '.' :: s.rule.method)) = some c → ¬ a.Hits c)
    (hnone : rules.siteOf? (b ++ s.rule.helper) = none) :
    AllFree (before ++ s :: after) (b ++ s.text ++ t) ↔
      b.isDetached = true ∧ AllFree (before ++ after) t := by
  obtain ⟨hzero, hsucc⟩ := putAt?_taken h hss hs t hb hpass hnone
  rw [AllFree, rewriteAll_taken h hss hs t hb hpass hnone]
  constructor
  · intro hfree
    refine ⟨(standsFree_guarded_zero h hs _ hb).1 (hfree 0 s hzero), fun k a hk => ?_⟩
    exact (standsFree_guarded_succ h hs (hss a (mem_of_putAt? hk)) _ hb k).1
      (hfree (k + 1) a ((hsucc k).trans hk))
  · rintro ⟨hstart, hfree⟩ k a hk
    cases k with
    | zero =>
      obtain rfl : s = a := Option.some.inj (hzero.symm.trans hk)
      exact (standsFree_guarded_zero h hs _ hb).2 hstart
    | succ k =>
      have hk := (hsucc k).symm.trans hk
      exact (standsFree_guarded_succ h hs (hss a (mem_of_putAt? hk)) _ hb k).2 (hfree k a hk)

end Site

namespace RuleSet
variable {flagged : Text → Bool}

/-- A helper that stands free is the end of no method that is called there. -/
theorem siteOf?_helper_detached (h : rules.WellFormed) {rule : Rule} (hr : rule ∈ rules.rules)
    {b : Text} (hb : b.isDetached = true) : rules.siteOf? (b ++ rule.helper) = none := by
  rw [siteOf?_eq_none]
  intro r hrr
  cases hv : Call.receiver? r.method (b ++ rule.helper) with
  | none => rfl
  | some v =>
    obtain ⟨p, hp, -⟩ := Call.receiver?_eq_some.1 hv
    obtain ⟨u, hu, q, rfl⟩ := Call.suffix_append (h.notMem_helper hr (by decide)) ⟨p, hp.symm⟩
    rcases List.eq_nil_or_concat' u with rfl | ⟨u, c, rfl⟩
    · rw [Text.isDetached_concat] at hb
      contradiction
    · have hc : Text.isIdentChar c = true := Text.isIdentChar_of_mem (h.method r hrr) (by simp [hu])
      rw [← List.cons_append, ← List.append_assoc, Text.isDetached_concat, hc] at hb
      contradiction

theorem startsFree_stretch (h : rules.WellFormed) {x : Text} (t : Text) (hx : '(' ∉ x) :
    rules.StartsFree flagged (x ++ '(' :: t) ↔
      (∀ i < (x ++ ['(']).length, (rules.flaggedAt? flagged (x ++ '(' :: t) i).isSome = true →
        Text.isDetached ((x ++ '(' :: t).take i) = true) ∧ rules.StartsFree flagged t := by
  have hlength : (x ++ '(' :: t).length = (x ++ ['(']).length + t.length := by
    rw [← List.length_append, List.append_assoc, List.singleton_append]
  have htake (i : Nat) : Text.isDetached ((x ++ '(' :: t).take ((x ++ ['(']).length + i)) =
      Text.isDetached (t.take i) := by
    have hcut : (x ++ '(' :: t).take ((x ++ ['(']).length + i) = x ++ '(' :: t.take i := by
      rw [List.append_cons x '(' t, List.take_length_add_append, ← List.append_cons]
    rw [hcut, Text.isDetached_append_cons _ _ (by decide) (by decide)]
  constructor
  · refine fun hfree => ⟨fun i hi => hfree i (by omega), fun i hi hsome => ?_⟩
    rw [← htake]
    exact hfree _ (by omega) (by rwa [flaggedAt?_shift h t hx])
  · rintro ⟨hfirst, hrest⟩ i hi hsome
    by_cases hlt : i < (x ++ ['(']).length
    · exact hfirst i hlt hsome
    · obtain ⟨j, rfl⟩ := Nat.exists_eq_add_of_le (Nat.not_lt.1 hlt)
      rw [flaggedAt?_shift h t hx] at hsome
      rw [htake]
      exact hrest j (by omega) hsome

theorem startsFree_skip (h : rules.WellFormed) {x : Text} (t : Text) (hx : '(' ∉ x)
    (hskip : ∀ s, rules.siteOf? x = some s → flagged s.receiver = false) :
    rules.StartsFree flagged (x ++ '(' :: t) ↔ rules.StartsFree flagged t := by
  rw [startsFree_stretch h t hx, and_iff_right]
  intro i hi hsome
  simp [flaggedAt?_skip h t hx hskip hi] at hsome

theorem startsFree_call (h : rules.WellFormed) {b : Text} {s : Site} (t : Text)
    (hs : rules.siteOf? (b ++ (s.receiver ++ '.' :: s.rule.method)) = some s) (hb : '(' ∉ b)
    (hf : flagged s.receiver = true) :
    rules.StartsFree flagged (b ++ (s.receiver ++ '.' :: s.rule.method) ++ '(' :: t) ↔
      b.isDetached = true ∧ rules.StartsFree flagged t := by
  have htext := s.length_text
  have htake : (b ++ s.text ++ t).take b.length = b := by rw [List.append_assoc, List.take_left]
  rw [startsFree_stretch h t ((admits_of_siteOf? hs).paren_notMem_append h hb),
    s.length_stretch, ← s.append_text]
  refine and_congr_left fun _ => ⟨fun hfree => ?_, fun hfree i hi hsome => ?_⟩
  · have hstart := hfree b.length (by omega) (by
      rw [flaggedAt?_call h t hs hb hf (by omega), if_pos rfl]
      rfl)
    rwa [htake] at hstart
  · rw [flaggedAt?_call h t hs hb hf hi] at hsome
    split at hsome
    · next he => rwa [he, htake]
    · contradiction

/-- A call that is found only in the end of a longer receiver does not stand free there. -/
theorem isDetached_of_hits {b x : Text} {s a : Site}
    (hx : x = b ++ (s.receiver ++ '.' :: s.rule.method)) (ha : rules.siteOf? x = some a)
    (hh : s.Hits a) (hne : s.receiver ≠ a.receiver) : b.isDetached = false := by
  obtain ⟨b', rfl, -⟩ := Call.receiver?_split (siteOf?_eq_some ha).2
  obtain ⟨hrule, w, hw⟩ := hh
  have hb : b' ++ w = b := by
    rw [hrule, ← hw] at hx
    simpa [← List.append_assoc] using hx
  have hident := (admits_of_siteOf? ha).receiver
  rcases List.eq_nil_or_concat' w with rfl | ⟨w, c, rfl⟩
  · exact absurd hw hne
  · have hc : Text.isIdentChar c = true := Text.isIdentChar_of_mem hident (by simp [← hw])
    rw [← hb, ← List.append_assoc, Text.isDetached_concat, hc]
    rfl

/-- A stretch that the rewrites of the calls after it pass and that has no flagged call itself. -/
theorem allFree_skip (h : rules.WellFormed) {x : Text} (t : Text) (hx : '(' ∉ x)
    (hskip : ∀ s, rules.siteOf? x = some s → flagged s.receiver = false)
    (hpass : ∀ s ∈ rules.flaggedCalls flagged t, ∀ a, rules.siteOf? x = some a → ¬ s.Hits a) :
    Site.AllFree (rules.flaggedCalls flagged (x ++ '(' :: t)) (x ++ '(' :: t) ↔
      Site.AllFree (rules.flaggedCalls flagged t) t := by
  have hadmits : ∀ s ∈ rules.flaggedCalls flagged t, rules.Admits s := fun s hs =>
    admits_of_mem_flaggedCalls h hs
  rw [flaggedCalls_skip h t hx hskip, Site.allFree_pass h hadmits t hx hpass]

/-- A stretch with a flagged call is taken by the rewrite of that call. -/
theorem allFree_own (h : rules.WellFormed) {s : Site} {b : Text} (t : Text) (hb : '(' ∉ b)
    (hs : rules.siteOf? (b ++ (s.receiver ++ '.' :: s.rule.method)) = some s)
    (hf : flagged s.receiver = true) (hnone : rules.siteOf? (b ++ s.rule.helper) = none) :
    Site.AllFree (rules.flaggedCalls flagged (b ++ (s.receiver ++ '.' :: s.rule.method) ++ '(' :: t))
        (b ++ (s.receiver ++ '.' :: s.rule.method) ++ '(' :: t) ↔
      b.isDetached = true ∧ Site.AllFree (rules.flaggedCalls flagged t) t := by
  have hs' := admits_of_siteOf? hs
  have hx := hs'.paren_notMem_append h hb
  obtain ⟨before, after, hcalls, hinsert, hpass⟩ := flaggedCalls_insert h t hx hs hf
  have hadmits : ∀ a ∈ before ++ after, rules.Admits a := by
    rw [← hcalls]
    exact fun a ha => admits_of_mem_flaggedCalls h ha
  rw [hinsert, ← Site.append_text, Site.allFree_taken h hadmits hs' t hb hpass hnone, hcalls]

/-- The induction is on the stretches. -/
theorem allFree_flaggedCalls (h : rules.WellFormed) {t : Text} (hm : rules.Unmasked flagged t)
    (hstart : rules.StartsFree flagged t) :
    Site.AllFree (rules.flaggedCalls flagged t) t := by
  induction t using Text.closing_induction '(' with
  | last x hx =>
    rw [flaggedCalls_of_notMem rules hx]
    intro k s hk
    contradiction
  | stretch x t hx ih =>
    have htail := ((unmasked_append h t hx).1 hm).2
    obtain hskip | ⟨s, hs, hf⟩ := rules.flagged_cases flagged x
    · rw [allFree_skip h t hx hskip (not_hits_of_unmasked h t hx hskip hm)]
      exact ih htail ((startsFree_skip h t hx hskip).1 hstart)
    · have hs' := admits_of_siteOf? hs
      obtain ⟨b, rfl⟩ := (hs'.suffix_iff h).2 ⟨s, hs, s.hits_self⟩
      have hparen : '(' ∉ b := fun hc => hx (List.mem_append_left _ hc)
      obtain ⟨hb, hrest⟩ := (startsFree_call h t hs hparen hf).1 hstart
      rw [allFree_own h t hparen hs hf (siteOf?_helper_detached h hs'.rule hb)]
      exact ⟨hb, ih htail hrest⟩

/-- The first rewrite that hits an exempt call would put its own into the middle of the receiver. -/
theorem not_hits_of_allFree (h : rules.WellFormed) (hends : rules.HelperEndsNoMethod) {x : Text}
    (t : Text) (hx : '(' ∉ x) {a : Site} (ha : rules.siteOf? x = some a)
    (hf : flagged a.receiver = false)
    (hfree : Site.AllFree (rules.flaggedCalls flagged t) (x ++ '(' :: t)) :
    ∀ s ∈ rules.flaggedCalls flagged t, ¬ s.Hits a := by
  intro s hs hh
  obtain ⟨c, hc⟩ := Option.isSome_iff_exists.1
    (List.find?_isSome.2 ⟨s, hs, by simpa using hh⟩ :
      ((rules.flaggedCalls flagged t).find? fun s => decide (s.Hits a)).isSome)
  obtain ⟨hhit, before, after, hcalls, hbefore⟩ := List.find?_eq_some_iff_append.1 hc
  have hhit : c.Hits a := by simpa using hhit
  have hmem : c ∈ rules.flaggedCalls flagged t := by simp [hcalls]
  obtain ⟨hsite, hflag⟩ := (mem_flaggedCalls h).1 hmem
  have hadmits := admits_of_mem_sites h hsite
  obtain ⟨b, rfl⟩ := (hadmits.suffix_iff h).2 ⟨a, ha, hhit⟩
  have hpass : ∀ d ∈ before, ∀ e, rules.siteOf? (b ++ (c.receiver ++ '.' :: c.rule.method)) =
      some e → ¬ d.Hits e := by
    intro d hd e he
    obtain rfl := Option.some.inj (ha.symm.trans he)
    simpa using hbefore d hd
  have hrest : ∀ d ∈ before ++ after, rules.Admits d := by
    intro d hd
    have hmem : d ∈ rules.flaggedCalls flagged t := by
      rw [hcalls]
      simp only [List.mem_append, List.mem_cons] at hd ⊢
      exact hd.imp_right Or.inr
    exact admits_of_mem_flaggedCalls h hmem
  have hne : c.receiver ≠ a.receiver := by
    intro he
    rw [he, hf] at hflag
    contradiction
  rw [hcalls, ← Site.append_text, Site.allFree_taken h hrest hadmits t
    (fun hm => hx (List.mem_append_left _ hm)) hpass (siteOf?_helper h hends hadmits.rule b),
    isDetached_of_hits rfl ha hhit hne] at hfree
  exact absurd hfree.1 (by decide)

/-- A masked call is put in the middle of the receiver that masks it. -/
theorem unmasked_of_allFree (h : rules.WellFormed) (hends : rules.HelperEndsNoMethod) {t : Text}
    (hfree : Site.AllFree (rules.flaggedCalls flagged t) t) :
    rules.Unmasked flagged t ∧ rules.StartsFree flagged t := by
  induction t using Text.closing_induction '(' with
  | last x hx =>
    refine ⟨by simp [Unmasked, sites_of_notMem rules hx], fun i _ hsome => ?_⟩
    simp [flaggedAt?, siteAt?_of_notMem rules hx] at hsome
  | stretch x t hx ih =>
    rw [unmasked_append h t hx]
    obtain hskip | ⟨s, hs, hf⟩ := rules.flagged_cases flagged x
    · have hpass : ∀ s ∈ rules.flaggedCalls flagged t, ∀ a, rules.siteOf? x = some a →
          ¬ s.Hits a := by
        intro s hs a ha
        rw [flaggedCalls_skip h t hx hskip] at hfree
        exact not_hits_of_allFree h hends t hx ha (hskip a ha) hfree s hs
      obtain ⟨hm, hstart⟩ := ih ((allFree_skip h t hx hskip hpass).1 hfree)
      refine ⟨⟨fun a ha s hs hh hf => ?_, hm⟩, (startsFree_skip h t hx hskip).2 hstart⟩
      exact absurd hh (hpass s ((mem_flaggedCalls h).2 ⟨hs, hf⟩) a ha)
    · have hs' := admits_of_siteOf? hs
      obtain ⟨b, rfl⟩ := (hs'.suffix_iff h).2 ⟨s, hs, s.hits_self⟩
      have hparen : '(' ∉ b := fun hc => hx (List.mem_append_left _ hc)
      rw [allFree_own h t hparen hs hf (siteOf?_helper h hends hs'.rule b)] at hfree
      obtain ⟨hm, hstart⟩ := ih hfree.2
      refine ⟨⟨fun a ha _ _ _ _ => ?_, hm⟩, (startsFree_call h t hs hparen hf).2 ⟨hfree.1, hstart⟩⟩
      obtain rfl := Option.some.inj (hs.symm.trans ha)
      exact hf

/-- With the import taken out, the lines of the result correspond to those of the source. All calls that
are put into a line stand free if its flagged calls did so before and none of them is masked, and unless
a method ends with a helper they do so only then. -/
theorem rewritten_calls_free (hv : rules.isValid = true) (source : Text) :
    ∃ before after, (rules.rewrite source (rules.findings source)).text =
        before ++ (if (rules.rewrite source (rules.findings source)).importAdded then
          rules.importLine source else []) ++ after ∧
      (before ++ after).lines.length = source.lines.length ∧
      ∀ (i : Nat) (line out : Text), source.lines[i]? = some line →
        (before ++ after).lines[i]? = some out →
          let put? := Site.putAt? (rules.flaggedCalls (rules.flags line) line) line
          let asFound := rules.Unmasked (rules.flags line) line ∧
            rules.StartsFree (rules.flags line) line
          (asFound → ∀ k s, put? k = some s → s.StandsFree out k) ∧
            (rules.HelperEndsNoMethod → (∀ k s, put? k = some s → s.StandsFree out k) →
              asFound) := by
  have h := isValid_iff.1 hv
  obtain ⟨before, after, htext, hlength, hlines⟩ := lines_rewrite_findings h source
  refine ⟨before, after, htext, hlength, fun i line out hi ho => ?_⟩
  obtain rfl := hlines i line out hi ho
  exact ⟨fun hfound => allFree_flaggedCalls h hfound.1 hfound.2,
    fun hends hfree => unmasked_of_allFree h hends hfree⟩

/-- One call inside the other, both of them behind other text. -/
theorem rewritten_calls_free_nested :
    let rules : RuleSet := { standard with rules := standardRules.take 1 }
    let line := "f(2+a.map(b.map(g)))".toList
    let site (name : String) : Site := ⟨name.toList, ⟨"map".toList, "safeMap".toList⟩⟩
    ∃ before after, (rules.rewrite line (rules.findings line)).text =
        before ++ (if (rules.rewrite line (rules.findings line)).importAdded then
          rules.importLine line else []) ++ after ∧
      ∀ out, (before ++ after).lines[0]? = some out →
        (site "a").StandsFree out 1 ∧ (site "b").StandsFree out 2 := by
  intro rules line site
  have hv : rules.isValid = true := by decide +kernel
  obtain ⟨before, after, htext, -, hlines⟩ := rewritten_calls_free hv line
  have hline : (Text.lines line)[0]? = some line := by decide +kernel
  refine ⟨before, after, htext, fun out ho => ?_⟩
  have hfree := (hlines 0 line out hline ho).1 (by decide +kernel)
  exact ⟨hfree 1 (site "a") (by decide +kernel), hfree 2 (site "b") (by decide +kernel)⟩

/-- The receiver is the end of a path, and the rest of the path stays before the helper. -/
theorem rewritten_calls_member :
    let rules : RuleSet := { standard with rules := standardRules.take 1 }
    let line := "a.b.map(f)".toList
    let out := "a.safeMap(b, f)".toList
    let site : Site := ⟨"b".toList, ⟨"map".toList, "safeMap".toList⟩⟩
    rules.isValid = true ∧
      (rules.rewrite line (rules.findings line)).text = rules.importLine line ++ out ∧
      Site.putAt? (rules.flaggedCalls (rules.flags line) line) line 0 = some site ∧
      ¬ site.StandsFree out 0 := by
  intro rules line out site
  have hv : rules.isValid = true := by decide +kernel
  have hs : rules.Admits site := ⟨by decide +kernel, by decide +kernel⟩
  have hout : out = "a.".toList ++ site.guarded ++ "f)".toList := by decide +kernel
  refine ⟨hv, by decide +kernel, by decide +kernel, ?_⟩
  rw [hout, Site.standsFree_guarded_zero (isValid_iff.1 hv) hs _ (by decide)]
  decide

end RuleSet
end GuardedCalls
