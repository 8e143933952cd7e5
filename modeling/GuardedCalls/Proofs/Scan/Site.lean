import GuardedCalls.Proofs.Rules.Validation
import GuardedCalls.Proofs.Scan.Stretch

/-! The calls of all rules on a line, from left to right. -/

namespace GuardedCalls
open Text (isIdentifier)

/-- A call of a rule's method. -/
structure Site where
  receiver : Text
  rule : Rule
deriving DecidableEq, Repr

namespace Site

/-- What the scan matches, the parenthesis included. -/
def text (s : Site) : Text :=
  s.receiver ++ Call.opening s.rule.method

/-- What a rewrite puts in its place. -/
def guarded (s : Site) : Text :=
  s.rule.helper ++ '(' :: s.receiver ++ ", ".toList

theorem length_text (s : Site) : s.text.length = s.receiver.length + (s.rule.method.length + 2) := by
  simp [text, Call.opening]

end Site

namespace RuleSet

/-- The calls that a scan with the rules can find. -/
structure Admits (rules : RuleSet) (s : Site) : Prop where
  rule : s.rule ∈ rules.rules
  receiver : isIdentifier s.receiver = true

/-- The call that the scan finds at a column of a line. -/
def siteAt? (rules : RuleSet) (line : Text) (i : Nat) : Option Site :=
  rules.rules.findSome? fun rule =>
    ((Call.on rule.method line).find? (·.column = i)).map fun c => ⟨c.receiver, rule⟩

def sites (rules : RuleSet) (line : Text) : List Site :=
  (List.range line.length).filterMap (rules.siteAt? line)

/-- The call that a stretch ends with, the parenthesis left out. -/
def siteOf? (rules : RuleSet) (x : Text) : Option Site :=
  rules.rules.findSome? fun rule => (Call.receiver? rule.method x).map (⟨·, rule⟩)

theorem siteOf?_eq_none {rules : RuleSet} {x : Text} :
    rules.siteOf? x = none ↔ ∀ rule ∈ rules.rules, Call.receiver? rule.method x = none := by
  simp [siteOf?]

theorem siteOf?_eq_some {rules : RuleSet} {x : Text} {s : Site} (h : rules.siteOf? x = some s) :
    s.rule ∈ rules.rules ∧ Call.receiver? s.rule.method x = some s.receiver := by
  obtain ⟨rule, hr, hs⟩ := List.exists_of_findSome?_eq_some h
  obtain ⟨v, hv, rfl⟩ := Option.map_eq_some_iff.1 hs
  exact ⟨hr, hv⟩

theorem admits_of_siteOf? {rules : RuleSet} {x : Text} {s : Site} (h : rules.siteOf? x = some s) :
    rules.Admits s :=
  ⟨(siteOf?_eq_some h).1, Call.isIdentifier_of_receiver? (siteOf?_eq_some h).2⟩

/-- A stretch that ends with a call, its parts spelled out. -/
theorem siteOf?_split {rules : RuleSet} {x : Text} {s : Site} (h : rules.siteOf? x = some s) :
    ∃ b, x ++ ['('] = b ++ s.text ∧ Text.lastName (b ++ s.receiver) = s.receiver := by
  obtain ⟨b, rfl, hb⟩ := Call.receiver?_split (siteOf?_eq_some h).2
  exact ⟨b, by simp [Site.text, Call.opening], hb⟩

theorem siteOf?_before {rules : RuleSet} {x : Text} {s : Site} (h : rules.siteOf? x = some s) :
    ∃ b, x = b ++ (s.receiver ++ '.' :: s.rule.method) ∧
      Text.lastName (b ++ s.receiver) = s.receiver := by
  obtain ⟨b, rfl, hb⟩ := Call.receiver?_split (siteOf?_eq_some h).2
  exact ⟨b, by simp, hb⟩

end RuleSet

/-- Two methods whose calls end in the same place are the same. -/
theorem Call.method_eq {m n x v w : Text} (hm : Text.isIdentifier m = true)
    (hn : Text.isIdentifier n = true) (h : receiver? m x = some v) (h' : receiver? n x = some w) :
    m = n := by
  obtain ⟨b, rfl, -, -⟩ := receiver?_eq_some.1 h
  obtain ⟨b', he, -, -⟩ := receiver?_eq_some.1 h'
  have hdot {k : Text} (hk : Text.isIdentifier k = true) : '.' ∉ k.reverse := fun hc =>
    Text.notMem_of_isIdentifier hk (by decide) (List.mem_reverse.1 hc)
  have he := congrArg List.reverse he
  simp only [List.reverse_append, List.reverse_cons, List.append_assoc, List.singleton_append] at he
  exact List.reverse_inj.1 ((Text.append_closing_inj (hdot hm) (hdot hn)).1 he).1

namespace RuleSet.WellFormed
variable {rules : RuleSet}

theorem method_noParen (h : rules.WellFormed) {rule : Rule} (hr : rule ∈ rules.rules) :
    '(' ∉ rule.method :=
  Text.notMem_of_isIdentifier (h.method rule hr) (by decide)

/-- A stretch ends with the call of one rule at most. -/
theorem receiver?_iff (h : rules.WellFormed) {x v : Text} {rule : Rule} (hr : rule ∈ rules.rules) :
    Call.receiver? rule.method x = some v ↔ rules.siteOf? x = some ⟨v, rule⟩ := by
  constructor
  · intro hv
    cases hs : rules.siteOf? x with
    | none =>
      rw [siteOf?_eq_none.1 hs rule hr] at hv
      contradiction
    | some s =>
      obtain ⟨hm, hs'⟩ := siteOf?_eq_some hs
      have he := h.rule_eq hm hr (Call.method_eq (h.method _ hm) (h.method _ hr) hs' hv)
      rw [← he] at hv
      rw [hv] at hs'
      rw [← he, Option.some.inj hs']
  · exact fun hs => (siteOf?_eq_some hs).2

theorem site_map_receiver? (h : rules.WellFormed) (x : Text) {rule : Rule} (hr : rule ∈ rules.rules) :
    (Call.receiver? rule.method x).map (⟨·, rule⟩ : Text → Site) =
      (rules.siteOf? x).filter fun s => s.rule = rule := by
  apply Option.ext
  intro s
  rw [Option.map_eq_some_iff, Option.filter_eq_some_iff]
  constructor
  · rintro ⟨v, hv, rfl⟩
    exact ⟨(h.receiver?_iff hr).1 hv, by simp⟩
  · rintro ⟨hs, he⟩
    obtain rfl : s.rule = rule := by simpa using he
    exact ⟨s.receiver, (h.receiver?_iff hr).2 hs, rfl⟩

end RuleSet.WellFormed

theorem Call.onFrom_shift {method : Text} (hm : '(' ∉ method) (i k : Nat) (t : Text) :
    onFrom method (i + k) 0 [] t =
      (onFrom method i 0 [] t).map fun c => ⟨c.column + k, c.receiver⟩ := by
  induction t using Text.closing_induction '(' generalizing i with
  | last x hx => simp [onFrom_of_notMem _ 0 [] hx]
  | stretch x t hx ih =>
    rw [onFrom_append _ x t hm hx, onFrom_append _ x t hm hx, List.map_append, ← ih]
    congr 1
    · rw [ofStretch?, ofStretch?]
      cases h : receiver? method x with
      | none => rfl
      | some v =>
        obtain ⟨b, rfl, -⟩ := receiver?_split h
        simp
        omega
    · congr 1
      omega

/-- The first stretch has its call, if any, and the others have theirs further to the right. -/
theorem Call.on_append {method : Text} (x t : Text) (hm : '(' ∉ method) (hx : '(' ∉ x) :
    on method (x ++ '(' :: t) =
      (ofStretch? method 0 x).toList ++
        (on method t).map fun c => ⟨c.column + (x.length + 1), c.receiver⟩ := by
  rw [on, onFrom_append 0 x t hm hx, on, ← onFrom_shift hm]
  congr 2

theorem Call.on_of_notMem {method t : Text} (ht : '(' ∉ t) : on method t = [] :=
  onFrom_of_notMem 0 0 [] ht

namespace RuleSet

theorem siteAt?_congr (rules : RuleSet) {s t : Text} {i j : Nat}
    (h : ∀ rule ∈ rules.rules,
      ((Call.on rule.method s).find? (·.column = i)).map (⟨·.receiver, rule⟩ : Call → Site) =
        ((Call.on rule.method t).find? (·.column = j)).map (⟨·.receiver, rule⟩ : Call → Site)) :
    rules.siteAt? s i = rules.siteAt? t j := by
  rw [siteAt?, siteAt?, ← List.head?_filterMap, ← List.head?_filterMap, List.filterMap_congr h]

theorem siteAt?_of_notMem (rules : RuleSet) {t : Text} (ht : '(' ∉ t) (i : Nat) :
    rules.siteAt? t i = none := by
  simp [siteAt?, Call.on_of_notMem ht]

variable {rules : RuleSet}

theorem siteAt?_shift (h : rules.WellFormed) {x : Text} (t : Text) (hx : '(' ∉ x) (i : Nat) :
    rules.siteAt? (x ++ '(' :: t) (x.length + 1 + i) = rules.siteAt? t i := by
  apply siteAt?_congr
  intro rule hr
  have hleft : (Call.ofStretch? rule.method 0 x).toList.find?
      (·.column = x.length + 1 + i) = none := by
    rw [List.find?_eq_none]
    intro c hc
    obtain ⟨v, -, rfl⟩ := Option.map_eq_some_iff.1 (Option.mem_toList.1 hc)
    simp
    omega
  have hcol : (fun c : Call => decide (c.column = x.length + 1 + i)) ∘
      (fun c : Call => (⟨c.column + (x.length + 1), c.receiver⟩ : Call)) =
        fun c : Call => decide (c.column = i) := by
    funext c
    simp
    omega
  rw [Call.on_append x t (h.method_noParen hr) hx, List.find?_append, hleft, Option.none_or,
    List.find?_map, hcol, Option.map_map]
  rfl

/-- The column at which the call of a stretch begins. -/
theorem siteAt?_stretch (h : rules.WellFormed) {x : Text} (t : Text) (hx : '(' ∉ x) {i : Nat}
    (hi : i ≤ x.length) :
    rules.siteAt? (x ++ '(' :: t) i =
      (rules.siteOf? x).filter fun s => s.text.length + i = x.length + 1 := by
  have hfind {rule : Rule} (hr : rule ∈ rules.rules) :
      ((Call.on rule.method (x ++ '(' :: t)).find? (·.column = i)).map (Site.mk ·.receiver rule) =
        ((rules.siteOf? x).filter fun s => s.rule = rule).filter
          fun s => s.text.length + i = x.length + 1 := by
    have hright : ((Call.on rule.method t).map fun c =>
        (⟨c.column + (x.length + 1), c.receiver⟩ : Call)).find? (·.column = i) = none := by
      rw [List.find?_eq_none]
      intro c hc
      obtain ⟨c, -, rfl⟩ := List.mem_map.1 hc
      simp
      omega
    rw [← h.site_map_receiver? x hr, Call.on_append x t (h.method_noParen hr) hx,
      List.find?_append, hright, Option.or_none, Call.ofStretch?]
    cases hv : Call.receiver? rule.method x with
    | none => rfl
    | some v =>
      obtain ⟨b, rfl, -⟩ := Call.receiver?_split hv
      have hcol : (0 + (b ++ v ++ '.' :: rule.method).length - (rule.method.length + 1) - v.length
          = i) ↔ (v.length + (rule.method.length + 2) + i =
            (b ++ v ++ '.' :: rule.method).length + 1) := by
        simp
        omega
      simp only [Option.map_some, Option.toList_some, List.find?_singleton, hcol,
        Option.filter_some, Site.length_text]
      split <;> simp
  cases hf : rules.siteAt? (x ++ '(' :: t) i with
  | none =>
    have hnone := List.findSome?_eq_none_iff.1 hf
    cases hs : rules.siteOf? x with
    | none => rfl
    | some s =>
      have := hnone s.rule (siteOf?_eq_some hs).1
      rw [hfind (siteOf?_eq_some hs).1, hs] at this
      by_cases hp : s.text.length + i = x.length + 1
      · simp [hp] at this
      · rw [Option.filter_some, if_neg (by simpa using hp)]
  | some s =>
    obtain ⟨rule, hr, hs⟩ := List.exists_of_findSome?_eq_some hf
    rw [hfind hr, Option.filter_eq_some_iff, Option.filter_eq_some_iff] at hs
    rw [hs.1.1, Option.filter_some, if_pos hs.2]

theorem filterMap_range_single (s : Site) (k n : Nat) :
    (List.range n).filterMap (fun i => if i = k then some s else none) =
      if k < n then [s] else [] := by
  induction n with
  | zero => rfl
  | succ n ih =>
    rw [List.range_succ, List.filterMap_append, ih]
    rcases Nat.lt_trichotomy n k with hk | rfl | hk
    · simp [Nat.ne_of_lt hk, Nat.not_lt.2 (Nat.le_of_lt hk), Nat.not_lt.2 hk]
    · simp
    · simp [Nat.ne_of_gt hk, hk, Nat.lt_succ_of_lt hk]

/-- Everything about the calls of a line follows from this equation and the next one. -/
theorem sites_append (h : rules.WellFormed) {x : Text} (t : Text) (hx : '(' ∉ x) :
    rules.sites (x ++ '(' :: t) = (rules.siteOf? x).toList ++ rules.sites t := by
  have hlen : (x ++ '(' :: t).length = (x.length + 1) + t.length := by
    simp
    omega
  have hright : ((List.range t.length).map (x.length + 1 + ·)).filterMap
      (rules.siteAt? (x ++ '(' :: t)) = rules.sites t := by
    rw [List.filterMap_map, sites]
    congr 1
    funext i
    exact siteAt?_shift h t hx i
  have hleft : (List.range (x.length + 1)).filterMap (rules.siteAt? (x ++ '(' :: t)) =
      (rules.siteOf? x).toList := by
    have hstretch : ∀ i ∈ List.range (x.length + 1), rules.siteAt? (x ++ '(' :: t) i =
        (rules.siteOf? x).filter fun s => s.text.length + i = x.length + 1 := fun i hi =>
      siteAt?_stretch h t hx (by simpa [Nat.lt_succ_iff] using hi)
    rw [List.filterMap_congr hstretch]
    cases hs : rules.siteOf? x with
    | none => simp
    | some s =>
      obtain ⟨b, hb, -⟩ := siteOf?_split hs
      have hl := congrArg List.length hb
      rw [List.length_append, List.length_append, List.length_singleton] at hl
      have hcol (i : Nat) : (some s).filter (fun s => s.text.length + i = x.length + 1) =
          if i = x.length + 1 - s.text.length then some s else none := by
        rw [Option.filter_some]
        congr 1
        simp
        omega
      simp only [hcol]
      rw [filterMap_range_single, if_pos (by have := s.length_text; omega)]
      rfl
  rw [sites, hlen, List.range_add, List.filterMap_append, hleft, hright]

theorem sites_of_notMem (rules : RuleSet) {t : Text} (ht : '(' ∉ t) : rules.sites t = [] := by
  simp [sites, siteAt?_of_notMem rules ht]

/-- What follows the last parenthesis has no call. -/
theorem sites_append_of_notMem (h : rules.WellFormed) (t : Text) {e : Text} (he : '(' ∉ e) :
    rules.sites (t ++ e) = rules.sites t := by
  induction t using Text.closing_induction '(' with
  | last x hx =>
    rw [sites_of_notMem rules hx, sites_of_notMem rules (by simp [hx, he])]
  | stretch x t hx ih =>
    rw [List.append_assoc, List.cons_append, sites_append h _ hx, sites_append h _ hx, ih]

theorem siteOf?_append_cons (h : rules.WellFormed) {c : Char} (p x : Text)
    (hc : Text.isIdentChar c = false) (hp : c ≠ '.') :
    rules.siteOf? (p ++ c :: x) = rules.siteOf? x := by
  rw [siteOf?, siteOf?, ← List.head?_filterMap, ← List.head?_filterMap]
  congr 1
  apply List.filterMap_congr
  intro rule hr
  rw [Call.receiver?_append_cons p x (h.method rule hr) hc hp]

/-- A text that ends with a character of no call, put before a line, adds no call. -/
theorem sites_append_cons (h : rules.WellFormed) {c : Char} {p : Text} (t : Text) (hpp : '(' ∉ p)
    (hc : Text.isIdentChar c = false) (hp : c ≠ '.') (hpc : c ≠ '(') :
    rules.sites (p ++ c :: t) = rules.sites t := by
  induction t using Text.closing_induction '(' with
  | last x hx =>
    rw [sites_of_notMem rules hx, sites_of_notMem rules (by simp [hpp, hx, hpc.symm])]
  | stretch x t hx ih =>
    have hx' : '(' ∉ p ++ c :: x := by simp [hpp, hx, hpc.symm]
    rw [show p ++ c :: (x ++ '(' :: t) = (p ++ c :: x) ++ '(' :: t from by simp,
      sites_append h _ hx', sites_append h _ hx, siteOf?_append_cons h p x hc hp]

/-- A character that belongs to no call separates the calls before it from those behind it. -/
theorem sites_append_closing (h : rules.WellFormed) {c : Char} (u t : Text)
    (hc : Text.isIdentChar c = false) (hp : c ≠ '.') (hpc : c ≠ '(') :
    rules.sites (u ++ c :: t) = rules.sites u ++ rules.sites t := by
  induction u using Text.closing_induction '(' with
  | last x hx => rw [sites_append_cons h t hx hc hp hpc, sites_of_notMem rules hx, List.nil_append]
  | stretch x u hx ih =>
    rw [List.append_assoc, List.cons_append, sites_append h _ hx, sites_append h _ hx, ih,
      List.append_assoc]

/-- The calls of one method are those among all calls that have its rule. -/
theorem receivers_eq (h : rules.WellFormed) {rule : Rule} (hr : rule ∈ rules.rules) (t : Text) :
    receivers rule.method t =
      ((rules.sites t).filter fun s => s.rule = rule).map Site.receiver := by
  induction t using Text.closing_induction '(' with
  | last x hx => rw [receivers_of_notMem hx, sites_of_notMem rules hx]; rfl
  | stretch x t hx ih =>
    rw [receivers_append x t (h.method_noParen hr) hx, sites_append h t hx, List.filter_append,
      List.map_append, ih]
    congr 1
    have hmap := congrArg (Option.map Site.receiver) (h.site_map_receiver? x hr)
    rw [Option.map_map] at hmap
    have hid : Option.map (Site.receiver ∘ (⟨·, rule⟩ : Text → Site)) (Call.receiver? rule.method x) =
        Call.receiver? rule.method x := by
      cases Call.receiver? rule.method x <;> rfl
    rw [hid] at hmap
    rw [hmap]
    cases rules.siteOf? x with
    | none => rfl
    | some s => by_cases hs : s.rule = rule <;> simp [hs]

theorem admits_of_mem_sites (h : rules.WellFormed) {t : Text} {s : Site} (hs : s ∈ rules.sites t) :
    rules.Admits s := by
  induction t using Text.closing_induction '(' with
  | last x hx =>
    rw [sites_of_notMem rules hx] at hs
    contradiction
  | stretch x t hx ih =>
    rw [sites_append h t hx, List.mem_append, Option.mem_toList] at hs
    rcases hs with hs | hs
    · exact admits_of_siteOf? hs
    · exact ih hs

end RuleSet
end GuardedCalls
