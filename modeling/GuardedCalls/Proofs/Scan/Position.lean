import GuardedCalls.Proofs.Scan.Receiver
import GuardedCalls.Scan.Source

/-! What a scan reports: the calls of a text whose receivers are not exempt, each once and in the
order of their positions. -/

namespace GuardedCalls

/-- Where the opening of a call stands: the line counted from one, the index of the rule and the
column. -/
structure Position where
  line : Nat
  rule : Nat
  column : Nat
deriving DecidableEq, Repr

namespace Position

/-- By line, then by rule, then by column. -/
def Before (p q : Position) : Prop :=
  p.line < q.line ∨ p.line = q.line ∧
    (p.rule < q.rule ∨ p.rule = q.rule ∧ p.column < q.column)

end Position

theorem pairwise_zipIdx {α : Type} (xs : List α) (k : Nat) :
    (xs.zipIdx k).Pairwise fun a b => a.2 < b.2 := by
  have h : ((xs.zipIdx k).map Prod.snd).Pairwise (· < ·) := by
    rw [List.zipIdx_map_snd]
    exact List.pairwise_lt_range'
  exact List.pairwise_map.1 h

namespace RuleSet

/-- At `p` stands a call of `rule` on `line` with the receiver `v`, which is not exempt. -/
structure CallsAt (rules : RuleSet) (source : Text) (p : Position) (line : Text) (rule : Rule)
    (v : Text) : Prop where
  onLine : (line, p.line) ∈ source.lines.zipIdx 1
  ofRule : (rule, p.rule) ∈ rules.rules.zipIdx
  opens : p.column ∈ Text.columns (Call.opening rule.method) line
  named : Text.name? (line.take p.column) = some v
  notExempt : isExempt rules.exempt v line = false

variable {rules : RuleSet}

/-- The finding for the opening of a call at a column. -/
def findingAt? (rules : RuleSet) (n : Nat) (line : Text) (rule : Rule) (i : Nat) : Option Finding :=
  ((Text.name? (line.take i)).filter fun v => !isExempt rules.exempt v line).map fun v =>
    ⟨n, rule.method, v, line.trim⟩

/-- The positions on a line at which a rule finds a call, each with its finding. -/
def locatedOf (rules : RuleSet) (n : Nat) (line : Text) (k : Nat) (rule : Rule) :
    List (Position × Finding) :=
  (Text.columns (Call.opening rule.method) line).filterMap fun i =>
    (rules.findingAt? n line rule i).map fun f => (⟨n, k, i⟩, f)

def located (rules : RuleSet) (source : Text) : List (Position × Finding) :=
  (source.lines.zipIdx 1).flatMap fun (line, n) =>
    rules.rules.zipIdx.flatMap fun (rule, k) => rules.locatedOf n line k rule

theorem findingAt?_eq_some {n i : Nat} {line : Text} {rule : Rule} {f : Finding} :
    rules.findingAt? n line rule i = some f ↔ ∃ v, Text.name? (line.take i) = some v ∧
      isExempt rules.exempt v line = false ∧ f = ⟨n, rule.method, v, line.trim⟩ := by
  rw [findingAt?, Option.map_eq_some_iff]
  simp only [Option.filter_eq_some_iff, and_assoc, Bool.not_eq_true', eq_comm (a := f)]

theorem mem_locatedOf {n k : Nat} {line : Text} {rule : Rule} {p : Position} {f : Finding} :
    (p, f) ∈ rules.locatedOf n line k rule ↔ p.line = n ∧ p.rule = k ∧
      p.column ∈ Text.columns (Call.opening rule.method) line ∧
        rules.findingAt? n line rule p.column = some f := by
  simp only [locatedOf, List.mem_filterMap, Option.map_eq_some_iff, Prod.mk.injEq]
  constructor
  · rintro ⟨i, hi, g, hg, rfl, rfl⟩
    exact ⟨rfl, rfl, hi, hg⟩
  · rintro ⟨rfl, rfl, hi, hf⟩
    exact ⟨p.column, hi, f, hf, rfl, rfl⟩

theorem mem_located {source : Text} {p : Position} {f : Finding} :
    (p, f) ∈ rules.located source ↔ ∃ line rule v, rules.CallsAt source p line rule v ∧
      f = ⟨p.line, rule.method, v, line.trim⟩ := by
  simp only [located, List.mem_flatMap, Prod.exists, mem_locatedOf, findingAt?_eq_some]
  constructor
  · rintro ⟨line, n, hl, rule, k, hr, rfl, rfl, hi, v, hv, he, rfl⟩
    exact ⟨line, rule, v, ⟨hl, hr, hi, hv, he⟩, rfl⟩
  · rintro ⟨line, rule, v, ⟨hl, hr, hi, hv, he⟩, rfl⟩
    exact ⟨line, p.line, hl, rule, p.rule, hr, rfl, rfl, hi, v, hv, he, rfl⟩

theorem findingsOf_eq {n : Nat} {line : Text} {rule : Rule} (hm : '(' ∉ rule.method) (k : Nat) :
    rules.findingsOf n line rule = (rules.locatedOf n line k rule).map Prod.snd := by
  rw [findingsOf, locatedOf, receivers, Call.on_eq_columns hm, List.map_filterMap,
    List.filter_filterMap, List.map_filterMap, List.map_filterMap]
  apply List.filterMap_congr
  intro i _
  simp [findingAt?, Call.openedAt?, Function.comp_def]

theorem findingsOn_eq_locatedOf (h : rules.WellFormed) (n : Nat) (line : Text) :
    rules.findingsOn n line =
      (rules.rules.zipIdx.flatMap fun (rule, k) => rules.locatedOf n line k rule).map Prod.snd := by
  have hrules := List.zipIdx_map_fst 0 rules.rules
  rw [findingsOn, List.map_flatMap]
  conv_lhs => rw [← hrules, List.flatMap_map]
  apply List.flatMap_congr
  rintro ⟨rule, k⟩ hr
  exact findingsOf_eq (h.method_noParen (List.fst_mem_of_mem_zipIdx hr)) k

theorem findings_eq_located (h : rules.WellFormed) (source : Text) :
    rules.findings source = (rules.located source).map Prod.snd := by
  rw [findings, located, List.map_flatMap]
  exact List.flatMap_congr fun (line, n) _ => findingsOn_eq_locatedOf h n line

theorem pairwise_locatedOf (rules : RuleSet) (n : Nat) (line : Text) (k : Nat) (rule : Rule) :
    (rules.locatedOf n line k rule).Pairwise fun a b => a.1.Before b.1 := by
  rw [locatedOf, List.pairwise_filterMap]
  refine (Text.pairwise_columns _ line).imp fun {i j} hij a ha b hb => ?_
  obtain ⟨f, -, rfl⟩ := Option.map_eq_some_iff.1 ha
  obtain ⟨g, -, rfl⟩ := Option.map_eq_some_iff.1 hb
  exact Or.inr ⟨rfl, Or.inr ⟨rfl, hij⟩⟩

theorem pairwise_located (rules : RuleSet) (source : Text) :
    (rules.located source).Pairwise fun a b => a.1.Before b.1 := by
  rw [located, List.pairwise_flatMap]
  constructor
  · rintro ⟨line, n⟩ -
    rw [List.pairwise_flatMap]
    refine ⟨fun ⟨rule, k⟩ _ => rules.pairwise_locatedOf n line k rule, ?_⟩
    refine (pairwise_zipIdx rules.rules 0).imp fun {a b} hab x hx y hy => ?_
    obtain ⟨hn, hk, -⟩ := mem_locatedOf.1 hx
    obtain ⟨hn', hk', -⟩ := mem_locatedOf.1 hy
    exact Or.inr ⟨by rw [hn, hn'], Or.inl (by rwa [hk, hk'])⟩
  · refine (pairwise_zipIdx source.lines 1).imp fun {a b} hab x hx y hy => ?_
    obtain ⟨r, -, hx⟩ := List.mem_flatMap.1 hx
    obtain ⟨r', -, hy⟩ := List.mem_flatMap.1 hy
    exact Or.inl (by rwa [(mem_locatedOf.1 hx).1, (mem_locatedOf.1 hy).1])

theorem CallsAt.infix {source line v : Text} {p : Position} {rule : Rule}
    (h : rules.CallsAt source p line rule v) : v ++ Call.opening rule.method <:+: line := by
  obtain ⟨b, hb⟩ := Text.suffix_of_name? h.named
  obtain ⟨e, he⟩ := (Text.mem_columns.1 h.opens).2
  refine ⟨b, e, ?_⟩
  rw [← List.append_assoc, hb, List.append_assoc, he, List.take_append_drop]

/-- A scan reports exactly the calls that are not exempt, each once and in the order of their
positions. -/
theorem scan_reports_positions (hv : rules.isValid = true) (file source : Text) :
    ∃ positions : List Position, positions.Pairwise Position.Before ∧
      (∀ p, p ∈ positions ↔ ∃ line rule v, rules.CallsAt source p line rule v) ∧
      List.Forall₂ (fun p f => ∃ line rule v, rules.CallsAt source p line rule v ∧
        f = ⟨p.line, rule.method, v, line.trim⟩ ∧ v ++ Call.opening rule.method <:+: line)
        positions (rules.scan file source).issues ∧
      (rules.scan file source).issuesCount = (rules.scan file source).issues.length := by
  have hissues : (rules.scan file source).issues = (rules.located source).map Prod.snd :=
    findings_eq_located (isValid_iff.1 hv) source
  refine ⟨(rules.located source).map Prod.fst, ?_, fun p => ?_, ?_, rfl⟩
  · exact List.pairwise_map.2 (rules.pairwise_located source)
  · constructor
    · intro hp
      obtain ⟨⟨_, f⟩, hf, rfl⟩ := List.mem_map.1 hp
      obtain ⟨line, rule, v, hc, -⟩ := mem_located.1 hf
      exact ⟨line, rule, v, hc⟩
    · rintro ⟨line, rule, v, hc⟩
      exact List.mem_map_of_mem (mem_located.2 ⟨line, rule, v, hc, rfl⟩)
  · rw [hissues, List.forall₂_map_left_iff, List.forall₂_map_right_iff, List.forall₂_same]
    rintro ⟨p, f⟩ hf
    obtain ⟨line, rule, v, hc, rfl⟩ := mem_located.1 hf
    exact ⟨line, rule, v, hc, rfl, hc.infix⟩

/-- Two rules on one line, an exempt receiver, and a last line without an ending. -/
theorem scan_reports_positions_ordered :
    let source := "a.filter(b.map(f))\r\nx=[x.map(g)]\nc.map(h)".toList
    let find line (method receiver code : String) : Finding :=
      ⟨line, method.toList, receiver.toList, code.toList⟩
    standard.isValid = true ∧
      ∃ positions : List Position, positions.Pairwise Position.Before ∧
        (∀ p, p ∈ positions ↔ ∃ line rule v, standard.CallsAt source p line rule v) ∧
        List.Forall₂ (fun p f => ∃ line rule v, standard.CallsAt source p line rule v ∧
          f = ⟨p.line, rule.method, v, line.trim⟩ ∧ v ++ Call.opening rule.method <:+: line)
          positions [find 1 "map" "b" "a.filter(b.map(f))", find 1 "filter" "a" "a.filter(b.map(f))",
            find 3 "map" "c" "c.map(h)"] := by
  intro source find
  have hv : standard.isValid = true := by decide +kernel
  have hissues : (standard.scan [] source).issues =
      [find 1 "map" "b" "a.filter(b.map(f))", find 1 "filter" "a" "a.filter(b.map(f))",
        find 3 "map" "c" "c.map(h)"] := by decide +kernel
  obtain ⟨positions, hsorted, hmem, hfound, -⟩ := scan_reports_positions hv [] source
  exact ⟨hv, positions, hsorted, hmem, hissues ▸ hfound⟩

end RuleSet
end GuardedCalls
