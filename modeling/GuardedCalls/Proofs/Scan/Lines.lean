import GuardedCalls.Proofs.Text.Lines
import GuardedCalls.Scan.Source

/-! Scanning line by line: the findings on a line depend on nothing but the line and its number. -/

namespace GuardedCalls

/-- The finding with its line further down. -/
def Finding.down (k : Nat) (f : Finding) : Finding :=
  { f with line := f.line + k }

namespace RuleSet
variable (rules : RuleSet)

theorem findingsOn_add (n k : Nat) (line : Text) :
    rules.findingsOn (n + k) line = (rules.findingsOn n line).map (Finding.down k) := by
  rw [findingsOn, findingsOn, List.map_flatMap]
  refine List.flatMap_congr fun rule _ => ?_
  rw [findingsOf, findingsOf, List.map_map]
  rfl

theorem line_of_mem_findingsOn {n : Nat} {line : Text} {f : Finding}
    (hf : f ∈ rules.findingsOn n line) : f.line = n := by
  obtain ⟨rule, -, hf⟩ := List.mem_flatMap.1 hf
  obtain ⟨v, -, rfl⟩ := List.mem_map.1 hf
  rfl

/-- The findings on lines that are numbered further down. -/
theorem flatMap_findingsOn_add (lines : List Text) (n k : Nat) :
    ((lines.zipIdx (n + k)).flatMap fun (line, m) => rules.findingsOn m line) =
      ((lines.zipIdx n).flatMap fun (line, m) => rules.findingsOn m line).map (Finding.down k) := by
  induction lines generalizing n with
  | nil => rfl
  | cons line lines ih =>
    rw [List.zipIdx_cons, List.flatMap_cons, List.zipIdx_cons, List.flatMap_cons, List.map_append,
      Nat.add_right_comm n k 1, ih (n + 1)]
    congr 1
    exact rules.findingsOn_add n k line

theorem findings_append {s : Text} (hs : s = [] ∨ ['\n'] <:+ s) (t : Text) :
    rules.findings (s ++ t) =
      rules.findings s ++ (rules.findings t).map (Finding.down s.lines.length) := by
  rw [findings, Text.lines_append_of_closed hs, List.zipIdx_append, List.flatMap_append,
    rules.flatMap_findingsOn_add t.lines 1 s.lines.length]
  rfl

theorem filter_findings (source : Text) (i : Nat) :
    (rules.findings source).filter (·.line = i + 1) =
      (source.lines[i]?.map (rules.findingsOn (i + 1))).getD [] := by
  rw [findings, Nat.add_comm i 1]
  exact Text.filter_flatMap_zipIdx rules.findingsOn Finding.line
    (fun _ _ _ hf => rules.line_of_mem_findingsOn hf) source.lines 1 i

/-- A scan of two texts, of which the first does not end within a line, is the scan of one and then
of the other, and nothing outside of a line has a part in what is found on it. -/
theorem scan_append (file : Text) {s : Text} (hs : s = [] ∨ ['\n'] <:+ s) (t : Text) :
    (rules.scan file (s ++ t)).issues =
        (rules.scan file s).issues ++
          ((rules.scan file t).issues.map fun f => { f with line := f.line + s.lines.length }) ∧
      ∀ (u : Text) (i : Nat), u.lines[i]? = (s ++ t).lines[i]? →
        (rules.scan file u).issues.filter (·.line = i + 1) =
          (rules.scan file (s ++ t)).issues.filter (·.line = i + 1) := by
  refine ⟨rules.findings_append hs t, fun u i hline => ?_⟩
  have hleft := rules.filter_findings u i
  have hright := rules.filter_findings (s ++ t) i
  rw [hline] at hleft
  exact hleft.trans hright.symm

/-- A receiver that is excused on the first line is not on the second, and neither is it below a
remark that would excuse it. -/
theorem scan_append_excused :
    let s : Text := "x=[1]; x.map(f);\r\n".toList
    let t : Text := "x.map(g)".toList
    let u : Text := "// x=[]\nx.map(g)\n".toList
    (s = [] ∨ ['\n'] <:+ s) ∧ u.lines[1]? = (s ++ t).lines[1]? ∧
      (standard.scan [] (s ++ t)).issues = [⟨2, "map".toList, ['x'], t⟩] ∧
      (standard.scan [] u).issues.filter (·.line = 2) = [⟨2, "map".toList, ['x'], t⟩] := by
  intro s t u
  have hclosed : s = [] ∨ ['\n'] <:+ s := by decide
  have hline : u.lines[1]? = (s ++ t).lines[1]? := by decide
  have hs : (standard.scan [] s).issues = [] := by decide +kernel
  have ht : (standard.scan [] t).issues = [⟨1, "map".toList, ['x'], t⟩] := by decide +kernel
  obtain ⟨hparts, hothers⟩ := standard.scan_append [] hclosed t
  rw [hs, ht] at hparts
  refine ⟨hclosed, hline, hparts, ?_⟩
  rw [hothers u 1 hline, hparts]
  rfl

end RuleSet
end GuardedCalls
