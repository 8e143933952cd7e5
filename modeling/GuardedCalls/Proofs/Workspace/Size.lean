import GuardedCalls.Proofs.Report.Document
import GuardedCalls.Proofs.Report.Summary
import GuardedCalls.Proofs.Rewrite.Passes
import GuardedCalls.Proofs.Tree.Extension
import GuardedCalls.Proofs.Workspace.Entry
import Mathlib

/-! How large a report can become. A call takes up characters of its file, so the counts of a report
stay below the size of the tree, and the report can be stored when that is a count. -/

namespace GuardedCalls
open Json (maxCount)

namespace Node

/-- The bytes in the files of a tree, and one more for each file. -/
def extent (top : Node) : Nat :=
  (top.files.map fun (_, content) => content.length + 1).sum

def bytesAt (top : Node) (p : Place) : Bytes :=
  ((top.at? p).bind content?).getD []

theorem mem_filesAmong {es : List (Text × Node)} {name : Text} {node : Node} {p : Place} {b : Bytes}
    (he : (name, node) ∈ es) (hb : (p, b) ∈ node.files) : (name :: p, b) ∈ filesAmong es := by
  induction es with
  | nil => contradiction
  | cons e es ih =>
    rw [filesAmong, List.mem_append]
    cases List.mem_cons.1 he with
    | inl he =>
      obtain rfl : (name, node) = e := he
      exact .inl (List.mem_map_of_mem (f := fun (p, b) => (name :: p, b)) hb)
    | inr he => exact .inr (ih he)

theorem mem_files {n : Node} {p : Place} {b : Bytes} (h : n.at? p = some (.file b)) :
    (p, b) ∈ n.files := by
  induction p generalizing n with
  | nil =>
    obtain rfl : n = .file b := by simpa using h
    exact List.mem_singleton_self _
  | cons name p ih =>
    obtain ⟨es, node, rfl, hl, h⟩ := exists_of_at?_cons h
    exact mem_filesAmong (mem_of_lookup hl) (ih h)

/-- Different files have no byte in common. -/
theorem sum_le_extent {top : Node} {ps : List Place} (hnodup : ps.Nodup)
    (hps : ∀ p ∈ ps, ∃ b, top.at? p = some (.file b)) :
    (ps.map fun p => (top.bytesAt p).length + 1).sum ≤ top.extent := by
  have hfiles : ps.map (fun p => (p, top.bytesAt p)) ⊆ top.files := by
    intro e he
    obtain ⟨p, hp, rfl⟩ := List.mem_map.1 he
    obtain ⟨b, hb⟩ := hps p hp
    simpa [bytesAt, hb, content?] using mem_files hb
  have hpairs : (ps.map fun p => (p, top.bytesAt p)).Nodup :=
    hnodup.map fun _ _ h => (Prod.mk.inj h).1
  obtain ⟨es, hperm, hsub⟩ := hpairs.subperm hfiles
  calc (ps.map fun p => (top.bytesAt p).length + 1).sum
      = (es.map fun (_, content) => content.length + 1).sum := by
        rw [(hperm.map _).sum_eq, List.map_map]
        rfl
    _ ≤ top.extent := (hsub.map _).sum_le_sum fun _ _ => Nat.zero_le _

end Node

/-- The issues of a file and its lines with issues are no more than a number. -/
structure FileReport.Within (r : FileReport) (n : Nat) : Prop where
  count : r.issuesCount ≤ n
  lines : ∀ f ∈ r.issues, f.line ≤ n

theorem RuleSet.within_scan {rules : RuleSet} (h : rules.WellFormed) (file source : Text) :
    (rules.scan file source).Within source.length where
  count := length_findings_le h source
  lines f hf := by
    obtain ⟨i, line, hl, s, -, rfl⟩ := mem_findings.1 hf
    obtain ⟨hi, -⟩ := List.getElem?_eq_some_iff.1 hl
    rw [Text.lines, List.length_map] at hi
    exact Nat.le_trans hi (Text.length_pieces_le source)

theorem FileReport.Within.mono {r : FileReport} {m n : Nat} (h : r.Within m) (hmn : m ≤ n) :
    r.Within n :=
  ⟨h.count.trans hmn, fun f hf => (h.lines f hf).trans hmn⟩

namespace ScanReport

theorem Storable.ofFiles {files : List FileReport}
    (hsum : (files.map fun r => r.issuesCount + 1).sum ≤ maxCount)
    (hfiles : ∀ r ∈ files, r.Within maxCount) : (ScanReport.ofFiles files).Storable := by
  have hsize : (files.map FileReport.issuesCount).sum + files.length ≤ maxCount := by
    simpa [List.sum_map_add] using hsum
  have hlength : files.length ≤ maxCount := by omega
  refine ⟨⟨hlength, List.countP_le_length.trans hlength, List.countP_le_length.trans hlength, ?_⟩,
    fun r hr => ?_⟩
  · change (Totals.ofFiles files).issues ≤ maxCount
    rw [Totals.issues_ofFiles]
    exact (Nat.mod_le _ _).trans (by omega)
  · have hwithin := hfiles r (List.mem_of_mem_filter hr)
    exact ⟨hwithin.count, hwithin.lines⟩

end ScanReport

namespace Discovery.Sources
variable {rules : RuleSet} {top : Node} {base place : Place} {root : Text} {sources : List Place}

theorem within_scanFile (hs : Sources top base root place sources) (hr : rules.WellFormed)
    {names : List Text} (hmem : names ∈ sources) :
    (rules.scanFile top base root (Path.joinAll root names)).1.Within
      (top.bytesAt (place ++ names)).length := by
  obtain ⟨b, hb⟩ := hs.content names hmem
  have hbytes : top.bytesAt (place ++ names) = b := by rw [Node.bytesAt, hb]; rfl
  rw [hbytes, RuleSet.scanFile]
  cases hread : top.readSource base (Path.joinAll root names) with
  | error reason => exact ⟨Nat.zero_le _, by simp [FileReport.failed]⟩
  | ok source =>
    have hdecode := Node.decode_of_readSource hs.root (hs.name names hmem) hb hread
    exact (RuleSet.within_scan hr _ source).mono (Utf8.length_of_decode hdecode)

/-- The report of a scan can be stored, unless the tree has more bytes than can be counted. -/
theorem storable (hs : Sources top base root place sources) (hr : rules.WellFormed)
    (hextent : top.extent ≤ maxCount) :
    (ScanReport.ofFiles
      (rules.scanFiles top base root (sources.map (Path.joinAll root))).1).Storable := by
  have hnodup : (sources.map (place ++ ·)).Nodup :=
    hs.nodup.map fun _ _ => List.append_cancel_left
  have hall : ∀ p ∈ sources.map (place ++ ·), ∃ b, top.at? p = some (.file b) := by
    simpa using hs.content
  have hsum := Node.sum_le_extent hnodup hall
  rw [List.map_map] at hsum
  simp only [RuleSet.scanFiles, List.map_map]
  refine .ofFiles ?_ fun r hr' => ?_
  · rw [List.map_map]
    refine (List.sum_le_sum fun names hmem => ?_).trans (hsum.trans hextent)
    exact Nat.add_le_add_right (hs.within_scanFile hr hmem).count 1
  · obtain ⟨names, hmem, rfl⟩ := List.mem_map.1 hr'
    have hone := List.single_le_sum (fun _ _ => Nat.zero_le _) _
      (List.mem_map_of_mem (f := fun names => (top.bytesAt (place ++ names)).length + 1) hmem)
    exact (hs.within_scanFile hr hmem).mono
      ((Nat.le_succ _).trans (hone.trans (hsum.trans hextent)))

end Discovery.Sources
end GuardedCalls
