import GuardedCalls.Proofs.Report.Document
import GuardedCalls.Proofs.Rules.Validation
import GuardedCalls.Proofs.Tree.Write
import GuardedCalls.Workspace.Store
import Mathlib

/-! Saving a report in a tree of files and loading it from there. -/

namespace GuardedCalls

theorem RuleSet.isValid_of_load {top : Node} {base : Place} {config : Option Text} {rules : RuleSet}
    (h : load top base config = .ok rules) : rules.isValid = true := by
  cases config with
  | none =>
    obtain rfl : standard = rules := Except.ok.inj h
    decide +kernel
  | some path =>
    rw [load] at h
    split at h
    · contradiction
    · rw [ofBytes] at h
      split at h
      · contradiction
      · rw [ofText] at h
        split at h
        · contradiction
        · split at h
          · next hv => exact Except.ok.inj h ▸ hv
          · contradiction

namespace ScanReport

theorem save_eq_ok {r : ScanReport} {top after : Node} {base : Place} {path : Text} :
    r.save top base path = .ok after ↔
      top.write base path (Utf8.encode (r.toDocument ++ ['\n'])) = .ok after :=
  mapError_eq_ok

theorem saveWorklist_eq_ok {r : ScanReport} {top after : Node} {base : Place}
    {path : Text} : r.saveWorklist top base path = .ok after ↔
      top.write base path (Utf8.encode (r.worklist.flatMap (· ++ ['\n']))) = .ok after :=
  mapError_eq_ok

/-- The document of a report, with a newline after it, is read as that report, and whatever else a tree
holds, what was saved under a path is loaded under it. -/
theorem load_save {r : ScanReport} (hr : r.Storable) (path : Text) :
    ofBytes path (Utf8.encode (r.toDocument ++ ['\n'])) = .ok r ∧
      ∀ (top after : Node) (base : Place), top.WellFormed → r.save top base path = .ok after →
        load after base path = .ok r := by
  refine ⟨ofBytes_encode hr path, fun top after base hw hsave => ?_⟩
  have hread := Node.read_write hw (save_eq_ok.1 hsave)
  rw [load, hread]
  exact ofBytes_encode hr path

/-- A report with the greatest counts, with characters that are escaped and one that is not, and with
fields left out; the tree is empty before. -/
theorem load_save_escaped :
    let r : ScanReport :=
      { totals := ⟨1, 0, 1, 18446744073709551615⟩
        filesWithIssues := [⟨"a\"\\\n\x01.ts".toList, false, 18446744073709551615,
          [⟨18446744073709551615, "map".toList, "𝒙".toList, []⟩], none, some "\t".toList⟩]
        filesProtected := [[]]
        filesFailed := [] }
    ∃ after, r.save (.dir []) [] "r.json".toList = .ok after ∧
      load after [] "r.json".toList = .ok r := by
  intro r
  have hr : r.Storable :=
    { totals := ⟨by decide, by decide, by decide, by decide⟩
      files := by
        intro f hf
        rw [List.mem_singleton.1 hf]
        refine ⟨by decide, fun f hf => ?_⟩
        rw [List.mem_singleton.1 hf]
        exact Nat.le_refl _ }
  have hwrite (content : Bytes) : (Node.dir []).write [] "r.json".toList content =
      .ok (.dir [("r.json".toList, .file content)]) := by cbv
  have hsave := save_eq_ok.2 (hwrite (Utf8.encode (r.toDocument ++ ['\n'])))
  exact ⟨_, hsave, (load_save hr "r.json".toList).2 _ _ _ (by decide) hsave⟩

end ScanReport
end GuardedCalls
