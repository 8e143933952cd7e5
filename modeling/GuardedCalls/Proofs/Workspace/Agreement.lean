import GuardedCalls.Proofs.Workspace.Fix
import Mathlib

/-! The search for source files and the guard of the same root, which go by the same ignored names. The
search passes over directories with these names, while the guard refuses any name on the way, also that
of the file itself. -/

namespace GuardedCalls

theorem Node.exists_dir_of_leadsToDir {top : Node} {base : Place} {root : Text}
    (h : top.leadsToDir base root = true) :
    ∃ place es, top.canonical base root = .ok place ∧ top.at? place = some (.dir es) := by
  rw [leadsToDir] at h
  split at h
  · next place hplace =>
    obtain ⟨n, hn, hdir⟩ := Option.any_eq_true _ _ |>.1 h
    cases n with
    | file => simp [isDir] at hdir
    | link => simp [isDir] at hdir
    | dir es => exact ⟨place, es, canonical_of_locate hplace, hn⟩
  · contradiction

namespace Discovery

/-- A file that is found has a place, which is that of its path if the operating system takes the path.
From the name that a scan reports for it the guard leads there, unless its own name is that of an ignored
directory: then it is refused, though it lies in no such directory. -/
theorem found_files_fixable {rules : RuleSet} {top : Node} {base : Place} {root : Text}
    {files : List Text} (ht : top.WellFormed) (hdir : top.leadsToDir base root = true)
    (hfiles : rules.discovery.files top base root = .ok files) (dryRun : Bool) :
    ∃ x, Fixer.ofRoot rules top base root dryRun = .ok x ∧ ∀ f ∈ files,
      (∃ p, (∃ b, top.at? p = some (.file b)) ∧
        (Node.Writable p → top.canonical base f = .ok p)) ∧
      ∀ p, top.canonical base f = .ok p → ∃ below name, p = x.guard.root ++ (below ++ [name]) ∧
        x.guard.validate top (Path.nameBelow root f) =
          if name ∈ rules.discovery.ignoredDirs then .error (.forbidden p name) else .ok p := by
  obtain ⟨n, hn, rfl⟩ := files_eq_ok.1 hfiles
  obtain ⟨place, hsources⟩ := exists_sources_of_rootNode (d := rules.discovery) ht hn
  obtain ⟨place', es, hroot, hes⟩ := Node.exists_dir_of_leadsToDir hdir
  obtain rfl : place' = place := Except.ok.inj (hroot.symm.trans hsources.root)
  refine ⟨_, Fixer.ofRoot_eq_ok.2 ⟨place', hroot, rfl⟩, fun f hf => ?_⟩
  obtain ⟨names, hmem, rfl⟩ := List.mem_map.1 hf
  obtain ⟨b, hb⟩ := hsources.content names hmem
  have hnames := hsources.name names hmem
  have hne : names ≠ [] := by
    rintro rfl
    simp [hes] at hb
  have hbelow := notMem_ignored_of_mem_filesIn (mem_filesIn_of_mem_sourcesIn hmem)
  obtain ⟨below, name, rfl⟩ := List.eq_nil_or_concat' names |>.resolve_left hne
  rw [List.dropLast_concat] at hbelow
  have hcanonical {found : Place} : top.canonical base (Path.joinAll root (below ++ [name])) =
      .ok found ↔ _ := Node.canonical_joinAll hroot hb hne hnames
  refine ⟨⟨_, ⟨b, hb⟩, fun hw => ?_⟩, fun p hp => ?_⟩
  · exact hcanonical.2 ⟨rfl, fun n hmem => hw.isUsable n (List.mem_append_right _ hmem)⟩
  · obtain ⟨rfl, husable⟩ := hcanonical.1 hp
    refine ⟨below, name, rfl, ?_⟩
    rw [Path.nameBelow_joinAll (Node.canonical_eq_ok.1 hroot).2.1 hnames]
    exact Guard.validate_concat (g := ⟨place', rules.discovery.ignoredDirs⟩) hnames hb husable hbelow

/-- A root that is named through a link, and a file in a directory below it. -/
theorem found_files_fixable_linked :
    let top : Node := .dir [("w".toList, .dir [("src".toList, .dir [("a.ts".toList, .file [])]),
      ("dist".toList, .dir [("b.ts".toList, .file [])])]), ("l".toList, .link "./w/".toList)]
    let x : Fixer := ⟨.standard, ⟨["w".toList], RuleSet.standardDiscovery.ignoredDirs⟩, false⟩
    let place := ["w".toList, "src".toList, "a.ts".toList]
    top.WellFormed ∧ top.leadsToDir [] "l".toList = true ∧
      RuleSet.standard.discovery.files top [] "l".toList = .ok ["l/src/a.ts".toList] ∧
      Fixer.ofRoot .standard top [] "l".toList false = .ok x ∧
      top.canonical [] "l/src/a.ts".toList = .ok place ∧
      x.guard.validate top (Path.nameBelow "l".toList "l/src/a.ts".toList) = .ok place := by
  intro top x place
  have ht : top.WellFormed := by decide +kernel
  have hdir : top.leadsToDir [] "l".toList = true := by cbv
  have hfiles : RuleSet.standard.discovery.files top [] "l".toList =
      .ok ["l/src/a.ts".toList] := by cbv
  have hx : Fixer.ofRoot .standard top [] "l".toList false = .ok x := by cbv
  have hplace : top.canonical [] "l/src/a.ts".toList = .ok place := by cbv
  obtain ⟨y, hy, hfound⟩ := found_files_fixable ht hdir hfiles false
  obtain rfl : x = y := Except.ok.inj (hx.symm.trans hy)
  obtain ⟨-, hleads⟩ := hfound _ List.mem_cons_self
  obtain ⟨below, name, hbelow, hv⟩ := hleads place hplace
  have hname : name = "a.ts".toList := by
    have hlast := congrArg List.getLast? hbelow
    rw [← List.append_assoc, List.getLast?_concat] at hlast
    exact (Option.some.inj hlast).symm
  rw [hname, if_neg (by decide)] at hv
  exact ⟨ht, hdir, hfiles, hx, hplace, hv⟩

/-- A file with the name of an ignored directory is found, and then refused. -/
theorem found_file_refused :
    let rules : RuleSet := { RuleSet.standard with
      discovery := { RuleSet.standardDiscovery with ignoredDirs := ["b.ts".toList] } }
    let top : Node := .dir [("b.ts".toList, .file [])]
    let x : Fixer := ⟨rules, ⟨[], ["b.ts".toList]⟩, false⟩
    rules.discovery.files top [] ['.'] = .ok ["./b.ts".toList] ∧
      Fixer.ofRoot rules top [] ['.'] false = .ok x ∧
      top.canonical [] "./b.ts".toList = .ok ["b.ts".toList] ∧
      x.guard.validate top (Path.nameBelow ['.'] "./b.ts".toList) =
        .error (.forbidden ["b.ts".toList] "b.ts".toList) := by
  intro rules top x
  exact ⟨by cbv, by cbv, by cbv, by cbv⟩

end Discovery
end GuardedCalls
