import GuardedCalls.Proofs.Workspace.Extension
import GuardedCalls.Proofs.Workspace.Independence
import GuardedCalls.Proofs.Workspace.Size
import GuardedCalls.Proofs.Workspace.Store

/-! The gate and the fixer. A check goes by a scan in memory, a fix by a report that a scan has saved.
Both come to the same end, provided that the files of the scan stay out of each other's way. -/

namespace GuardedCalls
open Json (maxCount)
open Node (Extends)

namespace Setting
variable {x : Setting} {rules : RuleSet} {root output : Text} {config worklist : Option Text}

/-- Two paths do not lead to the same place. -/
def Apart (x : Setting) (s t : Text) : Prop :=
  ∀ p, x.tree.canonical x.base s = .ok p → x.tree.canonical x.base t ≠ .ok p

theorem apart_of_canonical {s t : Text} {p q : Place} (hs : x.tree.canonical x.base s = .ok p)
    (ht : x.tree.canonical x.base t = .ok q) (hne : p ≠ q) : x.Apart s t := by
  intro r hr hr'
  obtain rfl : p = r := Except.ok.inj (hs.symm.trans hr)
  exact hne (Except.ok.inj (hr'.symm.trans ht))

/-- Documents that lie in files of their own, none of them a source that a search finds. -/
structure Separate (x : Setting) (rules : RuleSet) (root : Text) (documents : List Text) : Prop where
  different : documents.Pairwise x.Apart
  noSource : ∀ files, rules.discovery.files x.tree x.base root = .ok files →
    ∀ f ∈ files, ∀ t ∈ documents, x.Apart f t

/-- Shows what became of the entries of a report, and how many there were of each kind. -/
def showFixed (x : Setting) (dryRun : Bool) (outcomes : List Outcome) (s : Screen) : Screen :=
  let s := outcomes.foldl (x.showOutcome dryRun) s
  let s := (s.line []).line [x.paint .bold "Summary:"]
  let s := s.line
    ["  ".toList, x.paintNat .green (outcomes.countP Outcome.isModified), " fixed".toList]
  let s := s.line
    ["  ".toList, x.paintNat .cyan (outcomes.countP Outcome.isSkipped), " skipped".toList]
  s.line ["  ".toList, x.paintNat .red (outcomes.countP Outcome.isFailed), " failed".toList]

/-- A fix fails if one of its entries does. -/
def exitCode (outcomes : List Outcome) : Nat :=
  if outcomes.countP Outcome.isFailed = 0 then 0 else 1

theorem fix_eq {path : Text} {report : ScanReport} {dryRun : Bool} {fixer : Fixer}
    (hload : RuleSet.load x.tree x.base config = .ok rules)
    (hreport : ScanReport.load x.tree x.base path = .ok report)
    (hfixer : Fixer.ofRoot rules x.tree x.base root dryRun = .ok fixer)
    {outcomes : List Outcome} {after : Node}
    (happly : (fixer.apply x.tree report.filesWithIssues).1 = outcomes)
    (hafter : (fixer.apply x.tree report.filesWithIssues).2.2 = after) (diff : Bool) :
    ∃ s, x.fix root config path dryRun diff =
      (x.showFixed dryRun outcomes s).finish (exitCode outcomes) after := by
  rw [Setting.fix, hload]
  simp only [hreport, hfixer]
  subst happly hafter
  exact ⟨_, rfl⟩

/-- A search of a root finds sources, and besides them only files at places to which no path of what is
found leads. Such a file cannot be read by its path. -/
structure Search (x : Setting) (rules : RuleSet) (root : Text) (place : Place)
    (ps sources found : List Place) : Prop where
  below : Discovery.Sources x.tree x.base root place found
  files : rules.discovery.files x.tree x.base root = .ok (found.map (Path.joinAll root))
  source : ∀ names ∈ sources, names ∈ found
  other : ∀ names ∈ found, names ∈ sources ∨ place ++ names ∈ ps
  apart : ∀ names ∈ found, ∀ p, x.tree.canonical x.base (Path.joinAll root names) = .ok p → p ∉ ps

namespace Search
variable {place : Place} {ps sources found : List Place}

theorem self (hs : Discovery.Sources x.tree x.base root place sources)
    (hfiles : rules.discovery.files x.tree x.base root = .ok (sources.map (Path.joinAll root))) :
    x.Search rules root place [] sources sources :=
  ⟨hs, hfiles, fun _ h => h, fun _ h => .inl h, fun _ _ _ _ => List.not_mem_nil⟩

theorem congr (h : x.Search rules root place ps sources found) {after : Node} {qs : List Place}
    (hextends : Extends x.tree qs after) (hshape : after.shape = x.tree.shape) :
    Setting.Search { x with tree := after } rules root place ps sources found where
  below := h.below.extended hextends
  files := (rules.discovery.files_congr hshape x.base root).trans h.files
  source := h.source
  other := h.other
  apart names hmem p hp := h.apart names hmem p ((Node.canonical_congr hshape _ _).symm.trans hp)

theorem mem_filterMap_read? (h : x.Search rules root place ps sources found) {e : Entry} :
    e ∈ found.filterMap (Entry.read? x.tree x.base root) ↔
      e ∈ sources.filterMap (Entry.read? x.tree x.base root) := by
  simp only [List.mem_filterMap]
  constructor
  · rintro ⟨names, hmem, he⟩
    cases h.other names hmem with
    | inl hsource => exact ⟨names, hsource, he⟩
    | inr hother =>
      exact absurd hother (h.apart names hmem _ (h.below.canonical_of_read? hmem he))
  · rintro ⟨names, hmem, he⟩
    exact ⟨names, h.source names hmem, he⟩

/-- A check fails if one of the sources needs a fix. -/
theorem check_code (h : x.Search rules root place ps sources found)
    (hload : RuleSet.load x.tree x.base config = .ok rules) :
    (x.check root config).code =
      if ((sources.filterMap (Entry.read? x.tree x.base root)).countP fun e =>
        (e.report rules).needsFix) = 0 then 0 else 1 := by
  obtain ⟨report, hreport, hissues⟩ := exists_report h.below h.files
  have hcount := Entry.countP_report rules
    (found.filterMap (Entry.read? x.tree x.base root)) fun _ => true
  simp only [Bool.and_true] at hcount
  have hcandidates : report.candidates.isEmpty = true ↔
      ((sources.filterMap (Entry.read? x.tree x.base root)).countP fun e =>
        (e.report rules).needsFix) = 0 := by
    rw [List.isEmpty_iff_length_eq_zero, ScanReport.candidates, ← List.countP_eq_length_filter,
      hissues, hcount]
    simp only [List.countP_eq_zero, h.mem_filterMap_read?]
  rw [Setting.check, hload]
  simp only [hreport]
  by_cases hempty : report.candidates.isEmpty = true
  · rw [if_pos hempty, if_pos (hcandidates.1 hempty)]
    rfl
  · rw [if_neg hempty, if_neg (mt hcandidates.2 hempty)]
    rfl

/-- A source that is read lies at none of the documents. -/
theorem canonical_ne (h : x.Search rules root place ps sources found) {documents : List Text}
    (hdocuments : x.Separate rules root documents) {e : Entry}
    (he : e ∈ sources.filterMap (Entry.read? x.tree x.base root)) {t : Text} (ht : t ∈ documents) :
    x.tree.canonical x.base t ≠ .ok (place ++ e.names) := by
  obtain ⟨names, hmem, hread⟩ := List.mem_filterMap.1 he
  obtain rfl := (Entry.read?_eq_some.1 hread).1
  have hfound := h.source _ hmem
  exact hdocuments.noSource _ h.files _ (List.mem_map_of_mem hfound) t ht _
    (h.below.canonical_of_read? hfound hread)

end Search

/-- A search after files were written finds and reads the sources as before, if none of these files is a
source. -/
theorem exists_search {after : Node} {ps : List Place} {files : List Text} (ht : x.tree.WellFormed)
    (hextends : Extends x.tree ps after)
    (hfiles : rules.discovery.files x.tree x.base root = .ok files)
    (hnone : ∀ files, rules.discovery.files after x.base root = .ok files →
      ∀ f ∈ files, ∀ p, after.canonical x.base f = .ok p → p ∉ ps) :
    ∃ place sources found, files = sources.map (Path.joinAll root) ∧
      Discovery.Sources x.tree x.base root place sources ∧
      Setting.Search { x with tree := after } rules root place ps sources found ∧
      sources.filterMap (Entry.read? after x.base root) =
        sources.filterMap (Entry.read? x.tree x.base root) := by
  obtain ⟨place, sources, found, rfl, hfiles', hs, hs', hsource, hother⟩ :=
    Discovery.exists_sources_extends ht hextends hfiles
  have hapart (names : Place) (hmem : names ∈ found) (p : Place)
      (hp : after.canonical x.base (Path.joinAll root names) = .ok p) : p ∉ ps :=
    hnone _ hfiles' _ (List.mem_map_of_mem hmem) p hp
  exact ⟨place, sources, found, rfl, hs, ⟨hs', hfiles', hsource, hother, hapart⟩,
    List.filterMap_congr fun names hmem =>
      hs.read?_extends hextends hmem (hapart names (hsource names hmem))⟩

/-- A scan ends well when its report and its list can be saved. -/
theorem scan_eq {path : Text} {report : ScanReport} {saved after : Node}
    (hload : RuleSet.load x.tree x.base config = .ok rules)
    (hreport : x.report rules root = .ok report)
    (hsave : report.save x.tree x.base output = .ok saved)
    (hlist : report.saveWorklist saved x.base path = .ok after) :
    (x.scan root config output (some path)).code = 0 ∧
      (x.scan root config output (some path)).tree = after := by
  unfold Setting.scan
  simp only [hload, hreport, hsave, hlist]
  exact ⟨rfl, rfl⟩

/-- A scan saves its report, and its list if one is asked for. -/
theorem scan_cases {after : Node} (hload : RuleSet.load x.tree x.base config = .ok rules)
    (hcode : (x.scan root config output worklist).code = 0)
    (hafter : (x.scan root config output worklist).tree = after) :
    ∃ report saved, x.report rules root = .ok report ∧ report.save x.tree x.base output = .ok saved ∧
      (worklist = none ∧ saved = after ∨
        ∃ path, worklist = some path ∧ report.saveWorklist saved x.base path = .ok after) := by
  unfold Setting.scan at hcode hafter
  rw [hload] at hcode hafter
  simp only at hcode hafter
  cases hreport : x.report rules root with
  | error e => simp [hreport, Screen.fail] at hcode
  | ok report =>
    simp only [hreport] at hcode hafter
    cases hsave : report.save x.tree x.base output with
    | error e => simp [hsave, Screen.fail] at hcode
    | ok saved =>
      simp only [hsave] at hcode hafter
      refine ⟨report, saved, rfl, hsave, ?_⟩
      cases worklist with
      | none => exact .inl ⟨rfl, hafter⟩
      | some path =>
        simp only at hcode hafter
        cases hlist : report.saveWorklist saved x.base path with
        | error e => simp [hlist, Screen.fail] at hcode
        | ok listed =>
          rw [hlist] at hafter
          exact .inr ⟨path, rfl, hlist.trans (congrArg Except.ok hafter)⟩

/-- The report of a tree whose bytes can be counted can be stored. -/
theorem storable_report (ht : x.tree.WellFormed) (hv : rules.isValid = true)
    (hextent : x.tree.extent ≤ maxCount) {report : ScanReport}
    (hreport : x.report rules root = .ok report) : report.Storable := by
  obtain ⟨files, hfiles, rfl⟩ := report_eq_ok.1 hreport
  obtain ⟨place, sources, rfl, hs⟩ := Discovery.exists_sources ht hfiles
  exact hs.storable (RuleSet.isValid_iff.1 hv) hextent

/-- A scan changes its own files only, and its report can be loaded. -/
theorem exists_scanned {after : Node} (ht : x.tree.WellFormed)
    (hcounts : ∀ report, x.report rules root = .ok report → report.Storable)
    (hload : RuleSet.load x.tree x.base config = .ok rules)
    (hcode : (x.scan root config output worklist).code = 0)
    (hafter : (x.scan root config output worklist).tree = after)
    (hapart : (output :: worklist.toList).Pairwise (Setting.Apart { x with tree := after })) :
    ∃ report ps, x.report rules root = .ok report ∧ Extends x.tree ps after ∧
      (∀ p ∈ ps, ∃ t ∈ output :: worklist.toList, after.canonical x.base t = .ok p) ∧
      ScanReport.load after x.base output = .ok report := by
  obtain ⟨report, saved, hreport, hsave, hlist⟩ := scan_cases hload hcode hafter
  have hloaded (h : after.read x.base output = .ok (Utf8.encode (report.toDocument ++ ['\n']))) :
      ScanReport.load after x.base output = .ok report := by
    rw [ScanReport.load, h]
    exact ScanReport.ofBytes_encode (hcounts report hreport) output
  have hwrite := ScanReport.save_eq_ok.1 hsave
  have hread := Node.read_write ht hwrite
  obtain ⟨place, hplace, -, hextends⟩ := Node.exists_extends ht hwrite
  cases hlist with
  | inl hnone =>
    obtain ⟨rfl, rfl⟩ := hnone
    exact ⟨report, [place], hreport, hextends, by simpa using hplace, hloaded hread⟩
  | inr hsome =>
    obtain ⟨path, rfl, hlist⟩ := hsome
    obtain ⟨place', hplace', -, hextends'⟩ :=
      Node.exists_extends hextends.wellFormed (ScanReport.saveWorklist_eq_ok.1 hlist)
    -- the list is written last and could take the place of the report
    have hne : Setting.Apart { x with tree := after } output path := by simpa using hapart
    have hplaces : ∀ p ∈ [place] ++ [place'],
        ∃ t ∈ [output, path], after.canonical x.base t = .ok p := by
      simpa using ⟨.inl (hextends'.canonical_eq hplace), .inr hplace'⟩
    refine ⟨report, [place] ++ [place'], hreport, hextends.trans hextends', hplaces,
      hloaded (hextends'.read_eq hread fun p hp hmem => ?_)⟩
    obtain rfl := List.mem_singleton.1 hmem
    exact hne p hp hplace'

/-- After a scan the rule set and the report are loaded as they were, and the same sources are read. -/
theorem exists_rescanned {after : Node} (ht : x.tree.WellFormed)
    (hcounts : ∀ report, x.report rules root = .ok report → report.Storable)
    (hload : RuleSet.load x.tree x.base config = .ok rules)
    (hcode : (x.scan root config output worklist).code = 0)
    (hafter : (x.scan root config output worklist).tree = after)
    (hdocuments : Setting.Separate { x with tree := after } rules root
      (output :: (worklist.toList ++ config.toList))) :
    ∃ report ps place sources found, x.report rules root = .ok report ∧
      after.WellFormed ∧ RuleSet.load after x.base config = .ok rules ∧
      ScanReport.load after x.base output = .ok report ∧
      x.Search rules root place [] sources sources ∧
      Setting.Search { x with tree := after } rules root place ps sources found ∧
      Discovery.Sources after x.base root place sources ∧
      sources.filterMap (Entry.read? after x.base root) =
        sources.filterMap (Entry.read? x.tree x.base root) ∧
      report.filesWithIssues = ((sources.filterMap (Entry.read? x.tree x.base root)).filter
        (Entry.hasCalls rules)).map (Entry.report rules) := by
  have hdifferent : ((output :: worklist.toList) ++ config.toList).Pairwise
      (Setting.Apart { x with tree := after }) := hdocuments.different
  obtain ⟨hwritten, -, hconfig⟩ := List.pairwise_append.1 hdifferent
  obtain ⟨report, ps, hreport, hextends, hps, hreload⟩ :=
    exists_scanned ht hcounts hload hcode hafter hwritten
  obtain ⟨files, hfiles, -⟩ := report_eq_ok.1 hreport
  obtain ⟨place, sources, found, rfl, hs, hsearch, hsame⟩ :=
    exists_search ht hextends hfiles fun files hfiles f hf p hp hmem => by
      obtain ⟨t, ht, htp⟩ := hps p hmem
      exact hdocuments.noSource files hfiles f hf t (List.mem_append_left config.toList ht) p hp htp
  obtain ⟨first, hfirst, hissues⟩ := exists_report hs hfiles
  obtain rfl : report = first := Except.ok.inj (hreport.symm.trans hfirst)
  have hreloaded : RuleSet.load after x.base config = .ok rules := by
    refine RuleSet.load_extends hextends hload fun path hpath p hp hmem => ?_
    obtain ⟨t, ht, htp⟩ := hps p hmem
    exact hconfig t ht path (Option.mem_toList.2 hpath) p htp hp
  exact ⟨report, ps, place, sources, found, hreport, hextends.wellFormed, hreloaded, hreload,
    Search.self hs hfiles, hsearch, hs.extended hextends, hsame, hissues⟩

/-- A fix with the report of a scan, and its dry run. As many entries need a fix afterwards as have
failed. -/
theorem exists_fix {path : Text} {report : ScanReport} {place : Place} {sources : List Place}
    {es : List Entry} (ht : x.tree.WellFormed)
    (hload : RuleSet.load x.tree x.base config = .ok rules)
    (hreport : ScanReport.load x.tree x.base path = .ok report)
    (hs : Discovery.Sources x.tree x.base root place sources)
    (hes : sources.filterMap (Entry.read? x.tree x.base root) = es)
    (hissues : report.filesWithIssues =
      (es.filter (Entry.hasCalls rules)).map (Entry.report rules)) :
    ∃ (fixer : Fixer) (planned outcomes : List Outcome) (after : Node),
      let failed := outcomes.countP Outcome.isFailed
      Fixer.ofRoot rules x.tree x.base root false = .ok fixer ∧
      planned.map Outcome.file = report.filesWithIssues.map FileReport.file ∧
      outcomes.map Outcome.file = report.filesWithIssues.map FileReport.file ∧
      (∀ diff, ∃ s, x.fix root config path true diff =
        (x.showFixed true planned s).finish (exitCode planned) x.tree) ∧
      (∀ diff, ∃ s, x.fix root config path false diff =
        (x.showFixed false outcomes s).finish (exitCode outcomes) after) ∧
      List.Forall₂ (fixer.Foretold x.tree) report.filesWithIssues (planned.zip outcomes) ∧
      ((∀ r ∈ report.filesWithIssues, fixer.Stages x.tree r) → planned = outcomes) ∧
      after.shape = x.tree.shape ∧ Extends x.tree (es.map fun e => place ++ e.names) after ∧
      outcomes.countP Outcome.isModified + failed =
        es.countP (fun e => (e.report rules).needsFix) ∧
      failed = (sources.filterMap (Entry.read? after x.base root)).countP fun e =>
        (e.report rules).needsFix := by
  have hrules := RuleSet.isValid_iff.1 (RuleSet.isValid_of_load hload)
  let fixer : Fixer := ⟨rules, ⟨place, rules.discovery.ignoredDirs⟩, false⟩
  have hfixer (dryRun : Bool) :
      Fixer.ofRoot rules x.tree x.base root dryRun = .ok { fixer with dryRun := dryRun } :=
    Fixer.ofRoot_eq_ok.2 ⟨place, hs.root, rfl⟩
  obtain ⟨outcomes, warnings, after, happly, hfates, hsettled⟩ :=
    hs.apply_scanned (x := fixer) hrules rfl ht hes
  have hnodup : (es.map Entry.names).Nodup :=
    (hes ▸ Entry.names_filterMap_read? x.tree x.base root sources).nodup hs.nodup
  have hapart := Fixer.pairwise_apart_report (x := fixer)
    (fun e he => hs.holds hes (List.mem_of_mem_filter he))
    (hnodup.sublist ((List.filter_sublist (p := Entry.hasCalls rules)).map Entry.names)) rules
  obtain ⟨hsum, hfailed⟩ := Fixer.Fate.countP hfates
  have hneeded := Entry.countP_report rules es fun _ => true
  simp only [Bool.and_true] at hneeded
  rw [← hissues] at happly hapart
  obtain ⟨-, hstill⟩ := Fixer.apply_dry (x := { fixer with dryRun := true }) rfl ht
    report.filesWithIssues
  obtain ⟨hforetold, hsame⟩ := fixer.foretold_apply ht hapart
  obtain ⟨planned, hplanned⟩ : ∃ planned,
    (Fixer.apply { fixer with dryRun := true } x.tree report.filesWithIssues).1 = planned := ⟨_, rfl⟩
  have houtcomes : (fixer.apply x.tree report.filesWithIssues).1 = outcomes :=
    congrArg Prod.fst happly
  rw [hplanned, houtcomes] at hforetold hsame
  refine ⟨fixer, planned, outcomes, after, hfixer false, hplanned ▸ Fixer.map_file_apply _ _ _,
    houtcomes ▸ Fixer.map_file_apply _ _ _, fix_eq hload hreport (hfixer true) hplanned hstill,
    fix_eq hload hreport (hfixer false) houtcomes (congrArg (fun r => r.2.2) happly), hforetold,
    hsame, hsettled.shape, hsettled.extended ht, hsum.trans hneeded, ?_⟩
  rw [hs.filterMap_read? (x := fixer) hes hsettled, Entry.countP_fixed (x := fixer) hrules, hfailed]
  exact Entry.countP_report rules es fun file => !fixer.accepts x.tree file

/-- A check fails on a tree if and only if a fix after a scan of that tree fixes a file or fails on one.
The dry run of that fix leaves the tree as it is and has the same outcomes, except that it modifies where
nothing can be staged. A check after the fix ends with the same code as the fix. -/
theorem check_agrees_with_fix {after : Node} (ht : x.tree.WellFormed)
    (hcounts : ∀ report, x.report rules root = .ok report → report.Storable)
    (hload : RuleSet.load x.tree x.base config = .ok rules)
    (hcode : (x.scan root config output worklist).code = 0)
    (hafter : (x.scan root config output worklist).tree = after)
    (hdocuments : Setting.Separate { x with tree := after } rules root
      (output :: (worklist.toList ++ config.toList))) :
    let y : Setting := { x with tree := after }
    ∃ (report : ScanReport) (fixer : Fixer) (planned outcomes : List Outcome) (fixed : Node),
      let handled := outcomes.countP Outcome.isModified + outcomes.countP Outcome.isFailed
      x.report rules root = .ok report ∧ Fixer.ofRoot rules after x.base root false = .ok fixer ∧
      planned.map Outcome.file = report.filesWithIssues.map FileReport.file ∧
      outcomes.map Outcome.file = report.filesWithIssues.map FileReport.file ∧
      (∀ diff, ∃ s, y.fix root config output true diff =
        (y.showFixed true planned s).finish (exitCode planned) after) ∧
      (∀ diff, ∃ s, y.fix root config output false diff =
        (y.showFixed false outcomes s).finish (exitCode outcomes) fixed) ∧
      List.Forall₂ (fixer.Foretold after) report.filesWithIssues (planned.zip outcomes) ∧
      ((∀ r ∈ report.filesWithIssues, fixer.Stages after r) → planned = outcomes) ∧
      ((x.check root config).code = 1 ↔ 0 < handled) ∧
      (y.check root config).code = (x.check root config).code ∧
      (Setting.check { x with tree := fixed } root config).code = exitCode outcomes := by
  intro y
  obtain ⟨report, ps, place, sources, found, hreport, ht', hload', hreload, hself, hsearch, hs, hsame,
    hissues⟩ := exists_rescanned ht hcounts hload hcode hafter hdocuments
  obtain ⟨fixer, planned, outcomes, fixed, hfixer, hplanned, houtcomes, hdry, hfix, hforetold, hequal,
    hshape, hextends, hsum, hfailed⟩ := exists_fix (x := y) ht' hload' hreload hs hsame hissues
  have hload'' : RuleSet.load fixed x.base config = .ok rules := by
    refine RuleSet.load_extends hextends hload' fun path hpath p hp hmem => ?_
    obtain ⟨e, he, rfl⟩ := List.mem_map.1 hmem
    have hdocument : path ∈ (output :: worklist.toList) ++ config.toList :=
      List.mem_append_right _ (Option.mem_toList.2 hpath)
    exact hsearch.canonical_ne hdocuments (hsame ▸ he) hdocument
      ((Node.canonical_congr hshape _ _).symm.trans hp)
  have hbefore := hself.check_code hload
  have hbetween := hsearch.check_code hload'
  have hagain := (hsearch.congr hextends hshape).check_code hload''
  refine ⟨report, fixer, planned, outcomes, fixed, hreport, hfixer, hplanned, houtcomes, hdry, hfix,
    hforetold, hequal, ?_, ?_, ?_⟩
  · rw [hbefore, hsum]
    split <;> omega
  · rw [hbetween, hbefore]
    simp only [hsame]
  · rw [hagain, exitCode, hfailed]

/-- A directory with one source, in which there is one call, and other files. -/
def oneCall (above : Place) (others : List (Text × Node)) : Setting where
  tree := .nested above
    (.dir (("a.ts".toList, .file (Utf8.encode "a.map(f)".toList)) :: others))
  base := above
  colors := false

section OneCall
variable (above : Place) (others : List (Text × Node))

theorem at?_oneCall : (oneCall above others).tree.at? above =
    some (.dir (("a.ts".toList, .file (Utf8.encode "a.map(f)".toList)) :: others)) :=
  Node.at?_nested above _

theorem at?_name_oneCall (name : Text) : (oneCall above others).tree.at? (above ++ [name]) =
    (("a.ts".toList, .file (Utf8.encode "a.map(f)".toList)) :: others).lookup name :=
  Node.at?_concat (at?_oneCall above others) name

theorem holds_oneCall : Entry.Holds ⟨["a.ts".toList], "a.map(f)".toList⟩ above
    (oneCall above others).tree :=
  ⟨by decide, _, at?_name_oneCall above others _, Utf8.decode_encode _⟩

theorem canonical_oneCall : (oneCall above others).tree.canonical above ['.'] = .ok above :=
  Node.canonical_here (at?_oneCall above others)

theorem canonical_name_oneCall {name : Text} {b : Bytes} (hl : others.lookup name = some (.file b))
    (hne : name ≠ "a.ts".toList) (hn : IsName name) (husable : Node.IsUsable name) :
    (oneCall above others).tree.canonical above name = .ok (above ++ [name]) := by
  have hat := at?_name_oneCall above others name
  rw [List.lookup_cons, beq_false_of_ne hne, hl] at hat
  simpa [Text.join] using (Node.canonical_join hat (by simp) (List.forall_mem_singleton.2 hn)).2
    ⟨rfl, List.forall_mem_singleton.2 husable⟩

theorem search_oneCall :
    (oneCall above []).Search .standard ['.'] above [] [["a.ts".toList]] [["a.ts".toList]] := by
  refine Search.self ⟨canonical_oneCall above [], by decide, fun names hmem => ?_,
    fun names hmem => ?_⟩ ((Discovery.files_here (at?_oneCall above [])).trans
      (congrArg Except.ok (by cbv)))
  · rw [List.mem_singleton.1 hmem]
    decide
  · rw [List.mem_singleton.1 hmem]
    exact ⟨_, at?_name_oneCall above [] _⟩

theorem read?_oneCall : [["a.ts".toList]].filterMap
      (Entry.read? (oneCall above []).tree (oneCall above []).base ['.']) =
    [⟨["a.ts".toList], "a.map(f)".toList⟩] :=
  (search_oneCall above).below.filterMap_read?_eq <| List.forall_mem_singleton.2
    ⟨by decide, by decide, by decide, at?_name_oneCall above [] _⟩

theorem needsFix_oneCall :
    (Entry.report .standard ⟨["a.ts".toList], "a.map(f)".toList⟩).needsFix = true := by
  decide +kernel

theorem report_oneCall : ∃ report, (oneCall above []).report .standard ['.'] = .ok report ∧
    report.filesWithIssues = [Entry.report .standard ⟨["a.ts".toList], "a.map(f)".toList⟩] := by
  have hsearch := search_oneCall above
  obtain ⟨report, hreport, hissues⟩ := exists_report hsearch.below hsearch.files
  have hcalls : Entry.hasCalls .standard ⟨["a.ts".toList], "a.map(f)".toList⟩ = true := by
    decide +kernel
  rw [read?_oneCall, List.filter_cons_of_pos hcalls, List.filter_nil, List.map_singleton] at hissues
  exact ⟨report, hreport, hissues⟩

theorem check_oneCall : ((oneCall above []).check ['.'] none).code = 1 := by
  rw [(search_oneCall above).check_code rfl, read?_oneCall, List.countP_singleton, needsFix_oneCall]
  rfl

theorem write_oneCall {name : Text} (hl : others.lookup name = none) (hne : name ≠ "a.ts".toList)
    (hn : IsName name) (husable : Node.IsUsable name) (b : Bytes) :
    (oneCall above others).tree.write above name b =
      .ok (oneCall above (others ++ [(name, .file b)])).tree := by
  have hnone : (("a.ts".toList, Node.file (Utf8.encode "a.map(f)".toList)) :: others).lookup name =
      none := by
    rw [List.lookup_cons, beq_false_of_ne hne, hl]
  rw [Node.write_new (at?_oneCall above others) hnone hn husable, oneCall, Node.put_nested,
    Node.put_name hnone]
  rfl

theorem scan_oneCall : ∃ b c,
    let scanned := (oneCall above []).scan ['.'] none "r.json".toList (some "w.txt".toList)
    scanned.code = 0 ∧ scanned.tree =
      (oneCall above [("r.json".toList, .file b), ("w.txt".toList, .file c)]).tree := by
  obtain ⟨report, hreport, -⟩ := report_oneCall above
  have hsave (b : Bytes) : (oneCall above []).tree.write above "r.json".toList b = _ :=
    write_oneCall above [] rfl (by decide) (by decide) ⟨by decide, by decide⟩ b
  have hlist (b c : Bytes) :
      (oneCall above [("r.json".toList, .file b)]).tree.write above "w.txt".toList c = _ :=
    write_oneCall above _ rfl (by decide) (by decide) ⟨by decide, by decide⟩ c
  exact ⟨_, _, scan_eq rfl hreport (ScanReport.save_eq_ok.2 (hsave _))
    (ScanReport.saveWorklist_eq_ok.2 (hlist _ _))⟩

theorem separate_oneCall (b c : Bytes) :
    (oneCall above [("r.json".toList, .file b), ("w.txt".toList, .file c)]).Separate .standard ['.']
      ["r.json".toList, "w.txt".toList] := by
  let x := oneCall above [("r.json".toList, .file b), ("w.txt".toList, .file c)]
  have hsource : x.tree.canonical above "./a.ts".toList = .ok (above ++ ["a.ts".toList]) :=
    (Node.canonical_joinAll (canonical_oneCall above _) (at?_name_oneCall above _ "a.ts".toList)
      (by decide) (by decide)).2 ⟨rfl, by simpa using ⟨by decide, by decide⟩⟩
  have hreport : x.tree.canonical above "r.json".toList = .ok (above ++ ["r.json".toList]) :=
    canonical_name_oneCall above _ rfl (by decide) (by decide) ⟨by decide, by decide⟩
  have hlist : x.tree.canonical above "w.txt".toList = .ok (above ++ ["w.txt".toList]) :=
    canonical_name_oneCall above _ rfl (by decide) (by decide) ⟨by decide, by decide⟩
  have hfiles : RuleSet.standard.discovery.files x.tree above ['.'] = .ok ["./a.ts".toList] :=
    (Discovery.files_here (at?_oneCall above _)).trans (congrArg Except.ok (by cbv))
  refine ⟨List.pairwise_pair.2 (apart_of_canonical hreport hlist (by simp)), fun files h => ?_⟩
  obtain rfl := Except.ok.inj (hfiles.symm.trans h)
  simp only [List.forall_mem_cons, List.not_mem_nil, false_implies, implies_true, and_true]
  exact ⟨apart_of_canonical hsource hreport (by simp), apart_of_canonical hsource hlist (by simp)⟩

variable {above others}

theorem wellFormed_oneCall (h : (oneCall [] others).tree.WellFormed)
    (habove : ∀ name ∈ above, IsName name) : (oneCall above others).tree.WellFormed :=
  h.nested habove

theorem stages_oneCall {fixer : Fixer} (ht : (oneCall above others).tree.WellFormed)
    (hfixer : Fixer.ofRoot .standard (oneCall above others).tree above ['.'] false = .ok fixer)
    (hw : Node.Writable (above ++ ["a.ts".toList])) :
    fixer.Stages (oneCall above others).tree
        (Entry.report .standard ⟨["a.ts".toList], "a.map(f)".toList⟩) ↔
      Node.Stageable (above ++ ["a.ts".toList]) := by
  obtain ⟨place, hplace, rfl⟩ := Fixer.ofRoot_eq_ok.1 hfixer
  obtain rfl := Except.ok.inj ((canonical_oneCall above others).symm.trans hplace)
  have hallowed : "a.ts".toList ∉ RuleSet.standard.discovery.ignoredDirs := by decide
  have hrules : RuleSet.standard.isValid = true := by decide +kernel
  have hv := Guard.validate_name (g := ⟨above, RuleSet.standard.discovery.ignoredDirs⟩)
    (by decide) (at?_name_oneCall above others "a.ts".toList)
    (hw.isUsable _ List.mem_concat_self) hallowed
  exact Fixer.stages_report (x := ⟨.standard, ⟨above, _⟩, false⟩) (RuleSet.isValid_iff.1 hrules) ht
    (holds_oneCall above others) needsFix_oneCall hv hw

/-- Where nothing can be staged, the fix fails on the file that the dry run fixes. -/
theorem fix_oneCall_unstaged (ht : (oneCall [] []).tree.WellFormed)
    (habove : ∀ name ∈ above, IsName name) (hextent : (oneCall above []).tree.extent ≤ maxCount)
    (hw : Node.Writable (above ++ ["a.ts".toList]))
    (hs : ¬ Node.Stageable (above ++ ["a.ts".toList])) (diff : Bool) :
    let scanned := (oneCall above []).scan ['.'] none "r.json".toList (some "w.txt".toList)
    let y : Setting := { oneCall above [] with tree := scanned.tree }
    (y.fix ['.'] none "r.json".toList true diff).code = 0 ∧
      (y.fix ['.'] none "r.json".toList false diff).code = 1 := by
  intro scanned y
  have ht : (oneCall above []).tree.WellFormed := wellFormed_oneCall ht habove
  have hrules : RuleSet.standard.isValid = true := by decide +kernel
  obtain ⟨b, c, hcode, hafter⟩ := scan_oneCall above
  have hy : y = oneCall above [("r.json".toList, .file b), ("w.txt".toList, .file c)] :=
    congrArg (fun tree => { oneCall above [] with tree := tree }) hafter
  have hseparate : y.Separate .standard ['.'] ["r.json".toList, "w.txt".toList] :=
    hy ▸ separate_oneCall above b c
  obtain ⟨report, -, place, sources, -, hreport, ht', hload, hreload, -, -, hs', hsame, hissues⟩ :=
    exists_rescanned ht (fun _ => storable_report ht hrules hextent) rfl hcode rfl hseparate
  obtain ⟨fixer, planned, outcomes, _, hfixer, hplanned, houtcomes, hdry, hfix, hforetold, -⟩ :=
    exists_fix (x := y) ht' hload hreload hs' hsame hissues
  obtain ⟨first, hfirst, hone⟩ := report_oneCall above
  obtain rfl : report = first := Except.ok.inj (hreport.symm.trans hfirst)
  rw [hone] at hplanned houtcomes hforetold
  obtain ⟨o, rfl, -⟩ := List.map_eq_singleton_iff.1 hplanned
  obtain ⟨o', rfl, -⟩ := List.map_eq_singleton_iff.1 houtcomes
  have hstages : ¬ fixer.Stages y.tree
      (Entry.report .standard ⟨["a.ts".toList], "a.map(f)".toList⟩) := by
    replace ht' : y.tree.WellFormed := ht'
    rw [hy] at hfixer ht' ⊢
    exact mt (stages_oneCall ht' hfixer hw).1 hs
  obtain ⟨hmodified, hfailed⟩ := (List.forall₂_cons.1 hforetold).1.unstaged hstages
  obtain ⟨s, hdry⟩ := hdry diff
  obtain ⟨s', hfix⟩ := hfix diff
  rw [hdry, hfix]
  change o.isModified = true at hmodified
  change o'.isFailed = true at hfailed
  simp [Screen.finish, exitCode, Outcome.isFailed_of_isModified hmodified, hfailed]

end OneCall

/-- The call is found and fixed, with a report and a list that are written beside its file. -/
theorem check_agrees_with_fix_listed :
    let x := oneCall [] []
    let scanned := x.scan ['.'] none "r.json".toList (some "w.txt".toList)
    let y : Setting := { x with tree := scanned.tree }
    scanned.code = 0 ∧ y.Separate .standard ['.'] ["r.json".toList, "w.txt".toList] ∧
      (x.check ['.'] none).code = 1 ∧ ∃ (outcomes : List Outcome) (fixed : Node),
        outcomes.map Outcome.file = ["a.ts".toList] ∧
        0 < outcomes.countP Outcome.isModified + outcomes.countP Outcome.isFailed ∧
        (∀ dryRun diff, ∃ s, y.fix ['.'] none "r.json".toList dryRun diff =
          (y.showFixed dryRun outcomes s).finish (exitCode outcomes)
            (if dryRun then y.tree else fixed)) ∧
        (Setting.check { x with tree := fixed } ['.'] none).code = exitCode outcomes := by
  intro x scanned y
  have ht : x.tree.WellFormed := by decide +kernel
  obtain ⟨b, c, hcode, hafter⟩ := scan_oneCall []
  obtain ⟨report, hreport, hissues⟩ := report_oneCall []
  have hseparate : y.Separate .standard ['.'] ["r.json".toList, "w.txt".toList] := by
    have hy : y = _ := congrArg (fun tree => { x with tree := tree }) hafter
    rw [hy]
    exact separate_oneCall [] b c
  obtain ⟨first, fixer, planned, outcomes, fixed, hfirst, hfixer, hplanned, houtcomes, hdry, hfix,
    hforetold, hsame, hcheck, -, hagain⟩ := check_agrees_with_fix ht
      (fun _ => storable_report ht (by decide +kernel) (by decide +kernel)) rfl hcode rfl hseparate
  obtain rfl : report = first := Except.ok.inj (hreport.symm.trans hfirst)
  have hstages : ∀ r ∈ report.filesWithIssues, fixer.Stages y.tree r := by
    have hy : y.tree = _ := hafter
    rw [hissues, List.forall_mem_singleton, hy]
    rw [hafter] at hfixer
    exact (stages_oneCall (wellFormed_oneCall ((Node.isWellFormed_iff _).1 rfl) (by simp)) hfixer
      (by decide)).2 (by decide)
  obtain rfl := hsame hstages
  rw [hissues] at houtcomes
  refine ⟨hcode, hseparate, check_oneCall [], planned, fixed, houtcomes,
    hcheck.1 (check_oneCall []), ?_, hagain⟩
  rintro (_ | _)
  · exact hfix
  · exact hdry

/-- A list that is written over the report leaves none to fix by. And where nothing can be staged, the
fix fails on a file that its dry run fixes. -/
theorem fix_disagrees :
    (let x := oneCall [] []
      let scanned := x.scan ['.'] none "r".toList (some "r".toList)
      let y : Setting := { x with tree := scanned.tree }
      scanned.code = 0 ∧
        (∀ files, RuleSet.standard.discovery.files y.tree y.base ['.'] = .ok files →
          ∀ f ∈ files, y.Apart f "r".toList) ∧
        (x.check ['.'] none).code = 1 ∧
        ∀ dryRun diff, (y.fix ['.'] none "r".toList dryRun diff) =
          Screen.empty.fail y.tree (.ofReport (.malformed "r".toList .malformed))) ∧
    (let x := oneCall Node.cramped []
      let scanned := x.scan ['.'] none "r.json".toList (some "w.txt".toList)
      let y : Setting := { x with tree := scanned.tree }
      scanned.code = 0 ∧ y.Separate .standard ['.'] ["r.json".toList, "w.txt".toList] ∧
        ∀ diff, (y.fix ['.'] none "r.json".toList true diff).code = 0 ∧
          (y.fix ['.'] none "r.json".toList false diff).code = 1) := by
  constructor
  · intro x scanned y
    have hload : RuleSet.load x.tree x.base none = .ok .standard := rfl
    obtain ⟨report, hreport, hissues⟩ := report_oneCall []
    have hlisted : report.worklist = ["a.ts".toList] := by
      rw [ScanReport.worklist, ScanReport.candidates, hissues,
        List.filter_cons_of_pos needsFix_oneCall, List.filter_nil, List.mergeSort_singleton]
      rfl
    have hsave (b : Bytes) : x.tree.write [] "r".toList b =
        .ok (oneCall [] [("r".toList, .file b)]).tree := by cbv
    have hlist (b c : Bytes) : (oneCall [] [("r".toList, .file b)]).tree.write [] "r".toList c =
        .ok (oneCall [] [("r".toList, .file c)]).tree := by cbv
    obtain ⟨hcode, hafter⟩ := scan_eq hload hreport (ScanReport.save_eq_ok.2 (hsave _))
      (ScanReport.saveWorklist_eq_ok.2 (hlist _ _))
    rw [hlisted] at hafter
    have hy : y = oneCall [] [("r".toList, .file (Utf8.encode "a.ts\n".toList))] :=
      congrArg (fun tree => { x with tree := tree }) hafter
    have hfiles : RuleSet.standard.discovery.files y.tree y.base ['.'] = .ok ["./a.ts".toList] := by
      rw [hy]
      cbv
    have hsource : y.tree.canonical y.base "./a.ts".toList = .ok ["a.ts".toList] := by
      rw [hy]
      cbv
    have hplace : y.tree.canonical y.base "r".toList = .ok ["r".toList] := by
      rw [hy]
      exact canonical_name_oneCall [] _ rfl (by decide) (by decide) ⟨by decide, by decide⟩
    have hbroken : ScanReport.load y.tree y.base "r".toList =
        .error (.malformed "r".toList .malformed) := by
      rw [hy]
      cbv
    refine ⟨hcode, fun files h f hf => ?_, check_oneCall [], fun dryRun diff => ?_⟩
    · obtain rfl := Except.ok.inj (hfiles.symm.trans h)
      rw [List.mem_singleton.1 hf]
      exact apart_of_canonical hsource hplace (by decide)
    · rw [Setting.fix, RuleSet.load]
      simp only [hbroken]
  · intro x scanned y
    obtain ⟨b, c, hcode, hafter⟩ := scan_oneCall Node.cramped
    have hy : y = _ := congrArg (fun tree => { x with tree := tree }) hafter
    obtain ⟨hw, hs⟩ := Node.not_stageable_cramped
    exact ⟨hcode, hy ▸ separate_oneCall Node.cramped b c,
      fix_oneCall_unstaged (by decide +kernel) (by decide +kernel) (by decide +kernel) hw hs⟩

end Setting
end GuardedCalls
