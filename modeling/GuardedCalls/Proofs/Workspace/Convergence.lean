import GuardedCalls.Command.Run
import GuardedCalls.Proofs.Rules.Validation
import GuardedCalls.Proofs.Workspace.Fix

/-! Scanning, fixing what was found and scanning again. The second scan finds what could not be
fixed, and fixing that changes nothing more. -/

namespace GuardedCalls
namespace Entry

/-- The entry of the file with the given names below a root, if the file can be read. -/
def read? (top : Node) (base : Place) (root : Text) (names : List Text) : Option Entry :=
  match top.readSource base (Path.joinAll root names) with
  | .ok source => some ⟨names, source⟩
  | .error _ => none

theorem read?_eq_some {top : Node} {base : Place} {root : Text} {names : List Text} {e : Entry} :
    read? top base root names = some e ↔
      e.names = names ∧ top.readSource base (Path.joinAll root names) = .ok e.source := by
  rw [read?]
  split
  · next source h =>
    obtain ⟨n, s⟩ := e
    simp [h, eq_comm]
  · next h => simp [h]

theorem names_filterMap_read? (top : Node) (base : Place) (root : Text) (sources : List Place) :
    ((sources.filterMap (read? top base root)).map names).Sublist sources := by
  induction sources with
  | nil => exact .slnil
  | cons names sources ih =>
    cases he : read? top base root names with
    | none =>
      rw [List.filterMap_cons_none he]
      exact ih.cons names
    | some e =>
      rw [List.filterMap_cons_some he, List.map_cons, (read?_eq_some.1 he).1]
      exact ih.cons_cons names

end Entry

/-- The report of a scan has the entries in which there are calls. -/
theorem ScanReport.filesWithIssues_scanFiles (rules : RuleSet) (top : Node) (base : Place)
    {root : Text} (hr : root ≠ []) {sources : List Place}
    (hs : ∀ names ∈ sources, ∀ name ∈ names, IsName name) :
    (ScanReport.ofFiles
        (rules.scanFiles top base root (sources.map (Path.joinAll root))).1).filesWithIssues =
      ((sources.filterMap (Entry.read? top base root)).filter (Entry.hasCalls rules)).map
        (Entry.report rules) := by
  simp only [ofFiles, RuleSet.scanFiles, List.map_map]
  induction sources with
  | nil => rfl
  | cons names sources ih =>
    obtain ⟨hnames, hs⟩ := List.forall_mem_cons.1 hs
    rw [List.map_cons, List.filter_cons, ih hs, List.filterMap_cons, Entry.read?]
    simp only [Function.comp_apply, RuleSet.scanFile, Path.nameBelow_joinAll hr hnames]
    cases top.readSource base (Path.joinAll root names) with
    | error reason => simp [FileReport.failed]
    | ok source =>
      have hcalls : ((rules.scan (Text.join ['/'] names) source).error.isNone &&
          decide (0 < (rules.scan (Text.join ['/'] names) source).issuesCount)) =
          Entry.hasCalls rules ⟨names, source⟩ := rfl
      simp only [hcalls, List.filter_cons]
      split <;> rfl

/-- The files to fix that meet a condition. -/
theorem Entry.map_file_filter (rules : RuleSet) (es : List Entry) (p : Text → Bool) :
    (((es.filter (hasCalls rules)).map (report rules)).filter fun r =>
        r.needsFix && p r.file).map FileReport.file =
      (es.filter fun e => (e.report rules).needsFix && p e.file).map file := by
  have hfile : FileReport.file ∘ report rules = file := rfl
  rw [List.filter_map, List.filter_filter, List.map_map, hfile]
  refine congrArg (List.map file) (List.filter_congr fun e _ => ?_)
  rw [Function.comp_apply, needsFix_report, file_report]
  cases e.hasCalls rules <;> simp

theorem Entry.map_file_fixed {x : Fixer} (h : x.rules.WellFormed) (top : Node) (es : List Entry) :
    ((es.map (fixed x top)).filter fun e => (e.report x.rules).needsFix).map file =
      (es.filter fun e => (e.report x.rules).needsFix && !x.accepts top e.file).map file := by
  have hfile : file ∘ fixed x top = file := funext file_fixed
  rw [List.filter_map, List.map_map, hfile]
  exact congrArg (List.map file) (List.filter_congr fun e _ => needsFix_fixed h e)

theorem Entry.countP_report (rules : RuleSet) (es : List Entry) (p : Text → Bool) :
    ((es.filter (hasCalls rules)).map (report rules)).countP (fun r => r.needsFix && p r.file) =
      es.countP fun e => (e.report rules).needsFix && p e.file := by
  simpa only [List.length_map, ← List.countP_eq_length_filter] using
    congrArg List.length (map_file_filter rules es p)

theorem Entry.countP_fixed {x : Fixer} (h : x.rules.WellFormed) (top : Node) (es : List Entry) :
    (es.map (fixed x top)).countP (fun e => (e.report x.rules).needsFix) =
      es.countP fun e => (e.report x.rules).needsFix && !x.accepts top e.file := by
  rw [List.countP_map]
  congr 1
  funext e
  exact needsFix_fixed h e

namespace Discovery.Sources
variable {x : Fixer} {top after : Node} {base place : Place} {root : Text} {sources : List Place}
  {es : List Entry}

theorem holds (h : Sources top base root place sources)
    (hes : sources.filterMap (Entry.read? top base root) = es) {e : Entry} (he : e ∈ es) :
    e.Holds place top := by
  obtain ⟨names, hmem, hread⟩ := List.mem_filterMap.1 (hes ▸ he)
  obtain ⟨rfl, hread⟩ := Entry.read?_eq_some.1 hread
  obtain ⟨b, hb⟩ := h.content _ hmem
  have hnames := h.name _ hmem
  exact ⟨hnames, b, hb, Node.decode_of_readSource h.root hnames hb hread⟩

/-- Sources are read that hold texts and whose paths the operating system accepts. -/
theorem filterMap_read?_eq (h : Sources top base root place sources) {source : Text}
    (hread : ∀ names ∈ sources, names ≠ [] ∧ Node.checkPath (Path.joinAll root names) = .ok () ∧
      (∀ name ∈ names, Utf8.size name ≤ 255) ∧
      top.at? (place ++ names) = some (.file (Utf8.encode source))) :
    sources.filterMap (Entry.read? top base root) = sources.map (Entry.mk · source) := by
  rw [← List.filterMap_eq_map]
  refine List.filterMap_congr fun names hmem => ?_
  obtain ⟨hne, hpath, hsize, hb⟩ := hread names hmem
  exact Entry.read?_eq_some.2 ⟨rfl, Node.readSource_eq_ok h.root hne (h.name names hmem) hb hpath
    hsize (Utf8.decode_encode source)⟩

/-- After a run the entries are read as they were fixed. -/
theorem filterMap_read? (h : Sources top base root x.guard.root sources)
    (hes : sources.filterMap (Entry.read? top base root) = es) (hs : x.Settled top es after) :
    sources.filterMap (Entry.read? after base root) = es.map (Entry.fixed x top) := by
  rw [← hes, List.map_filterMap]
  apply List.filterMap_congr
  intro names hmem
  obtain ⟨b, hb⟩ := h.content names hmem
  have hnames := h.name names hmem
  cases he : Entry.read? top base root names with
  | none =>
    have hfree : ∀ e ∈ es, x.guard.root ++ names ≠ x.guard.root ++ e.names := by
      intro e hmem heq
      obtain ⟨names', -, hread⟩ := List.mem_filterMap.1 (hes ▸ hmem)
      have hsame := (Entry.read?_eq_some.1 hread).1
      rw [← hsame, ← List.append_cancel_left heq, he] at hread
      contradiction
    have hsame := Node.readSource_congr h.root hnames hb hs.shape (hs.other _ b hfree hb)
    rw [Entry.read?, hsame, ← Entry.read?, he]
    rfl
  | some e =>
    obtain ⟨rfl, hread⟩ := Entry.read?_eq_some.1 he
    have hfixed := hs.holds e (hes ▸ List.mem_filterMap.2 ⟨e.names, hmem, he⟩)
    rw [← @Entry.names_fixed x top e] at hb hread
    rw [Option.map_some, Entry.read?_eq_some]
    refine ⟨Entry.names_fixed e, ?_⟩
    rw [← @Entry.names_fixed x top e]
    exact Node.readSource_of_ok h.root hb hread hs.shape hfixed

theorem apply_scanned (h : Sources top base root x.guard.root sources) (hr : x.rules.WellFormed)
    (hdry : x.dryRun = false) (ht : top.WellFormed)
    (hes : sources.filterMap (Entry.read? top base root) = es) :
    ∃ outcomes warnings after,
      x.apply top ((es.filter (Entry.hasCalls x.rules)).map (Entry.report x.rules)) =
        (outcomes, warnings, after) ∧
      List.Forall₂ (x.Fate top)
        ((es.filter (Entry.hasCalls x.rules)).map (Entry.report x.rules)) outcomes ∧
      x.Settled top es after := by
  have hholds (e : Entry) (he : e ∈ es) := h.holds hes he
  have hnodup : (es.map Entry.names).Nodup :=
    (hes ▸ Entry.names_filterMap_read? top base root sources).nodup h.nodup
  obtain ⟨hfates, hsettled⟩ := Fixer.apply_reports hr hdry ht
    (fun e he => hholds e (List.mem_of_mem_filter he))
    (hnodup.sublist ((List.filter_sublist (p := Entry.hasCalls x.rules)).map Entry.names))
  exact ⟨_, _, _, rfl, hfates, hsettled.of_filter hholds hnodup⟩

end Discovery.Sources

/-- The second report names the files of the entries that the fixer does not accept. -/
theorem Fixer.file_candidates {x : Fixer} (h : x.rules.WellFormed) {top : Node} {es : List Entry}
    {outcomes : List Outcome} {second : ScanReport}
    (hfates : List.Forall₂ (x.Fate top)
      ((es.filter (Entry.hasCalls x.rules)).map (Entry.report x.rules)) outcomes)
    (hsecond : second.filesWithIssues = ((es.map (Entry.fixed x top)).filter
      (Entry.hasCalls x.rules)).map (Entry.report x.rules)) :
    second.candidates.map FileReport.file =
      (outcomes.filter Outcome.isFailed).map Outcome.file := by
  have hcandidates :=
    Entry.map_file_filter x.rules (es.map (Entry.fixed x top)) fun _ => true
  have hfailed := Entry.map_file_filter x.rules es fun file => !x.accepts top file
  simp only [Bool.and_true] at hcandidates
  calc second.candidates.map FileReport.file
      = ((es.map (Entry.fixed x top)).filter fun e =>
          (e.report x.rules).needsFix).map Entry.file := by
        rw [ScanReport.candidates, hsecond]
        exact hcandidates
    _ = (es.filter fun e =>
          (e.report x.rules).needsFix && !x.accepts top e.file).map Entry.file :=
        Entry.map_file_fixed h top es
    _ = (outcomes.filter Outcome.isFailed).map Outcome.file := by
        rw [Fixer.file_filter_isFailed hfates, hfailed]

namespace Setting
variable {x : Setting} {rules : RuleSet} {root : Text}

theorem report_eq_ok {report : ScanReport} :
    x.report rules root = .ok report ↔ ∃ files, rules.discovery.files x.tree x.base root = .ok files ∧
      report = .ofFiles (rules.scanFiles x.tree x.base root files).1 := by
  rw [Setting.report]
  split <;> rename_i h <;> simp [h, eq_comm]

/-- The sources that were found are scanned, also after their contents have changed. -/
theorem exists_report {place : Place} {sources : List Place}
    (hs : Discovery.Sources x.tree x.base root place sources) {top : Node}
    (hfiles : rules.discovery.files top x.base root =
      .ok (sources.map (Path.joinAll root))) :
    ∃ report, Setting.report { x with tree := top } rules root = .ok report ∧
      report.filesWithIssues =
        ((sources.filterMap (Entry.read? top x.base root)).filter (Entry.hasCalls rules)).map
          (Entry.report rules) :=
  ⟨_, report_eq_ok.2 ⟨_, hfiles, rfl⟩, ScanReport.filesWithIssues_scanFiles rules top x.base
    (Node.canonical_eq_ok.1 hs.root).2.1 hs.name⟩

/-- A first run modifies what the fixer accepts of the files to fix, and fails on the rest. A second
scan finds the files of the failures alone, and a second run modifies none. -/
theorem fix_converges (hv : rules.isValid = true) {report : ScanReport} (ht : x.tree.WellFormed)
    (hreport : x.report rules root = .ok report) :
    ∃ fixer outcomes warnings after second,
      Fixer.ofRoot rules x.tree x.base root false = .ok fixer ∧
      fixer.apply x.tree report.filesWithIssues = (outcomes, warnings, after) ∧
      List.Forall₂ (fun r o => o.file = r.file ∧ (r.needsFix = true →
          if fixer.accepts x.tree r.file then o.isModified = true else o.isFailed = true))
        report.filesWithIssues outcomes ∧
      Setting.report { x with tree := after } rules root = .ok second ∧
      second.candidates.map FileReport.file =
        (outcomes.filter Outcome.isFailed).map Outcome.file ∧
      Fixer.ofRoot rules after x.base root false = .ok fixer ∧
      (fixer.apply after second.filesWithIssues).2.2 = after ∧
      ∀ o ∈ (fixer.apply after second.filesWithIssues).1, o.isModified = false := by
  have hrules := RuleSet.isValid_iff.1 hv
  obtain ⟨files, hfiles, -⟩ := report_eq_ok.1 hreport
  obtain ⟨place, sources, rfl, hsources⟩ := Discovery.exists_sources ht hfiles
  obtain ⟨es, hes⟩ : ∃ es, sources.filterMap (Entry.read? x.tree x.base root) = es := ⟨_, rfl⟩
  obtain ⟨first, hfirst, hissues⟩ := exists_report hsources hfiles
  obtain rfl : report = first := Except.ok.inj (hreport.symm.trans hfirst)
  let fixer : Fixer := ⟨rules, ⟨place, rules.discovery.ignoredDirs⟩, false⟩
  have hfixer {top : Node} (htop : top.canonical x.base root = .ok place) :
      Fixer.ofRoot rules top x.base root false = .ok fixer := by
    rw [Fixer.ofRoot, Guard.ofPath, htop]
    rfl
  obtain ⟨outcomes, warnings, after, happly, hfates, hsettled⟩ :=
    Discovery.Sources.apply_scanned (x := fixer) hsources hrules rfl ht hes
  have hroot := (Node.canonical_congr hsettled.shape x.base root).trans hsources.root
  obtain ⟨second, hsecond, hissues'⟩ := exists_report hsources
    ((rules.discovery.files_congr hsettled.shape x.base root).trans hfiles)
  rw [hes] at hissues
  rw [hsources.filterMap_read? (x := fixer) hes hsettled] at hissues'
  have hstill : ∀ e ∈ (es.map (Entry.fixed fixer x.tree)).filter (Entry.hasCalls rules),
      e.Holds place after ∧ e.isFixed fixer after = false := by
    intro e he
    obtain ⟨e, hmem, rfl⟩ := List.mem_map.1 (List.mem_of_mem_filter he)
    exact ⟨hsettled.holds e hmem, Entry.isFixed_fixed hrules hsettled.shape e⟩
  obtain ⟨hlast, hnone⟩ := Fixer.apply_of_not_isFixed (x := fixer) hrules rfl
    (ht.of_shape hsettled.shape) hstill
  refine ⟨fixer, outcomes, warnings, after, second, hfixer hsources.root, hissues ▸ happly, ?_,
    hsecond, Fixer.file_candidates (x := fixer) hrules hfates hissues', hfixer hroot,
    hissues' ▸ hlast, hissues' ▸ hnone⟩
  rw [hissues]
  exact hfates.imp fun _ _ hfate => ⟨hfate.file, hfate.modified_or_failed⟩

/-- Of two files the one with the name of an ignored directory cannot be fixed. -/
theorem fix_converges_ignored :
    let rules : RuleSet := { RuleSet.standard with
      rules := RuleSet.standardRules.take 1
      discovery := { RuleSet.standardDiscovery with ignoredDirs := ["b.ts".toList] } }
    let call := Utf8.encode "a.map(f)".toList
    let x : Setting := ⟨.dir [("a.ts".toList, .file call), ("b.ts".toList, .file call)], [], false⟩
    ∃ (report : ScanReport) (fixer : Fixer) (outcomes : List Outcome) (warnings : List Warning)
      (after : Node) (second : ScanReport),
      x.report rules ['.'] = .ok report ∧
      report.candidates.map FileReport.file = ["a.ts".toList, "b.ts".toList] ∧
      Fixer.ofRoot rules x.tree x.base ['.'] false = .ok fixer ∧
      fixer.apply x.tree report.filesWithIssues = (outcomes, warnings, after) ∧
      outcomes.map Outcome.isModified = [true, false] ∧
      outcomes.map Outcome.isFailed = [false, true] ∧
      Setting.report { x with tree := after } rules ['.'] = .ok second ∧
      second.candidates.map FileReport.file = ["b.ts".toList] ∧
      (fixer.apply after second.filesWithIssues).2.2 = after ∧
      ∀ o ∈ (fixer.apply after second.filesWithIssues).1, o.isModified = false := by
  intro rules call x
  have hv : rules.isValid = true := by decide +kernel
  have ht : x.tree.WellFormed := by decide +kernel
  have hd : x.tree.at? x.base =
    some (.dir [("a.ts".toList, .file call), ("b.ts".toList, .file call)]) := rfl
  let sources : List Place := [["a.ts".toList], ["b.ts".toList]]
  have hfiles : rules.discovery.files x.tree x.base ['.'] =
      .ok (sources.map (Path.joinAll ['.'])) := by
    have hin : Discovery.filesIn rules.discovery.ignoredDirs
      (.dir [("a.ts".toList, .file call), ("b.ts".toList, .file call)]) = sources := rfl
    rw [Discovery.files_here hd, Discovery.sourcesIn, hin, List.filter_eq_self.2 (by decide),
      List.mergeSort_of_pairwise (by decide)]
  have hat : ∀ names ∈ sources, x.tree.at? names = some (.file call) :=
    List.forall_mem_cons.2 ⟨rfl, List.forall_mem_singleton.2 rfl⟩
  have hsources : Discovery.Sources x.tree x.base ['.'] [] sources :=
    ⟨Node.canonical_here hd, by decide, by decide, fun names hmem => ⟨call, hat names hmem⟩⟩
  have hpaths : ∀ names ∈ sources, names ≠ [] ∧
      Node.checkPath (Path.joinAll ['.'] names) = .ok () ∧ ∀ name ∈ names, Utf8.size name ≤ 255 := by
    decide
  have hread := hsources.filterMap_read?_eq fun names hmem =>
    ⟨(hpaths names hmem).1, (hpaths names hmem).2.1, (hpaths names hmem).2.2, hat names hmem⟩
  let es : List Entry := sources.map (Entry.mk · "a.map(f)".toList)
  have hcalls : ∀ e ∈ es, e.hasCalls rules = true := by decide +kernel
  have hneeds : ∀ r ∈ es.map (Entry.report rules), r.needsFix = true := by decide +kernel
  obtain ⟨report, hreport, hissues⟩ := exists_report hsources hfiles
  rw [hread, List.filter_eq_self.2 hcalls] at hissues
  have hcandidates : report.candidates.map FileReport.file = ["a.ts".toList, "b.ts".toList] := by
    rw [ScanReport.candidates, hissues, List.filter_eq_self.2 hneeds]
    rfl
  obtain ⟨fixer, outcomes, warnings, after, second, hfixer, happly, hfates, hsecond, hfailed, -,
    hlast, hnone⟩ := fix_converges hv ht hreport
  obtain ⟨place, hplace, rfl⟩ := Fixer.ofRoot_eq_ok.1 hfixer
  obtain rfl := Except.ok.inj ((Node.canonical_here hd).symm.trans hplace)
  let g : Guard := ⟨[], ["b.ts".toList]⟩
  have haccepted : Fixer.accepts ⟨rules, g, false⟩ x.tree "a.ts".toList = true := by
    have hallowed : g.validate x.tree "a.ts".toList = .ok ["a.ts".toList] :=
      (Guard.validate_singleton (g := g) (by decide) (hat ["a.ts".toList] (by decide))
        ⟨by decide, by decide⟩).trans (if_neg (by decide))
    rw [Fixer.accepts, hallowed]
    decide
  have hrefused : ¬ Fixer.accepts ⟨rules, g, false⟩ x.tree "b.ts".toList = true := by
    have hforbidden : g.validate x.tree "b.ts".toList = .error (.forbidden _ _) :=
      (Guard.validate_singleton (g := g) (by decide) (hat ["b.ts".toList] (by decide))
        ⟨by decide, by decide⟩).trans (if_pos (by decide))
    rw [Fixer.accepts, hforbidden]
    decide
  rw [hissues] at hfates
  obtain ⟨o, os, ⟨-, hfirst⟩, hrest, rfl⟩ := List.forall₂_cons_left_iff.1 hfates
  obtain ⟨o', os', ⟨hfile, hlater⟩, hnil, rfl⟩ := List.forall₂_cons_left_iff.1 hrest
  obtain rfl := List.forall₂_nil_left_iff.1 hnil
  have hmodified : o.isModified = true :=
    (if_pos haccepted).mp (hfirst (hneeds _ List.mem_cons_self))
  have hfailed' : o'.isFailed = true :=
    (if_neg hrefused).mp (hlater (hneeds _ (List.mem_cons_of_mem _ List.mem_cons_self)))
  have hunfailed := Outcome.isFailed_of_isModified hmodified
  have hunmodified := Outcome.isModified_of_isFailed hfailed'
  have hlate : o'.file = "b.ts".toList := hfile
  refine ⟨report, _, _, warnings, after, second, hreport, hcandidates, hfixer, happly, ?_, ?_,
    hsecond, ?_, hlast, hnone⟩
  · simp [hmodified, hunmodified]
  · simp [hunfailed, hfailed']
  · rw [hfailed]
    simp [hunfailed, hfailed', hlate]

end Setting
end GuardedCalls
