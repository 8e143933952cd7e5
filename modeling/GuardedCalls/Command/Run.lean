import GuardedCalls.Command.Arguments
import GuardedCalls.Command.Failure
import GuardedCalls.Command.Style
import GuardedCalls.Difference.Change

/-!
Running a command over a tree of files: what it prints, with which code it ends, and the tree after it.
-/

namespace GuardedCalls

/-- The tree and the directory that paths are seen from, and whether colours are shown. -/
structure Setting where
  tree : Node
  base : Place
  colors : Bool

/-- `out` is what a command answers, and `err` what it complains of. -/
structure Result where
  code : Nat
  out : Text
  err : Text
  tree : Node

/-- What a command prints. -/
structure Screen where
  out : Text
  err : Text
deriving DecidableEq, Repr

namespace Screen

def empty : Screen := ⟨[], []⟩

/-- Prints a line of several texts. -/
def line (s : Screen) (parts : List Text) : Screen :=
  { s with out := s.out ++ parts.flatten ++ ['\n'] }

def complaint (s : Screen) (parts : List Text) : Screen :=
  { s with err := s.err ++ parts.flatten ++ ['\n'] }

def append (s : Screen) (t : Text) : Screen :=
  { s with out := s.out ++ t }

def finish (s : Screen) (code : Nat) (tree : Node) : Result :=
  ⟨code, s.out, s.err, tree⟩

/-- Ends a command with a fault. -/
def fail (s : Screen) (tree : Node) (f : Failure) : Result :=
  ⟨1, s.out, s.err ++ f.report, tree⟩

end Screen

namespace Setting

def paint (x : Setting) (style : Style) (t : String) : Text :=
  style.paint x.colors t.toList

def paintNat (x : Setting) (style : Style) (n : Nat) : Text :=
  style.paint x.colors (Text.ofNat n)

/-- The report of a scan of all source files under a root. -/
def report (x : Setting) (rules : RuleSet) (root : Text) : Except Failure ScanReport :=
  match rules.discovery.files x.tree x.base root with
  | .error e => .error (.ofWalk root e)
  | .ok files => .ok (.ofFiles (rules.scanFiles x.tree x.base root files).1)

def showTotals (x : Setting) (r : ScanReport) (s : Screen) : Screen :=
  let s := s.line [x.paint .bold "Summary:"]
  let s := s.line ["  ".toList, Text.ofNat r.totals.files, " files scanned".toList]
  let s := s.line
    ["  ".toList, x.paintNat .green r.totals.filesProtected, " files already protected".toList]
  let s := s.line
    ["  ".toList, x.paintNat .yellow r.totals.filesWithIssues, " files with issues".toList]
  let s := s.line ["  ".toList, x.paintNat .yellow r.totals.issues, " issues total".toList]
  if r.filesFailed.isEmpty then s
  else s.line ["  ".toList, x.paintNat .red r.filesFailed.length, " files unreadable".toList]

def scan (x : Setting) (root : Text) (config : Option Text) (output : Text)
    (worklist : Option Text) : Result :=
  match RuleSet.load x.tree x.base config with
  | .error e => Screen.empty.fail x.tree (.ofRules e)
  | .ok rules =>
    let s := Screen.empty.line ["Scanning ".toList, root, "...".toList]
    match x.report rules root with
    | .error e => s.fail x.tree e
    | .ok report =>
      let s := report.filesFailed.foldl (fun s failed =>
        s.complaint [x.paint .red "✗", [' '], failed.file, ": ".toList, failed.error]) s
      match report.save x.tree x.base output with
      | .error e => s.fail x.tree (.ofReport e)
      | .ok tree =>
        let s := s.line ["Report written to ".toList, output]
        let ending (s : Screen) : Screen := x.showTotals report (s.line [])
        match worklist with
        | none => (ending s).finish 0 tree
        | some path =>
          match report.saveWorklist tree x.base path with
          | .error e => s.fail tree (.ofReport e)
          | .ok tree => (ending (s.line ["Worklist written to ".toList, path])).finish 0 tree

def paintChange (x : Setting) (c : Change) : Text :=
  match c.mark with
  | .kept => c.shown
  | .removed => Style.red.paint x.colors c.shown
  | .added => Style.green.paint x.colors c.shown

/-- What fixing an entry would change in its file. -/
def showChange (x : Setting) (fixer : Fixer) (r : FileReport) (s : Screen) : Screen :=
  let dim (t : Text) : Text := Style.dimmed.paint x.colors t
  match fixer.plan x.tree r with
  | .ok p =>
    if p.isChange then
      let s := s.line [['\n'], dim ("--- ".toList ++ p.file ++ " (original)".toList)]
      let s := s.line [dim ("+++ ".toList ++ p.file ++ " (fixed)".toList)]
      s.append ((Change.between p.original p.rewrite.text).flatMap x.paintChange)
    else s
  | .error e =>
    s.line [dim ("cannot diff ".toList ++ r.file ++ ": ".toList ++ e.message)]

def showOutcome (x : Setting) (dryRun : Bool) (s : Screen) : Outcome → Screen
  | .modified file calls importAdded =>
    s.line [x.paint .green "✓", (if dryRun then " Would fix " else " Fixed ").toList, file,
      " (".toList, Text.ofNat calls, " calls".toList,
      if importAdded then ", import added".toList else [], [')']]
  | .skipped file reason =>
    s.line [x.paint .cyan "⊘", [' '], file, ": Skipped (".toList, reason.message, [')']]
  | .failed file reason =>
    s.complaint [x.paint .red "✗", [' '], file, ": Failed - ".toList, reason]

def fix (x : Setting) (root : Text) (config : Option Text) (path : Text) (dryRun diff : Bool) :
    Result :=
  match RuleSet.load x.tree x.base config with
  | .error e => Screen.empty.fail x.tree (.ofRules e)
  | .ok rules =>
    match ScanReport.load x.tree x.base path with
    | .error e => Screen.empty.fail x.tree (.ofReport e)
    | .ok report =>
      match Fixer.ofRoot rules x.tree x.base root dryRun with
      | .error e => Screen.empty.fail x.tree (.ofSafety root e)
      | .ok fixer =>
        let s := Screen.empty.line ["Project root: ".toList, root]
        let s := s.line ["Report: ".toList, path]
        let s := if dryRun then s.line [x.paint .cyan "[DRY RUN - no files will be modified]"] else s
        let s := s.line []
        let s :=
          if diff then (report.candidates.foldl (fun s r => x.showChange fixer r s) s).line [] else s
        let (outcomes, _, tree) := fixer.apply x.tree report.filesWithIssues
        let s := outcomes.foldl (x.showOutcome dryRun) s
        let failed := outcomes.countP Outcome.isFailed
        let s := (s.line []).line [x.paint .bold "Summary:"]
        let s := s.line
          ["  ".toList, x.paintNat .green (outcomes.countP Outcome.isModified), " fixed".toList]
        let s := s.line
          ["  ".toList, x.paintNat .cyan (outcomes.countP Outcome.isSkipped), " skipped".toList]
        let s := s.line ["  ".toList, x.paintNat .red failed, " failed".toList]
        s.finish (if failed = 0 then 0 else 1) tree

def check (x : Setting) (root : Text) (config : Option Text) : Result :=
  match RuleSet.load x.tree x.base config with
  | .error e => Screen.empty.fail x.tree (.ofRules e)
  | .ok rules =>
    match x.report rules root with
    | .error e => Screen.empty.fail x.tree e
    | .ok report =>
      let candidates := report.candidates
      if candidates.isEmpty then
        (Screen.empty.line [x.paint .green "✓", " No unguarded array calls found".toList]).finish 0
          x.tree
      else
        let s := Screen.empty.line [x.paint .red "✗", [' '],
          x.paintNat .boldRed candidates.length, " files need fixing:".toList]
        let s := candidates.foldl (fun s r =>
          s.line ["  - ".toList, r.file, " (".toList, Text.ofNat r.issuesCount,
            " issues)".toList]) s
        (x.showTotals report (s.line [])).finish 1 x.tree

def rules (x : Setting) (config : Option Text) : Result :=
  match RuleSet.load x.tree x.base config with
  | .error e => Screen.empty.fail x.tree (.ofRules e)
  | .ok rules =>
    let s := Screen.empty.line [x.paint .bold "Methods:"]
    let s := rules.rules.foldl (fun s rule =>
      s.line ["  .".toList, rule.method, "(  ->  ".toList, rule.helper, ['(']]) s
    let s := (s.line []).line [x.paint .bold "Helper module:", [' '], rules.helperModule]
    let s := s.line [x.paint .bold "Empty check:", [' '], rules.emptyHelper]
    let s := (s.line []).line [x.paint .bold "Exempt identifiers:"]
    (rules.exempt.foldl (fun s name => s.line ["  ".toList, name]) s).finish 0 x.tree

def run (x : Setting) : Command → Result
  | .scan root config output worklist => x.scan root config output worklist
  | .fix root config report dryRun diff => x.fix root config report dryRun diff
  | .check root config => x.check root config
  | .rules config => x.rules config

def usage : Text :=
  "Usage: array-guard [--verbose] <scan|fix|check|rules> [options]\n".toList

/-- Does what a command line asks for. -/
def invoke (x : Setting) : Invocation → Result
  | .run command => x.run command
  | .version => ⟨0, "array-guard 0.1.0\n".toList, [], x.tree⟩
  | .help => ⟨0, usage, [], x.tree⟩
  | .misuse => ⟨2, [], usage, x.tree⟩

end Setting
end GuardedCalls
