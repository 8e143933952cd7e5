import GuardedCalls.Report.Document
import GuardedCalls.Rewrite.Source
import GuardedCalls.Rules.Load
import GuardedCalls.Scan.Source
import GuardedCalls.Tree.File

/-!
Rule sets, source files and reports in a tree of files.
-/

namespace GuardedCalls

/-- The rule set of a file, or the standard one when no file is given. -/
def RuleSet.load (top : Node) (base : Place) : Option Text → Except RuleError RuleSet
  | none => .ok .standard
  | some path =>
    match top.read base path with
    | .error fault => .error (.unreadable path fault.message)
    | .ok content => RuleSet.ofBytes path content

/-- The text of a source file, or the reason why there is none. -/
def Node.readSource (top : Node) (base : Place) (path : Text) : Except Text Text :=
  match top.read base path with
  | .error fault => .error fault.message
  | .ok content =>
    match Utf8.decode content with
    | .error fault => .error ("invalid UTF-8: ".toList ++ fault.message)
    | .ok t => .ok t

namespace RuleSet

/-- Scans the file at a path. -/
def scanFile (rules : RuleSet) (top : Node) (base : Place) (root path : Text) :
    FileReport × List Warning :=
  let file := Path.nameBelow root path
  match top.readSource base path with
  | .ok source => (rules.scan file source, [])
  | .error reason => (.failed file reason, [.unreadable file reason])

/-- Scans files in the order given. -/
def scanFiles (rules : RuleSet) (top : Node) (base : Place) (root : Text) (paths : List Text) :
    List FileReport × List Warning :=
  let scans := paths.map (rules.scanFile top base root)
  (scans.map Prod.fst, scans.flatMap Prod.snd)

end RuleSet

namespace ScanReport

def load (top : Node) (base : Place) (path : Text) : Except ReportError ScanReport :=
  match top.read base path with
  | .error fault => .error (.access path fault.message)
  | .ok content => ofBytes path content

private def saveText (top : Node) (base : Place) (path t : Text) : Except ReportError Node :=
  (top.write base path (Utf8.encode t)).mapError fun fault => .access path fault.message

def save (r : ScanReport) (top : Node) (base : Place) (path : Text) : Except ReportError Node :=
  saveText top base path (r.toDocument ++ ['\n'])

/-- Writes the names of the files to fix, one on a line. -/
def saveWorklist (r : ScanReport) (top : Node) (base : Place) (path : Text) :
    Except ReportError Node :=
  saveText top base path (r.worklist.flatMap (· ++ ['\n']))

end ScanReport
end GuardedCalls
