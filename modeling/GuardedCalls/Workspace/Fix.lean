import GuardedCalls.Rewrite.Source
import GuardedCalls.Text.Fingerprint
import GuardedCalls.Tree.Replace
import GuardedCalls.Workspace.Guard

/-!
Fixing the files of a report: each entry is planned, and its file is replaced if the plan changes it.
-/

namespace GuardedCalls

/-- Why an entry could not be fixed. -/
inductive FixFault
  | unsafePath (file : Text) (fault : SafetyFault)
  | unreadable (path : Place) (fault : TreeFault)
  | notText (path : Place)
  | unwritten (path : Place) (fault : ReplaceFault)
deriving DecidableEq, Repr

namespace FixFault

def message : FixFault → Text
  | unsafePath file fault => "unsafe path ".toList ++ file ++ ": ".toList ++ fault.message
  | unreadable path fault =>
    "failed to read ".toList ++ path.toText ++ ": ".toList ++ fault.message
  | notText path => path.toText ++ " is not valid UTF-8".toList
  | unwritten path fault =>
    "failed to write ".toList ++ path.toText ++ ": ".toList ++ fault.message

end FixFault

/-- What fixing an entry would make of its file. -/
structure Plan where
  file : Text
  path : Place
  original : Text
  rewrite : Rewrite
  warnings : List Warning
deriving DecidableEq, Repr

def Plan.isChange (p : Plan) : Bool :=
  p.original ≠ p.rewrite.text

inductive SkipReason
  | noFindings
  | alreadyProtected
  | noChange
deriving DecidableEq, Repr

def SkipReason.message : SkipReason → Text
  | noFindings => "no findings".toList
  | alreadyProtected => "already protected".toList
  | noChange => "no matching call sites".toList

/-- What became of an entry. -/
inductive Outcome
  | modified (file : Text) (calls : Nat) (importAdded : Bool)
  | skipped (file : Text) (reason : SkipReason)
  | failed (file : Text) (reason : Text)
deriving DecidableEq, Repr

namespace Outcome

def file : Outcome → Text
  | modified file .. => file
  | skipped file _ => file
  | failed file _ => file

def isModified : Outcome → Bool
  | modified .. => true
  | _ => false

def isSkipped : Outcome → Bool
  | skipped .. => true
  | _ => false

def isFailed : Outcome → Bool
  | failed .. => true
  | _ => false

def message : Outcome → Text
  | modified file calls importAdded =>
    "Modified ".toList ++ file ++ " (".toList ++ Text.ofNat calls ++ " calls".toList ++
      (if importAdded then ", import added".toList else []) ++ [')']
  | skipped file reason => "Skipped ".toList ++ file ++ ": ".toList ++ reason.message
  | failed file reason => "Failed on ".toList ++ file ++ ": ".toList ++ reason

end Outcome

/-- Rules, the guard of the root, and whether files are left as they are. -/
structure Fixer where
  rules : RuleSet
  guard : Guard
  dryRun : Bool
deriving DecidableEq, Repr

namespace Fixer

def ofRoot (rules : RuleSet) (top : Node) (base : Place) (root : Text) (dryRun : Bool) :
    Except SafetyFault Fixer := do
  let guard ← Guard.ofPath top base root rules.discovery.ignoredDirs
  return { rules, guard, dryRun }

/-- Reads the file of an entry and computes its rewrite. The lines of the entry are taken as they are,
also when the file has changed since. -/
def plan (x : Fixer) (top : Node) (r : FileReport) : Except FixFault Plan := do
  let path ← (x.guard.validate top r.file).mapError (.unsafePath r.file)
  let content ← (top.read [] path.toText).mapError (.unreadable path)
  let original ← (Utf8.decode content).mapError fun _ => .notText path
  let rewrite := x.rules.rewrite original r.issues
  let changed := r.contentHash.any (· ≠ original.fingerprint)
  return {
    file := r.file, path, original, rewrite
    warnings := (if changed then [.changedSinceScan r.file] else []) ++ rewrite.warnings }

/-- Writes what a plan changes, except in a dry run. -/
def write (x : Fixer) (top : Node) (p : Plan) : Except FixFault Node :=
  if x.dryRun then .ok top
  else
    match top.replace [] p.path.toText (Utf8.encode p.rewrite.text) with
    | (.ok (), top) => .ok top
    | (.error fault, _) => .error (.unwritten p.path fault)

/-- Fixes the file of an entry and says whether it changed. -/
def fixFile (x : Fixer) (top : Node) (r : FileReport) :
    Except FixFault (Bool × List Warning × Node) := do
  let p ← x.plan top r
  if p.isChange then return (true, p.warnings, ← x.write top p)
  else return (false, p.warnings, top)

/-- What becomes of one entry, what is remarked, and the tree after it. -/
def applyOne (x : Fixer) (top : Node) (r : FileReport) : Outcome × List Warning × Node :=
  if r.issuesCount = 0 then (.skipped r.file .noFindings, [], top)
  else if r.alreadyProtected then (.skipped r.file .alreadyProtected, [], top)
  else
    match x.plan top r with
    | .error e => fail [] e
    | .ok p =>
      if p.isChange then
        match x.write top p with
        | .ok after => (.modified r.file p.rewrite.calls p.rewrite.importAdded, p.warnings, after)
        | .error e => fail p.warnings e
      else (.skipped r.file .noChange, p.warnings, top)
where
  fail (warnings : List Warning) (e : FixFault) : Outcome × List Warning × Node :=
    (.failed r.file e.message, warnings ++ [.failed r.file e.message], top)

/-- Fixes the entries one after the other; a failure does not stop the rest. -/
def apply (x : Fixer) (top : Node) : List FileReport → List Outcome × List Warning × Node
  | [] => ([], [], top)
  | r :: rs =>
    let (outcome, warnings, top) := x.applyOne top r
    let (outcomes, more, top) := x.apply top rs
    (outcome :: outcomes, warnings ++ more, top)

end Fixer
end GuardedCalls
