import GuardedCalls.Rewrite.Import
import GuardedCalls.Rewrite.LineEdit

/-!
Rewriting the calls of a source text into calls of the helpers, with one import of those helpers.
-/

namespace GuardedCalls

/-- Remarks on a rewrite or a scan that stop nothing. -/
inductive Warning
  | noHelper (line : Nat) (method : Text)
  | pastEnd (line count : Nat)
  | changedSinceScan (file : Text)
  | failed (file error : Text)
  | unreadable (file reason : Text)
deriving DecidableEq, Repr

namespace Warning

def message : Warning → Text
  | noHelper line method =>
    "no helper configured for method line=".toList ++ Text.ofNat line ++ " method=".toList ++ method
  | pastEnd line count =>
    "finding points past end of file line=".toList ++ Text.ofNat line ++ " line_count=".toList ++
      Text.ofNat count
  | changedSinceScan file =>
    "file changed since scan; trusting report line numbers file=".toList ++ file
  | failed file error => "rewrite failed error=".toList ++ error ++ " file=".toList ++ file
  | unreadable file reason =>
    "skipping unreadable file file=".toList ++ file ++ " reason=".toList ++ reason

end Warning

/-- `calls` counts the calls rewritten. -/
structure Rewrite where
  text : Text
  calls : Nat
  importAdded : Bool
  warnings : List Warning
deriving DecidableEq, Repr

namespace Rewrite

/-- The edit that turns the call of a finding into a call of the helper. -/
def callEdit (finding : Finding) (helper : Text) : LineEdit where
  line := finding.line
  search := finding.receiver ++ '.' :: finding.method ++ ['(']
  replacement := helper ++ '(' :: finding.receiver ++ ", ".toList

def edits (rules : RuleSet) (findings : List Finding) : List LineEdit :=
  findings.filterMap fun f => (rules.helperFor? f.method).map (callEdit f)

/-- The line ending of an inserted line is that of the first line. -/
def lineEnding (source : Text) : Text :=
  match Text.cut? ['\n'] source with
  | some (line, _) => if line.getLast? = some '\r' then ['\r', '\n'] else ['\n']
  | none => ['\n']

/-- Puts a new piece before piece `at`; a mark that begins the text stays its first character. -/
def insertPiece (i : Nat) (piece : Text) (pieces : List Text) : List Text :=
  match i, pieces with
  | 0, (c :: cs) :: rest =>
    if c = byteOrderMark then (c :: piece) :: cs :: rest else piece :: (c :: cs) :: rest
  | i, pieces => pieces.take i ++ piece :: pieces.drop i

def unknownMethods (rules : RuleSet) (findings : List Finding) : List Warning :=
  (findings.filter fun f => (rules.helperFor? f.method).isNone).map fun f =>
    .noHelper f.line f.method

def lostEdits (results : List EditResult) : List Warning :=
  results.filterMap fun
    | .outOfRange line count => some (.pastEnd line count)
    | _ => none

end Rewrite

/-- Rewrites the calls of the findings. The helpers are imported if a call was rewritten and the text
did not import from the helper module before. -/
def RuleSet.rewrite (rules : RuleSet) (source : Text) (findings : List Finding) : Rewrite :=
  let (results, pieces) := LineEdit.applyBatch (Rewrite.edits rules findings) source.pieces
  let calls := results.countP EditResult.isApplied
  let importAdded := 0 < calls && !Import.isPresent source rules.helperModule
  let statement := Import.statement (rules.requiredHelpers findings) rules.helperModule
  let place := (Import.first? source.pieces).getD 0
  let pieces :=
    if importAdded then Rewrite.insertPiece place (statement ++ Rewrite.lineEnding source) pieces
    else pieces
  { text := pieces.flatten, calls, importAdded,
    warnings := Rewrite.unknownMethods rules findings ++ Rewrite.lostEdits results }

end GuardedCalls
