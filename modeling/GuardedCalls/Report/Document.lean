import GuardedCalls.Json.Printer
import GuardedCalls.Json.Reader
import GuardedCalls.Report.Basic
import GuardedCalls.Text.Utf8

/-!
The document in which a report is kept: which fields its records have, and reading and writing it.
-/

namespace GuardedCalls
open Json (Value Reader Field)

private def field (name : String) (v : Value) : Text × Value :=
  (name.toList, v)

private def optional (name : String) (t : Option Text) : List (Text × Value) :=
  t.toList.map fun t => field name (.text t)

private def optionalText (name : String) : Field :=
  ⟨name.toList, false, Reader.nullable Reader.text⟩

def textOf? : Value → Option Text
  | .text t => some t
  | _ => none

private def textAt (name : String) (fields : List (Text × Value)) : Option Text :=
  (fields.lookup name.toList).bind textOf?

private def itemsOf : Value → List Value
  | .list vs => vs
  | _ => []

namespace Finding

def toValue (f : Finding) : Value :=
  .record [field "line" (.count f.line), field "method" (.text f.method),
    field "variable" (.text f.receiver), field "code" (.text f.code)]

def reader : Reader Value :=
  .record [.demanded "line" .count, .demanded "method" .text, .demanded "variable" .text,
    .demanded "code" .text]

def ofValue? : Value → Option Finding
  | .record [(_, .count line), (_, .text method), (_, .text receiver), (_, .text code)] =>
    some { line, method, receiver, code }
  | _ => none

end Finding

namespace FileReport

def toValue (r : FileReport) : Value :=
  .record ([field "file" (.text r.file), field "alreadyProtected" (.bool r.alreadyProtected),
    field "issuesCount" (.count r.issuesCount),
    field "issues" (.list (r.issues.map Finding.toValue))] ++
    optional "contentHash" r.contentHash ++ optional "error" r.error)

def reader : Reader Value :=
  .record [.demanded "file" .text, .demanded "alreadyProtected" .bool, .demanded "issuesCount" .count,
    .demanded "issues" (.list Finding.reader), optionalText "contentHash", optionalText "error"]

def ofValue? : Value → Option FileReport
  | .record ((_, .text file) :: (_, .bool alreadyProtected) :: (_, .count issuesCount) ::
      (_, .list issues) :: rest) => do
    let issues ← issues.mapM Finding.ofValue?
    return { file, alreadyProtected, issuesCount, issues, contentHash := textAt "contentHash" rest,
             error := textAt "error" rest }
  | _ => none

end FileReport

namespace Totals

def toValue (t : Totals) : Value :=
  .record [field "totalFiles" (.count t.files), field "filesProtected" (.count t.filesProtected),
    field "filesWithIssues" (.count t.filesWithIssues), field "totalIssues" (.count t.issues)]

def reader : Reader Value :=
  .record [.demanded "totalFiles" .count, .demanded "filesProtected" .count,
    .demanded "filesWithIssues" .count, .demanded "totalIssues" .count]

def ofValue? : Value → Option Totals
  | .record [(_, .count files), (_, .count filesProtected), (_, .count filesWithIssues),
      (_, .count issues)] => some { files, filesProtected, filesWithIssues, issues }
  | _ => none

end Totals

namespace FailedFile

def toValue (f : FailedFile) : Value :=
  .record [field "file" (.text f.file), field "error" (.text f.error)]

def reader : Reader Value :=
  .record [.demanded "file" .text, .demanded "error" .text]

def ofValue? : Value → Option FailedFile
  | .record [(_, .text file), (_, .text error)] => some { file, error }
  | _ => none

end FailedFile

namespace ScanReport

/-- A report without failures has no field for them. -/
def toValue (r : ScanReport) : Value :=
  .record ([field "summary" r.totals.toValue,
    field "filesWithIssues" (.list (r.filesWithIssues.map FileReport.toValue)),
    field "filesProtected" (.list (r.filesProtected.map .text))] ++
    if r.filesFailed.isEmpty then []
    else [field "filesFailed" (.list (r.filesFailed.map FailedFile.toValue))])

def reader : Reader Value :=
  .record [.demanded "summary" Totals.reader,
    .demanded "filesWithIssues" (.list FileReport.reader),
    .demanded "filesProtected" (.list .text),
    ⟨"filesFailed".toList, false, Reader.present (.list FailedFile.reader)⟩]

def ofValue? : Value → Option ScanReport
  | .record ((_, totals) :: (_, .list withIssues) :: (_, .list isProtected) :: rest) => do
    let failed := ((rest.lookup "filesFailed".toList).map itemsOf).getD []
    return {
      totals := ← Totals.ofValue? totals
      filesWithIssues := ← withIssues.mapM FileReport.ofValue?
      filesProtected := ← isProtected.mapM textOf?
      filesFailed := ← failed.mapM FailedFile.ofValue? }
  | _ => none

def toDocument (r : ScanReport) : Text :=
  r.toValue.write 0

def ofDocument (t : Text) : Except Json.Fault ScanReport := do
  match ofValue? (← Json.readAll reader t) with
  | some r => .ok r
  | none => .error .mismatched

end ScanReport

/-- Why the report at a path was not read or not written. -/
inductive ReportError
  | access (path reason : Text)
  | malformed (path : Text) (fault : Json.Fault)
deriving DecidableEq, Repr

namespace ReportError

/-- What is said of a fault; of a malformed report only what precedes the place of the fault. -/
def message : ReportError → Text
  | access path reason => "failed to access report ".toList ++ path ++ ": ".toList ++ reason
  | malformed path _ => "malformed report ".toList ++ path ++ ": ".toList

end ReportError

/-- Reads the report in the file at `path` from its content. -/
def ScanReport.ofBytes (path : Text) (content : Bytes) : Except ReportError ScanReport :=
  match Utf8.decode content with
  | .error _ => .error (.access path Utf8.notText)
  | .ok t => (ScanReport.ofDocument t).mapError (.malformed path)

end GuardedCalls
