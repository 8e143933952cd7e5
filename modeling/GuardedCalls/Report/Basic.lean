import GuardedCalls.Text.Search

/-!
Reports of a scan: the calls found in each file, the totals, and the files that need fixing.
-/

namespace GuardedCalls

/-- A call found by a scan: its line, counted from one, and the trimmed text of that line. -/
structure Finding where
  line : Nat
  method : Text
  receiver : Text
  code : Text
deriving DecidableEq, Repr

/-- What is known of one file. A file with an `error` could not be scanned. -/
structure FileReport where
  file : Text
  alreadyProtected : Bool
  issuesCount : Nat
  issues : List Finding
  contentHash : Option Text
  error : Option Text
deriving DecidableEq, Repr

namespace FileReport

def ofFindings (file : Text) (alreadyProtected : Bool) (issues : List Finding) : FileReport :=
  ⟨file, alreadyProtected, issues.length, issues, none, none⟩

def failed (file error : Text) : FileReport :=
  ⟨file, false, 0, [], none, some error⟩

def needsFix (r : FileReport) : Bool :=
  0 < r.issuesCount && !r.alreadyProtected

end FileReport

structure Totals where
  files : Nat
  filesProtected : Nat
  filesWithIssues : Nat
  issues : Nat
deriving DecidableEq, Repr

/-- The issues are added in 64 bits, where a sum that does not fit wraps around. The files are counted
one by one and are never that many. -/
def Totals.ofFiles (files : List FileReport) : Totals where
  files := files.length
  filesProtected := files.countP (·.alreadyProtected)
  filesWithIssues := files.countP (0 < ·.issuesCount)
  issues := files.foldl (fun n r => (n + r.issuesCount) % UInt64.size) 0

structure FailedFile where
  file : Text
  error : Text
deriving DecidableEq, Repr

structure ScanReport where
  totals : Totals
  filesWithIssues : List FileReport
  filesProtected : List Text
  filesFailed : List FailedFile
deriving DecidableEq, Repr

namespace ScanReport

def empty : ScanReport :=
  ⟨⟨0, 0, 0, 0⟩, [], [], []⟩

/-- Files that failed count in the totals, but stand in no list except that of failures. -/
def ofFiles (files : List FileReport) : ScanReport where
  totals := .ofFiles files
  filesWithIssues := files.filter fun r => r.error.isNone && 0 < r.issuesCount
  filesProtected :=
    (files.filter fun r => r.error.isNone && r.alreadyProtected).map FileReport.file
  filesFailed := files.filterMap fun r => r.error.map fun error => ⟨r.file, error⟩

def candidates (r : ScanReport) : List FileReport :=
  r.filesWithIssues.filter FileReport.needsFix

/-- More findings come first, and among equals the smaller name. -/
def comesBefore (a b : FileReport) : Bool :=
  b.issuesCount < a.issuesCount || (a.issuesCount = b.issuesCount && Text.le a.file b.file)

/-- The names of the files to fix, in the order in which to look at them. -/
def worklist (r : ScanReport) : List Text :=
  (r.candidates.mergeSort comesBefore).map FileReport.file

end ScanReport
end GuardedCalls
