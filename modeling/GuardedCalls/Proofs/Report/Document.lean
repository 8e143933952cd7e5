import GuardedCalls.Proofs.Json.Reader
import GuardedCalls.Proofs.Text.Utf8
import GuardedCalls.Report.Document

/-! A report is read back from its document, provided that its numbers are counts that a document may
hold. Fields that are left out come back as what they stand for. -/

namespace GuardedCalls
open Json (Value Field Reader Reads maxCount)
open Json.Reader

theorem mapM_map_eq_some {α β : Type} {f : α → β} {g : β → Option α} {xs : List α}
    (h : ∀ x ∈ xs, g (f x) = some x) : (xs.map f).mapM g = some xs := by
  induction xs with
  | nil => rfl
  | cons x xs ih =>
    obtain ⟨hx, hxs⟩ := List.forall_mem_cons.1 h
    rw [List.map_cons, List.mapM_cons, hx, ih hxs]
    rfl

namespace Json.Reader.Written
variable {fields fields' : List Field} {fs fs' : List (Text × Value)}

theorem append (h : Written fields fs) (h' : Written fields' fs') :
    Written (fields ++ fields') (fs ++ fs') := by
  induction h with
  | nil => exact h'
  | given read _ ih => exact .given read ih
  | absent free _ ih => exact .absent free ih

theorem demanded (name : String) {r : Reader Value} {v : Value} (hv : Reads r v v)
    (h : Written fields fs) : Written (.demanded name r :: fields) ((name.toList, v) :: fs) :=
  .given (reads_present hv) h

theorem optionalText (name : String) (t : Option Text) :
    Written [⟨name.toList, false, nullable text⟩] (t.toList.map fun t => (name.toList, .text t)) := by
  cases t with
  | none => exact .absent rfl .nil
  | some t => exact .given (reads_nullable (reads_text t)) .nil

end Json.Reader.Written

/-- Line numbers are counts that a document may hold. -/
def Finding.Storable (f : Finding) : Prop :=
  f.line ≤ maxCount

structure FileReport.Storable (r : FileReport) : Prop where
  count : r.issuesCount ≤ maxCount
  issues : ∀ f ∈ r.issues, f.Storable

structure Totals.Storable (t : Totals) : Prop where
  files : t.files ≤ maxCount
  filesProtected : t.filesProtected ≤ maxCount
  filesWithIssues : t.filesWithIssues ≤ maxCount
  issues : t.issues ≤ maxCount

structure ScanReport.Storable (r : ScanReport) : Prop where
  totals : r.totals.Storable
  files : ∀ f ∈ r.filesWithIssues, f.Storable

theorem reads_map {α : Type} {reader : Reader Value} {toValue : α → Value} {xs : List α}
    (h : ∀ x ∈ xs, Reads reader (toValue x) (toValue x)) :
    Reads (list reader) (.list (xs.map toValue)) (.list (xs.map toValue)) := by
  apply reads_list
  intro v hv
  obtain ⟨x, hx, rfl⟩ := List.mem_map.1 hv
  exact h x hx

namespace Finding

theorem reads_toValue {f : Finding} (h : f.Storable) : Reads reader f.toValue f.toValue :=
  reads_record (by decide) (.demanded _ (reads_count h) (.demanded _ (reads_text _)
    (.demanded _ (reads_text _) (.demanded _ (reads_text _) .nil))))

theorem ofValue?_toValue (f : Finding) : ofValue? f.toValue = some f := rfl

end Finding

namespace FileReport

theorem reads_toValue {r : FileReport} (h : r.Storable) : Reads reader r.toValue r.toValue := by
  have hissues := reads_map fun f hf => Finding.reads_toValue (h.issues f hf)
  have hgiven := Written.demanded "file" (reads_text r.file) (.demanded "alreadyProtected"
    (reads_bool r.alreadyProtected) (.demanded "issuesCount" (reads_count h.count)
      (.demanded "issues" hissues .nil)))
  exact reads_record (by decide) ((hgiven.append (.optionalText "contentHash" r.contentHash)).append
    (.optionalText "error" r.error))

theorem ofValue?_toValue (r : FileReport) : ofValue? r.toValue = some r := by
  have hissues : (r.issues.map Finding.toValue).mapM Finding.ofValue? = some r.issues :=
    mapM_map_eq_some fun f _ => f.ofValue?_toValue
  have hfields : ofValue? r.toValue = ((r.issues.map Finding.toValue).mapM Finding.ofValue?).map
      fun issues => { r with issues } := by
    obtain ⟨file, alreadyProtected, issuesCount, issues, contentHash, error⟩ := r
    rw [Option.map_eq_bind]
    cases contentHash <;> cases error <;> rfl
  rw [hfields, hissues, Option.map_some]

end FileReport

namespace Totals

theorem reads_toValue {t : Totals} (h : t.Storable) : Reads reader t.toValue t.toValue :=
  reads_record (by decide) (.demanded _ (reads_count h.files)
    (.demanded _ (reads_count h.filesProtected) (.demanded _ (reads_count h.filesWithIssues)
      (.demanded _ (reads_count h.issues) .nil))))

theorem ofValue?_toValue (t : Totals) : ofValue? t.toValue = some t := rfl

end Totals

namespace FailedFile

theorem reads_toValue (f : FailedFile) : Reads reader f.toValue f.toValue :=
  reads_record (by decide) (.demanded _ (reads_text _) (.demanded _ (reads_text _) .nil))

theorem ofValue?_toValue (f : FailedFile) : ofValue? f.toValue = some f := rfl

end FailedFile

namespace ScanReport

theorem reads_toValue {r : ScanReport} (h : r.Storable) : Reads reader r.toValue r.toValue := by
  have hfiles := reads_map fun f hf => FileReport.reads_toValue (h.files f hf)
  have hnames := reads_map fun t (_ : t ∈ r.filesProtected) => reads_text t
  have hfailed := reads_map fun f (_ : f ∈ r.filesFailed) => FailedFile.reads_toValue f
  refine reads_record (by decide) (.demanded "summary" (Totals.reads_toValue h.totals)
    (.demanded "filesWithIssues" hfiles (.demanded "filesProtected" hnames ?_)))
  cases hempty : r.filesFailed.isEmpty with
  | false => exact .given (reads_present hfailed) .nil
  | true => exact .absent rfl .nil

theorem ofValue?_toValue (r : ScanReport) : ofValue? r.toValue = some r := by
  have hfiles : (r.filesWithIssues.map FileReport.toValue).mapM FileReport.ofValue? =
      some r.filesWithIssues := mapM_map_eq_some fun f _ => f.ofValue?_toValue
  have hfailed : (r.filesFailed.map FailedFile.toValue).mapM FailedFile.ofValue? =
      some r.filesFailed := mapM_map_eq_some fun f _ => f.ofValue?_toValue
  have hnames : (r.filesProtected.map Value.text).mapM textOf? = some r.filesProtected :=
    mapM_map_eq_some fun _ _ => rfl
  have hfields : ofValue? r.toValue =
      (Totals.ofValue? r.totals.toValue).bind fun totals =>
        ((r.filesWithIssues.map FileReport.toValue).mapM FileReport.ofValue?).bind fun files =>
          ((r.filesProtected.map Value.text).mapM textOf?).bind fun names =>
            ((r.filesFailed.map FailedFile.toValue).mapM FailedFile.ofValue?).bind fun failed =>
              some ⟨totals, files, names, failed⟩ := by
    obtain ⟨totals, filesWithIssues, filesProtected, filesFailed⟩ := r
    cases filesFailed <;> rfl
  rw [hfields, Totals.ofValue?_toValue, hfiles, hnames, hfailed]
  rfl

/-- The document of a report, with a newline at its end, is read as that report. -/
theorem ofDocument_toDocument {r : ScanReport} (h : r.Storable) :
    ofDocument (r.toDocument ++ ['\n']) = .ok r := by
  rw [ofDocument, toDocument, readAll_write (reads_toValue h), ok_bind, ofValue?_toValue]

theorem ofBytes_encode {r : ScanReport} (h : r.Storable) (path : Text) :
    ofBytes path (Utf8.encode (r.toDocument ++ ['\n'])) = .ok r := by
  rw [ofBytes, Utf8.decode_encode]
  simp only [ofDocument_toDocument h]
  rfl

end ScanReport
end GuardedCalls
