import GuardedCalls.Text.Search

/-!
Edits of single lines, alone and in batches.
-/

namespace GuardedCalls

/-- Replaces the first occurrence of `search` on a line; lines count from one. -/
structure LineEdit where
  line : Nat
  search : Text
  replacement : Text
deriving DecidableEq, Repr

inductive EditResult
  | applied (line : Nat)
  | notFound (line : Nat)
  | outOfRange (line count : Nat)
deriving DecidableEq, Repr

namespace EditResult

def isApplied : EditResult → Bool
  | applied _ => true
  | _ => false

end EditResult

namespace LineEdit

/-- The line an edit is for. -/
def target? (e : LineEdit) (lines : List Text) : Option Text :=
  if e.line = 0 then none else lines[e.line - 1]?

def result (e : LineEdit) (lines : List Text) : EditResult :=
  match e.target? lines with
  | none => .outOfRange e.line lines.length
  | some line =>
    if (Text.replaceFirst? e.search e.replacement line).isSome then .applied e.line
    else .notFound e.line

/-- The lines after an edit; one that does not apply changes nothing. -/
def apply (e : LineEdit) (lines : List Text) : List Text :=
  match (e.target? lines).bind (Text.replaceFirst? e.search e.replacement) with
  | none => lines
  | some line => lines.set (e.line - 1) line

/-- Applies edits one after the other and collects their results. -/
def applyAll : List LineEdit → List Text → List EditResult × List Text
  | [], lines => ([], lines)
  | e :: es, lines =>
    let (results, after) := applyAll es (e.apply lines)
    (e.result lines :: results, after)

/-- The order of a batch: later lines first, and edits of one line as given. -/
def batchOrder (es : List LineEdit) : List LineEdit :=
  es.mergeSort fun a b => b.line ≤ a.line

def applyBatch (es : List LineEdit) (lines : List Text) : List EditResult × List Text :=
  applyAll (batchOrder es) lines

end LineEdit
end GuardedCalls
