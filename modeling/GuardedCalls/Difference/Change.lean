import GuardedCalls.Difference.Compact
import GuardedCalls.Difference.Shortest

/-!
The changes from one text to another, as they are listed: between kept lines the removed ones come
before the added ones.
-/

namespace GuardedCalls

/-- What becomes of a line. -/
inductive Mark
  | kept
  | removed
  | added
deriving DecidableEq, Repr

structure Change where
  mark : Mark
  line : Text
deriving DecidableEq, Repr

namespace Change

/-- A line as it is shown; one without an end gets a newline. -/
def shown (c : Change) : Text :=
  let sign := match c.mark with
    | .kept => ' '
    | .removed => '-'
    | .added => '+'
  let isEnded := c.line.getLast?.any fun e => e = '\n' || e = '\r'
  sign :: c.line ++ if isEnded then [] else ['\n']

/-- Lists the lines of runs; `removed` and `added` are those since the last kept line. -/
def ofRuns (removed added : List Text) : List Run → List Change
  | [] => flush
  | .keep ls :: runs => flush ++ ls.map (⟨.kept, ·⟩) ++ ofRuns [] [] runs
  | .remove ls :: runs => ofRuns (removed ++ ls) added runs
  | .add ls :: runs => ofRuns removed (added ++ ls) runs
where
  flush : List Change :=
    removed.map (⟨.removed, ·⟩) ++ added.map (⟨.added, ·⟩)

def between (old new : Text) : List Change :=
  ofRuns [] [] (Difference.compact (Difference.shortest old.endedLines new.endedLines))

end Change
end GuardedCalls
