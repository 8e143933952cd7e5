import GuardedCalls.Text.Basic

/-!
The values that a document may hold, and the ways in which reading one can fail.
-/

namespace GuardedCalls.Json

/-- A record keeps its fields in the order in which they are written. -/
inductive Value
  | text (t : Text)
  | bool (b : Bool)
  | count (n : Nat)
  | list (items : List Value)
  | record (fields : List (Text × Value))
deriving Repr

/-- `malformed`: the characters cannot be part of any document. `truncated`: the text ends inside a
value. `mismatched`: the document is well formed so far, but its values are not those asked for. -/
inductive Fault
  | malformed
  | truncated
  | mismatched
deriving DecidableEq, Repr

/-- Takes a value from the front of a text and leaves the rest. -/
abbrev Reader (α : Type) := Text → Except Fault (α × Text)

def isSpace (c : Char) : Bool :=
  c = ' ' || c = '\n' || c = '\r' || c = '\t'

def skipSpace (t : Text) : Text :=
  t.dropWhile isSpace

/-- Takes one given character. -/
def expect (c : Char) : Text → Except Fault Text
  | [] => .error .truncated
  | d :: t => if d = c then .ok t else .error .malformed

def expectAll (word t : Text) : Except Fault Text :=
  word.foldlM (fun t c => expect c t) t

/-- The greatest count that a document may hold. -/
def maxCount : Nat := Nat.pow 2 64 - 1

theorem length_of_expect {c : Char} {t r : Text} (h : expect c t = .ok r) :
    r.length < t.length := by
  cases t with
  | nil => simp [expect] at h
  | cons d t => grind [expect]

end GuardedCalls.Json
