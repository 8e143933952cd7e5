import GuardedCalls.Text.Search

/-!
Method calls on a line: an identifier, a point, the method and an opening parenthesis.
-/

namespace GuardedCalls

/-- A call `receiver.method(`; `column` counts the characters before the receiver. -/
structure Call where
  column : Nat
  receiver : Text
deriving DecidableEq, Repr

namespace Call

/-- The text that closes a receiver and opens the call. -/
def opening (method : Text) : Text :=
  '.' :: method ++ ['(']

/-- The identifier that ends with `c`, given the one that ends before `c`; both are spelled from
their end. -/
def grow (run : Text) (c : Char) : Text :=
  if Text.isIdentStart c || (Text.isIdentChar c && !run.isEmpty) then c :: run else []

/-- The calls whose receiver ends at column `i` or later. `run` is the identifier that ends there, spelled from its
end, and `skip` more characters belong to the call before. -/
def onFrom (method : Text) (i skip : Nat) (run : Text) : Text → List Call
  | [] => []
  | c :: cs =>
    match skip with
    | skip + 1 => onFrom method (i + 1) skip [] cs
    | 0 =>
      if !run.isEmpty && (Text.stripPrefix? (opening method) (c :: cs)).isSome then
        ⟨i - run.length, run.reverse⟩ :: onFrom method (i + 1) (method.length + 1) [] cs
      else onFrom method (i + 1) 0 (grow run c) cs

/-- The calls of a method on a line from left to right, none beginning inside another. -/
def on (method line : Text) : List Call :=
  onFrom method 0 0 [] line

end Call

def receivers (method line : Text) : List Text :=
  (Call.on method line).map Call.receiver

end GuardedCalls
