import GuardedCalls.Text.Basic

/-!
How one text comes from another, line by line.
-/

namespace GuardedCalls

/-- Lines that both texts share, lines that only the first has, or lines that only the second has. -/
inductive Run
  | keep (lines : List Text)
  | remove (lines : List Text)
  | add (lines : List Text)
deriving DecidableEq, Repr

namespace Run

def before : Run → List Text
  | keep ls => ls
  | remove ls => ls
  | add _ => []

def after : Run → List Text
  | keep ls => ls
  | remove _ => []
  | add ls => ls

def size : Run → Nat
  | keep ls => ls.length
  | remove ls => ls.length
  | add ls => ls.length

end Run

/-- The lines of a text with their ends: a newline, a carriage return, or both in the other order. -/
def Text.endedLines : Text → List Text
  | [] => []
  | '\r' :: '\n' :: t => ['\r', '\n'] :: endedLines t
  | c :: t =>
    if c = '\n' || c = '\r' then [c] :: endedLines t
    else
      match endedLines t with
      | [] => [[c]]
      | l :: ls => (c :: l) :: ls

/-- How many lines two lists have in common at their front. -/
def commonStart : List Text → List Text → Nat
  | a :: as, b :: bs => if a = b then commonStart as bs + 1 else 0
  | _, _ => 0

end GuardedCalls
