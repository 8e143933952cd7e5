import GuardedCalls.Text.Search
import GuardedCalls.Text.Word

/-!
Contexts on a line that show a receiver to be a literal collection there. Only the line itself
counts.
-/

namespace GuardedCalls

/-- `assigned`: the name is assigned a bracket. `converted`: some value goes through `Array.from`.
`spread`: the name is spread as the first item of a bracket. -/
inductive SafeContext
  | assigned
  | converted
  | spread
deriving DecidableEq, Repr

namespace SafeContext

/-- Whether `p` holds at some place of a text, given the character before it and the text after. -/
def anywhere (p : Option Char → Text → Bool) (before : Option Char) : Text → Bool
  | [] => p before []
  | c :: cs => p before (c :: cs) || anywhere p (some c) cs

/-- Whether `p` holds after some of the leading blanks, perhaps none of them. -/
def pastBlanks (p : Text → Bool) : Text → Bool
  | [] => p []
  | c :: cs => p (c :: cs) || (Text.isBlank c && pastBlanks p cs)

/-- What follows `c` when only blanks precede it. -/
def after? (c : Char) (t : Text) : Option Text :=
  Text.stripPrefix? [c] (t.dropWhile Text.isBlank)

def isAssigned (name : Text) (before : Option Char) (t : Text) : Bool :=
  !before.any Text.isIdentChar &&
    ((Text.stripPrefix? name t).bind (after? '=') |>.bind (after? '[')).isSome

def isConverted (before : Option Char) (t : Text) : Bool :=
  !before.any Text.isWordChar &&
    ((Text.stripPrefix? "Array.from".toList t).bind (after? '(')).isSome

/-- Whether a text starts with `name` and the name ends there. -/
def isWhole (name t : Text) : Bool :=
  match Text.stripPrefix? name t with
  | none => false
  | some rest => !rest.head?.any Text.isIdentChar

def isSpread (name : Text) (t : Text) : Bool :=
  match Text.stripPrefix? ['['] t with
  | none => false
  | some rest =>
    (Text.stripPrefix? "...".toList (rest.dropWhile Text.isBlank)).any (pastBlanks (isWhole name))

/-- The first context of the line that excuses `name`, in the order of the constructors. -/
def find? (line name : Text) : Option SafeContext :=
  if anywhere (isAssigned name) none line then some assigned
  else if anywhere isConverted none line then some converted
  else if anywhere (fun _ => isSpread name) none line then some spread
  else none

end SafeContext

/-- A receiver is excused by the list of exempt names or by its line. -/
def isExempt (exempt : List Text) (name line : Text) : Bool :=
  exempt.contains name || (SafeContext.find? line name).isSome

end GuardedCalls
