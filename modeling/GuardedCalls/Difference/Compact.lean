import GuardedCalls.Difference.Basic

/-!
Gathering runs: added lines slide along kept ones where the text allows it, so that runs of one kind
come together.
-/

namespace GuardedCalls.Difference

/-- A run with the runs before it, the nearest first, and those after it. -/
structure Focus where
  before : List Run
  here : Run
  after : List Run
deriving DecidableEq, Repr

/-- Puts kept lines in front of runs. -/
def keepInFront (ls : List Text) : List Run → List Run
  | .keep ks :: rest => .keep (ls ++ ks) :: rest
  | rest => .keep ls :: rest

/-- Puts kept lines behind runs that are listed from the last one. -/
def keepBehind (ls : List Text) : List Run → List Run
  | .keep ks :: rest => .keep (ks ++ ls) :: rest
  | rest => .keep ls :: rest

def takeLast (n : Nat) (ls : List Text) : List Text :=
  ls.drop (ls.length - n)

def dropLast (n : Nat) (ls : List Text) : List Text :=
  ls.take (ls.length - n)

/-- Moves a run up as far as it can go, at most `fuel` steps: past runs of the other kind, along kept
lines that it ends with, and into runs of its own kind. -/
def moveUp : (fuel : Nat) → Focus → Focus
  | 0, f => f
  | fuel + 1, ⟨before, here, after⟩ =>
    match before, here with
    | .keep [] :: rest, here => moveUp fuel ⟨rest, here, after⟩
    | .keep ks :: rest, .add ls =>
      let n := commonStart ks.reverse ls.reverse
      if n = 0 then ⟨before, here, after⟩
      else
        let here := .add (takeLast n ks ++ dropLast n ls)
        let after := keepInFront (takeLast n ls) after
        let left := dropLast n ks
        moveUp fuel ⟨if left.isEmpty then rest else .keep left :: rest, here, after⟩
    | .remove ks :: rest, .add ls => moveUp fuel ⟨rest, .add ls, .remove ks :: after⟩
    | .add ks :: rest, .remove ls => moveUp fuel ⟨rest, .remove ls, .add ks :: after⟩
    | .add ks :: rest, .add ls => moveUp fuel ⟨rest, .add (ks ++ ls), after⟩
    | .remove ks :: rest, .remove ls => moveUp fuel ⟨rest, .remove (ks ++ ls), after⟩
    | _, _ => ⟨before, here, after⟩

/-- Moves a run down as far as it can go, in the same ways. -/
def moveDown : (fuel : Nat) → Focus → Focus
  | 0, f => f
  | fuel + 1, ⟨before, here, after⟩ =>
    match here, after with
    | here, .keep [] :: rest => moveDown fuel ⟨before, here, rest⟩
    | .add ls, .keep ks :: rest =>
      let n := commonStart ks ls
      if n = 0 then ⟨before, here, after⟩
      else
        let before := keepBehind (ls.take n) before
        let here := .add (ls.drop n ++ ks.take n)
        let left := ks.drop n
        moveDown fuel ⟨before, here, if left.isEmpty then rest else .keep left :: rest⟩
    | .add ls, .remove ks :: rest => moveDown fuel ⟨.remove ks :: before, .add ls, rest⟩
    | .remove ls, .add ks :: rest => moveDown fuel ⟨.add ks :: before, .remove ls, rest⟩
    | .add ls, .add ks :: rest => moveDown fuel ⟨before, .add (ls ++ ks), rest⟩
    | .remove ls, .remove ks :: rest => moveDown fuel ⟨before, .remove (ls ++ ks), rest⟩
    | _, _ => ⟨before, here, after⟩

/-- The number of steps that suffice to move a run through others. -/
def distance (runs : List Run) : Nat :=
  runs.foldr (fun r n => r.size + 1 + n) 0

/-- Moves each chosen run up and then down, in the order in which they stand, at most `fuel` runs. -/
def gather (chosen : Run → Bool) : (fuel : Nat) → (before after : List Run) → List Run
  | 0, before, after => before.reverse ++ after
  | _ + 1, before, [] => before.reverse
  | fuel + 1, before, here :: after =>
    if chosen here then
      let f := moveUp (distance before + 1) ⟨before, here, after⟩
      let f := moveDown (distance f.after + 1) f
      gather chosen fuel (f.here :: f.before) f.after
    else gather chosen fuel (here :: before) after

def isRemoval : Run → Bool
  | .remove _ => true
  | _ => false

def isAddition : Run → Bool
  | .add _ => true
  | _ => false

/-- Gathers the removed runs and then the added ones. -/
def compact (runs : List Run) : List Run :=
  let fuel := (distance runs + 1) * (distance runs + 1)
  gather isAddition fuel [] (gather isRemoval fuel [] runs)

end GuardedCalls.Difference
