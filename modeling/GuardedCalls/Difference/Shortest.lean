import GuardedCalls.Difference.Basic

/-!
A shortest way from one list of lines to another. The search goes from both ends at once over the
diagonals of the grid of both lists, and splits the lists where the two searches meet.
-/

namespace GuardedCalls.Difference

/-- How far a search has come after `d` steps, on the diagonals `d`, `d - 2`, …, `-d`: how many lines
of the first list it has passed. -/
abbrev Frontier := List Nat

/-- Where the next step arrives on each diagonal: a line is removed on the way from the diagonal
below, or added on the way from the one above; the way that passes more lines counts. -/
def arrivals (f : Frontier) : Frontier :=
  List.zipWith (fun above below =>
    match above, below with
    | none, none => 0
    | none, some x => x + 1
    | some x, none => x
    | some x, some y => if y < x then x else y + 1) (none :: f.map some) (f.map some ++ [none])

/-- The diagonal of an entry of a frontier after `d` steps. -/
def diagonal (d i : Nat) : Int :=
  (d : Int) - 2 * i

/-- Follows common lines from where a search arrived. -/
def slide (old new : List Text) (d : Nat) (arrived : Frontier) : Frontier :=
  arrived.mapIdx fun i x => x + commonStart (old.drop x) (new.drop (x - diagonal d i).toNat)

/-- How far a search has come on a diagonal, if it reached it. -/
def onDiagonal (d : Nat) (f : Frontier) (k : Int) : Option Nat :=
  let twice := (d : Int) - k
  if 0 ≤ twice && twice % 2 = 0 then f[(twice / 2).toNat]? else none

/-- The first diagonal on which two searches meet: both together pass all `n` lines. A diagonal of the
one is `delta` less that of the other. -/
def meeting? (n : Nat) (delta : Int) (d : Nat) (f : Frontier) (e : Nat) (g : Frontier) :
    Option Nat :=
  (List.range f.length).find? fun i =>
    match f[i]?, onDiagonal e g (delta - diagonal d i) with
    | some x, some y => n ≤ x + y
    | _, _ => false

/-- Where to split the lists, after `d` steps from either end and at most `fuel` more. `forward` and
`backward` say where the next step arrives, and `last` how far the search from the end has come. -/
def split? (old new oldBack newBack : List Text) :
    (fuel d : Nat) → (forward backward last : Frontier) → Option (Nat × Nat)
  | 0, _, _, _, _ => none
  | fuel + 1, d, forward, backward, last =>
    let n := old.length
    let delta := (n : Int) - new.length
    let isOdd := delta % 2 ≠ 0
    let reached := slide old new d forward
    match if isOdd then meeting? n delta d reached (d - 1) last else none with
    | some i =>
      let x := forward.getD i 0
      some (x, (x - diagonal d i).toNat)
    | none =>
      let reachedBack := slide oldBack newBack d backward
      match if isOdd then none else meeting? n delta d reachedBack d reached with
      | some i =>
        let x := reachedBack.getD i 0
        some (n - x, new.length - (x - diagonal d i).toNat)
      | none =>
        split? old new oldBack newBack fuel (d + 1) (arrivals reached) (arrivals reachedBack)
          reachedBack

/-- A run, unless it has no lines. -/
def nonempty (run : Run) : List Run :=
  if run.size = 0 then [] else [run]

/-- The runs that lead from one list to the other: common lines at both ends are kept, and what lies
between is split at most `fuel` times over. -/
def runsWithin : (fuel : Nat) → (old new : List Text) → List Run
  | fuel, old, new =>
    let start := commonStart old new
    let oldRest := old.drop start
    let newRest := new.drop start
    let stop := commonStart oldRest.reverse newRest.reverse
    let oldPart := oldRest.take (oldRest.length - stop)
    let newPart := newRest.take (newRest.length - stop)
    let between :=
      if oldPart.isEmpty || newPart.isEmpty then nonempty (.remove oldPart) ++ nonempty (.add newPart)
      else
        match fuel, split? oldPart newPart oldPart.reverse newPart.reverse
            (oldPart.length + newPart.length + 1) 0 [0] [0] [] with
        | fuel + 1, some (x, y) =>
          runsWithin fuel (oldPart.take x) (newPart.take y) ++
            runsWithin fuel (oldPart.drop x) (newPart.drop y)
        | _, _ => [.remove oldPart, .add newPart]
    nonempty (.keep (old.take start)) ++ between ++
      nonempty (.keep (oldRest.drop (oldRest.length - stop)))

def shortest (old new : List Text) : List Run :=
  runsWithin (old.length + new.length) old new

end GuardedCalls.Difference
