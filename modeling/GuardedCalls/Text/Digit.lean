import GuardedCalls.Text.Basic

/-!
Digits: the value of one, and the numbers that runs of them stand for.
-/

namespace GuardedCalls.Text

/-- The value of a digit in any base up to sixteen. -/
def digit? (c : Char) : Option Nat :=
  if '0' ≤ c ∧ c ≤ '9' then some (c.toNat - '0'.toNat)
  else if 'a' ≤ c ∧ c ≤ 'f' then some (c.toNat - 'a'.toNat + 10)
  else if 'A' ≤ c ∧ c ≤ 'F' then some (c.toNat - 'A'.toNat + 10)
  else none

def isDigitIn (base : Nat) (c : Char) : Bool :=
  (digit? c).any (· < base)

/-- The number written with the digits of a text; all else in it counts for nothing. -/
def number (base : Nat) (t : Text) : Nat :=
  (t.filterMap digit?).foldl (fun n d => base * n + d) 0

/-- Takes exactly `n` digits from the front of a text and leaves the rest. -/
def takeDigits (base : Nat) : (n : Nat) → (acc : Nat) → Text → Option (Nat × Text)
  | 0, acc, t => some (acc, t)
  | _ + 1, _, [] => none
  | n + 1, acc, c :: t =>
    match digit? c with
    | some d => if d < base then takeDigits base n (base * acc + d) t else none
    | none => none

theorem length_of_takeDigits {base n acc m : Nat} {t r : Text}
    (h : takeDigits base n acc t = some (m, r)) : r.length + n = t.length := by
  induction n generalizing acc t with
  | zero => simp [takeDigits] at h; simp [h]
  | succ n ih =>
    cases t with
    | nil => simp [takeDigits] at h
    | cons c t =>
      rw [takeDigits] at h
      split at h
      · split at h
        · have := ih h
          simp; omega
        · simp at h
      · simp at h

end GuardedCalls.Text
