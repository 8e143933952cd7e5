import GuardedCalls.Json.Basic
import GuardedCalls.Text.Digit

/-!
Numerals: their grammar, the counts among them, and the numerals too great to be taken.
-/

namespace GuardedCalls.Json

/-- A numeral by its digits. The exponent is absent, or has a sign and digits. -/
structure Numeral where
  negative : Bool
  whole : Text
  fraction : Option Text
  exponent : Option (Bool × Text)
deriving DecidableEq, Repr

namespace Numeral

/-- The fault of a numeral that ends where a digit is due: the text may just have ended. -/
def missingDigit (rest : Text) : Fault :=
  if rest.isEmpty then .truncated else .malformed

/-- Takes at least one digit; `missing` says what is wrong if there is none. -/
def digits (missing : Text → Fault) (t : Text) : Except Fault (Text × Text) :=
  let ds := t.takeWhile Char.isDigit
  let rest := t.dropWhile Char.isDigit
  if ds.isEmpty then .error (missing rest) else .ok (ds, rest)

/-- A whole part has no leading zero, unless it is zero. -/
def wholePart (missing : Text → Fault) (t : Text) : Except Fault (Text × Text) :=
  match digits missing t with
  | .ok ('0' :: _ :: _, _) => .error .malformed
  | r => r

def fractionPart (missing : Text → Fault) : Text → Except Fault (Option Text × Text)
  | '.' :: t => (digits missing t).map fun (ds, rest) => (some ds, rest)
  | t => .ok (none, t)

/-- The sign before an exponent's digits: whether it is a minus, and what follows. -/
def exponentSign : Text → Bool × Text
  | '-' :: t => (true, t)
  | '+' :: t => (false, t)
  | t => (false, t)

def exponentPart (missing : Text → Fault) : Text → Except Fault (Option (Bool × Text) × Text)
  | [] => .ok (none, [])
  | c :: t =>
    if c = 'e' || c = 'E' then
      let (minus, t) := exponentSign t
      (digits missing t).map fun (ds, rest) => (some (minus, ds), rest)
    else .ok (none, c :: t)

/-- Takes a numeral from the front of a text. -/
def read (missing : Text → Fault) (t : Text) : Except Fault (Numeral × Text) := do
  let (negative, t) := match t with
    | '-' :: t => (true, t)
    | t => (false, t)
  let (whole, t) ← wholePart missing t
  let (fraction, t) ← fractionPart missing t
  let (exponent, t) ← exponentPart missing t
  return (⟨negative, whole, fraction, exponent⟩, t)

/-- Takes digits onto `n` as long as the number stays a possible count; the digits left over. -/
def accumulate (n : Nat) : Text → Nat × Text
  | [] => (n, [])
  | c :: cs =>
    let next := 10 * n + Text.number 10 [c]
    if next ≤ maxCount then accumulate next cs else (n, c :: cs)

/-- The nearest number with at most 53 binary digits before its zeros, even on a tie. -/
def round53 (n : Nat) : Nat :=
  let unit := Nat.pow 2 (n.log2 + 1 - 53)
  let (q, r) := (n / unit, n % unit)
  (if unit < 2 * r || (unit = 2 * r && q % 2 = 1) then q + 1 else q) * unit

/-- The significand of as many digits as fit a count, and the power of ten that it is scaled by. -/
def scaled (x : Numeral) : Nat × Int :=
  let (n, left) := accumulate 0 x.whole
  let fraction := x.fraction.getD []
  let (n, unread) := accumulate n fraction
  let shift := (left.length : Int) - (fraction.length - unread.length : Nat)
  match x.exponent with
  | none => (n, shift)
  | some (minus, ds) => (n, if minus then shift - Text.number 10 ds else shift + Text.number 10 ds)

/-- Whether a numeral stands for no double-precision number: the rounded significand times the
rounded power of ten reaches 2^1024 when rounded. -/
def isTooGreat (x : Numeral) : Bool :=
  let (n, e) := x.scaled
  if n = 0 || e < 0 then false
  else if 308 < e then true
  else Nat.pow 2 1024 ≤ round53 (round53 n * round53 (Nat.pow 10 e.toNat))

/-- Whether a numeral has digits only and stands for a possible count. -/
def isCount (x : Numeral) : Bool :=
  !x.negative && x.fraction.isNone && x.exponent.isNone && Text.number 10 x.whole ≤ maxCount

/-- Takes a numeral that stands for a number; the count, if it is one. -/
def readCount? (t : Text) : Except Fault (Option Nat × Text) := do
  let (x, t) ← read missingDigit t
  if x.isCount then .ok (some (Text.number 10 x.whole), t)
  else if x.isTooGreat then .error .malformed
  else .ok (none, t)

/-- Passes over a numeral of any size. -/
def pass (t : Text) : Except Fault Text :=
  (read (fun _ => .malformed) t).map Prod.snd

end Numeral
end GuardedCalls.Json
