import GuardedCalls.Text.Digit
import GuardedCalls.Text.Search
import GuardedCalls.Toml.Basic

/-!
Values written without quotes or brackets: truth values, numbers, dates and times.
-/

namespace GuardedCalls.Toml.Scalar

/-- Digits, at least one; a single underscore may stand between two of them. -/
def isDigits (base : Nat) : Text → Bool
  | [] => false
  | [c] => Text.isDigitIn base c
  | c :: '_' :: t => Text.isDigitIn base c && isDigits base t
  | c :: t => Text.isDigitIn base c && isDigits base t

/-- Digits without a leading zero, unless it stands alone. -/
def isWhole (t : Text) : Bool :=
  isDigits 10 t && (t = ['0'] || t.head? ≠ some '0')

/-- The sign of a number, whether it is a minus, and the rest. -/
def sign : Text → Bool × Text
  | '-' :: t => (true, t)
  | '+' :: t => (false, t)
  | t => (false, t)

/-- Whether a text is an integer of 64 bits. One in base two, eight or sixteen has no sign. -/
def isInteger (t : Text) : Bool :=
  match t with
  | '0' :: 'x' :: ds => isDigits 16 ds && Text.number 16 ds < Nat.pow 2 63
  | '0' :: 'o' :: ds => isDigits 8 ds && Text.number 8 ds < Nat.pow 2 63
  | '0' :: 'b' :: ds => isDigits 2 ds && Text.number 2 ds < Nat.pow 2 63
  | t =>
    let (minus, ds) := sign t
    isWhole ds &&
      (if minus then Text.number 10 ds ≤ Nat.pow 2 63 else Text.number 10 ds < Nat.pow 2 63)

/-- Whether the number `n` times ten to the power `e` is nearer to 2^1024 than to the greatest
double-precision number. -/
def isTooGreat (n : Nat) (e : Int) : Bool :=
  let size := (Text.ofNat n).length + e
  let bound := Nat.pow 2 1024 - Nat.pow 2 970
  if n = 0 || size < 300 then false
  else if 400 < size then true
  else if 0 ≤ e then bound ≤ n * Nat.pow 10 e.toNat
  else bound * Nat.pow 10 (-e).toNat ≤ n

/-- Whether a text is a number with a fraction, an exponent or both, and not too great. -/
def isFractional (t : Text) : Bool :=
  let t := (sign t).2
  let isE (c : Char) : Bool := c = 'e' || c = 'E'
  let mantissa := t.takeWhile (!isE ·)
  let (whole, fraction) := (Text.cut? ['.'] mantissa).getD (mantissa, [])
  let exponent := t.dropWhile (!isE ·)
  let (minus, power) := sign (exponent.drop 1)
  let places := (fraction.filter Char.isDigit).length
  let scale : Int := if minus then -Text.number 10 power else Text.number 10 power
  isWhole whole && (mantissa = whole || isDigits 10 fraction) &&
    (exponent.isEmpty || isDigits 10 power) && (mantissa ≠ whole || !exponent.isEmpty) &&
    !isTooGreat (Text.number 10 (whole ++ fraction)) (scale - places)

def isUnbounded (t : Text) : Bool :=
  ["inf".toList, "nan".toList].contains (sign t).2

def daysIn (year month : Nat) : Nat :=
  if month = 2 then
    if year % 4 = 0 && (year % 100 ≠ 0 || year % 400 = 0) then 29 else 28
  else if [4, 6, 9, 11].contains month then 30
  else 31

/-- Takes two digits that stand for a number between the bounds. -/
def pair? (low high : Nat) (t : Text) : Option (Nat × Text) :=
  (Text.takeDigits 10 2 0 t).filter fun (n, _) => low ≤ n && n ≤ high

/-- Takes a date and leaves the rest. -/
def date? (t : Text) : Option Text := do
  let (year, t) ← Text.takeDigits 10 4 0 t
  let t ← Text.stripPrefix? ['-'] t
  let (month, t) ← pair? 1 12 t
  let t ← Text.stripPrefix? ['-'] t
  let (_, t) ← pair? 1 (daysIn year month) t
  return t

/-- Takes the seconds of a time, with a fraction or without. -/
def seconds? (t : Text) : Option Text := do
  let (_, t) ← pair? 0 60 t
  match t with
  | '.' :: t => if t.head?.any Char.isDigit then some (t.dropWhile Char.isDigit) else none
  | t => some t

/-- Takes a time, with seconds or without. -/
def time? (t : Text) : Option Text := do
  let (_, t) ← pair? 0 23 t
  let t ← Text.stripPrefix? [':'] t
  let (_, t) ← pair? 0 59 t
  match t with
  | ':' :: t => seconds? t
  | t => some t

/-- Takes the offset of a time from universal time, if there is one. -/
def offset? : Text → Option Text
  | [] => some []
  | c :: t =>
    if c = 'Z' || c = 'z' then some t
    else if c = '+' || c = '-' then do
      let (_, t) ← pair? 0 23 t
      let t ← Text.stripPrefix? [':'] t
      let (_, t) ← pair? 0 59 t
      return t
    else none

def isDate (t : Text) : Bool :=
  date? t = some []

/-- Whether a text is a date, a time, or a date and a time, of which only the last has an offset. -/
def isMoment (t : Text) : Bool :=
  match date? t with
  | some [] => true
  | some (c :: t) => ['T', 't', ' '].contains c && (time? t).bind offset? = some []
  | none => time? t = some []

/-- The value that a text stands for. -/
def value? (t : Text) : Option Value :=
  if ["true".toList, "false".toList].contains t then some .plain
  else if isInteger t || isFractional t || isUnbounded t then some .plain
  else if isMoment t then some .moment
  else none

/-- The characters of which these values consist; a blank stands only between a date and a time. -/
def isChar (c : Char) : Bool :=
  c.isAlphanum || ['_', '+', '-', '.', ':'].contains c

/-- Takes a value from the front of a text. -/
def read? (t : Text) : Option (Value × Text) :=
  let word := t.takeWhile isChar
  match isDate word, t.dropWhile isChar with
  | true, ' ' :: c :: rest =>
    if c.isDigit then
      let time := (c :: rest).takeWhile isChar
      (value? (word ++ ' ' :: time)).map fun v => (v, (c :: rest).dropWhile isChar)
    else some (.moment, ' ' :: c :: rest)
  | _, rest => (value? word).map fun v => (v, rest)

end GuardedCalls.Toml.Scalar
