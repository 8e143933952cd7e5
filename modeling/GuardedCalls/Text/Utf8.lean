import GuardedCalls.Result
import GuardedCalls.Text.Basic

/-!
UTF-8: writing texts as bytes, and reading bytes with the place and kind of the first fault.
-/

namespace GuardedCalls

abbrev Bytes := List UInt8

namespace Utf8

def encodeChar (c : Char) : Bytes :=
  let n := c.toNat
  if n < 0x80 then [.ofNat n]
  else if n < 0x800 then [.ofNat (0xC0 + n / 64), .ofNat (0x80 + n % 64)]
  else if n < 0x10000 then
    [.ofNat (0xE0 + n / 4096), .ofNat (0x80 + n / 64 % 64), .ofNat (0x80 + n % 64)]
  else
    [.ofNat (0xF0 + n / 262144), .ofNat (0x80 + n / 4096 % 64), .ofNat (0x80 + n / 64 % 64),
      .ofNat (0x80 + n % 64)]

def encode (t : Text) : Bytes :=
  t.flatMap encodeChar

def size (t : Text) : Nat :=
  (encode t).length

/-- `start` is the index of the first byte that belongs to no character. `length` is the number of
bytes of the broken sequence, or nothing when the input ends inside it. -/
structure Fault where
  start : Nat
  length : Option Nat
deriving DecidableEq, Repr

def Fault.message (f : Fault) : Text :=
  match f.length with
  | some n =>
    "invalid utf-8 sequence of ".toList ++ Text.ofNat n ++ " bytes from index ".toList ++
      Text.ofNat f.start
  | none => "incomplete utf-8 byte sequence from index ".toList ++ Text.ofNat f.start

/-- What is said where only the presence of a fault counts. -/
def notText : Text :=
  "stream did not contain valid UTF-8".toList

def isContinuation (b : UInt8) : Bool :=
  0x80 ≤ b && b ≤ 0xBF

/-- The second bytes that may follow a first byte: no overlong form, no surrogate, nothing above
the last code point. -/
def isSecond (first second : UInt8) : Bool :=
  if first = 0xE0 then 0xA0 ≤ second && second ≤ 0xBF
  else if first = 0xED then 0x80 ≤ second && second ≤ 0x9F
  else if first = 0xF0 then 0x90 ≤ second && second ≤ 0xBF
  else if first = 0xF4 then 0x80 ≤ second && second ≤ 0x8F
  else isContinuation second

def payload (b : UInt8) : Nat :=
  b.toNat % 64

/-- Takes one further byte of a sequence of which `read` bytes are already read. -/
def more (fits : UInt8 → Bool) (read : Nat) : Bytes → Except (Option Nat) (Nat × Bytes)
  | [] => .error none
  | b :: rest => if fits b then .ok (payload b, rest) else .error (some read)

/-- Reads one character; the fault is the length of the broken sequence. -/
def decodeChar (b : UInt8) (rest : Bytes) : Except (Option Nat) (Char × Bytes) :=
  if b < 0x80 then .ok (.ofNat b.toNat, rest)
  else if 0xC2 ≤ b && b ≤ 0xDF then do
    let (x, rest) ← more (isSecond b) 1 rest
    .ok (.ofNat (b.toNat % 32 * 64 + x), rest)
  else if 0xE0 ≤ b && b ≤ 0xEF then do
    let (x, rest) ← more (isSecond b) 1 rest
    let (y, rest) ← more isContinuation 2 rest
    .ok (.ofNat (b.toNat % 16 * 4096 + x * 64 + y), rest)
  else if 0xF0 ≤ b && b ≤ 0xF4 then do
    let (x, rest) ← more (isSecond b) 1 rest
    let (y, rest) ← more isContinuation 2 rest
    let (z, rest) ← more isContinuation 3 rest
    .ok (.ofNat (b.toNat % 8 * 262144 + x * 4096 + y * 64 + z), rest)
  else .error (some 1)

theorem length_of_more {fits : UInt8 → Bool} {read : Nat} {bs : Bytes} {v : Nat × Bytes}
    (h : more fits read bs = .ok v) : v.2.length < bs.length := by
  cases bs with
  | nil => simp [more] at h
  | cons b bs => grind [more]

theorem length_of_decodeChar {b : UInt8} {bs rest : Bytes} {c : Char}
    (h : decodeChar b bs = .ok (c, rest)) : rest.length ≤ bs.length := by
  unfold decodeChar at h
  split at h
  · grind
  split at h
  · obtain ⟨v, hv, h⟩ := bind_eq_ok.1 h
    grind [length_of_more hv]
  split at h
  · obtain ⟨v, hv, h⟩ := bind_eq_ok.1 h
    obtain ⟨w, hw, h⟩ := bind_eq_ok.1 h
    grind [length_of_more hv, length_of_more hw]
  split at h
  · obtain ⟨v, hv, h⟩ := bind_eq_ok.1 h
    obtain ⟨w, hw, h⟩ := bind_eq_ok.1 h
    obtain ⟨u, hu, h⟩ := bind_eq_ok.1 h
    grind [length_of_more hv, length_of_more hw, length_of_more hu]
  · simp at h

/-- Reads the bytes from index `i` on; `before` holds the characters read so far, last one first. -/
def decodeFrom (i : Nat) (before : Text) : Bytes → Except Fault Text
  | [] => .ok before.reverse
  | b :: bs =>
    match h : decodeChar b bs with
    | .ok (c, rest) =>
      have := length_of_decodeChar h
      decodeFrom (i + c.utf8Size) (c :: before) rest
    | .error length => .error ⟨i, length⟩
termination_by bs => bs.length

def decode (bs : Bytes) : Except Fault Text :=
  decodeFrom 0 [] bs

end Utf8
end GuardedCalls
