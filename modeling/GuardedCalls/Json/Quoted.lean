import GuardedCalls.Json.Basic
import GuardedCalls.Result
import GuardedCalls.Text.Digit
import GuardedCalls.Text.Utf8

/-!
Quoted texts: writing them with escapes, reading them, and passing over them.
-/

namespace GuardedCalls.Json.Quoted

/-- A control character without a name of its own has its code in four hexadecimal digits. -/
def escapeChar (c : Char) : Text :=
  match c with
  | '"' => ['\\', '"']
  | '\\' => ['\\', '\\']
  | '\x08' => ['\\', 'b']
  | '\x0c' => ['\\', 'f']
  | '\n' => ['\\', 'n']
  | '\r' => ['\\', 'r']
  | '\t' => ['\\', 't']
  | c =>
    if c.toNat < 0x20 then
      ['\\', 'u', '0', '0', Nat.digitChar (c.toNat / 16), Nat.digitChar (c.toNat % 16)]
    else [c]

def write (t : Text) : Text :=
  '"' :: t.flatMap escapeChar ++ ['"']

/-- The number in four hexadecimal digits. With less than four bytes left, the text ends too early. -/
def hex4 (t : Text) : Except Fault (Nat × Text) :=
  match Text.takeDigits 16 4 0 t with
  | some r => .ok r
  | none => .error (if Utf8.size (t.take 4) < 4 then .truncated else .malformed)

def isHighSurrogate (n : Nat) : Bool := 0xD800 ≤ n && n ≤ 0xDBFF
def isLowSurrogate (n : Nat) : Bool := 0xDC00 ≤ n && n ≤ 0xDFFF

/-- What the letter after a backslash stands for. -/
def named? : Char → Option Char
  | '"' => some '"'
  | '\\' => some '\\'
  | '/' => some '/'
  | 'b' => some '\x08'
  | 'f' => some '\x0c'
  | 'n' => some '\n'
  | 'r' => some '\r'
  | 't' => some '\t'
  | _ => none

/-- The character of an escape, read after its backslash. Surrogates come in pairs. -/
def unescape : Text → Except Fault (Char × Text)
  | [] => .error .truncated
  | c :: t =>
    if c = 'u' then do
      let (n, t) ← hex4 t
      if isHighSurrogate n then
        let t ← expect '\\' t
        let t ← expect 'u' t
        let (m, t) ← hex4 t
        if isLowSurrogate m then .ok (.ofNat (0x10000 + (n - 0xD800) * 0x400 + (m - 0xDC00)), t)
        else .error .malformed
      else if isLowSurrogate n then .error .malformed
      else .ok (.ofNat n, t)
    else
      match named? c with
      | some d => .ok (d, t)
      | none => .error .malformed

/-- Passes over an escape after its backslash; surrogates need no pair. -/
def passEscape : Text → Except Fault Text
  | [] => .error .truncated
  | c :: t =>
    if c = 'u' then do
      let (_, t) ← hex4 t
      .ok t
    else if (named? c).isSome then .ok t
    else .error .malformed

theorem length_of_hex4 {t r : Text} {n : Nat} (h : hex4 t = .ok (n, r)) :
    r.length < t.length := by
  unfold hex4 at h
  split at h <;> simp at h
  rename_i hd
  have := Text.length_of_takeDigits (h ▸ hd)
  omega

theorem length_of_unescape {t r : Text} {c : Char} (h : unescape t = .ok (c, r)) :
    r.length < t.length := by
  cases t with
  | nil => simp [unescape] at h
  | cons d t =>
    rw [unescape] at h
    split at h
    · obtain ⟨⟨n, t1⟩, h1, h⟩ := bind_eq_ok.1 h
      have := length_of_hex4 h1
      dsimp only at h
      split at h
      · obtain ⟨t2, h2, h⟩ := bind_eq_ok.1 h
        obtain ⟨t3, h3, h⟩ := bind_eq_ok.1 h
        obtain ⟨⟨m, t4⟩, h4, h⟩ := bind_eq_ok.1 h
        have := length_of_expect h2
        have := length_of_expect h3
        have := length_of_hex4 h4
        split at h <;> simp at h
        simp only [List.length_cons, ← h.2]; omega
      · split at h <;> simp at h
        simp only [List.length_cons, ← h.2]; omega
    · split at h <;> simp at h
      simp [← h.2]

theorem length_of_passEscape {t r : Text} (h : passEscape t = .ok r) : r.length < t.length := by
  cases t with
  | nil => simp [passEscape] at h
  | cons d t =>
    rw [passEscape] at h
    split at h
    · obtain ⟨⟨n, t1⟩, h1, h⟩ := bind_eq_ok.1 h
      have := length_of_hex4 h1
      simp at h
      simp only [List.length_cons, ← h]; omega
    · split at h <;> simp at h
      simp [← h]

/-- Reads a text after its opening quote. -/
def read : Text → Except Fault (Text × Text)
  | [] => .error .truncated
  | '"' :: t => .ok ([], t)
  | '\\' :: t =>
    match h : unescape t with
    | .ok (c, rest) =>
      have := length_of_unescape h
      (read rest).map fun (s, rest) => (c :: s, rest)
    | .error e => .error e
  | c :: t =>
    if c.toNat < 0x20 then .error .malformed
    else (read t).map fun (s, rest) => (c :: s, rest)
termination_by t => t.length

/-- Passes over a text after its opening quote. -/
def pass : Text → Except Fault Text
  | [] => .error .truncated
  | '"' :: t => .ok t
  | '\\' :: t =>
    match h : passEscape t with
    | .ok rest =>
      have := length_of_passEscape h
      pass rest
    | .error e => .error e
  | c :: t => if c.toNat < 0x20 then .error .malformed else pass t
termination_by t => t.length

end GuardedCalls.Json.Quoted
