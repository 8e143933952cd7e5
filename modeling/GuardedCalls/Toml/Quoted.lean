import GuardedCalls.Text.Digit
import GuardedCalls.Toml.Basic

/-!
Quoted texts: with escapes or without, on one line or on several.
-/

namespace GuardedCalls.Toml.Quoted

/-- The characters that may stand in a quoted text or a comment: no control character but the tab. -/
def isContent (c : Char) : Bool :=
  c = '\t' || (0x20 ≤ c.toNat && c.toNat ≠ 0x7F)

def isBlank (c : Char) : Bool :=
  c = ' ' || c = '\t'

/-- What the letter of a short escape stands for. -/
def named? : Char → Option Char
  | 'b' => some '\x08'
  | 't' => some '\t'
  | 'n' => some '\n'
  | 'f' => some '\x0c'
  | 'r' => some '\r'
  | 'e' => some '\x1b'
  | '"' => some '"'
  | '\\' => some '\\'
  | _ => none

/-- How many hexadecimal digits follow the letter of a numbered escape. -/
def width? : Char → Option Nat
  | 'x' => some 2
  | 'u' => some 4
  | 'U' => some 8
  | _ => none

/-- The character of an escape, read after its backslash. -/
def escape? : Text → Option (Char × Text)
  | [] => none
  | c :: t =>
    match width? c with
    | some n =>
      match Text.takeDigits 16 n 0 t with
      | some (code, rest) => if code.isValidChar then some (.ofNat code, rest) else none
      | none => none
    | none => (named? c).map fun d => (d, t)

theorem length_of_escape? {t r : Text} {c : Char} (h : escape? t = some (c, r)) :
    r.length < t.length := by
  cases t with
  | nil => simp [escape?] at h
  | cons d t =>
    rw [escape?] at h
    split at h
    · split at h
      · rename_i hd
        have := Text.length_of_takeDigits hd
        split at h <;> simp at h
        simp only [List.length_cons, ← h.2]; omega
      · simp at h
    · obtain ⟨e, _, he⟩ := Option.map_eq_some_iff.1 h
      simp at he
      simp [← he.2]

/-- Reads a text with escapes, on one line, after its opening quote. -/
def basic? : Text → Option (Text × Text)
  | [] => none
  | '"' :: t => some ([], t)
  | '\\' :: t =>
    match h : escape? t with
    | some (c, rest) =>
      have := length_of_escape? h
      (basic? rest).map fun (s, rest) => (c :: s, rest)
    | none => none
  | c :: t => if isContent c then (basic? t).map fun (s, rest) => (c :: s, rest) else none
termination_by t => t.length

/-- Reads a text without escapes, on one line, after its opening quote. -/
def literal? : Text → Option (Text × Text)
  | [] => none
  | '\'' :: t => some ([], t)
  | c :: t => if isContent c then (literal? t).map fun (s, rest) => (c :: s, rest) else none

/-- A newline right after the opening quotes does not count. -/
def skipNewline : Text → Text
  | '\n' :: t => t
  | '\r' :: '\n' :: t => t
  | t => t

/-- What follows the blanks and newlines at the front of a text. -/
def skipGap : Text → Text
  | '\r' :: '\n' :: t => skipGap t
  | c :: t => if isBlank c || c = '\n' then skipGap t else c :: t
  | [] => []

/-- A backslash at the end of a line joins it to the next text that is not blank. -/
def join? (t : Text) : Option Text :=
  let t := t.dropWhile isBlank
  if (skipNewline t).length < t.length then some (skipGap t) else none

/-- One or two quotes before the three closing ones belong to the text. -/
def closing (quote : Char) (t : Text) : Text × Text :=
  let extra := (t.take 2).takeWhile (· = quote)
  (extra, t.drop extra.length)

theorem length_skipGap_le (t : Text) : (skipGap t).length ≤ t.length := by
  fun_induction skipGap t <;> grind

theorem length_dropWhile_le (p : Char → Bool) (t : Text) : (t.dropWhile p).length ≤ t.length :=
  (List.dropWhile_suffix p).length_le

theorem length_of_join? {t r : Text} (h : join? t = some r) : r.length ≤ t.length := by
  unfold join? at h
  dsimp only at h
  split at h <;> simp at h
  have := length_skipGap_le (t.dropWhile isBlank)
  have := length_dropWhile_le isBlank t
  rw [← h]; omega

/-- Reads a text with escapes, on several lines, after its opening quotes. -/
def basicLines? : Text → Option (Text × Text)
  | [] => none
  | '"' :: '"' :: '"' :: t => some (closing '"' t)
  | '\\' :: t =>
    match hj : join? t with
    | some rest =>
      have := length_of_join? hj
      basicLines? rest
    | none =>
      match h : escape? t with
      | some (c, rest) =>
        have := length_of_escape? h
        (basicLines? rest).map fun (s, rest) => (c :: s, rest)
      | none => none
  | '\r' :: '\n' :: t => (basicLines? t).map fun (s, rest) => ('\r' :: '\n' :: s, rest)
  | c :: t =>
    if isContent c || c = '\n' then (basicLines? t).map fun (s, rest) => (c :: s, rest) else none
termination_by t => t.length

/-- Reads a text without escapes, on several lines, after its opening quotes. -/
def literalLines? : Text → Option (Text × Text)
  | [] => none
  | '\'' :: '\'' :: '\'' :: t => some (closing '\'' t)
  | '\r' :: '\n' :: t => (literalLines? t).map fun (s, rest) => ('\r' :: '\n' :: s, rest)
  | c :: t =>
    if isContent c || c = '\n' then (literalLines? t).map fun (s, rest) => (c :: s, rest) else none

/-- Takes a quoted text of any kind from the front of a text. -/
def read? : Text → Option (Text × Text)
  | '"' :: '"' :: '"' :: t => basicLines? (skipNewline t)
  | '"' :: t => basic? t
  | '\'' :: '\'' :: '\'' :: t => literalLines? (skipNewline t)
  | '\'' :: t => literal? t
  | _ => none

end GuardedCalls.Toml.Quoted
