/-!
Texts as lists of characters: pieces, lines, blanks and identifiers.
-/

namespace GuardedCalls

abbrev Text := List Char

namespace Text

/-- The pieces of a text: each but perhaps the last ends with its newline. -/
def pieces : Text → List Text
  | [] => []
  | c :: cs =>
    if c = '\n' then [c] :: pieces cs
    else
      match pieces cs with
      | [] => [[c]]
      | p :: ps => (c :: p) :: ps

/-- A piece without its newline and without one carriage return before that newline. -/
def chomp (piece : Text) : Text :=
  match piece.reverse with
  | '\n' :: '\r' :: r => r.reverse
  | '\n' :: r => r.reverse
  | _ => piece

def lines (t : Text) : List Text :=
  t.pieces.map chomp

/-- The White_Space characters of Unicode. -/
def isBlank (c : Char) : Bool :=
  let n := c.toNat
  (9 ≤ n && n ≤ 13) || n = 0x20 || n = 0x85 || n = 0xA0 || n = 0x1680 ||
    (0x2000 ≤ n && n ≤ 0x200A) || n = 0x2028 || n = 0x2029 || n = 0x202F || n = 0x205F || n = 0x3000

def trim (t : Text) : Text :=
  ((t.dropWhile isBlank).reverse.dropWhile isBlank).reverse

def isBlankText (t : Text) : Bool :=
  t.all isBlank

/-- An identifier starts with a letter of ASCII, an underscore or a dollar sign. -/
def isIdentStart (c : Char) : Bool :=
  c.isAlpha || c = '_' || c = '$'

def isIdentChar (c : Char) : Bool :=
  isIdentStart c || c.isDigit

def isIdentifier : Text → Bool
  | [] => false
  | c :: cs => isIdentStart c && cs.all isIdentChar

/-- The number in decimal digits. -/
def ofNat (n : Nat) : Text :=
  Nat.toDigits 10 n

def join (separator : Text) (ts : List Text) : Text :=
  separator.intercalate ts

/-- The order of lists by the first place where they differ. -/
def lexLe {α : Type} [DecidableEq α] (le : α → α → Bool) : List α → List α → Bool
  | [], _ => true
  | _ :: _, [] => false
  | a :: s, b :: t => if a = b then lexLe le s t else le a b

def le (s t : Text) : Bool :=
  lexLe (fun c d => c.toNat ≤ d.toNat) s t

theorem flatten_pieces (t : Text) : t.pieces.flatten = t := by
  induction t with
  | nil => rfl
  | cons c cs ih =>
    rw [pieces]
    split
    · simp [ih]
    · split <;> simp_all

end Text
end GuardedCalls
