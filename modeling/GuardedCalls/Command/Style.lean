import GuardedCalls.Text.Search

/-!
Colours of a terminal.
-/

namespace GuardedCalls

/-- The codes of an appearance, an emphasis before a colour. -/
structure Style where
  codes : List Nat
deriving DecidableEq, Repr

namespace Style

def bold : Style := ⟨[1]⟩
def dimmed : Style := ⟨[2]⟩
def red : Style := ⟨[31]⟩
def green : Style := ⟨[32]⟩
def yellow : Style := ⟨[33]⟩
def cyan : Style := ⟨[36]⟩
def boldRed : Style := ⟨[1, 31]⟩

def sequence (codes : List Nat) : Text :=
  '\x1b' :: '[' :: Text.join [';'] (codes.map Text.ofNat) ++ ['m']

/-- Takes the appearance up again after each place where a text sets it back. -/
def resume (start : Text) : Text → Text
  | [] => []
  | '\x1b' :: '[' :: '0' :: 'm' :: t => sequence [0] ++ start ++ resume start t
  | c :: t => c :: resume start t

/-- A text in an appearance, where colours are shown. -/
def paint (colors : Bool) (s : Style) (t : Text) : Text :=
  if colors then sequence s.codes ++ resume (sequence s.codes) t ++ sequence [0] else t

/-- Whether colours are shown, from three settings and whether the output is a terminal. Colours that are
forced are always shown; else they are not where they are refused or where they are turned off. -/
def shown (forced refused wanted : Option String) (terminal : Bool) : Bool :=
  forced.any (· ≠ "0") || (refused.isNone && wanted.all (· ≠ "0") && terminal)

end Style
end GuardedCalls
