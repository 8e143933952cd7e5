import GuardedCalls.Json.Numeral
import GuardedCalls.Json.Quoted

/-! Quoted texts and counts are read back as they were written. -/

namespace GuardedCalls
open Json (Fault)

namespace Text

theorem digit?_digitChar {d : Nat} (hd : d < 16) : digit? (Nat.digitChar d) = some d := by
  have hall : ∀ d < 16, digit? (Nat.digitChar d) = some d := by decide
  exact hall d hd

theorem number_concat (base : Nat) (t : Text) {c : Char} {d : Nat} (hc : digit? c = some d) :
    number base (t ++ [c]) = base * number base t + d := by
  simp [number, List.filterMap_append, hc]

theorem number_ofNat (n : Nat) : number 10 (ofNat n) = n := by
  induction n using Nat.strongRecOn with
  | ind n ih =>
    by_cases hn : n < 10
    · rw [ofNat, Nat.toDigits_of_lt_base hn, ← List.nil_append [_],
        number_concat 10 [] (digit?_digitChar (by omega))]
      simp [number]
    · rw [ofNat, Nat.toDigits_of_base_le (by decide) (Nat.not_lt.1 hn),
        number_concat 10 _ (digit?_digitChar (by omega)), ← ofNat, ih _ (by omega)]
      omega

theorem isDigit_of_mem_ofNat {n : Nat} {c : Char} (hc : c ∈ ofNat n) : c.isDigit = true :=
  Nat.isDigit_of_mem_toDigits (by decide) (by decide) hc

theorem ofNat_ne_nil (n : Nat) : ofNat n ≠ [] :=
  Nat.toDigits_ne_nil

/-- Only zero is written with a zero in front. -/
theorem ofNat_ne_zero_cons (n : Nat) (c : Char) (t : Text) : ofNat n ≠ '0' :: c :: t := by
  have hhead (n : Nat) (hn : 0 < n) : (ofNat n).head? ≠ some '0' := by
    induction n using Nat.strongRecOn with
    | ind n ih =>
      by_cases hlt : n < 10
      · have hall : ∀ d < 10, 0 < d → Nat.digitChar d ≠ '0' := by decide
        rw [ofNat, Nat.toDigits_of_lt_base hlt]
        simpa using hall n hlt hn
      · have hrest := ih (n / 10) (by omega) (by omega)
        obtain ⟨a, s, hs⟩ := List.exists_cons_of_ne_nil (ofNat_ne_nil (n / 10))
        rw [ofNat, Nat.toDigits_of_base_le (by decide) (Nat.not_lt.1 hlt), ← ofNat]
        rw [hs] at hrest ⊢
        simpa using hrest
  intro h
  cases n with
  | zero =>
    have hzero : ofNat 0 = ['0'] := by decide
    rw [hzero] at h
    simp at h
  | succ n => exact hhead (n + 1) (by omega) (by rw [h]; rfl)

end Text

namespace Json.Quoted

theorem read_backslash {c : Char} {t rest : Text} (h : unescape t = .ok (c, rest)) :
    read ('\\' :: t) = (read rest).map fun (s, rest) => (c :: s, rest) := by
  rw [read]
  split
  · rename_i h'
    obtain ⟨rfl, rfl⟩ : c = _ ∧ rest = _ := by simpa using h.symm.trans h'
    rfl
  · rename_i h'
    simp [h] at h'

theorem read_plain {c : Char} (t : Text) (hquote : c ≠ '"') (hslash : c ≠ '\\')
    (hc : ¬ c.toNat < 0x20) : read (c :: t) = (read t).map fun (s, rest) => (c :: s, rest) := by
  rw [read]
  · rw [if_neg hc]
  · exact hquote
  · exact fun h => hslash h

/-- The code of a control character begins with two zeros. -/
theorem unescape_code {c : Char} (hc : c.toNat < 0x20) (t : Text) :
    unescape ('u' :: '0' :: '0' :: Nat.digitChar (c.toNat / 16) :: Nat.digitChar (c.toNat % 16) :: t) =
      .ok (c, t) := by
  have hzero : Text.digit? '0' = some 0 := by decide
  have hhigh : Text.digit? (Nat.digitChar (c.toNat / 16)) = some (c.toNat / 16) :=
    Text.digit?_digitChar (by omega)
  have hlow : Text.digit? (Nat.digitChar (c.toNat % 16)) = some (c.toNat % 16) :=
    Text.digit?_digitChar (by omega)
  have hhex : hex4 ('0' :: '0' :: Nat.digitChar (c.toNat / 16) :: Nat.digitChar (c.toNat % 16) :: t) =
      .ok (c.toNat, t) := by
    have hdigits : 16 * (16 * (16 * (16 * 0 + 0) + 0) + c.toNat / 16) + c.toNat % 16 = c.toNat := by
      omega
    have hsmall : c.toNat / 16 < 16 ∧ c.toNat % 16 < 16 := by omega
    simp only [hex4, Text.takeDigits, hzero, hhigh, hlow, hdigits, hsmall.1, hsmall.2, if_true]
    rfl
  have hplain : isHighSurrogate c.toNat = false ∧ isLowSurrogate c.toNat = false := by
    simp only [isHighSurrogate, isLowSurrogate, Bool.and_eq_false_iff, decide_eq_false_iff_not]
    omega
  rw [unescape, if_pos rfl, hhex, ok_bind]
  simp [hplain.1, hplain.2, Char.ofNat_toNat]

theorem read_escapeChar (c : Char) (t : Text) :
    read (escapeChar c ++ t) = (read t).map fun (s, rest) => (c :: s, rest) := by
  unfold escapeChar
  split
  case h_8 hquote hslash _ _ _ _ _ =>
    split
    · rename_i hc
      exact read_backslash (unescape_code hc t)
    · rename_i hc
      exact read_plain t hquote hslash hc
  all_goals exact read_backslash rfl

/-- What follows the opening quote of a written text gives the text back. -/
theorem read_flatMap_escapeChar (t rest : Text) :
    read (t.flatMap escapeChar ++ '"' :: rest) = .ok (t, rest) := by
  induction t with
  | nil => rw [List.flatMap_nil, List.nil_append, read]
  | cons c t ih =>
    rw [List.flatMap_cons, List.append_assoc, read_escapeChar, ih]
    rfl

end Json.Quoted

namespace Json

/-- What may follow a written value: the next item or field, or the line of the closing bracket. -/
def Closes (t : Text) : Prop :=
  ∀ c ∈ t.head?, c = ',' ∨ c = '\n'

namespace Numeral

theorem digits_ofNat (missing : Text → Fault) (n : Nat) {t : Text} (ht : Closes t) :
    digits missing (Text.ofNat n ++ t) = .ok (Text.ofNat n, t) := by
  have hall : ∀ c ∈ Text.ofNat n, c.isDigit = true := fun c hc => Text.isDigit_of_mem_ofNat hc
  have hstop : t.takeWhile Char.isDigit = [] ∧ t.dropWhile Char.isDigit = t := by
    cases t with
    | nil => simp
    | cons c t => rcases ht c rfl with rfl | rfl <;> simp
  have hne : (Text.ofNat n).isEmpty = false := by simp [Text.ofNat_ne_nil]
  rw [digits, List.takeWhile_append_of_pos hall, List.dropWhile_append_of_pos hall, hstop.1, hstop.2,
    List.append_nil, hne]
  rfl

theorem wholePart_ofNat (missing : Text → Fault) (n : Nat) {t : Text} (ht : Closes t) :
    wholePart missing (Text.ofNat n ++ t) = .ok (Text.ofNat n, t) := by
  rw [wholePart, digits_ofNat missing n ht]
  split
  · rename_i c s rest h
    obtain ⟨hzero, -⟩ : Text.ofNat n = '0' :: c :: s ∧ t = rest := by simpa using h
    exact absurd hzero (Text.ofNat_ne_zero_cons n c s)
  · rfl

theorem fractionPart_of_closes (missing : Text → Fault) {t : Text} (ht : Closes t) :
    fractionPart missing t = .ok (none, t) := by
  rw [fractionPart]
  rintro s rfl
  rcases ht '.' rfl with h | h <;> simp at h

theorem exponentPart_of_closes (missing : Text → Fault) {t : Text} (ht : Closes t) :
    exponentPart missing t = .ok (none, t) := by
  cases t with
  | nil => rfl
  | cons c t =>
    rw [exponentPart, if_neg]
    rcases ht c rfl with rfl | rfl <;> simp

theorem read_ofNat (missing : Text → Fault) (n : Nat) {t : Text} (ht : Closes t) :
    read missing (Text.ofNat n ++ t) = .ok (⟨false, Text.ofNat n, none, none⟩, t) := by
  have hsign : ∀ s, Text.ofNat n ++ t ≠ '-' :: s := by
    obtain ⟨c, r, hr⟩ := List.exists_cons_of_ne_nil (Text.ofNat_ne_nil n)
    have hc : c.isDigit = true := Text.isDigit_of_mem_ofNat (n := n) (by simp [hr])
    rintro s hs
    obtain rfl : c = '-' := by simpa [hr] using congrArg List.head? hs
    simp at hc
  rw [read, wholePart_ofNat missing n ht]
  · simp only [ok_bind, fractionPart_of_closes missing ht, exponentPart_of_closes missing ht]
    rfl
  · exact hsign

theorem readCount?_ofNat {n : Nat} (hn : n ≤ maxCount) {t : Text} (ht : Closes t) :
    readCount? (Text.ofNat n ++ t) = .ok (some n, t) := by
  have hcount : isCount ⟨false, Text.ofNat n, none, none⟩ = true := by
    simp [isCount, Text.number_ofNat, hn]
  rw [readCount?, read_ofNat missingDigit n ht, ok_bind]
  simp [hcount, Text.number_ofNat]

end Numeral
end Json
end GuardedCalls
