import GuardedCalls.Text.Utf8

/-! Writing a text as UTF-8 and reading it back. -/

namespace GuardedCalls.Utf8

theorem toNat_ofNat {m : Nat} (h : m < 256) : (UInt8.ofNat m).toNat = m := by
  simp [Nat.mod_eq_of_lt h]

theorem more_of_fits {fits : UInt8 → Bool} (read : Nat) {b : UInt8} (rest : Bytes)
    (h : fits b = true) : more fits read (b :: rest) = .ok (b.toNat % 64, rest) := by
  rw [more, if_pos h, payload]

theorem isContinuation_iff (b : UInt8) :
    isContinuation b = true ↔ 0x80 ≤ b.toNat ∧ b.toNat ≤ 0xBF := by
  simp [isContinuation, UInt8.le_iff_toNat_le]

theorem isSecond_iff (a b : UInt8) : isSecond a b = true ↔
    (if a.toNat = 0xE0 then 0xA0 else if a.toNat = 0xF0 then 0x90 else 0x80) ≤ b.toNat ∧
      b.toNat ≤ if a.toNat = 0xED then 0x9F else if a.toNat = 0xF4 then 0x8F else 0xBF := by
  have heq (n : Nat) (h : n < 256) : a = .ofNat n ↔ a.toNat = n := by
    rw [← UInt8.toNat_inj, toNat_ofNat h]
  have h1 := heq 0xE0 (by decide)
  have h2 := heq 0xED (by decide)
  have h3 := heq 0xF0 (by decide)
  have h4 := heq 0xF4 (by decide)
  simp only [isSecond, isContinuation]
  change (if a = .ofNat 0xE0 then _ else if a = .ofNat 0xED then _ else if a = .ofNat 0xF0 then _
    else if a = .ofNat 0xF4 then _ else _) = true ↔ _
  simp only [h1, h2, h3, h4]
  split
  · simp_all [UInt8.le_iff_toNat_le]
  split
  · simp_all [UInt8.le_iff_toNat_le]
  split
  · simp_all [UInt8.le_iff_toNat_le]
  split
  · simp_all [UInt8.le_iff_toNat_le]
  · simp_all [UInt8.le_iff_toNat_le]

theorem decodeChar_two {a b : UInt8} (rest : Bytes) (ha : 0xC2 ≤ a.toNat) (ha' : a.toNat ≤ 0xDF)
    (hb : isSecond a b = true) : decodeChar a (b :: rest) =
      .ok (.ofNat (a.toNat % 32 * 64 + b.toNat % 64), rest) := by
  have h1 : ¬ a.toNat < 0x80 := by omega
  rw [decodeChar, if_neg (by simpa [UInt8.lt_iff_toNat_lt] using h1),
    if_pos (by simp [UInt8.le_iff_toNat_le, ha, ha']), more_of_fits 1 rest hb]
  rfl

theorem decodeChar_three {a b c : UInt8} (rest : Bytes) (ha : 0xE0 ≤ a.toNat) (ha' : a.toNat ≤ 0xEF)
    (hb : isSecond a b = true) (hc : isContinuation c = true) : decodeChar a (b :: c :: rest) =
      .ok (.ofNat (a.toNat % 16 * 4096 + b.toNat % 64 * 64 + c.toNat % 64), rest) := by
  have h1 : ¬ a.toNat < 0x80 := by omega
  have h2 : ¬ (0xC2 ≤ a.toNat ∧ a.toNat ≤ 0xDF) := by omega
  rw [decodeChar, if_neg (by simpa [UInt8.lt_iff_toNat_lt] using h1),
    if_neg (by simpa [UInt8.le_iff_toNat_le] using h2),
    if_pos (by simp [UInt8.le_iff_toNat_le, ha, ha']), more_of_fits 1 _ hb]
  change more isContinuation 2 (c :: rest) >>= _ = _
  rw [more_of_fits 2 rest hc]
  rfl

theorem decodeChar_four {a b c d : UInt8} (rest : Bytes) (ha : 0xF0 ≤ a.toNat)
    (ha' : a.toNat ≤ 0xF4) (hb : isSecond a b = true) (hc : isContinuation c = true)
    (hd : isContinuation d = true) : decodeChar a (b :: c :: d :: rest) =
      .ok (.ofNat (a.toNat % 8 * 262144 + b.toNat % 64 * 4096 + c.toNat % 64 * 64 + d.toNat % 64),
        rest) := by
  have h1 : ¬ a.toNat < 0x80 := by omega
  have h2 : ¬ (0xC2 ≤ a.toNat ∧ a.toNat ≤ 0xDF) := by omega
  have h3 : ¬ (0xE0 ≤ a.toNat ∧ a.toNat ≤ 0xEF) := by omega
  rw [decodeChar, if_neg (by simpa [UInt8.lt_iff_toNat_lt] using h1),
    if_neg (by simpa [UInt8.le_iff_toNat_le] using h2),
    if_neg (by simpa [UInt8.le_iff_toNat_le] using h3),
    if_pos (by simp [UInt8.le_iff_toNat_le, ha, ha']), more_of_fits 1 _ hb]
  change more isContinuation 2 (c :: d :: rest) >>= _ = _
  rw [more_of_fits 2 _ hc]
  change more isContinuation 3 (d :: rest) >>= _ = _
  rw [more_of_fits 3 rest hd]
  rfl

theorem isContinuation_ofNat (k : Nat) : isContinuation (.ofNat (0x80 + k % 64)) = true := by
  rw [isContinuation_iff, toNat_ofNat (by omega)]
  omega

theorem toNat_cases (c : Char) : c.toNat < 0xD800 ∨ (0xDFFF < c.toNat ∧ c.toNat < 0x110000) :=
  c.valid

/-- The first byte tells how many follow, and each of these carries six bits. -/
theorem decodeChar_encodeChar {c : Char} {b : UInt8} {bs : Bytes} (rest : Bytes)
    (h : encodeChar c = b :: bs) : decodeChar b (bs ++ rest) = .ok (c, rest) := by
  have hc : Char.ofNat c.toNat = c := Char.ofNat_toNat c
  have hvalid := toNat_cases c
  unfold encodeChar at h
  generalize c.toNat = n at *
  have hx (k : Nat) : (UInt8.ofNat (0x80 + k % 64)).toNat = 0x80 + k % 64 := toNat_ofNat (by omega)
  simp only at h
  split at h
  · obtain ⟨rfl, rfl⟩ := List.cons.inj h
    have ha : (UInt8.ofNat n).toNat = n := toNat_ofNat (by omega)
    rw [List.nil_append, decodeChar, if_pos (by simpa [UInt8.lt_iff_toNat_lt, ha]), ha, hc]
  split at h
  · obtain ⟨rfl, rfl⟩ := List.cons.inj h
    have ha : (UInt8.ofNat (0xC0 + n / 64)).toNat = 0xC0 + n / 64 := toNat_ofNat (by omega)
    have hb : isSecond (.ofNat (0xC0 + n / 64)) (.ofNat (0x80 + n % 64)) = true := by
      rw [isSecond_iff, ha, hx]
      constructor <;> repeat' split
      all_goals omega
    have hn : (0xC0 + n / 64) % 32 * 64 + (0x80 + n % 64) % 64 = n := by omega
    have hd := decodeChar_two rest (by omega) (by omega) hb
    rw [ha, hx, hn, hc] at hd
    exact hd
  split at h
  · obtain ⟨rfl, rfl⟩ := List.cons.inj h
    have ha : (UInt8.ofNat (0xE0 + n / 4096)).toNat = 0xE0 + n / 4096 := toNat_ofNat (by omega)
    have hb : isSecond (.ofNat (0xE0 + n / 4096)) (.ofNat (0x80 + n / 64 % 64)) = true := by
      rw [isSecond_iff, ha, hx]
      constructor <;> repeat' split
      all_goals omega
    have hn : (0xE0 + n / 4096) % 16 * 4096 + (0x80 + n / 64 % 64) % 64 * 64 + (0x80 + n % 64) % 64 =
        n := by omega
    have hd := decodeChar_three rest (by omega) (by omega) hb (isContinuation_ofNat n)
    rw [ha, hx, hx, hn, hc] at hd
    exact hd
  · obtain ⟨rfl, rfl⟩ := List.cons.inj h
    have ha : (UInt8.ofNat (0xF0 + n / 262144)).toNat = 0xF0 + n / 262144 := toNat_ofNat (by omega)
    have hb : isSecond (.ofNat (0xF0 + n / 262144)) (.ofNat (0x80 + n / 4096 % 64)) = true := by
      rw [isSecond_iff, ha, hx]
      constructor <;> repeat' split
      all_goals omega
    have hn : (0xF0 + n / 262144) % 8 * 262144 + (0x80 + n / 4096 % 64) % 64 * 4096 +
        (0x80 + n / 64 % 64) % 64 * 64 + (0x80 + n % 64) % 64 = n := by omega
    have hd := decodeChar_four rest (by omega) (by omega) hb (isContinuation_ofNat (n / 64))
      (isContinuation_ofNat n)
    rw [ha, hx, hx, hx, hn, hc] at hd
    exact hd

theorem encodeChar_ne_nil (c : Char) : encodeChar c ≠ [] := by
  simp only [encodeChar]
  repeat' split
  all_goals simp

theorem decodeFrom_encode (i : Nat) (before t : Text) :
    decodeFrom i before (encode t) = .ok (before.reverse ++ t) := by
  induction t generalizing i before with
  | nil => simp [encode, decodeFrom]
  | cons c t ih =>
    obtain ⟨b, bs, hb⟩ := List.exists_cons_of_ne_nil (encodeChar_ne_nil c)
    have hd := decodeChar_encodeChar (encode t) hb
    rw [encode, List.flatMap_cons, hb, List.cons_append, decodeFrom]
    split
    · rename_i c' rest h
      rw [← encode, hd] at h
      obtain ⟨rfl, rfl⟩ : c = c' ∧ encode t = rest := by simpa using h
      simp [ih]
    · rename_i n h
      rw [← encode, hd] at h
      contradiction

/-- A text is read back as it was written. -/
theorem decode_encode (t : Text) : decode (encode t) = .ok t := by
  simpa [decode] using decodeFrom_encode 0 [] t

theorem length_of_decodeFrom {i : Nat} {before : Text} {bs : Bytes} {t : Text}
    (h : decodeFrom i before bs = .ok t) : t.length ≤ before.length + bs.length := by
  induction i, before, bs using decodeFrom.induct with
  | case1 i before =>
    rw [decodeFrom, Except.ok.injEq] at h
    simp [← h]
  | case2 i before b bs c rest hc hrest ih =>
    rw [decodeFrom] at h
    split at h
    · next c' rest' hc' =>
      obtain ⟨rfl, rfl⟩ : c = c' ∧ rest = rest' := by simpa using hc.symm.trans hc'
      have hlength := ih h
      simp only [List.length_cons] at hlength ⊢
      omega
    · contradiction
  | case3 i before b bs n hn =>
    rw [decodeFrom] at h
    split at h
    · next hc =>
      rw [hn] at hc
      contradiction
    · contradiction

/-- A text has no more characters than bytes. -/
theorem length_of_decode {bs : Bytes} {t : Text} (h : decode bs = .ok t) : t.length ≤ bs.length := by
  simpa using length_of_decodeFrom h

end GuardedCalls.Utf8
