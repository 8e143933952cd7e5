import GuardedCalls.Text.Basic
import Mathlib.Data.List.DropRight

/-! Identifiers, and the longest identifier that a text ends with. -/

namespace GuardedCalls.Text

theorem isIdentChar_of_isIdentStart {c : Char} (h : isIdentStart c = true) :
    isIdentChar c = true := by
  simp [isIdentChar, h]

theorem isIdentifier_cons {c : Char} {cs : Text} :
    isIdentifier (c :: cs) = true ↔ isIdentStart c = true ∧ ∀ d ∈ cs, isIdentChar d = true := by
  simp [isIdentifier]

theorem isIdentChar_of_mem {v : Text} {c : Char} (hv : isIdentifier v = true) (hc : c ∈ v) :
    isIdentChar c = true := by
  cases v with
  | nil => simp at hc
  | cons a v =>
    obtain ⟨ha, hv⟩ := isIdentifier_cons.1 hv
    rcases List.mem_cons.1 hc with rfl | hc
    · exact isIdentChar_of_isIdentStart ha
    · exact hv c hc

theorem notMem_of_isIdentifier {v : Text} {c : Char} (hv : isIdentifier v = true)
    (hc : isIdentChar c = false) : c ∉ v := by
  intro h
  rw [isIdentChar_of_mem hv h] at hc
  contradiction

theorem ne_nil_of_isIdentifier {v : Text} (hv : isIdentifier v = true) : v ≠ [] := by
  rintro rfl
  simp [isIdentifier] at hv

/-- The longest identifier that a text ends with, or nothing if it ends with none. -/
def lastName (t : Text) : Text :=
  (t.reverse.takeWhile isIdentChar).reverse.dropWhile (! isIdentStart ·)

theorem lastName_suffix (t : Text) : lastName t <:+ t := by
  have h : (t.reverse.takeWhile isIdentChar).reverse <:+ t := by
    rw [← List.reverse_prefix, List.reverse_reverse]
    exact List.takeWhile_prefix _
  exact (List.dropWhile_suffix _).trans h

theorem isIdentifier_lastName {t : Text} (h : lastName t ≠ []) :
    isIdentifier (lastName t) = true := by
  obtain ⟨c, cs, hc⟩ := List.exists_cons_of_ne_nil h
  have hstart : isIdentStart c = true := by
    have := List.head?_dropWhile_not (fun d => ! isIdentStart d)
      (t.reverse.takeWhile isIdentChar).reverse
    rw [← lastName, hc] at this
    simpa using this
  have hall : ∀ d ∈ lastName t, isIdentChar d = true := by
    intro d hd
    have hd := (List.dropWhile_suffix _).subset hd
    rw [List.mem_reverse] at hd
    exact (List.all_eq_true.1 List.all_takeWhile) d hd
  rw [hc] at hall ⊢
  exact isIdentifier_cons.2 ⟨hstart, fun d hd => hall d (List.mem_cons_of_mem c hd)⟩

theorem isIdentChar_of_mem_lastName {t : Text} {c : Char} (hc : c ∈ lastName t) :
    isIdentChar c = true :=
  isIdentChar_of_mem (isIdentifier_lastName (List.ne_nil_of_mem hc)) hc

/-- What precedes a character outside identifiers does not count. -/
theorem lastName_append_cons {c : Char} (x y : Text) (hc : isIdentChar c = false) :
    lastName (x ++ c :: y) = lastName y := by
  have h : (x ++ c :: y).reverse.takeWhile isIdentChar = y.reverse.takeWhile isIdentChar := by
    rw [List.reverse_append, List.reverse_cons, List.append_assoc, List.takeWhile_append]
    split
    · rename_i hy
      rw [(List.takeWhile_prefix _).eq_of_length hy]
      simp [hc]
    · rfl
  rw [lastName, h, lastName]

theorem lastName_concat_of_not {c : Char} (x : Text) (hc : isIdentChar c = false) :
    lastName (x ++ [c]) = [] := by
  rw [lastName_append_cons x [] hc]
  rfl

theorem lastName_concat {c : Char} (x : Text) (hc : isIdentChar c = true) :
    lastName (x ++ [c]) =
      if isIdentStart c || !(lastName x).isEmpty then lastName x ++ [c] else [] := by
  have h : (x ++ [c]).reverse.takeWhile isIdentChar = c :: x.reverse.takeWhile isIdentChar := by
    simp [hc]
  rw [lastName, h, List.reverse_cons, List.dropWhile_append, ← lastName]
  cases hs : isIdentStart c <;> cases hl : (lastName x).isEmpty <;> simp_all

/-- An identifier at the end of a text is all of its last name but perhaps the front. -/
theorem suffix_lastName {v t : Text} (hv : isIdentifier v = true) :
    v <:+ lastName t ↔ v <:+ t := by
  constructor
  · exact fun h => h.trans (lastName_suffix t)
  · rintro ⟨b, rfl⟩
    have hrun : (b ++ v).reverse.takeWhile isIdentChar =
        v.reverse ++ b.reverse.takeWhile isIdentChar := by
      rw [List.reverse_append, List.takeWhile_append_of_pos]
      exact fun c hc => isIdentChar_of_mem hv (List.mem_reverse.1 hc)
    have hkeep : v.dropWhile (! isIdentStart ·) = v := by
      cases v with
      | nil => rfl
      | cons a v => simp [(isIdentifier_cons.1 hv).1]
    rw [lastName, hrun, List.reverse_append, List.reverse_reverse, List.dropWhile_append]
    split
    · exact hkeep.symm ▸ List.suffix_rfl
    · exact List.suffix_append _ _

theorem isDigit_of_isIdentStart {c : Char} (h : isIdentStart c = true) : c.isDigit = false := by
  rw [isIdentStart] at h
  delta Char.isAlpha Char.isUpper Char.isLower at h
  delta Char.isDigit
  simp [UInt32.le_iff_toNat_le] at h ⊢
  rcases h with (h | rfl) | rfl
  · omega
  · decide
  · decide

/-- The longest run of identifier characters that a text ends with. -/
def lastRun (t : Text) : Text :=
  t.rtakeWhile isIdentChar

/-- The name that a text ends with: its last run from the first character on that is no digit. -/
def name? (t : Text) : Option Text :=
  if t.lastRun.all Char.isDigit then none else some (t.lastRun.dropWhile Char.isDigit)

theorem lastName_eq (t : Text) : lastName t = t.lastRun.dropWhile Char.isDigit := by
  have hrun : ∀ c ∈ t.lastRun, isIdentChar c = true := fun c hc => List.mem_rtakeWhile_imp hc
  have hdrop (r : Text) (hr : ∀ c ∈ r, isIdentChar c = true) :
      r.dropWhile (! isIdentStart ·) = r.dropWhile Char.isDigit := by
    induction r with
    | nil => rfl
    | cons c r ih =>
      have hc := hr c List.mem_cons_self
      rw [List.dropWhile_cons, List.dropWhile_cons, ih fun d hd => hr d (List.mem_cons_of_mem c hd)]
      cases hs : isIdentStart c with
      | true => simp [isDigit_of_isIdentStart hs]
      | false =>
        have hd : c.isDigit = true := by simpa [isIdentChar, hs] using hc
        simp [hd]
  exact hdrop t.lastRun hrun

theorem name?_eq (t : Text) : t.name? = if lastName t = [] then none else some (lastName t) := by
  simp only [name?, lastName_eq, List.dropWhile_eq_nil_iff, List.all_eq_true]

theorem name?_append_cons {c : Char} (x t : Text) (hc : isIdentChar c = false) :
    (x ++ c :: t).name? = t.name? := by
  rw [name?_eq, name?_eq, lastName_append_cons x t hc]

theorem suffix_of_name? {t v : Text} (h : t.name? = some v) : v <:+ t := by
  rw [name?_eq] at h
  split at h
  · contradiction
  · exact Option.some.inj h ▸ lastName_suffix t

end GuardedCalls.Text
