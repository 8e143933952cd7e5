import GuardedCalls.Text.Basic
import Mathlib

/-! Texts in the order of their characters, which is that of their first difference. -/

namespace GuardedCalls.Text

/-- Lists are compared like their items, and a list counts as smaller than those that go on from it. -/
theorem lexLe_eq_true {α : Type} [DecidableEq α] [LinearOrder α] {le : α → α → Bool}
    (h : ∀ a b, le a b = true ↔ a ≤ b) {s t : List α} : lexLe le s t = true ↔ s ≤ t := by
  rw [← not_lt]
  induction s generalizing t with
  | nil => simp [lexLe]
  | cons a s ih =>
    cases t with
    | nil => simp [lexLe]
    | cons b t =>
      rw [lexLe, List.cons_lt_cons_iff]
      by_cases hab : a = b
      · simp [hab, ih]
      · simp [hab, Ne.symm hab, h]

theorem le_eq_true {s t : Text} : le s t = true ↔ s ≤ t :=
  lexLe_eq_true fun c d => by
    rw [decide_eq_true_iff, Char.le_def, UInt32.le_iff_toNat_le]
    rfl

end GuardedCalls.Text
