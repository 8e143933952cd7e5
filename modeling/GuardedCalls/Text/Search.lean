import GuardedCalls.Text.Basic

/-!
Looking for one text inside another.
-/

namespace GuardedCalls.Text

/-- What follows `p` when the text starts with it. -/
def stripPrefix? : (p t : Text) → Option Text
  | [], t => some t
  | _ :: _, [] => none
  | a :: p, c :: t => if a = c then stripPrefix? p t else none

/-- The parts before and after the first occurrence of `needle`. -/
def cut? (needle : Text) : Text → Option (Text × Text)
  | [] => if needle = [] then some ([], []) else none
  | c :: cs =>
    match stripPrefix? needle (c :: cs) with
    | some after => some ([], after)
    | none => (cut? needle cs).map fun (before, after) => (c :: before, after)

def contains (needle : Text) : Text → Bool
  | [] => needle = []
  | c :: cs => (stripPrefix? needle (c :: cs)).isSome || contains needle cs

def replaceFirst? (needle replacement t : Text) : Option Text :=
  (cut? needle t).map fun (before, after) => before ++ replacement ++ after

theorem stripPrefix?_eq_some {p t r : Text} : stripPrefix? p t = some r ↔ t = p ++ r := by
  induction p generalizing t with
  | nil => simp [stripPrefix?, eq_comm]
  | cons a p ih =>
    cases t with
    | nil => simp [stripPrefix?]
    | cons c t =>
      by_cases h : a = c
      · simp [stripPrefix?, h, ih]
      · simp [stripPrefix?, h, Ne.symm h]

theorem cut?_eq_some {needle t b a : Text} (h : cut? needle t = some (b, a)) :
    t = b ++ needle ++ a := by
  induction t generalizing b with
  | nil =>
    by_cases hn : needle = []
    · simp [cut?, hn] at h; simp [h, hn]
    · simp [cut?, hn] at h
  | cons c cs ih =>
    rw [cut?] at h
    split at h
    · rename_i after hp
      obtain ⟨rfl, rfl⟩ : [] = b ∧ after = a := by simpa using h
      simpa using stripPrefix?_eq_some.1 hp
    · obtain ⟨⟨b', a'⟩, hc, he⟩ := Option.map_eq_some_iff.1 h
      obtain ⟨rfl, rfl⟩ : c :: b' = b ∧ a' = a := by simpa using he
      simpa using ih hc

end GuardedCalls.Text
