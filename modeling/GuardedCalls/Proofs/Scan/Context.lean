import GuardedCalls.Proofs.Text.Search
import GuardedCalls.Scan.Exemption

/-! The contexts that excuse a name, described by how a line is put together. The search for them
misses none, and takes a name only as a whole. -/

namespace GuardedCalls
namespace SafeContext
open Text (isBlank isBlankText isIdentChar isWordChar stripPrefix?)

/-- The name, whole at its front, is assigned a bracket. -/
def Assigned (line name : Text) : Prop :=
  ∃ before gap gap' rest,
    line = before ++ (name ++ gap ++ '=' :: (gap' ++ '[' :: rest)) ∧
      (∀ c ∈ before.getLast?, isIdentChar c = false) ∧
      isBlankText gap = true ∧ isBlankText gap' = true

/-- `Array.from`, not the end of a longer word, is called. -/
def Converted (line : Text) : Prop :=
  ∃ before gap rest,
    line = before ++ ("Array.from".toList ++ gap ++ '(' :: rest) ∧
      (∀ c ∈ before.getLast?, isWordChar c = false) ∧ isBlankText gap = true

/-- The name, whole at its end, is spread as the first item of a bracket. -/
def Spread (line name : Text) : Prop :=
  ∃ before gap gap' rest,
    line = before ++ '[' :: (gap ++ "...".toList ++ gap' ++ name ++ rest) ∧
      isBlankText gap = true ∧ isBlankText gap' = true ∧
      ∀ c ∈ rest.head?, isIdentChar c = false

theorem anywhere_eq_true {p : Option Char → Text → Bool} {front : Option Char} {t : Text} :
    anywhere p front t = true ↔ ∃ b r, t = b ++ r ∧ p (b.getLast?.or front) r = true := by
  induction t generalizing front with
  | nil => simp [anywhere, and_assoc]
  | cons c t ih =>
    rw [anywhere, Bool.or_eq_true, ih]
    constructor
    · rintro (h | ⟨b, r, rfl, h⟩)
      · exact ⟨[], c :: t, rfl, h⟩
      · refine ⟨c :: b, r, rfl, ?_⟩
        cases hb : b.getLast? <;> simp_all [List.getLast?_cons]
    · rintro ⟨b, r, ht, h⟩
      cases b with
      | nil =>
        obtain rfl : c :: t = r := ht
        exact Or.inl h
      | cons d b =>
        obtain ⟨rfl, rfl⟩ := List.cons.inj ht
        refine Or.inr ⟨b, r, rfl, ?_⟩
        cases hb : b.getLast? <;> simp_all [List.getLast?_cons]

theorem pastBlanks_eq_true {p : Text → Bool} {t : Text} :
    pastBlanks p t = true ↔ ∃ gap r, t = gap ++ r ∧ isBlankText gap = true ∧ p r = true := by
  induction t with
  | nil => simp [pastBlanks, isBlankText, and_assoc]
  | cons c t ih =>
    rw [pastBlanks, Bool.or_eq_true, Bool.and_eq_true, ih]
    constructor
    · rintro (h | ⟨hc, gap, r, rfl, hgap, h⟩)
      · exact ⟨[], c :: t, rfl, rfl, h⟩
      · exact ⟨c :: gap, r, rfl, by simpa [isBlankText, hc] using hgap, h⟩
    · rintro ⟨gap, r, ht, hgap, h⟩
      cases gap with
      | nil =>
        obtain rfl : c :: t = r := ht
        exact Or.inl h
      | cons d gap =>
        obtain ⟨rfl, rfl⟩ := List.cons.inj ht
        obtain ⟨hc, hgap⟩ : isBlank c = true ∧ isBlankText gap = true := by
          simpa [isBlankText] using hgap
        exact Or.inr ⟨hc, gap, r, rfl, hgap, h⟩

/-- A text that starts with no blank is found behind all leading blanks or not at all. -/
theorem stripPrefix?_dropWhile {c : Char} {n t r : Text} (hc : isBlank c = false) :
    stripPrefix? (c :: n) (t.dropWhile isBlank) = some r ↔
      ∃ gap, t = gap ++ (c :: n ++ r) ∧ isBlankText gap = true := by
  rw [Text.stripPrefix?_eq_some]
  constructor
  · intro h
    refine ⟨t.takeWhile isBlank, ?_, List.all_takeWhile⟩
    rw [← h, List.takeWhile_append_dropWhile]
  · rintro ⟨gap, rfl, hgap⟩
    rw [List.dropWhile_append_of_pos (List.all_eq_true.1 hgap), List.cons_append,
      List.dropWhile_cons_of_neg (by simp [hc])]

theorem after?_eq_some {c : Char} {t r : Text} (hc : isBlank c = false) :
    after? c t = some r ↔ ∃ gap, t = gap ++ c :: r ∧ isBlankText gap = true :=
  stripPrefix?_dropWhile hc

theorem any_eq_false {p : Char → Bool} {front : Option Char} :
    front.any p = false ↔ ∀ c ∈ front, p c = false := by
  cases front <;> simp

theorem isAssigned_eq_true {name t : Text} {front : Option Char} :
    isAssigned name front t = true ↔ (∀ c ∈ front, isIdentChar c = false) ∧
      ∃ gap gap' rest, t = name ++ gap ++ '=' :: (gap' ++ '[' :: rest) ∧
        isBlankText gap = true ∧ isBlankText gap' = true := by
  have hequals : isBlank '=' = false := by decide
  have hbracket : isBlank '[' = false := by decide
  rw [isAssigned, Bool.and_eq_true, Bool.not_eq_true', any_eq_false, Option.isSome_iff_exists]
  simp only [Option.bind_eq_some_iff, Text.stripPrefix?_eq_some, after?_eq_some hequals,
    after?_eq_some hbracket]
  refine and_congr_right fun _ => ?_
  constructor
  · rintro ⟨rest, _, ⟨_, rfl, gap, rfl, hgap⟩, gap', rfl, hgap'⟩
    exact ⟨gap, gap', rest, by simp, hgap, hgap'⟩
  · rintro ⟨gap, gap', rest, rfl, hgap, hgap'⟩
    exact ⟨rest, _, ⟨_, by rw [List.append_assoc], gap, rfl, hgap⟩, gap', rfl, hgap'⟩

theorem isConverted_eq_true {t : Text} {front : Option Char} :
    isConverted front t = true ↔ (∀ c ∈ front, isWordChar c = false) ∧
      ∃ gap rest, t = "Array.from".toList ++ gap ++ '(' :: rest ∧ isBlankText gap = true := by
  have hparen : isBlank '(' = false := by decide
  rw [isConverted, Bool.and_eq_true, Bool.not_eq_true', any_eq_false, Option.isSome_iff_exists]
  simp only [Option.bind_eq_some_iff, Text.stripPrefix?_eq_some, after?_eq_some hparen]
  refine and_congr_right fun _ => ?_
  constructor
  · rintro ⟨rest, _, rfl, gap, rfl, hgap⟩
    exact ⟨gap, rest, by rw [List.append_assoc], hgap⟩
  · rintro ⟨gap, rest, rfl, hgap⟩
    exact ⟨rest, _, by rw [List.append_assoc], gap, rfl, hgap⟩

theorem isWhole_eq_true {name t : Text} :
    isWhole name t = true ↔ ∃ rest, t = name ++ rest ∧ ∀ c ∈ rest.head?, isIdentChar c = false := by
  rw [isWhole]
  cases hs : stripPrefix? name t with
  | none =>
    have hno : ∀ rest, t ≠ name ++ rest := by
      rintro rest rfl
      simp [Text.stripPrefix?_append] at hs
    simp [hno]
  | some rest =>
    obtain rfl := Text.stripPrefix?_eq_some.1 hs
    rw [Bool.not_eq_true', any_eq_false]
    simp only [List.append_cancel_left_eq, exists_eq_left']

theorem isSpread_cons {name u : Text} :
    isSpread name ('[' :: u) = true ↔ ∃ gap v, u = gap ++ ("...".toList ++ v) ∧
      isBlankText gap = true ∧ pastBlanks (isWhole name) v = true := by
  have hpoints {v : Text} : stripPrefix? "...".toList (u.dropWhile isBlank) = some v ↔
      ∃ gap, u = gap ++ ("...".toList ++ v) ∧ isBlankText gap = true :=
    stripPrefix?_dropWhile (by decide)
  rw [isSpread, show stripPrefix? ['['] ('[' :: u) = some u from rfl, Option.any_eq_true]
  simp only [hpoints]
  constructor
  · rintro ⟨v, ⟨gap, hu, hgap⟩, hv⟩
    exact ⟨gap, v, hu, hgap, hv⟩
  · rintro ⟨gap, v, hu, hgap, hv⟩
    exact ⟨v, ⟨gap, hu, hgap⟩, hv⟩

theorem isSpread_eq_true {name t : Text} :
    isSpread name t = true ↔ ∃ gap gap' rest,
      t = '[' :: (gap ++ "...".toList ++ gap' ++ name ++ rest) ∧
        isBlankText gap = true ∧ isBlankText gap' = true ∧
        ∀ c ∈ rest.head?, isIdentChar c = false := by
  constructor
  · intro h
    cases hs : stripPrefix? ['['] t with
    | none => simp [isSpread, hs] at h
    | some u =>
      obtain rfl := Text.stripPrefix?_eq_some.1 hs
      obtain ⟨gap, v, rfl, hgap, hv⟩ := isSpread_cons.1 h
      obtain ⟨gap', w, rfl, hgap', hw⟩ := pastBlanks_eq_true.1 hv
      obtain ⟨rest, rfl, hrest⟩ := isWhole_eq_true.1 hw
      exact ⟨gap, gap', rest, by simp, hgap, hgap', hrest⟩
  · rintro ⟨gap, gap', rest, rfl, hgap, hgap', hrest⟩
    have hwhole : isWhole name (name ++ rest) = true := isWhole_eq_true.2 ⟨rest, rfl, hrest⟩
    have hpast := pastBlanks_eq_true.2 ⟨gap', name ++ rest, rfl, hgap', hwhole⟩
    exact isSpread_cons.2 ⟨gap, _, by simp only [List.append_assoc], hgap, hpast⟩

variable {line name : Text}

theorem anywhere_isAssigned :
    anywhere (isAssigned name) none line = true ↔ Assigned line name := by
  simp only [anywhere_eq_true, isAssigned_eq_true, Option.or_none]
  constructor
  · rintro ⟨before, _, rfl, hfront, gap, gap', rest, rfl, hgap, hgap'⟩
    exact ⟨before, gap, gap', rest, rfl, hfront, hgap, hgap'⟩
  · rintro ⟨before, gap, gap', rest, rfl, hfront, hgap, hgap'⟩
    exact ⟨before, _, rfl, hfront, gap, gap', rest, rfl, hgap, hgap'⟩

theorem anywhere_isConverted : anywhere isConverted none line = true ↔ Converted line := by
  simp only [anywhere_eq_true, isConverted_eq_true, Option.or_none]
  constructor
  · rintro ⟨before, _, rfl, hfront, gap, rest, rfl, hgap⟩
    exact ⟨before, gap, rest, rfl, hfront, hgap⟩
  · rintro ⟨before, gap, rest, rfl, hfront, hgap⟩
    exact ⟨before, _, rfl, hfront, gap, rest, rfl, hgap⟩

theorem anywhere_isSpread :
    anywhere (fun _ => isSpread name) none line = true ↔ Spread line name := by
  simp only [anywhere_eq_true, isSpread_eq_true]
  constructor
  · rintro ⟨before, _, rfl, gap, gap', rest, rfl, hgap, hgap', hrest⟩
    exact ⟨before, gap, gap', rest, rfl, hgap, hgap', hrest⟩
  · rintro ⟨before, gap, gap', rest, rfl, hgap, hgap', hrest⟩
    exact ⟨before, _, rfl, gap, gap', rest, rfl, hgap, hgap', hrest⟩

/-- The context that is found is the first that the line has, and a line without any has none. -/
theorem find?_eq_some_iff (line name : Text) :
    (find? line name = some assigned ↔ Assigned line name) ∧
      (find? line name = some converted ↔ ¬ Assigned line name ∧ Converted line) ∧
      (find? line name = some spread ↔
        ¬ Assigned line name ∧ ¬ Converted line ∧ Spread line name) ∧
      (find? line name = none ↔
        ¬ Assigned line name ∧ ¬ Converted line ∧ ¬ Spread line name) := by
  rw [← anywhere_isAssigned, ← anywhere_isConverted, ← anywhere_isSpread, find?]
  split
  · simp [*]
  · split
    · simp [*]
    · split <;> simp [*]

end SafeContext
end GuardedCalls
