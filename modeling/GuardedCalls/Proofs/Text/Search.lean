import GuardedCalls.Text.Search

/-! Occurrences of one text in another. A needle that ends with a character it holds nowhere else
is found stretch by stretch, a stretch being the text up to the next such character. -/

namespace GuardedCalls.Text

theorem stripPrefix?_append (p t : Text) : stripPrefix? p (p ++ t) = some t :=
  stripPrefix?_eq_some.2 rfl

theorem stripPrefix?_isSome {p t : Text} : (stripPrefix? p t).isSome ↔ p <+: t := by
  rw [Option.isSome_iff_exists]
  constructor
  · rintro ⟨r, hr⟩
    exact ⟨r, (stripPrefix?_eq_some.1 hr).symm⟩
  · rintro ⟨r, rfl⟩
    exact ⟨r, stripPrefix?_append p r⟩

theorem stripPrefix?_eq_none {p t : Text} : stripPrefix? p t = none ↔ ¬ p <+: t := by
  rw [← stripPrefix?_isSome]
  cases stripPrefix? p t <;> simp

theorem contains_eq_true {needle t : Text} : contains needle t = true ↔ needle <:+: t := by
  induction t with
  | nil => simp [contains]
  | cons c cs ih =>
    rw [contains, Bool.or_eq_true, stripPrefix?_isSome, ih, List.infix_cons_iff]

theorem cut?_isSome {needle t : Text} : (cut? needle t).isSome ↔ needle <:+: t := by
  induction t with
  | nil => by_cases h : needle = [] <;> simp [cut?, h]
  | cons c cs ih =>
    rw [cut?, List.infix_cons_iff, ← ih, ← stripPrefix?_isSome]
    cases stripPrefix? needle (c :: cs) <;> simp

theorem replaceFirst?_isSome {needle r t : Text} :
    (replaceFirst? needle r t).isSome ↔ needle <:+: t := by
  rw [replaceFirst?, Option.isSome_map, cut?_isSome]

/-- Two texts that are the same up to their first closing character are the same in both parts. -/
theorem append_closing_inj {c : Char} {x y s t : Text} (hx : c ∉ x) (hy : c ∉ y) :
    x ++ c :: s = y ++ c :: t ↔ x = y ∧ s = t := by
  induction x generalizing y with
  | nil =>
    cases y with
    | nil => simp
    | cons b y =>
      have hb : c ≠ b := fun h => hy (by simp [h])
      simp [hb]
  | cons a x ih =>
    cases y with
    | nil =>
      have ha : a ≠ c := fun h => hx (by simp [h])
      simp [ha]
    | cons b y =>
      have := ih (y := y) (by simp_all) (by simp_all)
      simp [this, and_assoc]

/-- A needle that ends with `c` and the part of the text before the first `c`. -/
theorem prefix_closing {c : Char} {n x t : Text} (hn : c ∉ n) (hx : c ∉ x) :
    n ++ [c] <+: x ++ c :: t ↔ n = x := by
  constructor
  · rintro ⟨r, hr⟩
    rw [List.append_assoc, List.singleton_append] at hr
    exact ((append_closing_inj hn hx).1 hr).1
  · rintro rfl
    exact ⟨t, by simp⟩

theorem cut?_eq_none {needle t : Text} : cut? needle t = none ↔ ¬ needle <:+: t := by
  rw [← cut?_isSome]
  cases cut? needle t <;> simp

theorem cut?_eq_none_of_notMem {c : Char} {n t : Text} (ht : c ∉ t) : cut? (n ++ [c]) t = none :=
  cut?_eq_none.2 fun h => ht (h.subset (by simp))

/-- The needle is found in the first stretch if that stretch ends with it, and else further on. -/
theorem cut?_append_closing {c : Char} {n x t : Text} (hn : c ∉ n) (hx : c ∉ x) :
    cut? (n ++ [c]) (x ++ c :: t) =
      if n <:+ x then some (x.take (x.length - n.length), t)
      else (cut? (n ++ [c]) t).map fun (before, after) => (x ++ c :: before, after) := by
  induction x with
  | nil =>
    by_cases h : n = []
    · subst h
      simp [cut?, stripPrefix?]
    · have hs : stripPrefix? (n ++ [c]) (c :: t) = none := by
        rw [stripPrefix?_eq_none]
        exact fun hp => h ((prefix_closing (x := []) hn (by simp)).1 hp)
      simp [cut?, hs, h]
  | cons a x ih =>
    have hx' : c ∉ x := fun h => hx (List.mem_cons_of_mem a h)
    rw [List.cons_append, cut?]
    by_cases h : n = a :: x
    · have hs : stripPrefix? (n ++ [c]) (a :: (x ++ c :: t)) = some t := by
        rw [stripPrefix?_eq_some, h]
        simp
      rw [hs, if_pos (h ▸ List.suffix_rfl), h]
      simp
    · have hs : stripPrefix? (n ++ [c]) (a :: (x ++ c :: t)) = none := by
        rw [stripPrefix?_eq_none]
        exact fun hp => h ((prefix_closing (x := a :: x) hn hx).1 hp)
      have hsuf : n <:+ a :: x ↔ n <:+ x := by simp [List.suffix_cons_iff, h]
      simp only [hs, ih hx', hsuf]
      split
      · rename_i hn'
        have hlen := hn'.length_le
        simp only [Option.map_some, List.length_cons]
        rw [show x.length + 1 - n.length = x.length - n.length + 1 from by omega, List.take_succ_cons]
      · cases cut? (n ++ [c]) t <;> simp

/-- A character is found where it first stands. -/
theorem cut?_singleton {c : Char} {x : Text} (hx : c ∉ x) (t : Text) :
    cut? [c] (x ++ c :: t) = some (x, t) := by
  simpa using cut?_append_closing (n := []) (t := t) List.not_mem_nil hx

/-- Every text is without the character or a stretch that it closes and a further text. -/
theorem closing_induction {P : Text → Prop} (c : Char) (last : ∀ x, c ∉ x → P x)
    (stretch : ∀ x t, c ∉ x → P t → P (x ++ c :: t)) (t : Text) : P t := by
  induction h : t.length using Nat.strongRecOn generalizing t with
  | ind n ih =>
    by_cases hc : c ∈ t
    · obtain ⟨x, s, rfl, hx⟩ := List.eq_append_cons_of_mem hc
      subst h
      exact stretch x s hx (ih s.length (by simp; omega) s rfl)
    · exact last t hc

/-- The columns at which a text stands in another one, from left to right. -/
def columns (needle t : Text) : List Nat :=
  (List.range (t.length + 1)).filter fun i => needle <+: t.drop i

theorem mem_columns {needle t : Text} {i : Nat} :
    i ∈ columns needle t ↔ i ≤ t.length ∧ needle <+: t.drop i := by
  rw [columns, List.mem_filter, List.mem_range, Nat.lt_succ_iff, decide_eq_true_eq]

theorem pairwise_columns (needle t : Text) : (columns needle t).Pairwise (· < ·) :=
  List.pairwise_lt_range.filter _

theorem columns_cons (needle : Text) (c : Char) (t : Text) :
    columns needle (c :: t) =
      (if needle <+: c :: t then [0] else []) ++ (columns needle t).map (· + 1) := by
  rw [columns, List.length_cons, List.range_succ_eq_map, List.filter_cons, List.filter_map, columns]
  by_cases h : needle <+: c :: t <;> simp [h, Function.comp_def]

theorem columns_of_notMem {c : Char} {n t : Text} (ht : c ∉ t) : columns (n ++ [c]) t = [] := by
  rw [columns, List.filter_eq_nil_iff]
  intro i _ h
  have hn : n ++ [c] <+: t.drop i := of_decide_eq_true h
  exact ht (List.mem_of_mem_drop (hn.subset (by simp)))

/-- The needle stands at most once in the first stretch, at its end. -/
theorem columns_append_closing {c : Char} {n x : Text} (t : Text) (hn : c ∉ n) (hx : c ∉ x) :
    columns (n ++ [c]) (x ++ c :: t) =
      (if n <:+ x then [x.length - n.length] else []) ++
        (columns (n ++ [c]) t).map (x.length + 1 + ·) := by
  induction x with
  | nil =>
    have hfront : n ++ [c] <+: c :: t ↔ n = [] := prefix_closing (x := []) hn hx
    simp [columns_cons, hfront, Nat.add_comm 1]
  | cons a x ih =>
    have hfront : n ++ [c] <+: a :: (x ++ c :: t) ↔ n = a :: x := prefix_closing hn hx
    have hshift : ((columns (n ++ [c]) t).map (x.length + 1 + ·)).map (· + 1) =
        (columns (n ++ [c]) t).map ((a :: x).length + 1 + ·) := by
      simp only [List.map_map, Function.comp_def, List.length_cons, Nat.add_right_comm]
    rw [List.cons_append, columns_cons, ih fun h => hx (List.mem_cons_of_mem a h),
      List.map_append, hshift, ← List.append_assoc]
    congr 1
    by_cases hwhole : n = a :: x
    · have hlong : ¬ n <:+ x := by
        intro h
        have hlen := h.length_le
        rw [hwhole, List.length_cons] at hlen
        omega
      rw [if_pos (hfront.2 hwhole), if_neg hlong, if_pos (hwhole ▸ List.suffix_rfl), hwhole]
      simp
    · have hsuffix : n <:+ a :: x ↔ n <:+ x := by simp [List.suffix_cons_iff, hwhole]
      rw [if_neg (mt hfront.1 hwhole), List.nil_append]
      simp only [hsuffix]
      split
      · rename_i h
        have hlen := h.length_le
        simp
        omega
      · rfl

end GuardedCalls.Text
