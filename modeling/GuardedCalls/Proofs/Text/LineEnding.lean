import GuardedCalls.Proofs.Text.Lines

/-! Two-character line endings. Pieces and lines correspond one to one if the text had no carriage
returns, and a text that holds neither character of an ending is found at the same places. -/

namespace GuardedCalls.Text

/-- The text with a carriage return before each newline. -/
def crlf (t : Text) : Text :=
  t.flatMap fun c => if c = '\n' then ['\r', '\n'] else [c]

/-- A text without line endings and parts of such. -/
structure Unbroken (t : Text) : Prop where
  carriage : '\r' ∉ t
  newline : '\n' ∉ t

instance (t : Text) : Decidable t.Unbroken :=
  decidable_of_iff ('\r' ∉ t ∧ '\n' ∉ t) ⟨fun h => ⟨h.1, h.2⟩, fun h => ⟨h.1, h.2⟩⟩

theorem Unbroken.append {s t : Text} (hs : s.Unbroken) (ht : t.Unbroken) : (s ++ t).Unbroken :=
  ⟨by simp [hs.carriage, ht.carriage], by simp [hs.newline, ht.newline]⟩

theorem Unbroken.of_infix {s t : Text} (ht : t.Unbroken) (h : s <:+: t) : s.Unbroken :=
  ⟨fun hs => ht.carriage (h.subset hs), fun hs => ht.newline (h.subset hs)⟩

@[simp] theorem crlf_nil : crlf [] = [] := rfl

@[simp] theorem crlf_newline : crlf ['\n'] = ['\r', '\n'] := rfl

@[simp] theorem crlf_append (s t : Text) : crlf (s ++ t) = crlf s ++ crlf t :=
  List.flatMap_append

theorem crlf_flatten (ts : List Text) : crlf ts.flatten = (ts.map crlf).flatten := by
  induction ts with
  | nil => rfl
  | cons t ts ih => rw [List.flatten_cons, crlf_append, ih, List.map_cons, List.flatten_cons]

theorem crlf_cons {c : Char} (hc : c ≠ '\n') (t : Text) : crlf (c :: t) = c :: crlf t := by
  simp [crlf, hc]

theorem crlf_of_notMem {x : Text} (hx : '\n' ∉ x) : crlf x = x := by
  induction x with
  | nil => rfl
  | cons c x ih =>
    have hc : c ≠ '\n' := fun h => hx (by simp [h])
    rw [crlf_cons hc, ih fun h => hx (List.mem_cons_of_mem c h)]

theorem crlf_stretch {x : Text} (hx : '\n' ∉ x) (t : Text) :
    crlf (x ++ '\n' :: t) = (x ++ ['\r']) ++ '\n' :: crlf t := by
  have hsplit : x ++ '\n' :: t = x ++ (['\n'] ++ t) := rfl
  rw [hsplit, crlf_append, crlf_append, crlf_of_notMem hx]
  simp

theorem pieces_crlf (t : Text) : (crlf t).pieces = t.pieces.map crlf := by
  induction t using closing_induction '\n' with
  | last x hx =>
    rw [crlf_of_notMem hx, pieces_of_notMem hx]
    split <;> simp [crlf_of_notMem hx]
  | stretch x t hx ih =>
    have hreturn : '\n' ∉ x ++ ['\r'] := by simp [hx]
    rw [crlf_stretch hx, pieces_append _ hreturn, pieces_append t hx, ih, List.map_cons, crlf_append,
      crlf_of_notMem hx, crlf_newline, List.append_assoc]
    rfl

/-- A line and the newline that may end it. -/
def IsPiece (p : Text) : Prop :=
  ∃ x e, Unbroken x ∧ (e = [] ∨ e = ['\n']) ∧ p = x ++ e

theorem isPiece_of_mem_pieces {t : Text} (ht : '\r' ∉ t) : ∀ p ∈ t.pieces, IsPiece p := by
  induction t using closing_induction '\n' with
  | last x hx =>
    intro p hp
    rw [pieces_of_notMem hx] at hp
    split at hp
    · simp at hp
    · rw [List.mem_singleton.1 hp]
      exact ⟨x, [], ⟨ht, hx⟩, Or.inl rfl, by simp⟩
  | stretch x t hx ih =>
    have hparts : '\r' ∉ x ∧ '\r' ∉ t := by simpa using ht
    rw [pieces_append t hx, List.forall_mem_cons]
    exact ⟨⟨x, ['\n'], ⟨hparts.1, hx⟩, Or.inr rfl, rfl⟩, ih hparts.2⟩

theorem chomp_crlf {p : Text} (hp : IsPiece p) : chomp (crlf p) = chomp p := by
  obtain ⟨x, e, hx, he, rfl⟩ := hp
  have hlast : x.getLast? ≠ some '\r' := fun h => hx.carriage (List.mem_of_getLast? h)
  rw [crlf_append, crlf_of_notMem hx.newline]
  cases he with
  | inl he => rw [he, crlf_nil]
  | inr he => rw [he, crlf_newline, chomp_return, chomp_newline hlast]

theorem lines_crlf {t : Text} (ht : '\r' ∉ t) : (crlf t).lines = t.lines := by
  rw [lines, lines, pieces_crlf, List.map_map]
  exact List.map_congr_left fun p hp => chomp_crlf (isPiece_of_mem_pieces ht p hp)

theorem prefix_append_cons {c : Char} {n : Text} (hn : c ∉ n) (x t : Text) :
    n <+: x ++ c :: t ↔ n <+: x := by
  induction x generalizing n with
  | nil =>
    cases n with
    | nil => simp
    | cons a n =>
      have ha : a ≠ c := fun h => hn (by simp [h])
      simp [List.cons_prefix_cons, ha]
  | cons b x ih =>
    cases n with
    | nil => simp
    | cons a n =>
      have hrest := ih fun h => hn (List.mem_cons_of_mem a h)
      rw [List.cons_append, List.cons_prefix_cons, List.cons_prefix_cons, hrest]

/-- A character that a text does not hold parts the places where it is found. -/
theorem infix_append_cons {c : Char} {n : Text} (hn : c ∉ n) (x t : Text) :
    n <:+: x ++ c :: t ↔ n <:+: x ∨ n <:+: t := by
  induction x with
  | nil =>
    have hfront := prefix_append_cons hn [] t
    rw [List.nil_append] at hfront ⊢
    rw [List.infix_cons_iff, hfront, List.prefix_nil, List.infix_nil]
  | cons a x ih =>
    have hfront := prefix_append_cons hn (a :: x) t
    rw [List.cons_append] at hfront ⊢
    rw [List.infix_cons_iff, hfront, ih, List.infix_cons_iff, or_assoc]

theorem infix_crlf {n : Text} (hn : n.Unbroken) (t : Text) : n <:+: crlf t ↔ n <:+: t := by
  induction t using closing_induction '\n' with
  | last x hx => rw [crlf_of_notMem hx]
  | stretch x t hx ih =>
    have hempty : n <:+: [] → n <:+: x := fun h => h.trans List.nil_infix
    rw [crlf_stretch hx, infix_append_cons hn.newline, infix_append_cons hn.carriage, ih,
      infix_append_cons hn.newline, or_iff_left_of_imp hempty]

theorem contains_crlf {n : Text} (hn : n.Unbroken) (t : Text) :
    contains n (crlf t) = contains n t := by
  rw [Bool.eq_iff_iff, contains_eq_true, contains_eq_true, infix_crlf hn]

theorem stripPrefix?_of_notMem {c : Char} {n t : Text} (ht : c ∉ t) :
    stripPrefix? (n ++ [c]) t = none :=
  stripPrefix?_eq_none.2 fun h => ht (h.subset (by simp))

/-- A text that ends with `c` does not start in one part and end in the next, if that is without `c`. -/
theorem stripPrefix?_append_of_notMem {c : Char} {e : Text} (he : c ∉ e) (n t : Text) :
    stripPrefix? (n ++ [c]) (t ++ e) = (stripPrefix? (n ++ [c]) t).map (· ++ e) := by
  induction t generalizing n with
  | nil =>
    rw [List.nil_append, stripPrefix?_of_notMem he, stripPrefix?_of_notMem List.not_mem_nil]
    rfl
  | cons b t ih =>
    cases n with
    | nil => by_cases hb : c = b <;> simp [stripPrefix?, hb]
    | cons a n => by_cases hb : a = b <;> simp [stripPrefix?, hb, ih]

theorem cut?_append_of_notMem {c : Char} {e : Text} (he : c ∉ e) (n t : Text) :
    cut? (n ++ [c]) (t ++ e) =
      (cut? (n ++ [c]) t).map fun (before, after) => (before, after ++ e) := by
  induction t with
  | nil =>
    rw [List.nil_append, cut?_eq_none_of_notMem he, cut?_eq_none_of_notMem List.not_mem_nil]
    rfl
  | cons a t ih =>
    have hfront := stripPrefix?_append_of_notMem he n (a :: t)
    rw [List.cons_append] at hfront ⊢
    rw [cut?, cut?, hfront, ih]
    cases stripPrefix? (n ++ [c]) (a :: t) with
    | none => simp [Function.comp_def]
    | some after => rfl

theorem replaceFirst?_append_of_notMem {c : Char} {e : Text} (he : c ∉ e) (n r t : Text) :
    replaceFirst? (n ++ [c]) r (t ++ e) = (replaceFirst? (n ++ [c]) r t).map (· ++ e) := by
  rw [replaceFirst?, replaceFirst?, cut?_append_of_notMem he, Option.map_map, Option.map_map]
  congr 1
  funext parts
  simp

end GuardedCalls.Text
