import GuardedCalls.Proofs.Text.Search
import Mathlib.Data.List.Forall2

/-! Pieces of a text: each is a line and its ending. -/

namespace GuardedCalls.Text

/-- What a line leaves of its piece. -/
def ending (piece : Text) : Text :=
  piece.drop piece.chomp.length

theorem chomp_append_ending_of (piece : Text) :
    ∃ e, (e = [] ∨ e = ['\n'] ∨ e = ['\r', '\n']) ∧ piece = piece.chomp ++ e := by
  rw [chomp]
  split
  · rename_i r h
    exact ⟨['\r', '\n'], by simp, by simpa using congrArg List.reverse h⟩
  · rename_i r _ h
    exact ⟨['\n'], by simp, by simpa using congrArg List.reverse h⟩
  · exact ⟨[], by simp, by simp⟩

theorem ending_cases (piece : Text) :
    piece.ending = [] ∨ piece.ending = ['\n'] ∨ piece.ending = ['\r', '\n'] := by
  obtain ⟨e, he, hp⟩ := chomp_append_ending_of piece
  have hdrop := congrArg (List.drop piece.chomp.length) hp
  rw [List.drop_left] at hdrop
  rwa [ending, hdrop]

@[simp] theorem chomp_append_ending (piece : Text) : piece.chomp ++ piece.ending = piece := by
  obtain ⟨e, -, hp⟩ := chomp_append_ending_of piece
  have hpre : piece.chomp <+: piece := ⟨e, hp.symm⟩
  exact List.prefix_iff_eq_append.1 hpre

theorem paren_notMem_ending (piece : Text) : '(' ∉ piece.ending := by
  rcases ending_cases piece with h | h | h <;> simp [h]

theorem length_pieces_le (t : Text) : t.pieces.length ≤ t.length := by
  induction t with
  | nil => exact Nat.le_refl 0
  | cons c cs ih =>
    rw [pieces]
    split
    · simpa using ih
    · split <;> rename_i hcs <;> simp only [hcs, List.length_cons, List.length_nil] at ih ⊢ <;> omega

theorem pieces_append {x : Text} (t : Text) (hx : '\n' ∉ x) :
    pieces (x ++ '\n' :: t) = (x ++ ['\n']) :: pieces t := by
  induction x with
  | nil => simp [pieces]
  | cons c x ih =>
    have hc : c ≠ '\n' := fun h => hx (by simp [h])
    rw [List.cons_append, pieces, if_neg hc, ih fun h => hx (List.mem_cons_of_mem c h)]
    rfl

theorem pieces_of_notMem {x : Text} (hx : '\n' ∉ x) :
    pieces x = if x = [] then [] else [x] := by
  induction x with
  | nil => rfl
  | cons c x ih =>
    have hc : c ≠ '\n' := fun h => hx (by simp [h])
    rw [pieces, if_neg hc, ih fun h => hx (List.mem_cons_of_mem c h)]
    cases x <;> simp

theorem pieces_take_append {t : Text} {i : Nat} (u : Text) (hi : i < t.pieces.length) :
    pieces ((t.pieces.take i).flatten ++ u) = t.pieces.take i ++ pieces u := by
  induction t using closing_induction '\n' generalizing i with
  | last x hx =>
    have hi : i = 0 := by
      rw [pieces_of_notMem hx] at hi
      split at hi <;> simp at hi
      exact hi
    simp [hi]
  | stretch x t hx ih =>
    rw [pieces_append t hx] at hi ⊢
    cases i with
    | zero => simp
    | succ i =>
      have hrest := ih (i := i) (by simpa using hi)
      rw [List.take_succ_cons, List.flatten_cons, List.append_assoc, List.append_assoc,
        List.singleton_append, pieces_append _ hx, hrest, List.cons_append]

theorem pieces_drop (t : Text) (i : Nat) : pieces (t.pieces.drop i).flatten = t.pieces.drop i := by
  induction t using closing_induction '\n' generalizing i with
  | last x hx =>
    cases i with
    | zero => simp [flatten_pieces]
    | succ i =>
      rw [pieces_of_notMem hx]
      split <;> simp [pieces]
  | stretch x t hx ih =>
    cases i with
    | zero => simp [flatten_pieces]
    | succ i => rw [pieces_append t hx, List.drop_succ_cons, ih]

/-- A line put before a piece is a piece of its own. -/
theorem pieces_insert {t x : Text} {i : Nat} (hi : i < t.pieces.length) (hx : '\n' ∉ x) :
    pieces (t.pieces.take i ++ (x ++ ['\n']) :: t.pieces.drop i).flatten =
      t.pieces.take i ++ (x ++ ['\n']) :: t.pieces.drop i := by
  rw [List.flatten_append, pieces_take_append _ hi, List.flatten_cons, List.append_assoc,
    List.singleton_append, pieces_append _ hx, pieces_drop]

theorem chomp_newline {x : Text} (hx : x.getLast? ≠ some '\r') : chomp (x ++ ['\n']) = x := by
  rw [← List.head?_reverse] at hx
  have hrev : (x ++ ['\n']).reverse = '\n' :: x.reverse := by simp
  rw [chomp, hrev]
  cases hr : x.reverse with
  | nil => simpa using congrArg List.reverse hr
  | cons c r =>
    have hc : c ≠ '\r' := by
      rintro rfl
      simp [hr] at hx
    simpa [hc] using congrArg List.reverse hr.symm

theorem chomp_return (x : Text) : chomp (x ++ ['\r', '\n']) = x := by
  simp [chomp]

theorem chomp_of_notMem {x : Text} (hx : '\n' ∉ x) : chomp x = x := by
  obtain ⟨e, he, hp⟩ := chomp_append_ending_of x
  rcases he with rfl | rfl | rfl
  · simpa using hp.symm
  · exact absurd (hp ▸ by simp) hx
  · exact absurd (hp ▸ by simp) hx

theorem ending_eq {piece e : Text} (h : piece.chomp ++ e = piece) : piece.ending = e :=
  List.append_cancel_left ((chomp_append_ending piece).trans h.symm)

/-- The line of a piece that ends with a newline, with or without a carriage return before it. -/
theorem chomp_concat_cases (x : Text) :
    (∃ y, x = y ++ ['\r'] ∧ chomp (x ++ ['\n']) = y ∧ ending (x ++ ['\n']) = ['\r', '\n']) ∨
      (x.getLast? ≠ some '\r' ∧ chomp (x ++ ['\n']) = x ∧ ending (x ++ ['\n']) = ['\n']) := by
  by_cases hx : x.getLast? = some '\r'
  · obtain ⟨y, rfl⟩ := List.getLast?_eq_some_iff.1 hx
    have hc : chomp (y ++ ['\r'] ++ ['\n']) = y := by simpa using chomp_return y
    exact Or.inl ⟨y, rfl, hc, ending_eq (by rw [hc]; simp)⟩
  · have hc := chomp_newline hx
    exact Or.inr ⟨hx, hc, ending_eq (by rw [hc])⟩

/-- A change of a line that does not break it, make it disappear or take over a part of its ending. -/
structure StaysLine (x y : Text) : Prop where
  newline : '\n' ∉ x → '\n' ∉ y
  carriage : y.getLast? = some '\r' → x.getLast? = some '\r'
  nonempty : x ≠ [] → y ≠ []

theorem StaysLine.refl (x : Text) : StaysLine x x :=
  ⟨id, id, id⟩

theorem StaysLine.trans {x y z : Text} (h : StaysLine x y) (h' : StaysLine y z) : StaysLine x z :=
  ⟨h'.newline ∘ h.newline, h.carriage ∘ h'.carriage, h'.nonempty ∘ h.nonempty⟩

/-- The line of a piece changes so, and the ending of the piece is kept. -/
def StaysPiece (p q : Text) : Prop :=
  ∃ y, StaysLine p.chomp y ∧ q = y ++ p.ending

theorem mem_pieces_cases {t p : Text} (hp : p ∈ t.pieces) :
    ∃ x, '\n' ∉ x ∧ (p = x ∨ p = x ++ ['\n']) := by
  induction t using closing_induction '\n' with
  | last x hx =>
    rw [pieces_of_notMem hx] at hp
    split at hp
    · simp at hp
    · exact ⟨x, hx, Or.inl (List.mem_singleton.1 hp)⟩
  | stretch x t hx ih =>
    rw [pieces_append t hx] at hp
    cases List.mem_cons.1 hp with
    | inl hp => exact ⟨x, hx, Or.inr hp⟩
    | inr hp => exact ih hp

/-- The changed line is the line of the changed piece. -/
theorem StaysLine.chomp_append {t p y : Text} (hp : p ∈ t.pieces) (h : StaysLine p.chomp y) :
    chomp (y ++ p.ending) = y := by
  obtain ⟨x, hx, rfl | rfl⟩ := mem_pieces_cases hp
  · have hc := chomp_of_notMem hx
    have he : p.ending = [] := ending_eq (by rw [hc, List.append_nil])
    rw [hc] at h
    rw [he, List.append_nil, chomp_of_notMem (h.newline hx)]
  · rcases chomp_concat_cases x with ⟨z, rfl, -, he⟩ | ⟨hr, hc, he⟩
    · rw [he, chomp_return]
    · rw [hc] at h
      rw [he, chomp_newline fun hl => hr (h.carriage hl)]

theorem StaysPiece.ending_eq {t p q : Text} (hp : p ∈ t.pieces) (h : StaysPiece p q) :
    q.ending = p.ending := by
  obtain ⟨y, hy, rfl⟩ := h
  rw [ending, hy.chomp_append hp, List.drop_left]

theorem StaysPiece.newline {x q : Text} (hx : '\n' ∉ x) (h : StaysPiece (x ++ ['\n']) q) :
    ∃ y, '\n' ∉ y ∧ q = y ++ ['\n'] := by
  obtain ⟨y, hy, rfl⟩ := h
  rcases chomp_concat_cases x with ⟨z, rfl, hc, he⟩ | ⟨-, hc, he⟩ <;> rw [hc] at hy
  · have hz := hy.newline fun hm => hx (List.mem_append_left _ hm)
    exact ⟨y ++ ['\r'], by simp [hz], by rw [he, List.append_assoc]; rfl⟩
  · exact ⟨y, hy.newline hx, by rw [he]⟩

/-- Pieces that are changed so are the pieces of the changed text. -/
theorem pieces_flatten {t : Text} {qs : List Text} (h : List.Forall₂ StaysPiece t.pieces qs) :
    pieces qs.flatten = qs := by
  induction t using closing_induction '\n' generalizing qs with
  | last x hx =>
    rw [pieces_of_notMem hx] at h
    split at h
    · cases h
      rfl
    · rename_i hne
      obtain ⟨_, _, ⟨y, hy, rfl⟩, hnil, rfl⟩ := List.forall₂_cons_left_iff.1 h
      obtain rfl := List.forall₂_nil_left_iff.1 hnil
      have hc := chomp_of_notMem hx
      have he : x.ending = [] := Text.ending_eq (by rw [hc, List.append_nil])
      rw [hc] at hy
      simp [he, pieces_of_notMem (hy.newline hx), hy.nonempty hne]
  | stretch x t hx ih =>
    rw [pieces_append t hx] at h
    obtain ⟨q, qs, hq, hrest, rfl⟩ := List.forall₂_cons_left_iff.1 h
    obtain ⟨y, hy, rfl⟩ := hq.newline hx
    rw [List.flatten_cons, List.append_assoc, List.singleton_append, pieces_append _ hy, ih hrest]

/-- The text with each line changed and its ending kept. -/
def mapLines (f : Text → Text) (t : Text) : Text :=
  t.pieces.flatMap fun piece => f piece.chomp ++ piece.ending

variable {f : Text → Text}

/-- Every piece is changed by itself. -/
theorem pieces_mapLines (hf : ∀ x, StaysLine x (f x)) (t : Text) :
    pieces (mapLines f t) = t.pieces.map fun piece => f piece.chomp ++ piece.ending := by
  rw [mapLines, List.flatMap_def]
  refine pieces_flatten (t := t) ?_
  rw [List.forall₂_map_right_iff, List.forall₂_same]
  exact fun p _ => ⟨f p.chomp, hf p.chomp, rfl⟩

theorem lines_mapLines (hf : ∀ x, StaysLine x (f x)) (t : Text) :
    lines (mapLines f t) = t.lines.map f := by
  rw [lines, lines, pieces_mapLines hf, List.map_map, List.map_map]
  exact List.map_congr_left fun p hp => (hf p.chomp).chomp_append hp

/-- What ends with a newline shares no piece with what follows it. -/
theorem pieces_append_of_closed {s : Text} (hs : s = [] ∨ ['\n'] <:+ s) (t : Text) :
    pieces (s ++ t) = pieces s ++ pieces t := by
  induction s using closing_induction '\n' with
  | last x hx =>
    have hnil : x = [] := hs.resolve_right fun h => hx (h.subset (List.mem_singleton_self _))
    rw [hnil]
    rfl
  | stretch x s hx ih =>
    have hrest : s = [] ∨ ['\n'] <:+ s := by
      cases s with
      | nil => exact Or.inl rfl
      | cons c s =>
        have hlast := hs.resolve_left (by simp)
        have hall : '\n' :: c :: s <:+ x ++ '\n' :: c :: s := List.suffix_append _ _
        rcases List.suffix_cons_iff.1 (List.suffix_of_suffix_length_le hlast hall (by simp)) with h | h
        · simp at h
        · exact Or.inr h
    rw [List.append_assoc, List.cons_append, pieces_append _ hx, pieces_append s hx, ih hrest,
      List.cons_append]

theorem lines_append_of_closed {s : Text} (hs : s = [] ∨ ['\n'] <:+ s) (t : Text) :
    lines (s ++ t) = lines s ++ lines t := by
  rw [lines, pieces_append_of_closed hs, List.map_append, lines, lines]

/-- Of what is listed for lines that are numbered from `k`, the part for one of them. -/
theorem filter_flatMap_zipIdx {α : Type} (f : Nat → Text → List α) (number : α → Nat)
    (hf : ∀ n line, ∀ a ∈ f n line, number a = n) (lines : List Text) (k i : Nat) :
    ((lines.zipIdx k).flatMap fun (line, n) => f n line).filter (number · = k + i) =
      (lines[i]?.map (f (k + i))).getD [] := by
  induction lines generalizing k i with
  | nil => rfl
  | cons line lines ih =>
    rw [List.zipIdx_cons, List.flatMap_cons, List.filter_append]
    cases i with
    | zero =>
      have hfirst : (f k line).filter (number · = k) = f k line :=
        List.filter_eq_self.2 fun a ha => by simp [hf k line a ha]
      have hrest : ((lines.zipIdx (k + 1)).flatMap fun (line, n) => f n line).filter
          (number · = k) = [] := by
        rw [List.filter_eq_nil_iff]
        intro a ha
        obtain ⟨⟨x, n⟩, hx, ha⟩ := List.mem_flatMap.1 ha
        have hn : n ≠ k := Nat.ne_of_gt (List.mem_zipIdx hx).1
        simp [hf n x a ha, hn]
      simp [hfirst, hrest]
    | succ i =>
      have hfirst : (f k line).filter (number · = k + (i + 1)) = [] := by
        rw [List.filter_eq_nil_iff]
        intro a ha
        simp [hf k line a ha]
      rw [hfirst, List.nil_append, ← Nat.add_assoc, Nat.add_right_comm, ih (k + 1) i]
      rfl

end GuardedCalls.Text
