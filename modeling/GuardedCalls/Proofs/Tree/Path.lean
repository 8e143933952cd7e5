import GuardedCalls.Proofs.Tree.Basic
import GuardedCalls.Tree.Path

/-! Paths that are made of names, and what their parts are. -/

namespace GuardedCalls
namespace Path

theorem parts_ne_nil (t : Text) : parts t ≠ [] := by
  cases t with
  | nil => simp [parts]
  | cons c t =>
    rw [parts]
    split
    · simp
    · split <;> simp

theorem parts_append (s t : Text) : parts (s ++ '/' :: t) = parts s ++ parts t := by
  induction s with
  | nil => simp [parts]
  | cons c s ih =>
    rw [List.cons_append, parts, parts, ih]
    by_cases hc : c = '/'
    · simp [hc]
    · obtain ⟨p, ps, hp⟩ := List.exists_cons_of_ne_nil (parts_ne_nil s)
      simp [hc, hp]

theorem parts_of_notMem {t : Text} (h : '/' ∉ t) : parts t = [t] := by
  induction t with
  | nil => rfl
  | cons c t ih =>
    have hc : c ≠ '/' := fun he => h (by simp [he])
    rw [parts, if_neg hc, ih fun ht => h (List.mem_cons_of_mem c ht)]

theorem slash_notMem_of_mem_parts {t part : Text} (h : part ∈ parts t) : '/' ∉ part := by
  induction t generalizing part with
  | nil => simp_all [parts]
  | cons c t ih =>
    rw [parts] at h
    split at h
    · cases List.mem_cons.1 h with
      | inl h => simp [h]
      | inr h => exact ih h
    · rename_i hc
      obtain ⟨p, ps, hp⟩ := List.exists_cons_of_ne_nil (parts_ne_nil t)
      rw [hp] at h ih
      cases List.mem_cons.1 h with
      | inl h => simp [h, Ne.symm hc, ih List.mem_cons_self]
      | inr h => exact ih (List.mem_cons_of_mem p h)

theorem parts_join {names : List Text} (h : ∀ name ∈ names, '/' ∉ name) (hne : names ≠ []) :
    parts (Text.join ['/'] names) = names := by
  induction names with
  | nil => contradiction
  | cons name names ih =>
    obtain ⟨hname, hnames⟩ := List.forall_mem_cons.1 h
    cases names with
    | nil => simpa [Text.join] using parts_of_notMem hname
    | cons next names =>
      rw [Text.join, List.intercalate_cons_cons, List.append_assoc, List.singleton_append,
        parts_append, parts_of_notMem hname]
      exact congrArg (name :: ·) (ih hnames (List.cons_ne_nil next names))

theorem notMem_join {c : Char} (hc : c ≠ '/') {names : List Text} :
    c ∉ Text.join ['/'] names ↔ ∀ name ∈ names, c ∉ name := by
  induction names with
  | nil => simp [Text.join]
  | cons name names ih =>
    cases names with
    | nil => simp [Text.join]
    | cons next names =>
      rw [Text.join, List.intercalate_cons_cons, List.forall_mem_cons, ← ih]
      simp [Text.join, hc]

theorem join_ne_nil {names : List Text} (hne : names ≠ []) (hn : ∀ name ∈ names, IsName name) :
    Text.join ['/'] names ≠ [] := by
  intro hnil
  have hparts := parts_join (fun name hmem => (hn name hmem).slash) hne
  rw [hnil] at hparts
  exact (hn [] (by simp [← hparts, parts])).nonempty rfl

theorem isAbsolute_append {s : Text} (hs : s ≠ []) (t : Text) :
    isAbsolute (s ++ t) = isAbsolute s := by
  cases s with
  | nil => contradiction
  | cons => rfl

theorem isAbsolute_of_notMem {t : Text} (h : '/' ∉ t) : isAbsolute t = false := by
  cases t with
  | nil => rfl
  | cons c t =>
    have hc : c ≠ '/' := fun he => h (by simp [he])
    simp [isAbsolute, hc]

theorem isAbsolute_join {names : List Text} (h : ∀ name ∈ names, IsName name) :
    isAbsolute (Text.join ['/'] names) = false := by
  cases names with
  | nil => rfl
  | cons name names =>
    have hname := h name List.mem_cons_self
    cases names with
    | nil => simpa [Text.join] using isAbsolute_of_notMem hname.slash
    | cons next names =>
      rw [Text.join, List.intercalate_cons_cons, List.append_assoc,
        isAbsolute_append hname.nonempty]
      exact isAbsolute_of_notMem hname.slash

/-- The parts of a path that stay when it goes on. -/
def stem (path : Text) : List Text :=
  if path.getLast? = some '/' then (parts path).dropLast else parts path

theorem stem_slash (front : Text) : stem (front ++ ['/']) = parts front := by
  simp [stem, parts_append, parts]

theorem parts_eq_stem (path : Text) : parts path = stem path ∨ parts path = stem path ++ [[]] := by
  by_cases h : path.getLast? = some '/'
  · obtain ⟨front, rfl⟩ := List.getLast?_eq_some_iff.1 h
    rw [stem_slash]
    exact .inr (parts_append front [])
  · exact .inl (if_neg h).symm

theorem stem_ne_nil (path : Text) : stem path ≠ [] := by
  by_cases h : path.getLast? = some '/'
  · obtain ⟨front, rfl⟩ := List.getLast?_eq_some_iff.1 h
    rw [stem_slash]
    exact parts_ne_nil front
  · rw [stem, if_neg h]
    exact parts_ne_nil path

theorem join_of_isAbsolute {base path : Text} (h : isAbsolute path = true) : join base path = path :=
  if_pos h

theorem mem_join {c : Char} (hc : c ≠ '/') {base path : Text} (h : isAbsolute path = false) :
    c ∈ join base path ↔ c ∈ base ∨ c ∈ path := by
  rw [join, h, if_neg Bool.false_ne_true]
  split <;> simp [hc]

section Names
variable {base name : Text}

theorem join_of_slash (hslash : base.getLast? = some '/') (hn : IsName name) :
    join base name = base ++ name := by
  rw [join, isAbsolute_of_notMem hn.slash, if_neg Bool.false_ne_true, if_pos (by simp [hslash])]

theorem join_of_not_slash (hb : base ≠ []) (hslash : base.getLast? ≠ some '/') (hn : IsName name) :
    join base name = base ++ '/' :: name := by
  rw [join, isAbsolute_of_notMem hn.slash, if_neg Bool.false_ne_true,
    if_neg (by simp [hb, hslash])]

theorem isAbsolute_join_name (hb : base ≠ []) (hn : IsName name) :
    isAbsolute (join base name) = isAbsolute base := by
  by_cases hslash : base.getLast? = some '/'
  · rw [join_of_slash hslash hn, isAbsolute_append hb]
  · rw [join_of_not_slash hb hslash hn, isAbsolute_append hb]

theorem join_name_ne_nil (hb : base ≠ []) (hn : IsName name) : join base name ≠ [] := by
  by_cases hslash : base.getLast? = some '/'
  · simp [join_of_slash hslash hn, hb]
  · simp [join_of_not_slash hb hslash hn]

theorem notMem_join_name {c : Char} (hc : c ≠ '/') (hn : IsName name) :
    c ∉ join base name ↔ c ∉ base ∧ c ∉ name := by
  rw [mem_join hc (isAbsolute_of_notMem hn.slash), not_or]

theorem parts_join_name (hb : base ≠ []) (hn : IsName name) :
    parts (join base name) = stem base ++ [name] := by
  by_cases hslash : base.getLast? = some '/'
  · rw [join_of_slash hslash hn]
    obtain ⟨front, rfl⟩ := List.getLast?_eq_some_iff.1 hslash
    rw [stem_slash, List.append_assoc, List.singleton_append, parts_append,
      parts_of_notMem hn.slash]
  · rw [join_of_not_slash hb hslash hn, parts_append, parts_of_notMem hn.slash, stem, if_neg hslash]

theorem stem_join_name (hb : base ≠ []) (hn : IsName name) :
    stem (join base name) = stem base ++ [name] := by
  rcases parts_eq_stem (join base name) with h | h
  · rw [← h, parts_join_name hb hn]
  · rw [parts_join_name hb hn] at h
    have hlast := congrArg List.getLast? h
    simp only [List.getLast?_concat, Option.some.injEq] at hlast
    exact absurd hlast hn.nonempty

end Names

/-- Names joined to a path follow its parts. -/
theorem parts_joinAll {root : Text} {names : List Text} (hr : root ≠ []) (hne : names ≠ [])
    (hn : ∀ name ∈ names, IsName name) : parts (joinAll root names) = stem root ++ names := by
  induction names generalizing root with
  | nil => contradiction
  | cons name names ih =>
    obtain ⟨hname, hnames⟩ := List.forall_mem_cons.1 hn
    rw [joinAll, List.foldl_cons]
    by_cases hne : names = []
    · subst hne
      exact parts_join_name hr hname
    · have hrest := ih (join_name_ne_nil hr hname) hne hnames
      rw [stem_join_name hr hname, List.append_assoc] at hrest
      exact hrest

theorem isAbsolute_joinAll {root : Text} {names : List Text} (hr : root ≠ [])
    (hn : ∀ name ∈ names, IsName name) : isAbsolute (joinAll root names) = isAbsolute root := by
  induction names generalizing root with
  | nil => rfl
  | cons name names ih =>
    obtain ⟨hname, hnames⟩ := List.forall_mem_cons.1 hn
    rw [joinAll, List.foldl_cons, ← isAbsolute_join_name hr hname]
    exact ih (join_name_ne_nil hr hname) hnames

theorem joinAll_ne_nil {root : Text} {names : List Text} (hr : root ≠ [])
    (hn : ∀ name ∈ names, IsName name) : joinAll root names ≠ [] := by
  induction names generalizing root with
  | nil => exact hr
  | cons name names ih =>
    obtain ⟨hname, hnames⟩ := List.forall_mem_cons.1 hn
    exact ih (join_name_ne_nil hr hname) hnames

theorem notMem_joinAll {c : Char} (hc : c ≠ '/') {root : Text} {names : List Text}
    (hn : ∀ name ∈ names, IsName name) :
    c ∉ joinAll root names ↔ c ∉ root ∧ ∀ name ∈ names, c ∉ name := by
  induction names generalizing root with
  | nil => simp [joinAll]
  | cons name names ih =>
    obtain ⟨hname, hnames⟩ := List.forall_mem_cons.1 hn
    rw [joinAll, List.foldl_cons, ← joinAll, ih hnames, notMem_join_name hc hname,
      List.forall_mem_cons, and_assoc]

theorem components_joinAll {root : Text} {names : List Text} (hr : root ≠ [])
    (hn : ∀ name ∈ names, IsName name) :
    components (joinAll root names) = components root ++ names := by
  by_cases hne : names = []
  · simp [hne, joinAll]
  · have hparts := parts_joinAll hr hne hn
    have hhead : (stem root ++ names).head? = (parts root).head? := by
      obtain ⟨first, rest, hs⟩ := List.exists_cons_of_ne_nil (stem_ne_nil root)
      rcases parts_eq_stem root with h | h <;> simp [h, hs]
    have hfilter : (parts (joinAll root names)).filter (fun p => p ≠ [] && p ≠ ['.']) =
        (parts root).filter (fun p => p ≠ [] && p ≠ ['.']) ++ names := by
      have hnames : names.filter (fun p => p ≠ [] && p ≠ ['.']) = names := by
        refine List.filter_eq_self.2 fun name hmem => ?_
        simp [(hn name hmem).nonempty, (hn name hmem).here]
      rw [hparts, List.filter_append, hnames]
      rcases parts_eq_stem root with h | h <;> simp [h]
    rw [components, components, isAbsolute_joinAll hr hn, hfilter, hparts, hhead]
    split
    · rfl
    · split <;> rfl

theorem dropStart?_eq_some {start list below : List Text} :
    dropStart? start list = some below ↔ list = start ++ below := by
  induction start generalizing list with
  | nil => simp [dropStart?, eq_comm]
  | cons a start ih =>
    cases list with
    | nil => simp [dropStart?]
    | cons b list =>
      by_cases h : a = b
      · simp [dropStart?, h, ih]
      · simp [dropStart?, h, Ne.symm h]

theorem nameBelow_joinAll {root : Text} {names : List Text} (hr : root ≠ [])
    (hn : ∀ name ∈ names, IsName name) :
    nameBelow root (joinAll root names) = Text.join ['/'] names := by
  rw [nameBelow, components_joinAll hr hn, dropStart?_eq_some.2 rfl]

end Path

namespace Place

theorem toText_eq (p : Place) : p.toText = '/' :: Text.join ['/'] p := by
  have hflat : ∀ (name : Text) (p : Place),
      (name :: p).flatMap ('/' :: ·) = '/' :: Text.join ['/'] (name :: p) := by
    intro name p
    induction p generalizing name with
    | nil => simp [Text.join]
    | cons next p ih =>
      rw [List.flatMap_cons, ih, Text.join, Text.join, List.intercalate_cons_cons]
      simp
  cases p with
  | nil => rfl
  | cons name p => exact hflat name p

theorem isAbsolute_toText (p : Place) : Path.isAbsolute p.toText = true := by
  rw [toText_eq]
  rfl

theorem notMem_toText {c : Char} (hc : c ≠ '/') {p : Place} :
    c ∉ p.toText ↔ ∀ name ∈ p, c ∉ name := by
  rw [toText_eq, List.mem_cons, not_or, Path.notMem_join hc, and_iff_right hc]

theorem toText_ne_nil (p : Place) : p.toText ≠ [] := by
  simp [toText_eq]

theorem parts_toText {p : Place} (hne : p ≠ []) (hn : ∀ name ∈ p, IsName name) :
    Path.parts p.toText = [] :: p := by
  have hparts := Path.parts_append [] (Text.join ['/'] p)
  rw [Path.parts_join (fun name hmem => (hn name hmem).slash) hne] at hparts
  rw [toText_eq]
  exact hparts

theorem getLast?_toText {p : Place} (hne : p ≠ []) (hn : ∀ name ∈ p, IsName name) :
    p.toText.getLast? ≠ some '/' := by
  intro hslash
  obtain ⟨front, hfront⟩ := List.getLast?_eq_some_iff.1 hslash
  obtain ⟨above, name, rfl⟩ := List.eq_nil_or_concat' p |>.resolve_left hne
  have hparts := Path.parts_append front []
  rw [← hfront, parts_toText hne hn, ← List.cons_append] at hparts
  have hname : name = [] := by simpa [Path.parts] using (List.append_inj' hparts rfl).2
  exact (hn name (by simp)).nonempty hname

/-- A path that is seen from a place goes on behind the names of the place. -/
theorem parts_join {p : Place} (hn : ∀ name ∈ p, IsName name) {path : Text}
    (h : Path.isAbsolute path = false) :
    Path.parts (Path.join p.toText path) = [] :: (p ++ Path.parts path) := by
  rw [Path.join, h, if_neg Bool.false_ne_true]
  by_cases hne : p = []
  · subst hne
    exact Path.parts_append [] path
  · have hslash := getLast?_toText hne hn
    rw [if_neg (by simpa [toText_eq] using hslash), Path.parts_append,
      parts_toText hne hn, List.cons_append]

end Place
end GuardedCalls
