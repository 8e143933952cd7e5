import GuardedCalls.Proofs.Tree.Path
import GuardedCalls.Proofs.Tree.Walk
import GuardedCalls.Result
import GuardedCalls.Tree.File

/-! Where paths lead that are made of names: below a root, or from the top of the tree. -/

namespace GuardedCalls.Node

theorem canonical_congr {top after : Node} (hs : after.shape = top.shape) (base : Place)
    (path : Text) : after.canonical base path = top.canonical base path := by
  rw [canonical, canonical, ← walk_shape after, hs, walk_shape]

theorem locate_shape (top : Node) (base : Place) (follow : Bool) (path : Text) :
    top.shape.locate base follow path = top.locate base follow path := by
  rw [locate, locate, walk_shape]

theorem canonical_eq_ok {top : Node} {base place : Place} {path : Text} :
    top.canonical base path = .ok place ↔
      '\x00' ∉ path ∧ path ≠ [] ∧
        walk top true maxLinks (start base path) (Path.parts path) = .ok (.found place) := by
  by_cases hnul : '\x00' ∈ path
  · simp [canonical, hnul]
  by_cases hempty : path = []
  · simp [canonical, hempty]
  rw [canonical, if_neg (by simpa using hnul), if_neg (by simpa using hempty)]
  simp only [hnul, hempty, not_false_eq_true, true_and, ne_eq]
  split <;> rename_i h <;> simp [h]

/-- Only the walk counts, unless the operating system refuses a path as it is. -/
theorem canonical_eq_of_walk {top : Node} {base base' : Place} {path path' : Text}
    (hnul : '\x00' ∈ path ↔ '\x00' ∈ path') (hne : path ≠ []) (hne' : path' ≠ [])
    (hwalk : walk top true maxLinks (start base path) (Path.parts path) =
      walk top true maxLinks (start base' path') (Path.parts path')) :
    top.canonical base path = top.canonical base' path' := by
  simp [canonical, hnul, hne, hne', hwalk]

theorem checkPath_eq_ok {path : Text} :
    checkPath path = .ok () ↔ '\x00' ∉ path ∧ path ≠ [] ∧ Utf8.size path < 4096 := by
  by_cases hnul : '\x00' ∈ path
  · simp [checkPath, hnul]
  by_cases hempty : path = []
  · simp [checkPath, hempty]
  by_cases hlong : Utf8.size path < 4096
  · simp [checkPath, hnul, hempty, hlong]
  · simp [checkPath, hnul, hempty, hlong, Nat.not_lt.1 hlong]

theorem checkPath_eq_nameTooLong {path : Text} (hnul : '\x00' ∉ path) (hne : path ≠ [])
    (h : checkPath path ≠ .ok ()) : checkPath path = .error .nameTooLong := by
  have hlong : 4096 ≤ Utf8.size path := by
    by_contra hsize
    exact h (checkPath_eq_ok.2 ⟨hnul, hne, Nat.not_le.1 hsize⟩)
  simp [checkPath, hnul, hne, hlong]

theorem locate_eq_ok {top : Node} {base : Place} {follow : Bool} {path : Text} {spot : Spot} :
    top.locate base follow path = .ok spot ↔
      checkPath path = .ok () ∧
        walk top follow maxLinks (start base path) (Path.parts path) = .ok spot := by
  rw [locate, bind_eq_ok]
  exact ⟨fun ⟨_, h⟩ => h, fun h => ⟨(), h⟩⟩

/-- A path that an operation follows to its end has a place without links. -/
theorem canonical_of_locate {top : Node} {base place : Place} {path : Text}
    (h : top.locate base true path = .ok (.found place)) : top.canonical base path = .ok place := by
  obtain ⟨hpath, hwalk⟩ := locate_eq_ok.1 h
  obtain ⟨hnul, hempty, -⟩ := checkPath_eq_ok.1 hpath
  exact canonical_eq_ok.2 ⟨hnul, hempty, hwalk⟩

theorem canonical_of_locate_unfollowed {top m : Node} {base place : Place} {path : Text}
    (h : top.locate base false path = .ok (.found place)) (hm : top.at? place = some m)
    (hlink : ∀ target, m ≠ .link target) : top.canonical base path = .ok place := by
  obtain ⟨hpath, hwalk⟩ := locate_eq_ok.1 h
  have hfollow := walk_follow hwalk fun target ht => hlink target (Option.some.inj (hm.symm.trans ht))
  exact canonical_of_locate (locate_eq_ok.2 ⟨hpath, hfollow⟩)

/-- The place of a path has a node that is no link. -/
theorem canonical_found {top : Node} {base place : Place} {path : Text}
    (h : top.canonical base path = .ok place) :
    ∃ m, top.at? place = some m ∧ ∀ target, m ≠ .link target :=
  walk_found (canonical_eq_ok.1 h).2.2 fun hnil => absurd hnil (Path.parts_ne_nil path)

theorem isDir_of_at? {top m : Node} {p : Place} (hp : top.at? p = some m) (hne : p ≠ []) :
    top.isDir = true := by
  obtain ⟨name, rest, rfl⟩ := List.exists_cons_of_ne_nil hne
  obtain ⟨es, node, rfl, -, -⟩ := exists_of_at?_cons hp
  rfl

theorem isDir_of_canonical {top : Node} {base place : Place} {path : Text}
    (h : top.canonical base path = .ok place) : top.isDir = true := by
  have hlead (hdir : top.isDir = false) (here : Place) (part : Text) :
      top.lead here part = .fault .notDirectory := by
    cases top with
    | file => cases here <;> rfl
    | link => cases here <;> rfl
    | dir => contradiction
  obtain ⟨-, -, hwalk⟩ := canonical_eq_ok.1 h
  obtain ⟨part, rest, hparts⟩ := List.exists_cons_of_ne_nil (Path.parts_ne_nil path)
  rw [← Bool.not_eq_false]
  intro hdir
  rw [hparts, walk_cons, hlead hdir] at hwalk
  contradiction

/-- What the operating system takes as a name. -/
structure IsUsable (name : Text) : Prop where
  nul : '\x00' ∉ name
  size : Utf8.size name ≤ 255

/-- A path that is followed through names alone has a place if the operating system takes the names. -/
theorem canonical_of_names {top : Node} {base place found : Place} {path : Text} {names : List Text}
    (hwalk : walk top true maxLinks (start base path) (Path.parts path) =
      if ∀ name ∈ names, Utf8.size name ≤ 255 then .ok (.found place) else .error .nameTooLong)
    (hnul : '\x00' ∉ path ↔ ∀ name ∈ names, '\x00' ∉ name) (hne : path ≠ []) :
    top.canonical base path = .ok found ↔ found = place ∧ ∀ name ∈ names, IsUsable name := by
  rw [canonical_eq_ok, hwalk, hnul]
  by_cases hsize : ∀ name ∈ names, Utf8.size name ≤ 255
  · rw [if_pos hsize, Except.ok.injEq, Spot.found.injEq]
    constructor
    · rintro ⟨hfree, -, rfl⟩
      exact ⟨rfl, fun name hmem => ⟨hfree name hmem, hsize name hmem⟩⟩
    · rintro ⟨rfl, husable⟩
      exact ⟨fun name hmem => (husable name hmem).nul, hne, rfl⟩
  · rw [if_neg hsize]
    exact iff_of_false (by simp) fun ⟨_, husable⟩ => hsize fun name hmem => (husable name hmem).size

section Below
variable {top : Node} {place : Place} {names : List Text} {b : Bytes}

theorem walk_joinAll {base : Place} {root : Text} (hroot : top.canonical base root = .ok place)
    (hb : top.at? (place ++ names) = some (.file b)) (hne : names ≠ [])
    (hnames : ∀ name ∈ names, IsName name) :
    walk top true maxLinks (start base (Path.joinAll root names))
        (Path.parts (Path.joinAll root names)) =
      if ∀ name ∈ names, Utf8.size name ≤ 255 then .ok (.found (place ++ names))
      else .error .nameTooLong := by
  obtain ⟨n, hn, hb⟩ := Option.bind_eq_some_iff.1 (at?_append top place names ▸ hb)
  obtain ⟨-, hr, hwalk⟩ := canonical_eq_ok.1 hroot
  have hon : ∃ less, walk top true maxLinks (start base root) (Path.stem root ++ names) =
      walk top true less place names := by
    rcases Path.parts_eq_stem root with hs | hs
    · rw [← hs]
      exact walk_append hwalk true hne
    · rw [← walk_append_nil top true maxLinks _ _ hne, List.append_cons, ← hs]
      exact walk_append hwalk true hne
  obtain ⟨less, hon⟩ := hon
  rw [start, Path.isAbsolute_joinAll hr hnames, ← start, Path.parts_joinAll hr hne hnames, hon]
  exact walk_names true less hn hb (file_ne_link b) hnames

/-- A path below a root leads below the place of the root. -/
theorem locate_joinAll {base : Place} {root : Text} (hroot : top.canonical base root = .ok place)
    (hb : top.at? (place ++ names) = some (.file b)) (hnames : ∀ name ∈ names, IsName name)
    {spot : Spot}
    (h : top.locate base true (Path.joinAll root names) = .ok spot) :
    spot = .found (place ++ names) := by
  obtain ⟨-, h⟩ := locate_eq_ok.1 h
  by_cases hne : names = []
  · subst hne
    rw [Path.joinAll, List.foldl_nil, (canonical_eq_ok.1 hroot).2.2] at h
    simpa using h.symm
  · rw [walk_joinAll hroot hb hne hnames] at h
    split at h
    · simpa using h.symm
    · simp at h

/-- Two trees in which a root has one place lead to the same place below it. -/
theorem locate_joinAll_congr {after : Node} {base : Place} {root : Text} {c : Bytes}
    (hroot : top.canonical base root = .ok place) (hroot' : after.canonical base root = .ok place)
    (hb : top.at? (place ++ names) = some (.file b))
    (hc : after.at? (place ++ names) = some (.file c)) (hnames : ∀ name ∈ names, IsName name) :
    after.locate base true (Path.joinAll root names) =
      top.locate base true (Path.joinAll root names) := by
  rw [locate, locate]
  by_cases hne : names = []
  · subst hne
    rw [Path.joinAll, List.foldl_nil, (canonical_eq_ok.1 hroot).2.2, (canonical_eq_ok.1 hroot').2.2]
  · rw [walk_joinAll hroot hb hne hnames, walk_joinAll hroot' hc hne hnames]

theorem canonical_joinAll {base : Place} {root : Text} (hroot : top.canonical base root = .ok place)
    (hb : top.at? (place ++ names) = some (.file b)) (hne : names ≠ [])
    (hnames : ∀ name ∈ names, IsName name) {found : Place} :
    top.canonical base (Path.joinAll root names) = .ok found ↔
      found = place ++ names ∧ ∀ name ∈ names, IsUsable name := by
  obtain ⟨hnul, hr, -⟩ := canonical_eq_ok.1 hroot
  have hfree : '\x00' ∉ Path.joinAll root names ↔ _ := Path.notMem_joinAll (by decide) hnames
  exact canonical_of_names (walk_joinAll hroot hb hne hnames) (hfree.trans (and_iff_right hnul))
    (Path.joinAll_ne_nil hr hnames)

/-- The same names lead from the place of the root to the same file. -/
theorem canonical_join (hb : top.at? (place ++ names) = some (.file b)) (hne : names ≠ [])
    (hnames : ∀ name ∈ names, IsName name) {found : Place} :
    top.canonical place (Text.join ['/'] names) = .ok found ↔
      found = place ++ names ∧ ∀ name ∈ names, IsUsable name := by
  obtain ⟨n, hn, hb⟩ := Option.bind_eq_some_iff.1 (at?_append top place names ▸ hb)
  have hslash : ∀ name ∈ names, '/' ∉ name := fun name hmem => (hnames name hmem).slash
  refine canonical_of_names ?_ (Path.notMem_join (by decide)) (Path.join_ne_nil hne hnames)
  rw [start, Path.isAbsolute_join hnames, if_neg Bool.false_ne_true, Path.parts_join hslash hne]
  exact walk_names true maxLinks hn hb (file_ne_link b) hnames

end Below

section Here
variable {top : Node} {here : Place} {es : List (Text × Node)} (hd : top.at? here = some (.dir es))
include hd

/-- The point is a path to the directory that it is seen from. -/
theorem walk_here (follow : Bool) (links : Nat) :
    walk top follow links here (Path.parts ['.']) = .ok (.found here) := by
  have hparts : Path.parts ['.'] = [['.']] := rfl
  simp [hparts, walk_cons, walk_nil, lead, hd]

theorem locate_here (follow : Bool) : top.locate here follow ['.'] = .ok (.found here) :=
  locate_eq_ok.2 ⟨by decide, walk_here hd follow maxLinks⟩

theorem canonical_here : top.canonical here ['.'] = .ok here :=
  canonical_of_locate (locate_here hd true)

end Here

section Top
variable {top m : Node} {p : Place}

/-- The slash in front of a path stands for the top. -/
theorem lead_top (hdir : top.isDir = true) : top.lead [] [] = .goes [] := by
  cases top with
  | file => simp [isDir] at hdir
  | link => simp [isDir] at hdir
  | dir => simp [lead]

theorem walk_toText (hdir : top.isDir = true) (follow : Bool) (links : Nat)
    (hnames : ∀ name ∈ p, IsName name) :
    walk top follow links [] (Path.parts p.toText) = walk top follow links [] p := by
  by_cases hne : p = []
  · subst hne
    have hparts : Path.parts (Place.toText []) = [[], []] := rfl
    simp [hparts, walk_cons, lead_top hdir]
  · rw [Place.parts_toText hne hnames, walk_cons, lead_top hdir]

/-- The text of a place leads to it. -/
theorem walk_start_toText (hdir : top.isDir = true) (base : Place) (follow : Bool)
    (hp : top.at? p = some m) (hlink : ∀ target, m ≠ .link target)
    (hnames : ∀ name ∈ p, IsName name) :
    walk top follow maxLinks (start base p.toText) (Path.parts p.toText) =
      if ∀ name ∈ p, Utf8.size name ≤ 255 then .ok (.found p) else .error .nameTooLong := by
  rw [start, Place.isAbsolute_toText, if_pos rfl, walk_toText hdir follow maxLinks hnames]
  exact walk_names follow maxLinks (at?_nil _) hp hlink hnames

end Top

/-- The operating system accepts the path of the place and the names on it. -/
structure Writable (p : Place) : Prop where
  path : checkPath p.toText = .ok ()
  size : ∀ name ∈ p, Utf8.size name ≤ 255

instance (p : Place) : Decidable (Writable p) :=
  decidable_of_iff
    (('\x00' ∉ p.toText ∧ p.toText ≠ [] ∧ Utf8.size p.toText < 4096) ∧
      ∀ name ∈ p, Utf8.size name ≤ 255)
    ⟨fun h => ⟨checkPath_eq_ok.2 h.1, h.2⟩, fun h => ⟨checkPath_eq_ok.1 h.path, h.size⟩⟩

/-- The names on the way to a place that can be written are usable. -/
theorem Writable.isUsable {p : Place} (h : Writable p) : ∀ name ∈ p, IsUsable name := fun name hmem =>
  ⟨(Place.notMem_toText (by decide)).1 (checkPath_eq_ok.1 h.path).1 name hmem, h.size name hmem⟩

/-- An operation that is given the text of a place gets there if the operating system accepts it. -/
theorem locate_toText {top m : Node} {p : Place} (hdir : top.isDir = true) (base : Place)
    (follow : Bool) (hp : top.at? p = some m) (hlink : ∀ target, m ≠ .link target)
    (hnames : ∀ name ∈ p, IsName name) {spot : Spot} :
    top.locate base follow p.toText = .ok spot ↔ Writable p ∧ spot = .found p := by
  rw [locate_eq_ok, walk_start_toText hdir base follow hp hlink hnames]
  constructor
  · rintro ⟨hpath, hspot⟩
    split at hspot
    · next hsize => exact ⟨⟨hpath, hsize⟩, (Except.ok.inj hspot).symm⟩
    · contradiction
  · rintro ⟨hw, rfl⟩
    exact ⟨hw.path, if_pos hw.size⟩

section Read
variable {top m : Node} {p : Place} (hdir : top.isDir = true) (hp : top.at? p = some m)
  (hlink : ∀ target, m ≠ .link target) (hnames : ∀ name ∈ p, IsName name)
include hdir hp hlink hnames

/-- What is read at the text of a place is the file there. -/
theorem read_toText (base : Place) {b : Bytes} :
    top.read base p.toText = .ok b ↔ Writable p ∧ m = .file b := by
  rw [read, bind_eq_ok]
  simp only [locate_toText hdir base true hp hlink hnames]
  constructor
  · rintro ⟨_, ⟨hw, rfl⟩, hcontent⟩
    refine ⟨hw, ?_⟩
    cases m with
    | file => simpa [contentAt, hp] using hcontent
    | link => simp [contentAt, hp] at hcontent
    | dir => simp [contentAt, hp] at hcontent
  · rintro ⟨hw, rfl⟩
    exact ⟨_, ⟨hw, rfl⟩, by simp [contentAt, hp]⟩

/-- Reading at the text of a place goes by the shape of the tree and the file there. -/
theorem read_toText_congr {after : Node} (hs : after.shape = top.shape)
    (hfile : ∀ b, top.at? p = some (.file b) → after.at? p = some (.file b)) (base : Place) :
    after.read base p.toText = top.read base p.toText := by
  have hlocate : after.locate base true p.toText = top.locate base true p.toText := by
    rw [← locate_shape after, hs, locate_shape]
  rw [read, read, hlocate]
  cases hl : top.locate base true p.toText with
  | error fault => rfl
  | ok spot =>
    obtain ⟨-, rfl⟩ := (locate_toText hdir base true hp hlink hnames).1 hl
    have hshape := at?_congr hs p
    rw [hp, Option.map_some, Option.map_eq_some_iff] at hshape
    obtain ⟨m', hp', hm'⟩ := hshape
    cases m with
    | file b => simp only [bind, Except.bind, contentAt, hp, hfile b hp]
    | link target => exact absurd rfl (hlink target)
    | dir es =>
      cases m' with
      | file => simp [shape] at hm'
      | link => simp [shape] at hm'
      | dir => simp only [bind, Except.bind, contentAt, hp, hp']

end Read

end GuardedCalls.Node
