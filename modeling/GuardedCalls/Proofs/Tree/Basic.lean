import GuardedCalls.Tree.Basic
import Mathlib.Data.List.Nodup

/-! Trees as a file system keeps them, and what changes when a node in one is replaced. -/

namespace GuardedCalls

/-- What may stand in a directory: no empty name, none with a slash, and none of the two that lead
elsewhere. -/
structure IsName (name : Text) : Prop where
  nonempty : name ≠ []
  slash : '/' ∉ name
  here : name ≠ ['.']
  above : name ≠ ['.', '.']

instance (name : Text) : Decidable (IsName name) :=
  decidable_of_iff (name ≠ [] ∧ '/' ∉ name ∧ name ≠ ['.'] ∧ name ≠ ['.', '.'])
    ⟨fun ⟨nonempty, slash, here, above⟩ => ⟨nonempty, slash, here, above⟩,
      fun h => ⟨h.nonempty, h.slash, h.here, h.above⟩⟩

namespace Node

/-- The names in a directory are names and differ from each other. -/
inductive WellFormed : Node → Prop
  | file (content : Bytes) : WellFormed (.file content)
  | link (target : Text) : WellFormed (.link target)
  | dir (es : List (Text × Node)) (nodup : (es.map Prod.fst).Nodup)
      (name : ∀ e ∈ es, IsName e.1) (node : ∀ e ∈ es, WellFormed e.2) : WellFormed (.dir es)

theorem WellFormed.nodup {es : List (Text × Node)} (h : (Node.dir es).WellFormed) :
    (es.map Prod.fst).Nodup := by
  cases h with
  | dir _ nodup _ _ => exact nodup

theorem WellFormed.isName {es : List (Text × Node)} (h : (Node.dir es).WellFormed) {e : Text × Node}
    (he : e ∈ es) : IsName e.1 := by
  cases h with
  | dir _ _ name _ => exact name e he

theorem WellFormed.entry {es : List (Text × Node)} (h : (Node.dir es).WellFormed) {e : Text × Node}
    (he : e ∈ es) : e.2.WellFormed := by
  cases h with
  | dir _ _ _ node => exact node e he

mutual

def isWellFormed : Node → Bool
  | file _ => true
  | link _ => true
  | dir es => (es.map Prod.fst).Nodup && (∀ e ∈ es, IsName e.1) && areWellFormed es

def areWellFormed : List (Text × Node) → Bool
  | [] => true
  | (_, node) :: es => isWellFormed node && areWellFormed es

end

mutual

theorem isWellFormed_iff : (n : Node) → (n.isWellFormed = true ↔ n.WellFormed)
  | .file _ => ⟨fun _ => .file _, fun _ => rfl⟩
  | .link _ => ⟨fun _ => .link _, fun _ => rfl⟩
  | .dir es => by
    rw [isWellFormed, Bool.and_eq_true, Bool.and_eq_true, decide_eq_true_iff, decide_eq_true_iff,
      areWellFormed_iff es]
    exact ⟨fun ⟨⟨nodup, name⟩, node⟩ => .dir es nodup name node,
      fun h => ⟨⟨h.nodup, fun _ => h.isName⟩, fun _ => h.entry⟩⟩

theorem areWellFormed_iff : (es : List (Text × Node)) →
    (areWellFormed es = true ↔ ∀ e ∈ es, e.2.WellFormed)
  | [] => by simp [areWellFormed]
  | (name, node) :: es => by
    rw [areWellFormed, Bool.and_eq_true, isWellFormed_iff node, areWellFormed_iff es,
      List.forall_mem_cons]

end

instance (n : Node) : Decidable n.WellFormed :=
  decidable_of_iff _ (isWellFormed_iff n)

theorem mem_of_lookup {es : List (Text × Node)} {name : Text} {node : Node}
    (h : es.lookup name = some node) : (name, node) ∈ es := by
  obtain ⟨before, after, rfl, -⟩ := List.lookup_eq_some_iff.1 h
  exact List.mem_append_right before List.mem_cons_self

theorem lookup_of_mem {es : List (Text × Node)} {name : Text} {node : Node}
    (hn : (es.map Prod.fst).Nodup) (h : (name, node) ∈ es) : es.lookup name = some node := by
  obtain ⟨before, after, rfl⟩ := List.append_of_mem h
  refine List.lookup_eq_some_iff.2 ⟨before, after, rfl, fun e he => ?_⟩
  rw [List.map_append, List.map_cons, List.nodup_append] at hn
  have hne := hn.2.2 e.1 (List.mem_map_of_mem he) name List.mem_cons_self
  simpa using hne.symm

/-- Among entries of different names one is told by its name. -/
theorem eq_of_lookup {es : List (Text × Node)} {name : Text} {node m : Node}
    (hn : (es.map Prod.fst).Nodup) (hl : es.lookup name = some node) (hm : (name, m) ∈ es) :
    node = m :=
  Option.some.inj (hl.symm.trans (lookup_of_mem hn hm))

theorem file_ne_link (content : Bytes) (target : Text) : file content ≠ link target := by
  simp

theorem dir_ne_link (es : List (Text × Node)) (target : Text) : dir es ≠ link target := by
  simp

@[simp] theorem at?_nil (n : Node) : n.at? [] = some n := by
  cases n <;> rfl

theorem at?_cons (es : List (Text × Node)) (name : Text) (rest : Place) :
    (dir es).at? (name :: rest) = (es.lookup name).bind (·.at? rest) := rfl

/-- A place below a node is in an entry of it. -/
theorem exists_of_at?_cons {n m : Node} {name : Text} {rest : Place}
    (h : n.at? (name :: rest) = some m) :
    ∃ es node, n = dir es ∧ es.lookup name = some node ∧ node.at? rest = some m := by
  cases n with
  | file => simp [at?] at h
  | link => simp [at?] at h
  | dir es =>
    obtain ⟨node, hl, hm⟩ := Option.bind_eq_some_iff.1 h
    exact ⟨es, node, rfl, hl, hm⟩

theorem at?_append (n : Node) (p q : Place) : n.at? (p ++ q) = (n.at? p).bind (·.at? q) := by
  induction p generalizing n with
  | nil => simp
  | cons name p ih =>
    cases n with
    | file => rfl
    | link => rfl
    | dir es =>
      rw [List.cons_append, at?_cons, at?_cons]
      cases es.lookup name with
      | none => rfl
      | some node => exact ih node

theorem at?_concat {n : Node} {p : Place} {es : List (Text × Node)} (h : n.at? p = some (.dir es))
    (name : Text) : n.at? (p ++ [name]) = es.lookup name := by
  rw [at?_append, h, Option.bind_some, at?_cons]
  cases es.lookup name <;> simp

/-- Directories one in the other, and a node at the end of them. -/
def nested (p : Place) (node : Node) : Node :=
  p.foldr (fun name below => .dir [(name, below)]) node

theorem at?_nested (p : Place) (node : Node) : (nested p node).at? p = some node := by
  induction p with
  | nil => exact at?_nil node
  | cons name p ih =>
    change (dir [(name, nested p node)]).at? (name :: p) = some node
    rw [at?_cons, List.lookup_cons_self, Option.bind_some, ih]

theorem WellFormed.at? {n m : Node} {p : Place} (h : n.WellFormed) (hp : n.at? p = some m) :
    m.WellFormed ∧ ∀ name ∈ p, IsName name := by
  induction p generalizing n with
  | nil =>
    obtain rfl : n = m := by simpa using hp
    exact ⟨h, by simp⟩
  | cons name p ih =>
    obtain ⟨es, node, rfl, hl, hp⟩ := exists_of_at?_cons hp
    have hmem := mem_of_lookup hl
    obtain ⟨hm, hnames⟩ := ih (h.entry hmem) hp
    exact ⟨hm, List.forall_mem_cons.2 ⟨h.isName hmem, hnames⟩⟩

@[simp] theorem map_fst_modifyEntry (name : Text) (f : Node → Node) (es : List (Text × Node)) :
    (modifyEntry name f es).map Prod.fst = es.map Prod.fst := by
  rw [modifyEntry, List.map_map]
  congr 1
  funext ⟨n, node⟩
  by_cases h : n = name <;> simp [h]

theorem lookup_modifyEntry (name n : Text) (f : Node → Node) (es : List (Text × Node)) :
    (modifyEntry name f es).lookup n = if n = name then (es.lookup n).map f else es.lookup n := by
  induction es with
  | nil => simp [modifyEntry]
  | cons e es ih =>
    obtain ⟨k, node⟩ := e
    have hcons : modifyEntry name f ((k, node) :: es) =
        (k, if k = name then f node else node) :: modifyEntry name f es := by
      by_cases hk : k = name <;> simp [modifyEntry, hk]
    rw [hcons, List.lookup_cons, List.lookup_cons, ih]
    by_cases hn : n = k
    · subst hn
      by_cases hk : n = name <;> simp [hk]
    · have hb : (n == k) = false := by simpa using hn
      simp [hb]

/-- Only the entry of the name counts, so two changes that agree on it are the same. -/
theorem modifyEntry_congr {es : List (Text × Node)} {name : Text} {node : Node} {f g : Node → Node}
    (hn : (es.map Prod.fst).Nodup) (hl : es.lookup name = some node) (h : f node = g node) :
    modifyEntry name f es = modifyEntry name g es := by
  apply List.map_congr_left
  rintro ⟨n, m⟩ hm
  by_cases he : n = name
  · obtain rfl := eq_of_lookup hn hl (he ▸ hm)
    simp [he, h]
  · simp [he]

theorem modifyEntry_id (name : Text) (es : List (Text × Node)) : modifyEntry name id es = es := by
  rw [modifyEntry]
  nth_rewrite 2 [← List.map_id es]
  congr 1
  funext ⟨n, m⟩
  by_cases h : n = name <;> simp [h]

theorem modifyEntry_modifyEntry (name : Text) (f g : Node → Node) (es : List (Text × Node)) :
    modifyEntry name g (modifyEntry name f es) = modifyEntry name (g ∘ f) es := by
  rw [modifyEntry, modifyEntry, modifyEntry, List.map_map]
  congr 1
  funext ⟨n, m⟩
  by_cases h : n = name <;> simp [h]

theorem put_cons {es : List (Text × Node)} {name : Text} {node : Node}
    (hl : es.lookup name = some node) (rest : Place) (new : Node) :
    (dir es).put (name :: rest) new = dir (modifyEntry name (fun node => node.put rest new) es) := by
  rw [put, if_pos (by rw [hl]; rfl)]

theorem put_name {es : List (Text × Node)} {name : Text} (hl : es.lookup name = none) (new : Node) :
    (dir es).put [name] new = dir (es ++ [(name, new)]) := by
  simp [put, hl]

theorem WellFormed.put_self {n m : Node} {p : Place} (h : n.WellFormed) (hp : n.at? p = some m) :
    n.put p m = n := by
  induction p generalizing n with
  | nil =>
    obtain rfl : n = m := by simpa using hp
    cases n <;> rfl
  | cons name p ih =>
    obtain ⟨es, node, rfl, hl, hp⟩ := exists_of_at?_cons hp
    have hid : (fun node : Node => node.put p m) node = id node :=
      ih (h.entry (mem_of_lookup hl)) hp
    rw [put_cons hl, modifyEntry_congr h.nodup hl hid, modifyEntry_id]

/-- What is put at a place below another one is put into the node there. -/
theorem WellFormed.put_append {n d : Node} {p : Place} (h : n.WellFormed) (hp : n.at? p = some d)
    (d' : Node) (q : Place) (new : Node) :
    (n.put p d').put (p ++ q) new = n.put p (d'.put q new) := by
  induction p generalizing n with
  | nil => cases n <;> rfl
  | cons name p ih =>
    obtain ⟨es, node, rfl, hl, hp⟩ := exists_of_at?_cons hp
    have hl' : (modifyEntry name (fun node => node.put p d') es).lookup name =
        some (node.put p d') := by
      rw [lookup_modifyEntry, if_pos rfl, hl]
      rfl
    rw [put_cons hl, put_cons hl, List.cons_append, put_cons hl', modifyEntry_modifyEntry,
      modifyEntry_congr (g := fun node => node.put p (d'.put q new)) h.nodup hl]
    exact ih (h.entry (mem_of_lookup hl)) hp

theorem WellFormed.erase_append {n d : Node} {p : Place} (h : n.WellFormed) (hp : n.at? p = some d)
    (d' : Node) {q : Place} (hq : q ≠ []) :
    (n.put p d').erase (p ++ q) = n.put p (d'.erase q) := by
  induction p generalizing n with
  | nil => cases n <;> rfl
  | cons name p ih =>
    obtain ⟨es, node, rfl, hl, hp⟩ := exists_of_at?_cons hp
    obtain ⟨first, rest, hrest⟩ := List.exists_cons_of_ne_nil (l := p ++ q) (by simp [hq])
    have herase (es : List (Text × Node)) : (Node.dir es).erase (name :: (p ++ q)) =
        .dir (modifyEntry name (fun node => node.erase (p ++ q)) es) := by
      rw [hrest]
      rfl
    rw [put_cons hl, put_cons hl, List.cons_append, herase, modifyEntry_modifyEntry,
      modifyEntry_congr (g := fun node => node.put p (d'.erase q)) h.nodup hl]
    exact ih (h.entry (mem_of_lookup hl)) hp

theorem lookup_eq_none {es : List (Text × Node)} {name : Text} (h : name ∉ es.map Prod.fst) :
    es.lookup name = none := by
  rw [List.lookup_eq_none_iff]
  intro e he
  have hne : name ≠ e.1 := fun heq => h (heq ▸ List.mem_map_of_mem he)
  simpa using hne

theorem WellFormed.nested {node : Node} (h : node.WellFormed) {p : Place}
    (hp : ∀ name ∈ p, IsName name) : (nested p node).WellFormed := by
  induction p with
  | nil => exact h
  | cons name p ih =>
    obtain ⟨hname, hp⟩ := List.forall_mem_cons.1 hp
    exact .dir [(name, Node.nested p node)] (by simp) (by simpa using hname) (by simpa using ih hp)

theorem put_nested (p q : Place) (node new : Node) :
    (nested p node).put (p ++ q) new = nested p (node.put q new) := by
  induction p with
  | nil => rfl
  | cons name p ih =>
    change (dir [(name, nested p node)]).put (name :: (p ++ q)) new =
      dir [(name, nested p (node.put q new))]
    simp [put_cons List.lookup_cons_self, modifyEntry, ih]

/-- A node under a new name comes behind the entries of its directory. -/
theorem put_fresh {top : Node} {parent : Place} {es : List (Text × Node)} {fresh : Text}
    (h : top.WellFormed) (hd : top.at? parent = some (dir es)) (hf : fresh ∉ es.map Prod.fst)
    (new : Node) :
    top.put (parent ++ [fresh]) new = top.put parent (dir (es ++ [(fresh, new)])) := by
  have hput := h.put_append hd (dir es) [fresh] new
  rw [h.put_self hd] at hput
  rw [hput, put_name (lookup_eq_none hf)]

theorem at?_put_append {n d : Node} {p : Place} (hp : n.at? p = some d) (d' : Node) (q : Place) :
    (n.put p d').at? (p ++ q) = d'.at? q := by
  induction p generalizing n with
  | nil => cases n <;> rfl
  | cons name p ih =>
    obtain ⟨es, node, rfl, hl, hp⟩ := exists_of_at?_cons hp
    rw [put_cons hl, List.cons_append, at?_cons, lookup_modifyEntry, if_pos rfl, hl]
    exact ih hp

theorem at?_put_self {n d : Node} {p : Place} (hp : n.at? p = some d) (new : Node) :
    (n.put p new).at? p = some new := by
  simpa using at?_put_append hp new []

/-- A file in place of another leaves the other files as they are. -/
theorem at?_put_file {n : Node} {p q : Place} {b c : Bytes} (hp : n.at? p = some (.file b))
    (hq : n.at? q = some (.file c)) (hne : q ≠ p) (new : Bytes) :
    (n.put p (.file new)).at? q = some (.file c) := by
  induction p generalizing n q with
  | nil =>
    obtain rfl : n = .file b := by simpa using hp
    cases q with
    | nil => contradiction
    | cons name q => simp [at?] at hq
  | cons name p ih =>
    obtain ⟨es, node, rfl, hl, hnode⟩ := exists_of_at?_cons hp
    cases q with
    | nil => simp at hq
    | cons first q =>
      obtain ⟨node', hl', hnode'⟩ := Option.bind_eq_some_iff.1 hq
      rw [put_cons hl, at?_cons, lookup_modifyEntry, hl']
      by_cases hf : first = name
      · subst hf
        obtain rfl : node = node' := Option.some.inj (hl.symm.trans hl')
        have hpq : q ≠ p := fun he => hne (he ▸ rfl)
        rw [if_pos rfl, Option.map_some, Option.bind_some]
        exact ih hnode hnode' hpq
      · rw [if_neg hf, Option.bind_some]
        exact hnode'

end Node
end GuardedCalls
