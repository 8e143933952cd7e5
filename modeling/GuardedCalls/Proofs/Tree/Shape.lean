import GuardedCalls.Proofs.Tree.Basic

/-! The shape of a tree is all of it but the contents of its files. A file in place of another keeps
it. -/

namespace GuardedCalls
namespace Node

mutual

def shape : Node → Node
  | .file _ => .file []
  | .link target => .link target
  | .dir es => .dir (shapeAmong es)

def shapeAmong : List (Text × Node) → List (Text × Node)
  | [] => []
  | (name, node) :: es => (name, shape node) :: shapeAmong es

end

@[simp] theorem isDir_shape (n : Node) : n.shape.isDir = n.isDir := by
  cases n <;> rfl

theorem shapeAmong_eq (es : List (Text × Node)) :
    shapeAmong es = es.map fun (name, node) => (name, shape node) := by
  induction es with
  | nil => rfl
  | cons e es ih => rw [shapeAmong, List.map_cons, ih]

theorem lookup_shapeAmong (es : List (Text × Node)) (name : Text) :
    (shapeAmong es).lookup name = (es.lookup name).map shape := by
  induction es with
  | nil => rfl
  | cons e es ih =>
    rw [shapeAmong, List.lookup_cons, List.lookup_cons, ih]
    cases name == e.1 <;> rfl

theorem at?_shape (n : Node) (p : Place) : n.shape.at? p = (n.at? p).map shape := by
  induction p generalizing n with
  | nil => simp
  | cons name p ih =>
    cases n with
    | file => rfl
    | link => rfl
    | dir es =>
      rw [shape, at?_cons, at?_cons, lookup_shapeAmong]
      cases es.lookup name with
      | none => rfl
      | some node => exact ih node

mutual

theorem wellFormed_shape : (n : Node) → (n.shape.WellFormed ↔ n.WellFormed)
  | .file _ => ⟨fun _ => .file _, fun _ => .file _⟩
  | .link _ => Iff.rfl
  | .dir es => by
    have hnames : (shapeAmong es).map Prod.fst = es.map Prod.fst := by
      rw [shapeAmong_eq, List.map_map]
      rfl
    have hname : (∀ e ∈ shapeAmong es, IsName e.1) ↔ ∀ e ∈ es, IsName e.1 := by
      rw [← List.forall_mem_map, hnames, List.forall_mem_map]
    have hnode := wellFormed_shapeAmong es
    rw [shape]
    constructor
    · intro h
      exact .dir es (hnames ▸ h.nodup) (hname.1 fun _ => h.isName) (hnode.1 fun _ => h.entry)
    · intro h
      exact .dir _ (hnames ▸ h.nodup) (hname.2 fun _ => h.isName) (hnode.2 fun _ => h.entry)

theorem wellFormed_shapeAmong : (es : List (Text × Node)) →
    ((∀ e ∈ shapeAmong es, e.2.WellFormed) ↔ ∀ e ∈ es, e.2.WellFormed)
  | [] => by simp [shapeAmong]
  | (name, node) :: es => by
    rw [shapeAmong, List.forall_mem_cons, List.forall_mem_cons, wellFormed_shape node,
      wellFormed_shapeAmong es]

end

theorem WellFormed.of_shape {n m : Node} (h : n.WellFormed) (hs : m.shape = n.shape) :
    m.WellFormed := by
  rw [← wellFormed_shape, hs, wellFormed_shape]
  exact h

theorem WellFormed.shape_put {n : Node} {p : Place} {b : Bytes} (h : n.WellFormed)
    (hp : n.at? p = some (.file b)) (c : Bytes) : (n.put p (.file c)).shape = n.shape := by
  induction p generalizing n with
  | nil =>
    obtain rfl : n = .file b := by simpa using hp
    rfl
  | cons name p ih =>
    obtain ⟨es, node, rfl, hl, hnode⟩ := exists_of_at?_cons hp
    rw [put_cons hl, shape, shape, shapeAmong_eq, shapeAmong_eq, modifyEntry, List.map_map]
    congr 1
    apply List.map_congr_left
    rintro ⟨k, m⟩ hm
    by_cases hk : k = name
    · obtain rfl := eq_of_lookup h.nodup hl (hk ▸ hm)
      simp [hk, ih (h.entry hm) hnode]
    · simp [hk]

theorem at?_congr {n m : Node} (hs : m.shape = n.shape) (p : Place) :
    (m.at? p).map shape = (n.at? p).map shape := by
  rw [← at?_shape, ← at?_shape, hs]

/-- A tree is its shape and the contents of its files. -/
theorem WellFormed.eq_of_shape {n m : Node} (h : n.WellFormed) (hs : m.shape = n.shape)
    (hfiles : ∀ p b, n.at? p = some (.file b) → m.at? p = some (.file b)) : m = n := by
  induction h generalizing m with
  | file b => exact Option.some.inj (hfiles [] b (at?_nil _) ▸ (at?_nil m).symm)
  | link target =>
    cases m with
    | file => simp [shape] at hs
    | link => simpa [shape] using hs
    | dir => simp [shape] at hs
  | dir es nodup name node ih =>
    cases m with
    | file => simp [shape] at hs
    | link => simp [shape] at hs
    | dir es' =>
      have hm := (WellFormed.dir es nodup name node).of_shape hs
      have hmap : es'.map (fun (name, node) => (name, shape node)) =
          es.map fun (name, node) => (name, shape node) := by
        rw [← shapeAmong_eq, ← shapeAmong_eq]
        simpa [shape] using hs
      have hlength : es'.length = es.length := by simpa using congrArg List.length hmap
      congr 1
      refine List.ext_getElem hlength fun i hi' hi => ?_
      have hentry : (es'[i].1, es'[i].2.shape) = (es[i].1, es[i].2.shape) := by
        have hget := congrArg (·[i]?) hmap
        simpa [hi, hi'] using hget
      obtain ⟨hname, hshape⟩ := Prod.mk.inj hentry
      have hl : es.lookup es[i].1 = some es[i].2 := lookup_of_mem nodup (List.getElem_mem hi)
      have hl' : es'.lookup es[i].1 = some es'[i].2 := by
        rw [← hname]
        exact lookup_of_mem hm.nodup (List.getElem_mem hi')
      refine Prod.ext hname (ih _ (List.getElem_mem hi) hshape fun p b hp => ?_)
      have hat := hfiles (es[i].1 :: p) b (by rw [at?_cons, hl]; exact hp)
      rwa [at?_cons, hl'] at hat

end Node
end GuardedCalls
