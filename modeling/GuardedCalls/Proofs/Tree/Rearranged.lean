import GuardedCalls.Proofs.Tree.Write

/-! Trees that differ only in the order in which their directories list what they hold. The nodes at
a place are such trees again, so every path leads to one place in both. -/

namespace GuardedCalls.Node

/-- The same tree, but for the order of the entries in its directories. -/
inductive Rearranged : Node → Node → Prop
  | file (content : Bytes) : Rearranged (.file content) (.file content)
  | link (target : Text) : Rearranged (.link target) (.link target)
  | dir (es es' : List (Text × Node)) (names : (es.map Prod.fst).Perm (es'.map Prod.fst))
      (entry : ∀ name node node', (name, node) ∈ es → (name, node') ∈ es' →
        Rearranged node node') : Rearranged (.dir es) (.dir es')

namespace Rearranged
variable {top top' : Node}

theorem refl (h : top.WellFormed) : Rearranged top top := by
  induction h with
  | file content => exact .file content
  | link target => exact .link target
  | dir es nodup name node ih =>
    refine .dir es es (.refl _) fun name node node' hmem hmem' => ?_
    obtain rfl := eq_of_lookup nodup (lookup_of_mem nodup hmem) hmem'
    exact ih _ hmem

theorem of_perm {es es' : List (Text × Node)} (h : (Node.dir es).WellFormed) (hp : es.Perm es') :
    Rearranged (.dir es) (.dir es') := by
  refine .dir es es' (hp.map Prod.fst) fun name node node' hmem hmem' => ?_
  obtain rfl := eq_of_lookup h.nodup (lookup_of_mem h.nodup hmem) (hp.mem_iff.2 hmem')
  exact .refl (h.entry hmem)

theorem kind_eq (h : Rearranged top top') : top'.kind = top.kind := by
  cases h <;> rfl

theorem wellFormed (h : Rearranged top top') (ht : top.WellFormed) : top'.WellFormed := by
  induction h with
  | file content => exact .file content
  | link target => exact .link target
  | dir es es' names entry ih =>
    have hback {e' : Text × Node} (he' : e' ∈ es') : ∃ node, (e'.1, node) ∈ es := by
      obtain ⟨e, he, heq⟩ := List.mem_map.1 (names.mem_iff.2 (List.mem_map_of_mem he'))
      exact ⟨e.2, heq ▸ he⟩
    refine .dir es' (names.nodup_iff.1 ht.nodup) (fun e' he' => ?_) fun e' he' => ?_
    · obtain ⟨node, hmem⟩ := hback he'
      exact ht.isName (e := (e'.1, node)) hmem
    · obtain ⟨node, hmem⟩ := hback he'
      exact ih _ _ _ hmem he' (ht.entry hmem)

/-- A name leads to an entry in both of two directories or in none of them. -/
theorem lookup {es es' : List (Text × Node)} (h : Rearranged (.dir es) (.dir es')) (name : Text) :
    Option.Rel Rearranged (es.lookup name) (es'.lookup name) := by
  cases h with
  | dir _ _ names entry =>
    cases hl : es.lookup name with
    | none =>
      have hfree := (names.mem_iff (a := name)).not.1 (notMem_of_lookup_eq_none hl)
      rw [lookup_eq_none hfree]
      exact .none
    | some node =>
      have hmem := mem_of_lookup hl
      cases hl' : es'.lookup name with
      | none =>
        have hthere := names.mem_iff.1 (List.mem_map_of_mem hmem)
        exact absurd hthere (notMem_of_lookup_eq_none hl')
      | some node' => exact .some (entry name node node' hmem (mem_of_lookup hl'))

theorem at? (h : Rearranged top top') (p : Place) :
    Option.Rel Rearranged (top.at? p) (top'.at? p) := by
  induction p generalizing top top' with
  | nil => simpa using Option.Rel.some h
  | cons name p ih =>
    cases h with
    | file => exact .none
    | link => exact .none
    | dir es es' names entry =>
      have hentry := lookup (.dir es es' names entry) name
      rw [at?_cons, at?_cons]
      generalize es.lookup name = node, es'.lookup name = node' at hentry
      cases hentry with
      | none => exact .none
      | some hnode => exact ih hnode

theorem exists_dir (h : Rearranged top top') {p : Place} {es : List (Text × Node)}
    (hp : top.at? p = some (.dir es)) :
    ∃ es', top'.at? p = some (.dir es') ∧ Rearranged (.dir es) (.dir es') := by
  have hnode := h.at? p
  rw [hp] at hnode
  generalize top'.at? p = node' at hnode
  cases hnode with
  | some hdir =>
    cases hdir with
    | dir _ es' names entry => exact ⟨es', rfl, .dir es es' names entry⟩

theorem kind_at? (h : Rearranged top top') (p : Place) :
    (top'.at? p).map kind = (top.at? p).map kind := by
  have hnode := h.at? p
  generalize top.at? p = node, top'.at? p = node' at hnode
  cases hnode with
  | none => rfl
  | some hnode => exact congrArg some hnode.kind_eq

theorem lead_eq (h : Rearranged top top') (here : Place) (part : Text) :
    top'.lead here part = top.lead here part := by
  rw [lead_eq_kind, lead_eq_kind, h.kind_at?, h.kind_at?]

theorem locate_eq (h : Rearranged top top') (base : Place) (follow : Bool) (path : Text) :
    top'.locate base follow path = top.locate base follow path := by
  rw [locate, locate, walk_congr h.lead_eq]

end Rearranged
end GuardedCalls.Node
