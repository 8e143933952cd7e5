import GuardedCalls.Proofs.Tree.Resolve

/-! A file that was written is read back under the same path. A new file changes what a walk sees at
its own place only, and a walk that comes to that place ends there. -/

namespace GuardedCalls.Node

/-- What a walk sees of a node without going into it. -/
inductive Kind
  | file
  | dir
  | link (target : Text)

def kind : Node → Kind
  | .file _ => .file
  | .dir _ => .dir
  | .link target => .link target

theorem kind_eq_file {n : Node} : n.kind = .file ↔ ∃ b, n = .file b := by
  cases n <;> simp [kind]

theorem kind_eq_dir {n : Node} : n.kind = .dir ↔ ∃ es, n = .dir es := by
  cases n <;> simp [kind]

theorem kind_eq_link {n : Node} {target : Text} : n.kind = .link target ↔ n = .link target := by
  cases n <;> simp [kind]

/-- A part leads where the kinds of two nodes say: of the one it is followed from and of the one that
it names there. -/
theorem lead_eq_kind (top : Node) (here : Place) (part : Text) : top.lead here part =
    match (top.at? here).map kind with
    | some .dir =>
      if part = [] || part = ['.'] then .goes here
      else if part = ['.', '.'] then .goes here.dropLast
      else if 255 < Utf8.size part then .fault .nameTooLong
      else
        match (top.at? (here ++ [part])).map kind with
        | none => .missing
        | some (.link target) => .link target
        | some _ => .goes (here ++ [part])
    | _ => .fault .notDirectory := by
  rw [lead, at?_append]
  cases hn : top.at? here with
  | none => rfl
  | some n =>
    cases n with
    | file => rfl
    | link => rfl
    | dir es =>
      simp only [Option.map_some, kind, Option.bind_some, at?_cons, at?_nil]
      cases es.lookup part with
      | none => rfl
      | some node => cases node <;> rfl

/-- Where the kinds of all nodes stay, a part that leads on leads there still. -/
theorem lead_eq_of_kind {top after : Node} (h : ∀ q k, (top.at? q).map Node.kind = some k →
      (after.at? q).map Node.kind = some k)
    {here : Place} {part : Text} {l : Lead} (hl : top.lead here part = l) (hmissing : l ≠ .missing)
    (hfault : ∀ e, l ≠ .fault e) : after.lead here part = l := by
  rw [lead_eq_kind] at hl ⊢
  cases hhere : (top.at? here).map Node.kind with
  | none =>
    rw [hhere] at hl
    exact absurd hl.symm (hfault _)
  | some k =>
    rw [hhere] at hl
    rw [h here k hhere]
    cases k with
    | file => exact absurd hl.symm (hfault _)
    | link => exact absurd hl.symm (hfault _)
    | dir =>
      cases hnext : (top.at? (here ++ [part])).map Node.kind with
      | none =>
        simp only [hnext] at hl
        simp only
        split at hl
        · next hsame => rw [if_pos hsame, hl]
        next hsame =>
        split at hl
        · next habove => rw [if_neg hsame, if_pos habove, hl]
        split at hl
        · exact absurd hl.symm (hfault _)
        · exact absurd hl.symm hmissing
      | some k =>
        rw [hnext] at hl
        rw [h _ k hnext]
        exact hl

section New
variable {top : Node} {es : List (Text × Node)} {parent : Place} {name : Text}

/-- In a directory a node that is put under a name is found there, and the rest as before. -/
theorem exists_put_name (es : List (Text × Node)) (name : Text) (new : Node) :
    ∃ es', (dir es).put [name] new = dir es' ∧
      ∀ n, es'.lookup n = if n = name then some new else es.lookup n := by
  cases hl : es.lookup name with
  | none =>
    refine ⟨es ++ [(name, new)], put_name hl new, fun n => ?_⟩
    rw [List.lookup_append, List.lookup_cons]
    by_cases hn : n = name
    · simp [hn, hl]
    · have hb : (n == name) = false := by simpa using hn
      simp [hb, hn]
  | some node =>
    refine ⟨_, put_cons hl [] new, fun n => ?_⟩
    rw [lookup_modifyEntry]
    by_cases hn : n = name
    · cases node <;> simp [hn, hl, put]
    · rw [if_neg hn, if_neg hn]

/-- What is the same for all directories sees a file that is put in no directory's place at its own
place only. -/
theorem map_put_file {α : Type} {f : Node → α} (hf : ∀ es es', f (dir es) = f (dir es'))
    (hd : top.at? parent = some (.dir es)) (hl : ∀ all, es.lookup name ≠ some (.dir all))
    (content : Bytes) (p : Place) : ((top.put (parent ++ [name]) (.file content)).at? p).map f =
      if p = parent ++ [name] then some (f (.file content)) else (top.at? p).map f := by
  induction parent generalizing top p with
  | nil =>
    obtain rfl : top = .dir es := by simpa using hd
    obtain ⟨es', hput, hlookup⟩ := exists_put_name es name (.file content)
    rw [List.nil_append, hput]
    cases p with
    | nil => simpa using hf es' es
    | cons first rest =>
      rw [at?_cons, at?_cons, hlookup]
      by_cases hname : first = name
      · rw [if_pos hname, hname]
        cases rest with
        | nil => simp
        | cons =>
          cases hold : es.lookup name with
          | none => simp [at?]
          | some old =>
            cases old with
            | dir all => exact absurd hold (hl all)
            | file => simp [at?]
            | link => simp [at?]
      · simp [hname]
  | cons n parent ih =>
    obtain ⟨all, node, rfl, hn, hd⟩ := exists_of_at?_cons hd
    rw [List.cons_append, put_cons hn]
    cases p with
    | nil => simpa using hf _ all
    | cons first rest =>
      rw [at?_cons, at?_cons, lookup_modifyEntry]
      by_cases hname : first = n
      · rw [if_pos hname, hname, hn]
        simpa using ih hd rest
      · simp [hname]

theorem kind_put_new (hd : top.at? parent = some (.dir es)) (hl : es.lookup name = none)
    (content : Bytes) (p : Place) :
    ((top.put (parent ++ [name]) (.file content)).at? p).map kind =
      if p = parent ++ [name] then some .file else (top.at? p).map kind :=
  map_put_file (fun _ _ => rfl) hd (by simp [hl]) content p

/-- No node was there before. -/
theorem kind_put_new_of_some (hd : top.at? parent = some (.dir es)) (hl : es.lookup name = none)
    (content : Bytes) {p : Place} {k : Kind} (hk : (top.at? p).map kind = some k) :
    ((top.put (parent ++ [name]) (.file content)).at? p).map kind = some k := by
  have hne : p ≠ parent ++ [name] := by
    intro heq
    rw [heq, at?_concat hd, hl] at hk
    simp at hk
  rw [kind_put_new hd hl, if_neg hne, hk]

theorem notMem_of_lookup_eq_none (hl : es.lookup name = none) : name ∉ es.map Prod.fst := by
  intro hmem
  obtain ⟨e, he, rfl⟩ := List.mem_map.1 hmem
  simpa using List.lookup_eq_none_iff.1 hl e he

theorem at?_put_new (h : top.WellFormed) (hd : top.at? parent = some (.dir es))
    (hl : es.lookup name = none) (new : Node) :
    (top.put (parent ++ [name]) new).at? (parent ++ [name]) = some new := by
  rw [put_fresh h hd (notMem_of_lookup_eq_none hl), at?_put_append hd, at?_cons,
    List.lookup_append, hl]
  simp

theorem exists_of_lead_missing (h : top.lead parent name = .missing) :
    ∃ es, top.at? parent = some (.dir es) ∧ es.lookup name = none := by
  rw [lead] at h
  split at h
  · rename_i es hd
    refine ⟨es, hd, ?_⟩
    split at h
    · contradiction
    split at h
    · contradiction
    split at h
    · contradiction
    split at h
    · assumption
    · contradiction
    · contradiction
  · contradiction

/-- The new file is the only node that a walk sees and did not see before. -/
theorem lead_put_new (h : top.lead parent name = .missing) (content : Bytes) (here : Place)
    (part : Text) : (top.put (parent ++ [name]) (.file content)).lead here part =
      if here = parent ∧ part = name then .goes (parent ++ [name]) else top.lead here part := by
  obtain ⟨es, hd, hl⟩ := exists_of_lead_missing h
  by_cases hsame : here = parent ∧ part = name
  · have hother : parent ≠ parent ++ [name] := by simp
    rw [if_pos hsame, hsame.1, hsame.2]
    rw [lead_eq_kind] at h ⊢
    rw [kind_put_new hd hl, kind_put_new hd hl, if_neg hother, if_pos rfl]
    simp only [hd, Option.map_some, kind] at h ⊢
    split at h
    · contradiction
    rename_i hhere
    split at h
    · contradiction
    rename_i habove
    split at h
    · contradiction
    rename_i hsize
    rw [if_neg hhere, if_neg habove, if_neg hsize]
  · rw [if_neg hsame, lead_eq_kind, lead_eq_kind, kind_put_new hd hl, kind_put_new hd hl]
    by_cases hplace : here = parent ++ [name]
    · have hnone : top.at? (parent ++ [name]) = none := (at?_concat hd name).trans hl
      rw [if_pos hplace, hplace, hnone]
      rfl
    · have hnext : here ++ [part] ≠ parent ++ [name] := by
        intro heq
        obtain ⟨hhere, hpart⟩ := List.append_inj' heq rfl
        exact hsame ⟨hhere, by simpa using hpart⟩
      rw [if_neg hplace, if_neg hnext]

theorem walk_absent {follow : Bool} {links : Nat} {here : Place} {parts : List Text} {slashes : Bool}
    (h : walk top follow links here parts = .ok (.absent parent name slashes)) :
    top.lead parent name = .missing := by
  replace h := walks_of_eq_ok h
  induction h with
  | done hspot => contradiction
  | goes _ _ ih => exact ih
  | link _ _ _ ih => exact ih
  | kept _ _ hspot => contradiction
  | absent hm _ hspot =>
    obtain ⟨rfl, rfl, -⟩ := Spot.absent.inj hspot
    exact hm

theorem walk_put_new {links : Nat} {here : Place} {parts : List Text}
    (h : walk top true links here parts = .ok (.absent parent name false)) (content : Bytes) :
    walk (top.put (parent ++ [name]) (.file content)) true links here parts =
      .ok (.found (parent ++ [name])) := by
  have hmissing := walk_absent h
  have hlead := lead_put_new hmissing content
  have hsame {here : Place} {part : Text} (hm : top.lead here part ≠ .missing) :
      (top.put (parent ++ [name]) (.file content)).lead here part = top.lead here part := by
    have hother : ¬ (here = parent ∧ part = name) := by
      rintro ⟨rfl, rfl⟩
      exact hm hmissing
    rw [hlead, if_neg hother]
  replace h := walks_of_eq_ok h
  apply Walks.walk_eq
  induction h with
  | done hspot => contradiction
  | goes hm _ ih => exact .goes ((hsame (by simp [hm])).trans hm) ih
  | link hm hmore _ ih => exact .link ((hsame (by simp [hm])).trans hm) hmore ih
  | kept _ hfollow => contradiction
  | @absent links here part rest hm hrest hspot =>
    obtain ⟨rfl, rfl, hslashes⟩ := Spot.absent.inj hspot
    obtain rfl : rest = [] := by simpa using hslashes
    exact .goes (by rw [hlead, if_pos ⟨rfl, rfl⟩]) (.done rfl)

end New

/-- A write is to the file that the path leads to, or to the name that it ends with. -/
theorem write_cases {top after : Node} {base : Place} {path : Text} {content : Bytes}
    (h : top.write base path content = .ok after) :
    (∃ place old, top.locate base true path = .ok (.found place) ∧
      top.at? place = some (.file old) ∧ after = top.put place (.file content)) ∨
    ∃ parent name, top.locate base true path = .ok (.absent parent name false) ∧
      after = top.put (parent ++ [name]) (.file content) := by
  obtain ⟨-, -, h⟩ := bind_eq_ok.1 h
  split at h
  · obtain ⟨spot, -, h⟩ := bind_eq_ok.1 h
    split at h
    · split at h
      · contradiction
      · contradiction
    · contradiction
  · obtain ⟨spot, hspot, h⟩ := bind_eq_ok.1 h
    cases spot with
    | found place =>
      obtain ⟨m, hm, hlink⟩ := canonical_found (canonical_of_locate hspot)
      cases m with
      | dir es => simp [hm, isDir] at h
      | link target => exact absurd rfl (hlink target)
      | file old =>
        have hafter : top.put place (.file content) = after := by simpa [hm, isDir] using h
        exact Or.inl ⟨place, old, hspot, hm, hafter.symm⟩
    | absent parent name slashes =>
      cases slashes with
      | true => contradiction
      | false => exact Or.inr ⟨parent, name, hspot, (Except.ok.inj h).symm⟩

/-- A new name is written in the directory that it is seen from. -/
theorem write_new {top : Node} {here : Place} {es : List (Text × Node)} {name : Text}
    (hd : top.at? here = some (.dir es)) (hl : es.lookup name = none) (hn : IsName name)
    (husable : IsUsable name) (content : Bytes) :
    top.write here name content = .ok (top.put (here ++ [name]) (.file content)) := by
  have hpath : checkPath name = .ok () :=
    checkPath_eq_ok.2 ⟨husable.nul, hn.nonempty, Nat.lt_of_le_of_lt husable.size (by decide)⟩
  have hslash : slashedParent? name = none :=
    if_neg fun hlast => hn.slash (List.mem_of_getLast? hlast)
  have hlocate : top.locate here true name = .ok (.absent here name false) := by
    refine locate_eq_ok.2 ⟨hpath, ?_⟩
    rw [start, Path.isAbsolute_of_notMem hn.slash, if_neg Bool.false_ne_true,
      Path.parts_of_notMem hn.slash, walk_cons, lead_name hd hn, if_neg (Nat.not_lt.2 husable.size), hl]
    rfl
  rw [write, hpath, ok_bind, hslash]
  simp only [hlocate, ok_bind, Bool.false_eq_true, if_false]

/-- What was written under a path is at the place to which the path then leads. -/
theorem exists_written {top after : Node} (hw : top.WellFormed) {base : Place} {path : Text}
    {content : Bytes} (h : top.write base path content = .ok after) :
    ∃ place, after.locate base true path = .ok (.found place) ∧
      after.at? place = some (.file content) := by
  obtain ⟨place, old, hspot, hm, rfl⟩ | ⟨parent, name, hspot, rfl⟩ := write_cases h
  · have hagain : (top.put place (.file content)).locate base true path = .ok (.found place) := by
      rw [← locate_shape, hw.shape_put hm, locate_shape, hspot]
    exact ⟨place, hagain, at?_put_self hm _⟩
  · obtain ⟨hpath, hwalk⟩ := locate_eq_ok.1 hspot
    obtain ⟨es, hd, hl⟩ := exists_of_lead_missing (walk_absent hwalk)
    exact ⟨parent ++ [name], locate_eq_ok.2 ⟨hpath, walk_put_new hwalk content⟩,
      at?_put_new hw hd hl _⟩

/-- What was written under a path is read under that path. -/
theorem read_write {top after : Node} (hw : top.WellFormed) {base : Place} {path : Text}
    {content : Bytes} (h : top.write base path content = .ok after) :
    after.read base path = .ok content := by
  obtain ⟨place, hplace, hcontent⟩ := exists_written hw h
  rw [read, hplace, ok_bind]
  simp only [contentAt, hcontent]

end GuardedCalls.Node
