import GuardedCalls.Proofs.Tree.Resolve
import GuardedCalls.Workspace.Discovery

/-! What a search finds depends on the shape of the tree alone, and each file is found once. -/

namespace GuardedCalls.Discovery

section Names
variable {ignored : List Text}

mutual

theorem filesIn_shape : (n : Node) → filesIn ignored n.shape = filesIn ignored n
  | .file _ => rfl
  | .link _ => rfl
  | .dir es => by rw [Node.shape, filesIn, filesIn, filesAmong_shape es]

theorem filesAmong_shape : (es : List (Text × Node)) →
    filesAmong ignored (Node.shapeAmong es) = filesAmong ignored es
  | [] => rfl
  | (name, node) :: es => by
    rw [Node.shapeAmong, filesAmong, filesAmong, Node.isDir_shape, filesIn_shape node,
      filesAmong_shape es]

end

theorem exists_of_mem_filesAmong {es : List (Text × Node)} {names : List Text}
    (h : names ∈ filesAmong ignored es) :
    ∃ e ∈ es, (e.2.isDir = true → e.1 ∉ ignored) ∧
      ∃ rest ∈ filesIn ignored e.2, names = e.1 :: rest := by
  induction es with
  | nil => simp [filesAmong] at h
  | cons e es ih =>
    rw [filesAmong, List.mem_append] at h
    rcases h with h | h
    · split at h
      · contradiction
      · next hkept =>
        obtain ⟨rest, hrest, rfl⟩ := List.mem_map.1 h
        exact ⟨e, List.mem_cons_self, by simpa using hkept, rest, hrest, rfl⟩
    · obtain ⟨e', he', hrest⟩ := ih h
      exact ⟨e', List.mem_cons_of_mem e he', hrest⟩

/-- The names that are found lead to a file. -/
theorem at?_of_mem_filesIn {n : Node} {names : List Text} (hn : n.WellFormed)
    (h : names ∈ filesIn ignored n) : ∃ content, n.at? names = some (.file content) := by
  induction names generalizing n with
  | nil =>
    cases n with
    | file content => exact ⟨content, rfl⟩
    | link => simp [filesIn] at h
    | dir es =>
      obtain ⟨e, -, -, rest, -, he⟩ := exists_of_mem_filesAmong h
      contradiction
  | cons name names ih =>
    cases n with
    | file => simp [filesIn] at h
    | link => simp [filesIn] at h
    | dir es =>
      obtain ⟨⟨first, node⟩, he, -, rest, hrest, heq⟩ := exists_of_mem_filesAmong h
      obtain ⟨rfl, rfl⟩ := List.cons.inj heq
      rw [Node.at?_cons, Node.lookup_of_mem hn.nodup he, Option.bind_some]
      exact ih (hn.entry he) hrest

/-- Of the names that are found only the last one can be that of an ignored directory: the others are
names of directories. -/
theorem notMem_ignored_of_mem_filesIn {n : Node} {names : List Text} (h : names ∈ filesIn ignored n) :
    ∀ name ∈ names.dropLast, name ∉ ignored := by
  induction names generalizing n with
  | nil => simp
  | cons name names ih =>
    cases n with
    | file => simp [filesIn] at h
    | link => simp [filesIn] at h
    | dir es =>
      obtain ⟨⟨first, node⟩, -, hkept, rest, hrest, heq⟩ := exists_of_mem_filesAmong h
      obtain ⟨rfl, rfl⟩ := List.cons.inj heq
      cases names with
      | nil => simp
      | cons next names =>
        rw [List.dropLast_cons_cons, List.forall_mem_cons]
        refine ⟨hkept ?_, ih hrest⟩
        cases node with
        | file => simp [filesIn] at hrest
        | link => simp [filesIn] at hrest
        | dir => rfl

theorem mem_filesAmong {es : List (Text × Node)} {name : Text} {node : Node} {rest : List Text}
    (he : (name, node) ∈ es) (hkept : node.isDir = true → name ∉ ignored)
    (hrest : rest ∈ filesIn ignored node) : name :: rest ∈ filesAmong ignored es := by
  induction es with
  | nil => contradiction
  | cons e es ih =>
    rw [filesAmong, List.mem_append]
    cases List.mem_cons.1 he with
    | inl he =>
      obtain rfl : (name, node) = e := he
      rw [if_neg (by simpa using hkept)]
      exact .inl (List.mem_map_of_mem hrest)
    | inr he => exact .inr (ih he)

theorem mem_filesIn_of_at? {n : Node} {names : List Text} {b : Bytes}
    (hb : n.at? names = some (.file b)) (hfree : ∀ name ∈ names.dropLast, name ∉ ignored) :
    names ∈ filesIn ignored n := by
  induction names generalizing n with
  | nil =>
    obtain rfl : n = .file b := by simpa using hb
    exact List.mem_singleton_self []
  | cons name names ih =>
    obtain ⟨es, node, rfl, hl, hb⟩ := Node.exists_of_at?_cons hb
    cases names with
    | nil =>
      obtain rfl : node = .file b := by simpa using hb
      exact mem_filesAmong (Node.mem_of_lookup hl) (by simp [Node.isDir]) (ih hb (by simp))
    | cons next names =>
      rw [List.dropLast_cons_cons, List.forall_mem_cons] at hfree
      exact mem_filesAmong (Node.mem_of_lookup hl) (fun _ => hfree.1) (ih hb hfree.2)

/-- The search finds the names that lead to files and past no ignored directory. -/
theorem mem_filesIn {n : Node} {names : List Text} (hn : n.WellFormed) :
    names ∈ filesIn ignored n ↔
      (∃ b, n.at? names = some (.file b)) ∧ ∀ name ∈ names.dropLast, name ∉ ignored :=
  ⟨fun h => ⟨at?_of_mem_filesIn hn h, notMem_ignored_of_mem_filesIn h⟩,
    fun ⟨⟨_, hb⟩, hfree⟩ => mem_filesIn_of_at? hb hfree⟩

mutual

theorem nodup_filesIn : (n : Node) → n.WellFormed → (filesIn ignored n).Nodup
  | .file _, _ => by simp [filesIn]
  | .link _, _ => by simp [filesIn]
  | .dir es, h => nodup_filesAmong es h.nodup fun _ => h.entry

theorem nodup_filesAmong : (es : List (Text × Node)) → (es.map Prod.fst).Nodup →
    (∀ e ∈ es, e.2.WellFormed) → (filesAmong ignored es).Nodup
  | [], _, _ => by simp [filesAmong]
  | (name, node) :: es, hn, h => by
    rw [List.map_cons, List.nodup_cons] at hn
    obtain ⟨hnode, hes⟩ := List.forall_mem_cons.1 h
    rw [filesAmong, List.nodup_append]
    refine ⟨?_, nodup_filesAmong es hn.2 hes, ?_⟩
    · split
      · exact List.nodup_nil
      · exact (nodup_filesIn node hnode).map fun _ _ => List.tail_eq_of_cons_eq
    · intro a ha b hb hab
      obtain ⟨e, he, -, rest, -, rfl⟩ := exists_of_mem_filesAmong hb
      split at ha
      · contradiction
      · obtain ⟨rest', -, rfl⟩ := List.mem_map.1 ha
        exact hn.1 (List.mem_map.2 ⟨e, he, (List.cons.inj hab).1.symm⟩)

end
end Names

variable {d : Discovery}

theorem sourcesIn_shape (d : Discovery) (root : Text) (n : Node) :
    d.sourcesIn root n.shape = d.sourcesIn root n := by
  rw [sourcesIn, sourcesIn, filesIn_shape]

theorem mem_filesIn_of_mem_sourcesIn {root : Text} {n : Node} {names : List Text}
    (h : names ∈ d.sourcesIn root n) : names ∈ filesIn d.ignoredDirs n := by
  rw [sourcesIn, List.mem_mergeSort] at h
  exact (List.mem_filter.1 h).1

theorem mem_sourcesIn {root : Text} {n : Node} {names : List Text} (hn : n.WellFormed) :
    names ∈ d.sourcesIn root n ↔ (∃ b, n.at? names = some (.file b)) ∧
      (∀ name ∈ names.dropLast, name ∉ d.ignoredDirs) ∧
      d.isSource (Path.components root ++ names) = true := by
  rw [sourcesIn, List.mem_mergeSort, List.mem_filter, mem_filesIn hn, and_assoc]

theorem nodup_sourcesIn {n : Node} (hn : n.WellFormed) (d : Discovery) (root : Text) :
    (d.sourcesIn root n).Nodup := by
  rw [sourcesIn, (List.mergeSort_perm _ _).nodup_iff]
  exact (nodup_filesIn n hn).filter _

theorem rootNode_shape (top : Node) (base : Place) (root : Text) :
    rootNode top.shape base root = (rootNode top base root).map Node.shape := by
  rw [rootNode, rootNode, Node.locate_shape, Node.locate_shape]
  cases top.locate base false root with
  | error e => rfl
  | ok spot =>
    cases spot with
    | absent => rfl
    | found place =>
      simp only [bind, Except.bind, Node.at?_shape]
      cases top.at? place with
      | none => rfl
      | some n =>
        cases n with
        | file => rfl
        | dir => rfl
        | link target =>
          simp only [Option.map_some, Node.shape]
          cases top.locate base true root with
          | error e => rfl
          | ok spot =>
            cases spot with
            | absent => rfl
            | found place =>
              simp only
              cases top.at? place with
              | none => rfl
              | some n => cases n <;> rfl

theorem files_shape (d : Discovery) (top : Node) (base : Place) (root : Text) :
    d.files top.shape base root = d.files top base root := by
  rw [files, files, rootNode_shape]
  cases rootNode top base root with
  | error e => rfl
  | ok n => simp only [Except.map, sourcesIn_shape]

theorem files_congr (d : Discovery) {top after : Node} (hs : after.shape = top.shape) (base : Place)
    (root : Text) : d.files after base root = d.files top base root := by
  rw [← files_shape, hs, files_shape]

/-- A search starts at the node of its root. If that is a link, it starts at the directory to which the
link leads, or at the link if it leads to none. -/
theorem rootNode_eq_ok {top n : Node} {base : Place} {root : Text} :
    rootNode top base root = .ok n ↔ ∃ p m, top.locate base false root = .ok (.found p) ∧
      top.at? p = some m ∧ ((∀ target, m ≠ .link target) ∧ n = m ∨
        ∃ target q, m = .link target ∧ top.locate base true root = .ok (.found q) ∧
          n = ((top.at? q).filter Node.isDir).getD (.link target)) := by
  rw [rootNode]
  cases top.locate base false root with
  | error e => simp [bind, Except.bind]
  | ok spot =>
    cases spot with
    | absent => simp [bind, Except.bind]
    | found p =>
      simp only [ok_bind, Except.ok.injEq, Spot.found.injEq, exists_and_left, exists_eq_left']
      cases top.at? p with
      | none => simp
      | some m =>
        simp only [Option.some.injEq, exists_eq_left']
        cases m with
        | file => simp [eq_comm]
        | dir => simp [eq_comm]
        | link target =>
          cases top.locate base true root with
          | error e => simp [bind, Except.bind]
          | ok spot =>
            cases spot with
            | absent => simp [bind, Except.bind]
            | found q =>
              simp only [bind, Except.bind]
              cases hq : top.at? q with
              | none => simp [hq, eq_comm]
              | some m => cases m <;> simp [hq, Option.filter_some, Node.isDir, eq_comm]

/-- A root at which a search starts has a place. -/
theorem exists_canonical {top n : Node} {base : Place} {root : Text}
    (h : rootNode top base root = .ok n) :
    ∃ place, top.canonical base root = .ok place ∧
      (top.at? place = some n ∨ ∃ target, n = .link target) := by
  obtain ⟨p, m, hspot, hm, ⟨hlink, rfl⟩ | ⟨target, q, -, hspot, rfl⟩⟩ := rootNode_eq_ok.1 h
  · exact ⟨p, Node.canonical_of_locate_unfollowed hspot hm hlink, .inl hm⟩
  · refine ⟨q, Node.canonical_of_locate hspot, ?_⟩
    cases hq : (top.at? q).filter Node.isDir with
    | none => exact .inr ⟨target, rfl⟩
    | some m => exact .inl (Option.filter_eq_some_iff.1 hq).1

/-- The root of a search has a place, and the sources are different files below it. -/
structure Sources (top : Node) (base : Place) (root : Text) (place : Place)
    (sources : List Place) : Prop where
  root : top.canonical base root = .ok place
  nodup : sources.Nodup
  name : ∀ names ∈ sources, ∀ name ∈ names, IsName name
  content : ∀ names ∈ sources, ∃ b, top.at? (place ++ names) = some (.file b)

theorem exists_sources_of_rootNode {top n : Node} {base : Place} {root : Text}
    (ht : top.WellFormed) (h : rootNode top base root = .ok n) :
    ∃ place, Sources top base root place (d.sourcesIn root n) := by
  obtain ⟨place, hplace, hn⟩ := exists_canonical h
  have hfound : n.WellFormed ∧ ∀ names ∈ d.sourcesIn root n, ∃ b, n.at? names = some (.file b) ∧
      top.at? (place ++ names) = some (.file b) := by
    rcases hn with hn | ⟨target, rfl⟩
    · have hwf := (ht.at? hn).1
      refine ⟨hwf, fun names hmem => ?_⟩
      obtain ⟨b, hb⟩ := at?_of_mem_filesIn hwf (mem_filesIn_of_mem_sourcesIn hmem)
      exact ⟨b, hb, by rw [Node.at?_append, hn, Option.bind_some, hb]⟩
    · refine ⟨.link target, fun names hmem => ?_⟩
      have hnone := mem_filesIn_of_mem_sourcesIn hmem
      simp [filesIn] at hnone
  refine ⟨place, hplace, nodup_sourcesIn hfound.1 d root, fun names hmem => ?_,
    fun names hmem => ?_⟩
  · obtain ⟨b, hb, -⟩ := hfound.2 names hmem
    exact (hfound.1.at? hb).2
  · obtain ⟨b, -, hb⟩ := hfound.2 names hmem
    exact ⟨b, hb⟩

theorem files_eq_ok {top : Node} {base : Place} {root : Text} {paths : List Text} :
    d.files top base root = .ok paths ↔
      ∃ n, rootNode top base root = .ok n ∧
        paths = (d.sourcesIn root n).map (Path.joinAll root) := by
  rw [files]
  cases rootNode top base root with
  | error fault => simp
  | ok n => simp [eq_comm]

/-- The search of the directory that the root is seen from. -/
theorem files_here {top : Node} {here : Place} {es : List (Text × Node)}
    (hd : top.at? here = some (.dir es)) :
    d.files top here ['.'] = .ok ((d.sourcesIn ['.'] (.dir es)).map (Path.joinAll ['.'])) :=
  files_eq_ok.2 ⟨_, rootNode_eq_ok.2 ⟨here, _, Node.locate_here hd false, hd,
    .inl ⟨Node.dir_ne_link es, rfl⟩⟩, rfl⟩

theorem exists_sources {top : Node} {base : Place} {root : Text} {paths : List Text}
    (ht : top.WellFormed) (h : d.files top base root = .ok paths) :
    ∃ (place : Place) (sources : List Place), paths = sources.map (Path.joinAll root) ∧
      Sources top base root place sources := by
  obtain ⟨n, hroot, rfl⟩ := files_eq_ok.1 h
  obtain ⟨place, hsources⟩ := exists_sources_of_rootNode ht hroot
  exact ⟨place, d.sourcesIn root n, rfl, hsources⟩

end GuardedCalls.Discovery
