import GuardedCalls.Proofs.Tree.Extension
import GuardedCalls.Proofs.Workspace.Convergence

/-! Searching and reading again after files were written. The sources that were found are found again,
and none besides them but the files written. -/

namespace GuardedCalls
open Node (Extends)
variable {top after : Node} {ps : List Place} {base place : Place} {root : Text}

theorem Node.Extends.exists_kind (h : Extends top ps after) {p : Place} {m : Node}
    (hm : top.at? p = some m) : ∃ m', after.at? p = some m' ∧ m'.kind = m.kind :=
  Option.map_eq_some_iff.1 (h.kind p m.kind (by rw [hm, Option.map_some]))

theorem Node.Extends.exists_file (h : Extends top ps after) {p : Place} {b : Bytes}
    (hb : top.at? p = some (.file b)) : ∃ c, after.at? p = some (.file c) :=
  Node.at?_of_kind_file (h.kind p .file (by rw [hb]; rfl))

/-- A rule set is loaded as before if its file was not written. -/
theorem RuleSet.load_extends (h : Extends top ps after) {config : Option Text} {rules : RuleSet}
    (hload : load top base config = .ok rules)
    (hplace : ∀ path ∈ config, ∀ p, after.canonical base path = .ok p → p ∉ ps) :
    load after base config = .ok rules := by
  cases config with
  | none => exact hload
  | some path =>
    rw [load] at hload ⊢
    cases hread : top.read base path with
    | error fault => simp [hread] at hload
    | ok content =>
      rw [h.read_eq hread (hplace path rfl)]
      simpa only [hread] using hload

/-- A run over entries changes their files alone. -/
theorem Fixer.Settled.extended {x : Fixer} {es : List Entry} (h : x.Settled top es after)
    (ht : top.WellFormed) : Extends top (es.map fun e => x.guard.root ++ e.names) after := by
  refine .of_shape ht h.shape fun q b hq hb => h.other q b (fun e he heq => hq ?_) hb
  rw [heq]
  exact List.mem_map_of_mem (f := fun e : Entry => x.guard.root ++ e.names) he

namespace Discovery
variable {d : Discovery}

/-- The root of a search stays what it is. -/
theorem rootNode_extends (h : Extends top ps after) {n : Node}
    (hn : rootNode top base root = .ok n) : ∃ n', rootNode after base root = .ok n' ∧
      ((∃ target, n = .link target ∧ n' = .link target) ∨
        ∃ place, top.canonical base root = .ok place ∧ top.at? place = some n ∧
          after.at? place = some n') := by
  obtain ⟨p, m, hspot, hm, ⟨hlink, hnm⟩ | ⟨target, q, rfl, hq, rfl⟩⟩ := rootNode_eq_ok.1 hn
  · obtain ⟨m', hm', hkind⟩ := h.exists_kind hm
    have hlink' (target : Text) (heq : m' = .link target) : False :=
      hlink target (Node.kind_eq_link.1 (hkind.symm.trans (Node.kind_eq_link.2 heq)))
    exact ⟨m', rootNode_eq_ok.2 ⟨p, m', h.locate_found hspot, hm', .inl ⟨hlink', rfl⟩⟩,
      .inr ⟨p, Node.canonical_of_locate_unfollowed hspot hm hlink, hnm ▸ hm, hm'⟩⟩
  · obtain ⟨link', hlink', hkind⟩ := h.exists_kind hm
    obtain rfl : link' = .link target := Node.kind_eq_link.1 hkind
    have hplace := Node.canonical_of_locate hq
    obtain ⟨m, hm', hlink⟩ := Node.canonical_found hplace
    obtain ⟨m', hm'', hkind⟩ := h.exists_kind hm'
    refine ⟨_, rootNode_eq_ok.2 ⟨p, _, h.locate_found hspot, hlink',
      .inr ⟨target, q, rfl, h.locate_found hq, rfl⟩⟩, ?_⟩
    rw [hm', hm'']
    cases m with
    | link target => exact absurd rfl (hlink target)
    | file b =>
      obtain ⟨b', rfl⟩ := Node.kind_eq_file.1 hkind
      exact .inl ⟨target, rfl, rfl⟩
    | dir es =>
      obtain ⟨es', rfl⟩ := Node.kind_eq_dir.1 hkind
      exact .inr ⟨q, hplace, hm', hm''⟩

/-- A search finds again what it found, and else only files that were written. -/
theorem exists_sources_extends (ht : top.WellFormed) (h : Extends top ps after) {files : List Text}
    (hfiles : d.files top base root = .ok files) :
    ∃ (place : Place) (sources sources' : List Place), files = sources.map (Path.joinAll root) ∧
      d.files after base root = .ok (sources'.map (Path.joinAll root)) ∧
      Sources top base root place sources ∧ Sources after base root place sources' ∧
      (∀ names ∈ sources, names ∈ sources') ∧
      ∀ names ∈ sources', names ∈ sources ∨ place ++ names ∈ ps := by
  obtain ⟨n, hn, rfl⟩ := files_eq_ok.1 hfiles
  obtain ⟨n', hn', hroot⟩ := rootNode_extends h hn
  obtain ⟨place, hsources⟩ := exists_sources_of_rootNode (d := d) ht hn
  obtain ⟨place', hsources'⟩ := exists_sources_of_rootNode (d := d) h.wellFormed hn'
  obtain rfl : place = place' := by
    have hcanonical := h.canonical_eq hsources.root
    rw [hsources'.root] at hcanonical
    exact (Except.ok.inj hcanonical).symm
  refine ⟨place, d.sourcesIn root n, d.sourcesIn root n', rfl, files_eq_ok.2 ⟨n', hn', rfl⟩,
    hsources, hsources', ?_⟩
  obtain ⟨target, rfl, rfl⟩ | ⟨p, hp, hat, hat'⟩ := hroot
  · exact ⟨fun _ hmem => hmem, fun _ hmem => .inl hmem⟩
  · obtain rfl : place = p := Except.ok.inj (hsources.root.symm.trans hp)
    have hbelow (names : Place) : top.at? (place ++ names) = n.at? names := by
      rw [Node.at?_append, hat, Option.bind_some]
    have hbelow' (names : Place) : after.at? (place ++ names) = n'.at? names := by
      rw [Node.at?_append, hat', Option.bind_some]
    have hwell := (ht.at? hat).1
    have hwell' := (h.wellFormed.at? hat').1
    refine ⟨fun names hmem => ?_, fun names hmem => ?_⟩
    · obtain ⟨⟨b, hb⟩, hkept⟩ := (mem_sourcesIn hwell).1 hmem
      rw [← hbelow] at hb
      have hfile := h.exists_file hb
      rw [hbelow'] at hfile
      exact (mem_sourcesIn hwell').2 ⟨hfile, hkept⟩
    · obtain ⟨⟨b, hb⟩, hkept⟩ := (mem_sourcesIn hwell').1 hmem
      rw [← hbelow'] at hb
      cases hnode : top.at? (place ++ names) with
      | none => exact .inr (h.fresh _ hnode (by simp [hb]))
      | some m =>
        obtain ⟨m', hm', hkind⟩ := h.exists_kind hnode
        obtain rfl : m' = .file b := Option.some.inj (hm'.symm.trans hb)
        obtain ⟨b', rfl⟩ := Node.kind_eq_file.1 hkind.symm
        rw [hbelow] at hnode
        exact .inl ((mem_sourcesIn hwell).2 ⟨⟨b', hnode⟩, hkept⟩)

namespace Sources
variable {sources : List Place} {names : List Text}

theorem extended (hs : Sources top base root place sources) (h : Extends top ps after) :
    Sources after base root place sources where
  root := h.canonical_eq hs.root
  nodup := hs.nodup
  name := hs.name
  content names hmem := by
    obtain ⟨b, hb⟩ := hs.content names hmem
    exact h.exists_file hb

/-- A source that is read is at the place of its path. -/
theorem canonical_of_read? (hs : Sources top base root place sources) (hmem : names ∈ sources)
    {e : Entry} (he : Entry.read? top base root names = some e) :
    top.canonical base (Path.joinAll root names) = .ok (place ++ names) := by
  obtain ⟨b, hb⟩ := hs.content names hmem
  obtain ⟨-, hread⟩ := Entry.read?_eq_some.1 he
  rw [Node.readSource_joinAll hs.root (hs.name names hmem) hb, Node.locate_shape] at hread
  cases hl : top.locate base true (Path.joinAll root names) with
  | error fault => simp [hl] at hread
  | ok spot =>
    obtain rfl := Node.locate_joinAll hs.root hb (hs.name names hmem) hl
    exact Node.canonical_of_locate hl

/-- A source is read as before if its path leads to none of the files written. -/
theorem read?_extends (hs : Sources top base root place sources) (h : Extends top ps after)
    (hmem : names ∈ sources)
    (hapart : ∀ p, after.canonical base (Path.joinAll root names) = .ok p → p ∉ ps) :
    Entry.read? after base root names = Entry.read? top base root names := by
  obtain ⟨b, hb⟩ := hs.content names hmem
  obtain ⟨c, hc⟩ := h.exists_file hb
  have hnames := hs.name names hmem
  have hroot := h.canonical_eq hs.root
  have hlocate := Node.locate_joinAll_congr hs.root hroot hb hc hnames
  have hread : after.readSource base (Path.joinAll root names) =
      top.readSource base (Path.joinAll root names) := by
    rw [Node.readSource_joinAll hroot hnames hc, Node.readSource_joinAll hs.root hnames hb,
      Node.locate_shape, Node.locate_shape, hlocate]
    cases hl : top.locate base true (Path.joinAll root names) with
    | error fault => rfl
    | ok spot =>
      rw [hl] at hlocate
      obtain rfl := Node.locate_joinAll hs.root hb hnames hl
      have hsame := h.content _ b (hapart _ (Node.canonical_of_locate hlocate)) hb
      obtain rfl : c = b := by simpa using hc.symm.trans hsame
      rfl
  rw [Entry.read?, hread, ← Entry.read?]

end Sources

end Discovery
end GuardedCalls
