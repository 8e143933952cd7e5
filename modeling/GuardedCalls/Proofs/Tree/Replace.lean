import GuardedCalls.Proofs.Tree.Extension
import GuardedCalls.Proofs.Tree.Spot
import GuardedCalls.Tree.Replace

/-! Replacing a file in one step. The new content is staged in the directory of the path, where no walk
that succeeded before sees it. What is staged is then moved to the spot that the path names or taken away
again, so nothing else in the tree changes. -/

namespace GuardedCalls.Node

theorem freshName_notMem (names : List Text) : freshName names ∉ names := by
  intro h
  have hle := (List.sublist_flatten_of_mem h).length_le
  simp only [freshName, List.length_cons, List.length_replicate] at hle
  omega

theorem erase_concat {es : List (Text × Node)} {fresh : Text} (hf : fresh ∉ es.map Prod.fst)
    (new : Node) : (dir (es ++ [(fresh, new)])).erase [fresh] = dir es := by
  have hstay : es.filter (fun e => e.1 ≠ fresh) = es := by
    refine List.filter_eq_self.2 fun e he => ?_
    have hne : e.1 ≠ fresh := fun heq => hf (heq ▸ List.mem_map_of_mem he)
    simpa using hne
  rw [erase, List.filter_append, hstay]
  simp

/-- A node that is put under another name than that of the last entry leaves it there to be erased. -/
theorem erase_put_concat {es : List (Text × Node)} {fresh name : Text}
    (hf : fresh ∉ es.map Prod.fst) (hne : fresh ≠ name) (old new : Node) :
    ((dir (es ++ [(fresh, old)])).put [name] new).erase [fresh] = (dir es).put [name] new := by
  cases hl : es.lookup name with
  | none =>
    have hlookup : (es ++ [(fresh, old)]).lookup name = none := by
      have hb : (name == fresh) = false := by simpa using hne.symm
      rw [List.lookup_append, hl, List.lookup_cons, hb]
      rfl
    have hfirst := erase_concat hf old
    rw [put_name hlookup, put_name hl]
    rw [erase] at hfirst ⊢
    rw [List.filter_append, Node.dir.inj hfirst]
    simp [hne.symm]
  | some node =>
    have hlookup : (es ++ [(fresh, old)]).lookup name = some node := by
      rw [List.lookup_append, hl]
      rfl
    have hmodify : modifyEntry name (fun node => node.put [] new) (es ++ [(fresh, old)]) =
        modifyEntry name (fun node => node.put [] new) es ++ [(fresh, old)] := by
      simp [modifyEntry, hne]
    rw [put_cons hlookup, put_cons hl, hmodify]
    exact erase_concat (by simpa using hf) old

section Staged
variable {top : Node} {place : Place} {es : List (Text × Node)} {fresh : Text}
  (h : top.WellFormed) (hd : top.at? place = some (dir es)) (hf : fresh ∉ es.map Prod.fst)
include h hd hf

theorem erase_staged (new : Node) :
    (top.put (place ++ [fresh]) new).erase (place ++ [fresh]) = top := by
  rw [put_fresh h hd hf, h.erase_append hd _ (by simp), erase_concat hf, h.put_self hd]

/-- What was staged under a name of its own is put in another place instead. -/
theorem erase_put_staged {name : Text} (hne : fresh ≠ name) (new : Node) :
    ((top.put (place ++ [fresh]) new).put (place ++ [name]) new).erase (place ++ [fresh]) =
      top.put (place ++ [name]) new := by
  have hself := h.put_append hd (dir es) [name] new
  rw [h.put_self hd] at hself
  rw [put_fresh h hd hf, h.put_append hd, h.erase_append hd _ (by simp),
    erase_put_concat hf hne, hself]

theorem moveTo_staged (name : Text) (new : Node) :
    move.moveTo (top.put (place ++ [fresh]) new) (place ++ [fresh]) (place ++ [name]) =
      .ok (top.put (place ++ [name]) new) := by
  rw [move.moveTo]
  by_cases hne : fresh = name
  · rw [if_pos (by rw [hne]), hne]
  · have hplaces : place ++ [fresh] ≠ place ++ [name] := by simpa using hne
    rw [if_neg hplaces, at?_put_new h hd (lookup_eq_none hf)]
    exact congrArg _ (erase_put_staged h hd hf hne new)

variable {base : Place} {path name : Text} {front : List Text}

/-- What was staged in the directory of a path moves to its last name, if no directory is there. -/
theorem move_staged (hparts : Path.parts path = front ++ [name]) (hn : IsName name)
    (hfront : walk top true maxLinks (start base path) front = .ok (.found place))
    (content : Bytes) {after : Node} :
    (top.put (place ++ [fresh]) (.file content)).move base (place ++ [fresh]) path = .ok after ↔
      (checkPath path = .ok () ∧ Utf8.size name ≤ 255) ∧
        (∀ all, es.lookup name ≠ some (.dir all)) ∧
        after = top.put (place ++ [name]) (.file content) := by
  have hl := lookup_eq_none hf
  have hmoved := moveTo_staged h hd hf name (.file content)
  have hdir : (top.put (place ++ [fresh]) (.file content)).at? place =
      some (.dir (es ++ [(fresh, .file content)])) := by
    rw [put_fresh h hd hf, at?_put_self hd]
  have hfront' := walk_found_of_lead (fun _ _ _ => lead_eq_of_kind fun _ _ =>
    kind_put_new_of_some hd hl content) hfront
  generalize hstaged : top.put (place ++ [fresh]) (.file content) = staged at *
  have hlocate {spot : Spot} : staged.locate base false path = .ok spot ↔ _ :=
    locate_concat_of_front hparts hn hfront' hdir
  by_cases hok : checkPath path = .ok () ∧ Utf8.size name ≤ 255
  · have hspot := hlocate.2 ⟨hok, rfl⟩
    have hentry := at?_concat hdir name
    have hfree : (∀ all, es.lookup name ≠ some (.dir all)) ↔
        ∀ all, (es ++ [(fresh, Node.file content)]).lookup name ≠ some (.dir all) := by
      rw [List.lookup_append, List.lookup_cons]
      cases es.lookup name <;> cases name == fresh <;> simp
    have hlast : (Path.parts path).getLast? = some name := by rw [hparts, List.getLast?_concat]
    rw [and_iff_right hok, hfree, move, hok.1, ok_bind, hspot, ok_bind]
    cases hold : (es ++ [(fresh, Node.file content)]).lookup name with
    | none => simpa [hmoved] using eq_comm
    | some old =>
      simp only [Option.isSome_some, if_true, hlast, Option.some.injEq, hn.here, hn.above,
        hn.nonempty, decide_false, Bool.or_false, Bool.false_eq_true, if_false, hentry, hold,
        Option.any_some]
      cases old with
      | dir all => simp [isDir]
      | file => simpa [isDir, hmoved] using eq_comm
      | link => simpa [isDir, hmoved] using eq_comm
  · refine iff_of_false (fun hmove => ?_) fun hr => hok hr.1
    obtain ⟨_, -, hmove⟩ := bind_eq_ok.1 hmove
    obtain ⟨spot, hspot, -⟩ := bind_eq_ok.1 hmove
    exact hok (hlocate.1 hspot).1

end Staged

/-- Nothing is moved to a path that does not end with a name. -/
theorem exists_name_of_move {top after : Node} {base source : Place} {path : Text}
    (h : top.move base source path = .ok after) :
    ∃ front name, Path.parts path = front ++ [name] ∧ IsName name := by
  obtain ⟨_, -, h⟩ := bind_eq_ok.1 h
  obtain ⟨spot, hspot, h⟩ := bind_eq_ok.1 h
  cases spot with
  | found target =>
    obtain ⟨front, name, hparts, hslash⟩ := Path.exists_parts_concat path
    simp only [hparts, List.getLast?_concat, Option.some.injEq, Bool.or_eq_true,
      decide_eq_true_eq] at h
    split at h
    · contradiction
    next hpoints =>
    split at h
    · contradiction
    next hempty =>
    rw [not_or] at hpoints
    exact ⟨front, name, hparts, hempty, hslash, hpoints.1, hpoints.2⟩
  | absent parent name slashes =>
    cases slashes with
    | true => simp at h
    | false => exact exists_name_of_takesFile hspot rfl

section Replace
variable {top : Node} {base : Place} {path name : Text} {front : List Text} {content : Bytes}

/-- Under a path that ends with a name a file goes to that name in the directory before it, if no
directory has the name. -/
theorem takesFile_iff (hparts : Path.parts path = front ++ [name]) (hn : IsName name) {entry : Place} :
    (∃ spot, top.locate base false path = .ok spot ∧ top.TakesFile spot ∧ entry = spot.place) ↔
      (checkPath path = .ok () ∧ Utf8.size name ≤ 255) ∧ ∃ place es,
        walk top true maxLinks (start base path) front = .ok (.found place) ∧
        top.at? place = some (.dir es) ∧ (∀ all, es.lookup name ≠ some (.dir all)) ∧
        entry = place ++ [name] := by
  have hentry {place : Place} {es : List (Text × Node)} (hd : top.at? place = some (.dir es)) :
      let spot : Spot := if (es.lookup name).isSome then .found (place ++ [name])
        else .absent place name false
      spot.place = place ++ [name] ∧
        (top.TakesFile spot ↔ ∀ all, es.lookup name ≠ some (.dir all)) := by
    have hat := at?_concat hd name
    cases hl : es.lookup name with
    | none => simp [Spot.place, TakesFile]
    | some node => simp [Spot.place, TakesFile, hat, hl]
  simp only [locate_concat hparts hn]
  constructor
  · rintro ⟨_, ⟨hok, place, es, hfront, hd, rfl⟩, htakes, rfl⟩
    obtain ⟨hplace, hfree⟩ := hentry hd
    exact ⟨hok, place, es, hfront, hd, hfree.1 htakes, hplace⟩
  · rintro ⟨hok, place, es, hfront, hd, hnone, rfl⟩
    obtain ⟨hplace, hfree⟩ := hentry hd
    exact ⟨_, ⟨hok, place, es, hfront, hd, rfl⟩, hfree.2 hnone, hplace.symm⟩

theorem stage_eq_ok {directory : Text} {staging : Place × Node} :
    top.stage base directory content = .ok staging ↔
      checkPath (stagingPath base directory) = .ok () ∧ ∃ place es,
        top.canonical base directory = .ok place ∧ top.at? place = some (.dir es) ∧
        staging = (place ++ [freshName (es.map Prod.fst)],
          top.put (place ++ [freshName (es.map Prod.fst)]) (.file content)) := by
  rw [stage, bind_eq_ok]
  simp only [bind_eq_ok]
  constructor
  · rintro ⟨_, hpath, place, hplace, h⟩
    split at h
    · next es hd => exact ⟨hpath, place, es, hplace, hd, (Except.ok.inj h).symm⟩
    · contradiction
  · rintro ⟨hpath, place, es, hplace, hd, rfl⟩
    exact ⟨(), hpath, place, hplace, by simp only [hd]; rfl⟩

/-- The operating system accepts the path under which a file is staged. -/
def CanStage (base : Place) (path : Text) : Prop :=
  ∃ directory, Path.directory? path = some directory ∧
    checkPath (stagingPath base directory) = .ok ()

/-- A replacement leaves the tree as it was, or moves what it staged in the directory of the path. -/
theorem replace_cases (h : top.WellFormed) (base : Place) (path : Text) (content : Bytes) :
    (∃ fault, top.replace base path content = (.error fault, top)) ∨
      ∃ directory place es after, Path.directory? path = some directory ∧
        checkPath (stagingPath base directory) = .ok () ∧
        top.canonical base directory = .ok place ∧ top.at? place = some (.dir es) ∧
        (top.put (place ++ [freshName (es.map Prod.fst)]) (.file content)).move base
          (place ++ [freshName (es.map Prod.fst)]) path = .ok after ∧
        top.replace base path content = (.ok (), after) := by
  rw [replace]
  cases hdirectory : Path.directory? path with
  | none => exact .inl ⟨_, rfl⟩
  | some directory =>
    cases hstage : top.stage base directory content with
    | error e => exact .inl ⟨.failed e, by simp only [hstage]⟩
    | ok staging =>
      obtain ⟨hpath, place, es, hplace, hd, rfl⟩ := stage_eq_ok.1 hstage
      cases hmove : (top.put (place ++ [freshName (es.map Prod.fst)]) (.file content)).move base
          (place ++ [freshName (es.map Prod.fst)]) path with
      | ok after =>
        exact .inr ⟨directory, place, es, after, rfl, hpath, hplace, hd, hmove,
          by simp only [hstage, hmove]⟩
      | error e =>
        have herase := erase_staged h hd (freshName_notMem _) (.file content)
        exact .inl ⟨.failed e, by simp only [hstage, hmove, herase]⟩

/-- A file is replaced if its new content can be staged and the path leads to a spot that takes a
file. It is put there. -/
theorem replace_iff (h : top.WellFormed) {after : Node} :
    top.replace base path content = (.ok (), after) ↔
      CanStage base path ∧ ∃ entry, (∃ spot, top.locate base false path = .ok spot ∧
        top.TakesFile spot ∧ entry = spot.place) ∧ after = top.put entry (.file content) := by
  have hcases := replace_cases h base path content
  by_cases hname : ∃ front name, Path.parts path = front ++ [name] ∧ IsName name
  · obtain ⟨front, name, hparts, hn⟩ := hname
    obtain ⟨directory, hdirectory, hne, habs, hsteps, hnul⟩ := Path.exists_directory hparts hn
    have hcanonical {place : Place} {es : List (Text × Node)}
        (hd : top.at? place = some (.dir es)) : top.canonical base directory = .ok place ↔ _ :=
      canonical_parent hd hne habs hsteps
    simp only [takesFile_iff hparts hn]
    constructor
    · intro hr
      obtain ⟨fault, herror⟩ |
        ⟨directory', place, es, moved, hdirectory', hpath, hplace, hd, hmove, hmoved⟩ := hcases
      · simp [herror] at hr
      obtain rfl : directory = directory' := Option.some.inj (hdirectory.symm.trans hdirectory')
      obtain rfl : moved = after := by simpa using hmoved.symm.trans hr
      have hfront := ((hcanonical hd).1 hplace).2
      obtain ⟨hok, hfree, rfl⟩ :=
        (move_staged h hd (freshName_notMem _) hparts hn hfront content).1 hmove
      exact ⟨⟨directory, hdirectory, hpath⟩, _, ⟨hok, place, es, hfront, hd, hfree, rfl⟩, rfl⟩
    · rintro ⟨⟨directory', hdirectory', hpath⟩, _, ⟨hok, place, es, hfront, hd, hfree, rfl⟩, rfl⟩
      obtain rfl : directory = directory' := Option.some.inj (hdirectory.symm.trans hdirectory')
      have hplace := (hcanonical hd).2 ⟨hnul (checkPath_eq_ok.1 hok.1).1, hfront⟩
      have hmove := (move_staged h hd (freshName_notMem _) hparts hn hfront content).2
        ⟨hok, hfree, rfl⟩
      have hstage : top.stage base directory content = .ok _ :=
        stage_eq_ok.2 ⟨hpath, place, es, hplace, hd, rfl⟩
      simp only [replace, hdirectory, hstage, hmove]
  · refine iff_of_false (fun hr => ?_) ?_
    · obtain ⟨fault, herror⟩ | ⟨_, _, _, _, -, -, -, -, hmove, -⟩ := hcases
      · simp [herror] at hr
      · exact hname (exists_name_of_move hmove)
    · rintro ⟨-, _, ⟨spot, hspot, htakes, -⟩, -⟩
      exact hname (exists_name_of_takesFile hspot htakes)

end Replace

section Place
variable {top : Node} {p : Place}

/-- The operating system accepts the path under which a file at the place is staged. -/
def Stageable (p : Place) : Prop :=
  checkPath (Path.join (Place.toText p.dropLast) stagedName) = .ok ()

instance (p : Place) : Decidable (Stageable p) :=
  inferInstanceAs (Decidable (checkPath _ = .ok ()))

/-- A directory in which there is room for the path of a file with a short name, and none for that of a
temporary one. -/
def cramped : Place :=
  List.replicate 15 (List.replicate 255 'd') ++ [List.replicate 246 'd']

theorem not_stageable_cramped :
    Writable (cramped ++ ["a.ts".toList]) ∧ ¬ Stageable (cramped ++ ["a.ts".toList]) := by
  decide +kernel

theorem directory?_toText (hne : p ≠ []) (hnames : ∀ name ∈ p, IsName name) :
    Path.directory? p.toText = some (Place.toText p.dropLast) := by
  obtain ⟨above, name, rfl⟩ := List.eq_nil_or_concat' p |>.resolve_left hne
  have habove : ([] :: above).filter Path.isStep = above := by
    rw [List.filter_cons_of_neg (by simp [Path.isStep])]
    refine List.filter_eq_self.2 fun part hmem => ?_
    have hn := hnames part (List.mem_append_left _ hmem)
    simp [Path.isStep, hn.nonempty, hn.here]
  have hparts : Path.parts (Place.toText (above ++ [name])) = ([] :: above) ++ [name] :=
    Place.parts_toText hne hnames
  have hdirectory := Path.directory?_eq (Path.parent?_of_isAbsolute hparts
    (hnames name List.mem_concat_self) (Place.isAbsolute_toText _))
  rw [habove, List.isEmpty_cons, if_neg Bool.false_ne_true] at hdirectory
  rw [hdirectory, List.dropLast_concat, Place.toText_eq]

theorem stagingPath_dropLast (base p : Place) :
    stagingPath base (Place.toText p.dropLast) = Path.join (Place.toText p.dropLast) stagedName := by
  rw [stagingPath, Path.join_of_isAbsolute (Place.isAbsolute_toText _)]

theorem canStage_toText (hne : p ≠ []) (hnames : ∀ name ∈ p, IsName name) (base : Place) :
    CanStage base p.toText ↔ Stageable p := by
  rw [CanStage, directory?_toText hne hnames, Stageable, ← stagingPath_dropLast base]
  simp

/-- Replacing the file at a place puts the new content there. -/
theorem replace_eq_ok {b : Bytes} (h : top.WellFormed) (hp : top.at? p = some (.file b))
    (hne : p ≠ []) (base : Place) (content : Bytes) {after : Node} :
    top.replace base p.toText content = (.ok (), after) ↔
      Writable p ∧ Stageable p ∧ after = top.put p (.file content) := by
  have hnames := (h.at? hp).2
  have hlocate {spot : Spot} : top.locate base false p.toText = .ok spot ↔ _ :=
    locate_toText (isDir_of_at? hp hne) base false hp (file_ne_link b) hnames
  rw [replace_iff h, canStage_toText hne hnames]
  simp only [hlocate]
  constructor
  · rintro ⟨hstage, _, ⟨spot, ⟨hw, rfl⟩, -, rfl⟩, rfl⟩
    exact ⟨hw, hstage, rfl⟩
  · rintro ⟨hw, hstage, rfl⟩
    exact ⟨hstage, p, ⟨.found p, ⟨hw, rfl⟩, by simp [TakesFile, hp], rfl⟩, rfl⟩

/-- Where a file can be written but no file can be staged beside it, nothing is replaced. -/
theorem replace_of_not_stageable (hne : p ≠ []) (hnames : ∀ name ∈ p, IsName name) (hw : Writable p)
    (hs : ¬ Stageable p) (top : Node) (base : Place) (content : Bytes) :
    top.replace base p.toText content = (.error (.failed .nameTooLong), top) := by
  have hname : IsName stagedName := by decide
  have hnul : '\x00' ∉ Path.join (Place.toText p.dropLast) stagedName := by
    rw [Path.notMem_join_name (by decide) hname, Place.notMem_toText (by decide)]
    exact ⟨fun name hmem => (hw.isUsable name (List.dropLast_subset p hmem)).nul, by decide⟩
  have hlong := checkPath_eq_nameTooLong hnul
    (Path.join_name_ne_nil (Place.toText_ne_nil _) hname) hs
  have hstage : top.stage base (Place.toText p.dropLast) content = .error .nameTooLong := by
    rw [stage, stagingPath_dropLast, hlong]
    rfl
  rw [replace, directory?_toText hne hnames]
  simp only [hstage]

end Place

end GuardedCalls.Node
