import GuardedCalls.Proofs.Tree.Resolve

/-! The last part of a path. The parts before it lead to a directory, which is also where the path
without its last component leads; there the last part is a name, unless the path can only mean a
directory. -/

namespace GuardedCalls
namespace Path

theorem join_parts (t : Text) : Text.join ['/'] (parts t) = t := by
  induction t with
  | nil => simp [parts, Text.join]
  | cons c t ih =>
    obtain ⟨p, ps, hp⟩ := List.exists_cons_of_ne_nil (parts_ne_nil t)
    rw [parts]
    split
    · next hc => simpa [Text.join, hc, hp] using ih
    · rw [hp] at ih ⊢
      cases ps with
      | nil => simpa [Text.join] using ih
      | cons q ps => simpa [Text.join] using ih

theorem isAbsolute_of_parts {t part : Text} {rest : List Text} (h : parts t = part :: rest)
    (hpart : part ≠ []) : isAbsolute t = false := by
  cases t with
  | nil => rfl
  | cons c t =>
    have hc : c ≠ '/' := by
      rintro rfl
      exact hpart (List.cons.inj h).1.symm
    simp [isAbsolute, hc]

theorem exists_parts_concat (t : Text) : ∃ front part, parts t = front ++ [part] ∧ '/' ∉ part := by
  obtain ⟨front, part, h⟩ := List.eq_nil_or_concat' (parts t) |>.resolve_left (parts_ne_nil t)
  exact ⟨front, part, h, slash_notMem_of_mem_parts (h ▸ List.mem_concat_self)⟩

/-- The parts of a path that lead away from where they are followed. -/
def isStep (part : Text) : Bool :=
  part ≠ [] && part ≠ ['.']

theorem joined_ne_nil {part : Text} {rest : List Text} (hslash : ∀ p ∈ part :: rest, '/' ∉ p)
    (hpart : part ≠ []) : Text.join ['/'] (part :: rest) ≠ [] := by
  intro hnil
  have hjoin := parts_join hslash (List.cons_ne_nil part rest)
  rw [hnil] at hjoin
  exact hpart (List.cons.inj hjoin).1.symm

/-- The steps to a place are read again from a path that starts at the root. -/
theorem filter_isStep_root {front : List Text} (hslash : ∀ part ∈ front, '/' ∉ part) :
    (parts ('/' :: Text.join ['/'] (front.filter isStep))).filter isStep = front.filter isStep := by
  have hsplit := parts_append [] (Text.join ['/'] (front.filter isStep))
  have hroot : (parts []).filter isStep = [] := rfl
  rw [List.nil_append] at hsplit
  rw [hsplit, List.filter_append, hroot, List.nil_append]
  by_cases hfront : front.filter isStep = []
  · rw [hfront]
    exact hroot
  · rw [parts_join (fun part hmem => hslash part (List.mem_filter.1 hmem).1) hfront,
      List.filter_filter]
    simp

section Parent
variable {path name : Text} {front : List Text}

theorem filter_isStep_concat (hn : IsName name) :
    (front ++ [name]).filter isStep = front.filter isStep ++ [name] := by
  simp [isStep, hn.nonempty, hn.here]

theorem parent?_of_components {cs : List Text} (h : components path = cs ++ [name])
    (hne : (cs ++ [name]).head? ≠ some ['/']) : parent? path = some (Text.join ['/'] cs) := by
  rw [parent?, h]
  cases cs with
  | nil =>
    have hname : name ≠ ['/'] := by simpa using hne
    simp [hname]
  | cons c cs =>
    have hc : c ≠ ['/'] := by simpa using hne
    have hlast : (c :: (cs ++ [name])).dropLast = c :: cs := by
      rw [← List.cons_append, List.dropLast_concat]
    simp [hc, hlast]

theorem parent?_of_isAbsolute (hparts : parts path = front ++ [name]) (hn : IsName name)
    (habs : isAbsolute path = true) :
    parent? path = some ('/' :: Text.join ['/'] (front.filter isStep)) := by
  have hcomponents : components path = ['/'] :: (front.filter isStep ++ [name]) := by
    rw [components, if_pos habs, hparts]
    exact congrArg _ (filter_isStep_concat hn)
  obtain ⟨c, cs, hcs⟩ := List.exists_cons_of_ne_nil (l := front.filter isStep ++ [name]) (by simp)
  have hlast : (c :: cs).dropLast = front.filter isStep := by rw [← hcs, List.dropLast_concat]
  rw [parent?, hcomponents, hcs, ← hlast]
  rfl

/-- A path as seen from a directory has its components, and a point in front does not lead away. -/
theorem components_of_not_isAbsolute (hparts : parts path = front ++ [name]) (hn : IsName name)
    (habs : isAbsolute path = false) :
    ∃ here : List Text, (∀ part ∈ here, part = ['.']) ∧
      components path = here ++ front.filter isStep ++ [name] := by
  have hinner : (parts path).filter (fun p => p ≠ [] && p ≠ ['.']) = front.filter isStep ++ [name] :=
    hparts ▸ filter_isStep_concat hn
  rw [components, habs, if_neg Bool.false_ne_true, hinner]
  split
  · exact ⟨[['.']], by simp, by simp⟩
  · exact ⟨[], by simp, by simp⟩

theorem directory?_eq {parent : Text} (h : parent? path = some parent) :
    directory? path = some (if parent.isEmpty then ['.'] else parent) := by
  rw [directory?, h, Option.map_some]

/-- The directory of a path is where its parts before the last one lead. -/
theorem exists_directory (hparts : parts path = front ++ [name]) (hn : IsName name) :
    ∃ directory, directory? path = some directory ∧ directory ≠ [] ∧
      isAbsolute directory = isAbsolute path ∧
      (parts directory).filter isStep = front.filter isStep ∧
      ('\x00' ∉ path → '\x00' ∉ directory) := by
  have hslash : ∀ part ∈ front, '/' ∉ part := fun part hmem =>
    slash_notMem_of_mem_parts (hparts ▸ List.mem_append_left _ hmem)
  have hnul (h : '\x00' ∉ path) : ∀ part ∈ front, '\x00' ∉ part := fun part hmem =>
    (notMem_join (by decide)).1 ((join_parts path).symm ▸ h) part
      (hparts ▸ List.mem_append_left _ hmem)
  cases habs : isAbsolute path with
  | true =>
    have hdirectory := directory?_eq (parent?_of_isAbsolute hparts hn habs)
    rw [List.isEmpty_cons, if_neg Bool.false_ne_true] at hdirectory
    refine ⟨_, hdirectory, by simp, rfl, filter_isStep_root hslash, fun h => ?_⟩
    rw [List.mem_cons, not_or]
    exact ⟨by decide, (notMem_join (by decide)).2 fun part hmem =>
      hnul h part (List.mem_filter.1 hmem).1⟩
  | false =>
    obtain ⟨here, hhere, hcomponents⟩ := components_of_not_isAbsolute hparts hn habs
    generalize hcs : here ++ front.filter isStep = cs at hcomponents
    have hcase {part : Text} (hmem : part ∈ cs) : part = ['.'] ∨ part ∈ front ∧ part ≠ [] := by
      rw [← hcs, List.mem_append, List.mem_filter] at hmem
      exact hmem.imp (hhere part) fun ⟨hfront, hstep⟩ => ⟨hfront, by simp_all [isStep]⟩
    have hcsSlash : ∀ part ∈ cs, '/' ∉ part := fun part hmem =>
      (hcase hmem).elim (by rintro rfl; decide) fun h => hslash part h.1
    have hstep : cs.filter isStep = front.filter isStep := by
      have hnone : here.filter isStep = [] :=
        List.filter_eq_nil_iff.2 fun part hmem => by simp [hhere part hmem, isStep]
      rw [← hcs, List.filter_append, hnone, List.filter_filter]
      simp
    have hhead : (cs ++ [name]).head? ≠ some ['/'] := by
      intro hhead
      rcases List.mem_append.1 (List.mem_of_head? hhead) with hmem | hmem
      · exact hcsSlash _ hmem (by simp)
      · exact hn.slash (by simp [← List.mem_singleton.1 hmem])
    refine ⟨_, directory?_eq (parent?_of_components hcomponents hhead), ?_⟩
    by_cases hnil : cs = []
    · rw [← hstep, hnil]
      simp [Text.join, isAbsolute, parts, isStep]
    · have hjoin := parts_join hcsSlash hnil
      obtain ⟨part, rest, hcons⟩ := List.exists_cons_of_ne_nil hnil
      have hpart : part ≠ [] :=
        (hcase (hcons ▸ List.mem_cons_self)).elim (by rintro rfl; simp) fun h => h.2
      have hne : Text.join ['/'] cs ≠ [] := by
        subst hcons
        exact joined_ne_nil hcsSlash hpart
      rw [if_neg (by simpa using hne), hjoin, hstep]
      refine ⟨hne, isAbsolute_of_parts (hjoin.trans hcons) hpart, rfl, fun h => ?_⟩
      refine (notMem_join (by decide)).2 fun part hmem => ?_
      exact (hcase hmem).elim (by rintro rfl; decide) fun hfront => hnul h part hfront.1

end Parent
end Path

/-- The place of a spot, whether or not a node is there. -/
def Spot.place : Spot → Place
  | .found place => place
  | .absent parent name _ => parent ++ [name]

namespace Node
variable {top : Node} {base here place : Place} {es : List (Text × Node)} {path name : Text}
  {front : List Text}

/-- A file can stand at the spot: no directory is there, and no slashes ask for one. -/
def TakesFile (top : Node) : Spot → Prop
  | .found place => ∀ es, top.at? place ≠ some (.dir es)
  | .absent _ _ slashes => slashes = false

theorem lead_of_not_dir (h : ∀ es, top.at? here ≠ some (.dir es)) (part : Text) :
    top.lead here part = .fault .notDirectory := by
  rw [lead]
  split
  · next es hd => exact absurd hd (h es)
  · rfl

theorem lead_of_not_isStep (hd : top.at? here = some (.dir es)) {part : Text}
    (hpart : ¬ Path.isStep part = true) : top.lead here part = .goes here := by
  have hstay : part = [] ∨ part = ['.'] := by
    by_contra hne
    rw [not_or] at hne
    exact hpart (by simp [Path.isStep, hne])
  rw [lead, hd]
  exact if_pos (by simpa using hstay)

/-- A walk to a directory may leave out the parts that do not lead away. -/
theorem walk_filter (hd : top.at? place = some (.dir es)) (links : Nat) (here : Place)
    (parts : List Text) :
    walk top true links here parts = .ok (.found place) ↔
      walk top true links here (parts.filter Path.isStep) = .ok (.found place) := by
  induction links using Nat.strongRecOn generalizing here parts with
  | ind links ih =>
    induction parts generalizing here with
    | nil => rfl
    | cons part rest ihr =>
      by_cases hstep : Path.isStep part = true
      · rw [List.filter_cons_of_pos hstep, walk_cons, walk_cons]
        cases top.lead here part with
        | goes next => exact ihr next
        | missing => exact iff_of_false (by simp only; split <;> simp) (by simp only; split <;> simp)
        | fault e => rfl
        | link target =>
          simp only [Bool.not_true, Bool.and_false, Bool.false_eq_true, if_false]
          cases links with
          | zero => rfl
          | succ less =>
            -- What the link leads to is the same in both walks, idle parts included.
            have hless : less < less + 1 := Nat.lt_succ_self less
            have hsame : (Path.parts target ++ rest).filter Path.isStep =
                (Path.parts target ++ rest.filter Path.isStep).filter Path.isStep := by
              simp [List.filter_append, List.filter_filter]
            exact (ih less hless _ _).trans (hsame ▸ (ih less hless _ _).symm)
      · rw [List.filter_cons_of_neg hstep, walk_cons]
        by_cases hdir : ∃ all, top.at? here = some (.dir all)
        · obtain ⟨all, hall⟩ := hdir
          rw [lead_of_not_isStep hall hstep]
          exact ihr here
        · rw [not_exists] at hdir
          rw [lead_of_not_dir hdir]
          refine iff_of_false (by simp) fun hwalk => ?_
          cases hrest : rest.filter Path.isStep with
          | nil =>
            rw [hrest, walk_nil] at hwalk
            obtain rfl : here = place := by simpa using hwalk
            exact hdir es hd
          | cons next more =>
            rw [hrest, walk_cons, lead_of_not_dir hdir] at hwalk
            contradiction

/-- A path without its last component leads where its parts before the last one do. -/
theorem canonical_parent (hd : top.at? place = some (.dir es)) {directory : Text}
    (hne : directory ≠ []) (habs : Path.isAbsolute directory = Path.isAbsolute path)
    (hsteps : (Path.parts directory).filter Path.isStep = front.filter Path.isStep) :
    top.canonical base directory = .ok place ↔ '\x00' ∉ directory ∧
      walk top true maxLinks (start base path) front = .ok (.found place) := by
  have hstart : start base directory = start base path := by rw [start, habs, ← start]
  rw [canonical_eq_ok, walk_filter hd, hsteps, hstart, ← walk_filter hd]
  simp [hne]

/-- The last name of a path is found in its directory or is missing there. -/
theorem walk_name (hd : top.at? here = some (.dir es)) (hn : IsName name) (links : Nat) :
    walk top false links here [name] =
      if 255 < Utf8.size name then .error .nameTooLong
      else .ok (if (es.lookup name).isSome then .found (here ++ [name])
        else .absent here name false) := by
  rw [walk_cons, lead_name hd hn]
  by_cases hsize : 255 < Utf8.size name
  · simp [hsize]
  · rw [if_neg hsize, if_neg hsize]
    cases es.lookup name with
    | none => rfl
    | some node => cases node <;> simp [walk_nil]

theorem locate_concat (hparts : Path.parts path = front ++ [name]) (hn : IsName name)
    {spot : Spot} : top.locate base false path = .ok spot ↔
      (checkPath path = .ok () ∧ Utf8.size name ≤ 255) ∧ ∃ place es,
        walk top true maxLinks (start base path) front = .ok (.found place) ∧
        top.at? place = some (.dir es) ∧
        spot = if (es.lookup name).isSome then .found (place ++ [name])
          else .absent place name false := by
  rw [locate_eq_ok, hparts, and_assoc]
  refine and_congr_right fun _ => ⟨fun h => ?_, ?_⟩
  · obtain ⟨place, hfront⟩ := exists_of_walk_append hn.nonempty h
    obtain ⟨less, hrest⟩ := walk_append hfront false (List.cons_ne_nil name [])
    rw [hrest] at h
    by_cases hdir : ∃ es, top.at? place = some (.dir es)
    · obtain ⟨es, hd⟩ := hdir
      rw [walk_name hd hn] at h
      split at h
      · contradiction
      · next hsize => exact ⟨Nat.not_lt.1 hsize, place, es, hfront, hd, (Except.ok.inj h).symm⟩
    · rw [walk_cons, lead_of_not_dir (not_exists.1 hdir)] at h
      contradiction
  · rintro ⟨hsize, place, es, hfront, hd, rfl⟩
    obtain ⟨less, hrest⟩ := walk_append hfront false (List.cons_ne_nil name [])
    rw [hrest, walk_name hd hn, if_neg (Nat.not_lt.2 hsize)]

theorem locate_concat_of_front (hparts : Path.parts path = front ++ [name]) (hn : IsName name)
    (hfront : walk top true maxLinks (start base path) front = .ok (.found place))
    (hd : top.at? place = some (.dir es)) {spot : Spot} : top.locate base false path = .ok spot ↔
      (checkPath path = .ok () ∧ Utf8.size name ≤ 255) ∧
        spot = if (es.lookup name).isSome then .found (place ++ [name])
          else .absent place name false := by
  rw [locate_concat hparts hn]
  refine and_congr_right fun _ => ⟨?_, fun hspot => ⟨place, es, hfront, hd, hspot⟩⟩
  rintro ⟨place', es', hfront', hd', rfl⟩
  obtain rfl : place = place' := by simpa using hfront.symm.trans hfront'
  obtain rfl : es = es' := by simpa using hd.symm.trans hd'
  rfl

/-- A part that leads on, and not to a directory, can only be a name. -/
theorem isNaming_of_lead {part : Text} {l : Lead} (hm : top.lead here part = l)
    (hgoes : ∀ next es, l = .goes next → top.at? next ≠ some (.dir es)) (hfault : ∀ e, l ≠ .fault e) :
    Path.isStep part = true ∧ part ≠ ['.', '.'] := by
  obtain ⟨es, hd⟩ : ∃ es, top.at? here = some (.dir es) := by
    by_contra hdir
    exact hfault _ (hm.symm.trans (lead_of_not_dir (not_exists.1 hdir) part))
  refine ⟨?_, ?_⟩
  · by_contra hstep
    exact hgoes here es (hm.symm.trans (lead_of_not_isStep hd hstep)) hd
  · rintro rfl
    have hlead : top.lead here ['.', '.'] = .goes here.dropLast := by simp [lead, hd]
    rcases List.eq_nil_or_concat' here with rfl | ⟨above, name, rfl⟩
    · exact hgoes [] es (hm.symm.trans hlead) hd
    · obtain ⟨d, habove, hd⟩ := Option.bind_eq_some_iff.1 (at?_append top above [name] ▸ hd)
      obtain ⟨all, -, rfl, -, -⟩ := exists_of_at?_cons hd
      rw [List.dropLast_concat] at hlead
      exact hgoes above all (hm.symm.trans hlead) habove

theorem isNaming_of_walks {spot : Spot} {links : Nat} {parts : List Text}
    (h : Walks top false spot links here parts) (ht : top.TakesFile spot) :
    ∀ part ∈ parts.getLast?, Path.isStep part = true ∧ part ≠ ['.', '.'] := by
  induction h with
  | done => simp
  | @goes links here place part rest hm hrest ih =>
    cases rest with
    | nil =>
      cases hrest with
      | done hspot =>
        rw [hspot] at ht
        simpa using isNaming_of_lead hm (by rintro next es ⟨⟩; exact ht es) (by simp)
    | cons next rest => simpa [List.getLast?_cons_cons] using ih
  | @link links here part target rest _ hmore _ ih =>
    have hrest : rest ≠ [] := by simpa using hmore
    obtain ⟨next, rest, rfl⟩ := List.exists_cons_of_ne_nil hrest
    rw [List.getLast?_append_of_ne_nil _ hrest] at ih
    rwa [List.getLast?_cons_cons]
  | kept hm => simpa using isNaming_of_lead hm (by simp) (by simp)
  | @absent links here part rest hm _ hspot =>
    rw [hspot] at ht
    obtain rfl : rest = [] := by simpa [TakesFile] using ht
    simpa using isNaming_of_lead hm (by simp) (by simp)

/-- A path to a spot that takes a file ends with a name. -/
theorem exists_name_of_takesFile {spot : Spot} (h : top.locate base false path = .ok spot)
    (ht : top.TakesFile spot) : ∃ front name, Path.parts path = front ++ [name] ∧ IsName name := by
  obtain ⟨-, hwalk⟩ := locate_eq_ok.1 h
  obtain ⟨front, name, hparts, hslash⟩ := Path.exists_parts_concat path
  obtain ⟨hstep, habove⟩ :=
    isNaming_of_walks (walks_of_eq_ok hwalk) ht name (by simp [hparts])
  obtain ⟨hnonempty, hhere⟩ : name ≠ [] ∧ name ≠ ['.'] := by simpa [Path.isStep] using hstep
  exact ⟨front, name, hparts, hnonempty, hslash, hhere, habove⟩

end Node
end GuardedCalls
