import GuardedCalls.Proofs.Tree.Replace
import Mathlib

/-! What a replacement does to the whole tree: all of it at one place, or nothing anywhere. -/

namespace GuardedCalls.Node

/-- What a node is by itself. All directories are the same then. -/
def alone : Node → Node
  | .dir _ => .dir []
  | node => node

theorem alone_eq_file {n : Node} {content : Bytes} : n.alone = .file content ↔ n = .file content := by
  cases n <;> simp [alone]

/-- A file that is put where the path leads is the only node that was not there before. -/
theorem put_place {top : Node} {base : Place} {path : Text} {spot : Spot} (h : top.WellFormed)
    (hspot : top.locate base false path = .ok spot) (htakes : top.TakesFile spot)
    (content : Bytes) :
    let after := top.put spot.place (.file content)
    after.WellFormed ∧ ∀ q, (after.at? q).map alone =
      if q = spot.place then some (.file content) else (top.at? q).map alone := by
  obtain ⟨front, name, hparts, hn⟩ := exists_name_of_takesFile hspot htakes
  obtain ⟨-, place, es, -, hd, hfree, hplace⟩ :=
    (takesFile_iff hparts hn).1 ⟨spot, hspot, htakes, rfl⟩
  rw [hplace]
  refine ⟨?_, map_put_file (fun _ _ => rfl) hd hfree content⟩
  cases hl : es.lookup name with
  | none => exact wellFormed_put_new h hd hl hn content
  | some old => exact h.put ((at?_concat hd name).trans hl) (.file content)

/-- Replacing a file does all or nothing. If it fails, the tree is as it was. It succeeds if the new
content can be staged and the path leads to a spot for a file, a last link not being followed; then that
place alone is changed, and the new content is there. -/
theorem replace_atomic {top : Node} (h : top.WellFormed) (base : Place) (path : Text)
    (content : Bytes) :
    let result := (top.replace base path content).1
    let after := (top.replace base path content).2
    (∀ fault, result = .error fault → after = top) ∧
    (result = .ok () ↔ CanStage base path ∧
      ∃ spot, top.locate base false path = .ok spot ∧ top.TakesFile spot) ∧
    ∀ spot, top.locate base false path = .ok spot → result = .ok () →
      after.WellFormed ∧ after.at? spot.place = some (.file content) ∧
        ∀ q, q ≠ spot.place → (after.at? q).map alone = (top.at? q).map alone := by
  intro result after
  have hiff {tree : Node} : (result, after) = (.ok (), tree) ↔ _ := replace_iff h
  refine ⟨fun fault herror => ?_, ?_, fun spot hspot hok => ?_⟩
  · obtain ⟨_, hsame⟩ | ⟨_, _, _, _, -, -, -, -, -, hok⟩ := replace_cases h base path content
    · exact congrArg Prod.snd hsame
    · have hresult : result = .ok () := congrArg Prod.fst hok
      rw [herror] at hresult
      contradiction
  · constructor
    · intro hok
      obtain ⟨hstage, _, ⟨spot, hspot, htakes, -⟩, -⟩ := hiff.1 (Prod.ext hok rfl)
      exact ⟨hstage, spot, hspot, htakes⟩
    · rintro ⟨hstage, spot, hspot, htakes⟩
      exact congrArg Prod.fst (hiff.2 ⟨hstage, _, ⟨spot, hspot, htakes, rfl⟩, rfl⟩)
  · obtain ⟨-, _, ⟨spot', hspot', htakes, rfl⟩, hafter⟩ := hiff.1 (Prod.ext hok rfl)
    obtain rfl : spot = spot' := Except.ok.inj (hspot.symm.trans hspot')
    obtain ⟨hwell, hmap⟩ := put_place h hspot htakes content
    replace hafter : after = top.put spot.place (.file content) := hafter
    rw [hafter]
    refine ⟨hwell, ?_, fun q hq => (hmap q).trans (if_neg hq)⟩
    obtain ⟨m, hm, halone⟩ := Option.map_eq_some_iff.1 ((hmap spot.place).trans (if_pos rfl))
    rw [hm, alone_eq_file.1 halone]

/-- A link to a file is replaced and the file left alone, a link to its own directory is replaced under
a path that goes through it, and a directory is not replaced. -/
theorem replace_atomic_linked :
    let top : Node := .dir [("a.ts".toList, .file [1]), ("d".toList, .dir [
      ("l.ts".toList, .link "../a.ts".toList), ("s".toList, .link ".".toList)])]
    let replaced (path : String) := top.replace ["d".toList] path.toList [2]
    top.WellFormed ∧ (replaced "l.ts").1 = .ok () ∧
      (replaced "l.ts").2.at? ["d".toList, "l.ts".toList] = some (.file [2]) ∧
      ((replaced "l.ts").2.at? ["a.ts".toList]).map alone = some (.file [1]) ∧
      (replaced "s/s").2.at? ["d".toList, "s".toList] = some (.file [2]) ∧
      (replaced "../d").1 = .error (.failed .isDirectory) ∧ (replaced "../d").2 = top := by
  intro top replaced
  have ht : top.WellFormed := by decide +kernel
  have hlink : top.locate ["d".toList] false "l.ts".toList =
      .ok (.found ["d".toList, "l.ts".toList]) := by cbv
  have hself : top.locate ["d".toList] false "s/s".toList =
      .ok (.found ["d".toList, "s".toList]) := by cbv
  have hfault : (top.replace ["d".toList] "../d".toList [2]).1 =
      .error (.failed .isDirectory) := by cbv
  have hstage : CanStage ["d".toList] "l.ts".toList := ⟨['.'], by cbv, by decide⟩
  have hstage' : CanStage ["d".toList] "s/s".toList := ⟨['s'], by cbv, by decide⟩
  obtain ⟨-, hok, hafter⟩ := replace_atomic ht ["d".toList] "l.ts".toList [2]
  have hreplaced : (replaced "l.ts").1 = .ok () := hok.2 ⟨hstage, _, hlink, by rintro es ⟨⟩⟩
  obtain ⟨-, hnew, hrest⟩ := hafter _ hlink hreplaced
  obtain ⟨-, hok', hafter'⟩ := replace_atomic ht ["d".toList] "s/s".toList [2]
  obtain ⟨-, hnew', -⟩ := hafter' _ hself (hok'.2 ⟨hstage', _, hself, by rintro es ⟨⟩⟩)
  obtain ⟨hnothing, -, -⟩ := replace_atomic ht ["d".toList] "../d".toList [2]
  exact ⟨ht, hreplaced, hnew, hrest _ (by decide), hnew', hfault, hnothing _ hfault⟩

end GuardedCalls.Node
