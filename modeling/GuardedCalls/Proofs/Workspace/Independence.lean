import GuardedCalls.Proofs.Workspace.Fix

/-! Entries of a report that lead to different files. What becomes of one of them can be told from the
tree that the run begins with, so neither the others nor their order nor a dry run make a difference. -/

namespace GuardedCalls

/-- Two paths that the guard lets through do not lead to the same place. -/
def Guard.Apart (g : Guard) (top : Node) (s t : Text) : Prop :=
  ∀ p, g.validate top s = .ok p → g.validate top t ≠ .ok p

theorem Guard.Apart.symm {g : Guard} {top : Node} {s t : Text} (h : g.Apart top s t) :
    g.Apart top t s :=
  fun p ht hs => h p hs ht

theorem Guard.apart_congr (g : Guard) {top after : Node} (hs : after.shape = top.shape) (s t : Text) :
    g.Apart after s t ↔ g.Apart top s t := by
  simp only [Apart, g.validate_congr hs]

namespace Fixer
variable {x : Fixer} {top after next : Node} {r : FileReport} {rs : List FileReport}

/-- The plan by which an entry changes its file, if it does. -/
def change? (x : Fixer) (top : Node) (r : FileReport) : Option Plan :=
  if r.needsFix then (x.plan top r).toOption.filter fun p => p.isChange && x.writes p else none

theorem change?_eq_some {p : Plan} : x.change? top r = some p ↔
    r.needsFix = true ∧ x.plan top r = .ok p ∧ p.isChange = true ∧ x.writes p = true := by
  cases hn : r.needsFix <;> cases hp : x.plan top r <;>
    simp [change?, hn, hp, Except.toOption, Option.filter_eq_some_iff]

/-- What a fix does. The plan can fail, and then there can be no way to stage what is planned. -/
theorem applyOne_eq (ht : top.WellFormed) (hn : r.needsFix = true) :
    x.applyOne top r =
      match x.plan top r with
      | .error e => applyOne.fail top r [] e
      | .ok p =>
        if p.isChange then
          if x.writes p then
            (.modified r.file p.rewrite.calls p.rewrite.importAdded, p.warnings, x.written top p)
          else applyOne.fail top r p.warnings (.unwritten p.path (.failed .nameTooLong))
        else (.skipped r.file .noChange, p.warnings, top) := by
  rw [applyOne_of_needsFix hn]
  cases hplan : x.plan top r with
  | error e => rfl
  | ok p =>
    simp only [write_planned ht hplan]
    cases x.writes p <;> rfl

/-- An entry either changes its file or leaves the tree as it is. -/
theorem applyOne_cases (x : Fixer) (ht : top.WellFormed) (r : FileReport) :
    (∃ p, x.change? top r = some p ∧ (x.applyOne top r).1.isModified = true ∧
      (x.applyOne top r).2.2 = x.written top p) ∨
    (x.change? top r = none ∧ (x.applyOne top r).1.isModified = false ∧
      (x.applyOne top r).2.2 = top) := by
  cases hn : r.needsFix with
  | false =>
    obtain ⟨reason, hskip⟩ := applyOne_of_not_needsFix hn
    rw [hskip, change?, hn]
    exact Or.inr ⟨rfl, rfl, rfl⟩
  | true =>
    rw [applyOne_eq ht hn, change?, if_pos hn]
    cases hplan : x.plan top r with
    | error e => exact Or.inr ⟨rfl, rfl, rfl⟩
    | ok p =>
      cases hchange : p.isChange with
      | false => exact Or.inr (by simp [Except.toOption, Option.filter, hchange, Outcome.isModified])
      | true =>
        cases hwrites : x.writes p with
        | false =>
          exact Or.inr (by simp [Except.toOption, Option.filter, hchange, hwrites, applyOne.fail,
            Outcome.isModified])
        | true =>
          exact Or.inl (by simp [Except.toOption, Option.filter, hchange, hwrites,
            Outcome.isModified])

/-- What becomes of an entry goes by its plan alone. -/
theorem outcome_congr (ht : top.WellFormed) (ht' : after.WellFormed)
    (hplan : x.plan after r = x.plan top r) :
    (x.applyOne after r).1 = (x.applyOne top r).1 := by
  cases hn : r.needsFix with
  | false =>
    obtain ⟨reason, hskip⟩ := applyOne_of_not_needsFix hn
    rw [hskip, hskip]
  | true =>
    rw [applyOne_eq ht hn, applyOne_eq ht' hn, hplan]
    cases x.plan top r with
    | error e => rfl
    | ok p => cases hchange : p.isChange <;> cases hwrites : x.writes p <;>
        simp [hchange, hwrites, applyOne.fail]

/-- If the entry changes its file, the new content can be staged beside it. -/
def Stages (x : Fixer) (top : Node) (r : FileReport) : Prop :=
  r.needsFix = true → ∀ p, x.plan top r = .ok p → p.isChange = true → Node.Stageable p.path

/-- The outcome of an entry in a dry run, and the one when files are written. They differ only where
nothing can be staged, since a dry run does not try. -/
structure Foretold (x : Fixer) (top : Node) (r : FileReport) (os : Outcome × Outcome) : Prop where
  staged : x.Stages top r → os.1 = os.2
  unstaged : ¬ x.Stages top r → os.1.isModified = true ∧ os.2.isFailed = true

theorem Foretold.of_eq {o : Outcome} (h : x.Stages top r) : x.Foretold top r (o, o) :=
  ⟨fun _ => rfl, fun hnot => absurd h hnot⟩

theorem Foretold.ne {os : Outcome × Outcome} (h : x.Foretold top r os) (hs : ¬ x.Stages top r) :
    os.1 ≠ os.2 := by
  obtain ⟨hmodified, hfailed⟩ := h.unstaged hs
  intro hsame
  rw [← hsame, Outcome.isFailed_of_isModified hmodified] at hfailed
  contradiction

theorem foretold_applyOne (x : Fixer) (ht : top.WellFormed) (r : FileReport) :
    x.Foretold top r ((applyOne { x with dryRun := true } top r).1,
      (applyOne { x with dryRun := false } top r).1) := by
  cases hn : r.needsFix with
  | false =>
    obtain ⟨reason, hskip⟩ := applyOne_of_not_needsFix hn
    rw [hskip, hskip]
    exact .of_eq fun h => absurd (hn.symm.trans h) Bool.false_ne_true
  | true =>
    have hplan (dryRun : Bool) : Fixer.plan { x with dryRun } top r = x.plan top r := rfl
    rw [applyOne_eq ht hn, applyOne_eq ht hn, hplan true, hplan false]
    cases hp : x.plan top r with
    | error e => exact .of_eq fun _ p h => by simp [hp] at h
    | ok p =>
      by_cases hchange : p.isChange = true
      · have hstages : x.Stages top r ↔ Node.Stageable p.path := by simp [Stages, hn, hp, hchange]
        simp only [if_pos hchange, writes, Bool.true_or, if_true, Bool.false_or, decide_eq_true_eq]
        refine ⟨fun h => ?_, fun h => ?_⟩
        · rw [if_pos (hstages.1 h)]
        · rw [if_neg (mt hstages.2 h)]
          exact ⟨rfl, rfl⟩
      · simp only [if_neg hchange]
        refine .of_eq fun _ q hq hchange' => absurd ?_ hchange
        rw [Except.ok.inj (hp.symm.trans hq), hchange']

section Report
variable {e : Entry} {place : Place} (h : x.rules.WellFormed) (ht : top.WellFormed)
  (he : e.Holds x.guard.root top) (hn : (e.report x.rules).needsFix = true)
  (hv : x.guard.validate top e.file = .ok place) (hw : Node.Writable place)
include h ht he hn hv hw

theorem stages_report : x.Stages top (e.report x.rules) ↔ Node.Stageable place := by
  obtain ⟨p, hplan, hchange, rfl, -⟩ := exists_plan h ht he hn hv hw
  simp [Stages, hn, hplan, hchange]

/-- The entry of a file that can be replaced is fixed by its plan. -/
theorem modified_report (hdry : x.dryRun = false) (hs : Node.Stageable place) :
    (x.applyOne top (e.report x.rules)).1.isModified = true ∧
      ∀ p, x.plan top (e.report x.rules) = .ok p → p.path = place ∧
        p.rewrite = x.rules.rewrite e.source (x.rules.findings e.source) := by
  obtain ⟨p, hplan, -, hpath, -, hrewrite⟩ := exists_plan h ht he hn hv hw
  have ha : x.accepts top e.file = true := by simp [accepts, hv, hw, hs]
  obtain ⟨calls, importAdded, warnings, hmodify⟩ := applyOne_of_accepts h ht he hn hdry ha
  refine ⟨by rw [hmodify]; rfl, fun q hq => ?_⟩
  obtain rfl := Except.ok.inj (hplan.symm.trans hq)
  exact ⟨hpath, hrewrite⟩

end Report

/-- What a run over entries leaves when it writes: a tree of the same shape, in which the files that
they change have their new texts and the other files are as they were. -/
structure Applied (x : Fixer) (top : Node) (rs : List FileReport) (after : Node) : Prop where
  shape : after.shape = top.shape
  changed : ∀ r ∈ rs, ∀ p, x.change? top r = some p →
    after.at? p.path = some (.file (Utf8.encode p.rewrite.text))
  other : ∀ (q : Place) (b : Bytes), (∀ r ∈ rs, ∀ p, x.change? top r = some p → p.path ≠ q) →
    top.at? q = some (.file b) → after.at? q = some (.file b)

namespace Applied

theorem nil (x : Fixer) (top : Node) : x.Applied top [] top :=
  ⟨rfl, by simp, fun _ _ _ hq => hq⟩

/-- The plan of an entry stays the same while files are changed to which it does not lead. -/
theorem plan_eq (h : x.Applied top rs after) (ht : top.WellFormed)
    (hapart : ∀ s ∈ rs, x.guard.Apart top s.file r.file) : x.plan after r = x.plan top r := by
  rw [plan, plan, x.guard.validate_congr h.shape]
  cases hv : x.guard.validate top r.file with
  | error fault => rfl
  | ok place =>
    obtain ⟨hdir, m, hm, hlink⟩ := Guard.validate_found hv
    have hfile (b : Bytes) : top.at? place = some (.file b) → after.at? place = some (.file b) := by
      refine h.other place b fun s hs p hchange hp => ?_
      obtain ⟨-, hplan, -⟩ := change?_eq_some.1 hchange
      exact hapart s hs place (hp ▸ (planned ht hplan).1) hv
    have hread := Node.read_toText_congr hdir hm hlink (ht.at? hm).2 h.shape hfile []
    simp only [Except.mapError, bind, Except.bind, hread]

theorem change?_eq (h : x.Applied top rs after) (ht : top.WellFormed)
    (hapart : ∀ s ∈ rs, x.guard.Apart top s.file r.file) : x.change? after r = x.change? top r := by
  rw [change?, change?, h.plan_eq ht hapart]

/-- Runs over entries that lead to different files follow each other. -/
theorem cons (h : x.Applied top [r] next) (hrest : x.Applied next rs after) (ht : top.WellFormed)
    (hapart : ∀ s ∈ rs, x.guard.Apart top r.file s.file) : x.Applied top (r :: rs) after := by
  have hsame (s : FileReport) (hs : s ∈ rs) : x.change? next s = x.change? top s :=
    h.change?_eq ht (by simpa using hapart s hs)
  refine ⟨hrest.shape.trans h.shape, ?_, ?_⟩
  · rw [List.forall_mem_cons]
    refine ⟨fun p hp => ?_, fun s hs p hp => hrest.changed s hs p ((hsame s hs).trans hp)⟩
    refine hrest.other _ _ (fun s hs q hq hpath => ?_) (h.changed r List.mem_cons_self p hp)
    obtain ⟨-, hplan, -⟩ := change?_eq_some.1 hp
    obtain ⟨-, hplan', -⟩ := change?_eq_some.1 ((hsame s hs).symm.trans hq)
    exact hapart s hs _ (planned ht hplan).1 (hpath ▸ (planned ht hplan').1)
  · intro q b hq hb
    obtain ⟨hqr, hq⟩ := List.forall_mem_cons.1 hq
    refine hrest.other q b (fun s hs p hp => hq s hs p ((hsame s hs).symm.trans hp)) ?_
    exact h.other q b (by simpa using hqr) hb

/-- The same entries leave the same tree, whatever their order. -/
theorem unique {rs' : List FileReport} {after' : Node} (h : x.Applied top rs after)
    (h' : x.Applied top rs' after') (ht : top.WellFormed) (hmem : ∀ r, r ∈ rs' ↔ r ∈ rs) :
    after' = after := by
  refine (ht.of_shape h.shape).eq_of_shape (h'.shape.trans h.shape.symm) fun q b hb => ?_
  by_cases hex : ∃ r ∈ rs, ∃ p, x.change? top r = some p ∧ p.path = q
  · obtain ⟨r, hr, p, hp, rfl⟩ := hex
    rw [h.changed r hr p hp] at hb
    rw [h'.changed r ((hmem r).2 hr) p hp, hb]
  · have hother : ∀ r ∈ rs, ∀ p, x.change? top r = some p → p.path ≠ q := fun r hr p hp hpath =>
      hex ⟨r, hr, p, hp, hpath⟩
    obtain ⟨c, hc⟩ : ∃ c, top.at? q = some (.file c) := by
      have hshape := Node.at?_congr h.shape q
      rw [hb, Option.map_some, eq_comm, Option.map_eq_some_iff] at hshape
      obtain ⟨m, hm, hms⟩ := hshape
      cases m with
      | file c => exact ⟨c, hm⟩
      | link => simp [Node.shape] at hms
      | dir => simp [Node.shape] at hms
    have hbc := h.other q c hother hc
    rw [hb] at hbc
    rw [h'.other q c (fun r hr => hother r ((hmem r).1 hr)) hc, hbc]

end Applied

/-- The step of a run that writes. -/
theorem applied_applyOne (hdry : x.dryRun = false) (ht : top.WellFormed) (r : FileReport) :
    x.Applied top [r] (x.applyOne top r).2.2 := by
  obtain ⟨p, hchange, -, htree⟩ | ⟨hchange, -, htree⟩ := x.applyOne_cases ht r
  · obtain ⟨-, hplan, -⟩ := change?_eq_some.1 hchange
    obtain ⟨-, ⟨b, hb⟩, -, -⟩ := planned ht hplan
    rw [htree, written_real hdry]
    refine ⟨ht.shape_put hb _, ?_, fun q c hq hc => ?_⟩
    · simpa [hchange] using Node.at?_put_self hb _
    · have hne : q ≠ p.path := fun he => hq r List.mem_cons_self p hchange he.symm
      exact Node.at?_put_file hb hc hne _
  · rw [htree]
    exact ⟨rfl, by simp [hchange], fun _ _ _ hq => hq⟩

/-- The run of a fixer that writes. Each step leaves the plans of the entries still to come as they
were in the first tree. -/
theorem apply_applied (hdry : x.dryRun = false) (ht : top.WellFormed)
    (hapart : rs.Pairwise fun r s => x.guard.Apart top r.file s.file) :
    (x.apply top rs).1 = rs.map (fun r => (x.applyOne top r).1) ∧
      x.Applied top rs (x.apply top rs).2.2 := by
  induction rs generalizing top with
  | nil => exact ⟨rfl, .nil x top⟩
  | cons r rs ih =>
    obtain ⟨hr, hrest⟩ := List.pairwise_cons.1 hapart
    have hstep := applied_applyOne hdry ht r
    have hnext := ht.of_shape hstep.shape
    obtain ⟨houtcomes, happlied⟩ := ih hnext
      (hrest.imp fun hst => (x.guard.apart_congr hstep.shape _ _).2 hst)
    have hsame (s : FileReport) (hs : s ∈ rs) :
        (x.applyOne (x.applyOne top r).2.2 s).1 = (x.applyOne top s).1 :=
      outcome_congr ht hnext (hstep.plan_eq ht (by simpa using hr s hs))
    rw [apply_cons, List.map_cons]
    refine ⟨?_, hstep.cons happlied ht hr⟩
    simp only [houtcomes, List.map_congr_left hsame]

/-- A dry run takes every entry in the first tree. -/
theorem apply_dry (hdry : x.dryRun = true) (ht : top.WellFormed) (rs : List FileReport) :
    (x.apply top rs).1 = rs.map (fun r => (x.applyOne top r).1) ∧ (x.apply top rs).2.2 = top := by
  induction rs with
  | nil => exact ⟨rfl, rfl⟩
  | cons r rs ih =>
    have hstep : (x.applyOne top r).2.2 = top := by
      obtain ⟨p, -, -, htree⟩ | ⟨-, -, htree⟩ := x.applyOne_cases ht r
      · rw [htree, written_dry hdry]
      · exact htree
    rw [apply_cons, hstep, List.map_cons, ih.1]
    exact ⟨rfl, ih.2⟩

/-- A dry run foretells the run that writes. -/
theorem foretold_apply (x : Fixer) (ht : top.WellFormed)
    (hapart : rs.Pairwise fun r s => x.guard.Apart top r.file s.file) :
    let planned := (Fixer.apply { x with dryRun := true } top rs).1
    let outcomes := (Fixer.apply { x with dryRun := false } top rs).1
    List.Forall₂ (x.Foretold top) rs (planned.zip outcomes) ∧
      ((∀ r ∈ rs, x.Stages top r) → planned = outcomes) := by
  intro planned outcomes
  obtain ⟨hplanned, -⟩ := apply_dry (x := { x with dryRun := true }) rfl ht rs
  obtain ⟨houtcomes, -⟩ := apply_applied (x := { x with dryRun := false }) rfl ht hapart
  simp only [planned, outcomes, hplanned, houtcomes]
  refine ⟨?_, fun hstages => List.map_congr_left fun r hr =>
    (x.foretold_applyOne ht r).staged (hstages r hr)⟩
  rw [List.zip_map', List.forall₂_map_right_iff, List.forall₂_same]
  exact fun r _ => x.foretold_applyOne ht r

/-- The entries of different files lead to different places. -/
theorem pairwise_apart_report {es : List Entry} (hholds : ∀ e ∈ es, e.Holds x.guard.root top)
    (hnodup : (es.map Entry.names).Nodup) (rules : RuleSet) :
    (es.map (Entry.report rules)).Pairwise fun r s => x.guard.Apart top r.file s.file := by
  rw [List.pairwise_map]
  refine (List.pairwise_map.1 hnodup).imp_of_mem fun {e e'} he he' hne p hp hp' => hne ?_
  obtain ⟨b, hb, -⟩ := (hholds e he).content
  obtain ⟨b', hb', -⟩ := (hholds e' he').content
  obtain ⟨rfl, -⟩ := Guard.validate_join (hholds e he).name hb hp
  exact List.append_cancel_left (Guard.validate_join (hholds e' he').name hb' hp').1

theorem apply_singleton (x : Fixer) (top : Node) (r : FileReport) :
    (x.apply top [r]).1 = [(x.applyOne top r).1] := rfl

end Fixer
end GuardedCalls
