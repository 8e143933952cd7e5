import GuardedCalls.Proofs.Rewrite.Protection
import GuardedCalls.Proofs.Text.Utf8
import GuardedCalls.Proofs.Tree.Replace
import GuardedCalls.Proofs.Workspace.Entry
import GuardedCalls.Workspace.Fix
import Mathlib.Data.List.Forall2

/-! Fixing source files one after the other. Whether an entry is fixed is settled by the shape of the
tree, and no entry changes the file of another. -/

namespace GuardedCalls

theorem Outcome.isFailed_of_isModified {o : Outcome} (h : o.isModified = true) :
    o.isFailed = false := by
  cases o with
  | modified => rfl
  | skipped => rfl
  | failed => contradiction

theorem Outcome.isModified_of_isFailed {o : Outcome} (h : o.isFailed = true) :
    o.isModified = false := by
  cases o with
  | modified => contradiction
  | skipped => contradiction
  | failed => rfl

namespace Fixer

theorem ofRoot_eq_ok {rules : RuleSet} {top : Node} {base : Place} {root : Text} {dryRun : Bool}
    {x : Fixer} : ofRoot rules top base root dryRun = .ok x ↔
      ∃ place, top.canonical base root = .ok place ∧
        x = ⟨rules, ⟨place, rules.discovery.ignoredDirs⟩, dryRun⟩ := by
  rw [ofRoot, Guard.ofPath]
  cases top.canonical base root with
  | error e => simp [bind, Except.bind]
  | ok place => simp [bind, Except.bind, pure, Except.pure, eq_comm]

/-- Whether the guard lets the name of a file through and the file can be replaced. -/
def accepts (x : Fixer) (top : Node) (file : Text) : Bool :=
  match x.guard.validate top file with
  | .ok place => decide (Node.Writable place ∧ Node.Stageable place)
  | .error _ => false

theorem accepts_congr (x : Fixer) {top after : Node} (hs : after.shape = top.shape) (file : Text) :
    x.accepts after file = x.accepts top file := by
  rw [accepts, accepts, Guard.validate_congr x.guard hs]

/-- What becomes of the entry of a report. -/
structure Fate (x : Fixer) (top : Node) (r : FileReport) (o : Outcome) : Prop where
  file : o.file = r.file
  modified : o.isModified = (r.needsFix && x.accepts top r.file)
  failed : o.isFailed = (r.needsFix && !x.accepts top r.file)

namespace Fate
variable {x : Fixer} {top : Node} {r : FileReport}

theorem of_skipped (hn : r.needsFix = false) (reason : SkipReason) :
    x.Fate top r (.skipped r.file reason) :=
  ⟨rfl, by simp [hn, Outcome.isModified], by simp [hn, Outcome.isFailed]⟩

theorem of_failed (hn : r.needsFix = true) (ha : x.accepts top r.file = false) (reason : Text) :
    x.Fate top r (.failed r.file reason) :=
  ⟨rfl, by simp [ha, Outcome.isModified], by simp [hn, ha, Outcome.isFailed]⟩

theorem of_modified (hn : r.needsFix = true) (ha : x.accepts top r.file = true) (calls : Nat)
    (importAdded : Bool) : x.Fate top r (.modified r.file calls importAdded) :=
  ⟨rfl, by simp [hn, ha, Outcome.isModified], by simp [ha, Outcome.isFailed]⟩

theorem modified_or_failed {o : Outcome} (h : x.Fate top r o) (hn : r.needsFix = true) :
    if x.accepts top r.file then o.isModified = true else o.isFailed = true := by
  rw [h.modified, h.failed, hn]
  cases x.accepts top r.file <;> simp

/-- The fate of an entry does not go by the contents of the files. -/
theorem congr {after : Node} (hs : after.shape = top.shape) {o : Outcome} (h : x.Fate after r o) :
    x.Fate top r o := by
  have haccepts := accepts_congr x hs r.file
  exact ⟨h.file, haccepts ▸ h.modified, haccepts ▸ h.failed⟩

end Fate
end Fixer

namespace Entry
variable {x : Fixer} {top : Node}

def hasCalls (rules : RuleSet) (e : Entry) : Bool := 0 < (e.report rules).issuesCount

@[simp] theorem file_report (rules : RuleSet) (e : Entry) : (e.report rules).file = e.file := rfl

/-- The fixer changes the file of the entry. -/
def isFixed (x : Fixer) (top : Node) (e : Entry) : Bool :=
  (e.report x.rules).needsFix && x.accepts top e.file

/-- The entry after its fix. -/
def fixed (x : Fixer) (top : Node) (e : Entry) : Entry :=
  if e.isFixed x top then
    { e with source := (x.rules.rewrite e.source (x.rules.findings e.source)).text }
  else e

theorem fixed_congr {after : Node} (hs : after.shape = top.shape) (e : Entry) :
    e.fixed x after = e.fixed x top := by
  rw [fixed, fixed, isFixed, isFixed, Fixer.accepts_congr x hs]

@[simp] theorem names_fixed (e : Entry) : (e.fixed x top).names = e.names := by
  rw [fixed]
  split <;> rfl

@[simp] theorem file_fixed (e : Entry) : (e.fixed x top).file = e.file := by
  rw [file, names_fixed, file]

theorem Holds.congr {e : Entry} {root : Place} {after : Node} (h : e.Holds root top)
    (hp : ∀ content, top.at? (root ++ e.names) = some (.file content) →
      after.at? (root ++ e.names) = some (.file content)) : e.Holds root after := by
  obtain ⟨b, hb, hdecode⟩ := h.content
  exact ⟨h.name, b, hp b hb, hdecode⟩

theorem findings_ne_nil {rules : RuleSet} {e : Entry} (h : e.hasCalls rules = true) :
    rules.findings e.source ≠ [] := by
  rw [hasCalls, decide_eq_true_iff] at h
  exact List.ne_nil_of_length_pos h

theorem needsFix_report (rules : RuleSet) (e : Entry) :
    (e.report rules).needsFix = (e.hasCalls rules && !rules.isProtected e.source) := rfl

/-- An entry that was fixed needs no more. -/
theorem needsFix_fixed (h : x.rules.WellFormed) (e : Entry) :
    ((e.fixed x top).report x.rules).needsFix =
      ((e.report x.rules).needsFix && !x.accepts top e.file) := by
  rw [fixed, isFixed]
  cases hn : (e.report x.rules).needsFix with
  | false => simpa using hn
  | true =>
    cases ha : x.accepts top e.file with
    | false => simpa using hn
    | true =>
      rw [needsFix_report, Bool.and_eq_true] at hn
      simp [needsFix_report, RuleSet.isProtected_rewrite h (findings_ne_nil hn.1)]

/-- Nor is it fixed again, if only contents have changed in the tree. -/
theorem isFixed_fixed (h : x.rules.WellFormed) {after : Node} (hs : after.shape = top.shape)
    (e : Entry) : (e.fixed x top).isFixed x after = false := by
  rw [isFixed, needsFix_fixed h, file_fixed, Fixer.accepts_congr x hs]
  simp

end Entry

namespace Fixer
variable {x : Fixer} {top : Node} {e : Entry}

/-- An entry that needs no fix is skipped, whatever the fixer and the tree. -/
theorem applyOne_of_not_needsFix {r : FileReport} (hn : r.needsFix = false) :
    ∃ reason, ∀ (x : Fixer) (top : Node), x.applyOne top r = (.skipped r.file reason, [], top) := by
  by_cases hcount : r.issuesCount = 0
  · exact ⟨_, fun x top => if_pos hcount⟩
  · have hprot : r.alreadyProtected = true := by
      simpa [FileReport.needsFix, Nat.pos_iff_ne_zero, hcount] using hn
    exact ⟨_, fun x top => (if_neg hcount).trans (if_pos hprot)⟩

theorem applyOne_of_needsFix {r : FileReport} (hn : r.needsFix = true) :
    x.applyOne top r =
      match x.plan top r with
      | .error e => applyOne.fail top r [] e
      | .ok p =>
        if p.isChange then
          match x.write top p with
          | .ok after => (.modified r.file p.rewrite.calls p.rewrite.importAdded, p.warnings, after)
          | .error e => applyOne.fail top r p.warnings e
        else (.skipped r.file .noChange, p.warnings, top) := by
  simp only [FileReport.needsFix, Bool.and_eq_true, decide_eq_true_eq, Bool.not_eq_true'] at hn
  exact (if_neg (Nat.ne_of_gt hn.1)).trans (if_neg (by simp [hn.2]))

theorem plan_eq_ok {r : FileReport} {p : Plan} : x.plan top r = .ok p ↔
    ∃ place b original, x.guard.validate top r.file = .ok place ∧
      top.read [] place.toText = .ok b ∧ Utf8.decode b = .ok original ∧
      p = ⟨r.file, place, original, x.rules.rewrite original r.issues,
        (if r.contentHash.any (· ≠ original.fingerprint) then [.changedSinceScan r.file] else []) ++
          (x.rules.rewrite original r.issues).warnings⟩ := by
  simp only [plan, bind_eq_ok, mapError_eq_ok, pure, Except.pure, Except.ok.injEq]
  constructor
  · rintro ⟨place, hv, b, hread, original, hdecode, rfl⟩
    exact ⟨place, b, original, hv, hread, hdecode, rfl⟩
  · rintro ⟨place, b, original, hv, hread, hdecode, rfl⟩
    exact ⟨place, hv, b, hread, original, hdecode, rfl⟩

/-- A file that is planned is there and has been read, so its place can be written. -/
theorem planned (ht : top.WellFormed) {r : FileReport} {p : Plan} (hplan : x.plan top r = .ok p) :
    x.guard.validate top r.file = .ok p.path ∧
      (∃ b, top.at? p.path = some (.file b)) ∧ p.path ≠ [] ∧ Node.Writable p.path := by
  obtain ⟨place, b, original, hv, hread, -, rfl⟩ := plan_eq_ok.1 hplan
  obtain ⟨hdir, m, hm, hlink⟩ := Guard.validate_found hv
  obtain ⟨hw, rfl⟩ := (Node.read_toText hdir hm hlink (ht.at? hm).2 []).1 hread
  refine ⟨hv, ⟨b, hm⟩, ?_, hw⟩
  rintro rfl
  obtain rfl : top = .file b := by simpa using hm
  contradiction

/-- Whether what is planned can be done. In a dry run nothing is staged. -/
def writes (x : Fixer) (p : Plan) : Bool :=
  x.dryRun || decide (Node.Stageable p.path)

/-- The tree after a plan is carried out. -/
def written (x : Fixer) (top : Node) (p : Plan) : Node :=
  if x.dryRun then top else top.put p.path (.file (Utf8.encode p.rewrite.text))

theorem written_dry (hdry : x.dryRun = true) (top : Node) (p : Plan) : x.written top p = top := by
  rw [written, hdry, if_pos rfl]

theorem written_real (hdry : x.dryRun = false) (top : Node) (p : Plan) :
    x.written top p = top.put p.path (.file (Utf8.encode p.rewrite.text)) := by
  rw [written, hdry, if_neg Bool.false_ne_true]

theorem write_planned (ht : top.WellFormed) {r : FileReport} {p : Plan}
    (hplan : x.plan top r = .ok p) :
    x.write top p = if x.writes p then .ok (x.written top p)
      else .error (.unwritten p.path (.failed .nameTooLong)) := by
  obtain ⟨-, ⟨b, hb⟩, hne, hw⟩ := planned ht hplan
  rw [write, writes, written]
  cases x.dryRun with
  | true => rfl
  | false =>
    by_cases hs : Node.Stageable p.path
    · have hreplace := (Node.replace_eq_ok ht hb hne [] (Utf8.encode p.rewrite.text)).2 ⟨hw, hs, rfl⟩
      simp [hreplace, hs]
    · have hreplace := Node.replace_of_not_stageable hne (ht.at? hb).2 hw hs top []
        (Utf8.encode p.rewrite.text)
      simp [hreplace, hs]

section Held
variable (ht : top.WellFormed) (he : e.Holds x.guard.root top) {place : Place}
  (hv : x.guard.validate top e.file = .ok place)
include ht he hv

/-- The file that the guard lets through is read if its place can be written. -/
theorem read_held {b : Bytes} : top.read [] place.toText = .ok b ↔
    Node.Writable place ∧ top.at? place = some (.file b) := by
  obtain ⟨c, hc, -⟩ := he.content
  obtain ⟨rfl, hne⟩ := Guard.validate_join he.name hc hv
  rw [Node.read_toText (Node.isDir_of_at? hc (by simp [hne])) hc (Node.file_ne_link c)
    (ht.at? hc).2 [], hc, Option.some.injEq]

/-- It is planned as its text would be rewritten. -/
theorem plan_report (hw : Node.Writable place) :
    ∃ p, x.plan top (e.report x.rules) = .ok p ∧ p.path = x.guard.root ++ e.names ∧
      p.original = e.source ∧ p.rewrite = x.rules.rewrite e.source (x.rules.findings e.source) := by
  obtain ⟨b, hb, hdecode⟩ := he.content
  obtain ⟨hplace, -⟩ := Guard.validate_join he.name hb hv
  have hread := (read_held ht he hv).2 ⟨hw, hplace ▸ hb⟩
  exact ⟨_, plan_eq_ok.2 ⟨place, b, e.source, hv, hread, hdecode, rfl⟩, hplace, rfl, rfl⟩

theorem plan_report_error (hw : ¬ Node.Writable place) :
    ∃ fault, x.plan top (e.report x.rules) = .error (.unreadable place fault) := by
  cases hread : top.read [] place.toText with
  | ok b => exact absurd ((read_held ht he hv).1 hread).1 hw
  | error fault =>
    refine ⟨fault, ?_⟩
    rw [plan, Entry.file_report, hv]
    simp only [Except.mapError, bind, Except.bind, hread]

end Held

section Needed
variable (h : x.rules.WellFormed) (ht : top.WellFormed) (he : e.Holds x.guard.root top)
  (hn : (e.report x.rules).needsFix = true)
include h ht he hn

/-- The plan of a file that needs a fix changes it. -/
theorem exists_plan {place : Place} (hv : x.guard.validate top e.file = .ok place)
    (hw : Node.Writable place) :
    ∃ p, x.plan top (e.report x.rules) = .ok p ∧ p.isChange = true ∧ p.path = place ∧
      p.path = x.guard.root ++ e.names ∧
      p.rewrite = x.rules.rewrite e.source (x.rules.findings e.source) := by
  obtain ⟨p, hplan, hpath, horiginal, hrewrite⟩ := plan_report ht he hv hw
  obtain ⟨hplanned, -⟩ := planned ht hplan
  rw [Entry.needsFix_report, Bool.and_eq_true, Bool.not_eq_true'] at hn
  have hchange := RuleSet.rewrite_ne h hn.2 (Entry.findings_ne_nil hn.1)
  exact ⟨p, hplan, by simpa [Plan.isChange, horiginal, hrewrite] using hchange,
    Except.ok.inj (hplanned.symm.trans hv), hpath, hrewrite⟩

variable (hdry : x.dryRun = false)
include hdry

theorem applyOne_of_accepts (ha : x.accepts top e.file = true) :
    ∃ calls importAdded warnings, x.applyOne top (e.report x.rules) =
      (.modified e.file calls importAdded, warnings, top.put (x.guard.root ++ e.names)
        (.file (Utf8.encode (x.rules.rewrite e.source (x.rules.findings e.source)).text))) := by
  rw [accepts] at ha
  split at ha
  · next place hv =>
    obtain ⟨hw, hs⟩ := of_decide_eq_true ha
    obtain ⟨p, hplan, hchange, rfl, hpath, hrewrite⟩ := exists_plan h ht he hn hv hw
    have hwrite := write_planned ht hplan
    rw [written_real hdry, writes, decide_eq_true hs, hpath, hrewrite] at hwrite
    rw [applyOne_of_needsFix hn, hplan]
    simp only [hchange, if_true, hwrite, Bool.or_true]
    exact ⟨_, _, _, rfl⟩
  · contradiction

theorem applyOne_of_refused (ha : x.accepts top e.file = false) :
    ∃ reason warnings, x.applyOne top (e.report x.rules) =
      (.failed e.file reason, warnings, top) := by
  rw [applyOne_of_needsFix hn]
  cases hv : x.guard.validate top e.file with
  | error fault =>
    have hplan : x.plan top (e.report x.rules) = .error (.unsafePath e.file fault) := by
      rw [plan, Entry.file_report, hv]
      rfl
    rw [hplan]
    exact ⟨_, _, rfl⟩
  | ok place =>
    rw [accepts, hv] at ha
    by_cases hw : Node.Writable place
    · -- the file is read, but no temporary file can be created beside it
      obtain ⟨p, hplan, hchange, rfl, -⟩ := exists_plan h ht he hn hv hw
      have hs : ¬ Node.Stageable p.path := fun hs => of_decide_eq_false ha ⟨hw, hs⟩
      have hwrite := write_planned ht hplan
      rw [writes, hdry, decide_eq_false hs] at hwrite
      rw [hplan]
      simp only [hchange, if_true, hwrite, Bool.or_false, Bool.false_eq_true, if_false]
      exact ⟨_, _, rfl⟩
    · obtain ⟨fault, hplan⟩ := plan_report_error ht he hv hw
      rw [hplan]
      exact ⟨_, _, rfl⟩

end Needed

/-- The step of a run: the file of the entry is replaced, or nothing changes. -/
theorem applyOne_report (h : x.rules.WellFormed) (hdry : x.dryRun = false) (ht : top.WellFormed)
    (he : e.Holds x.guard.root top) :
    x.Fate top (e.report x.rules) (x.applyOne top (e.report x.rules)).1 ∧
      (x.applyOne top (e.report x.rules)).2.2 =
        if e.isFixed x top then
          top.put (x.guard.root ++ e.names) (.file (Utf8.encode (e.fixed x top).source))
        else top := by
  cases hn : (e.report x.rules).needsFix with
  | false =>
    have hstill : ¬ e.isFixed x top = true := by simp [Entry.isFixed, hn]
    obtain ⟨reason, hskip⟩ := applyOne_of_not_needsFix hn
    rw [hskip, if_neg hstill]
    exact ⟨.of_skipped hn reason, rfl⟩
  | true =>
    have hfixed : e.isFixed x top = x.accepts top e.file := by simp [Entry.isFixed, hn]
    cases ha : x.accepts top e.file with
    | false =>
      obtain ⟨reason, warnings, hfail⟩ := applyOne_of_refused h ht he hn hdry ha
      rw [hfail, hfixed, ha, if_neg Bool.false_ne_true]
      exact ⟨.of_failed hn ha reason, rfl⟩
    | true =>
      obtain ⟨calls, importAdded, warnings, hmodify⟩ := applyOne_of_accepts h ht he hn hdry ha
      have htaken : e.isFixed x top = true := hfixed.trans ha
      rw [hmodify, if_pos htaken, Entry.fixed, if_pos htaken]
      exact ⟨.of_modified hn ha calls importAdded, rfl⟩

/-- What a run over entries leaves: a tree of the same shape, in which these entries are fixed and the
other files are as they were. -/
structure Settled (x : Fixer) (top : Node) (es : List Entry) (after : Node) : Prop where
  shape : after.shape = top.shape
  holds : ∀ e ∈ es, (e.fixed x top).Holds x.guard.root after
  other : ∀ (p : Place) (content : Bytes), (∀ e ∈ es, p ≠ x.guard.root ++ e.names) →
    top.at? p = some (.file content) → after.at? p = some (.file content)

namespace Settled
variable {after next : Node} {es : List Entry}

theorem nil (x : Fixer) (top : Node) : x.Settled top [] top :=
  ⟨rfl, by simp, fun _ _ _ hp => hp⟩

theorem holds_other (h : x.Settled top es after) (he : e.Holds x.guard.root top)
    (hne : ∀ e' ∈ es, e'.names ≠ e.names) : e.Holds x.guard.root after :=
  he.congr fun content => h.other _ content fun e' he' heq =>
    hne e' he' (List.append_cancel_left heq).symm

/-- Runs over different files follow each other. -/
theorem cons (h : x.Settled top [e] next) (hrest : x.Settled next es after)
    (hne : ∀ e' ∈ es, e'.names ≠ e.names) : x.Settled top (e :: es) after where
  shape := hrest.shape.trans h.shape
  holds e' he' := by
    rcases List.mem_cons.1 he' with rfl | he'
    · exact hrest.holds_other (h.holds e' List.mem_cons_self) (by simpa using hne)
    · rw [← Entry.fixed_congr h.shape]
      exact hrest.holds e' he'
  other p content hp hcontent := by
    obtain ⟨hpe, hp⟩ := List.forall_mem_cons.1 hp
    exact hrest.other p content hp (h.other p content (by simpa using hpe) hcontent)

/-- Entries without calls count as fixed where the others are. -/
theorem of_filter (h : x.Settled top (es.filter (Entry.hasCalls x.rules)) after)
    (hes : ∀ e ∈ es, e.Holds x.guard.root top) (hnodup : (es.map Entry.names).Nodup) :
    x.Settled top es after where
  shape := h.shape
  holds e he := by
    cases hcalls : e.hasCalls x.rules with
    | true => exact h.holds e (List.mem_filter.2 ⟨he, hcalls⟩)
    | false =>
      have hstill : e.fixed x top = e := by
        simp [Entry.fixed, Entry.isFixed, Entry.needsFix_report, hcalls]
      rw [hstill]
      refine h.holds_other (hes e he) fun e' he' heq => ?_
      obtain ⟨hmem, hcalls'⟩ := List.mem_filter.1 he'
      rw [List.inj_on_of_nodup_map hnodup hmem he heq, hcalls] at hcalls'
      contradiction
  other p content hp := h.other p content fun e he => hp e (List.mem_of_mem_filter he)

end Settled

theorem settled_applyOne (h : x.rules.WellFormed) (hdry : x.dryRun = false) (ht : top.WellFormed)
    (he : e.Holds x.guard.root top) :
    x.Settled top [e] (x.applyOne top (e.report x.rules)).2.2 := by
  rw [(applyOne_report h hdry ht he).2]
  obtain ⟨b, hb, -⟩ := he.content
  by_cases hfixed : e.isFixed x top = true
  · rw [if_pos hfixed]
    have hcontent := Node.at?_put_self hb (.file (Utf8.encode (e.fixed x top).source))
    have hholds : (e.fixed x top).Holds x.guard.root _ :=
      ⟨by simpa using he.name, _, by simpa using hcontent, Utf8.decode_encode _⟩
    exact ⟨ht.shape_put hb _, by simpa using hholds,
      fun p content hp hq => Node.at?_put_file hb hq (by simpa using hp) _⟩
  · rw [if_neg hfixed]
    have hstill : e.fixed x top = e := by rw [Entry.fixed, if_neg hfixed]
    exact ⟨rfl, by simpa [hstill] using he, fun _ _ _ hp => hp⟩

theorem apply_cons (x : Fixer) (top : Node) (r : FileReport) (rs : List FileReport) :
    x.apply top (r :: rs) =
      ((x.applyOne top r).1 :: (x.apply (x.applyOne top r).2.2 rs).1,
        (x.applyOne top r).2.1 ++ (x.apply (x.applyOne top r).2.2 rs).2.1,
        (x.apply (x.applyOne top r).2.2 rs).2.2) := rfl

/-- A run over entries of different files. The trees on the way have the shape of the first one, which
is all that the fates of the entries go by. -/
theorem apply_reports (h : x.rules.WellFormed) (hdry : x.dryRun = false) {es : List Entry}
    (ht : top.WellFormed) (hes : ∀ e ∈ es, e.Holds x.guard.root top)
    (hnodup : (es.map Entry.names).Nodup) :
    List.Forall₂ (x.Fate top) (es.map (Entry.report x.rules))
        (x.apply top (es.map (Entry.report x.rules))).1 ∧
      x.Settled top es (x.apply top (es.map (Entry.report x.rules))).2.2 := by
  induction es generalizing top with
  | nil => exact ⟨.nil, .nil x top⟩
  | cons e es ih =>
    obtain ⟨he, hrest⟩ := List.forall_mem_cons.1 hes
    obtain ⟨hnot, hnodup⟩ := List.nodup_cons.1 hnodup
    obtain ⟨hfate, -⟩ := applyOne_report h hdry ht he
    have hstep := settled_applyOne h hdry ht he
    have hne (e' : Entry) (he' : e' ∈ es) : e'.names ≠ e.names := fun heq =>
      hnot (heq ▸ List.mem_map_of_mem he')
    have hholds (e' : Entry) (he' : e' ∈ es) :=
      hstep.holds_other (hrest e' he') (by simpa using (hne e' he').symm)
    obtain ⟨hfates, hsettled⟩ := ih (ht.of_shape hstep.shape) hholds hnodup
    rw [List.map_cons, apply_cons]
    exact ⟨.cons hfate (hfates.imp fun _ _ => .congr hstep.shape), hstep.cons hsettled hne⟩

/-- A run that can fix none of its entries changes nothing. -/
theorem apply_of_not_isFixed (h : x.rules.WellFormed) (hdry : x.dryRun = false) {es : List Entry}
    (ht : top.WellFormed) (hes : ∀ e ∈ es, e.Holds x.guard.root top ∧ e.isFixed x top = false) :
    (x.apply top (es.map (Entry.report x.rules))).2.2 = top ∧
      ∀ o ∈ (x.apply top (es.map (Entry.report x.rules))).1, o.isModified = false := by
  induction es with
  | nil => exact ⟨rfl, by simp [apply]⟩
  | cons e es ih =>
    obtain ⟨⟨he, hstill⟩, hrest⟩ := List.forall_mem_cons.1 hes
    obtain ⟨hfate, hnext⟩ := applyOne_report h hdry ht he
    obtain ⟨hlast, hnone⟩ := ih hrest
    rw [hstill, if_neg Bool.false_ne_true] at hnext
    rw [List.map_cons, apply_cons, hnext]
    exact ⟨hlast, List.forall_mem_cons.2 ⟨hfate.modified.trans hstill, hnone⟩⟩

theorem file_applyOne (x : Fixer) (top : Node) (r : FileReport) :
    (x.applyOne top r).1.file = r.file := by
  rw [applyOne]
  repeat' split
  all_goals rfl

/-- The outcomes are those of the entries, one for each in their order. -/
theorem map_file_apply (x : Fixer) (top : Node) (rs : List FileReport) :
    (x.apply top rs).1.map Outcome.file = rs.map FileReport.file := by
  induction rs generalizing top with
  | nil => rfl
  | cons r rs ih => rw [apply_cons, List.map_cons, List.map_cons, file_applyOne, ih]

/-- Each entry that needs a fix is fixed or fails. -/
theorem Fate.countP {rs : List FileReport} {outcomes : List Outcome}
    (h : List.Forall₂ (x.Fate top) rs outcomes) :
    outcomes.countP Outcome.isModified + outcomes.countP Outcome.isFailed =
        rs.countP FileReport.needsFix ∧
      outcomes.countP Outcome.isFailed = rs.countP fun r => r.needsFix && !x.accepts top r.file := by
  induction h with
  | nil => exact ⟨rfl, rfl⟩
  | @cons r o rs os hfate _ ih =>
    simp only [List.countP_cons, hfate.modified, hfate.failed, ih.2]
    refine ⟨?_, trivial⟩
    rw [← ih.1, ih.2]
    cases r.needsFix <;> cases x.accepts top r.file <;> simp <;> omega

/-- The outcomes name the files that failed in their order. -/
theorem file_filter_isFailed {rs : List FileReport} {os : List Outcome}
    (h : List.Forall₂ (x.Fate top) rs os) :
    (os.filter Outcome.isFailed).map Outcome.file =
      (rs.filter fun r => r.needsFix && !x.accepts top r.file).map FileReport.file := by
  induction h with
  | nil => rfl
  | cons hfate _ ih =>
    rw [List.filter_cons, List.filter_cons, hfate.failed]
    split
    · rw [List.map_cons, List.map_cons, hfate.file, ih]
    · exact ih

end Fixer
end GuardedCalls
