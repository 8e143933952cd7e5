import GuardedCalls.Proofs.Scan.Site

/-! The receivers of a line. They are what the search from left to right finds that takes names as
long as it can and starts anew behind each call, and they can be read off the places where the
opening of a call stands: no place is passed over and no name is cut short. -/

namespace GuardedCalls
namespace Call
open Text (columns name? lastName isIdentifier isIdentChar)

theorem receiver?_eq_name? (method b : Text) : receiver? method (b ++ '.' :: method) = b.name? := by
  rw [receiver?_append, Text.name?_eq]

/-- The call whose opening stands at a column. -/
def openedAt? (line : Text) (i : Nat) : Option Call :=
  (name? (line.take i)).map fun v => ⟨i - v.length, v⟩

theorem openedAt?_shift {x : Text} (t : Text) (i : Nat) :
    openedAt? (x ++ '(' :: t) (x.length + 1 + i) =
      (openedAt? t i).map fun c => ⟨c.column + (x.length + 1), c.receiver⟩ := by
  have htake : (x ++ '(' :: t).take (x.length + 1 + i) = x ++ '(' :: t.take i := by
    rw [Nat.add_assoc, List.take_length_add_append, Nat.add_comm, List.take_succ_cons]
  rw [openedAt?, openedAt?, htake, Text.name?_append_cons x _ (by decide), Option.map_map]
  cases hname : name? (t.take i) with
  | none => rfl
  | some v =>
    have hlen := (Text.suffix_of_name? hname).length_le
    rw [List.length_take] at hlen
    simp
    omega

/-- Every opening of a call that has a name before it is that of one call, and there are no others. -/
theorem on_eq_columns {method : Text} (hm : '(' ∉ method) (line : Text) :
    on method line = (columns (opening method) line).filterMap (openedAt? line) := by
  have hopen : opening method = '.' :: method ++ ['('] := rfl
  induction line using Text.closing_induction '(' with
  | last x hx => rw [on_of_notMem hx, hopen, Text.columns_of_notMem hx, List.filterMap_nil]
  | stretch x t hx ih =>
    have hright : ((columns (opening method) t).map (x.length + 1 + ·)).filterMap
        (openedAt? (x ++ '(' :: t)) =
          (on method t).map fun c => ⟨c.column + (x.length + 1), c.receiver⟩ := by
      rw [ih, List.filterMap_map, List.map_filterMap]
      exact List.filterMap_congr fun i _ => openedAt?_shift t i
    rw [on_append x t hm hx, hopen, Text.columns_append_closing t (by simp [hm]) hx,
      List.filterMap_append, ← hopen, hright]
    congr 1
    by_cases hs : '.' :: method <:+ x
    · obtain ⟨b, rfl⟩ := hs
      have hcol : (b ++ '.' :: method).length - ('.' :: method).length = b.length := by simp
      have htake : (b ++ '.' :: method ++ '(' :: t).take b.length = b := by simp
      rw [if_pos (List.suffix_append b _), hcol, ofStretch?, receiver?_eq_name?,
        List.filterMap_cons, openedAt?, htake]
      cases name? b <;> simp
    · simp [ofStretch?_eq_none 0 hs, hs]

/-- The call that a text starts with, its name as long as it can be. -/
structure Front (method t name rest : Text) : Prop where
  isIdentifier : isIdentifier name = true
  text : t = name ++ (opening method ++ rest)
  longest : ∀ v, Text.isIdentifier v = true → v ++ opening method <+: t → v.length ≤ name.length

/-- The names of the calls that are met when a text is searched from the left, and searched again
behind each call that is found. -/
inductive Matched (method : Text) : Text → List Text → Prop
  | done : Matched method [] []
  | call {t name rest : Text} {names : List Text} :
      Front method t name rest → Matched method rest names → Matched method t (name :: names)
  | pass {c : Char} {t : Text} {names : List Text} :
      (∀ v, isIdentifier v = true → ¬ v ++ opening method <+: c :: t) →
        Matched method t names → Matched method (c :: t) names

theorem Front.isPrefix {method t v r : Text} (h : Front method t v r) : v ++ opening method <+: t :=
  ⟨r, by rw [h.text, List.append_assoc]⟩

theorem Front.ne_nil {method t v r : Text} (h : Front method t v r) : t ≠ [] := by
  rw [h.text]
  simp [opening]

theorem Front.unique {method t v w r s : Text} (h : Front method t v r) (h' : Front method t w s) :
    v = w ∧ r = s := by
  have hlen : v.length = w.length :=
    Nat.le_antisymm (h'.longest v h.isIdentifier h.isPrefix) (h.longest w h'.isIdentifier h'.isPrefix)
  obtain ⟨hname, hrest⟩ := List.append_inj (h.text.symm.trans h'.text) hlen
  exact ⟨hname, List.append_cancel_left hrest⟩

/-- At most one list of names is met in a text. -/
theorem Matched.unique {method t : Text} {vs ws : List Text} (h : Matched method t vs)
    (h' : Matched method t ws) : vs = ws := by
  induction h generalizing ws with
  | done =>
    cases h' with
    | done => rfl
    | call hf _ => exact absurd rfl hf.ne_nil
  | call hf _ ih =>
    cases h' with
    | done => exact absurd rfl hf.ne_nil
    | call hf' h' =>
      obtain ⟨rfl, rfl⟩ := hf.unique hf'
      rw [ih h']
    | pass hn _ => exact absurd hf.isPrefix (hn _ hf.isIdentifier)
  | pass hn _ ih =>
    cases h' with
    | call hf' _ => exact absurd hf'.isPrefix (hn _ hf'.isIdentifier)
    | pass _ h' => exact ih h'

theorem takeWhile_run {v t : Text} (hv : ∀ c ∈ v, isIdentChar c = true)
    (ht : ∀ c ∈ t.head?, isIdentChar c = false) : (v ++ t).takeWhile isIdentChar = v := by
  rw [List.takeWhile_append_of_pos hv]
  cases t with
  | nil => simp
  | cons c t => simp [ht c rfl]

/-- A name that opens a call takes up a whole run. -/
theorem prefix_run_iff {method v w t : Text} (hv : ∀ c ∈ v, isIdentChar c = true)
    (ht : ∀ c ∈ t.head?, isIdentChar c = false) (hw : isIdentifier w = true) :
    w ++ opening method <+: v ++ t ↔ w = v ∧ opening method <+: t := by
  constructor
  · rintro ⟨r, hr⟩
    have hrun := congrArg (List.takeWhile isIdentChar) hr
    have hpoint : ∀ c ∈ (opening method ++ r).head?, isIdentChar c = false := by
      simp [opening]
      decide
    rw [List.append_assoc, takeWhile_run (fun c => Text.isIdentChar_of_mem hw) hpoint,
      takeWhile_run hv ht] at hrun
    subst hrun
    rw [List.append_assoc] at hr
    exact ⟨rfl, r, List.append_cancel_left hr⟩
  · rintro ⟨rfl, h⟩
    exact (List.prefix_append_right_inj w).2 h

/-- No name is left to be found in a run that no call follows. -/
theorem Matched.pass_run {method v t : Text} {names : List Text} (h : Matched method t names)
    (hv : ∀ c ∈ v, isIdentChar c = true) (ht : ∀ c ∈ t.head?, isIdentChar c = false)
    (ho : ¬ opening method <+: t) : Matched method (v ++ t) names := by
  induction v with
  | nil => exact h
  | cons c v ih =>
    refine pass (fun w hw hp => ?_) (ih fun d hd => hv d (List.mem_cons_of_mem c hd))
    exact ho ((prefix_run_iff hv ht hw).1 hp).2

theorem not_prefix_of_not_isIdentStart {c : Char} {v n t : Text} (hc : Text.isIdentStart c = false)
    (hv : isIdentifier v = true) : ¬ v ++ n <+: c :: t := by
  cases v with
  | nil => simp [isIdentifier] at hv
  | cons d v =>
    intro h
    obtain ⟨rfl, -⟩ := List.cons_prefix_cons.1 h
    rw [(Text.isIdentifier_cons.1 hv).1] at hc
    contradiction

/-- The scan meets a call: it takes the name that it has passed. -/
theorem Matched.call_lastName {method x rest : Text} {names : List Text} (hx : lastName x ≠ [])
    (h : Matched method rest names) :
    Matched method (lastName x ++ (opening method ++ rest)) (lastName x :: names) := by
  have hpoint : ∀ c ∈ (opening method ++ rest).head?, isIdentChar c = false := by
    simp [opening]
    decide
  refine .call ⟨Text.isIdentifier_lastName hx, rfl, fun w hw hp => ?_⟩ h
  obtain ⟨rfl, -⟩ := (prefix_run_iff (fun c => Text.isIdentChar_of_mem_lastName) hpoint hw).1 hp
  exact Nat.le_refl _

/-- The scan goes one character further: the name that it has passed grows, or is given up. -/
theorem Matched.pass_lastName {method x t : Text} {c : Char} {names : List Text}
    (hcall : lastName x = [] ∨ ¬ opening method <+: c :: t)
    (h : Matched method (lastName (x ++ [c]) ++ t) names) :
    Matched method (lastName x ++ c :: t) names := by
  cases hc : isIdentChar c with
  | true =>
    rw [Text.lastName_concat x hc] at h
    split at h
    · simpa using h
    · rename_i hstart
      obtain ⟨hs, hx⟩ : Text.isIdentStart c = false ∧ lastName x = [] := by simpa using hstart
      rw [hx]
      exact .pass (fun v hv => not_prefix_of_not_isIdentStart hs hv) h
  | false =>
    have hs : Text.isIdentStart c = false := by
      rw [isIdentChar, Bool.or_eq_false_iff] at hc
      exact hc.1
    rw [Text.lastName_concat_of_not x hc] at h
    have hpass := Matched.pass (fun v hv => not_prefix_of_not_isIdentStart hs hv) h
    rcases hcall with hx | hopen
    · rwa [hx]
    · exact hpass.pass_run (fun d => Text.isIdentChar_of_mem_lastName) (by simp [hc]) hopen

/-- The induction is on what is left of the line, of which a call takes several characters at once; `x` is
what the scan has passed since the last call. -/
theorem matched_onFrom (method : Text) (i : Nat) (x t : Text) :
    Matched method (lastName x ++ t) ((onFrom method i 0 (lastName x).reverse t).map receiver) := by
  by_cases hcall : lastName x ≠ [] ∧ opening method <+: t
  · obtain ⟨hx, rest, rfl⟩ := hcall
    rw [onFrom_call i rest hx]
    exact (matched_onFrom method _ [] rest).call_lastName hx
  · cases t with
    | nil =>
      exact Matched.done.pass_run (fun c => Text.isIdentChar_of_mem_lastName) (by simp)
        (by simp [opening])
    | cons c t =>
      have hopen : lastName x = [] ∨ ¬ opening method <+: c :: t :=
        or_iff_not_imp_left.2 fun hx ho => hcall ⟨hx, ho⟩
      rw [onFrom_pass i hopen]
      exact (matched_onFrom method (i + 1) (x ++ [c]) t).pass_lastName hopen
termination_by t.length
decreasing_by
  · subst_vars
    simp [opening]
    omega
  · exact Nat.lt_succ_self _

theorem matched_receivers (method line : Text) : Matched method line (receivers method line) :=
  matched_onFrom method 0 [] line

end Call

/-- The search from left to right takes every opening of a call that has a name before it, and takes
the name whole. -/
theorem receivers_eq_names {method : Text} (hm : Text.isIdentifier method = true) (line : Text) :
    (∀ names, Call.Matched method line names ↔ names = receivers method line) ∧
      receivers method line =
        (Text.columns (Call.opening method) line).filterMap fun i => Text.name? (line.take i) := by
  have hparen : '(' ∉ method := Text.notMem_of_isIdentifier hm (by decide)
  have hmatched := Call.matched_receivers method line
  refine ⟨fun names => ⟨fun h => h.unique hmatched, fun h => h ▸ hmatched⟩, ?_⟩
  rw [receivers, Call.on_eq_columns hparen, List.map_filterMap]
  exact List.filterMap_congr fun i _ => by simp [Call.openedAt?, Function.comp_def]

/-- A name with a digit before it, the method as a receiver of its own, and digits alone. -/
theorem receivers_eq_names_chained :
    let method := "map".toList
    let line := "1$a.map(b.map.map(é2.map(f)))".toList
    Text.isIdentifier method = true ∧
      (∀ names, Call.Matched method line names ↔ names = ["$a".toList, "map".toList]) ∧
      (Text.columns (Call.opening method) line).filterMap (fun i => Text.name? (line.take i)) =
        ["$a".toList, "map".toList] := by
  intro method line
  have hm : Text.isIdentifier method = true := by decide
  have hreceivers : receivers method line = ["$a".toList, "map".toList] := by decide +kernel
  obtain ⟨hmatched, hnames⟩ := receivers_eq_names hm line
  rw [hreceivers] at hmatched hnames
  exact ⟨hm, hmatched, hnames.symm⟩

end GuardedCalls
