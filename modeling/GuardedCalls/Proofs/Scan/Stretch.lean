import GuardedCalls.Proofs.Text.Identifier
import GuardedCalls.Proofs.Text.Search
import GuardedCalls.Scan.Call

/-! The calls of a line stretch by stretch. A call ends with its parenthesis, so the stretch before
a parenthesis decides whether there is a call, and the rest of the line is scanned anew. -/

namespace GuardedCalls
namespace Call
open Text (lastName isIdentifier)

/-- The receiver of the call of a method that a stretch ends with, the parenthesis left out. -/
def receiver? (method x : Text) : Option Text :=
  if '.' :: method <:+ x then
    let name := lastName (x.take (x.length - (method.length + 1)))
    if name = [] then none else some name
  else none

theorem receiver?_append (method b : Text) :
    receiver? method (b ++ '.' :: method) = if lastName b = [] then none else some (lastName b) := by
  have h : (b ++ '.' :: method).take ((b ++ '.' :: method).length - (method.length + 1)) = b := by
    simp
  rw [receiver?, if_pos (List.suffix_append _ _), h]

theorem receiver?_eq_some {method x v : Text} :
    receiver? method x = some v ↔ ∃ b, x = b ++ '.' :: method ∧ lastName b = v ∧ v ≠ [] := by
  constructor
  · intro h
    by_cases hx : '.' :: method <:+ x
    · obtain ⟨b, rfl⟩ := hx
      rw [receiver?_append] at h
      split at h
      · simp at h
      · obtain rfl := Option.some.inj h
        exact ⟨b, rfl, rfl, by assumption⟩
    · simp [receiver?, hx] at h
  · rintro ⟨b, rfl, rfl, hb⟩
    rw [receiver?_append, if_neg hb]

theorem receiver?_split {method x v : Text} (h : receiver? method x = some v) :
    ∃ b, x = b ++ v ++ '.' :: method ∧ lastName (b ++ v) = v := by
  obtain ⟨b, rfl, rfl, -⟩ := receiver?_eq_some.1 h
  obtain ⟨w, hw⟩ := Text.lastName_suffix b
  exact ⟨w, by rw [hw], by rw [hw]⟩

theorem isIdentifier_of_receiver? {method x v : Text} (h : receiver? method x = some v) :
    isIdentifier v = true := by
  obtain ⟨b, rfl, rfl, hb⟩ := receiver?_eq_some.1 h
  exact Text.isIdentifier_lastName hb

/-- A stretch ends with the text of a call exactly if it has a call whose receiver ends so. -/
theorem suffix_iff_receiver? {method x v : Text} (hv : isIdentifier v = true) :
    v ++ '.' :: method <:+ x ↔ ∃ r, receiver? method x = some r ∧ v <:+ r := by
  constructor
  · rintro ⟨b, rfl⟩
    have hs := (Text.suffix_lastName hv).2 (List.suffix_append b v)
    have hne : lastName (b ++ v) ≠ [] := hs.ne_nil (Text.ne_nil_of_isIdentifier hv)
    refine ⟨lastName (b ++ v), receiver?_eq_some.2 ⟨b ++ v, by simp, rfl, hne⟩, hs⟩
  · rintro ⟨r, hr, hvr⟩
    obtain ⟨b, rfl, rfl, -⟩ := receiver?_eq_some.1 hr
    exact List.suffix_append_self_iff.2 (hvr.trans (Text.lastName_suffix b))

theorem suffix_append_cons {c : Char} {n p x : Text} (hc : c ∉ n) :
    n <:+ p ++ c :: x ↔ n <:+ x := by
  constructor
  · intro h
    rcases List.suffix_or_suffix_of_suffix h (List.suffix_append p (c :: x)) with h' | h'
    · rcases List.suffix_cons_iff.1 h' with rfl | h'
      · simp at hc
      · exact h'
    · exact absurd (h'.subset (by simp)) hc
  · exact fun h => h.trans ((List.suffix_cons c x).trans (List.suffix_append _ _))

theorem notMem_opening {c : Char} {method : Text} (hm : isIdentifier method = true)
    (hc : Text.isIdentChar c = false) (hp : c ≠ '.') : c ∉ '.' :: method := by
  simp [hp, Text.notMem_of_isIdentifier hm hc]

/-- A character that belongs to no call hides what precedes it. -/
theorem receiver?_append_cons {c : Char} {method : Text} (p x : Text)
    (hm : isIdentifier method = true) (hc : Text.isIdentChar c = false) (hp : c ≠ '.') :
    receiver? method (p ++ c :: x) = receiver? method x := by
  by_cases h : '.' :: method <:+ x
  · obtain ⟨b, rfl⟩ := h
    have hl : lastName (p ++ c :: b) = lastName b := Text.lastName_append_cons p b hc
    have := receiver?_append method (p ++ c :: b)
    rw [hl] at this
    rw [receiver?_append, ← this]
    simp
  · have h' := mt (suffix_append_cons (p := p) (notMem_opening hm hc hp)).1 h
    rw [receiver?, receiver?, if_neg h, if_neg h']

theorem prefix_opening_iff {method y t : Text} (hm : '(' ∉ method) (hy : '(' ∉ y) :
    opening method <+: y ++ '(' :: t ↔ y = '.' :: method := by
  rw [opening, Text.prefix_closing (by simp [hm]) hy, eq_comm]

theorem grow_eq (x : Text) (c : Char) :
    grow (lastName x).reverse c = (lastName (x ++ [c])).reverse := by
  by_cases hc : Text.isIdentChar c = true
  · rw [Text.lastName_concat x hc, grow]
    simp only [hc, Bool.true_and, List.isEmpty_reverse]
    split <;> simp
  · have hs : Text.isIdentStart c = false := by
      rw [Bool.eq_false_iff]
      exact fun h => hc (Text.isIdentChar_of_isIdentStart h)
    rw [Text.lastName_concat_of_not x (by simpa using hc), grow]
    simp [hc, hs]

/-- The call that a stretch ends with, given the column at which the stretch begins. -/
def ofStretch? (method : Text) (i : Nat) (x : Text) : Option Call :=
  (receiver? method x).map fun v => ⟨i + x.length - (method.length + 1) - v.length, v⟩

theorem onFrom_skip (method : Text) (i : Nat) (run s t : Text) :
    onFrom method i s.length run (s ++ t) =
      onFrom method (i + s.length) 0 (if s = [] then run else []) t := by
  induction s generalizing i run with
  | nil => simp
  | cons c s ih =>
    rw [List.cons_append, List.length_cons, onFrom, ih, Nat.add_right_comm, Nat.add_assoc i]
    simp

/-- The scan goes one character further: the name that it has passed grows, or is given up. -/
theorem onFrom_pass {method x t : Text} {c : Char} (i : Nat)
    (hcall : lastName x = [] ∨ ¬ opening method <+: c :: t) :
    onFrom method i 0 (lastName x).reverse (c :: t) =
      onFrom method (i + 1) 0 (lastName (x ++ [c])).reverse t := by
  rw [onFrom, grow_eq, if_neg]
  simpa [Text.stripPrefix?_isSome, or_iff_not_imp_left] using hcall

/-- The scan meets a call: it takes the name that it has passed, and starts anew behind the call. -/
theorem onFrom_call {method x : Text} (i : Nat) (t : Text) (hx : lastName x ≠ []) :
    onFrom method i 0 (lastName x).reverse (opening method ++ t) =
      ⟨i - (lastName x).length, lastName x⟩ ::
        onFrom method (i + (opening method).length) 0 [] t := by
  have hprefix : opening method <+: '.' :: (method ++ ['('] ++ t) := List.prefix_append _ t
  have hskip := onFrom_skip method (i + 1) [] (method ++ ['(']) t
  rw [ite_self, Nat.add_assoc, Nat.add_comm 1] at hskip
  rw [opening, List.cons_append, List.cons_append, onFrom, if_pos, List.length_reverse,
    List.reverse_reverse, List.length_cons, ← hskip, List.length_append, List.length_singleton]
  simpa [Text.stripPrefix?_isSome, hx] using hprefix

theorem ofStretch?_eq_none {method x : Text} (i : Nat) (h : ¬ '.' :: method <:+ x) :
    ofStretch? method i x = none := by
  rw [ofStretch?, receiver?, if_neg h, Option.map_none]

theorem ofStretch?_append (method : Text) (i : Nat) (x : Text) :
    ofStretch? method i (x ++ '.' :: method) =
      if lastName x = [] then none else some ⟨i + x.length - (lastName x).length, lastName x⟩ := by
  have hlen : i + (x ++ '.' :: method).length - (method.length + 1) = i + x.length := by
    rw [List.length_append, List.length_cons, ← Nat.add_assoc, Nat.add_sub_cancel]
  rw [ofStretch?, receiver?_append, hlen]
  split <;> rfl

/-- The induction is on what is left of the stretch, `x` being what the scan has passed of it. -/
theorem onFrom_stretch {method : Text} (i : Nat) (x y t : Text) (hm : '(' ∉ method)
    (hy : '(' ∉ y) :
    onFrom method (i + x.length) 0 (lastName x).reverse (y ++ '(' :: t) =
      (if '.' :: method <:+ y then (ofStretch? method i (x ++ y)).toList else []) ++
        onFrom method (i + (x ++ y).length + 1) 0 [] t := by
  induction y generalizing x with
  | nil =>
    have hopen : ¬ opening method <+: '(' :: t := by
      simp [opening]
    have hl : lastName (x ++ ['(']) = [] := Text.lastName_concat_of_not x (by decide)
    rw [List.nil_append, onFrom_pass _ (.inr hopen), hl]
    simp
  | cons c y ih =>
    by_cases hcall : lastName x ≠ [] ∧ c :: y = '.' :: method
    · obtain ⟨hx, heq⟩ := hcall
      have hopening : c :: y ++ '(' :: t = opening method ++ t := by
        simp [heq, opening]
      rw [hopening, onFrom_call _ t hx, heq, if_pos List.suffix_rfl, ofStretch?_append, if_neg hx]
      simp [opening, Nat.add_assoc]
    · have hopen : lastName x = [] ∨ ¬ opening method <+: c :: (y ++ '(' :: t) := by
        rw [← List.cons_append, prefix_opening_iff hm hy]
        exact or_iff_not_imp_left.2 fun hx heq => hcall ⟨hx, heq⟩
      have hlen : i + x.length + 1 = i + (x ++ [c]).length := by
        rw [List.length_append, List.length_singleton, Nat.add_assoc]
      rw [List.cons_append, onFrom_pass _ hopen, hlen, ih _ fun h => hy (List.mem_cons_of_mem c h),
        List.append_assoc, List.singleton_append]
      congr 1
      -- a method that begins here has no name before it
      by_cases heq : c :: y = '.' :: method
      · have hx : lastName x = [] := by simpa [heq] using hcall
        rw [heq, ofStretch?_append, if_pos hx]
        simp
      · exact if_congr (by rw [List.suffix_cons_iff, or_iff_right (Ne.symm heq)]) rfl rfl

theorem onFrom_append {method : Text} (i : Nat) (x t : Text) (hm : '(' ∉ method)
    (hx : '(' ∉ x) :
    onFrom method i 0 [] (x ++ '(' :: t) =
      (ofStretch? method i x).toList ++ onFrom method (i + x.length + 1) 0 [] t := by
  have h : onFrom method i 0 [] (x ++ '(' :: t) = _ := onFrom_stretch i [] x t hm hx
  rw [h, List.nil_append]
  split
  · rfl
  · next hne => rw [ofStretch?_eq_none i hne]; rfl

/-- A line without a parenthesis has no call. -/
theorem onFrom_of_notMem {method t : Text} (i skip : Nat) (run : Text) (ht : '(' ∉ t) :
    onFrom method i skip run t = [] := by
  induction t generalizing i skip run with
  | nil => rfl
  | cons c t ih =>
    have ht' : '(' ∉ t := fun h => ht (List.mem_cons_of_mem c h)
    have hp : Text.stripPrefix? (opening method) (c :: t) = none := by
      rw [Text.stripPrefix?_eq_none]
      exact fun h => ht (h.subset (by simp [opening]))
    cases skip with
    | zero =>
      rw [onFrom, hp]
      simpa using ih (i + 1) 0 (grow run c) ht'
    | succ skip =>
      rw [onFrom]
      exact ih (i + 1) skip [] ht'

/-- Where a line begins does not matter for its receivers. -/
theorem map_receiver_onFrom {method : Text} (hm : '(' ∉ method) (i j : Nat) (t : Text) :
    (onFrom method i 0 [] t).map receiver = (onFrom method j 0 [] t).map receiver := by
  induction t using Text.closing_induction '(' generalizing i j with
  | last x hx => rw [onFrom_of_notMem i 0 [] hx, onFrom_of_notMem j 0 [] hx]
  | stretch x t hx ih =>
    rw [onFrom_append i x t hm hx, onFrom_append j x t hm hx, List.map_append, List.map_append,
      ih _ (j + x.length + 1)]
    congr 1
    cases h : receiver? method x <;> simp [ofStretch?, h]

end Call

/-- Everything about the receivers of a line follows from this equation and the next one. -/
theorem receivers_append {method : Text} (x t : Text) (hm : '(' ∉ method) (hx : '(' ∉ x) :
    receivers method (x ++ '(' :: t) =
      (Call.receiver? method x).toList ++ receivers method t := by
  rw [receivers, Call.on, Call.onFrom_append 0 x t hm hx, List.map_append,
    Call.map_receiver_onFrom hm _ 0, receivers, Call.on]
  congr 1
  cases h : Call.receiver? method x <;> simp [Call.ofStretch?, h]

theorem receivers_of_notMem {method t : Text} (ht : '(' ∉ t) : receivers method t = [] := by
  rw [receivers, Call.on, Call.onFrom_of_notMem 0 0 [] ht, List.map_nil]

end GuardedCalls
