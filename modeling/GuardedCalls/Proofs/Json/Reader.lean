import GuardedCalls.Json.Printer
import GuardedCalls.Json.Reader
import GuardedCalls.Proofs.Json.Scalar

/-! Values are read back as they were written, given readers for their parts. What follows a value
decides where a count ends, so it is part of the statement. -/

namespace GuardedCalls.Json

/-- The characters with which a written value can begin. -/
def Opens (c : Char) : Prop :=
  c ∈ ['"', 't', 'f', '[', '{'] ∨ c.isDigit = true

instance (c : Char) : Decidable (Opens c) :=
  inferInstanceAs (Decidable (_ ∨ _))

theorem Opens.ne {c d : Char} (hc : Opens c) (hd : ¬ Opens d) : c ≠ d := by
  intro h
  exact hd (h ▸ hc)

theorem Opens.isSpace {c : Char} (hc : Opens c) : isSpace c = false := by
  simp [Json.isSpace, hc.ne (d := ' ') (by decide), hc.ne (d := '\n') (by decide),
    hc.ne (d := '\r') (by decide), hc.ne (d := '\t') (by decide)]

theorem exists_opens_write (v : Value) (indent : Nat) : ∃ c s, v.write indent = c :: s ∧ Opens c := by
  cases v with
  | text t => exact ⟨'"', _, rfl, by decide⟩
  | bool b =>
    cases b with
    | false => exact ⟨'f', "alse".toList, rfl, by decide⟩
    | true => exact ⟨'t', "rue".toList, rfl, by decide⟩
  | count n =>
    obtain ⟨c, s, hs⟩ := List.exists_cons_of_ne_nil (Text.ofNat_ne_nil n)
    exact ⟨c, s, by rw [Value.write, hs], Or.inr (Text.isDigit_of_mem_ofNat (n := n) (by simp [hs]))⟩
  | list vs =>
    cases vs with
    | nil => exact ⟨'[', _, rfl, by decide⟩
    | cons v vs => exact ⟨'[', _, rfl, by decide⟩
  | record fs =>
    cases fs with
    | nil => exact ⟨'{', _, rfl, by decide⟩
    | cons f fs => exact ⟨'{', _, rfl, by decide⟩

/-- Nothing but blanks. -/
def Blank (t : Text) : Prop :=
  ∀ c ∈ t, isSpace c = true

theorem blank_newline (indent : Nat) : Blank (Value.newline indent) := by
  intro c hc
  cases List.mem_cons.1 hc with
  | inl hc => rw [hc]; decide
  | inr hc => rw [List.eq_of_mem_replicate hc]; decide

theorem skipSpace_append {before : Text} (hb : Blank before) (t : Text) :
    skipSpace (before ++ t) = skipSpace t :=
  List.dropWhile_append_of_pos hb

theorem skipSpace_cons {c : Char} (hc : isSpace c = false) (t : Text) :
    skipSpace (c :: t) = c :: t := by
  simp [skipSpace, hc]

theorem skipSpace_write (v : Value) (indent : Nat) (t : Text) :
    skipSpace (v.write indent ++ t) = v.write indent ++ t := by
  obtain ⟨c, s, hs, hc⟩ := exists_opens_write v indent
  rw [hs, List.cons_append, skipSpace_cons hc.isSpace]

theorem closes_newline (indent : Nat) (t : Text) : Closes (Value.newline indent ++ t) := by
  intro c hc
  exact Or.inr (by simpa [Value.newline] using hc.symm)

/-- The reader gives `a` for the value wherever that stands written, and leaves what follows it. -/
def Reads {α : Type} (r : Reader α) (v : Value) (a : α) : Prop :=
  ∀ indent before t, Blank before → Closes t → r (before ++ (v.write indent ++ t)) = .ok (a, t)

theorem Reads.here {α : Type} {r : Reader α} {v : Value} {a : α} (h : Reads r v a) (indent : Nat)
    {t : Text} (ht : Closes t) : r (v.write indent ++ t) = .ok (a, t) :=
  h indent [] t (fun _ hc => absurd hc List.not_mem_nil) ht

namespace Reader

theorem reads_text (s : Text) : Reads text (.text s) (.text s) := by
  intro indent before t hb _
  have hwrite : (Value.text s).write indent ++ t =
      '"' :: (s.flatMap Quoted.escapeChar ++ '"' :: t) := by
    simp [Value.write, Quoted.write]
  rw [text, skipSpace_append hb, skipSpace_write, hwrite]
  simp only [Quoted.read_flatMap_escapeChar]
  rfl

theorem reads_bool (b : Bool) : Reads bool (.bool b) (.bool b) := by
  intro indent before t hb _
  rw [bool, skipSpace_append hb, skipSpace_write]
  cases b with
  | false => rfl
  | true => rfl

theorem reads_count {n : Nat} (hn : n ≤ maxCount) : Reads count (.count n) (.count n) := by
  intro indent before t hb ht
  obtain ⟨c, s, hs⟩ := List.exists_cons_of_ne_nil (Text.ofNat_ne_nil n)
  have hc : c.isDigit = true := Text.isDigit_of_mem_ofNat (n := n) (by simp [hs])
  have hstart : (Text.ofNat n ++ t).head?.any startsNumeral = true := by
    simp [hs, startsNumeral, hc]
  rw [count, skipSpace_append hb, skipSpace_write, Value.write]
  simp only [hstart, if_true, Numeral.readCount?_ofNat hn ht]

theorem reads_present {r : Reader Value} {v w : Value} (h : Reads r v w) :
    Reads (present r) v (some w) := by
  intro indent before t hb ht
  rw [present, h indent before t hb ht]
  rfl

theorem reads_nullable {r : Reader Value} {v w : Value} (h : Reads r v w) :
    Reads (nullable r) v (some w) := by
  intro indent before t hb ht
  obtain ⟨c, s, hs, hc⟩ := exists_opens_write v indent
  rw [nullable, skipSpace_append hb, skipSpace_write]
  split
  · rename_i h'
    rw [hs] at h'
    exact absurd (List.cons.inj h').1 (hc.ne (by decide))
  · exact (reads_present h).here indent ht

variable {item : Reader Value}

/-- One step takes one item. -/
theorem items_cons {start here rest after : Text} {c : Char} {next : Text} {v : Value}
    {vs : List Value} {n : Nat} {first : Bool} (hstart : skipSpace start = c :: next) (hc : c ≠ ']')
    (hto : toItem first (c :: next) = .ok here) (hitem : item here = .ok (v, rest))
    (hrest : items item n false rest = .ok (vs, after)) :
    items item (n + 1) first start = .ok (v :: vs, after) := by
  rw [items, hstart]
  split
  · rename_i h
    simp at h
  · rename_i h
    exact absurd (List.cons.inj h).1 hc
  · rw [hto, ok_bind, hitem, ok_bind]
    simp only [hrest, ok_bind]
    rfl

theorem items_nil {start after : Text} (hstart : skipSpace start = ']' :: after) (n : Nat)
    (first : Bool) : items item (n + 1) first start = .ok ([], after) := by
  rw [items, hstart]
  rfl

/-- Before an item but the first stands a comma, and the item is no closing bracket. -/
theorem toItem_comma (v : Value) (indent : Nat) (t : Text) :
    toItem false (',' :: (Value.newline indent ++ (v.write indent ++ t))) =
      .ok (v.write indent ++ t) := by
  have hcomma : expect ',' (',' :: (Value.newline indent ++ (v.write indent ++ t))) =
      .ok (Value.newline indent ++ (v.write indent ++ t)) := rfl
  obtain ⟨c, s, hs, hc⟩ := exists_opens_write v indent
  rw [toItem, if_neg (by decide), hcomma, ok_bind, skipSpace_append (blank_newline indent),
    skipSpace_write, hs]
  split
  · rename_i h
    simp at h
  · rename_i h
    exact absurd (List.cons.inj h).1 (hc.ne (by decide))
  · rfl

theorem items_first {v : Value} {vs : List Value} (hv : Reads item v v) {n : Nat} (i : Nat)
    {rest after : Text} (hclose : Closes rest) (hrest : items item n false rest = .ok (vs, after)) :
    items item (n + 1) true (Value.newline i ++ (v.write i ++ rest)) = .ok (v :: vs, after) := by
  have hitem := hv.here i hclose
  have hstart := skipSpace_append (blank_newline i) (v.write i ++ rest)
  rw [skipSpace_write] at hstart
  obtain ⟨c, s, hs, hc⟩ := exists_opens_write v i
  rw [hs] at hitem hstart ⊢
  exact items_cons hstart (hc.ne (by decide)) rfl hitem hrest

theorem items_next {v : Value} {vs : List Value} (hv : Reads item v v) {n : Nat} (i : Nat)
    {rest after : Text} (hclose : Closes rest) (hrest : items item n false rest = .ok (vs, after)) :
    items item (n + 1) false (',' :: (Value.newline i ++ (v.write i ++ rest))) =
      .ok (v :: vs, after) :=
  items_cons rfl (by decide) (toItem_comma v i rest) (hv.here i hclose) hrest

theorem closes_writeItems (i j : Nat) (vs : List Value) (t : Text) :
    Closes (Value.writeItems i vs ++ (Value.newline j ++ t)) := by
  cases vs with
  | nil => exact closes_newline j t
  | cons v vs =>
    intro c hc
    exact Or.inl (by simpa [Value.writeItems] using hc.symm)

theorem length_writeItems (i : Nat) (vs : List Value) :
    vs.length ≤ (Value.writeItems i vs).length := by
  induction vs with
  | nil => simp
  | cons v vs ih =>
    simp only [Value.writeItems, List.length_cons, List.length_append]
    omega

theorem items_writeItems {vs : List Value} (hvs : ∀ v ∈ vs, Reads item v v) {n : Nat}
    (hn : vs.length < n) (i j : Nat) (t : Text) :
    items item n false (Value.writeItems i vs ++ (Value.newline j ++ ']' :: t)) = .ok (vs, t) := by
  induction n generalizing vs with
  | zero => exact absurd hn (Nat.not_lt_zero _)
  | succ n ih =>
    cases vs with
    | nil =>
      refine items_nil ?_ n false
      rw [Value.writeItems, List.nil_append, skipSpace_append (blank_newline j)]
      rfl
    | cons v vs =>
      obtain ⟨hv, hvs⟩ := List.forall_mem_cons.1 hvs
      have htext : Value.writeItems i (v :: vs) ++ (Value.newline j ++ ']' :: t) =
          ',' :: (Value.newline i ++ (v.write i ++
            (Value.writeItems i vs ++ (Value.newline j ++ ']' :: t)))) := by
        simp [Value.writeItems]
      rw [htext]
      exact items_next hv i (closes_writeItems i j vs _) (ih hvs (Nat.lt_of_succ_lt_succ hn))

theorem reads_list {vs : List Value} (hvs : ∀ v ∈ vs, Reads item v v) :
    Reads (list item) (.list vs) (.list vs) := by
  intro indent before t hb _
  rw [list, skipSpace_append hb, skipSpace_write]
  cases vs with
  | nil =>
    have hitems : items item (']' :: t).length true (']' :: t) = .ok ([], t) := items_nil rfl _ _
    simp only [Value.write, List.cons_append, List.nil_append, hitems]
    rfl
  | cons v vs =>
    obtain ⟨hv, hvs⟩ := List.forall_mem_cons.1 hvs
    let i := indent + 1
    let rest := Value.writeItems i vs ++ (Value.newline indent ++ ']' :: t)
    let inner := Value.newline i ++ (v.write i ++ rest)
    have htext : (Value.list (v :: vs)).write indent ++ t = '[' :: inner := by
      simp [Value.write, i, rest, inner]
    have hlen : vs.length + 1 < inner.length := by
      have hwritten := length_writeItems i vs
      simp only [inner, rest, Value.newline, List.length_append, List.length_cons]
      omega
    have hitems : items item inner.length true inner = .ok (v :: vs, t) := by
      obtain ⟨n, hn⟩ : ∃ n, inner.length = n + 1 := ⟨inner.length - 1, by omega⟩
      rw [hn]
      exact items_first hv i (closes_writeItems i indent vs _)
        (items_writeItems hvs (by omega) i indent t)
    rw [htext]
    simp only [hitems]
    rfl

/-- Which of the fields of a record are written, in their order, and that each is read as its value. -/
inductive Written : List Field → List (Text × Value) → Prop
  | nil : Written [] []
  | given {f : Field} {v : Value} {fields : List Field} {fs : List (Text × Value)}
      (read : Reads f.read v (some v)) (rest : Written fields fs) :
      Written (f :: fields) ((f.name, v) :: fs)
  | absent {f : Field} {fields : List Field} {fs : List (Text × Value)} (free : f.required = false)
      (rest : Written fields fs) : Written (f :: fields) fs

namespace Written
variable {fields : List Field} {fs : List (Text × Value)}

theorem names_sublist (h : Written fields fs) : (fs.map Prod.fst).Sublist (fields.map Field.name) := by
  induction h with
  | nil => exact List.Sublist.refl []
  | given _ _ ih => exact ih.cons_cons _
  | absent _ _ ih => exact ih.cons _

theorem fst_ne (h : Written fields fs) {f : Field} (hf : f.name ∉ fields.map Field.name)
    {e : Text × Value} (he : e ∈ fs) : e.1 ≠ f.name := by
  intro heq
  exact hf (heq ▸ h.names_sublist.subset (List.mem_map_of_mem he))

/-- A written field is found by its name. -/
theorem find? (h : Written fields fs) (hn : (fields.map Field.name).Nodup) {e : Text × Value}
    (he : e ∈ fs) : ∃ f, fields.find? (·.name = e.1) = some f ∧ Reads f.read e.2 (some e.2) := by
  induction h with
  | nil => exact absurd he List.not_mem_nil
  | @given f v fields fs read rest ih =>
    obtain ⟨hf, hn⟩ := List.nodup_cons.1 hn
    cases List.mem_cons.1 he with
    | inl he => exact ⟨f, by simp [he], he ▸ read⟩
    | inr he =>
      rw [List.find?_cons_of_neg (by simpa using (rest.fst_ne hf he).symm)]
      exact ih hn he
  | @absent f fields fs free rest ih =>
    obtain ⟨hf, hn⟩ := List.nodup_cons.1 hn
    rw [List.find?_cons_of_neg (by simpa using (rest.fst_ne hf he).symm)]
    exact ih hn he

/-- The fields are gathered from what was found under their names. -/
theorem gather (h : Written fields fs) (hn : (fields.map Field.name).Nodup)
    {found : List (Text × Option Value)}
    (hfound : ∀ f ∈ fields, found.lookup f.name = (fs.lookup f.name).map some) :
    Field.gather found fields = .ok fs := by
  induction h with
  | nil => rfl
  | @given f v fields fs read rest ih =>
    obtain ⟨hf, hn⟩ := List.nodup_cons.1 hn
    obtain ⟨hfirst, hothers⟩ := List.forall_mem_cons.1 hfound
    rw [List.lookup_cons_self, Option.map_some] at hfirst
    have hrest : Field.gather found fields = .ok fs := by
      refine ih hn fun g hg => ?_
      have hne : (g.name == f.name) = false := by
        simpa using fun h : g.name = f.name => hf (h ▸ List.mem_map_of_mem hg)
      rw [hothers g hg, List.lookup_cons, hne]
    rw [Field.gather, hfirst, hrest]
    rfl
  | @absent f fields fs free rest ih =>
    obtain ⟨hf, hn⟩ := List.nodup_cons.1 hn
    obtain ⟨hfirst, hothers⟩ := List.forall_mem_cons.1 hfound
    have hnone : fs.lookup f.name = none := by
      rw [List.lookup_eq_none_iff]
      intro e he
      simpa using (rest.fst_ne hf he).symm
    rw [hnone, Option.map_none] at hfirst
    rw [Field.gather, hfirst]
    simp only [free, Bool.false_eq_true, if_false]
    exact ih hn hothers

end Written

variable {fields : List Field}

/-- One step takes one field that has not been found before. -/
theorem entries_cons {start here rest : Text} {c : Char} {next name : Text} {f : Field} {v : Value}
    {a : Option Value} {found : List (Text × Option Value)} {first : Bool} {i : Nat}
    (hstart : skipSpace start = c :: next) (hc : c ≠ '}')
    (hsep : (if first then .ok (c :: next) else expect ',' (c :: next)) = .ok here)
    (hhere : skipSpace here = Quoted.write name ++ ':' :: ' ' :: (v.write i ++ rest))
    (hf : fields.find? (·.name = name) = some f) (hnew : found.lookup name = none)
    (hv : Reads f.read v a) (hclose : Closes rest) (n : Nat) :
    entries fields (n + 1) found first start = entries fields n ((name, a) :: found) false rest := by
  have hquote : expect '"' (Quoted.write name ++ ':' :: ' ' :: (v.write i ++ rest)) =
      .ok (name.flatMap Quoted.escapeChar ++ '"' :: ':' :: ' ' :: (v.write i ++ rest)) := by
    simp [Quoted.write, expect]
  have hcolon : expect ':' (skipSpace (':' :: ' ' :: (v.write i ++ rest))) =
      .ok (' ' :: (v.write i ++ rest)) := rfl
  have hblank : Blank [' '] := by
    intro c hc
    rw [List.mem_singleton.1 hc]
    decide
  have hvalue := hv i [' '] rest hblank hclose
  rw [List.singleton_append] at hvalue
  rw [entries, hstart]
  split
  · rename_i h
    simp at h
  · rename_i h
    exact absurd (List.cons.inj h).1 hc
  · cases first with
    | true =>
      obtain rfl := Except.ok.inj hsep
      simp only [if_true, ok_bind, hhere, hquote, Quoted.read_flatMap_escapeChar, hf, hnew, hcolon,
        hvalue]
      rfl
    | false =>
      rw [if_neg Bool.false_ne_true] at hsep
      simp only [Bool.false_eq_true, if_false, hsep, ok_bind, hhere, hquote,
        Quoted.read_flatMap_escapeChar, hf, hnew, hcolon, hvalue]
      rfl

theorem entries_nil {start after : Text} {fs : List (Text × Value)}
    {found : List (Text × Option Value)} (hstart : skipSpace start = '}' :: after)
    (hgather : Field.gather found fields = .ok fs) (n : Nat) (first : Bool) :
    entries fields (n + 1) found first start = .ok (fs, after) := by
  rw [entries, hstart]
  simp only [hgather]
  rfl

/-- A field as it is written after what stands before it. -/
def entry (name : Text) (v : Value) (i : Nat) (rest : Text) : Text :=
  Quoted.write name ++ ':' :: ' ' :: (v.write i ++ rest)

theorem skipSpace_entry (name : Text) (v : Value) (i : Nat) (rest : Text) :
    skipSpace (entry name v i rest) = entry name v i rest := by
  rw [entry, Quoted.write, List.cons_append, List.cons_append, skipSpace_cons (by decide)]

theorem skipSpace_newline_entry (name : Text) (v : Value) (i : Nat) (rest : Text) :
    skipSpace (Value.newline i ++ entry name v i rest) = entry name v i rest := by
  rw [skipSpace_append (blank_newline i), skipSpace_entry]

theorem closes_writeFields (i j : Nat) (fs : List (Text × Value)) (t : Text) :
    Closes (Value.writeFields i fs ++ (Value.newline j ++ t)) := by
  cases fs with
  | nil => exact closes_newline j t
  | cons f fs =>
    intro c hc
    exact Or.inl (by simpa [Value.writeFields] using hc.symm)

theorem length_writeFields (i : Nat) (fs : List (Text × Value)) :
    fs.length ≤ (Value.writeFields i fs).length := by
  induction fs with
  | nil => simp
  | cons f fs ih =>
    simp only [Value.writeFields, List.length_cons, List.length_append]
    omega

theorem lookup_found {before : List (Text × Value)} {found : List (Text × Option Value)}
    (hfound : ∀ k, found.lookup k = (before.lookup k).map some) {name : Text}
    (hnew : before.lookup name = none) (v : Value) (k : Text) :
    List.lookup k ((name, some v) :: found) = ((before ++ [(name, v)]).lookup k).map some := by
  rw [List.lookup_cons, List.lookup_append, hfound, List.lookup_cons]
  cases hk : k == name with
  | false => simp
  | true =>
    rw [eq_of_beq hk, hnew]
    rfl

/-- The names found so far are those of the fields read so far, with their values. -/
theorem entries_writeFields (hn : (fields.map Field.name).Nodup) {before after : List (Text × Value)}
    (h : Written fields (before ++ after)) {found : List (Text × Option Value)}
    (hfound : ∀ k, found.lookup k = (before.lookup k).map some) {n : Nat}
    (hlt : after.length < n) (i j : Nat) (t : Text) :
    entries fields n found false (Value.writeFields i after ++ (Value.newline j ++ '}' :: t)) =
      .ok (before ++ after, t) := by
  induction n generalizing before after found with
  | zero => exact absurd hlt (Nat.not_lt_zero _)
  | succ n ih =>
    cases after with
    | nil =>
      rw [List.append_nil] at h ⊢
      refine entries_nil ?_ (h.gather hn fun f _ => hfound f.name) n false
      rw [Value.writeFields, List.nil_append, skipSpace_append (blank_newline j)]
      rfl
    | cons e after =>
      obtain ⟨name, v⟩ := e
      obtain ⟨f, hf, hread⟩ := h.find? hn (e := (name, v)) (by simp)
      have hnone : before.lookup name = none := by
        have hnames := h.names_sublist.nodup hn
        rw [List.map_append, List.nodup_append] at hnames
        rw [List.lookup_eq_none_iff]
        intro e he
        simpa using (hnames.2.2 e.1 (List.mem_map_of_mem he) name List.mem_cons_self).symm
      have htext : Value.writeFields i ((name, v) :: after) ++ (Value.newline j ++ '}' :: t) =
          ',' :: (Value.newline i ++ entry name v i
            (Value.writeFields i after ++ (Value.newline j ++ '}' :: t))) := by
        simp [Value.writeFields, entry]
      rw [List.append_cons before] at h ⊢
      rw [htext, entries_cons rfl (by decide) rfl (skipSpace_newline_entry name v i _) hf
        (by rw [hfound, hnone]; rfl) hread (closes_writeFields i j after _)]
      exact ih h (lookup_found hfound hnone v) (Nat.lt_of_succ_lt_succ hlt)

theorem reads_record (hn : (fields.map Field.name).Nodup) {fs : List (Text × Value)}
    (h : Written fields fs) : Reads (record fields) (.record fs) (.record fs) := by
  intro indent before t hb _
  rw [record, skipSpace_append hb, skipSpace_write]
  cases fs with
  | nil =>
    have hentries : entries fields ('}' :: t).length [] true ('}' :: t) = .ok ([], t) :=
      entries_nil rfl (h.gather hn fun _ _ => rfl) _ _
    simp only [Value.write, List.cons_append, List.nil_append, hentries]
    rfl
  | cons e fs =>
    obtain ⟨name, v⟩ := e
    let i := indent + 1
    let rest := Value.writeFields i fs ++ (Value.newline indent ++ '}' :: t)
    let inner := Value.newline i ++ entry name v i rest
    have htext : (Value.record ((name, v) :: fs)).write indent ++ t = '{' :: inner := by
      simp [Value.write, i, rest, inner, entry]
    have hlen : fs.length + 1 < inner.length := by
      have hwritten := length_writeFields i fs
      simp only [inner, rest, entry, Value.newline, List.length_append, List.length_cons]
      omega
    have hentries : entries fields inner.length [] true inner = .ok ((name, v) :: fs, t) := by
      obtain ⟨n, hlen'⟩ : ∃ n, inner.length = n + 1 := ⟨inner.length - 1, by omega⟩
      obtain ⟨f, hf, hread⟩ := h.find? hn List.mem_cons_self
      have hwritten : Written fields ([] ++ [(name, v)] ++ fs) := h
      rw [hlen', entries_cons (skipSpace_newline_entry name v i rest) (by decide) rfl
        (skipSpace_entry name v i rest) hf rfl hread (closes_writeFields i indent fs _)]
      exact entries_writeFields hn hwritten (lookup_found (fun _ => rfl) rfl v) (by omega) i indent t
    rw [htext]
    simp only [hentries]
    rfl

/-- A value is read from a text that holds nothing but it and a newline. -/
theorem readAll_write {r : Reader Value} {v : Value} (h : Reads r v v) :
    readAll r (v.write 0 ++ ['\n']) = .ok v := by
  have hclose : Closes ['\n'] := closes_newline 0 []
  rw [readAll, h.here 0 hclose]
  rfl

end Reader
end GuardedCalls.Json
