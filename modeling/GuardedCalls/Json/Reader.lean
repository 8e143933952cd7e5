import GuardedCalls.Json.Numeral
import GuardedCalls.Json.Quoted

/-!
Readers of values of a given shape. A document is read once from left to right and the first fault
counts. A record may hold fields that are not asked for, and may be written as a list of its fields.
-/

namespace GuardedCalls.Json

def startsNumeral (c : Char) : Bool :=
  c = '-' || c.isDigit

/-- What encloses a value that is passed over. -/
inductive Enclosure
  | list
  | record
deriving DecidableEq, Repr

namespace Enclosure

def closing : Enclosure → Char
  | list => ']'
  | record => '}'

/-- Before a value stands nothing in a list, and a name and a colon in a record. -/
def passName (e : Enclosure) (t : Text) : Except Fault Text :=
  match e with
  | list => .ok t
  | record => do
    let t ← expect '"' (skipSpace t)
    let t ← Quoted.pass t
    expect ':' (skipSpace t)

end Enclosure

/-- Passes over values and what lies between them until nothing encloses the place reached, at most
`n` steps. A value is due next, or else the end of one was reached. -/
def passFrom : (n : Nat) → (due : Bool) → List Enclosure → Text → Except Fault Text
  | 0, _, _, _ => .error .truncated
  | _ + 1, false, [], t => .ok t
  | n + 1, false, e :: es, t =>
    match skipSpace t with
    | [] => .error .truncated
    | c :: t =>
      if c = ',' then do passFrom n true (e :: es) (← e.passName t)
      else if c = e.closing then passFrom n false es t
      else .error .malformed
  | n + 1, true, es, t =>
    match skipSpace t with
    | [] => .error .truncated
    | c :: t =>
      if c = '[' || c = '{' then
        let e : Enclosure := if c = '[' then .list else .record
        match expect e.closing (skipSpace t) with
        | .ok t => passFrom n false es t
        | .error _ => do passFrom n true (e :: es) (← e.passName t)
      else if c = '"' then do passFrom n false es (← Quoted.pass t)
      else if c = 'n' then do passFrom n false es (← expectAll "ull".toList t)
      else if c = 't' then do passFrom n false es (← expectAll "rue".toList t)
      else if c = 'f' then do passFrom n false es (← expectAll "alse".toList t)
      else if startsNumeral c then do passFrom n false es (← Numeral.pass (c :: t))
      else .error .malformed

/-- Passes over one value, nested to any depth. -/
def pass (t : Text) : Except Fault Text :=
  passFrom (t.length + 1) true [] t

/-- The fault of a value of another shape than that asked for. Only a value that is well formed
itself counts as mismatched; of a list or record the bracket is enough. -/
def misfit : Text → Fault
  | [] => .truncated
  | c :: t =>
    if c = '[' || c = '{' then .mismatched
    else if c = '"' then faultOf (Quoted.read t)
    else if c = 'n' then faultOf (expectAll "ull".toList t)
    else if c = 't' then faultOf (expectAll "rue".toList t)
    else if c = 'f' then faultOf (expectAll "alse".toList t)
    else if startsNumeral c then faultOf (Numeral.readCount? (c :: t))
    else .malformed
where
  faultOf {α : Type} : Except Fault α → Fault
    | .ok _ => .mismatched
    | .error e => e

namespace Reader

def text : Reader Value := fun t =>
  match skipSpace t with
  | '"' :: t => (Quoted.read t).map fun (s, rest) => (.text s, rest)
  | t => .error (misfit t)

def bool : Reader Value := fun t =>
  match skipSpace t with
  | 't' :: t => (expectAll "rue".toList t).map fun rest => (.bool true, rest)
  | 'f' :: t => (expectAll "alse".toList t).map fun rest => (.bool false, rest)
  | t => .error (misfit t)

def count : Reader Value := fun t =>
  let t := skipSpace t
  if t.head?.any startsNumeral then
    match Numeral.readCount? t with
    | .ok (some n, rest) => .ok (.count n, rest)
    | .ok (none, _) => .error .mismatched
    | .error e => .error e
  else .error (misfit t)

def present (r : Reader Value) : Reader (Option Value) := fun t =>
  (r t).map fun (v, rest) => (some v, rest)

/-- Takes the word for an absent value, or else a value. -/
def nullable (r : Reader Value) : Reader (Option Value) := fun t =>
  match skipSpace t with
  | 'n' :: t => (expectAll "ull".toList t).map fun rest => (none, rest)
  | t => present r t

/-- Comes to the next item of a list of which the bracket is not the next character: a comma precedes
every item but the first. -/
def toItem (first : Bool) (t : Text) : Except Fault Text :=
  if first then .ok t
  else do
    let t ← expect ',' t
    match skipSpace t with
    | [] => .error .truncated
    | ']' :: _ => .error .malformed
    | t => .ok t

/-- Takes the items of a list and its closing bracket, at most `n` steps. -/
def items (item : Reader Value) : (n : Nat) → (first : Bool) → Reader (List Value)
  | 0, _, _ => .error .truncated
  | n + 1, first, t =>
    match skipSpace t with
    | [] => .error .truncated
    | ']' :: t => .ok ([], t)
    | t => do
      let t ← toItem first t
      let (v, t) ← item t
      let (vs, t) ← items item n false t
      return (v :: vs, t)

def list (item : Reader Value) : Reader Value := fun t =>
  match skipSpace t with
  | '[' :: t => (items item t.length true t).map fun (vs, rest) => (.list vs, rest)
  | t => .error (misfit t)

end Reader

/-- A field of a record. One that is not required may be absent. -/
structure Field where
  name : Text
  required : Bool
  read : Reader (Option Value)

namespace Field

def demanded (name : String) (read : Reader Value) : Field :=
  ⟨name.toList, true, Reader.present read⟩

/-- The field with its value, if it has one. -/
def keep (f : Field) (v : Option Value) : List (Text × Value) :=
  v.toList.map fun v => (f.name, v)

/-- The fields with the values found for them. -/
def gather (found : List (Text × Option Value)) : List Field → Except Fault (List (Text × Value))
  | [] => .ok []
  | f :: fs =>
    match found.lookup f.name with
    | some v => (gather found fs).map (f.keep v ++ ·)
    | none => if f.required then .error .mismatched else gather found fs

end Field

namespace Reader

/-- Takes the fields of a record from the items of a list, and the closing bracket. -/
def elements : List Field → (first : Bool) → Reader (List (Text × Value))
  | [], _, t => (expect ']' (skipSpace t)).map fun rest => ([], rest)
  | f :: fs, first, t =>
    match skipSpace t with
    | [] => .error .truncated
    | ']' :: rest => if f.required then .error .mismatched else elements fs first (']' :: rest)
    | t => do
      let t ← toItem first t
      let (v, t) ← f.read t
      let (vs, t) ← elements fs false t
      return (f.keep v ++ vs, t)

/-- Takes the entries of a record and its closing brace, at most `n` steps. A name may be found once;
a repeated one is noticed before its value. -/
def entries (fields : List Field) :
    (n : Nat) → (found : List (Text × Option Value)) → (first : Bool) → Reader (List (Text × Value))
  | 0, _, _, _ => .error .truncated
  | n + 1, found, first, t =>
    match skipSpace t with
    | [] => .error .truncated
    | '}' :: t => (Field.gather found fields).map fun fs => (fs, t)
    | t => do
      let t ← if first then .ok t else expect ',' t
      let t ← expect '"' (skipSpace t)
      let (name, t) ← Quoted.read t
      match fields.find? (·.name = name) with
      | none =>
        let t ← expect ':' (skipSpace t)
        let t ← pass t
        entries fields n found false t
      | some f =>
        if (found.lookup name).isSome then .error .mismatched
        else
          let t ← expect ':' (skipSpace t)
          let (v, t) ← f.read t
          entries fields n ((name, v) :: found) false t

def record (fields : List Field) : Reader Value := fun t =>
  match skipSpace t with
  | '[' :: t => (elements fields true t).map fun (fs, rest) => (.record fs, rest)
  | '{' :: t => (entries fields t.length [] true t).map fun (fs, rest) => (.record fs, rest)
  | t => .error (misfit t)

end Reader

/-- Reads a whole text: only blanks may follow the value. -/
def readAll (r : Reader Value) (t : Text) : Except Fault Value := do
  let (v, rest) ← r t
  if (skipSpace rest).isEmpty then .ok v else .error .malformed

end GuardedCalls.Json
