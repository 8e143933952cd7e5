import GuardedCalls.Toml.Quoted
import GuardedCalls.Toml.Scalar

/-!
Reading a settings file: names, values, headers and the table that they make up.
-/

namespace GuardedCalls.Toml

def skipBlanks (t : Text) : Text :=
  t.dropWhile Quoted.isBlank

/-- Passes over blanks, newlines and comments. Nothing comes of a carriage return that no newline
follows, or of a comment with a control character. -/
def skipLines : (inComment : Bool) → Text → Option Text
  | _, [] => some []
  | _, '\n' :: t => skipLines false t
  | _, '\r' :: '\n' :: t => skipLines false t
  | true, c :: t => if Quoted.isContent c then skipLines true t else none
  | false, c :: t =>
    if Quoted.isBlank c then skipLines false t
    else if c = '#' then skipLines true t
    else some (c :: t)

/-- Whether nothing but blanks and a comment is left of the line. -/
def atLineEnd (t : Text) : Bool :=
  match skipBlanks t with
  | [] => true
  | c :: _ => c = '#' || c = '\n' || c = '\r'

def isNameChar (c : Char) : Bool :=
  c.isAlphanum || c = '_' || c = '-'

/-- Takes one part of a name, quoted on one line or bare. -/
def namePart? (t : Text) : Option (Text × Text) :=
  match t with
  | '"' :: t => Quoted.basic? t
  | '\'' :: t => Quoted.literal? t
  | t =>
    let part := t.takeWhile isNameChar
    if part.isEmpty then none else some (part, t.dropWhile isNameChar)

/-- Takes a name of parts joined by points, at most `n` of them. Blanks may stand around a part. -/
def path? : (n : Nat) → Text → Option (List Text × Text)
  | 0, _ => none
  | n + 1, t => do
    let (part, t) ← namePart? (skipBlanks t)
    match skipBlanks t with
    | '.' :: t =>
      let (parts, t) ← path? n t
      return (part :: parts, t)
    | t => return ([part], t)

abbrev Reader (α : Type) := Text → Option (α × Text)

/-- Takes a name, an equals sign and a value, all on one line. -/
def assignment? (value : Reader Value) : Reader (List Text × Value) := fun t => do
  let (path, t) ← path? t.length t
  let t ← Text.stripPrefix? ['='] t
  let (v, t) ← value (skipBlanks t)
  return ((path, v), t)

/-- Takes items up to a closing bracket, at most `n` of them. A comma may follow the last one. -/
def items? {α : Type} (close : Char) (item : Reader α) : (n : Nat) → Reader (List α)
  | 0, _ => none
  | n + 1, t =>
    match skipLines false t with
    | none => none
    | some [] => none
    | some (c :: t) =>
      if c = close then some ([], t)
      else do
        let (v, t) ← item (c :: t)
        match ← skipLines false t with
        | [] => none
        | d :: t =>
          if d = close then some ([v], t)
          else if d = ',' then do
            let (vs, t) ← items? close item n t
            return (v :: vs, t)
          else none

/-- The table that entries make up. -/
def Table.ofEntries (entries : List (List Text × Value)) : Option Table :=
  entries.foldlM (fun t (path, v) => t.put v true path) []

/-- How deep arrays and tables in braces may be nested. -/
def maxDepth : Nat := 80

/-- Takes a value with at most `depth` brackets around anything in it. -/
def value? : (depth : Nat) → Reader Value
  | depth, t =>
    match t with
    | '[' :: t =>
      match depth with
      | 0 => none
      | depth + 1 => (items? ']' (value? depth) (t.length + 1) t).map fun (vs, t) => (.array vs, t)
    | '{' :: t =>
      match depth with
      | 0 => none
      | depth + 1 => do
        let (entries, t) ← items? '}' (assignment? (value? depth)) (t.length + 1) t
        let table ← Table.ofEntries entries
        return (.table .closed table, t)
    | c :: t =>
      if c = '"' || c = '\'' then (Quoted.read? (c :: t)).map fun (s, t) => (.text s, t)
      else Scalar.read? (c :: t)
    | [] => none

/-- A line of a file. -/
inductive Statement
  | header (path : List Text)
  | listHeader (path : List Text)
  | assignment (path : List Text) (v : Value)

def statement? (t : Text) : Option (Statement × Text) :=
  match t with
  | '[' :: '[' :: t => do
    let (path, t) ← path? t.length t
    let t ← Text.stripPrefix? [']', ']'] t
    return (.listHeader path, t)
  | '[' :: t => do
    let (path, t) ← path? t.length t
    let t ← Text.stripPrefix? [']'] t
    return (.header path, t)
  | t => (assignment? (value? maxDepth) t).map fun ((path, v), t) => (.assignment path v, t)

/-- The statements of a text, at most `n` of them. -/
def statements? : (n : Nat) → Text → Option (List Statement)
  | 0, _ => none
  | n + 1, t => do
    match ← skipLines false t with
    | [] => return []
    | t =>
      let (s, t) ← statement? t
      if atLineEnd t then return s :: (← statements? n t)
      else none

/-- Adds what the statements say to a table, `path` being that of the last header. -/
def build (path : List Text) : List Statement → Table → Option Table
  | [], t => some t
  | .header path :: ss, t => do build path ss (← t.declare path)
  | .listHeader path :: ss, t => do build path ss (← t.addTable path)
  | .assignment name v :: ss, t => do build path ss (← t.within (Table.put v true name) path)

/-- The table that a file holds, unless the file has a fault. A mark of byte order may come first. -/
def read? (t : Text) : Option Table := do
  let t := (Text.stripPrefix? ['\ufeff'] t).getD t
  build [] (← statements? (t.length + 1) t) []

end GuardedCalls.Toml
