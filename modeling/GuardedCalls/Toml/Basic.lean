import GuardedCalls.Text.Basic

/-!
The values of a settings file and the tables that its lines build up.
-/

namespace GuardedCalls.Toml

/-- How a table came to be: written in braces, opened by its own header, implied by the header of a
table inside it, or implied by a dotted name. -/
inductive Origin
  | closed
  | declared
  | implied
  | dotted
deriving DecidableEq, Repr

/-- `plain` is a number or a truth value, and `moment` a date, a time or both: nothing more is asked
of them. `tables` is a list of tables with a header each. -/
inductive Value
  | text (t : Text)
  | plain
  | moment
  | array (items : List Value)
  | table (origin : Origin) (entries : List (Text × Value))
  | tables (items : List (List (Text × Value)))
deriving Repr

abbrev Table := List (Text × Value)

namespace Table

/-- Replaces the value of a name, or adds the name; `f` is given the value so far. -/
def update (name : Text) (f : Option Value → Option Value) : Table → Option Table
  | [] => (f none).map fun v => [(name, v)]
  | (k, v) :: t =>
    if k = name then (f (some v)).map fun v => (k, v) :: t
    else (update name f t).map ((k, v) :: ·)

/-- Changes the last of some tables. -/
def updateLast (f : Table → Option Table) : List Table → Option (List Table)
  | [] => none
  | [t] => (f t).map fun t => [t]
  | t :: ts => (updateLast f ts).map (t :: ·)

/-- Changes what a header opens at the end of a path. Tables on the way that do not exist are implied,
and of several tables in a list the last is meant. -/
def atHeader (last : Option Value → Option Value) : List Text → Table → Option Table
  | [], _ => none
  | [name], t => t.update name last
  | name :: path, t =>
    t.update name fun
      | none => (atHeader last path []).map (.table .implied)
      | some (.table .closed _) => none
      | some (.table origin es) => (atHeader last path es).map (.table origin)
      | some (.tables ts) => (updateLast (atHeader last path) ts).map .tables
      | some _ => none

/-- A header opens a table that is new or so far only implied by headers. -/
def declare : List Text → Table → Option Table :=
  atHeader fun
    | none => some (.table .declared [])
    | some (.table .implied es) => some (.table .declared es)
    | some _ => none

/-- A header in double brackets adds a table to a list of such tables. -/
def addTable : List Text → Table → Option Table :=
  atHeader fun
    | none => some (.tables [[]])
    | some (.tables ts) => some (.tables (ts ++ [[]]))
    | some _ => none

/-- Gives a dotted name a value. All but the first table on the way must come of dotted names
themselves; `isOpen` says this of the one at hand. -/
def put (v : Value) (isOpen : Bool) : List Text → Table → Option Table
  | [], _ => none
  | [name], t =>
    if isOpen then t.update name fun
      | none => some v
      | some _ => none
    else none
  | name :: path, t =>
    t.update name fun
      | none => (put v true path []).map (.table .dotted)
      | some (.table .dotted es) => (put v true path es).map (.table .dotted)
      | some (.table .implied es) => (put v false path es).map (.table .implied)
      | some (.tables ts) => (updateLast (put v false path) ts).map .tables
      | some _ => none

/-- Changes the table that the header of `path` opened. -/
def within (f : Table → Option Table) : (path : List Text) → Table → Option Table
  | [], t => f t
  | name :: path, t =>
    t.update name fun
      | some (.table origin es) => (within f path es).map (.table origin)
      | some (.tables ts) => (updateLast (within f path) ts).map .tables
      | _ => none

end Table
end GuardedCalls.Toml
