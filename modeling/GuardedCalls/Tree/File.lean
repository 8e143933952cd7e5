import GuardedCalls.Tree.Walk

/-!
Reading and changing the files of a tree. A path is seen from the directory `base`.
-/

namespace GuardedCalls.Node

/-- The content of the file at a place. -/
def contentAt (top : Node) (place : Place) : Except TreeFault Bytes :=
  match top.at? place with
  | some (.file content) => .ok content
  | some (.dir _) => .error .isDirectory
  | some (.link _) => .error .tooManyLinks
  | none => .error .notFound

def read (top : Node) (base : Place) (path : Text) : Except TreeFault Bytes := do
  match ← top.locate base true path with
  | .found place => top.contentAt place
  | .absent .. => .error .notFound

/-- The parts of a path before its last name, when slashes follow that name. -/
def slashedParent? (path : Text) : Option (List Text) :=
  if path.getLast? = some '/' then
    some (((Path.parts path).reverse.dropWhile (·.isEmpty)).drop 1).reverse
  else none

/-- Writes a file, a new one or over one that is there. A path with slashes at its end can only mean
a directory, and so does the target of a link. -/
def write (top : Node) (base : Place) (path : Text) (content : Bytes) : Except TreeFault Node := do
  checkPath path
  match slashedParent? path with
  | some parent =>
    match ← walk top true maxLinks (start base path) parent with
    | .found place =>
      if (top.at? place).any isDir then .error .isDirectory else .error .notDirectory
    | .absent .. => .error .notFound
  | none =>
    match ← top.locate base true path with
    | .found place =>
      if (top.at? place).any isDir then .error .isDirectory
      else .ok (top.put place (.file content))
    | .absent parent name slashes =>
      if slashes then .error .isDirectory else .ok (top.put (parent ++ [name]) (.file content))

/-- Makes a directory whose name is not taken. -/
def makeDir (top : Node) (base : Place) (path : Text) : Except TreeFault Node := do
  match ← top.locate base false path with
  | .found _ => .error .exists
  | .absent parent name _ => .ok (top.put (parent ++ [name]) (.dir []))

def leadsToDir (top : Node) (base : Place) (path : Text) : Bool :=
  match top.locate base true path with
  | .ok (.found place) => (top.at? place).any isDir
  | _ => false

/-- Makes the directory of the first path, the others being those of the directories above it from
the nearest on. -/
def makeDirChain (top : Node) (base : Place) : List Text → Except TreeFault Node
  | [] => .ok top
  | path :: above =>
    match top.makeDir base path with
    | .ok top => .ok top
    | .error .notFound => do
      let top ← makeDirChain top base above
      orPresent top path (top.makeDir base path)
    | .error e => orPresent top path (.error e)
where
  orPresent (top : Node) (path : Text) : Except TreeFault Node → Except TreeFault Node
    | .ok top => .ok top
    | .error e => if top.leadsToDir base path then .ok top else .error e

/-- Makes a directory along with those above it that are missing. -/
def makeDirs (top : Node) (base : Place) (path : Text) : Except TreeFault Node :=
  makeDirChain top base (Path.ancestors path)

/-- Takes away a file, a link or a directory with all it holds. -/
def remove (top : Node) (base : Place) (path : Text) : Except TreeFault Node := do
  match ← top.locate base false path with
  | .found place => .ok (top.erase place)
  | .absent .. => .error .notFound

/-- Makes a link whose name is not taken. -/
def makeLink (top : Node) (base : Place) (path target : Text) : Except TreeFault Node :=
  if target.any (· = '\x00') then .error .nulInName
  else if target.isEmpty then .error .notFound
  else do
    match ← top.locate base false path with
    | .found _ => .error .exists
    | .absent parent name slashes =>
      if slashes then .error .notFound else .ok (top.put (parent ++ [name]) (.link target))

end GuardedCalls.Node
