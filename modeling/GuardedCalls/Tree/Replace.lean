import GuardedCalls.Tree.File

/-!
Replacing a file in one step: the new content is written beside it under a name of its own, which then
takes the place of the old one. A failure leaves the tree as it was.
-/

namespace GuardedCalls

inductive ReplaceFault
  | noParent (path : Text)
  | failed (fault : TreeFault)
deriving DecidableEq, Repr

namespace ReplaceFault

/-- What is said of a fault; of one in creating the staged file only what precedes the path of that
file, in which there is a random name. -/
def message : ReplaceFault → Text
  | noParent path => "Path has no parent directory: ".toList ++ path
  | failed fault => "File I/O error: ".toList ++ fault.message

end ReplaceFault

namespace Node

/-- A name longer than all of the given ones. -/
def freshName (names : List Text) : Text :=
  '.' :: List.replicate names.flatten.length 'x'

/-- A staged file gets a random name, for which another one is tried when it is taken. This one stands
for it where its length counts. -/
def stagedName : Text := ".tmpXXXXXX".toList

/-- The path under which a file is staged in a directory, seen from the top of the tree. -/
def stagingPath (base : Place) (directory : Text) : Text :=
  Path.join (Path.join base.toText directory) stagedName

/-- Creates a file in a directory, under a name that is not taken there. -/
def stage (top : Node) (base : Place) (directory : Text) (content : Bytes) :
    Except TreeFault (Place × Node) := do
  checkPath (stagingPath base directory)
  let place ← top.canonical base directory
  match top.at? place with
  | some (.dir es) =>
    let temp := place ++ [freshName (es.map Prod.fst)]
    return (temp, top.put temp (.file content))
  | _ => .error .notDirectory

/-- Moves the file at a place to a path, over a file or link that is there. -/
def move (top : Node) (base : Place) (source : Place) (path : Text) : Except TreeFault Node := do
  checkPath path
  let last := (Path.parts path).getLast?
  match ← top.locate base false path with
  | .found target =>
    if last = some ['.'] || last = some ['.', '.'] then .error .busy
    else if last = some [] then .error .notDirectory
    else if (top.at? target).any isDir then .error .isDirectory
    else moveTo source target
  | .absent parent name slashes =>
    if slashes then .error .notDirectory else moveTo source (parent ++ [name])
where
  moveTo (source target : Place) : Except TreeFault Node :=
    if source = target then .ok top
    else
      match top.at? source with
      | some node => .ok ((top.put target node).erase source)
      | none => .error .notFound

/-- Gives the file at a path a new content in one step. -/
def replace (top : Node) (base : Place) (path : Text) (content : Bytes) :
    Except ReplaceFault Unit × Node :=
  match Path.directory? path with
  | none => (.error (.noParent path), top)
  | some directory =>
    match top.stage base directory content with
    | .error e => (.error (.failed e), top)
    | .ok (temp, staged) =>
      match staged.move base temp path with
      | .ok after => (.ok (), after)
      | .error e => (.error (.failed e), staged.erase temp)

end Node
end GuardedCalls
