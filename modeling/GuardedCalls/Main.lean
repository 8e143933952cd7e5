import GuardedCalls.Command.Run

/-!
The command line. What it may read is taken from the disk into a tree, the command runs over that tree,
and the files that it changed are written back.
-/

namespace GuardedCalls.Disk

/-- The names that lead to an absolute path. -/
def placeOf (path : String) : Place :=
  (Path.parts path.toList).filter (! ·.isEmpty)

/-- Puts a node into a tree along with the directories above it. A directory that is there stays. -/
def note (path : String) (node : Node) (top : Node) : Node :=
  let place := placeOf path
  let above := (List.range place.length).map place.take
  let top := above.foldl (fun top place =>
    if (top.at? place).isSome then top else top.put place (.dir [])) top
  if node.isDir && (top.at? place).isSome then top else top.put place node

/-- What stands at an absolute path, without following a link there. -/
def kindAt? (path : String) : IO (Option IO.FS.FileType) := do
  try return some (← ((← IO.currentDir) / path).symlinkMetadata).type catch _ => return none

def contentAt? (path : String) : IO (Option Bytes) := do
  try return some (← IO.FS.readBinFile path).toList catch _ => return none

/-- Where a path leads after all links, if it leads anywhere. -/
def target? (path : String) : IO (Option String) := do
  try return some (← IO.FS.realPath path).toString catch _ => return none

def entryNames (path : String) : IO (List String) := do
  try return (← ((← IO.currentDir) / path).readDir).toList.map (·.fileName) catch _ => return []

/-- Takes in what a path goes through, and the file at its end, seen from an absolute directory. -/
partial def takeWay (top : Node) (here : String) (parts : List Text) : IO Node := do
  let top := note here (.dir []) top
  match parts with
  | [] => return top
  | part :: rest =>
    if part.isEmpty || part = ['.'] then takeWay top here rest
    else if part = ['.', '.'] then
      takeWay top (String.ofList (Place.toText (placeOf here).dropLast)) rest
    else
      let next := String.ofList (Path.join here.toList part)
      match ← kindAt? next with
      | some .dir => takeWay top next rest
      | some .file =>
        match ← contentAt? next with
        | some content => return note next (.file content) top
        | none => return top
      | some .symlink =>
        match ← target? next with
        | some target =>
          let top := note next (.link target.toList) top
          takeWay top "/" (Path.parts target.toList ++ rest)
        | none => return top
      | _ => return top

/-- Takes in a directory with all it holds. Of files in ignored directories only the names are taken,
since no command looks into them. -/
partial def takeAll (ignored : List Text) (hidden : Bool) (top : Node) (path : String) : IO Node := do
  let mut top := note path (.dir []) top
  for name in ← entryNames path do
    let next := String.ofList (Path.join path.toList name.toList)
    match ← kindAt? next with
    | some .dir => top ← takeAll ignored (hidden || ignored.contains name.toList) top next
    | some .file =>
      if hidden then top := note next (.file []) top
      else top ← takeWay top path [name.toList]
    | some .symlink => top ← takeWay top path [name.toList]
    | _ => pure ()
  return top

/-- Takes in what a command may look at. -/
def takeFor (invocation : Invocation) (here : String) : IO Node := do
  let way (top : Node) (path : Text) : IO Node :=
    takeWay top (if Path.isAbsolute path then "/" else here) (Path.parts path)
  let top ← way (.dir []) here.toList
  let top ← (invocation.config?.toList ++ invocation.documents).foldlM way top
  match invocation.root? with
  | none => return top
  | some root =>
    let top ← way top root
    let ignored := match RuleSet.load top (placeOf here) invocation.config? with
      | .ok rules => rules.discovery.ignoredDirs
      | .error _ => []
    match ← target? (String.ofList root) with
    | some path => takeAll ignored false top path
    | none => return top

/-- Writes a file beside its place and moves it there, so that it is never half written. -/
def save (place : Place) (content : Bytes) : IO Unit := do
  let path := String.ofList place.toText
  let beside := path ++ ".new"
  IO.FS.writeBinFile beside ⟨content.toArray⟩
  IO.FS.rename beside path

/-- Whether the terminal and its settings ask for colours. -/
def showsColors : IO Bool := do
  return Style.shown (← IO.getEnv "CLICOLOR_FORCE") (← IO.getEnv "NO_COLOR") (← IO.getEnv "CLICOLOR")
    (← (← IO.getStdout).isTty)

end GuardedCalls.Disk

open GuardedCalls in
/-- Runs the command line and ends with its code. -/
def main (args : List String) : IO UInt32 := do
  let here := (← IO.currentDir).toString
  let invocation := Invocation.ofWords (args.map String.toList)
  let tree ← Disk.takeFor invocation here
  let setting : Setting := { tree, base := Disk.placeOf here, colors := ← Disk.showsColors }
  let result := setting.invoke invocation
  for (place, content) in tree.filesNotIn result.tree do
    Disk.save place content
  (← IO.getStdout).putStr (String.ofList result.out)
  (← IO.getStderr).putStr (String.ofList result.err)
  return result.code.toUInt32
