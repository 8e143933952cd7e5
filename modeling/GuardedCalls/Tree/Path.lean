import GuardedCalls.Text.Search
import GuardedCalls.Tree.Basic

/-!
Paths as texts: their parts, joining them, and naming a file relative to a directory.
-/

namespace GuardedCalls

namespace Path

/-- What stands between the slashes of a path. -/
def parts : Text → List Text
  | [] => [[]]
  | c :: t =>
    if c = '/' then [] :: parts t
    else
      match parts t with
      | [] => [[c]]
      | p :: ps => (c :: p) :: ps

def isAbsolute (path : Text) : Bool :=
  path.head? = some '/'

/-- The second path as seen from the first one. -/
def join (base path : Text) : Text :=
  if isAbsolute path then path
  else if base.isEmpty || base.getLast? = some '/' then base ++ path
  else base ++ '/' :: path

def joinAll (base : Text) (names : List Text) : Text :=
  names.foldl join base

/-- The parts that count when paths are compared as texts: a leading slash is one, and a single point
counts only at the front of a relative path. -/
def components (path : Text) : List Text :=
  let inner := (parts path).filter fun p => p ≠ [] && p ≠ ['.']
  if isAbsolute path then ['/'] :: inner
  else if (parts path).head? = some ['.'] then ['.'] :: inner
  else inner

/-- The path without its last component, if it has one that is a name. -/
def parent? (path : Text) : Option Text :=
  match components path with
  | [] => none
  | [['/']] => none
  | ['/'] :: inner => some ('/' :: Text.join ['/'] inner.dropLast)
  | cs => some (Text.join ['/'] cs.dropLast)

/-- The directory that the last component of a path stands in. It is the one that the path is seen from
if there is no component before. -/
def directory? (path : Text) : Option Text :=
  (parent? path).map fun parent => if parent.isEmpty then ['.'] else parent

/-- A path and the paths of the directories above it, from the nearest on. -/
def ancestors (path : Text) : List Text :=
  ((List.range (path.length + 1)).filterMap fun i =>
    let next := path.drop i
    if i = 0 || !(next.isEmpty || next.head? = some '/') then none else some (path.take i)).reverse

/-- The rest of a list after its first items. -/
def dropStart? : (start list : List Text) → Option (List Text)
  | [], list => some list
  | _ :: _, [] => none
  | a :: start, b :: list => if a = b then dropStart? start list else none

/-- The name of a file in reports: its path below the root, or the whole path if it is elsewhere. -/
def nameBelow (root path : Text) : Text :=
  match dropStart? (components root) (components path) with
  | some below => Text.join ['/'] below
  | none => path

/-- The part of a file's name after its last point, unless the name starts with that point. -/
def extension? (name : Text) : Option Text :=
  let ext := (name.reverse.takeWhile (· ≠ '.')).reverse
  let before := name.take (name.length - ext.length - 1)
  if ext.length = name.length || before.isEmpty then none else some ext

end Path

namespace Place

def toText (p : Place) : Text :=
  if p.isEmpty then ['/'] else p.flatMap ('/' :: ·)

end Place
end GuardedCalls
