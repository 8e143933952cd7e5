import GuardedCalls.Tree.Fault
import GuardedCalls.Tree.Path

/-!
Following a path through a tree: where it leads, or why it leads nowhere. The size of a path is limited
when it is given to an operation, in `checkPath`. A walk and the place that it finds know no such limit:
links may lead to places whose text no operation takes.
-/

namespace GuardedCalls

/-- Where a path leads: to a node, or to a name that its directory does not hold. `slashes` says that
the missing name is followed by slashes. -/
inductive Spot
  | found (place : Place)
  | absent (parent : Place) (name : Text) (slashes : Bool)
deriving DecidableEq, Repr

namespace Node

/-- How many links may be followed on the way. -/
def maxLinks : Nat := 40

/-- Follows the parts of a path from a place. Each part but the first needs a directory to stand in.
A link that the last part names is followed if `follow` says so, any other link always. -/
def walk (top : Node) (follow : Bool) (links : Nat) (here : Place) (parts : List Text) :
    Except TreeFault Spot :=
  match parts with
  | [] => .ok (.found here)
  | part :: rest =>
    match top.at? here with
    | some (.dir es) =>
      if part = [] || part = ['.'] then walk top follow links here rest
      else if part = ['.', '.'] then walk top follow links here.dropLast rest
      else if 255 < Utf8.size part then .error .nameTooLong
      else
        match es.lookup part with
        | none =>
          if rest.all (·.isEmpty) then .ok (.absent here part (!rest.isEmpty))
          else .error .notFound
        | some (.link target) =>
          if rest.isEmpty && !follow then .ok (.found (here ++ [part]))
          else
            match links with
            | 0 => .error .tooManyLinks
            | links + 1 =>
              walk top follow links (if Path.isAbsolute target then [] else here)
                (Path.parts target ++ rest)
        | some _ => walk top follow links (here ++ [part]) rest
    | _ => .error .notDirectory
termination_by (links, parts.length)

/-- The place where a path starts. -/
def start (base : Place) (path : Text) : Place :=
  if Path.isAbsolute path then [] else base

/-- The node that a path leads to, as its place without links. -/
def canonical (top : Node) (base : Place) (path : Text) : Except TreeFault Place :=
  if path.any (· = '\x00') then .error .nulInName
  else if path.isEmpty then .error .notFound
  else
    match walk top true maxLinks (start base path) (Path.parts path) with
    | .ok (.found place) => .ok place
    | .ok (.absent ..) => .error .notFound
    | .error e => .error e

/-- What an operation refuses of a path before it looks at the tree. -/
def checkPath (path : Text) : Except TreeFault Unit :=
  if path.any (· = '\x00') then .error .nulInName
  else if path.isEmpty then .error .notFound
  else if 4096 ≤ Utf8.size path then .error .nameTooLong
  else .ok ()

/-- Where a path leads when it is given to an operation. -/
def locate (top : Node) (base : Place) (follow : Bool) (path : Text) : Except TreeFault Spot := do
  checkPath path
  walk top follow maxLinks (start base path) (Path.parts path)

end Node
end GuardedCalls
