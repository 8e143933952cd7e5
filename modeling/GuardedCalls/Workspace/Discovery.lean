import GuardedCalls.Rules.Basic
import GuardedCalls.Tree.Walk

/-!
Finding the source files under a directory. Links are not followed, except one that is the root
itself. Every directory below the root can be listed, however long its path is.
-/

namespace GuardedCalls

/-- The path at which the search failed. -/
structure WalkFault where
  path : Text
  fault : TreeFault
deriving DecidableEq, Repr

def WalkFault.message (f : WalkFault) : Text :=
  "IO error for operation on ".toList ++ f.path ++ ": ".toList ++ f.fault.message

namespace Discovery

mutual

/-- The names that lead from a node to the files in it, past no ignored directory. -/
def filesIn (ignored : List Text) : Node → List Place
  | .file _ => [[]]
  | .link _ => []
  | .dir es => filesAmong ignored es

def filesAmong (ignored : List Text) : List (Text × Node) → List Place
  | [] => []
  | (name, node) :: es =>
    (if node.isDir && ignored.contains name then []
      else (filesIn ignored node).map (name :: ·)) ++ filesAmong ignored es

end

/-- Whether the last of some names has one of the extensions. -/
def isSource (d : Discovery) (names : List Text) : Bool :=
  (names.getLast?.bind Path.extension?).any d.extensions.contains

/-- The source files in a node, `root` being its path, in the order of their names. -/
def sourcesIn (d : Discovery) (root : Text) (node : Node) : List Place :=
  ((filesIn d.ignoredDirs node).filter fun names =>
    d.isSource (Path.components root ++ names)).mergeSort (Text.lexLe Text.le)

/-- The node at which a search starts; a link stands for the directory that it leads to. -/
def rootNode (top : Node) (base : Place) (root : Text) : Except TreeFault Node := do
  match ← top.locate base false root with
  | .absent .. => .error .notFound
  | .found place =>
    match top.at? place with
    | some (.link target) =>
      match ← top.locate base true root with
      | .absent .. => .error .notFound
      | .found place =>
        match top.at? place with
        | some (.dir es) => .ok (.dir es)
        | _ => .ok (.link target)
    | some node => .ok node
    | none => .error .notFound

/-- The paths of the source files under a root. -/
def files (d : Discovery) (top : Node) (base : Place) (root : Text) :
    Except WalkFault (List Text) :=
  match rootNode top base root with
  | .error fault => .error ⟨root, fault⟩
  | .ok node => .ok ((d.sourcesIn root node).map (Path.joinAll root))

end Discovery
end GuardedCalls
