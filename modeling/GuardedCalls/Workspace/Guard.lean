import GuardedCalls.Tree.Walk

/-!
The guard of a workspace: it lets paths through that lead below the root and into no forbidden
directory.
-/

namespace GuardedCalls

inductive SafetyFault
  | outside (path root : Place)
  | forbidden (path : Place) (name : Text)
  | unresolved (fault : TreeFault)
deriving DecidableEq, Repr

namespace SafetyFault

def message : SafetyFault → Text
  | outside path root =>
    "Path is outside workspace: ".toList ++ path.toText ++ " (workspace: ".toList ++ root.toText ++
      [')']
  | forbidden path name =>
    "Path is in forbidden directory '".toList ++ name ++ "': ".toList ++ path.toText
  | unresolved fault => "Failed to canonicalize path: ".toList ++ fault.message

end SafetyFault

structure Guard where
  root : Place
  forbidden : List Text
deriving DecidableEq, Repr

namespace Guard

/-- The guard of the directory that a path leads to. -/
def ofPath (top : Node) (base : Place) (root : Text) (forbidden : List Text) :
    Except SafetyFault Guard :=
  match top.canonical base root with
  | .ok root => .ok ⟨root, forbidden⟩
  | .error e => .error (.unresolved e)

/-- Lets a place through that is below the root, unless a name on the way is forbidden. -/
def check (g : Guard) (place : Place) : Except SafetyFault Place :=
  match Path.dropStart? g.root place with
  | none => .error (.outside place g.root)
  | some below =>
    match below.find? g.forbidden.contains with
    | some name => .error (.forbidden place name)
    | none => .ok place

/-- Where a path leads as seen from the root; the empty path is the root, and a directory. -/
def resolve (g : Guard) (top : Node) (path : Text) : Except TreeFault Place :=
  if path.isEmpty then top.canonical g.root ['.'] else top.canonical g.root path

/-- The place that a path leads to, if the guard lets it through. -/
def validate (g : Guard) (top : Node) (path : Text) : Except SafetyFault Place :=
  match g.resolve top path with
  | .ok place => g.check place
  | .error e => .error (.unresolved e)

end Guard
end GuardedCalls
