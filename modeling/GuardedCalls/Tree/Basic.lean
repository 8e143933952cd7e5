import GuardedCalls.Text.Utf8

/-!
Trees of directories, files and symbolic links, and the places in them. Names are texts, so a name that
is not UTF-8 has no place here; and a place may be any number of names long.
-/

namespace GuardedCalls

/-- A link keeps its target as it was written. The names in a directory differ from each other. -/
inductive Node
  | file (content : Bytes)
  | link (target : Text)
  | dir (entries : List (Text × Node))
deriving Repr

/-- The names that lead from the top of a tree to a node. -/
abbrev Place := List Text

namespace Node

def isDir : Node → Bool
  | dir _ => true
  | _ => false

/-- The node at a place; links on the way are not followed. -/
def at? : Node → Place → Option Node
  | node, [] => some node
  | dir es, name :: rest => (es.lookup name).bind fun node => at? node rest
  | _, _ :: _ => none

/-- Changes the entry of a name. -/
def modifyEntry (name : Text) (f : Node → Node) (es : List (Text × Node)) : List (Text × Node) :=
  es.map fun (n, node) => if n = name then (n, f node) else (n, node)

/-- Puts a node at a place, in place of one that is there or into the directory that is to hold it.
Without that directory nothing changes. -/
def put : Node → Place → (new : Node) → Node
  | _, [], new => new
  | dir es, name :: rest, new =>
    if (es.lookup name).isSome then dir (modifyEntry name (fun node => put node rest new) es)
    else if rest.isEmpty then dir (es ++ [(name, new)])
    else dir es
  | node, _ :: _, _ => node

/-- Takes away the node at a place other than the top. -/
def erase : Node → Place → Node
  | dir es, [name] => dir (es.filter fun (n, _) => n ≠ name)
  | dir es, name :: rest => dir (modifyEntry name (fun node => erase node rest) es)
  | node, _ => node

/-- The names in a directory. -/
def names : Node → List Text
  | dir es => es.map Prod.fst
  | _ => []

mutual

/-- The files of a tree with their contents. -/
def files : Node → List (Place × Bytes)
  | file content => [([], content)]
  | link _ => []
  | dir es => filesAmong es

def filesAmong : List (Text × Node) → List (Place × Bytes)
  | [] => []
  | (name, node) :: es =>
    (files node).map (fun (place, content) => (name :: place, content)) ++ filesAmong es

end

/-- The files that another tree does not have, or not with the same content. -/
def filesNotIn (old new : Node) : List (Place × Bytes) :=
  new.files.filter fun (place, content) =>
    match old.at? place with
    | some (.file before) => before ≠ content
    | _ => true

end Node
end GuardedCalls
