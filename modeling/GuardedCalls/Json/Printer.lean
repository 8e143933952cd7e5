import GuardedCalls.Json.Quoted

/-!
Writing a document: each item and each field has a line of its own, two blanks further in than the
bracket that holds it.
-/

namespace GuardedCalls.Json.Value

def newline (indent : Nat) : Text :=
  '\n' :: List.replicate (2 * indent) ' '

mutual

def write (indent : Nat) : Value → Text
  | text t => Quoted.write t
  | bool b => if b then "true".toList else "false".toList
  | count n => Text.ofNat n
  | list [] => ['[', ']']
  | list (v :: vs) =>
    '[' :: newline (indent + 1) ++ write (indent + 1) v ++ writeItems (indent + 1) vs ++
      newline indent ++ [']']
  | record [] => ['{', '}']
  | record ((name, v) :: fs) =>
    '{' :: newline (indent + 1) ++ Quoted.write name ++ ':' :: ' ' :: write (indent + 1) v ++
      writeFields (indent + 1) fs ++ newline indent ++ ['}']

def writeItems (indent : Nat) : List Value → Text
  | [] => []
  | v :: vs => ',' :: newline indent ++ write indent v ++ writeItems indent vs

def writeFields (indent : Nat) : List (Text × Value) → Text
  | [] => []
  | (name, v) :: fs =>
    ',' :: newline indent ++ Quoted.write name ++ ':' :: ' ' :: write indent v ++
      writeFields indent fs

end

end GuardedCalls.Json.Value
