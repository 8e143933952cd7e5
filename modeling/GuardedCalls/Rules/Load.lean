import GuardedCalls.Rules.Validation
import GuardedCalls.Text.Utf8
import GuardedCalls.Toml.Document

/-!
Rule sets from settings files: what each part of a file stands for, and what can be wrong with it.
-/

namespace GuardedCalls
open Toml (Value)

/-- Where the text of a rule set comes from. -/
inductive RuleOrigin
  | inline
  | file (path : Text)
deriving DecidableEq, Repr

def RuleOrigin.name : RuleOrigin → Text
  | inline => "inline rule config".toList
  | file path => "rule config ".toList ++ path

/-- Why there is no rule set. -/
inductive RuleError
  | unreadable (path reason : Text)
  | malformed (origin : RuleOrigin)
  | rejected (origin : RuleOrigin) (issues : List Issue)
deriving DecidableEq, Repr

namespace RuleError

/-- What is said of a fault; of a malformed file only what precedes the place of the fault. -/
def message : RuleError → Text
  | unreadable path reason =>
    "failed to read rule config ".toList ++ path ++ ": ".toList ++ reason
  | malformed origin => "failed to parse ".toList ++ origin.name ++ ": ".toList
  | rejected origin issues =>
    let names := RuleSet.blamed issues
    origin.name ++ " rejected".toList ++
      (if names.isEmpty then [] else
        " (rules: ".toList ++ Text.join ", ".toList names ++ [')']) ++
      ": ".toList ++ RuleSet.report issues

end RuleError

namespace RuleSet

def text? : Value → Option Text
  | .text t => some t
  | _ => none

def items? : Value → Option (List Value)
  | .array vs => some vs
  | .tables ts => some (ts.map (.table .declared))
  | _ => none

def texts? (v : Value) : Option (List Text) :=
  (items? v).bind (List.mapM text?)

/-- The values of the named parts. A list gives them in their order, and a date or time is a table
without any part. -/
def parts? (names : List String) : Value → Option (List (Option Value))
  | .table _ es => some (names.map fun name => es.lookup name.toList)
  | .moment => some (names.map fun _ => none)
  | v => (items? v).map fun vs => (List.range names.length).map fun i => vs[i]?

/-- A part that is left out has a standard value. -/
def part {α : Type} (standard : α) (read : Value → Option α) : Option Value → Option α
  | none => some standard
  | some v => read v

def rule? (v : Value) : Option Rule := do
  match ← parts? ["method", "helper"] v with
  | [some method, some helper] => return ⟨← text? method, ← text? helper⟩
  | _ => none

def exempt? (v : Value) : Option (List Text) := do
  match ← parts? ["identifiers"] v with
  | [names] => part standardExempt texts? names
  | _ => none

def discovery? (v : Value) : Option Discovery := do
  match ← parts? ["extensions", "ignore_dirs"] v with
  | [extensions, dirs] =>
    return {
      extensions := ← part standardDiscovery.extensions texts? extensions
      ignoredDirs := ← part standardDiscovery.ignoredDirs texts? dirs }
  | _ => none

/-- The rule set that the parts of a table give. Other parts are passed over. -/
def ofTable? (t : Toml.Table) : Option RuleSet := do
  let get (name : String) : Option Value := t.lookup name.toList
  return {
    helperModule := ← part standard.helperModule text? (get "helper_module")
    emptyHelper := ← part standard.emptyHelper text? (get "empty_check_helper")
    rules := ← part standard.rules (fun v => (items? v).bind (List.mapM rule?)) (get "methods")
    exempt := ← part standard.exempt exempt? (get "exemptions")
    discovery := ← part standard.discovery discovery? (get "discovery") }

/-- The rule set that a text stands for, if it is valid. -/
def ofText (origin : RuleOrigin) (t : Text) : Except RuleError RuleSet :=
  match (Toml.read? t).bind ofTable? with
  | none => .error (.malformed origin)
  | some rules => if rules.isValid then .ok rules else .error (.rejected origin rules.issues)

/-- The rule set in the file at `path`, given its content. -/
def ofBytes (path : Text) (content : Bytes) : Except RuleError RuleSet :=
  match Utf8.decode content with
  | .error _ => .error (.unreadable path Utf8.notText)
  | .ok t => ofText (.file path) t

end RuleSet
end GuardedCalls
