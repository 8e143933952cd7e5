import GuardedCalls.Workspace.Discovery
import GuardedCalls.Workspace.Fix
import GuardedCalls.Workspace.Store

/-!
Faults that end a command, and how they are told.
-/

namespace GuardedCalls

/-- A fault with the causes behind it, the nearest first. An `open` message has its cause in the text
that was read, and ends before the words about it. -/
structure Failure where
  message : Text
  causes : List Text
  isOpen : Bool
deriving DecidableEq, Repr

namespace Failure

/-- A cause from its first line on; the lines after it are indented alike. -/
def indented (first : Text) (rest : Nat) (cause : Text) : Text :=
  first ++ cause.flatMap fun c =>
    if c = '\n' then '\n' :: List.replicate rest ' ' else [c]

/-- Several causes are numbered. -/
def listed : List Text → Text
  | [] => []
  | [cause] => '\n' :: indented (List.replicate 4 ' ') 4 cause
  | causes =>
    (causes.zipIdx).flatMap fun (cause, i) =>
      let number := Text.ofNat i
      '\n' :: indented (List.replicate (5 - number.length) ' ' ++ number ++ ": ".toList) 7 cause

def report (f : Failure) : Text :=
  "Error: ".toList ++ f.message ++
    if f.isOpen then []
    else (if f.causes.isEmpty then [] else "\n\nCaused by:".toList ++ listed f.causes) ++ ['\n']

def ofRules (e : RuleError) : Failure :=
  match e with
  | .unreadable _ reason => ⟨e.message, [reason], false⟩
  | .malformed _ => ⟨e.message, [], true⟩
  | .rejected _ issues => ⟨e.message, [RuleSet.report issues], false⟩

def ofReport (e : ReportError) : Failure :=
  match e with
  | .access _ reason => ⟨e.message, [reason], false⟩
  | .malformed .. => ⟨e.message, [], true⟩

def ofWalk (root : Text) (e : WalkFault) : Failure :=
  ⟨"failed to walk ".toList ++ root, [e.message, e.fault.message], false⟩

def ofSafety (root : Text) (e : SafetyFault) : Failure :=
  ⟨"invalid project root ".toList ++ root,
    e.message :: match e with
      | .unresolved fault => [fault.message]
      | _ => [], false⟩

end Failure
end GuardedCalls
