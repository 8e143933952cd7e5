import GuardedCalls.Report.Basic
import GuardedCalls.Rules.Basic
import GuardedCalls.Scan.Call
import GuardedCalls.Scan.Exemption
import GuardedCalls.Text.Fingerprint

/-!
Scanning a source text line by line.
-/

namespace GuardedCalls
namespace RuleSet

/-- The calls of one rule's method on line `n` whose receivers are not exempt. -/
def findingsOf (rules : RuleSet) (n : Nat) (line : Text) (rule : Rule) : List Finding :=
  ((receivers rule.method line).filter fun v => !isExempt rules.exempt v line).map fun v =>
    ⟨n, rule.method, v, line.trim⟩

def findingsOn (rules : RuleSet) (n : Nat) (line : Text) : List Finding :=
  rules.rules.flatMap (rules.findingsOf n line)

/-- The findings of a text by line, then by rule, then by place on the line. -/
def findings (rules : RuleSet) (source : Text) : List Finding :=
  (source.lines.zipIdx 1).flatMap fun (line, n) => rules.findingsOn n line

/-- A text that mentions a helper anywhere counts as already protected. -/
def isProtected (rules : RuleSet) (source : Text) : Bool :=
  rules.helpers.any fun helper => Text.contains helper source

def scan (rules : RuleSet) (file source : Text) : FileReport :=
  { FileReport.ofFindings file (rules.isProtected source) (rules.findings source) with
    contentHash := some source.fingerprint }

end RuleSet
end GuardedCalls
