import GuardedCalls.Report.Basic
import GuardedCalls.Rules.Basic

/-!
The import of the helpers: which it names, how it is written and where it goes.
-/

namespace GuardedCalls

/-- U+FEFF, which may stand once at the start of a file. -/
def byteOrderMark : Char := '\ufeff'

/-- The helpers for the methods found, in the order of the rules, and last the emptiness helper
unless it is among them. -/
def RuleSet.requiredHelpers (rules : RuleSet) (findings : List Finding) : List Text :=
  let names := (rules.rules.filter fun rule => findings.any (·.method = rule.method)).map
    Rule.helper
  if names.contains rules.emptyHelper then names else names ++ [rules.emptyHelper]

namespace Import

/-- A text imports from a module if it names it between equal quotes after `from` or `import`. -/
def isPresent (source module : Text) : Bool :=
  ['"', '\''].any fun quote =>
    let quoted := quote :: module ++ [quote]
    Text.contains ("from ".toList ++ quoted) source ||
      Text.contains ("import ".toList ++ quoted) source

def statement (names : List Text) (module : Text) : Text :=
  "import \x7b ".toList ++ Text.join ", ".toList names ++ " \x7d from \"".toList ++ module ++
    "\";".toList

/-- The characters that may follow the word `import` in a statement. -/
def isBreak (c : Char) : Bool :=
  Text.isBlank c || ['{', '*', '"', '\''].contains c

def isStatementLine (line : Text) : Bool :=
  let line := (Text.stripPrefix? [byteOrderMark] line).getD line
  match Text.stripPrefix? "import".toList (line.dropWhile Text.isBlank) with
  | none => false
  | some rest => rest.head?.any isBreak

/-- The index of the first line that starts an import statement. -/
def first? (lines : List Text) : Option Nat :=
  lines.findIdx? isStatementLine

end Import
end GuardedCalls
