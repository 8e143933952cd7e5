import GuardedCalls.Rules.Basic

/-!
What is wrong with a rule set, in the order in which it is reported.
-/

namespace GuardedCalls

/-- A fault of a rule set. `missing` names a field left blank, and the method of its rule if the
rule has one. -/
inductive Issue
  | noRules
  | missing (method : Option Text) (field : Text)
  | badMethod (method : Text)
  | badHelper (method helper : Text)
  | repeated (method : Text)
deriving DecidableEq, Repr

namespace Issue

/-- The method whose rule is at fault. -/
def method? : Issue → Option Text
  | noRules => none
  | missing method _ => method
  | badMethod method => some method
  | badHelper method _ => some method
  | repeated method => some method

def message : Issue → Text
  | noRules => "rule config contains no methods".toList
  | missing (some method) field =>
    "method '".toList ++ method ++ "' missing required field '".toList ++ field ++ "'".toList
  | missing none field => "missing required field '".toList ++ field ++ "'".toList
  | badMethod method => invalid method "method is not a valid identifier".toList
  | badHelper method helper =>
    invalid method ("helper '".toList ++ helper ++ "' is not a valid identifier".toList)
  | repeated method => "method '".toList ++ method ++ "' is declared more than once".toList
where
  invalid (method reason : Text) : Text :=
    "method '".toList ++ method ++ "' has invalid configuration: ".toList ++ reason

end Issue

/-- The faults of one rule, `seen` being the methods of the rules before it. -/
def Rule.issues (seen : List Text) (rule : Rule) : List Issue :=
  if Text.isBlankText rule.method then [.missing none "methods.method".toList]
  else
    (if Text.isIdentifier rule.method then [] else [.badMethod rule.method]) ++
    (if Text.isBlankText rule.helper then [.missing (some rule.method) "methods.helper".toList]
      else if Text.isIdentifier rule.helper then []
      else [.badHelper rule.method rule.helper]) ++
    (if seen.contains rule.method then [.repeated rule.method] else [])

namespace RuleSet

def ruleIssues (seen : List Text) : List Rule → List Issue
  | [] => []
  | rule :: rules => rule.issues seen ++ ruleIssues (rule.method :: seen) rules

def issues (rules : RuleSet) : List Issue :=
  (if rules.rules.isEmpty then [.noRules] else []) ++
  (if Text.isBlankText rules.helperModule then [.missing none "helper_module".toList] else []) ++
  (if Text.isBlankText rules.emptyHelper then [.missing none "empty_check_helper".toList]
    else []) ++
  ruleIssues [] rules.rules

def isValid (rules : RuleSet) : Bool :=
  rules.issues.isEmpty

/-- The methods that issues name, each once, in the order of first mention. -/
def blamed (issues : List Issue) : List Text :=
  (issues.filterMap Issue.method?).foldl
    (fun names name => if names.contains name then names else names ++ [name]) []

/-- One line for each issue. -/
def report (issues : List Issue) : Text :=
  Text.join ['\n'] (issues.map Issue.message)

end RuleSet
end GuardedCalls
