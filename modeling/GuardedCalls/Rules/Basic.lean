import GuardedCalls.Text.Search

/-!
Rule sets: which methods are guarded by which helpers, which receivers are exempt, and which files
are sources.
-/

namespace GuardedCalls

/-- Calls of `method` become calls of `helper`. -/
structure Rule where
  method : Text
  helper : Text
deriving DecidableEq, Repr

/-- Source files have one of the extensions and lie in none of the ignored directories. -/
structure Discovery where
  extensions : List Text
  ignoredDirs : List Text
deriving DecidableEq, Repr

/-- `emptyHelper` is imported from `helperModule` along with the helpers of the rules. -/
structure RuleSet where
  helperModule : Text
  emptyHelper : Text
  rules : List Rule
  exempt : List Text
  discovery : Discovery
deriving DecidableEq, Repr

namespace RuleSet

def standardRules : List Rule :=
  [("map", "safeMap"), ("filter", "safeFilter"), ("find", "safeFind"), ("reduce", "safeReduce"),
    ("forEach", "safeForEach"), ("some", "safeSome"), ("every", "safeEvery")].map
    fun (method, helper) => ⟨method.toList, helper.toList⟩

def standardExempt : List Text :=
  ["Array", "Object", "JSON", "Math", "Promise", "String", "Number", "Date", "Reflect", "console",
    "window", "document", "z", "trpc"].map String.toList

def standardDiscovery : Discovery where
  extensions := ["ts", "tsx", "js", "jsx"].map String.toList
  ignoredDirs := ["node_modules", ".git", "dist", "build"].map String.toList

/-- The rule set in force when none is given; each part left out of a given one is taken from it. -/
def standard : RuleSet where
  helperModule := "@/lib/arrayHelpers".toList
  emptyHelper := "isEmpty".toList
  rules := standardRules
  exempt := standardExempt
  discovery := standardDiscovery

/-- The helper of the first rule for the method. -/
def helperFor? (rules : RuleSet) (method : Text) : Option Text :=
  (rules.rules.find? (·.method = method)).map Rule.helper

def helpers (rules : RuleSet) : List Text :=
  rules.rules.map Rule.helper

end RuleSet
end GuardedCalls
