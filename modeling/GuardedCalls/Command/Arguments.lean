import GuardedCalls.Text.Search

/-!
The words of a command line: commands, their options, and what is refused.
-/

namespace GuardedCalls

/-- A command with its options; a rule set is read from `config` if that is given. -/
inductive Command
  | scan (root : Text) (config : Option Text) (output : Text) (worklist : Option Text)
  | fix (root : Text) (config : Option Text) (report : Text) (dryRun diff : Bool)
  | check (root : Text) (config : Option Text)
  | rules (config : Option Text)
deriving DecidableEq, Repr

/-- What a command line asks for. -/
inductive Invocation
  | run (command : Command)
  | version
  | help
  | misuse
deriving DecidableEq, Repr

namespace Arguments

/-- An option; `letter` is its short form. -/
structure Switch where
  name : String
  letter : Option Char
  takesValue : Bool
deriving DecidableEq, Repr

/-- One thing that a word says. After `due` the value of an option is the next word. -/
inductive Item
  | flag (name : String)
  | value (name : String) (v : Text)
  | due (name : String)
  | unknown
deriving DecidableEq, Repr

/-- What the letters after a single dash say. A letter whose option takes a value is followed by that
value, with or without an equals sign. -/
def ofLetters (switches : List Switch) : Text → List Item
  | [] => []
  | c :: t =>
    match switches.find? (·.letter = some c) with
    | none => [.unknown]
    | some s =>
      if s.takesValue then
        match t with
        | [] => [.due s.name]
        | '=' :: v => [.value s.name v]
        | v => [.value s.name v]
      else .flag s.name :: ofLetters switches t

/-- What the text after two dashes says. -/
def ofName (switches : List Switch) (t : Text) : Item :=
  let name := t.takeWhile (· ≠ '=')
  let value := t.dropWhile (· ≠ '=')
  match switches.find? (·.name.toList = name) with
  | none => .unknown
  | some s =>
    match s.takesValue, value with
    | true, [] => .due s.name
    | true, _ :: v => .value s.name v
    | false, [] => .flag s.name
    | false, _ :: _ => .unknown

/-- What a word says; a word that is no option says nothing known. -/
def itemsOf (switches : List Switch) : Text → List Item
  | '-' :: '-' :: t => [ofName switches t]
  | '-' :: c :: t => ofLetters switches (c :: t)
  | _ => [.unknown]

/-- The options given so far; a flag has an empty value. -/
abbrev Given := List (String × Text)

/-- Why the words are read no further. -/
inductive Stop
  | version
  | help
  | misuse
deriving DecidableEq, Repr

/-- Notes an option; none may be given twice. -/
def note (name : String) (v : Text) (given : Given) : Except Stop Given :=
  if name = "version" then .error .version
  else if name = "help" then .error .help
  else if (given.lookup name).isSome then .error .misuse
  else .ok ((name, v) :: given)

/-- Notes the option of a value, which is not empty. -/
def noteValue (name : String) (v : Text) (given : Given) : Except Stop Given :=
  if v.isEmpty then .error .misuse else note name v given

/-- Notes what a word says; also the name of an option whose value is due. -/
def noteAll : List Item → Given → Except Stop (Given × Option String)
  | [], given => .ok (given, none)
  | .flag name :: items, given => do noteAll items (← note name [] given)
  | .value name v :: items, given => do noteAll items (← noteValue name v given)
  | .due name :: _, given => .ok (given, some name)
  | .unknown :: _, _ => .error .misuse

/-- Whether a word can be no value: it starts with a dash that does not stand alone. -/
def isDashed : Text → Bool
  | '-' :: _ :: _ => true
  | _ => false

/-- The options among words, `due` being the one whose value comes next. Two dashes may end them. -/
def options (switches : List Switch) : (due : Option String) → List Text → Given → Except Stop Given
  | none, [], given => .ok given
  | some _, [], _ => .error .misuse
  | some name, word :: words, given =>
    if isDashed word then .error .misuse
    else do options switches none words (← noteValue name word given)
  | none, word :: words, given =>
    if word = ['-', '-'] then if words.isEmpty then .ok given else .error .misuse
    else do
      let (given, due) ← noteAll (itemsOf switches word) given
      options switches due words given

def verbose : Switch := ⟨"verbose", some 'v', false⟩
def help : Switch := ⟨"help", some 'h', false⟩
def root : Switch := ⟨"root", some 'r', true⟩
def config : Switch := ⟨"config", some 'c', true⟩

def topSwitches : List Switch :=
  [verbose, help, ⟨"version", some 'V', false⟩]

/-- The options of a command, and the command that they make. -/
def command? (name : Text) : Option (List Switch × (Given → Command)) :=
  let rootOf (given : Given) : Text := (given.lookup "root").getD ['.']
  let configOf (given : Given) : Option Text := given.lookup "config"
  let reportPath := "array-guard-report.json".toList
  if name = "scan".toList then
    some ([verbose, help, root, config, ⟨"output", some 'o', true⟩, ⟨"worklist", some 'w', true⟩],
      fun given => .scan (rootOf given) (configOf given) ((given.lookup "output").getD reportPath)
        (given.lookup "worklist"))
  else if name = "fix".toList then
    some ([verbose, help, root, config, ⟨"report", none, true⟩, ⟨"dry-run", some 'n', false⟩,
        ⟨"diff", some 'd', false⟩],
      fun given => .fix (rootOf given) (configOf given) ((given.lookup "report").getD reportPath)
        (given.lookup "dry-run").isSome (given.lookup "diff").isSome)
  else if name = "check".toList then
    some ([verbose, help, root, config], fun given => .check (rootOf given) (configOf given))
  else if name = "rules".toList then
    some ([verbose, help, config], fun given => .rules (configOf given))
  else none

/-- Help is given in general or on one command. -/
def ofHelp : List Text → Invocation
  | [] => .help
  | [name] => if (command? name).isSome || name = "help".toList then .help else .misuse
  | _ => .misuse

def ofStop : Stop → Invocation
  | .version => .version
  | .help => .help
  | .misuse => .misuse

/-- What the words ask for. General options come before the command, `given` being those seen. -/
def read (given : Given) : List Text → Invocation
  | [] => .misuse
  | word :: words =>
    match command? word with
    | some (switches, make) =>
      match options switches none words [] with
      | .ok given => .run (make given)
      | .error stop => ofStop stop
    | none =>
      if word = "help".toList then ofHelp words
      else
        match noteAll (itemsOf topSwitches word) given with
        | .ok (given, _) => read given words
        | .error stop => ofStop stop

end Arguments

namespace Invocation

def ofWords (words : List Text) : Invocation :=
  Arguments.read [] words

/-- The directory whose files are scanned or fixed. -/
def root? : Invocation → Option Text
  | run (.scan root ..) => some root
  | run (.fix root ..) => some root
  | run (.check root _) => some root
  | _ => none

/-- The file of the rule set. -/
def config? : Invocation → Option Text
  | run (.scan _ config ..) => config
  | run (.fix _ config ..) => config
  | run (.check _ config) => config
  | run (.rules config) => config
  | _ => none

/-- The files of reports and lists that are read or written. -/
def documents : Invocation → List Text
  | run (.scan _ _ output worklist) => output :: worklist.toList
  | run (.fix _ _ report ..) => [report]
  | _ => []

end Invocation

end GuardedCalls
