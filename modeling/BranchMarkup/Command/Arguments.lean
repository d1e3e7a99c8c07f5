/-! The arguments of the command line. -/
namespace BranchMarkup

inductive Command where
  | init (name : Option String)
  | transform (input : String) (output : Option String) (wantsMap verbose : Bool)
  | check (input : String) (verbose : Bool)
  | tree (input : String) (transformed compact : Bool)
  | version
deriving DecidableEq, Repr

namespace Command

structure Usage where
  switches : List (String × Option Char)
  options : List (String × Option Char)
  words : Nat

/-- What was given: the long names of switches, options with their values, and words, in order. -/
structure Given where
  switches : List String
  options : List (String × String)
  words : List String

def Given.none : Given := ⟨[], [], []⟩

namespace Usage

def switch? (u : Usage) (name : String) : Option String :=
  (u.switches.find? (·.1 = name)).map (·.1)

def option? (u : Usage) (name : String) : Option String := (u.options.find? (·.1 = name)).map (·.1)

def shortSwitch? (u : Usage) (c : Char) : Option String :=
  (u.switches.find? (·.2 = some c)).map (·.1)

def shortOption? (u : Usage) (c : Char) : Option String :=
  (u.options.find? (·.2 = some c)).map (·.1)

end Usage

inductive UsageFault where
  | unknown (argument : String)
  | valueMissing (name : String)
  | repeated (name : String)
  | missing
deriving DecidableEq, Repr

def UsageFault.message : UsageFault → String
  | unknown argument => "unexpected argument '" ++ argument ++ "' found"
  | valueMissing name => "a value is required for '--" ++ name ++ "' but none was supplied"
  | repeated name => "the argument '--" ++ name ++ "' cannot be used multiple times"
  | missing => "the required arguments were not provided"

namespace Given

def addSwitch (g : Given) (name : String) : Except UsageFault Given :=
  if g.switches.contains name then .error (.repeated name)
  else .ok { g with switches := g.switches ++ [name] }

def addOption (g : Given) (name value : String) : Except UsageFault Given :=
  if value = "" then .error (.valueMissing name)
  else if (g.options.lookup name).isSome then .error (.repeated name)
  else .ok { g with options := g.options ++ [(name, value)] }

def addWord (u : Usage) (g : Given) (word : String) : Except UsageFault Given :=
  if g.words.length < u.words then .ok { g with words := g.words ++ [word] }
  else .error (.unknown word)

end Given

/-- Letters after one dash: switches, up to an option, whose value is what is left of the
argument. An option without a value is returned as waiting for one. -/
def readLetters (u : Usage) (g : Given) : List Char → Except UsageFault (Given × Option String)
  | [] => .ok (g, none)
  | c :: cs =>
    match u.shortSwitch? c, u.shortOption? c with
    | some name, _ => do readLetters u (← g.addSwitch name) cs
    | none, some name =>
      match cs with
      | [] => .ok (g, some name)
      | '=' :: value | value => do return (← g.addOption name (String.ofList value), none)
    | none, none => .error (.unknown (String.ofList ['-', c]))

/-- Reads arguments in order. After two dashes all are words. -/
def readArguments (u : Usage) : Given → List String → Except UsageFault Given
  | g, [] => .ok g
  | g, a :: rest =>
    match a.toList with
    | ['-', '-'] => rest.foldlM (Given.addWord u) g
    | '-' :: '-' :: cs =>
      match cs.span (· ≠ '=') with
      | (name, '=' :: value) =>
        match u.option? (String.ofList name) with
        | some name => do readArguments u (← g.addOption name (String.ofList value)) rest
        | none => .error (.unknown a)
      | (name, _) =>
        match u.switch? (String.ofList name), u.option? (String.ofList name) with
        | some name, _ => do readArguments u (← g.addSwitch name) rest
        | none, some name => takeValue g name rest
        | none, none => .error (.unknown a)
    | '-' :: c :: cs => do
      match ← readLetters u g (c :: cs) with
      | (g, none) => readArguments u g rest
      | (g, some name) => takeValue g name rest
    | _ => do readArguments u (← g.addWord u a) rest
where
  /-- The value of an option is the next argument, unless that begins with a dash. -/
  takeValue (g : Given) (name : String) : List String → Except UsageFault Given
    | [] => .error (.valueMissing name)
    | v :: rest =>
      if v.toList.head? = some '-' && v ≠ "-" then .error (.valueMissing name)
      else do readArguments u (← g.addOption name v) rest

def requiredWord (g : Given) : Except UsageFault String :=
  match g.words with
  | word :: _ => if word = "" then .error .missing else .ok word
  | [] => .error .missing

def verboseSwitch : String × Option Char := ("verbose", some 'v')

/-- The version is asked for before any subcommand; letters after it do not count. -/
def asksVersion (argument : String) : Bool :=
  argument = "--version" || argument.toList.take 2 = ['-', 'V']

def ofArguments : List String → Except UsageFault Command
  | [] => .error .missing
  | name :: rest =>
    if asksVersion name then .ok .version else
    match name with
    | "init" => do
      let g ← readArguments ⟨[], [], 1⟩ .none rest
      return .init g.words.head?
    | "transform" => do
      let usage := ⟨[("source-map", none), verboseSwitch], [("output", some 'o')], 1⟩
      let g ← readArguments usage .none rest
      return .transform (← requiredWord g) (g.options.lookup "output")
        (g.switches.contains "source-map") (g.switches.contains "verbose")
    | "check" => do
      let g ← readArguments ⟨[verboseSwitch], [], 1⟩ .none rest
      return .check (← requiredWord g) (g.switches.contains "verbose")
    | "tree" => do
      let g ← readArguments ⟨[("transformed", none), ("compact", none)], [], 1⟩ .none rest
      return .tree (← requiredWord g) (g.switches.contains "transformed")
        (g.switches.contains "compact")
    | _ => .error (.unknown name)

end Command
end BranchMarkup
