/-!
# CommandLine — Arguments

Reading command-line arguments: flags and options with a value, in their long and short
spellings (`--target cuda`, `--target=cuda`, `-t cuda`, `-tcuda`, `-jt cuda`), and positional
arguments, which are all that follow a `--`.  Each option may be given once.  Arguments are
judged from left to right, and the first one that settles the matter does.
-/

namespace TensorLoops

/-- Why reading stops without a command. -/
inductive Stop where
  | usage
  | help
  | version
deriving DecidableEq, Repr

/-- An option: its long name, its letter, and, if it takes a value, which values it takes. -/
structure OptionSpec where
  name    : String
  letter  : Option Char
  accepts : Option (String → Bool)

/-- An argument that has been understood; a flag has no value. -/
inductive Argument where
  | option (name : String) (value : Option String)
  | positional (value : String)
deriving DecidableEq, Repr

/-- What a command takes: options, and a number of positional arguments. -/
structure Grammar where
  options     : List OptionSpec
  positionals : Nat

namespace Grammar

/-- Whether an argument is spelled like an option. -/
def isOption (a : String) : Bool := a.toList.head? == some '-' && a != "-"

/-- The text with its first `=` taken out, as two parts. -/
def splitValue (cs : List Char) : String × Option String :=
  let name := cs.takeWhile (· != '=')
  match cs.drop name.length with
  | []         => (String.ofList name, none)
  | _ :: value => (String.ofList name, some (String.ofList value))

/-- Add an option that was not given before, with a value if it takes one. -/
def give (spec : OptionSpec) (value : Option String) (seen : List Argument) :
    Except Stop (List Argument) :=
  if spec.name = "help" then .error (if value.isSome then .usage else .help)
  else if spec.name = "version" then .error (if value.isSome then .usage else .version)
  else
    let given := seen.any fun
      | .option name _ => name == spec.name
      | .positional _  => false
    let fits := match spec.accepts, value with
      | none,         none       => true
      | some accepts, some value => accepts value
      | _,            _          => false
    if given || !fits then .error .usage else .ok (seen ++ [.option spec.name value])

/-- Read a cluster of letters.  An option that takes a value takes the rest of the cluster;
`some` is an option still waiting for its value. -/
def letters (g : Grammar) :
    List Char → List Argument → Except Stop (List Argument × Option OptionSpec)
  | [],      seen => .ok (seen, none)
  | c :: cs, seen =>
      match g.options.find? fun spec => spec.letter == some c with
      | none      => .error .usage
      | some spec =>
          match spec.accepts, cs with
          | none,   _           => do letters g cs (← give spec none seen)
          | some _, []          => .ok (seen, some spec)
          | some _, '=' :: rest => do return (← give spec (some (String.ofList rest)) seen, none)
          | some _, rest        => do return (← give spec (some (String.ofList rest)) seen, none)

/-- Read a long option; `some` is an option still waiting for its value. -/
def long (g : Grammar) (cs : List Char) (seen : List Argument) :
    Except Stop (List Argument × Option OptionSpec) :=
  let (name, value) := splitValue cs
  match g.options.find? fun spec => spec.name == name with
  | none      => .error .usage
  | some spec =>
      if spec.accepts.isSome && value.isNone then .ok (seen, some spec)
      else do return (← give spec value seen, none)

/-- Read one argument that is spelled like an option. -/
def option (g : Grammar) (a : String) (seen : List Argument) :
    Except Stop (List Argument × Option OptionSpec) :=
  match a.toList with
  | '-' :: '-' :: cs => g.long cs seen
  | '-' :: cs        => g.letters cs seen
  | _                => .error .usage

/-- Add a positional argument. -/
def place (g : Grammar) (a : String) (seen : List Argument) : Except Stop (List Argument) :=
  let count := seen.countP fun
    | .option _ _   => false
    | .positional _ => true
  if count < g.positionals then .ok (seen ++ [.positional a]) else .error .usage

/-- Read arguments, `waiting` being the option whose value comes next; after a `--` all are
positional. -/
def read (g : Grammar) : Bool → Option OptionSpec → List Argument → List String →
    Except Stop (List Argument)
  | _,     some _,    _,    []        => .error .usage
  | _,     none,      seen, []        => .ok seen
  | true,  some _,    _,    _ :: _    => .error .usage
  | true,  none,      seen, a :: rest => do read g true none (← g.place a seen) rest
  | false, some spec, seen, a :: rest =>
      if isOption a then .error .usage
      else do read g false none (← give spec (some a) seen) rest
  | false, none,      seen, a :: rest =>
      if a = "--" then read g true none seen rest
      else if isOption a then do
        let (seen, waiting) ← g.option a seen
        read g false waiting seen rest
      else do read g false none (← g.place a seen) rest

/-- Read the options before a command word; the word and what follows it are returned. -/
def readLeading (g : Grammar) : List Argument → List String → Except Stop (String × List String)
  | _,    []        => .error .usage
  | seen, a :: rest =>
      if a = "--" then .error .usage
      else if isOption a then do
        let (seen, _) ← g.option a seen
        readLeading g seen rest
      else .ok (a, rest)

end Grammar

/-- Whether a flag was given. -/
def hasFlag (args : List Argument) (name : String) : Bool := args.contains (.option name none)

/-- The value given for an option. -/
def optionValue? (args : List Argument) (name : String) : Option String :=
  args.findSome? fun
    | .option n value => if n = name then value else none
    | .positional _   => none

/-- The first positional argument. -/
def positional? (args : List Argument) : Option String :=
  args.findSome? fun
    | .option _ _       => none
    | .positional value => some value

end TensorLoops
