import TensorLoops.Code.RowMajor
import TensorLoops.CommandLine.Arguments
import TensorLoops.Compute.Lowering
import TensorLoops.Device.Builtins

/-!
# CommandLine — Command

The commands and what they print.  `lower` turns a program into a procedure and `intrinsics`
lists the built-in device functions or shows one of them; both write JSON on request.
`Command.run` is a function of the arguments and of what can be read.
-/

namespace TensorLoops

/-- A command. -/
inductive Command where
  | lower (file : Option String) (kind : ProcKind) (flatten json : Bool)
  | intrinsics (family : Option Family) (func : Option String) (json : Bool)
deriving DecidableEq, Repr

/-- What a run leaves behind. -/
structure Outcome where
  code : Nat
  out  : String
  err  : String
deriving DecidableEq, Repr

/-- What can be read: files by path, and the standard input.  A failure comes with its words. -/
structure Inputs where
  file  : String → Except String String
  stdin : Except String String

namespace Command

/-- The families by their names on the command line. -/
def families : List (String × Family) :=
  [("cp-async", .asyncCopy), ("mma", .multiply), ("ldmatrix", .matrixLoad), ("pipeline", .pipeline)]

/-- The procedure kinds by their names on the command line. -/
def kinds : List (String × ProcKind) := [("host", .host), ("cuda", .kernel)]

def verboseOption : OptionSpec := ⟨"verbose", some 'v', none⟩

def helpOption : OptionSpec := ⟨"help", some 'h', none⟩

def jsonOption : OptionSpec := ⟨"json", some 'j', none⟩

/-- The options before the command word. -/
def leading : Grammar := ⟨[verboseOption, helpOption, ⟨"version", some 'V', none⟩], 0⟩

def lowerGrammar : Grammar where
  options := [verboseOption, helpOption, jsonOption, ⟨"flatten", none, none⟩,
    ⟨"target", some 't', some fun v => (kinds.lookup v).isSome⟩]
  positionals := 1

def intrinsicsGrammar : Grammar where
  options := [verboseOption, helpOption, jsonOption, ⟨"show", none, some fun _ => true⟩,
    ⟨"family", none, some fun v => (families.lookup v).isSome⟩]
  positionals := 0

/-- What `help` may be asked about. -/
def topics : List String := ["lower", "intrinsics", "help"]

/-- The command that arguments ask for. -/
def ofArguments (args : List String) : Except Stop Command := do
  let (word, rest) ← leading.readLeading [] args
  match word with
  | "lower" =>
      let args ← lowerGrammar.read false none [] rest
      let kind := ((optionValue? args "target").bind fun v => kinds.lookup v).getD .host
      return .lower (positional? args) kind (hasFlag args "flatten") (hasFlag args "json")
  | "intrinsics" =>
      let args ← intrinsicsGrammar.read false none [] rest
      return .intrinsics ((optionValue? args "family").bind fun v => families.lookup v)
        (optionValue? args "show") (hasFlag args "json")
  | "help" =>
      match rest with
      | []      => throw .help
      | [topic] => throw (if topics.contains topic then .help else .usage)
      | _       => throw .usage
  | _ => throw .usage

/-- A failure: what failed, and why. -/
def failure (what why : String) : Outcome := ⟨1, "", what ++ ": " ++ why ++ "\n"⟩

/-- A failed operation; an arithmetic error ends a run with a code of its own. -/
def failed (what : String) (e : Error) : Outcome :=
  match e with
  | .arithmetic a => ⟨101, "", a.message ++ "\n"⟩
  | e             => failure what e.message

def success (text : String) : Outcome := ⟨0, text, ""⟩

/-- The last component of a path, if it names something. -/
def fileName? (path : String) : Option String :=
  match ((path.splitOn "/").filter fun part => part ≠ "" ∧ part ≠ ".").getLast? with
  | some ".." => none
  | last      => last

/-- A file name less its extension.  A dot at the front starts no extension. -/
def stem (name : String) : String :=
  let back := name.toList.reverse
  let extension := back.takeWhile (· != '.')
  match back.drop extension.length with
  | []        => name
  | _ :: []   => name
  | _ :: rest => String.ofList rest.reverse

/-- The procedure for a file is named after it, with anything but letters and digits made an
underscore. -/
def procedureName (path : String) : String :=
  match fileName? path with
  | none      => "main"
  | some name => String.ofList ((stem name).toList.map fun c => if c.isAlphanum then c else '_')

/-- A line under a title. -/
def rule : String := String.ofList (List.replicate 50 '=')

/-- A procedure with its title and its counts. -/
def procedureReport (p : Procedure) : String :=
  unlines ["Lowered Function", rule, "Name: " ++ p.name,
    "Parameters: " ++ toString p.params.length, "Locals: " ++ toString p.locals.length, ""] ++ p.text

/-- A list of device functions with its title and its count. -/
def catalogueReport (names : List String) : String :=
  unlines (["Registered Intrinsics", rule] ++ names.map ("  " ++ ·) ++
    ["", "Total: " ++ toString names.length])

def runLower (inputs : Inputs) (file : Option String) (kind : ProcKind) (flatten json : Bool) :
    Outcome :=
  let (source, name) := match file with
    | none      => (inputs.stdin.mapError ("Failed to read stdin: " ++ ·), "main")
    | some path =>
        ((inputs.file path).mapError (s!"Failed to read file '{path}': " ++ ·), procedureName path)
  match source with
  | .error why    => failure "Error" why
  | .ok source =>
      match lowerSource source name kind with
      | .error e => failed "Lowering error" e
      | .ok p    =>
          match (if flatten then p.flatten else .ok p) with
          | .error e => failed "Flatten error" e
          | .ok p    => success (if json then p.toJson.pretty ++ "\n" else procedureReport p)

def runIntrinsics (family : Option Family) (func : Option String) (json : Bool) : Outcome :=
  match Catalogue.builtins with
  | .error e => failed "Registry error" e
  | .ok c    =>
      match func with
      | some name =>
          match c.lookup name with
          | .error e => failed "Error" e
          | .ok p    => success (if json then p.toJson.pretty ++ "\n" else p.text)
      | none =>
          let names := c.names.filter fun name =>
            family.all fun f => Family.ofName? name == some f
          success (if json then (Json.strings names).pretty ++ "\n" else catalogueReport names)

def usage : String := "Usage: tlower [OPTIONS] <COMMAND>\n"

def version : String := "tlower 0.1.0\n"

/-- Run what the arguments ask for. -/
def run (inputs : Inputs) (args : List String) : Outcome :=
  match ofArguments args with
  | .error .usage   => ⟨2, "", usage⟩
  | .error .help    => success usage
  | .error .version => success version
  | .ok (.lower file kind flatten json)      => runLower inputs file kind flatten json
  | .ok (.intrinsics family func json) => runIntrinsics family func json

end Command

end TensorLoops
