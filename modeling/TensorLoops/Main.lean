import TensorLoops.CommandLine.Command

/-!
# Main

The program: read what the command needs, run it, print what it leaves behind.
-/

namespace TensorLoops

/-- The number of a system error, which some operations report negated. -/
def errorNumber (code : UInt32) : UInt32 := if code < 0x80000000 then code else 0 - code

/-- The words for a failure to read. -/
def readFailure : IO.Error → String
  | .noFileOrDirectory _ code _       =>
      s!"No such file or directory (os error {errorNumber code})"
  | .permissionDenied _ code _        => s!"Permission denied (os error {errorNumber code})"
  | .inappropriateType _ code details => s!"{details.capitalize} (os error {errorNumber code})"
  | e                                 => toString e

/-- Bytes as text. -/
def decodeText (bytes : ByteArray) : Except String String :=
  match String.fromUTF8? bytes with
  | some text => .ok text
  | none      => .error "stream did not contain valid UTF-8"

/-- What an action reads, as text. -/
def readText (action : IO ByteArray) : IO (Except String String) := do
  match ← action.toBaseIO with
  | .ok bytes => return decodeText bytes
  | .error e  => return .error (readFailure e)

/-- Read the source that the arguments ask for, and nothing else. -/
def readInputs (args : List String) : IO Inputs := do
  let nothing : Except String String := .error "not read"
  match Command.ofArguments args with
  | .ok (.lower (some path) _ _ _) =>
      let text ← readText (IO.FS.readBinFile path)
      return ⟨fun _ => text, nothing⟩
  | .ok (.lower none _ _ _) =>
      let text ← readText (do (← IO.getStdin).readBinToEnd)
      return ⟨fun _ => nothing, text⟩
  | _ => return ⟨fun _ => nothing, nothing⟩

end TensorLoops

def main (args : List String) : IO UInt32 := do
  let inputs ← TensorLoops.readInputs args
  let outcome := TensorLoops.Command.run inputs args
  IO.print outcome.out
  IO.eprint outcome.err
  return UInt32.ofNat outcome.code
