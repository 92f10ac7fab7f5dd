import TensorLoops.Copy.Replay

/-!
# Device — Catalogue

The catalogue of device functions.  A function is entered once, under its own name, and used
by a call expression of that name.
-/

namespace TensorLoops

/-- Device functions by name. -/
structure Catalogue where
  functions : Table String Procedure
deriving Repr

namespace Catalogue

def empty : Catalogue := ⟨.empty⟩

def size (c : Catalogue) : Nat := c.functions.size

/-- The names, in order. -/
def names (c : Catalogue) : List String := c.functions.keys

def get? (c : Catalogue) (name : String) : Option Procedure := c.functions.find? name

def contains (c : Catalogue) (name : String) : Bool := c.functions.contains name

/-- The function of a name. -/
def lookup (c : Catalogue) (name : String) : Except Error Procedure :=
  match c.get? name with
  | some p => .ok p
  | none   => .error (.unknownFunction name)

/-- A change of a catalogue; what was entered before a failure stays entered. -/
abbrev Update := ExceptT Error (StateM Catalogue)

/-- The catalogue that a change makes of `c`. -/
def Update.result (u : Update Unit) (c : Catalogue) : Except Error Catalogue :=
  match u.run.run c with
  | (.ok _, c)    => .ok c
  | (.error e, _) => .error e

/-- Enter a function under its name. -/
def register (p : Procedure) : Update Unit := do
  let c ← get
  if c.contains p.name then throw (.duplicateFunction p.name)
  set (Catalogue.mk (c.functions.insert p.name p))

/-- Enter functions in order. -/
def registerAll (ps : List Procedure) : Update Unit := ps.forM register

/-- Call a function by its name less what starts them all; the number of arguments must be
that of its parameters. -/
def call (c : Catalogue) (name : String) (args : List Expr) : Except Error Expr := do
  let func := devicePrefix ++ name
  let p ← c.lookup func
  if p.params.length ≠ args.length then
    throw (.instruction (.arity func p.params.length args.length))
  return .call func args

end Catalogue

end TensorLoops
