import TensorLoops.Device.Catalogue

/-!
# Device — MatrixLoad

Device functions that load 8 × 8 matrices from shared memory, the lanes of a warp together.
-/

namespace TensorLoops

/-- A kind of matrix load. -/
structure LoadVariant where
  /-- Matrices loaded. -/
  count      : Nat
  /-- The address is one of shared memory already. -/
  shared     : Bool
  transposed : Bool
deriving DecidableEq, Repr

namespace LoadVariant

/-- Legal numbers of matrices. -/
def counts : List Nat := [1, 2, 4]

/-- The variant with the given parameters, if it is legal. -/
def make (count : Nat) (shared transposed : Bool) : Except Error LoadVariant :=
  if counts.contains count then .ok ⟨count, shared, transposed⟩
  else .error (.instruction (.matrixCount count))

/-- Every legal variant, by count, then transposition, then address. -/
def all : List LoadVariant :=
  counts.flatMap fun count => [false, true].flatMap fun transposed =>
    [false, true].map fun shared => ⟨count, shared, transposed⟩

/-- The name of the device function, less what starts them all. -/
def name (v : LoadVariant) : String :=
  s!"ldmatrix_x{v.count}" ++ (if v.shared then "_shared" else "") ++
    (if v.transposed then "_trans" else "")

def funcName (v : LoadVariant) : String := devicePrefix ++ v.name

def instruction (v : LoadVariant) : String :=
  s!"ldmatrix.sync.aligned.m8n8.x{v.count}" ++ (if v.transposed then ".trans" else "") ++
    (if v.shared then ".shared" else "") ++ ".b16"

/-- The instruction with its operands: the registers, then the address. -/
def template (v : LoadVariant) : String :=
  let registers := (List.range v.count).map fun i => "%" ++ toString i
  v.instruction ++ " \x7b" ++ ", ".intercalate registers ++ "\x7d, [%" ++ toString v.count ++ "];"

end LoadVariant

namespace Device

/-- A matrix load of one kind. -/
def matrixLoad (v : LoadVariant) : Procedure :=
  let registers := (List.range v.count).map fun i =>
    (⟨i, s!"reg{i}", .reference (.scalar .u32)⟩ : Var)
  let source : Var := ⟨v.count, "smem", if v.shared then .scalar .u32 else .pointer .void⟩
  let load : Asm := {
    template := v.template
    outputs := registers.map fun r => ⟨"=r", .var r⟩
    inputs := [⟨if v.shared then "r" else "l", .var source⟩]
    isVolatile := false }
  ⟨v.funcName, .device, registers ++ [source], [], .asm load, .void⟩

end Device

namespace Catalogue

def registerMatrixLoads : Update Unit := registerAll (LoadVariant.all.map Device.matrixLoad)

/-- Load one matrix into each register. -/
def matrixLoad (c : Catalogue) (registers : List Expr) (source : Expr)
    (shared transposed : Bool) : Except Error Expr := do
  let v ← LoadVariant.make registers.length shared transposed
  c.call v.name (registers ++ [source])

end Catalogue

end TensorLoops
