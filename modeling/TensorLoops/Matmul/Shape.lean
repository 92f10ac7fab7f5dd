import TensorLoops.Copy.Replay
import TensorLoops.Matmul.Target

/-!
# Matmul — Shape

The shapes of the warp-wide multiply-accumulate instruction.  Of each operand a lane holds a
fragment; a mapping says which elements, and `MmaShape.make` refuses one that does not fit the
tile.  `MmaShape.table` lists the shapes that there are instructions for.
-/

namespace TensorLoops

/-- The part of an operand that a lane holds. -/
structure Fragment where
  /-- The tile's elements over the lanes. -/
  map       : Mapping
  /-- Elements of a lane. -/
  elements  : Nat
  /-- Registers of a lane. -/
  registers : Nat
deriving DecidableEq, Repr

/-- A multiply-accumulate of an `m × k` by a `k × n` tile. -/
structure MmaShape where
  m      : Nat
  n      : Nat
  k      : Nat
  input  : Scalar
  output : Scalar
  a      : Fragment
  b      : Fragment
  c      : Fragment
deriving DecidableEq, Repr

namespace MmaShape

/-- The short name: `m16n8k16_bf16_f32`. -/
def keyText (m n k : Nat) (input output : Scalar) : String :=
  s!"m{m}n{n}k{k}_{input.name}_{output.name}"

def key (x : MmaShape) : String := keyText x.m x.n x.k x.input x.output

/-- The instruction: `mma.sync.aligned.m16n8k8.row.col.f32.f16.f16.f32`. -/
def instruction (x : MmaShape) : String :=
  s!"mma.sync.aligned.m{x.m}n{x.n}k{x.k}.row.col." ++
    s!"{x.output.name}.{x.input.name}.{x.input.name}.{x.output.name}"

/-- The name of the device function, less what starts them all. -/
def name (x : MmaShape) : String :=
  String.ofList (x.instruction.toList.map fun c => if c == '.' then '_' else c)

def funcName (x : MmaShape) : String := devicePrefix ++ x.name

/-- Placeholders of `count` registers from `first` on, in braces. -/
def placeholders (first count : Nat) : String :=
  "\x7b" ++ ", ".intercalate ((List.range count).map fun i => "%" ++ toString (first + i)) ++ "\x7d"

/-- The instruction with its operands: `C`, `A`, `B` and `C` again, outputs numbered first. -/
def template (x : MmaShape) : String :=
  let c := x.c.registers
  let a := x.a.registers
  x.instruction ++ " " ++ placeholders 0 c ++ ", " ++ placeholders c a ++ ", " ++
    placeholders (c + a) x.b.registers ++ ", " ++ placeholders 0 c ++ ";"

/-- A fragment's mapping must bind to the warp and cover the tile. -/
def checkFragment (operand key : String) (f : Fragment) (rows cols : Nat) : Except Error Unit := do
  Target.standard.bind f.map
  if f.map.shape ≠ [rows, cols] ∨ f.map.perWorker ≠ f.elements then
    throw (.packing (.fragment operand f.map.text key rows cols f.elements))

/-- The shape with the given mappings of its fragments. -/
def make (m n k : Nat) (input output : Scalar) (aMap bMap cMap : Mapping) :
    Except Error MmaShape := do
  let t := Target.standard
  let sizeA ← Word.mul m k
  let elementsA ← t.elementsPerLane sizeA
  let sizeB ← Word.mul k n
  let elementsB ← t.elementsPerLane sizeB
  let sizeC ← Word.mul m n
  let elementsC ← t.elementsPerLane sizeC
  let a : Fragment := ⟨aMap, elementsA, ← t.registersPerLane input sizeA⟩
  let b : Fragment := ⟨bMap, elementsB, ← t.registersPerLane input sizeB⟩
  let c : Fragment := ⟨cMap, elementsC, ← t.registersPerLane output sizeC⟩
  let key := keyText m n k input output
  checkFragment "A" key a m k
  checkFragment "B" key b k n
  checkFragment "C" key c m n
  return ⟨m, n, k, input, output, a, b, c⟩

/-- Every shape there is an instruction for. -/
def table : Except Error (List MmaShape) := do
  let lanes ← Mapping.rowSpatial [8, 4]
  let colLanes ← Mapping.colSpatial [4, 8]
  let rows ← Mapping.rowRepeat [2, 1]
  let pair ← Mapping.rowRepeat [1, 2]
  let square ← Mapping.colRepeat [2, 2]
  let colPair ← Mapping.colRepeat [2, 1]
  let cMap ← rows.chain [lanes, pair]
  let aShort ← rows.chain [lanes, pair]
  let bShort ← colLanes.chain [colPair]
  let aLong ← square.chain [lanes, pair]
  let bLong ← colPair.chain [colLanes, colPair]
  let aWide ← rows.chain [lanes]
  let aWideLong ← square.chain [lanes]
  let bWideLong ← colPair.chain [colLanes]
  return [
    ← make 16 8 8  .f16  .f16 aShort    bShort    cMap,
    ← make 16 8 16 .f16  .f16 aLong     bLong     cMap,
    ← make 16 8 8  .f16  .f32 aShort    bShort    cMap,
    ← make 16 8 16 .f16  .f32 aLong     bLong     cMap,
    ← make 16 8 8  .bf16 .f32 aShort    bShort    cMap,
    ← make 16 8 16 .bf16 .f32 aLong     bLong     cMap,
    ← make 16 8 4  .tf32 .f32 aWide     colLanes  cMap,
    ← make 16 8 8  .tf32 .f32 aWideLong bWideLong cMap]

/-- The shape of a short name. -/
def lookup (key : String) : Except Error MmaShape := do
  match (← table).find? fun x => x.key == key with
  | some x => return x
  | none   => throw (.instruction (.unknownShape key))

def toJson (x : MmaShape) : Json :=
  .obj [("m", .nat x.m), ("n", .nat x.n), ("k", .nat x.k), ("input_dtype", x.input.toJson),
    ("output_dtype", x.output.toJson), ("a_load_map", x.a.map.toJson),
    ("b_load_map", x.b.map.toJson), ("c_store_map", x.c.map.toJson),
    ("a_elements", .nat x.a.elements), ("b_elements", .nat x.b.elements),
    ("c_elements", .nat x.c.elements), ("a_regs", .nat x.a.registers),
    ("b_regs", .nat x.b.registers), ("c_regs", .nat x.c.registers)]

end MmaShape

end TensorLoops
