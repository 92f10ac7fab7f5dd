import TensorLoops.Device.Catalogue
import TensorLoops.Matmul.Shape

/-!
# Device — Multiply

Device functions for the warp-wide multiply-accumulate.  The fragments are reached through
pointers and passed to the instruction register by register.
-/

namespace TensorLoops

namespace Device

/-- The register of a fragment at a position. -/
def register (base : Var) (constraint : String) (i : Nat) : AsmOperand :=
  ⟨constraint, .element (.var base) [.ofSize i]⟩

/-- The multiply-accumulate of one shape. -/
def multiply (x : MmaShape) : Procedure :=
  let a : Var := ⟨0, "a", .pointer (.scalar x.input)⟩
  let b : Var := ⟨1, "b", .pointer (.scalar x.input)⟩
  let c : Var := ⟨2, "c", .pointer (.scalar x.output)⟩
  let words : Ty := .pointer (.scalar .u32)
  let ra : Var := ⟨3, "ra", words⟩
  let rb : Var := ⟨4, "rb", words⟩
  let rc : Var := ⟨5, "rc", words⟩
  let accumulate : Asm := {
    template := x.template
    outputs := (List.range x.c.registers).map (register rc "+r")
    inputs := (List.range x.a.registers).map (register ra "r") ++
      (List.range x.b.registers).map (register rb "r")
    isVolatile := false }
  ⟨x.funcName, .device, [a, b, c], [ra, rb, rc],
    .seq [.assign ra (.cast (.var a) words), .assign rb (.cast (.var b) words),
      .assign rc (.cast (.var c) words), .asm accumulate],
    .void⟩

end Device

namespace Catalogue

def registerMultiplies : Update Unit := do
  let shapes ← (ExceptT.mk (pure MmaShape.table) : Update (List MmaShape))
  registerAll (shapes.map Device.multiply)

/-- `c += a · b` on fragments. -/
def multiply (c : Catalogue) (x : MmaShape) (a b acc : Expr) : Except Error Expr :=
  c.call x.name [a, b, acc]

end Catalogue

end TensorLoops
