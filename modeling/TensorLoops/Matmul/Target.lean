import TensorLoops.Lanes.Mapping

/-!
# Matmul — Target

The machine that code is made for: its warps, its registers and what a block may use.
-/

namespace TensorLoops

/-- An execution target. -/
structure Target where
  /-- Lanes of a warp. -/
  warpSize     : Nat
  /-- Bits of a register. -/
  registerBits : Nat
  /-- Most threads of a block. -/
  maxThreads   : Nat
  /-- Most bytes of shared memory of a block. -/
  maxShared    : Nat
deriving DecidableEq, Repr

namespace Target

/-- A target with the usual limits for a block. -/
def ofWarp (warpSize registerBits : Nat) : Target := ⟨warpSize, registerBits, 1024, 48 * 1024⟩

/-- Warps of 32 lanes with 32-bit registers. -/
def standard : Target := ofWarp 32 32

/-- The bits that one register of every lane holds together. -/
def groupBits (t : Target) : Except Error Nat := Word.mul t.warpSize t.registerBits

/-- The registers that each lane needs for `count` values spread over the warp. -/
def registersPerLane (t : Target) (s : Scalar) (count : Nat) : Except Error Nat := do
  let bits ← Word.mul s.bits count
  let group ← t.groupBits
  if group = 0 ∨ bits % group ≠ 0 then
    throw (.packing (.registers count s bits t.warpSize t.registerBits))
  return bits / group

/-- The values that each lane holds when `count` are spread over the warp. -/
def elementsPerLane (t : Target) (count : Nat) : Except Error Nat :=
  if t.warpSize = 0 ∨ count % t.warpSize ≠ 0 then .error (.packing (.lanes count t.warpSize))
  else .ok (count / t.warpSize)

/-- Whether a mapping fits the warp. -/
def bind (t : Target) (m : Mapping) : Except Error Unit := m.bind t.warpSize

def toJson (t : Target) : Json :=
  .obj [("warp_size", .nat t.warpSize), ("register_bits", .nat t.registerBits),
    ("max_threads_per_block", .nat t.maxThreads), ("max_shared_bytes", .nat t.maxShared)]

end Target

end TensorLoops
