import TensorLoops.Device.AsyncCopy
import TensorLoops.Device.MatrixLoad
import TensorLoops.Device.Multiply

/-!
# Device — Builtins

The built-in device functions and the families they fall into.
-/

namespace TensorLoops

/-- A family of device functions. -/
inductive Family where
  | asyncCopy
  | pipeline
  | multiply
  | matrixLoad
deriving DecidableEq, Repr

/-- The family of a function, by its name; helpers have none. -/
def Family.ofName? (func : String) : Option Family := do
  let name ← textAfter? devicePrefix.toList func.toList
  let starts (lead : String) : Bool := (textAfter? lead.toList name).isSome
  if starts "cp_async_size_" then some .asyncCopy
  else if starts "cp_async_" then some .pipeline
  else if starts "mma_" then some .multiply
  else if starts "ldmatrix_" then some .matrixLoad
  else none

namespace Catalogue

/-- Enter every built-in function. -/
def registerBuiltins : Update Unit := do
  registerSharedAddress
  registerCopies
  registerCommitGroup
  registerWaitGroups
  registerWaitAll
  registerMultiplies
  registerMatrixLoads

/-- The catalogue of the built-in functions. -/
def builtins : Except Error Catalogue := registerBuiltins.result empty

end Catalogue

end TensorLoops
