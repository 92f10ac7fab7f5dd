import TensorLoops.Matmul.Shape

/-!
# Matmul — Schedule

Schedules of a tiled matrix product.  A block computes a `blockM × blockN` tile of the result,
stepping through the depth in slices of `blockK` that are staged through shared memory; a warp
owns a `warpM × warpN` part of it.  `Schedule.make` checks every constraint of the target, and
a violation names the schedule, so that a caller can go on to the next candidate.
-/

namespace TensorLoops

/-- A schedule in words: its name, its parameters and what follows from them. -/
structure ScheduleText where
  name    : String
  keys    : List (String × String)
  derived : List (String × String)
deriving DecidableEq, Repr

namespace ScheduleText

/-- `Name(key: value, ...)`. -/
def text (d : ScheduleText) : String :=
  let items := (d.keys ++ d.derived).map fun p => p.1 ++ ": " ++ p.2
  d.name ++ "(" ++ ", ".intercalate items ++ ")"

/-- Fail with a constraint that does not hold. -/
def require (d : ScheduleText) (holds : Bool) (c : Constraint) : Except Error Unit :=
  if holds then .ok () else .error (.schedule d.text c)

end ScheduleText

/-- A schedule of a tiled matrix product. -/
structure Schedule where
  blockM : Nat
  blockN : Nat
  blockK : Nat
  warpM  : Nat
  warpN  : Nat
  /-- Shared-memory buffers in flight. -/
  stages : Nat
  shape  : MmaShape
  target : Target
deriving DecidableEq, Repr

/-- The number of tiles along each dimension of a problem. -/
structure TileGrid where
  m : Nat
  n : Nat
  k : Nat
deriving DecidableEq, Repr

/-- The number of blocks. -/
def TileGrid.blocks (g : TileGrid) : Except Error Nat := Word.mul g.m g.n

namespace Schedule

/-- Warps of a block. -/
def warps (s : Schedule) : Except Error Nat := do
  let down ← Word.div s.blockM s.warpM
  let across ← Word.div s.blockN s.warpN
  Word.mul down across

/-- Threads of a block. -/
def threads (s : Schedule) : Except Error Nat := do Word.mul (← s.warps) s.target.warpSize

/-- Instructions of a warp for one step in depth, down and across. -/
def instructionCount (s : Schedule) : Except Error (Nat × Nat) := do
  let down ← Word.div s.warpM s.shape.m
  let across ← Word.div s.warpN s.shape.n
  return (down, across)

/-- Shared memory for every stage of both slices. -/
def sharedBytes (s : Schedule) : Except Error Nat := do
  let rows ← Word.add s.blockM s.blockN
  let stage ← Word.mul rows s.blockK
  let staged ← Word.mul stage s.stages
  Word.mul staged s.shape.input.bytes

/-- Copy groups that may stay pending while the oldest stage is used. -/
def pendingGroups (s : Schedule) : Nat := s.stages - 2

/-- The parameters, in order. -/
def keys (s : Schedule) : List (String × String) :=
  [("block_m", toString s.blockM), ("block_n", toString s.blockN), ("block_k", toString s.blockK),
    ("warp_m", toString s.warpM), ("warp_n", toString s.warpN), ("stages", toString s.stages),
    ("mma", s.shape.key)]

/-- The schedule in words.  Its derived quantities must exist. -/
def describe (s : Schedule) : Except Error ScheduleText := do
  let threads ← s.threads
  let bytes ← s.sharedBytes
  return ⟨"MatmulSchedule", s.keys, [("threads", toString threads), ("smem_bytes", toString bytes)]⟩

/-- Fail with a constraint that does not hold.  The schedule is put into words first. -/
def require (s : Schedule) (holds : Bool) (c : Constraint) : Except Error Unit :=
  if holds then .ok () else do (← s.describe).require false c

/-- Whether both `a` is a multiple of `b` and `c` one of `d`; the second is looked at only if
the first holds. -/
def bothMultiples (a b c d : Nat) : Except Error Bool := do
  if (← Word.mod a b) ≠ 0 then return false
  return (← Word.mod c d) == 0

/-- The schedule with the given parameters, if it meets every constraint. -/
def make (target : Target) (blockM blockN blockK warpM warpN stages : Nat) (shape : MmaShape) :
    Except Error Schedule := do
  let s : Schedule := ⟨blockM, blockN, blockK, warpM, warpN, stages, shape, target⟩
  s.require (0 < blockM && 0 < blockN && 0 < blockK) .tileSizes
  s.require (0 < warpM && 0 < warpN) .warpTileSizes
  s.require (← bothMultiples blockM warpM blockN warpN) .warpTileDivides
  s.require (← bothMultiples warpM shape.m warpN shape.n) .shapeDividesWarpTile
  s.require ((← Word.mod blockK shape.k) == 0) .depthDividesTile
  s.require (1 ≤ stages && stages ≤ waitLimit) .stageCount
  s.require ((← s.threads) ≤ target.maxThreads) .threadCount
  s.require ((← s.sharedBytes) ≤ target.maxShared) .sharedMemory
  return s

/-- Blocks of 128 × 128 × 32, warps of 64 × 64 and three stages. -/
def standard (target : Target) (shape : MmaShape) : Except Error Schedule :=
  make target 128 128 32 64 64 3 shape

/-- The number of tiles of size `tile` that cover `size`. -/
def tileCount (size tile : Nat) : Except Error Nat := do
  let reach ← Word.add size tile
  Word.div (reach - 1) tile

/-- Tile a problem of an `m × k` by a `k × n` matrix. -/
def tile (s : Schedule) (m n k : Nat) : Except Error TileGrid := do
  s.require (0 < m && 0 < n && 0 < k) .problemSizes
  s.require ((← Word.mod k s.shape.k) == 0) (.problemDepth k s.shape.k)
  return ⟨← tileCount m s.blockM, ← tileCount n s.blockN, ← tileCount k s.blockK⟩

end Schedule

end TensorLoops
