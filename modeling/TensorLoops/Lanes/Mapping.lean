import TensorLoops.Lanes.RankOrder
import TensorLoops.Number.Word

/-!
# Lanes — Mapping

Spreading a grid of tasks over workers.  In a spatial mapping each worker has one task, in a
repeated mapping one worker has them all, and `compose outer inner` puts a copy of `inner` in
the place of every task of `outer`.  The ranks of a mapping say how its dimensions nest: rank 0
varies slowest.  A worker's tasks come in the order of its fragment registers.
-/

namespace TensorLoops

/-- What a mapping states of itself: its grid of tasks, the number of workers and the number
of tasks each of them has. -/
structure Extents where
  shape     : List Nat
  workers   : Nat
  perWorker : Nat
deriving DecidableEq, Repr

/-- A mapping of tasks to workers. -/
inductive Mapping where
  | spatial (extents : Extents) (ranks : List Nat)
  | repeated (extents : Extents) (ranks : List Nat)
  | composed (extents : Extents) (outer inner : Mapping)
deriving DecidableEq, Repr

namespace Mapping

def extents : Mapping → Extents
  | .spatial x _    => x
  | .repeated x _   => x
  | .composed x _ _ => x

def shape (m : Mapping) : List Nat := m.extents.shape

def workers (m : Mapping) : Nat := m.extents.workers

def perWorker (m : Mapping) : Nat := m.extents.perWorker

/-- The number of tasks of the grid. -/
def taskCount (m : Mapping) : Except Error Nat := Word.product m.shape

/-- Ranks under which the last dimension varies fastest. -/
def rowRanks (n : Nat) : List Nat := List.range n

/-- Ranks under which the first dimension varies fastest. -/
def colRanks (n : Nat) : List Nat := (List.range n).reverse

/-- A primitive mapping in words: its name, its shape, and its ranks if they are unusual. -/
def primitiveText (base : String) (shape ranks : List Nat) : String :=
  let dims := ", ".intercalate (shape.map toString)
  if ranks = rowRanks ranks.length then s!"row_{base}({dims})"
  else if ranks = colRanks ranks.length then s!"col_{base}({dims})"
  else s!"{base}({dims}; ranks={bracketList ranks})"

/-- The mapping in words, factors outermost first. -/
def text : Mapping → String
  | .spatial x ranks          => primitiveText "spatial" x.shape ranks
  | .repeated x ranks         => primitiveText "repeat" x.shape ranks
  | .composed _ outer inner   => outer.text ++ " * " ++ inner.text

def toJson : Mapping → Json
  | .spatial x ranks        => record x (.tagged "Spatial" (.obj [("ranks", .nats ranks)]))
  | .repeated x ranks       => record x (.tagged "Repeat" (.obj [("ranks", .nats ranks)]))
  | .composed x outer inner =>
      record x (.tagged "Compose" (.obj [("outer", outer.toJson), ("inner", inner.toJson)]))
where
  record (x : Extents) (kind : Json) : Json :=
    .obj [("task_shape", .nats x.shape), ("num_workers", .nat x.workers),
      ("tasks_per_worker", .nat x.perWorker), ("kind", kind)]

/-! ### Building mappings -/

/-- One task for each worker, the dimensions nesting as the ranks say. -/
def ofSpatial (shape ranks : List Nat) : Except Error Mapping := do
  return .spatial ⟨shape, ← Word.product shape, 1⟩ ranks

/-- All tasks for one worker, the dimensions nesting as the ranks say. -/
def ofRepeated (shape ranks : List Nat) : Except Error Mapping := do
  return .repeated ⟨shape, 1, ← Word.product shape⟩ ranks

/-- Whether ranks order `dims` dimensions. -/
def isOrder (ranks : List Nat) (dims : Nat) : Bool :=
  ranks.length = dims && (List.range dims).all ranks.contains

/-- Ranks must be a permutation of the dimensions. -/
def checkRanks (shape ranks : List Nat) : Except Error Unit :=
  if isOrder ranks shape.length then .ok () else .error (.mapping (.ranks ranks shape.length))

def spatialMap (shape ranks : List Nat) : Except Error Mapping := do
  checkRanks shape ranks
  ofSpatial shape ranks

def repeatMap (shape ranks : List Nat) : Except Error Mapping := do
  checkRanks shape ranks
  ofRepeated shape ranks

def rowSpatial (shape : List Nat) : Except Error Mapping := ofSpatial shape (rowRanks shape.length)

def colSpatial (shape : List Nat) : Except Error Mapping := ofSpatial shape (colRanks shape.length)

def rowRepeat (shape : List Nat) : Except Error Mapping := ofRepeated shape (rowRanks shape.length)

def colRepeat (shape : List Nat) : Except Error Mapping := ofRepeated shape (colRanks shape.length)

/-- `inner` in the place of every task of `outer`. -/
def compose (outer inner : Mapping) : Except Error Mapping := do
  if outer.shape.length ≠ inner.shape.length then
    throw (.mapping (.dimensions outer.shape.length outer.text inner.shape.length inner.text))
  let shape ← (outer.shape.zip inner.shape).mapM fun p => Word.mul p.1 p.2
  let workers ← Word.mul outer.workers inner.workers
  let perWorker ← Word.mul outer.perWorker inner.perWorker
  return .composed ⟨shape, workers, perWorker⟩ outer inner

/-- A product of mappings, taken from the left. -/
def chain (first : Mapping) (rest : List Mapping) : Except Error Mapping := rest.foldlM compose first

/-! ### The tasks of a worker -/

/-- One dimension of a shape: its position, its extent and its rank. -/
structure Dim where
  index  : Nat
  extent : Nat
  rank   : Nat
deriving DecidableEq, Repr

/-- Put a dimension behind those of no greater rank. -/
def insertDim (d : Dim) : List Dim → List Dim
  | []      => [d]
  | e :: es => if d.rank < e.rank then d :: e :: es else e :: insertDim d es

/-- The dimensions from the slowest to the fastest.  A single dimension needs no rank. -/
def nesting (shape ranks : List Nat) : Except Error (List Dim) :=
  match shape with
  | []       => .ok []
  | [extent] => .ok [⟨0, extent, 0⟩]
  | _        =>
      if ranks.length < shape.length then
        .error (.arithmetic (.outOfBounds ranks.length (RankOrder.firstMissed ranks shape.length)))
      else
        let dims := (List.range shape.length).zip (shape.zip ranks)
        .ok (dims.foldl (fun es d => insertDim ⟨d.1, d.2.1, d.2.2⟩ es) [])

/-- Take the coordinate of one dimension off an index. -/
def peel (state : List Nat × Nat) (d : Dim) : Except Error (List Nat × Nat) := do
  let c ← Word.mod state.2 d.extent
  let index ← Word.div state.2 d.extent
  return (state.1.set d.index c, index)

/-- The coordinates of a point counted in nesting order. -/
def unravel (index : Nat) (shape ranks : List Nat) : Except Error (List Nat) := do
  let dims ← nesting shape ranks
  let (coords, _) ← dims.reverse.foldlM peel (List.replicate shape.length 0, index)
  return coords

/-- The place of an inner task within an outer one. -/
def within (shape outer inner : List Nat) : Except Error (List Nat) :=
  ((outer.zip inner).zip shape).mapM fun p => do
    let base ← Word.mul p.1.1 p.2
    Word.add base p.1.2

/-- The bytes that a list of tasks takes for each of them. -/
def taskBytes : Nat := 24

/-- The tasks of a worker. -/
def tasksOf : Mapping → Nat → Except Error (List (List Nat))
  | .spatial x ranks,        worker => return [← unravel worker x.shape ranks]
  | .repeated x ranks,       _      => do
      let count ← Word.product x.shape
      Word.room taskBytes count
      (List.range count).mapM fun t => unravel t x.shape ranks
  | .composed _ outer inner, worker => do
      let outerTasks ← outer.tasksOf (← Word.div worker inner.workers)
      let innerTasks ← inner.tasksOf (← Word.mod worker inner.workers)
      Word.room taskBytes (← Word.mul outerTasks.length innerTasks.length)
      let places ← outerTasks.mapM fun o => innerTasks.mapM (within inner.shape o)
      return places.flatten

/-- The tasks of one of the mapping's workers. -/
def workerTasks (m : Mapping) (worker : Nat) : Except Error (List (List Nat)) :=
  if worker < m.workers then m.tasksOf worker
  else .error (.mapping (.worker worker m.text m.workers))

/-- A mapping can be bound to lanes if its workers divide them evenly. -/
def bind (m : Mapping) (lanes : Nat) : Except Error Unit :=
  if m.workers = 0 ∨ lanes % m.workers ≠ 0 then .error (.mapping (.lanes m.text m.workers lanes))
  else .ok ()

end Mapping

end TensorLoops
