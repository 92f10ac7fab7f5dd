import Std.Data.HashSet
import TensorLoops.Lanes.Mapping

/-!
# Lanes — Partition

Whether the workers of a mapping share the tasks out: every task of the grid belongs to one
worker, once.  Tasks are counted by their row-major position; the first one outside the grid
or met a second time settles the question.
-/

namespace TensorLoops

namespace Mapping

/-- The row-major position of a task. -/
def position (shape task : List Nat) : Except Error Nat :=
  (task.zip shape).foldlM (fun acc p => do Word.add (← Word.mul acc p.2) p.1) 0

/-- Mark tasks as met; `none` if one of them is outside the grid or was met before. -/
def markTasks (shape : List Nat) (total : Nat) :
    List (List Nat) → Std.HashSet Nat → Except Error (Option (Std.HashSet Nat))
  | [],      met => .ok (some met)
  | t :: ts, met => do
      let p ← position shape t
      if total ≤ p || met.contains p then return none
      else markTasks shape total ts (met.insert p)

/-- Mark the tasks of `n` workers, the first of them being `worker`. -/
def markWorkers (m : Mapping) (total : Nat) : Nat → Nat → Std.HashSet Nat → Except Error Bool
  | 0,     _,      _   => .ok true
  | n + 1, worker, met => do
      let tasks ← m.tasksOf worker
      match ← markTasks m.shape total tasks met with
      | none     => return false
      | some met => markWorkers m total n (worker + 1) met

/-- The bytes that the record of tasks met takes for each of them. -/
def markBytes : Nat := 1

/-- Whether every task belongs to exactly one worker, once. -/
def isPartition (m : Mapping) : Except Error Bool := do
  let total ← m.taskCount
  let slots ← Word.mul m.workers m.perWorker
  if slots ≠ total then return false
  Word.room markBytes total
  markWorkers m total m.workers 0 ∅

end Mapping

end TensorLoops
