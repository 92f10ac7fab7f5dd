import TensorLoops.Number.Word

/-!
# Copy — Queue

The queue of asynchronous copies.  Copies are issued into an open batch; a commit closes the
batch into the newest pending group; waiting retires the oldest groups until few enough are
pending.  A call on the queue leaves one also where it fails.
-/

namespace TensorLoops

/-- A wait leaves fewer groups than this pending. -/
def waitLimit : Nat := 10

/-- The copies closed by one commit. -/
structure CopyGroup where
  id     : Nat
  copies : Nat
  bytes  : Nat
deriving DecidableEq, Repr

/-- One operation of the copy protocol. -/
inductive CopyEvent where
  | issue (bytes : Nat)
  | commit
  | waitGroup (n : Nat)
  | waitAll
deriving DecidableEq, Repr

/-- The state of the copies of one thread. -/
structure CopyQueue where
  openCopies : Nat
  openBytes  : Nat
  /-- Committed groups, oldest first. -/
  pending    : List CopyGroup
  /-- Retired groups, oldest first. -/
  completed  : List CopyGroup
  nextGroup  : Nat
deriving DecidableEq, Repr

def CopyEvent.toJson : CopyEvent → Json
  | .issue bytes => .tagged "Issue" (.obj [("bytes", .nat bytes)])
  | .commit      => .str "Commit"
  | .waitGroup n => .tagged "WaitGroup" (.nat n)
  | .waitAll     => .str "WaitAll"

namespace CopyQueue

def empty : CopyQueue := ⟨0, 0, [], [], 0⟩

/-- A call on a queue.  What it did before it fails stays done. -/
abbrev Update := ExceptT Error (StateM CopyQueue)

namespace Update

/-- Add a copy to the open batch. -/
def issue (bytes : Nat) : Update Unit := do
  let copies ← MonadExcept.ofExcept (Word.add (← get).openCopies 1)
  modify fun q => { q with openCopies := copies }
  let total ← MonadExcept.ofExcept (Word.add (← get).openBytes bytes)
  modify fun q => { q with openBytes := total }

/-- Close the open batch, which may be empty, into a group; its id is returned. -/
def commit : Update Nat := do
  let q ← get
  let next ← MonadExcept.ofExcept (Word.add q.nextGroup 1)
  let group : CopyGroup := ⟨q.nextGroup, q.openCopies, q.openBytes⟩
  set (CopyQueue.mk 0 0 (q.pending ++ [group]) q.completed next)
  return q.nextGroup

/-- Take the oldest group off as long as more than `n` are pending.  What was taken stands behind
`retired`, and what is left comes second. -/
def popOldest (n : Nat) (retired : List CopyGroup) :
    List CopyGroup → List CopyGroup × List CopyGroup
  | []              => (retired, [])
  | group :: groups =>
      if n < (group :: groups).length then popOldest n (retired ++ [group]) groups
      else (retired, group :: groups)

/-- Wait until at most `n` groups are pending; the retired ones are returned. -/
def waitGroup (n : Nat) : Update (List CopyGroup) := do
  if waitLimit ≤ n then throw (.replay (.waitCount waitLimit n))
  let q ← get
  let (retired, pending) := popOldest n [] q.pending
  set { q with pending, completed := q.completed ++ retired }
  return retired

/-- Wait for every copy, committed or not; the retired groups are returned. -/
def waitAll : Update (List CopyGroup) := do
  if 0 < (← get).openCopies then discard commit
  let q ← get
  set { q with pending := [], completed := q.completed ++ q.pending }
  return q.pending

/-- Perform an operation. -/
def apply : CopyEvent → Update Unit
  | .issue bytes => issue bytes
  | .commit      => discard commit
  | .waitGroup n => discard (waitGroup n)
  | .waitAll     => discard waitAll

end Update

def issue (q : CopyQueue) (bytes : Nat) : Except Error CopyQueue :=
  Prod.snd <$> resultOf (Update.issue bytes) q

def commit (q : CopyQueue) : Except Error (Nat × CopyQueue) := resultOf Update.commit q

def waitGroup (q : CopyQueue) (n : Nat) : Except Error (List CopyGroup × CopyQueue) :=
  resultOf (Update.waitGroup n) q

def waitAll (q : CopyQueue) : Except Error (List CopyGroup × CopyQueue) :=
  resultOf Update.waitAll q

def apply (q : CopyQueue) (event : CopyEvent) : Except Error CopyQueue :=
  Prod.snd <$> resultOf (Update.apply event) q

/-- No copy is outstanding, committed or not. -/
def isDrained (q : CopyQueue) : Bool := q.pending.isEmpty && q.openCopies == 0

def toJson (q : CopyQueue) : Json :=
  let group (g : CopyGroup) : Json :=
    .obj [("id", .nat g.id), ("copies", .nat g.copies), ("bytes", .nat g.bytes)]
  .obj [("open_copies", .nat q.openCopies), ("open_bytes", .nat q.openBytes),
    ("pending", .arr (q.pending.map group)), ("completed", .arr (q.completed.map group)),
    ("next_group", .nat q.nextGroup)]

end CopyQueue

end TensorLoops
