import TensorLoops.Copy.Queue

/-!
# Copy — Replay

Reading the copy protocol off code.  A call by one of the protocol's names performs one
operation on the queue; loops with a constant extent are run through, and control flow that
depends on data is refused.
-/

namespace TensorLoops

/-- What starts the name of every device function. -/
def devicePrefix : String := "cuda_"

/-- What follows `lead` in a text that starts with it. -/
def textAfter? : List Char → List Char → Option (List Char)
  | [],      cs      => some cs
  | l :: ls, c :: cs => if l = c then textAfter? ls cs else none
  | _ :: _,  []      => none

/-- A size in decimal digits, with an optional plus sign. -/
def readSize? (cs : List Char) : Option Nat :=
  let digits := (textAfter? ['+'] cs).getD cs
  if digits.isEmpty || !digits.all Char.isDigit then none
  else
    let n := digits.foldl (fun n c => 10 * n + (c.toNat - '0'.toNat)) 0
    if n < Word.limit then some n else none

/-- The operation that a call of a function performs, if it is one of the protocol's. -/
def CopyEvent.ofCall? (func : String) : Option CopyEvent := do
  let name ← textAfter? devicePrefix.toList func.toList
  if name = "cp_async_commit_group".toList then return .commit
  if name = "cp_async_wait_all".toList then return .waitAll
  match textAfter? "cp_async_wait_group_".toList name with
  | some n => return .waitGroup (← readSize? n)
  | none   =>
      let size ← textAfter? "cp_async_size_".toList name
      return .issue (← readSize? (size.takeWhile (· != '_')))

namespace CopyQueue

/-- Do something `n` times, as long as it succeeds. -/
def times {σ : Type} (step : σ → Except Error σ) : Nat → σ → Except Error σ
  | 0,     s => .ok s
  | n + 1, s =>
      match step s with
      | .ok s    => times step n s
      | .error e => .error e

mutual

/-- Perform the protocol operations of a statement in order. -/
def replay : Stmt → CopyQueue → Except Error CopyQueue
  | .seq ss, q => replayList ss q
  | .loop v extent body, q =>
      match extent.constInt? with
      | some n => times (replay body) n.toNat q
      | none   => .error (.replay (.loopExtent v.hint extent.text))
  | .cond test _ _, _ => .error (.replay (.conditional test.text))
  | .eval (.call func _), q =>
      match CopyEvent.ofCall? func with
      | some event => q.apply event
      | none       => .ok q
  | _, q => .ok q

def replayList : List Stmt → CopyQueue → Except Error CopyQueue
  | [],      q => .ok q
  | s :: ss, q =>
      match replay s q with
      | .ok q    => replayList ss q
      | .error e => .error e

end

/-- The queue after the protocol operations of a statement. -/
def simulate (s : Stmt) : Except Error CopyQueue := replay s .empty

end CopyQueue

end TensorLoops
