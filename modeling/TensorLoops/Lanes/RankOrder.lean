/-!
# Lanes — RankOrder

Which rank is missed first when dimensions are put in order and there are fewer ranks than
dimensions.  Few dimensions are inserted one after the other, so the first missing rank is
missed first.  Many of them are sorted in runs: stretches that are in order already are kept,
others are sorted on their own, and neighbouring runs are merged in the order of a balanced
tree over the positions.  Sorting a stretch looks at both of its halves in turn, or at a pivot,
so a later rank may be missed before an earlier one.

A step either succeeds or ends with the position of a missing rank.  Up to that point every
stretch that a step looks at is still in its own place, so only positions need to be followed.
-/

namespace TensorLoops

namespace RankOrder

/-- A step of sorting: a result, or the position whose rank is missing. -/
abbrev Step := Except Nat

/-- A stretch of dimensions, in order or still to be sorted. -/
structure Run where
  size   : Nat
  sorted : Bool
deriving DecidableEq, Repr

/-- Up to this many dimensions are inserted one by one. -/
def insertionLimit : Nat := 20

/-- Up to this many are sorted by halves. -/
def halvingLimit : Nat := 32

/-! ### The positions a sort looks at -/

/-- Two pairs, each from its second position. -/
def pairs (p : Nat) : List Nat := [p + 1, p, p + 3, p + 2]

/-- Sorting `size` dimensions from `first` on by halves: some of each half as a group, the rest
of each half one by one, then the heads of both halves. -/
def halvingLooks (first size : Nat) : List Nat :=
  if size < 2 then []
  else
    let half := size / 2
    let second := first + half
    if 16 ≤ size then
      pairs first ++ pairs (first + 4) ++ pairs second ++ pairs (second + 4)
        ++ rest first 8 half ++ rest second 8 (size - half)
    else if 8 ≤ size then
      pairs first ++ pairs second ++ rest first 4 half ++ rest second 4 (size - half)
    else rest first 1 half ++ rest second 1 (size - half) ++ [second, first]
where
  /-- The positions from `p + done` to `p + size`, each followed by the one before it. -/
  rest (p done size : Nat) : List Nat :=
    (List.range' done (size - done)).flatMap fun i => [p + i, p + i - 1]

/-- Choosing a pivot among three positions, or in a long stretch among three from each of the
three eighths that begin there. -/
def pivotLooks (a b c eighth : Nat) : List Nat :=
  if 8 ≤ eighth then
    let e := eighth / 8
    pivotLooks a (a + 4 * e) (a + 7 * e) e
      ++ pivotLooks b (b + 4 * e) (b + 7 * e) e
      ++ pivotLooks c (c + 4 * e) (c + 7 * e) e
  else [a, b, c]
termination_by eighth
decreasing_by all_goals omega

/-- Sorting `size` dimensions from `first` on.  A long stretch is split by a pivot. -/
def sortLooks (first size : Nat) : List Nat :=
  if size ≤ halvingLimit then halvingLooks first size
  else
    let e := size / 8
    pivotLooks first (first + 4 * e) (first + 7 * e) e ++ List.range' first size

/-- Sort `size` dimensions from `first` on, with `known` ranks. -/
def sortStretch (known first size : Nat) : Step Unit :=
  match (sortLooks first size).find? (known ≤ ·) with
  | some p => .error p
  | none   => .ok ()

/-! ### Runs -/

/-- Where a run ends that falls, or does not fall, as `falling` says.  `p` is the position of
the next rank and `last` the rank before it. -/
def runEnd (falling : Bool) : Nat → Nat → List Nat → Step Nat
  | p, _,    []      => .error p
  | p, last, r :: rs => if decide (r < last) = falling then runEnd falling (p + 1) r rs else .ok p

/-- The size of the run that begins at `first`. -/
def runSize (ranks : List Nat) (first : Nat) : Step Nat :=
  match ranks.drop first with
  | a :: b :: rs => return (← runEnd (b < a) (first + 2) b rs) - first
  | _            => .error (first + 1)

/-- A run of this size is kept as it is. -/
def goodSize (dims : Nat) : Nat :=
  if dims ≤ 4096 then min (dims - dims / 2) 64
  else
    let k := (1 + dims.log2) / 2
    (Nat.pow 2 k + dims / Nat.pow 2 k) / 2

/-- The run from `first` on.  One that is too short is sorted at once if there are not many
dimensions, otherwise it is left for later. -/
def nextRun (ranks : List Nat) (dims first : Nat) : Step Run := do
  let left := dims - first
  if goodSize dims ≤ left then
    let size ← runSize ranks first
    if goodSize dims ≤ size then return ⟨size, true⟩
  if dims ≤ 64 then
    let size := min halvingLimit left
    sortStretch ranks.length first size
    return ⟨size, true⟩
  else return ⟨min (goodSize dims) left, false⟩

/-- Merge two runs that end at `stop`.  Two unsorted ones become one, to be sorted as a whole. -/
def mergeRuns (known stop : Nat) (left right : Run) : Step Run := do
  if left.sorted || right.sorted then
    let mid := stop - right.size
    unless left.sorted do sortStretch known (mid - left.size) left.size
    unless right.sorted do sortStretch known mid right.size
    if known ≤ mid then throw mid
    return ⟨left.size + right.size, true⟩
  else return ⟨left.size + right.size, false⟩

/-- How deep in a balanced tree over `dims` positions the runs from `first` to `mid` and from
`mid` to `stop` meet. -/
def meetDepth (dims first mid stop : Nat) : Nat :=
  let scale := (Nat.pow 2 62 + dims - 1) / dims
  let parting := (scale * (first + mid)) ^^^ (scale * (mid + stop))
  if parting = 0 then 64 else 63 - parting.log2

/-- Merge the last run, which ends at `stop`, with those before it that meet their neighbour at
`depth` or deeper. -/
def mergeBack (known stop depth : Nat) (last : Run) :
    List (Run × Nat) → Step (Run × List (Run × Nat))
  | []           => .ok (last, [])
  | (r, d) :: rs =>
      if depth ≤ d then do
        let merged ← mergeRuns known stop r last
        mergeBack known stop depth merged rs
      else .ok (last, (r, d) :: rs)

/-- Sort what begins at `stop`, where the last run ends.  Every round takes a run of at least
one dimension, so `dims` of them are enough. -/
def sortFrom (ranks : List Nat) (dims : Nat) :
    Nat → Nat → Run → List (Run × Nat) → Step Unit
  | k + 1, stop, last, before =>
      if stop < dims then do
        let next ← nextRun ranks dims stop
        let depth := meetDepth dims (stop - last.size) stop (stop + next.size)
        let (merged, before) ← mergeBack ranks.length stop depth last before
        sortFrom ranks dims k (stop + next.size) next ((merged, depth) :: before)
      else finish stop last before
  | 0,     stop, last, before => finish stop last before
where
  /-- Merge all runs and sort the whole if it is not in order. -/
  finish (stop : Nat) (last : Run) (before : List (Run × Nat)) : Step Unit := do
    let (whole, _) ← mergeBack ranks.length stop 0 last before
    unless whole.sorted do sortStretch ranks.length 0 dims

/-- Sort dimensions by runs. -/
def sortRuns (ranks : List Nat) (dims : Nat) : Step Unit := do
  let first ← nextRun ranks dims 0
  sortFrom ranks dims dims first.size first []

/-- The position whose rank is missed first, where at least two dimensions have fewer ranks. -/
def firstMissed (ranks : List Nat) (dims : Nat) : Nat :=
  if dims ≤ insertionLimit then max 1 ranks.length
  else
    match sortRuns ranks dims with
    | .error p => p
    | .ok ()   => ranks.length

end RankOrder

end TensorLoops
