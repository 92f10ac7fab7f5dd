import Mathlib.Order.Bounds.Basic
import TensorLoops.Proofs.Compute.Execution

/-!
# Proofs — Compute — Extrema

Maxima and minima.  A reduction starts from the value of its type that no other falls behind, which
is itself a legal value, and an arg-reduction compares strictly and starts at position `0`.  So the
best value so far is always that of some point visited once there is one, and its position the first
at which it was met, also where every value is the one that the scan started from
(`Reduction.extremum_foldl`, `Reduction.first_bestOf`).

The code is looked at from the inside of its loops: where the code of the value delivers a value at
every point (`Delivers`), the loops gather these values (`Delivers.runs`).  Elements of a tensor are
delivered (`delivers_element`).  Nothing is asked of the extents but that they are sizes: a loop
over more than a signed word can count is not entered, and nothing is gathered.
-/

namespace TensorLoops

/-! ### Numbers -/

/-- A literal as a number.  Floats are left out. -/
def Literal.number? : Literal → Option Int
  | .bool b => some b.toNat
  | .int i  => some i
  | .nat n  => some n
  | .real _ => none

/-- A number between the least and the greatest value of a type. -/
def Scalar.Holds (t : Scalar) (z : Int) : Prop :=
  ∃ lo hi, t.minimum.number? = some lo ∧ t.maximum.number? = some hi ∧ lo ≤ z ∧ z ≤ hi

namespace Interp

variable {V : Type}

/-- The values of type `t` stand for numbers, by `num`, and are compared as these. -/
structure Reckons (I : Interp V) (num : V → Int) (t : Scalar) : Prop where
  minimum : t.minimum.number? = some (num (I.literal t.minimum t))
  maximum : t.maximum.number? = some (num (I.literal t.maximum t))
  max     : ∀ {x y}, t.Holds (num x) → t.Holds (num y) →
    num (I.binary .max x y) = Max.max (num x) (num y)
  min     : ∀ {x y}, t.Holds (num x) → t.Holds (num y) →
    num (I.binary .min x y) = Min.min (num x) (num y)
  gt      : ∀ {x y}, t.Holds (num x) → t.Holds (num y) →
    (I.isTrue (I.binary .gt x y) = true ↔ num y < num x)
  lt      : ∀ {x y}, t.Holds (num x) → t.Holds (num y) →
    (I.isTrue (I.binary .lt x y) = true ↔ num x < num y)

/-- Positions below `n` are cast exactly to the type `index`. -/
structure CastsPositions (I : Interp V) (num : V → Int) (index : Scalar) (n : Nat) : Prop where
  zero : num (I.literal index.zero index) = 0
  cast : ∀ i : Nat, i < n → num (I.cast (.scalar index) (I.counter i)) = i

end Interp

namespace Reduction

/-- The reductions that look for an extremum. -/
inductive Seeks : Reduction → Prop where
  | max    : Seeks .max
  | min    : Seeks .min
  | argmax : Seeks .argmax
  | argmin : Seeks .argmin

/-- The extremum of numbers that a reduction looks for. -/
def Extremum (op : Reduction) (zs : Set Int) (z : Int) : Prop :=
  match op with
  | .max | .argmax => IsGreatest zs z
  | .min | .argmin => IsLeast zs z
  | _              => False

/-- The first of `n` positions at which the numbers `w` come to their extremum. -/
def First (op : Reduction) (w : Nat → Int) (n i : Nat) : Prop :=
  IsLeast {i | i < n ∧ op.Extremum {z | ∃ j < n, w j = z} (w i)} i

/-- How far a number goes in the direction of the reduction. -/
def rank (op : Reduction) (z : Int) : Int :=
  match op with
  | .min | .argmin => -z
  | _              => z

theorem rank_inj {op : Reduction} {y z : Int} (h : op.rank y = op.rank z) : y = z := by
  cases op with
  | min => exact Int.neg_inj.mp h
  | argmin => exact Int.neg_inj.mp h
  | _ => exact h

theorem extremum_iff {op : Reduction} (hop : op.Seeks) {zs : Set Int} {z : Int} :
    op.Extremum zs z ↔ z ∈ zs ∧ ∀ y ∈ zs, op.rank y ≤ op.rank z := by
  cases hop with
  | max => exact Iff.rfl
  | argmax => exact Iff.rfl
  | min => exact and_congr_right fun _ => forall₂_congr fun _ _ => Int.neg_le_neg_iff.symm
  | argmin => exact and_congr_right fun _ => forall₂_congr fun _ _ => Int.neg_le_neg_iff.symm

section Values

variable {V : Type} {I : Interp V} {num : V → Int} {t : Scalar} {op : Reduction}

/-! ### One value more -/

/-- What a reduction starts from is a value of its type, and of no higher rank than any other. -/
theorem holds_start (hI : I.Reckons num t) (hop : op.Seeks) {z : Int} (hz : t.Holds z) :
    t.Holds (num (op.start I t)) ∧ op.rank (num (op.start I t)) ≤ op.rank z := by
  obtain ⟨lo, hi, hlo, hhi, hle, hge⟩ := hz
  obtain rfl := Option.some.inj (hI.minimum.symm.trans hlo)
  obtain rfl := Option.some.inj (hI.maximum.symm.trans hhi)
  have hmin : t.Holds (num (I.literal t.minimum t)) :=
    ⟨_, _, hlo, hhi, Int.le_refl _, Int.le_trans hle hge⟩
  have hmax : t.Holds (num (I.literal t.maximum t)) :=
    ⟨_, _, hlo, hhi, Int.le_trans hle hge, Int.le_refl _⟩
  cases hop with
  | max => exact ⟨hmin, hle⟩
  | argmax => exact ⟨hmin, hle⟩
  | min => exact ⟨hmax, Int.neg_le_neg hge⟩
  | argmin => exact ⟨hmax, Int.neg_le_neg hge⟩

/-- Of two values the one that goes farther is kept. -/
theorem rank_step (hI : I.Reckons num t) (hop : op.Seeks) {a x : V} (ha : t.Holds (num a))
    (hx : t.Holds (num x)) :
    op.rank (num (op.step I a x)) = Max.max (op.rank (num a)) (op.rank (num x)) := by
  have hneg : -Min.min (num a) (num x) = Max.max (-num a) (-num x) := by omega
  cases hop with
  | max => exact hI.max ha hx
  | argmax => exact hI.max ha hx
  | min => exact (congrArg Neg.neg (hI.min ha hx)).trans hneg
  | argmin => exact (congrArg Neg.neg (hI.min ha hx)).trans hneg

theorem num_step (hI : I.Reckons num t) (hop : op.Seeks) {a x : V} (ha : t.Holds (num a))
    (hx : t.Holds (num x)) : num (op.step I a x) = num a ∨ num (op.step I a x) = num x := by
  rcases max_choice (op.rank (num a)) (op.rank (num x)) with h | h
  · exact .inl (rank_inj ((rank_step hI hop ha hx).trans h))
  · exact .inr (rank_inj ((rank_step hI hop ha hx).trans h))

theorem beats_iff (hI : I.Reckons num t) (hop : op.isArg = true) {x b : V} (hx : t.Holds (num x))
    (hb : t.Holds (num b)) : op.beats I x b = true ↔ op.rank (num b) < op.rank (num x) := by
  cases op with
  | argmax => exact hI.gt hx hb
  | argmin => exact (hI.lt hx hb).trans Int.neg_lt_neg_iff.symm
  | _ => cases hop

theorem seeks_of_isArg (hop : op.isArg = true) : op.Seeks := by
  cases op with
  | argmax => exact .argmax
  | argmin => exact .argmin
  | _ => cases hop

theorem isArg_of_better? {e e' test : Expr} (h : op.better? e e' = some test) :
    op.isArg = true := by
  cases op with
  | argmax => rfl
  | argmin => rfl
  | _ => cases h

/-! ### All values -/

/-- A fold goes as far as each value, and no farther than one of them or its start. -/
theorem foldl_step (hI : I.Reckons num t) (hop : op.Seeks) {xs : List V} {a : V}
    (ha : t.Holds (num a)) (hxs : ∀ x ∈ xs, t.Holds (num x)) :
    op.rank (num a) ≤ op.rank (num (xs.foldl (op.step I) a)) ∧
      (∀ x ∈ xs, op.rank (num x) ≤ op.rank (num (xs.foldl (op.step I) a))) ∧
      (num (xs.foldl (op.step I) a) = num a ∨ ∃ x ∈ xs, num x = num (xs.foldl (op.step I) a)) := by
  induction xs generalizing a with
  | nil => exact ⟨Int.le_refl _, nofun, .inl rfl⟩
  | cons x xs ih =>
      obtain ⟨hx, hxs⟩ := List.forall_mem_cons.mp hxs
      have hrank := rank_step hI hop ha hx
      have hnum := num_step hI hop ha hx
      have hstep : t.Holds (num (op.step I a x)) := by
        rcases hnum with h | h
        · exact h ▸ ha
        · exact h ▸ hx
      -- what is reached from the new accumulator is at least as far as both that it was made of
      obtain ⟨hfrom, hall, hone⟩ := ih hstep hxs
      rw [List.foldl_cons]
      refine ⟨by omega, List.forall_mem_cons.mpr ⟨by omega, hall⟩, ?_⟩
      rcases hone with h | ⟨y, hy, h⟩
      · rcases hnum with h' | h'
        · exact .inl (h.trans h')
        · exact .inr ⟨x, List.mem_cons_self .., (h.trans h').symm⟩
      · exact .inr ⟨y, List.mem_cons_of_mem _ hy, h⟩

/-- **A fold finds the extremum**, also if it is the value that the fold starts from. -/
theorem extremum_foldl (hI : I.Reckons num t) (hop : op.Seeks) {xs : List V} (hne : xs ≠ [])
    (hxs : ∀ x ∈ xs, t.Holds (num x)) :
    op.Extremum {z | ∃ x ∈ xs, num x = z} (num (xs.foldl (op.step I) (op.start I t))) := by
  obtain ⟨x, hx⟩ := List.exists_mem_of_ne_nil xs hne
  obtain ⟨hstart, hle⟩ := holds_start hI hop (hxs x hx)
  obtain ⟨-, hall, hone⟩ := foldl_step hI hop hstart hxs
  refine (extremum_iff hop).mpr ⟨?_, ?_⟩
  · rcases hone with h | h
    · -- every value falls behind the start, and the start behind every value
      refine ⟨x, hx, rank_inj (Int.le_antisymm (hall x hx) ?_)⟩
      exact h ▸ hle
    · exact h
  · rintro _ ⟨y, hy, rfl⟩
    exact hall y hy

/-- The best value among points and its position, scanning the points in order. -/
def bestOf (I : Interp V) (op : Reduction) (t index : Scalar) (v : List Int → V)
    (pts : List (List Int)) : V × V :=
  pts.foldl (fun b pt => op.improve I b (v pt) (I.cast (.scalar index) (I.counter (pt.headD 0))))
    (op.start I t, I.literal index.zero index)

/-- Position `i` is the first of `k` at which the numbers `w` go as far as `b`, and none goes
farther. -/
structure Leads (op : Reduction) (w : Nat → Int) (k i : Nat) (b : Int) : Prop where
  lt     : i < k
  value  : w i = b
  best   : ∀ j < k, op.rank (w j) ≤ op.rank b
  before : ∀ j < i, op.rank (w j) < op.rank b

/-- What leads after all positions is the first extremum. -/
theorem Leads.first {w : Nat → Int} {k i : Nat} {b : Int} (h : op.Leads w k i b) (hop : op.Seeks) :
    op.First w k i := by
  obtain rfl := h.value
  refine ⟨⟨h.lt, (extremum_iff hop).mpr ⟨⟨i, h.lt, rfl⟩, ?_⟩⟩, ?_⟩
  · rintro _ ⟨j, hj, rfl⟩
    exact h.best j hj
  · rintro j ⟨-, hj⟩
    have hle := ((extremum_iff hop).mp hj).2 (w i) ⟨i, h.lt, rfl⟩
    exact Nat.le_of_not_lt fun hlt => absurd (h.before j hlt) (by omega)

/-- One position more. -/
theorem Leads.improve (hI : I.Reckons num t) (hop : op.isArg = true) {v : List Int → V} {k i : Nat}
    {b : V × V} {position : V} (hb : t.Holds (num b.1)) (hk : t.Holds (num (v [(k : Int)])))
    (hposition : num position = k)
    (h : op.Leads (fun i => num (v [(i : Int)])) k i (num b.1)) (hi : num b.2 = i) :
    ∃ i' : Nat, num (op.improve I b (v [(k : Int)]) position).2 = i' ∧
      op.Leads (fun i => num (v [(i : Int)])) (k + 1) i'
        (num (op.improve I b (v [(k : Int)]) position).1) := by
  have hbeats := beats_iff hI hop hk hb
  unfold Reduction.improve
  split
  · -- the new value leads from its own position, strictly before all that came earlier
    rename_i hbetter
    have hlt := hbeats.mp hbetter
    refine ⟨k, hposition, Nat.lt_succ_self k, rfl, fun j hj => ?_, fun j hj => ?_⟩
    · rcases Nat.lt_succ_iff_lt_or_eq.mp hj with hj | rfl
      · exact Int.le_of_lt (Int.lt_of_le_of_lt (h.best j hj) hlt)
      · exact Int.le_refl _
    · exact Int.lt_of_le_of_lt (h.best j hj) hlt
  · -- the leader stays, also in a tie
    rename_i hbetter
    have hle := Int.not_lt.mp fun hlt => hbetter (hbeats.mpr hlt)
    refine ⟨i, hi, Nat.lt_succ_of_lt h.lt, h.value, fun j hj => ?_, h.before⟩
    rcases Nat.lt_succ_iff_lt_or_eq.mp hj with hj | rfl
    · exact h.best j hj
    · exact hle

theorem bestOf_succ {index : Scalar} {v : List Int → V} {k : Nat} :
    op.bestOf I t index v (points [k + 1]) = op.improve I (op.bestOf I t index v (points [k]))
      (v [(k : Int)]) (I.cast (.scalar index) (I.counter k)) := by
  have hpoints : points [k + 1] = points [k] ++ [[(k : Int)]] := outerPoints_succ
  rw [bestOf, hpoints, List.foldl_append]
  rfl

/-- The first position leads, whether or not its value is better than the one that the scan started
from. -/
theorem leads_one (hI : I.Reckons num t) (hop : op.isArg = true) {index : Scalar} {v : List Int → V}
    (hcast : I.CastsPositions num index 1) (hv : t.Holds (num (v [0]))) :
    num (op.bestOf I t index v (points [1])).2 = 0 ∧
      num (v [0]) = num (op.bestOf I t index v (points [1])).1 := by
  obtain ⟨hstart, hle⟩ := holds_start hI (seeks_of_isArg hop) hv
  have hbeats := beats_iff hI hop hv hstart
  rw [bestOf_succ]
  unfold Reduction.improve
  split
  · exact ⟨hcast.cast 0 (Nat.lt_succ_self 0), rfl⟩
  · -- a value that is not better than the start is the start
    rename_i hbetter
    have hge := Int.not_lt.mp fun hlt => hbetter (hbeats.mpr hlt)
    exact ⟨hcast.zero, rank_inj (Int.le_antisymm hge hle)⟩

/-- A scan leads at the first best position. -/
theorem leads_bestOf (hI : I.Reckons num t) (hop : op.isArg = true) {index : Scalar}
    {v : List Int → V} {k : Nat} (hcast : I.CastsPositions num index (k + 1))
    (hv : ∀ i : Nat, i < k + 1 → t.Holds (num (v [(i : Int)]))) :
    ∃ i : Nat, num (op.bestOf I t index v (points [k + 1])).2 = i ∧
      op.Leads (fun i => num (v [(i : Int)])) (k + 1) i
        (num (op.bestOf I t index v (points [k + 1])).1) := by
  induction k with
  | zero =>
      obtain ⟨hposition, hvalue⟩ := leads_one hI hop hcast (hv 0 (Nat.lt_succ_self 0))
      refine ⟨0, hposition, Nat.lt_succ_self 0, hvalue, fun j hj => ?_,
        fun j hj => absurd hj j.not_lt_zero⟩
      obtain rfl := Nat.lt_one_iff.mp hj
      exact Int.le_of_eq (congrArg op.rank hvalue)
  | succ k ih =>
      have hcast' : I.CastsPositions num index (k + 1) :=
        ⟨hcast.zero, fun i hi => hcast.cast i (Nat.lt_succ_of_lt hi)⟩
      obtain ⟨i, hi, hleads⟩ := ih hcast' fun i hi => hv i (Nat.lt_succ_of_lt hi)
      have hbest : t.Holds (num (op.bestOf I t index v (points [k + 1])).1) :=
        hleads.value ▸ hv i (Nat.lt_succ_of_lt hleads.lt)
      rw [bestOf_succ]
      exact hleads.improve hI hop hbest (hv _ (Nat.lt_succ_self _))
        (hcast.cast _ (Nat.lt_succ_self _)) hi

/-- **A scan finds the first extremum**, also if all values are the one that it started from. -/
theorem first_bestOf (hI : I.Reckons num t) (hop : op.isArg = true) {index : Scalar}
    {v : List Int → V} {n : Nat} (hn : 0 < n) (hcast : I.CastsPositions num index n)
    (hv : ∀ i : Nat, i < n → t.Holds (num (v [(i : Int)]))) :
    ∃ i : Nat, num (op.bestOf I t index v (points [n])).2 = i ∧
      op.First (fun i => num (v [(i : Int)])) n i := by
  obtain ⟨k, rfl⟩ := Nat.exists_eq_add_of_lt hn
  rw [Nat.zero_add] at hcast hv ⊢
  obtain ⟨i, hi, hleads⟩ := leads_bestOf hI hop hcast hv
  exact ⟨i, hi, hleads.first (seeks_of_isArg hop)⟩

end Values

end Reduction

namespace Expansion

open Supply

variable {V : Type} {I : Interp V} {J : Memory V → Prop} {own : List Nat} {axes : List Var}
  {extents : List Nat} {q : Piece} {v : List Int → V} {m m₁ : Memory V} {op : Reduction}
  {t index : Scalar}

/-! ### Inside the loops -/

/-- Where `J` holds and the axes stand at a point of the extents, the value of the piece is that of
`v` at the point.  The piece keeps `J`, and it leaves the axes and the variables `own` of the loops
alone, on which `J` does not depend. -/
structure Delivers (I : Interp V) (J : Memory V → Prop) (own : List Nat) (axes : List Var)
    (extents : List Nat) (q : Piece) (v : List Int → V) : Prop where
  steady : ∀ {m m' : Memory V}, J m →
    (∀ p : Place, p.id ∉ own ++ axes.map (·.id) → m' p = m p) → J m'
  value  : ∀ {m : Memory V} {pt : List Int}, J m → Within extents pt →
    (∀ a ∈ axes.zip pt, m (.scalar a.1.id) = I.counter a.2) →
    ∃ m', Runs I q.stmts m m' ∧ J m' ∧ (∀ p : Place, p.id ∈ own ++ axes.map (·.id) → m' p = m p) ∧
      eval I m' q.value = some (v pt)

/-- The statements `tail` bring the value at one more point into the variables `own`, of which `Acc`
says what they hold after some points. -/
structure Gathers (I : Interp V) (own : List Nat) (axes : List Var) (q : Piece) (v : List Int → V)
    (tail : List Stmt) (Acc : List (List Int) → Memory V → Prop) : Prop where
  only : ∀ {done m m'}, (∀ p : Place, p.id ∈ own → m' p = m p) → Acc done m → Acc done m'
  next : ∀ {done pt m}, Acc done m → (∀ a ∈ axes.zip pt, m (.scalar a.1.id) = I.counter a.2) →
    pt.length = axes.length → eval I m q.value = some (v pt) →
    ∃ m', Runs I tail m m' ∧ Acc (done ++ [pt]) m' ∧ ∀ p : Place, p.id ∉ own → m' p = m p

/-- Writing to a variable of the loops. -/
theorem Delivers.update (hd : Delivers I J own axes extents q v) (hJ : J m) {i : Nat}
    (hi : i ∈ own ++ axes.map (·.id)) (x : V) : J (Function.update m (.scalar i) x) :=
  hd.steady hJ fun p hp => update_of_id_ne (fun hid : p.id = i => hp (hid ▸ hi)) x

/-- **Loops around a delivered value** gather the values at the points that they visit. -/
theorem Delivers.runs (hd : Delivers I J own axes extents q v) {tail : List Stmt}
    {Acc : List (List Int) → Memory V → Prop} (hg : Gathers I own axes q v tail Acc)
    (hlen : axes.length = extents.length) (hnodup : (axes.map (·.id)).Nodup)
    (hown : ∀ a ∈ axes, a.id ∉ own) (hJ : J m) (h : Acc [] m) :
    ∃ m', Runs I (nest (axes.zip extents) (q.stmts ++ tail)) m m' ∧
      Acc (points (extents.map turns)) m' := by
  have hloops : ∃ m', Runs I (nest (axes.zip extents) (q.stmts ++ tail)) m m' ∧
      J m' ∧ Acc (points (extents.map turns)) m' := by
    refine runs_nest_turns hlen hnodup (fun done m => J m ∧ Acc done m) ?axis ?point ⟨hJ, h⟩
    case axis =>
      rintro a ha done m x ⟨hJ, hacc⟩
      have hmem : a.id ∈ own ++ axes.map (·.id) :=
        List.mem_append_right own (List.mem_map_of_mem ha)
      refine ⟨hd.update hJ hmem x,
        hg.only (fun p hp => update_of_id_ne (fun hid : p.id = a.id => ?_) x) hacc⟩
      exact hown a ha (hid ▸ hp)
    case point =>
      rintro done pt m hpt ⟨hJ, hacc⟩ haxes
      have hpt := within_of_turns hpt
      obtain ⟨m₁, hrun, hJ₁, hsame, heval⟩ := hd.value hJ hpt haxes
      have haxis : ∀ a ∈ axes, m₁ (.scalar a.id) = m (.scalar a.id) := fun a ha =>
        hsame (.scalar a.id) (List.mem_append_right own (List.mem_map_of_mem ha))
      -- computing the value has left the variables of the loops alone; now it is brought in
      have hacc₁ := hg.only (fun p hp => hsame p (List.mem_append_left _ hp)) hacc
      obtain ⟨m₂, hrun', hacc₂, hrest⟩ := hg.next hacc₁
        (fun a ha => (haxis a.1 (List.of_mem_zip ha).1).trans (haxes a ha))
        (hpt.length_eq.trans hlen.symm) heval
      refine ⟨m₂, hrun.append hrun', ⟨hd.steady hJ₁ fun p hp => ?_, hacc₂⟩, fun a ha => ?_⟩
      · exact hrest p fun hmem => hp (List.mem_append_left _ hmem)
      · exact (hrest (.scalar a.id) (hown a ha)).trans (haxis a ha)
  obtain ⟨m', hrun, -, hacc⟩ := hloops
  exact ⟨m', hrun, hacc⟩

/-- The accumulator of a reduction gathers the fold of the values. -/
theorem gathers_fold {acc : Var} :
    Gathers I [acc.id] axes q v [.assign acc (op.combine (.var acc) q.value)] fun done m =>
      m (.scalar acc.id) = (done.map v).foldl (op.step I) (op.start I t) where
  only := fun hsame h => (hsame _ (List.mem_singleton.mpr rfl)).trans h
  next := by
    intro done pt m hacc _ _ heval
    refine ⟨_, .assign (eval_combine (eval_var hacc) heval), ?_, fun p hp =>
      update_of_id_ne (fun hid => hp (List.mem_singleton.mpr hid)) _⟩
    rw [Function.update_self, List.map_append, List.foldl_append]
    rfl

/-- The variables of an arg-reduction gather the best value and its position. -/
theorem gathers_best {axis best position : Var} {test : Expr} (hne : best.id ≠ position.id)
    (haxis : axis.id ≠ best.id) (htest : op.better? q.value (.var best) = some test) :
    Gathers I [best.id, position.id] [axis] q v
      [.cond test (.seq [.assign best q.value,
        .assign position (.cast (.var axis) (.scalar index))]) none]
      fun done m => m (.scalar best.id) = (op.bestOf I t index v done).1 ∧
        m (.scalar position.id) = (op.bestOf I t index v done).2 where
  only := fun hsame h => by
    rw [hsame _ (List.mem_cons_self ..),
      hsame _ (List.mem_cons_of_mem _ (List.mem_singleton.mpr rfl))]
    exact h
  next := by
    intro done pt m hacc haxes hlen heval
    obtain ⟨i, rfl⟩ := List.length_eq_one_iff.mp hlen
    obtain ⟨m', hrun, hb, hsame⟩ := Setting.improve_runs index hne haxis htest hacc heval
      (haxes (axis, i) (List.mem_singleton.mpr rfl))
    refine ⟨m', hrun, ?_, hsame⟩
    rw [Reduction.bestOf, List.foldl_append]
    exact hb

/-! ### The code of reductions -/

/-- **The code of a reduction** leaves the fold of the values in its accumulator. -/
theorem Delivers.reduces {acc : Var} (hd : Delivers I J [acc.id] axes extents q v)
    (hlen : axes.length = extents.length) (hnodup : (axes.map (·.id)).Nodup)
    (hacc : ∀ a ∈ axes, a.id ≠ acc.id) (hJ : J m) :
    ∃ m', Runs I (reduceStmts extents axes op t acc q) m m' ∧ m' (.scalar acc.id) =
      ((points (extents.map turns)).map v).foldl (op.step I) (op.start I t) := by
  have hJ' := hd.update hJ (List.mem_append_left _ (List.mem_singleton.mpr rfl)) (op.start I t)
  obtain ⟨m', hrun, hfold⟩ := hd.runs gathers_fold hlen hnodup
    (fun a ha hmem => hacc a ha (List.mem_singleton.mp hmem)) hJ' (Function.update_self _ _ _)
  exact ⟨m', .cons (.assign eval_identity) hrun, hfold⟩

/-- **The code of an arg-reduction** leaves the position of the best value in its variable. -/
theorem Delivers.scans {extent : Nat} {axis best position : Var} {test : Expr}
    (hd : Delivers I J [best.id, position.id] [axis] [extent] q v) (hne : best.id ≠ position.id)
    (hbest : axis.id ≠ best.id) (hposition : axis.id ≠ position.id)
    (htest : op.better? q.value (.var best) = some test) (hJ : J m) :
    ∃ m', Runs I (argReduceStmts extent axis op t index best position test q) m m' ∧
      m' (.scalar position.id) = (op.bestOf I t index v (points [turns extent])).2 := by
  have hJ₁ : J (Function.update m (.scalar best.id) (op.start I t)) :=
    hd.update hJ (List.mem_cons_self ..) _
  have hJ₂ : J (Function.update (Function.update m (.scalar best.id) (op.start I t))
      (.scalar position.id) (I.literal index.zero index)) :=
    hd.update hJ₁ (List.mem_cons_of_mem _ (List.mem_cons_self ..)) _
  have hstart : Function.update (Function.update m (.scalar best.id) (op.start I t))
      (.scalar position.id) (I.literal index.zero index) (.scalar best.id) = op.start I t := by
    rw [Function.update_of_ne fun h => hne (Place.scalar.inj h), Function.update_self]
  obtain ⟨m', hrun, -, hfound⟩ := hd.runs (gathers_best hne hbest htest) rfl
    (List.nodup_singleton _) (by simpa using ⟨hbest, hposition⟩) hJ₂
    ⟨hstart, Function.update_self _ _ _⟩
  exact ⟨m', .cons (.declare eval_identity) (.cons (.assign eval_const) hrun), hfound⟩

/-- Storage given for a node is written in the end, and its other variables stay. -/
theorem writeBack_keeps {c : Context} {id i : Nat} {e : Expr} {ss : List Stmt} {x : V}
    (hrun : Runs I ss m m₁) (he : eval I m₁ e = some x)
    (hi : ∀ g, c.given.find? id = some g → g.id ≠ i) :
    ∃ m', Runs I (writeBack c id e ss) m m' ∧ m' (.scalar i) = m₁ (.scalar i) := by
  unfold writeBack
  cases hgiven : c.given.find? id with
  | none => exact ⟨m₁, hrun, rfl⟩
  | some g =>
      have hne : (Place.scalar i).id ≠ (Place.scalar g.id).id := (hi g hgiven).symm
      exact ⟨_, hrun.append (.assign he), update_of_id_ne hne x⟩

section Numbers

variable {num : V → Int} {c : Context} {id : Nat}

/-- The variable of an arg-reduction is left with the first extremum.  A loop over an extent that is
no signed word is not entered, and the position stays `0`. -/
theorem Delivers.finds_first {extent : Nat} {axis best position : Var} {test : Expr}
    (hd : Delivers I J [best.id, position.id] [axis] [extent] q v) (hne : best.id ≠ position.id)
    (hbest : axis.id ≠ best.id) (hposition : axis.id ≠ position.id)
    (htest : op.better? q.value (.var best) = some test)
    (hgiven : ∀ g, c.given.find? id = some g → g.id ≠ position.id) (hI : I.Reckons num t)
    (hcast : I.CastsPositions num index extent) (hpos : 0 < extent) (hsize : extent < 2 ^ 64)
    (hv : ∀ i : Nat, i < extent → t.Holds (num (v [(i : Int)]))) (hJ : J m) :
    ∃ m', Runs I (writeBack c id (.var position)
        (argReduceStmts extent axis op t index best position test q)) m m' ∧
      (extent < 2 ^ 63 → ∃ i : Nat, num (m' (.scalar position.id)) = i ∧
        op.First (fun i => num (v [(i : Int)])) extent i) ∧
      (2 ^ 63 ≤ extent → num (m' (.scalar position.id)) = 0) := by
  obtain ⟨m₁, hrun, hfound⟩ := hd.scans hne hbest hposition htest hJ
  obtain ⟨m', hrun', hsame⟩ := writeBack_keeps hrun (eval_var hfound) hgiven
  rw [hfound] at hsame
  refine ⟨m', hrun', fun hword => ?_, fun hword => ?_⟩
  · rw [hsame, turns_of_lt hword]
    exact Reduction.first_bestOf hI (Reduction.isArg_of_better? htest) hpos hcast hv
  · -- no point has been visited, so the position is the one that it was set to
    rw [hsame, turns_of_le hword hsize]
    exact hcast.zero

/-- The accumulator is left with the extremum.  If one of the loops is not entered, it stays at what
it starts from. -/
theorem Delivers.finds_extremum {acc : Var} {count : Nat}
    (hd : Delivers I J [acc.id] axes extents q v) (hop : op = .max ∨ op = .min)
    (hlen : axes.length = extents.length) (hnodup : (axes.map (·.id)).Nodup)
    (hacc : ∀ a ∈ axes, a.id ≠ acc.id) (hgiven : ∀ g, c.given.find? id = some g → g.id ≠ acc.id)
    (hI : I.Reckons num t) (hext : ∀ k ∈ extents, 0 < k ∧ k < 2 ^ 64)
    (hv : ∀ pt, Within extents pt → t.Holds (num (v pt))) (hJ : J m) :
    ∃ m', Runs I (writeBack c id (op.finalize (.var acc) count)
        (reduceStmts extents axes op t acc q)) m m' ∧
      ((∀ k ∈ extents, k < 2 ^ 63) → op.Extremum {z | ∃ pt, Within extents pt ∧ num (v pt) = z}
        (num (m' (.scalar acc.id)))) ∧
      ((∃ k ∈ extents, 2 ^ 63 ≤ k) → m' (.scalar acc.id) = op.start I t) := by
  have hseeks : op.Seeks := by rcases hop with rfl | rfl <;> constructor
  obtain ⟨m₁, hrun, hfold⟩ := hd.reduces hlen hnodup hacc hJ
  obtain ⟨m', hrun', hsame⟩ := writeBack_keeps hrun (eval_finalize (eval_var hfold)) hgiven
  rw [hfold] at hsame
  refine ⟨m', hrun', fun hwords => ?_, ?_⟩
  · rw [hsame, map_turns hwords]
    have hne : (points extents).map v ≠ [] :=
      List.map_eq_nil_iff.not.mpr (points_ne_nil fun k hk => (hext k hk).1)
    have hfound := Reduction.extremum_foldl hI hseeks hne fun x hx => by
      obtain ⟨pt, hpt, rfl⟩ := List.mem_map.mp hx
      exact hv pt (mem_points.mp hpt)
    simpa only [List.mem_map, mem_points, exists_exists_and_eq_and] using hfound
  · rintro ⟨k, hk, hword⟩
    have hzero : 0 ∈ extents.map turns :=
      List.mem_map.mpr ⟨k, hk, turns_of_le hword (hext k hk).2⟩
    rw [hsame, points_eq_nil hzero]
    rfl

end Numbers

/-! ### What is delivered -/

/-- Elements of a tensor, read at the axes, are delivered while the tensor stays as it is. -/
theorem delivers_element {x : Var} {content : List Int → V} (hty : x.ty = .tensor t extents)
    (hlen : axes.length = extents.length) (hI : ∀ k ∈ extents, I.Counts k)
    (hx : x.id ∉ own ++ axes.map (·.id)) :
    Delivers I (fun m => ∀ is, m (.element x.id is) = content is) own axes extents
      ⟨[], .element (.var x) (axes.map .var)⟩ content where
  steady := fun hJ hsame is => (hsame (.element x.id is) hx).trans (hJ is)
  value  := by
    intro m pt hJ hpt haxes
    have hidx : indices I m (axes.map .var) = some pt :=
      Setting.indices_axes hlen hpt hI haxes
    refine ⟨m, .nil, hJ, fun _ _ => rfl, ?_⟩
    rw [eval_read hidx (hty ▸ hpt), hJ]

end Expansion

/-! ### Expanding reductions -/

theorem Interp.reckons_integers {t : Scalar} (h : t.isFloat = false) :
    Interp.integers.Reckons (fun z => z) t where
  minimum := by cases t <;> first | rfl | cases h
  maximum := by cases t <;> first | rfl | cases h
  max _ _ := rfl
  min _ _ := rfl
  gt _ _  := by simp [Interp.integers]
  lt _ _  := by simp [Interp.integers]

namespace Expansion

open Supply

/-- **Reductions find the extremum.**  The code of an arg-reduction returns the variable of its
position, that of a maximum or minimum its accumulator.  Where the code of the value delivers
numbers that its type holds, the code runs, and leaves there the first position of the extremum, or
the extremum itself.  Extents are sizes, and the loops count them as signed words: from `2 ^ 63` on
a loop is not entered, the position is `0` and the accumulator what it starts from. -/
theorem reductions_find_extremum {V : Type} {I : Interp V} {num : V → Int} {c : Context}
    {f : Nat → Step Piece} {id base : Nat} {n : Node} {value : Expr} {s : State} {t : Scalar}
    (htype : c.graph.typeOf value = .ok t) (hI : I.Reckons num t) (hs : s.supply.Tidy base)
    (hgiven : ∀ g, c.given.find? id = some g → g.id < base) :
    (∀ {extent axis op index p s'},
      expandArgReduce c f id n extent axis value op index s = .ok (p, s') → 0 < extent →
      extent < 2 ^ 64 → axis.id < base → I.CastsPositions num index extent →
      ∃ (position : Var) (s₁ : State) (q : Piece) (s₂ : State), p.value = .var position ∧
        s₁.supply.Tidy base ∧ s₁.created.find? id = some position ∧
        expandExpr f value { s₁ with nextVar := s₁.nextVar + 1 } = .ok (q, s₂) ∧
        ∀ {J : Memory V → Prop} {v : List Int → V} {m : Memory V},
          Delivers I J [s₁.nextVar, position.id] [axis] [extent] q v → J m →
          (∀ i : Nat, i < extent → t.Holds (num (v [(i : Int)]))) →
          ∃ m', Runs I p.stmts m m' ∧
            (extent < 2 ^ 63 → ∃ i : Nat, num (m' (.scalar position.id)) = i ∧
              op.First (fun i => num (v [(i : Int)])) extent i) ∧
            (2 ^ 63 ≤ extent → num (m' (.scalar position.id)) = 0)) ∧
    (∀ {shape axes op p s'},
      expandReduce c f id n shape axes value op s = .ok (p, s') → op = .max ∨ op = .min →
      axes.length = shape.length → (axes.map (·.id)).Nodup → (∀ a ∈ axes, a.id < base) →
      (∀ k ∈ shape, 0 < k ∧ k < 2 ^ 64) →
      ∃ (acc : Var) (s₁ : State) (q : Piece) (s₂ : State), p.value = .var acc ∧
        s₁.supply.Tidy base ∧ s₁.created.find? id = some acc ∧
        expandExpr f value s₁ = .ok (q, s₂) ∧
        ∀ {J : Memory V → Prop} {v : List Int → V} {m : Memory V},
          Delivers I J [acc.id] axes shape q v → J m →
          (∀ pt, Within shape pt → t.Holds (num (v pt))) →
          ∃ m', Runs I p.stmts m m' ∧
            ((∀ k ∈ shape, k < 2 ^ 63) →
              op.Extremum {z | ∃ pt, Within shape pt ∧ num (v pt) = z}
                (num (m' (.scalar acc.id)))) ∧
            ((∃ k ∈ shape, 2 ^ 63 ≤ k) → m' (.scalar acc.id) = op.start I t)) := by
  refine ⟨fun {extent axis op index p s'} h hpos hsize haxis hcast => ?_,
    fun {shape axes op p s'} h hop hlen hnodup haxes hext => ?_⟩
  · obtain ⟨t', position, s₁, q, s₂, test, htype', hposition, hq, -, htest, rfl⟩ :=
      expandArgReduce_eq_ok h
    obtain rfl := Except.ok.inj (htype.symm.trans htype')
    -- axes and given storage have ids below the base, and what the loops take has not
    have htidy := hposition.tidy hs
    have hstart : base ≤ s₁.nextVar := htidy.start
    obtain ⟨hle, hlt⟩ : base ≤ position.id ∧ position.id < s₁.nextVar :=
      htidy.of_find? hposition.find?
    let best : Var := ⟨s₁.nextVar, n.name ++ "_val", .scalar t⟩
    refine ⟨position, s₁, q, s₂, rfl, htidy, hposition.find?, hq, fun {J v m} hd hJ hv => ?_⟩
    have hd : Delivers I J [best.id, position.id] [axis] [extent] q v := hd
    exact hd.finds_first (Nat.ne_of_gt hlt) (Nat.ne_of_lt (Nat.lt_of_lt_of_le haxis hstart))
      (Nat.ne_of_lt (Nat.lt_of_lt_of_le haxis hle)) htest
      (fun g hg => Nat.ne_of_lt (Nat.lt_of_lt_of_le (hgiven g hg) hle)) hI hcast hpos hsize hv hJ
  · obtain ⟨t', acc, s₁, q, s₂, count, htype', hacc, hq, -, -, rfl⟩ := expandReduce_eq_ok h
    obtain rfl := Except.ok.inj (htype.symm.trans htype')
    have htidy := hacc.tidy hs
    obtain ⟨hle, -⟩ := htidy.of_find? hacc.find?
    have hresult : op.finalize (.var acc) count = .var acc := by rcases hop with rfl | rfl <;> rfl
    refine ⟨acc, s₁, q, s₂, hresult, htidy, hacc.find?, hq, fun {J v m} hd hJ hv => ?_⟩
    exact hd.finds_extremum hop hlen hnodup
      (fun a ha => Nat.ne_of_lt (Nat.lt_of_lt_of_le (haxes a ha) hle))
      (fun g hg => Nat.ne_of_lt (Nat.lt_of_lt_of_le (hgiven g hg) hle)) hI hext hv hJ

/-- An axis, and the element of a tensor there. -/
def sampleAxis : Var := ⟨0, "k", .scalar .i32⟩

def sampleAt : Expr := .element (.node 0) [.var sampleAxis]

/-- A tensor of bytes, the position of its greatest element and this element. -/
def samples (size : Nat) : Context where
  graph := ⟨#[⟨"x", .tensor .i8 [size], none⟩,
    ⟨"best", .scalar .i64, some (.argReduce size sampleAxis sampleAt .argmax .i64)⟩,
    ⟨"top", .scalar .i8, some (.reduce [size] [sampleAxis] sampleAt .max)⟩], 1⟩
  given := .ofList [(0, ⟨1, "x", .tensor .i8 [size]⟩)]

/-- The first byte is the least there is, and the others are all the same. -/
def sampleMemory : Memory Int := fun p => if p = .element 1 [0] then -128 else 7

/-- The code of a sample delivers what the memory holds. -/
theorem delivers_sampleAt {size : Nat} {s₁ s₂ : State} {q : Piece} {own : List Nat}
    (h : expandExpr (expandNode (samples size) 1) sampleAt s₁ = .ok (q, s₂))
    (hown : ∀ i ∈ own, 2 ≤ i) :
    Delivers .integers (fun m => ∀ is, m (.element 1 is) = sampleMemory (.element 1 is)) own
      [sampleAxis] [size] q fun is => sampleMemory (.element 1 is) := by
  have h : Except.ok (⟨[], .element (.var ⟨1, "x", .tensor .i8 [size]⟩) [.var sampleAxis]⟩, s₁) =
      (Except.ok (q, s₂) : Except Error (Piece × State)) := h
  obtain ⟨rfl, -⟩ := Prod.mk.inj (Except.ok.inj h)
  have hx : 1 ∉ own ++ [sampleAxis].map (·.id) := by
    intro hmem
    rcases List.mem_append.mp hmem with hmem | hmem
    · exact absurd (hown 1 hmem) (by decide)
    · cases List.mem_singleton.mp hmem
  exact delivers_element (x := ⟨1, "x", .tensor .i8 [size]⟩) (t := .i8) rfl
    (List.length_singleton.trans List.length_singleton.symm) (fun k _ => Interp.counts_integers k) hx

theorem sampleMemory_le (p : Place) : sampleMemory p ≤ 7 := by
  unfold sampleMemory
  split <;> decide

theorem holds_sampleMemory (p : Place) : Scalar.Holds .i8 (sampleMemory p) := by
  refine ⟨-128, 127, rfl, rfl, ?_⟩
  unfold sampleMemory
  split <;> decide

/-- The greatest of the samples comes second, and again third. -/
theorem reductions_find_extremum_samples :
    (∃ p s' position m', expandArgReduce (samples 3) (expandNode (samples 3) 1) 1
        ⟨"best", .scalar .i64, none⟩ 3 sampleAxis sampleAt .argmax .i64 ⟨.empty, 2, 0⟩ =
          .ok (p, s') ∧
      p.value = .var position ∧ Runs .integers p.stmts sampleMemory m' ∧
      m' (.scalar position.id) = 1) ∧
    ∃ p s' acc m', expandReduce (samples 3) (expandNode (samples 3) 1) 2
        ⟨"top", .scalar .i8, none⟩ [3] [sampleAxis] sampleAt .max ⟨.empty, 2, 0⟩ = .ok (p, s') ∧
      p.value = .var acc ∧ Runs .integers p.stmts sampleMemory m' ∧ m' (.scalar acc.id) = 7 := by
  have htype : (samples 3).graph.typeOf sampleAt = .ok .i8 := rfl
  have hI := Interp.reckons_integers (t := .i8) rfl
  have hs : (State.supply ⟨.empty, 2, 0⟩).Tidy 2 := tidy_empty (Nat.le_refl 2)
  have hgiven : ∀ i g, (samples 3).given.find? i = some g → g.id < 2 := fun i g hg => by
    obtain ⟨-, rfl⟩ := Prod.mk.inj (List.mem_singleton.mp (Table.mem_of_find?_ofList hg))
    decide
  constructor
  · obtain ⟨⟨p, s'⟩, h⟩ : ∃ r, expandArgReduce (samples 3) (expandNode (samples 3) 1) 1
        ⟨"best", .scalar .i64, none⟩ 3 sampleAxis sampleAt .argmax .i64 ⟨.empty, 2, 0⟩ = .ok r :=
      ⟨_, rfl⟩
    obtain ⟨position, s₁, q, s₂, hp, htidy, hfind, hq, hfinds⟩ :=
      (reductions_find_extremum htype hI hs (hgiven 1)).1 h (by decide) (by decide)
        (by decide) ⟨rfl, fun _ _ => rfl⟩
    have hown : ∀ i ∈ [s₁.nextVar, position.id], 2 ≤ i := by
      simpa using ⟨htidy.start, (htidy.of_find? hfind).1⟩
    obtain ⟨m', hrun, hfirst, -⟩ := hfinds (delivers_sampleAt hq hown) (fun _ => rfl)
      fun _ _ => holds_sampleMemory _
    obtain ⟨i, hi, ⟨-, -, hgreatest⟩, hleast⟩ := hfirst (by decide)
    refine ⟨p, s', position, m', h, hp, hrun, ?_⟩
    have hle : i ≤ 1 := hleast ⟨by decide, ⟨1, by decide, rfl⟩, by
      rintro _ ⟨j, -, rfl⟩
      exact sampleMemory_le _⟩
    have hne : i ≠ 0 := by
      rintro rfl
      exact absurd (hgreatest ⟨1, by decide, rfl⟩) (by decide)
    rw [hi]
    omega
  · obtain ⟨⟨p, s'⟩, h⟩ : ∃ r, expandReduce (samples 3) (expandNode (samples 3) 1) 2
        ⟨"top", .scalar .i8, none⟩ [3] [sampleAxis] sampleAt .max ⟨.empty, 2, 0⟩ = .ok r :=
      ⟨_, rfl⟩
    obtain ⟨acc, s₁, q, s₂, hp, htidy, hfind, hq, hfinds⟩ :=
      (reductions_find_extremum htype hI hs (hgiven 2)).2 h (.inl rfl) rfl
        (List.nodup_singleton _) (by decide) (by decide)
    have hown : ∀ i ∈ [acc.id], 2 ≤ i := by
      simpa using (htidy.of_find? hfind).1
    obtain ⟨m', hrun, hextremum, -⟩ := hfinds (delivers_sampleAt hq hown) (fun _ => rfl)
      fun _ _ => holds_sampleMemory _
    refine ⟨p, s', acc, m', h, hp, hrun, ?_⟩
    obtain ⟨⟨pt, -, hpt⟩, hgreatest⟩ := hextremum (by decide)
    have hge : 7 ≤ m' (.scalar acc.id) := hgreatest ⟨[1], by decide, rfl⟩
    have hle := sampleMemory_le (.element 1 pt)
    omega

/-- A tensor with more elements than a signed word can count: the loop is not entered, and the
position is `0`, where the least of the elements is. -/
theorem argReduce_beyond_words : ∃ x m', (samples (2 ^ 63)).graph.expand (.node 1)
      (samples (2 ^ 63)).given = .ok x ∧
    exec .integers x.stmt ⟨sampleMemory, [], none⟩ = some m' ∧
    eval .integers m'.memory x.value = some 0 ∧
    m'.memory (.element 1 [0]) < m'.memory (.element 1 [1]) :=
  ⟨_, _, rfl, rfl, rfl, by decide⟩

end Expansion

end TensorLoops
