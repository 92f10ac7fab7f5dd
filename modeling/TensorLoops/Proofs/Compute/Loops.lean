import Mathlib.Algebra.Group.Nat.Defs
import TensorLoops.Compute.Expansion
import TensorLoops.Proofs.Code.Running

/-!
# Proofs — Compute — Loops

Nests of loops.  A nest visits the points of its extents in row-major order (`points`), and what
its body keeps along that order holds in the end of all points (`runs_nest`).

The extent of a loop is written as a signed word.  A size from `2 ^ 63` on becomes negative there,
and the loop is not entered (`turns`), which leaves the whole nest without a point to visit.
-/

namespace TensorLoops

/-- The points of a shape, the last index running fastest. -/
def points : List Nat → List (List Int)
  | []      => [[]]
  | n :: ns => (List.range n).flatMap fun i => (points ns).map (Int.ofNat i :: ·)

/-- The points of a shape are the indices within it. -/
theorem mem_points {shape : List Nat} {is : List Int} : is ∈ points shape ↔ Within shape is := by
  induction shape generalizing is with
  | nil =>
      cases is with
      | nil => simp [points, Within]
      | cons i is => simp [points, Within]
  | cons n ns ih =>
      cases is with
      | nil => simp [points, Within]
      | cons i is =>
          simp only [points, List.mem_flatMap, List.mem_range, List.mem_map, List.cons.injEq, ih,
            Within]
          constructor
          · rintro ⟨k, hk, js, hjs, rfl, rfl⟩
            exact ⟨⟨Int.natCast_nonneg k, Int.ofNat_lt.mpr hk⟩, hjs⟩
          · rintro ⟨⟨hi, hlt⟩, his⟩
            obtain ⟨k, rfl⟩ := Int.eq_ofNat_of_zero_le hi
            exact ⟨k, Int.ofNat_lt.mp hlt, is, his, rfl, rfl⟩

/-- Positive extents have a point. -/
theorem points_ne_nil {shape : List Nat} (h : ∀ n ∈ shape, 0 < n) : points shape ≠ [] := by
  induction shape with
  | nil => exact List.cons_ne_nil _ _
  | cons n ns ih =>
      obtain ⟨hn, hns⟩ := List.forall_mem_cons.mp h
      obtain ⟨is, his⟩ := List.exists_mem_of_ne_nil _ (ih hns)
      refine List.ne_nil_of_mem (a := Int.ofNat 0 :: is) ?_
      exact List.mem_flatMap.mpr ⟨0, List.mem_range.mpr hn, List.mem_map_of_mem his⟩

/-- A zero among the extents leaves none. -/
theorem points_eq_nil {shape : List Nat} (h : 0 ∈ shape) : points shape = [] := by
  induction shape with
  | nil => cases h
  | cons n ns ih =>
      rcases List.mem_cons.mp h with rfl | h
      · rfl
      · rw [points, ih h]
        exact List.flatMap_eq_nil_iff.mpr fun _ _ => rfl

/-- The points of the first `i` iterations of an outer loop. -/
def outerPoints (i : Nat) (ns : List Nat) : List (List Int) :=
  (List.range i).flatMap fun j => (points ns).map (Int.ofNat j :: ·)

theorem outerPoints_succ {i : Nat} {ns : List Nat} :
    outerPoints (i + 1) ns = outerPoints i ns ++ (points ns).map (Int.ofNat i :: ·) := by
  simp only [outerPoints, List.range_succ, List.flatMap_append, List.flatMap_singleton]

namespace Expansion

variable {V : Type} {I : Interp V}

/-- How often a loop over a size is gone through. -/
def turns (n : Nat) : Nat := (Int.bmod n (2 ^ 64)).toNat

/-- Below `2 ^ 63` a loop is gone through as often as its size says. -/
theorem turns_of_lt {n : Nat} (h : n < 2 ^ 63) : turns n = n := by
  unfold turns
  rw [Int.bmod_def]
  omega

/-- From there on it is not entered. -/
theorem turns_of_le {n : Nat} (h : 2 ^ 63 ≤ n) (h' : n < 2 ^ 64) : turns n = 0 := by
  unfold turns
  rw [Int.bmod_def]
  omega

theorem turns_le {n : Nat} : turns n ≤ n := by
  unfold turns
  rw [Int.bmod_def]
  omega

theorem map_turns {extents : List Nat} (h : ∀ n ∈ extents, n < 2 ^ 63) :
    extents.map turns = extents := by
  rw [List.map_congr_left fun n hn => turns_of_lt (h n hn), List.map_id']

/-- A point that is visited is a point of the extents. -/
theorem within_of_turns {extents : List Nat} {pt : List Int} (h : Within (extents.map turns) pt) :
    Within extents pt := by
  induction extents generalizing pt with
  | nil => exact h
  | cons n extents ih =>
      cases pt with
      | nil => exact h.elim
      | cons i pt =>
          obtain ⟨⟨hi, hlt⟩, hpt⟩ := h
          exact ⟨⟨hi, Int.lt_of_lt_of_le hlt (Int.ofNat_le.mpr turns_le)⟩, ih hpt⟩

/-- A loop over a size that a word can hold counts as far. -/
theorem count_ofSize {m : Memory V} {n : Nat} (h : n < 2 ^ 63) :
    count I m (.ofSize n) = some (n : Int) := by
  have hn : Int.bmod n (Nat.pow 2 64) = n := by
    rw [Nat.pow_eq, Int.bmod_def]
    omega
  show some (Int.bmod n (Nat.pow 2 64)) = _
  rw [hn]

/-- **A nest of loops**, by an invariant of the points visited. -/
theorem runs_nest_turns {axes : List Var} {extents : List Nat} {body : List Stmt} {m : Memory V}
    (hlen : axes.length = extents.length) (hnodup : (axes.map (·.id)).Nodup)
    (Q : List (List Int) → Memory V → Prop)
    (haxis : ∀ v ∈ axes, ∀ done m x, Q done m → Q done (Function.update m (.scalar v.id) x))
    (hbody : ∀ done pt m, Within (extents.map turns) pt → Q done m →
      (∀ a ∈ axes.zip pt, m (.scalar a.1.id) = I.counter a.2) →
      ∃ m', Runs I body m m' ∧ Q (done ++ [pt]) m' ∧
        ∀ v ∈ axes, m' (.scalar v.id) = m (.scalar v.id))
    (h : Q [] m) :
    ∃ m', Runs I (nest (axes.zip extents) body) m m' ∧ Q (points (extents.map turns)) m' := by
  induction axes generalizing extents Q m with
  | nil =>
      obtain rfl := List.length_eq_zero_iff.mp hlen.symm
      obtain ⟨m', hrun, hQ, -⟩ := hbody [] [] m trivial h nofun
      exact ⟨m', hrun, hQ⟩
  | cons v axes ih =>
      obtain ⟨n, ns, rfl⟩ := List.exists_cons_of_length_eq_add_one hlen.symm
      obtain ⟨hv, hnodup⟩ := List.nodup_cons.mp hnodup
      obtain ⟨hvaxis, haxis⟩ := List.forall_mem_cons.mp haxis
      refine runs_loop (fun m => rfl) (fun i => Q (outerPoints i (ns.map turns)))
        (fun i m hi hQ => ?_) h
      -- the inner loops run with the outer axis fixed, behind the points of earlier iterations
      have inner : ∃ m', Runs I (nest (axes.zip ns) body)
          (Function.update m (.scalar v.id) (I.counter i)) m' ∧
          Q (outerPoints i (ns.map turns) ++ (points (ns.map turns)).map (Int.ofNat i :: ·)) m' ∧
          m' (.scalar v.id) = I.counter i := by
        refine ih (Nat.succ.inj hlen) hnodup
          (fun done m => Q (outerPoints i (ns.map turns) ++ done.map (Int.ofNat i :: ·)) m ∧
            m (.scalar v.id) = I.counter i) ?axis ?body ?start
        case axis =>
          rintro u hu done m x ⟨hQ, hval⟩
          refine ⟨haxis u hu _ m x hQ, ?_⟩
          rw [Function.update_of_ne, hval]
          exact fun heq => hv (List.mem_map.mpr ⟨u, hu, (Place.scalar.inj heq).symm⟩)
        case body =>
          rintro done pt m hpt ⟨hQ, hval⟩ hzip
          have hpt' : Within ((n :: ns).map turns) (Int.ofNat i :: pt) :=
            ⟨⟨Int.natCast_nonneg i, Int.ofNat_lt.mpr hi⟩, hpt⟩
          obtain ⟨m', hrun, hQ', hkeep⟩ := hbody _ (Int.ofNat i :: pt) m hpt' hQ
            (List.forall_mem_cons.mpr ⟨hval, hzip⟩)
          obtain ⟨hkeepv, hkeep⟩ := List.forall_mem_cons.mp hkeep
          refine ⟨m', hrun, ⟨?_, hkeepv.trans hval⟩, hkeep⟩
          rw [List.map_append, ← List.append_assoc]
          exact hQ'
        case start =>
          refine ⟨?_, Function.update_self _ _ _⟩
          rw [List.map_nil, List.append_nil]
          exact hvaxis _ m _ hQ
      obtain ⟨m', hrun, hQ', -⟩ := inner
      refine ⟨m', hrun.ofList, ?_⟩
      rw [outerPoints_succ]
      exact hQ'

/-- A nest of loops that words can count visits all points of its extents. -/
theorem runs_nest {axes : List Var} {extents : List Nat} {body : List Stmt} {m : Memory V}
    (hlen : axes.length = extents.length) (hnodup : (axes.map (·.id)).Nodup)
    (hext : ∀ n ∈ extents, n < 2 ^ 63) (Q : List (List Int) → Memory V → Prop)
    (haxis : ∀ v ∈ axes, ∀ done m x, Q done m → Q done (Function.update m (.scalar v.id) x))
    (hbody : ∀ done pt m, Within extents pt → Q done m →
      (∀ a ∈ axes.zip pt, m (.scalar a.1.id) = I.counter a.2) →
      ∃ m', Runs I body m m' ∧ Q (done ++ [pt]) m' ∧
        ∀ v ∈ axes, m' (.scalar v.id) = m (.scalar v.id))
    (h : Q [] m) : ∃ m', Runs I (nest (axes.zip extents) body) m m' ∧ Q (points extents) m' := by
  obtain ⟨m', hrun, hQ⟩ := runs_nest_turns hlen hnodup Q haxis
    (fun done pt m hpt => hbody done pt m (within_of_turns hpt)) h
  exact ⟨m', hrun, map_turns hext ▸ hQ⟩

end Expansion

end TensorLoops
