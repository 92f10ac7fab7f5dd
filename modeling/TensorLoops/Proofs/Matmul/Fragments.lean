import TensorLoops.Matmul.Shape
import TensorLoops.Proofs.Lanes.Sharing

/-!
# Proofs — Matmul — Fragments

The fragments of a multiply-accumulate shape.  A mapping is accepted for an operand if it has the
operand's extents, if its workers have as many tasks as a lane has elements, and if the number of
its workers divides that of the lanes.  That every lane is a worker and that the lanes share the
tile out follows: the workers of a built mapping make up the grid, so they are as many as the lanes
(`Sound.workers_eq`), and every element stands at one place of one lane's list (`Sound.shares`).

No list of elements is too long for memory.  The bits of a tile are counted in a word, so a lane has
fewer than `2 ^ 56` elements, and no factor of its mapping has more (`Sound.fits`).
-/

namespace TensorLoops

namespace Mapping

/-- Where the tasks of a worker fit in memory, and there are any, those of every factor do. -/
theorem Sound.fits : ∀ {m : Mapping}, m.Sound → 0 < m.perWorker →
    taskBytes * m.perWorker < 2 ^ 63 → m.Fits
  | .spatial _ _, _, _, _ => trivial
  | .repeated _ _, _, _, hroom => hroom
  | .composed x outer inner, ⟨⟨ho, hi⟩, _, _, _, _, hper, _⟩, hpos, hroom => by
      have hproduct : 0 < outer.perWorker * inner.perWorker := hper ▸ hpos
      have houter : 0 < outer.perWorker := Nat.pos_of_mul_pos_right hproduct
      have hinner : 0 < inner.perWorker := Nat.pos_of_mul_pos_left hproduct
      have hle : ∀ {n}, n ≤ outer.perWorker * inner.perWorker → taskBytes * n < 2 ^ 63 := by
        intro n hn
        rw [← hper] at hn
        exact Nat.lt_of_le_of_lt (Nat.mul_le_mul_left taskBytes hn) hroom
      exact ⟨ho.fits houter (hle (Nat.le_mul_of_pos_right _ hinner)),
        hi.fits hinner (hle (Nat.le_mul_of_pos_left _ houter)), hroom⟩

/-- The workers are as many as the parts that the grid is cut into. -/
theorem Sound.workers_eq {m : Mapping} (h : m.Sound) {parts : Nat} (hpos : 0 < m.perWorker)
    (hgrid : m.shape.prod = parts * m.perWorker) : m.workers = parts :=
  Nat.eq_of_mul_eq_mul_right hpos (h.count.trans hgrid)

end Mapping

namespace Target

variable {t : Target} {s : Scalar} {count n : Nat}

theorem elementsPerLane_eq_ok (h : t.elementsPerLane count = .ok n) :
    0 < t.warpSize ∧ n * t.warpSize = count := by
  unfold elementsPerLane at h
  split at h
  · cases h
  · rename_i hno
    obtain ⟨hwarp, hmod⟩ := not_or.mp hno
    obtain rfl := Except.ok.inj h
    exact ⟨Nat.pos_of_ne_zero hwarp, Nat.div_mul_cancel (Nat.dvd_of_mod_eq_zero (not_not.mp hmod))⟩

theorem registersPerLane_eq_ok (h : t.registersPerLane s count = .ok n) :
    s.bits * count < Word.limit ∧ n * (t.warpSize * t.registerBits) = s.bits * count := by
  obtain ⟨bits, hbits, h⟩ := bind_eq_ok.mp h
  obtain ⟨group, hgroup, h⟩ := bind_eq_ok.mp h
  obtain ⟨hlt, rfl⟩ := Word.mul_eq_ok.mp hbits
  obtain ⟨-, rfl⟩ := Word.mul_eq_ok.mp hgroup
  split at h
  · obtain ⟨_, h, -⟩ := bind_eq_ok.mp h
    cases h
  · rename_i hno
    obtain rfl := pure_eq_ok.mp h
    have hmod := not_not.mp (not_or.mp hno).2
    exact ⟨hlt, Nat.div_mul_cancel (Nat.dvd_of_mod_eq_zero hmod)⟩

/-- The registers of a lane hold its elements and nothing else. -/
theorem registers_mul_bits {registers elements : Nat}
    (hregs : t.registersPerLane s count = .ok registers)
    (hels : t.elementsPerLane count = .ok elements) :
    registers * t.registerBits = elements * s.bits := by
  obtain ⟨-, hregs⟩ := registersPerLane_eq_ok hregs
  obtain ⟨hwarp, rfl⟩ := elementsPerLane_eq_ok hels
  refine Nat.eq_of_mul_eq_mul_right hwarp ?_
  calc registers * t.registerBits * t.warpSize
      = registers * (t.warpSize * t.registerBits) := by rw [Nat.mul_assoc, Nat.mul_comm t.registerBits]
    _ = s.bits * (elements * t.warpSize) := hregs
    _ = elements * s.bits * t.warpSize := by rw [← Nat.mul_assoc, Nat.mul_comm s.bits]

end Target

/-! ### Fragments of a tile -/

theorem Scalar.eight_le_bits (s : Scalar) : 8 ≤ s.bits := by
  cases s <;> decide

namespace Fragment

open Mapping

/-- A fragment of a tile of `rows × cols` values of type `s` over a warp of 32 lanes: every lane has
its elements, every element of the tile has one place, and a lane's registers are filled. -/
structure Exact (f : Fragment) (rows cols : Nat) (s : Scalar) : Prop where
  lanes     : f.map.workers = 32
  size      : f.elements * 32 = rows * cols
  elements  : ∀ lane < 32, ∃ tasks, f.map.workerTasks lane = .ok tasks ∧
    tasks.length = f.elements ∧ ∀ task ∈ tasks, ∃ row < rows, ∃ col < cols, task = [row, col]
  places    : ∀ row < rows, ∀ col < cols, ∃! place : Nat × Nat, place.1 < 32 ∧
    ∃ tasks, f.map.workerTasks place.1 = .ok tasks ∧ tasks[place.2]? = some [row, col]
  registers : f.registers * 32 = f.elements * s.bits

/-- What is seen to when a mapping is taken for the fragments of such a tile. -/
structure Checked (f : Fragment) (map : Mapping) (rows cols : Nat) (s : Scalar) : Prop where
  map       : f.map = map
  elements  : Target.standard.elementsPerLane (rows * cols) = .ok f.elements
  registers : Target.standard.registersPerLane s (rows * cols) = .ok f.registers
  check     : ∃ operand key, MmaShape.checkFragment operand key f rows cols = .ok ()

variable {f : Fragment} {map : Mapping} {rows cols : Nat} {s : Scalar}

/-- A fragment that passes covers its tile with as many elements as it says. -/
theorem checkFragment_eq_ok {operand key : String}
    (h : MmaShape.checkFragment operand key f rows cols = .ok ()) :
    f.map.shape = [rows, cols] ∧ f.map.perWorker = f.elements := by
  obtain ⟨_, -, h⟩ := bind_eq_ok.mp h
  split at h
  · cases h
  · rename_i hno
    obtain ⟨hshape, hper⟩ := not_or.mp hno
    exact ⟨not_not.mp hshape, not_not.mp hper⟩

theorem inGrid_pair {task : List Nat} :
    InGrid [rows, cols] task ↔ ∃ row < rows, ∃ col < cols, task = [row, col] := by
  constructor
  · intro h
    obtain ⟨row, _, hrow, hrest, rfl⟩ := List.forall₂_cons_right_iff.mp h
    obtain ⟨col, _, hcol, hnil, rfl⟩ := List.forall₂_cons_right_iff.mp hrest
    obtain rfl := List.forall₂_nil_right_iff.mp hnil
    exact ⟨row, hrow, col, hcol, rfl⟩
  · rintro ⟨row, hrow, col, hcol, rfl⟩
    exact .cons hrow (.cons hcol .nil)

/-- A lane of a warp has few enough elements to list them. -/
theorem room_of_bits {n : Nat} (h : s.bits * (n * 32) < Word.limit) : taskBytes * n < 2 ^ 63 := by
  have hbits : 8 * (n * 32) ≤ s.bits * (n * 32) := Nat.mul_le_mul_right _ s.eight_le_bits
  have hlimit : Word.limit = 2 ^ 64 := rfl
  unfold taskBytes
  omega

/-- **A fragment that passes the check is exact.** -/
theorem Checked.exact (h : f.Checked map rows cols s) (hmap : map.Built) (hrows : 0 < rows)
    (hcols : 0 < cols) : f.Exact rows cols s := by
  obtain ⟨rfl, hels, hregs, operand, key, hcheck⟩ := h
  obtain ⟨hshape, hper⟩ := checkFragment_eq_ok hcheck
  have hsize : f.elements * 32 = rows * cols := (Target.elementsPerLane_eq_ok hels).2
  have hpos : 0 < f.map.perWorker := by
    have := Nat.mul_pos hrows hcols
    omega
  have hgrid : f.map.shape.prod = 32 * f.map.perWorker := by
    rw [hshape, hper, List.prod_cons, List.prod_singleton, ← hsize, Nat.mul_comm]
  have hlanes : f.map.workers = 32 := hmap.sound.workers_eq hpos hgrid
  -- all bits of the tile are counted in a word, so that there is memory for a lane's elements
  have hbits := (Target.registersPerLane_eq_ok hregs).1
  have hroom : taskBytes * f.map.perWorker < 2 ^ 63 := hper ▸ room_of_bits (hsize ▸ hbits)
  have hshares := hmap.sound.shares (hmap.sound.fits hpos hroom)
  have htasks : ∀ lane < 32, f.map.workerTasks lane = f.map.tasksOf lane :=
    fun lane hlt => if_pos (hlanes ▸ hlt)
  refine ⟨hlanes, hsize, fun lane hlt => ?_, fun row hrow col hcol => ?_,
    Target.registers_mul_bits hregs hels⟩
  · obtain ⟨tasks, hok, hlen, hin⟩ := hshares.tasks lane (hlanes ▸ hlt)
    refine ⟨tasks, (htasks lane hlt).trans hok, hlen.trans hper, fun task ht => ?_⟩
    exact inGrid_pair.mp (hshape ▸ hin task ht)
  · have hin : InGrid f.map.shape [row, col] :=
      hshape ▸ inGrid_pair.mpr ⟨row, hrow, col, hcol, rfl⟩
    refine (existsUnique_congr fun place => ?_).mp (hshares.unique _ hin)
    rw [Has, hlanes]
    exact and_congr_right fun hlt => by rw [htasks _ hlt]

end Fragment

namespace MmaShape

/-- All three operands are checked. -/
theorem make_eq_ok {m n k : Nat} {input output : Scalar} {aMap bMap cMap : Mapping} {x : MmaShape}
    (h : make m n k input output aMap bMap cMap = .ok x) :
    x.a.Checked aMap m k input ∧ x.b.Checked bMap k n input ∧ x.c.Checked cMap m n output := by
  obtain ⟨_, hsize, h⟩ := bind_eq_ok.mp h
  obtain ⟨-, rfl⟩ := Word.mul_eq_ok.mp hsize
  obtain ⟨elementsA, helementsA, h⟩ := bind_eq_ok.mp h
  obtain ⟨_, hsize, h⟩ := bind_eq_ok.mp h
  obtain ⟨-, rfl⟩ := Word.mul_eq_ok.mp hsize
  obtain ⟨elementsB, helementsB, h⟩ := bind_eq_ok.mp h
  obtain ⟨_, hsize, h⟩ := bind_eq_ok.mp h
  obtain ⟨-, rfl⟩ := Word.mul_eq_ok.mp hsize
  obtain ⟨elementsC, helementsC, h⟩ := bind_eq_ok.mp h
  obtain ⟨registersA, hregistersA, h⟩ := bind_eq_ok.mp h
  obtain ⟨registersB, hregistersB, h⟩ := bind_eq_ok.mp h
  obtain ⟨registersC, hregistersC, h⟩ := bind_eq_ok.mp h
  obtain ⟨_, hcheckA, h⟩ := bind_eq_ok.mp h
  obtain ⟨_, hcheckB, h⟩ := bind_eq_ok.mp h
  obtain ⟨_, hcheckC, h⟩ := bind_eq_ok.mp h
  obtain rfl := pure_eq_ok.mp h
  exact ⟨⟨rfl, helementsA, hregistersA, _, _, hcheckA⟩,
    ⟨rfl, helementsB, hregistersB, _, _, hcheckB⟩, ⟨rfl, helementsC, hregistersC, _, _, hcheckC⟩⟩

/-- **Accepted shapes have exact fragments.**  The mappings of a shape that is accepted spread the
operands over all lanes, whatever constructors they were built by; and on any target the registers
of a lane hold its elements exactly. -/
theorem make_exact :
    (∀ {m n k : Nat} {input output : Scalar} {aMap bMap cMap : Mapping} {x : MmaShape},
      0 < m → 0 < n → 0 < k → aMap.Built → bMap.Built → cMap.Built →
      make m n k input output aMap bMap cMap = .ok x →
      (x.a.map = aMap ∧ x.a.Exact m k input) ∧ (x.b.map = bMap ∧ x.b.Exact k n input) ∧
        (x.c.map = cMap ∧ x.c.Exact m n output)) ∧
    ∀ (t : Target) (s : Scalar) (count registers elements : Nat),
      t.registersPerLane s count = .ok registers → t.elementsPerLane count = .ok elements →
      registers * t.registerBits = elements * s.bits := by
  refine ⟨?_, fun t s count registers elements => Target.registers_mul_bits⟩
  intro m n k input output aMap bMap cMap x hm hn hk ha hb hc h
  obtain ⟨hcheckA, hcheckB, hcheckC⟩ := make_eq_ok h
  exact ⟨⟨hcheckA.map, hcheckA.exact ha hm hk⟩, ⟨hcheckB.map, hcheckB.exact hb hk hn⟩,
    ⟨hcheckC.map, hcheckC.exact hc hm hn⟩⟩

/-- Two rows of lanes, in each of which a lane has a pair of elements. -/
def rowPairs : Mapping :=
  .composed ⟨[16, 8], 32, 4⟩
    (.composed ⟨[16, 4], 32, 2⟩ (.repeated ⟨[2, 1], 1, 2⟩ [0, 1]) (.spatial ⟨[8, 4], 32, 1⟩ [0, 1]))
    (.repeated ⟨[1, 2], 1, 2⟩ [0, 1])

/-- Columns of lanes with a pair of elements each. -/
def colPairs : Mapping :=
  .composed ⟨[8, 8], 32, 2⟩ (.spatial ⟨[4, 8], 32, 1⟩ [1, 0]) (.repeated ⟨[2, 1], 1, 2⟩ [1, 0])

/-- A shape of the table, and a warp of another size. -/
theorem make_exact_m16n8k8 : rowPairs.Built ∧ colPairs.Built ∧
    (∃ x, make 16 8 8 .f16 .f32 rowPairs colPairs rowPairs = .ok x ∧ x.a.Exact 16 8 .f16 ∧
      x.b.Exact 8 8 .f16 ∧ x.c.Exact 16 8 .f32) ∧
    2 * (Target.ofWarp 16 32).registerBits = 4 * Scalar.f16.bits := by
  have hrows : Mapping.rowRepeat [2, 1] = .ok (.repeated ⟨[2, 1], 1, 2⟩ [0, 1]) := rfl
  have hlanes : Mapping.rowSpatial [8, 4] = .ok (.spatial ⟨[8, 4], 32, 1⟩ [0, 1]) := rfl
  have hpair : Mapping.rowRepeat [1, 2] = .ok (.repeated ⟨[1, 2], 1, 2⟩ [0, 1]) := rfl
  have hcols : Mapping.colSpatial [4, 8] = .ok (.spatial ⟨[4, 8], 32, 1⟩ [1, 0]) := rfl
  have hcolPair : Mapping.colRepeat [2, 1] = .ok (.repeated ⟨[2, 1], 1, 2⟩ [1, 0]) := rfl
  have ha : rowPairs.Built :=
    .compose (.compose (.rowRepeat hrows) (.rowSpatial hlanes) rfl) (.rowRepeat hpair) rfl
  have hb : colPairs.Built := .compose (.colSpatial hcols) (.colRepeat hcolPair) rfl
  have hmake : make 16 8 8 .f16 .f32 rowPairs colPairs rowPairs =
    .ok ⟨16, 8, 8, .f16, .f32, ⟨rowPairs, 4, 2⟩, ⟨colPairs, 2, 1⟩, ⟨rowPairs, 4, 4⟩⟩ := rfl
  obtain ⟨⟨-, hexactA⟩, ⟨-, hexactB⟩, ⟨-, hexactC⟩⟩ :=
    make_exact.1 (by decide) (by decide) (by decide) ha hb ha hmake
  exact ⟨ha, hb, ⟨_, hmake, hexactA, hexactB, hexactC⟩,
    make_exact.2 (Target.ofWarp 16 32) .f16 64 2 4 rfl rfl⟩

end MmaShape

end TensorLoops
