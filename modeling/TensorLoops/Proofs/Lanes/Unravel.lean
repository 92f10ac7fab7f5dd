import Mathlib.Algebra.BigOperators.Group.List.Basic
import Mathlib.Data.List.Forall2
import Mathlib.Data.List.GetD
import TensorLoops.Lanes.Mapping
import TensorLoops.Proofs.Checked

/-!
# Proofs — Lanes — Unravel

Counting the points of a grid in nesting order.  Whatever order the ranks give, `nesting` lists
every dimension once (`nesting_perm`), and peeling the dimensions off an index is division in a
mixed radix: `ravel` puts the index together again (`foldlM_peel`).  So `unravel` meets every
point of the grid at exactly one index (`unravel_inGrid`, `existsUnique_unravel`).
-/

namespace TensorLoops

namespace Mapping

/-- A task of a grid: a coordinate for each dimension, below its extent. -/
def InGrid (shape task : List Nat) : Prop := List.Forall₂ (· < ·) task shape

/-! ### Digits -/

/-- A digit in front of a smaller one stays below the product. -/
theorem mul_add_lt {a b m n : Nat} (ha : a < m) (hb : b < n) : a * n + b < m * n :=
  calc a * n + b < a * n + n := Nat.add_lt_add_left hb _
    _ = (a + 1) * n := (Nat.succ_mul a n).symm
    _ ≤ m * n := Nat.mul_le_mul_right n ha

/-- Two digits are taken apart by quotient and remainder. -/
theorem mul_add_div_mod {a b n : Nat} (hb : b < n) : (a * n + b) / n = a ∧ (a * n + b) % n = b := by
  rw [Nat.mul_comm, Nat.mul_add_div (Nat.zero_lt_of_lt hb), Nat.mul_add_mod, Nat.div_eq_of_lt hb,
    Nat.mod_eq_of_lt hb]
  exact ⟨rfl, rfl⟩

/-- A number has one quotient and one remainder. -/
theorem mul_add_inj {a b c d n : Nat} (hb : b < n) (hd : d < n) (h : a * n + b = c * n + d) :
    a = c ∧ b = d := by
  have hab := mul_add_div_mod hb (a := a)
  rw [h] at hab
  have hcd := mul_add_div_mod hd (a := c)
  exact ⟨hab.1.symm.trans hcd.1, hab.2.symm.trans hcd.2⟩

/-! ### The order of dimensions -/

/-- Sorting a dimension in keeps the others. -/
theorem insertDim_perm (d : Dim) : ∀ es : List Dim, (insertDim d es).Perm (d :: es)
  | []      => .refl _
  | e :: es => by
      rw [insertDim]
      split
      · exact .refl _
      · exact ((insertDim_perm d es).cons e).trans (.swap d e es)

theorem foldl_insertDim_perm {α : Type} (f : α → Dim) (xs : List α) (es : List Dim) :
    (xs.foldl (fun es x => insertDim (f x) es) es).Perm (xs.map f ++ es) := by
  induction xs generalizing es with
  | nil => exact .refl _
  | cons x xs ih =>
      refine (ih (insertDim (f x) es)).trans ?_
      exact ((insertDim_perm (f x) es).append_left _).trans List.perm_middle

/-- The dimensions of a shape: every position once, with its extent. -/
def Lists (ds : List Dim) (shape : List Nat) : Prop :=
  (ds.map fun d => (d.extent, d.index)).Perm shape.zipIdx

/-- The dimensions with their places, whatever their ranks. -/
theorem zip_ranks_eq {shape ranks : List Nat} (h : ranks.length = shape.length) :
    ((List.range shape.length).zip (shape.zip ranks)).map (fun d => (d.2.1, d.1)) = shape.zipIdx :=
  List.ext_getElem (by simp [h]) fun i h₁ h₂ => by simp

/-- With a rank for every dimension, every dimension is listed. -/
theorem nesting_perm {shape ranks : List Nat} (h : ranks.length = shape.length) :
    ∃ ds, nesting shape ranks = .ok ds ∧ Lists ds shape := by
  match shape with
  | []          => exact ⟨[], rfl, .refl _⟩
  | [extent]    => exact ⟨[⟨0, extent, 0⟩], rfl, .refl _⟩
  | a :: b :: r =>
      simp only [nesting, if_neg (Nat.not_lt.mpr (Nat.le_of_eq h.symm))]
      refine ⟨_, rfl, ((foldl_insertDim_perm _ _ []).map _).trans (.of_eq ?_)⟩
      rw [List.append_nil, List.map_map]
      exact zip_ranks_eq h

namespace Lists

variable {ds : List Dim} {shape : List Nat}

theorem extent_eq (h : Lists ds shape) {d : Dim} (hd : d ∈ ds) : shape[d.index]? = some d.extent :=
  List.mem_zipIdx_iff_getElem?.mp (h.mem_iff.mp (List.mem_map_of_mem hd))

/-- Every dimension of the shape is listed. -/
theorem exists_of_getElem? (h : Lists ds shape) {i n : Nat} (hi : shape[i]? = some n) :
    ∃ d ∈ ds, d.index = i ∧ d.extent = n := by
  obtain ⟨d, hd, he⟩ := List.mem_map.mp (h.mem_iff.mpr (List.mk_mem_zipIdx_iff_getElem?.mpr hi))
  obtain ⟨rfl, rfl⟩ := Prod.mk.inj he
  exact ⟨d, hd, rfl, rfl⟩

theorem nodup (h : Lists ds shape) : (ds.map (·.index)).Nodup := by
  have := (h.map Prod.snd).nodup_iff.mpr (by simp [List.nodup_range'])
  rwa [List.map_map] at this

theorem prod_eq (h : Lists ds shape) : (ds.map (·.extent)).prod = shape.prod := by
  have := (h.map Prod.fst).prod_eq
  rwa [List.map_map, List.zipIdx_map_fst] at this

theorem reverse (h : Lists ds shape) : Lists ds.reverse shape :=
  ((List.reverse_perm ds).map _).trans h

end Lists

/-! ### Peeling dimensions off an index -/

/-- The index of a task, the first of the dimensions varying fastest. -/
def ravel (task : List Nat) : List Dim → Nat
  | []      => 0
  | d :: ds => ravel task ds * d.extent + task.getD d.index 0

/-- The last digit is the remainder by the extent, and the quotient is left. -/
theorem peel_eq_ok {coords : List Nat} {i : Nat} {d : Dim} (h : 0 < d.extent) :
    peel (coords, i) d = .ok (coords.set d.index (i % d.extent), i / d.extent) := by
  simp only [peel, bind_eq_ok, pure_eq_ok, Word.mod_eq_ok, Word.div_eq_ok]
  exact ⟨_, ⟨by omega, rfl⟩, _, ⟨by omega, rfl⟩, rfl⟩

/-- What peeling leaves: coordinates below the extents, which `ravel` puts together to the index
again, and other coordinates as they were. -/
theorem foldlM_peel {ds : List Dim} {coords : List Nat} {i : Nat} (hpos : ∀ d ∈ ds, 0 < d.extent)
    (hidx : ∀ d ∈ ds, d.index < coords.length) (hnodup : (ds.map (·.index)).Nodup) :
    ∃ task, ds.foldlM peel (coords, i) = .ok (task, i / (ds.map (·.extent)).prod) ∧
      task.length = coords.length ∧
      (∀ j ∉ ds.map (·.index), task.getD j 0 = coords.getD j 0) ∧
      (∀ d ∈ ds, task.getD d.index 0 < d.extent) ∧
      ravel task ds = i % (ds.map (·.extent)).prod := by
  induction ds generalizing coords i with
  | nil => exact ⟨coords, by simp [pure, Except.pure], rfl, by simp, by simp, by simp [ravel, Nat.mod_one]⟩
  | cons d ds ih =>
      obtain ⟨hd, hpos⟩ := List.forall_mem_cons.mp hpos
      obtain ⟨hdi, hidx⟩ := List.forall_mem_cons.mp hidx
      obtain ⟨hnot, hnodup⟩ := List.nodup_cons.mp hnodup
      obtain ⟨task, hfold, hlen, hrest, hlt, hravel⟩ :=
        @ih (coords.set d.index (i % d.extent)) (i / d.extent) hpos (by simpa using hidx) hnodup
      have hcoord : task.getD d.index 0 = i % d.extent := by
        rw [hrest d.index hnot]
        simp [List.getD, hdi]
      refine ⟨task, ?_, by simpa using hlen, fun j hj => ?_, ?_, ?_⟩
      · rw [List.foldlM_cons, peel_eq_ok hd, List.map_cons, List.prod_cons, ← Nat.div_div_eq_div_mul]
        exact hfold
      · obtain ⟨hne, hj⟩ := not_or.mp (mt List.mem_cons.mpr hj)
        rw [hrest j hj, List.getD, List.getElem?_set_ne (Ne.symm hne), List.getD]
      · exact List.forall_mem_cons.mpr ⟨hcoord ▸ Nat.mod_lt i hd, hlt⟩
      · rw [ravel, hcoord, hravel, List.map_cons, List.prod_cons, Nat.mod_mul, Nat.mul_comm,
          Nat.add_comm]

/-- A task within the extents has an index below their product. -/
theorem ravel_lt {task : List Nat} {ds : List Dim} (h : ∀ d ∈ ds, task.getD d.index 0 < d.extent) :
    ravel task ds < (ds.map (·.extent)).prod := by
  induction ds with
  | nil => simp [ravel]
  | cons d ds ih =>
      obtain ⟨hd, h⟩ := List.forall_mem_cons.mp h
      rw [ravel, List.map_cons, List.prod_cons, Nat.mul_comm d.extent]
      exact mul_add_lt (ih h) hd

/-- Tasks with one index agree in every listed dimension. -/
theorem ravel_injective {t u : List Nat} {ds : List Dim}
    (ht : ∀ d ∈ ds, t.getD d.index 0 < d.extent) (hu : ∀ d ∈ ds, u.getD d.index 0 < d.extent)
    (h : ravel t ds = ravel u ds) : ∀ d ∈ ds, t.getD d.index 0 = u.getD d.index 0 := by
  induction ds with
  | nil => simp
  | cons d ds ih =>
      obtain ⟨htd, ht⟩ := List.forall_mem_cons.mp ht
      obtain ⟨hud, hu⟩ := List.forall_mem_cons.mp hu
      obtain ⟨hrest, hfirst⟩ := mul_add_inj htd hud h
      exact List.forall_mem_cons.mpr ⟨hfirst, ih ht hu hrest⟩

/-! ### The points of a grid -/

/-- A task is in the grid if each coordinate is below its extent. -/
theorem inGrid_iff {shape task : List Nat} :
    InGrid shape task ↔ task.length = shape.length ∧ ∀ i n, shape[i]? = some n → task.getD i 0 < n := by
  rw [InGrid, List.forall₂_iff_get]
  refine and_congr_right fun hlen => ⟨fun h i n hi => ?_, fun h i h₁ h₂ => ?_⟩
  · obtain ⟨hlt, rfl⟩ := List.getElem?_eq_some_iff.mp hi
    rw [List.getD_eq_getElem _ _ (hlen ▸ hlt)]
    exact h i (hlen ▸ hlt) hlt
  · have := h i shape[i] (List.getElem?_eq_getElem h₂)
    rwa [List.getD_eq_getElem _ _ h₁] at this

theorem InGrid.lt {shape task : List Nat} (h : InGrid shape task) {ds : List Dim}
    (hds : Lists ds shape) : ∀ d ∈ ds, task.getD d.index 0 < d.extent :=
  fun d hd => (inGrid_iff.mp h).2 d.index d.extent (hds.extent_eq hd)

/-- Tasks of one grid that have the same coordinate in every dimension. -/
theorem InGrid.ext {shape t u : List Nat} (ht : InGrid shape t) (hu : InGrid shape u) {ds : List Dim}
    (hds : Lists ds shape) (h : ∀ d ∈ ds, t.getD d.index 0 = u.getD d.index 0) : t = u := by
  have hlt := (inGrid_iff.mp ht).1
  have hlu := (inGrid_iff.mp hu).1
  refine List.ext_getElem (hlt.trans hlu.symm) fun i h₁ h₂ => ?_
  obtain ⟨d, hd, rfl, -⟩ := hds.exists_of_getElem? (List.getElem?_eq_getElem (hlt ▸ h₁))
  rw [← List.getD_eq_getElem t 0 h₁, ← List.getD_eq_getElem u 0 h₂, h d hd]

/-- An index below the size of the grid is unravelled to the task it counts. -/
theorem unravel_eq_ok {shape ranks : List Nat} (hr : ranks.length = shape.length) :
    ∃ ds, Lists ds shape ∧ ∀ i < shape.prod,
      ∃ task, unravel i shape ranks = .ok task ∧ InGrid shape task ∧ ravel task ds = i := by
  obtain ⟨ds, hds, hlists⟩ := nesting_perm hr
  refine ⟨ds.reverse, hlists.reverse, fun i hi => ?_⟩
  have hprod := hlists.reverse.prod_eq
  have hpos : ∀ d ∈ ds.reverse, 0 < d.extent := fun d hd =>
    List.prod_pos_iff_forall_pos_nat.mp (hprod ▸ Nat.zero_lt_of_lt hi) _ (List.mem_map_of_mem hd)
  have hidx : ∀ d ∈ ds.reverse, d.index < (List.replicate shape.length 0).length := by
    intro d hd
    obtain ⟨h, -⟩ := List.getElem?_eq_some_iff.mp (hlists.reverse.extent_eq hd)
    simpa using h
  obtain ⟨task, hfold, hlen, -, hlt, hravel⟩ :=
    foldlM_peel (i := i) hpos hidx hlists.reverse.nodup
  refine ⟨task, ?_, inGrid_iff.mpr ⟨by simpa using hlen, fun j n hj => ?_⟩, ?_⟩
  · simp only [unravel, hds, bind_eq_ok, pure_eq_ok]
    exact ⟨ds, rfl, _, hfold, rfl⟩
  · obtain ⟨d, hd, rfl, rfl⟩ := hlists.reverse.exists_of_getElem? hj
    exact hlt d hd
  · rw [hravel, hprod, Nat.mod_eq_of_lt hi]

/-- **Every task has one index.** -/
theorem existsUnique_unravel {shape ranks task : List Nat} (hr : ranks.length = shape.length)
    (ht : InGrid shape task) : ∃! i, i < shape.prod ∧ unravel i shape ranks = .ok task := by
  obtain ⟨ds, hds, hok⟩ := unravel_eq_ok hr
  have hlt : ravel task ds < shape.prod := hds.prod_eq ▸ ravel_lt (ht.lt hds)
  refine ⟨ravel task ds, ⟨hlt, ?_⟩, fun i ⟨hi, he⟩ => ?_⟩
  · obtain ⟨u, hu, hgrid, hravel⟩ := hok _ hlt
    rw [hu, hgrid.ext ht hds (ravel_injective (hgrid.lt hds) (ht.lt hds) hravel)]
  · obtain ⟨u, hu, -, hravel⟩ := hok i hi
    rw [Except.ok.inj (he.symm.trans hu), hravel]

end Mapping

end TensorLoops
