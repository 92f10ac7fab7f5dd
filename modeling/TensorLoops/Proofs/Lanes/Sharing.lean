import TensorLoops.Proofs.Lanes.Unravel

/-!
# Proofs — Lanes — Sharing

The workers of a mapping share its tasks.  A mapping that was built from shapes with the products
and ranks that the constructors see to is `Sound`; its workers then have as many tasks as they
state, all of them tasks of the grid, and every task of the grid stands at exactly one place of
one worker's list (`Sound.shares`).

For a primitive mapping this is the counting of the grid.  In a composed one the worker and the
place in its list are split by the inner mapping's counts and the coordinates by its extents, each
by division with remainder (`has_composed`, `within_divMod`).

The one thing that can fail is memory, where a worker's tasks make a list too long (`Fits`).
-/

namespace TensorLoops

namespace Mapping

/-! ### Built mappings -/

/-- A mapping as the constructors make it, composed or not. -/
inductive Built : Mapping → Prop where
  | spatialMap {shape ranks : List Nat} {m : Mapping} : spatialMap shape ranks = .ok m → Built m
  | repeatMap {shape ranks : List Nat} {m : Mapping} : repeatMap shape ranks = .ok m → Built m
  | rowSpatial {shape : List Nat} {m : Mapping} : rowSpatial shape = .ok m → Built m
  | colSpatial {shape : List Nat} {m : Mapping} : colSpatial shape = .ok m → Built m
  | rowRepeat {shape : List Nat} {m : Mapping} : rowRepeat shape = .ok m → Built m
  | colRepeat {shape : List Nat} {m : Mapping} : colRepeat shape = .ok m → Built m
  | compose {outer inner m : Mapping} : Built outer → Built inner → compose outer inner = .ok m →
      Built m

/-- What the constructors see to: a rank for every dimension, counts that are the exact products,
and in a composed mapping extents and counts that are words. -/
def Sound : Mapping → Prop
  | .spatial x ranks        =>
      ranks.length = x.shape.length ∧ x.workers = x.shape.prod ∧ x.perWorker = 1
  | .repeated x ranks       =>
      ranks.length = x.shape.length ∧ x.workers = 1 ∧ Word.product x.shape = .ok x.perWorker
  | .composed x outer inner =>
      (outer.Sound ∧ inner.Sound) ∧ outer.shape.length = inner.shape.length ∧
      x.shape = List.zipWith (· * ·) outer.shape inner.shape ∧ (∀ n ∈ x.shape, n < Word.limit) ∧
      x.workers = outer.workers * inner.workers ∧
      x.perWorker = outer.perWorker * inner.perWorker ∧ x.perWorker < Word.limit

theorem ofSpatial_sound {shape ranks : List Nat} {m : Mapping} (h : ofSpatial shape ranks = .ok m)
    (hr : ranks.length = shape.length) : m.Sound := by
  simp only [ofSpatial, bind_eq_ok, pure_eq_ok] at h
  obtain ⟨n, hn, rfl⟩ := h
  exact ⟨hr, Word.product_eq hn, rfl⟩

theorem ofRepeated_sound {shape ranks : List Nat} {m : Mapping} (h : ofRepeated shape ranks = .ok m)
    (hr : ranks.length = shape.length) : m.Sound := by
  simp only [ofRepeated, bind_eq_ok, pure_eq_ok] at h
  obtain ⟨n, hn, rfl⟩ := h
  exact ⟨hr, rfl, hn⟩

theorem checkRanks_length {shape ranks : List Nat} (h : checkRanks shape ranks = .ok ()) :
    ranks.length = shape.length := by
  unfold checkRanks isOrder at h
  split at h
  · rename_i horder
    simp only [Bool.and_eq_true, decide_eq_true_eq] at horder
    exact horder.1
  · exact nomatch h

/-- Extents are multiplied one by one, each within a word. -/
theorem zip_mapM_mul {xs ys zs : List Nat}
    (h : (xs.zip ys).mapM (fun p => Word.mul p.1 p.2) = .ok zs) :
    zs = List.zipWith (· * ·) xs ys ∧ ∀ n ∈ zs, n < Word.limit := by
  induction xs generalizing ys zs with
  | nil =>
      obtain rfl := pure_eq_ok.mp h
      simp
  | cons x xs ih =>
      cases ys with
      | nil =>
          obtain rfl := pure_eq_ok.mp h
          simp
      | cons y ys =>
          obtain ⟨z, zs, hz, hzs, rfl⟩ := List.forall₂_cons_left_iff.mp (mapM_eq_ok_iff.mp h)
          obtain ⟨hlt, rfl⟩ := Word.mul_eq_ok.mp hz
          obtain ⟨rfl, hlts⟩ := ih (mapM_eq_ok_iff.mpr hzs)
          exact ⟨rfl, List.forall_mem_cons.mpr ⟨hlt, hlts⟩⟩

theorem compose_sound {outer inner m : Mapping} (h : compose outer inner = .ok m)
    (ho : outer.Sound) (hi : inner.Sound) : m.Sound := by
  unfold compose at h
  split at h
  · exact nomatch h
  · rename_i hlen
    simp only [bind_eq_ok, pure_eq_ok] at h
    obtain ⟨shape, hshape, workers, hworkers, perWorker, hper, rfl⟩ := h
    obtain ⟨rfl, hlt⟩ := zip_mapM_mul hshape
    obtain ⟨hperlt, rfl⟩ := Word.mul_eq_ok.mp hper
    exact ⟨⟨ho, hi⟩, not_not.mp hlen, rfl, hlt, (Word.mul_eq_ok.mp hworkers).2, rfl, hperlt⟩

/-- **Every mapping that is built is sound.** -/
theorem Built.sound {m : Mapping} (h : Built m) : m.Sound := by
  induction h with
  | spatialMap h =>
      obtain ⟨_, hr, h⟩ := bind_eq_ok.mp h
      exact ofSpatial_sound h (checkRanks_length hr)
  | repeatMap h =>
      obtain ⟨_, hr, h⟩ := bind_eq_ok.mp h
      exact ofRepeated_sound h (checkRanks_length hr)
  | rowSpatial h => exact ofSpatial_sound h (by simp [rowRanks])
  | colSpatial h => exact ofSpatial_sound h (by simp [colRanks])
  | rowRepeat h => exact ofRepeated_sound h (by simp [rowRanks])
  | colRepeat h => exact ofRepeated_sound h (by simp [colRanks])
  | compose _ _ h ho hi => exact compose_sound h ho hi

/-- As many tasks as there are in the grid. -/
theorem Sound.count : ∀ {m : Mapping}, m.Sound → m.workers * m.perWorker = m.shape.prod
  | .spatial x _, ⟨_, hw, hp⟩ => by
      show x.workers * x.perWorker = x.shape.prod
      rw [hw, hp, Nat.mul_one]
  | .repeated x _, ⟨_, hw, hp⟩ => by
      show x.workers * x.perWorker = x.shape.prod
      rw [hw, Word.product_eq hp, Nat.one_mul]
  | .composed x outer inner, ⟨⟨ho, hi⟩, hlen, hshape, _, hw, hp, _⟩ => by
      show x.workers * x.perWorker = x.shape.prod
      rw [hw, hp, hshape, ← List.prod_mul_prod_eq_prod_zipWith_of_length_eq _ _ hlen, ← ho.count,
        ← hi.count, Nat.mul_mul_mul_comm]

/-! ### Places in the workers' lists -/

/-- A worker has a task at a place of its list. -/
def Has (m : Mapping) (worker slot : Nat) (task : List Nat) : Prop :=
  worker < m.workers ∧ ∃ tasks, m.tasksOf worker = .ok tasks ∧ tasks[slot]? = some task

/-- The workers share the tasks of the grid out: each has as many as the mapping states, and
every task stands at one place. -/
structure Shares (m : Mapping) : Prop where
  tasks : ∀ worker < m.workers, ∃ tasks, m.tasksOf worker = .ok tasks ∧
    tasks.length = m.perWorker ∧ ∀ task ∈ tasks, InGrid m.shape task
  unique : ∀ task, InGrid m.shape task → ∃! place : Nat × Nat, m.Has place.1 place.2 task

/-- Every list of repeated or composed tasks fits in memory. -/
def Fits : Mapping → Prop
  | .spatial _ _            => True
  | .repeated x _           => taskBytes * x.perWorker < 2 ^ 63
  | .composed x outer inner => outer.Fits ∧ inner.Fits ∧ taskBytes * x.perWorker < 2 ^ 63

instance decidableFits : (m : Mapping) → Decidable m.Fits
  | .spatial _ _            => .isTrue trivial
  | .repeated x _           => inferInstanceAs (Decidable (taskBytes * x.perWorker < 2 ^ 63))
  | .composed x outer inner =>
      have := decidableFits outer
      have := decidableFits inner
      inferInstanceAs (Decidable (outer.Fits ∧ inner.Fits ∧ taskBytes * x.perWorker < 2 ^ 63))

/-- A spatial mapping gives each worker one task. -/
theorem spatial_shares {x : Extents} {ranks : List Nat} (h : Sound (.spatial x ranks)) :
    Shares (.spatial x ranks) := by
  obtain ⟨shape, workers, perWorker⟩ := x
  obtain ⟨hr, rfl, rfl⟩ : ranks.length = shape.length ∧ workers = shape.prod ∧ perWorker = 1 := h
  obtain ⟨_, _, hok⟩ := unravel_eq_ok hr
  have htasks : ∀ {worker task}, unravel worker shape ranks = .ok task →
      (spatial ⟨shape, shape.prod, 1⟩ ranks).tasksOf worker = .ok [task] := by
    intro worker task h
    simp only [tasksOf, bind_eq_ok, pure_eq_ok]
    exact ⟨task, h, rfl⟩
  refine ⟨fun worker hlt => ?_, fun task hgrid => ?_⟩
  · obtain ⟨task, htask, hgrid, -⟩ := hok worker hlt
    exact ⟨[task], htasks htask, rfl, List.forall_mem_singleton.mpr hgrid⟩
  · obtain ⟨worker, ⟨hlt, htask⟩, huniq⟩ := existsUnique_unravel hr hgrid
    refine ⟨(worker, 0), ⟨hlt, [task], htasks htask, rfl⟩, ?_⟩
    rintro ⟨worker', slot⟩ ⟨hlt', tasks, hts, hslot⟩
    obtain ⟨task', htask', -⟩ := hok worker' hlt'
    obtain rfl := Except.ok.inj (hts.symm.trans (htasks htask'))
    obtain ⟨rfl, rfl⟩ : slot = 0 ∧ task' = task := by simpa [List.getElem?_singleton] using hslot
    rw [huniq worker' ⟨hlt', htask'⟩]

/-- The one list of a repeated mapping. -/
theorem tasksOf_repeated {shape ranks : List Nat} {count : Nat} (hr : ranks.length = shape.length)
    (hp : Word.product shape = .ok count) (hfit : taskBytes * count < 2 ^ 63) :
    ∃ tasks, (∀ worker, (repeated ⟨shape, 1, count⟩ ranks).tasksOf worker = .ok tasks) ∧
      tasks.length = count ∧ ∀ slot task, tasks[slot]? = some task ↔
        slot < shape.prod ∧ unravel slot shape ranks = .ok task := by
  obtain rfl := Word.product_eq hp
  obtain ⟨_, _, hok⟩ := unravel_eq_ok hr
  have hall : ∀ t ∈ List.range shape.prod, ∃ task, unravel t shape ranks = .ok task := by
    intro t ht
    obtain ⟨task, htask, -⟩ := hok t (List.mem_range.mp ht)
    exact ⟨task, htask⟩
  obtain ⟨tasks, htasks⟩ := exists_mapM_eq_ok hall
  have hpairs := mapM_eq_ok_iff.mp htasks
  refine ⟨tasks, fun worker => ?_, by simpa using hpairs.length_eq.symm, fun slot task => ⟨fun h => ?_, ?_⟩⟩
  · simp only [tasksOf, bind_eq_ok]
    exact ⟨_, hp, (), if_pos hfit, htasks⟩
  · obtain ⟨t, ht, htask⟩ := forall₂_getElem? hpairs.flip h
    obtain ⟨hlt, rfl⟩ := List.getElem?_eq_some_iff.mp ht
    simp only [List.length_range, List.getElem_range] at hlt htask
    exact ⟨hlt, htask⟩
  · rintro ⟨hlt, htask⟩
    obtain ⟨u, hu, htask'⟩ := forall₂_getElem? hpairs
      (List.getElem?_eq_some_iff.mpr ⟨by simpa using hlt, List.getElem_range _⟩)
    rw [hu, Except.ok.inj (htask.symm.trans htask')]

/-- A repeated mapping gives its one worker all tasks. -/
theorem repeated_shares {x : Extents} {ranks : List Nat} (h : Sound (.repeated x ranks))
    (hfit : Fits (.repeated x ranks)) : Shares (.repeated x ranks) := by
  obtain ⟨shape, workers, count⟩ := x
  obtain ⟨hr, rfl, hp⟩ :
    ranks.length = shape.length ∧ workers = 1 ∧ Word.product shape = .ok count := h
  obtain ⟨tasks, hall, hlen, hslot⟩ := tasksOf_repeated hr hp hfit
  refine ⟨fun worker _ => ⟨tasks, hall worker, hlen, fun task ht => ?_⟩, fun task hgrid => ?_⟩
  · obtain ⟨slot, hlt, rfl⟩ := List.getElem_of_mem ht
    obtain ⟨hlt, htask⟩ := (hslot _ _).mp (List.getElem?_eq_getElem hlt)
    obtain ⟨_, _, hok⟩ := unravel_eq_ok hr
    obtain ⟨u, hu, hgrid, -⟩ := hok slot hlt
    rwa [Except.ok.inj (htask.symm.trans hu)]
  · obtain ⟨slot, hs, huniq⟩ := existsUnique_unravel hr hgrid
    refine ⟨(0, slot), ⟨Nat.one_pos, tasks, hall 0, (hslot _ _).mpr hs⟩, ?_⟩
    rintro ⟨worker, slot'⟩ ⟨hlt, tasks', hts, hs'⟩
    obtain rfl := Except.ok.inj (hts.symm.trans (hall worker))
    obtain rfl : worker = 0 := Nat.lt_one_iff.mp hlt
    rw [huniq slot' ((hslot _ _).mp hs')]

/-! ### Coordinates within a composed grid -/

/-- Coordinates are combined dimension by dimension. -/
theorem within_cons {n o i : Nat} {ns os is ts : List Nat} :
    within (n :: ns) (o :: os) (i :: is) = .ok ts ↔
      o * n + i < Word.limit ∧ ∃ us, within ns os is = .ok us ∧ ts = (o * n + i) :: us := by
  simp only [within, List.zip_cons_cons, List.mapM_cons, bind_eq_ok, pure_eq_ok, Word.mul_eq_ok,
    Word.add_eq_ok]
  constructor
  · rintro ⟨_, ⟨_, ⟨_, rfl⟩, hlt, rfl⟩, us, hus, rfl⟩
    exact ⟨hlt, us, hus, rfl⟩
  · rintro ⟨hlt, us, hus, rfl⟩
    exact ⟨_, ⟨_, ⟨by omega, rfl⟩, hlt, rfl⟩, us, hus, rfl⟩

/-- The place of an inner task within an outer one lies in the composed grid, and division by the
inner extents gives both tasks back. -/
theorem within_inGrid {ns ms o i : List Nat} (ho : InGrid ns o) (hi : InGrid ms i)
    (hlen : ns.length = ms.length) (hlim : ∀ n ∈ List.zipWith (· * ·) ns ms, n < Word.limit) :
    ∃ t, within ms o i = .ok t ∧ InGrid (List.zipWith (· * ·) ns ms) t ∧
      List.zipWith (· / ·) t ms = o ∧ List.zipWith (· % ·) t ms = i := by
  induction ho generalizing ms i with
  | nil =>
      obtain rfl := List.length_eq_zero_iff.mp hlen.symm
      obtain rfl := List.forall₂_nil_right_iff.mp hi
      exact ⟨[], rfl, .nil, rfl, rfl⟩
  | @cons a n o ns ha ho ih =>
      obtain ⟨m, ms, rfl⟩ := List.exists_cons_of_length_eq_add_one hlen.symm
      obtain ⟨b, i, hb, hrest, rfl⟩ := List.forall₂_cons_right_iff.mp hi
      obtain ⟨hnm, hlims⟩ := List.forall_mem_cons.mp hlim
      obtain ⟨t, ht, hgrid, hdiv, hmod⟩ := ih hrest (by simpa using hlen) hlims
      have hlt : a * m + b < n * m := mul_add_lt ha hb
      refine ⟨_, within_cons.mpr ⟨Nat.lt_trans hlt hnm, t, ht, rfl⟩, .cons hlt hgrid, ?_, ?_⟩
      · rw [List.zipWith_cons_cons, hdiv, (mul_add_div_mod hb).1]
      · rw [List.zipWith_cons_cons, hmod, (mul_add_div_mod hb).2]

/-- A task of the composed grid, divided by the inner extents, is the place of the remainder
within the quotient. -/
theorem within_divMod {ns ms t : List Nat} (ht : InGrid (List.zipWith (· * ·) ns ms) t)
    (hlen : ns.length = ms.length) (hlim : ∀ n ∈ List.zipWith (· * ·) ns ms, n < Word.limit) :
    InGrid ns (List.zipWith (· / ·) t ms) ∧ InGrid ms (List.zipWith (· % ·) t ms) ∧
      within ms (List.zipWith (· / ·) t ms) (List.zipWith (· % ·) t ms) = .ok t := by
  induction ns generalizing ms t with
  | nil =>
      obtain rfl := List.length_eq_zero_iff.mp hlen.symm
      obtain rfl := List.forall₂_nil_right_iff.mp ht
      exact ⟨.nil, .nil, rfl⟩
  | cons n ns ih =>
      obtain ⟨m, ms, rfl⟩ := List.exists_cons_of_length_eq_add_one hlen.symm
      obtain ⟨c, t, hc, hrest, rfl⟩ := List.forall₂_cons_right_iff.mp ht
      obtain ⟨hnm, hlims⟩ := List.forall_mem_cons.mp hlim
      obtain ⟨hdiv, hmod, hwithin⟩ := ih hrest (by simpa using hlen) hlims
      have hm : 0 < m := Nat.pos_of_mul_pos_left (Nat.zero_lt_of_lt hc)
      have hsum : c / m * m + c % m = c := Nat.div_add_mod' c m
      refine ⟨.cons ((Nat.div_lt_iff_lt_mul hm).mpr hc) hdiv, .cons (Nat.mod_lt c hm) hmod,
        within_cons.mpr ⟨hsum.symm ▸ Nat.lt_trans hc hnm, t, hwithin, by rw [hsum]⟩⟩

/-! ### Composed mappings -/

/-- An item of equally long rows is found by quotient and remainder. -/
theorem getElem?_flatten {α : Type} {n : Nat} {rows : List (List α)} (h : ∀ r ∈ rows, r.length = n)
    (k : Nat) : rows.flatten[k]? = rows[k / n]?.bind (·[k % n]?) := by
  induction rows generalizing k with
  | nil => simp
  | cons r rows ih =>
      obtain ⟨hr, h⟩ := List.forall_mem_cons.mp h
      rw [List.flatten_cons, List.getElem?_append]
      split
      · rename_i hk
        rw [Nat.div_eq_of_lt (hr ▸ hk), Nat.mod_eq_of_lt (hr ▸ hk)]
        rfl
      · rename_i hk
        rw [ih h, hr]
        by_cases hn : n = 0
        · -- no row has anything in it
          subst hn
          have hempty : ∀ i : Nat, rows[i]?.bind (·[k]?) = none := fun i => by
            refine Option.bind_eq_none_iff.mpr fun r' hr' => ?_
            rw [List.length_eq_zero_iff.mp (h r' (List.mem_of_getElem? hr'))]
            rfl
          simpa [List.length_eq_zero_iff.mp hr] using hempty 0
        · rw [Nat.div_eq_sub_div (a := k) (by omega) (by omega), Nat.mod_eq_sub_mod (a := k) (by omega)]
          rfl

theorem length_flatten {α : Type} {n : Nat} {rows : List (List α)} (h : ∀ r ∈ rows, r.length = n) :
    rows.flatten.length = rows.length * n := by
  induction rows with
  | nil => simp
  | cons r rows ih =>
      obtain ⟨hr, h⟩ := List.forall_mem_cons.mp h
      rw [List.flatten_cons, List.length_append, ih h, hr, List.length_cons, Nat.succ_mul, Nat.add_comm]

/-- All places of inner tasks within outer ones. -/
theorem mapM_within {ns ms : List Nat} {os is : List (List Nat)} (ho : ∀ o ∈ os, InGrid ns o)
    (hi : ∀ i ∈ is, InGrid ms i) (hlen : ns.length = ms.length)
    (hlim : ∀ n ∈ List.zipWith (· * ·) ns ms, n < Word.limit) :
    ∃ rows, os.mapM (fun o => is.mapM (within ms o)) = .ok rows ∧ rows.length = os.length ∧
      (∀ r ∈ rows, r.length = is.length) ∧
      ∀ (a b : Nat) (t : List Nat), rows[a]?.bind (·[b]?) = some t ↔
        ∃ o i, os[a]? = some o ∧ is[b]? = some i ∧ within ms o i = .ok t := by
  have hrow : ∀ o ∈ os, ∃ row, is.mapM (within ms o) = .ok row := fun o hmem =>
    exists_mapM_eq_ok fun i himem =>
      let ⟨t, ht, _⟩ := within_inGrid (ho o hmem) (hi i himem) hlen hlim
      ⟨t, ht⟩
  obtain ⟨rows, hrows⟩ := exists_mapM_eq_ok hrow
  have hpairs := mapM_eq_ok_iff.mp hrows
  refine ⟨rows, hrows, hpairs.length_eq.symm, fun r hr => ?_, fun a b t => ⟨fun h => ?_, ?_⟩⟩
  · obtain ⟨a, ha⟩ := List.getElem?_of_mem hr
    obtain ⟨o, -, ho⟩ := forall₂_getElem? hpairs.flip ha
    exact (mapM_eq_ok_iff.mp ho).length_eq.symm
  · obtain ⟨row, hrow, ht⟩ := Option.bind_eq_some_iff.mp h
    obtain ⟨o, ho, hrow⟩ := forall₂_getElem? hpairs.flip hrow
    obtain ⟨i, hi, ht⟩ := forall₂_getElem? (mapM_eq_ok_iff.mp hrow).flip ht
    exact ⟨o, i, ho, hi, ht⟩
  · rintro ⟨o, i, ho, hi, ht⟩
    obtain ⟨row, hrow, hpair⟩ := forall₂_getElem? hpairs ho
    obtain ⟨u, hu, hwithin⟩ := forall₂_getElem? (mapM_eq_ok_iff.mp hpair) hi
    rw [Option.bind_eq_some_iff]
    exact ⟨row, hrow, by rw [hu, Except.ok.inj (ht.symm.trans hwithin)]⟩

section Composed

variable {x : Extents} {outer inner : Mapping}

/-- A worker of a composed mapping has the places of one inner worker's tasks within those of one
outer worker's. -/
theorem tasksOf_composed (h : Sound (.composed x outer inner)) (hfit : taskBytes * x.perWorker < 2 ^ 63)
    (ho : outer.Shares) (hi : inner.Shares) {worker : Nat} (hlt : worker < x.workers) :
    ∃ os is tasks, outer.tasksOf (worker / inner.workers) = .ok os ∧
      inner.tasksOf (worker % inner.workers) = .ok is ∧
      (composed x outer inner).tasksOf worker = .ok tasks ∧ tasks.length = x.perWorker ∧
      ∀ slot t, tasks[slot]? = some t ↔ ∃ o i, os[slot / inner.perWorker]? = some o ∧
        is[slot % inner.perWorker]? = some i ∧ within inner.shape o i = .ok t := by
  obtain ⟨-, hlen, hshape, hlim, hw, hp, hplt⟩ := h
  rw [hw] at hlt
  have hpos : 0 < inner.workers := Nat.pos_of_mul_pos_left (Nat.zero_lt_of_lt hlt)
  obtain ⟨os, hos, hoslen, hogrid⟩ := ho.tasks _ ((Nat.div_lt_iff_lt_mul hpos).mpr hlt)
  obtain ⟨is, his, hislen, higrid⟩ := hi.tasks _ (Nat.mod_lt worker hpos)
  obtain ⟨rows, hrows, hrowslen, hrlen, hcell⟩ := mapM_within hogrid higrid hlen (hshape ▸ hlim)
  refine ⟨os, is, rows.flatten, hos, his, ?_, ?_, fun slot t => ?_⟩
  · simp only [tasksOf, bind_eq_ok, pure_eq_ok, Word.div_eq_ok, Word.mod_eq_ok, Word.mul_eq_ok]
    rw [hp] at hplt hfit
    refine ⟨_, ⟨by omega, rfl⟩, os, hos, _, ⟨by omega, rfl⟩, is, his, _, ⟨?_, rfl⟩, (), if_pos ?_,
      rows, hrows, rfl⟩
    · rwa [hoslen, hislen]
    · rwa [hoslen, hislen]
  · rw [length_flatten hrlen, hrowslen, hoslen, hislen, hp]
  · rw [getElem?_flatten hrlen, hcell, hislen]

/-- **A worker of a composed mapping** has the tasks of an outer worker refined by those of an inner
one. -/
theorem has_composed (h : Sound (.composed x outer inner)) (hfit : taskBytes * x.perWorker < 2 ^ 63)
    (ho : outer.Shares) (hi : inner.Shares) {worker slot : Nat} {t : List Nat} :
    (composed x outer inner).Has worker slot t ↔
      ∃ o i, outer.Has (worker / inner.workers) (slot / inner.perWorker) o ∧
        inner.Has (worker % inner.workers) (slot % inner.perWorker) i ∧
        within inner.shape o i = .ok t := by
  have hw : x.workers = outer.workers * inner.workers := h.2.2.2.2.1
  constructor
  · rintro ⟨hlt, tasks, htasks, ht⟩
    obtain ⟨os, is, tasks', hos, his, htasks', -, hcell⟩ := tasksOf_composed h hfit ho hi hlt
    obtain rfl := Except.ok.inj (htasks.symm.trans htasks')
    obtain ⟨o, i, hoslot, hislot, hwithin⟩ := (hcell slot t).mp ht
    have hlt' : worker < outer.workers * inner.workers := hw ▸ hlt
    have hpos : 0 < inner.workers := Nat.pos_of_mul_pos_left (Nat.zero_lt_of_lt hlt')
    exact ⟨o, i, ⟨(Nat.div_lt_iff_lt_mul hpos).mpr hlt', os, hos, hoslot⟩,
      ⟨Nat.mod_lt worker hpos, is, his, hislot⟩, hwithin⟩
  · rintro ⟨o, i, ⟨hlto, os, hos, hoslot⟩, ⟨hlti, is, his, hislot⟩, hwithin⟩
    have hlt : worker < x.workers :=
      hw ▸ (Nat.div_lt_iff_lt_mul (Nat.zero_lt_of_lt hlti)).mp hlto
    obtain ⟨os', is', tasks, hos', his', htasks, -, hcell⟩ := tasksOf_composed h hfit ho hi hlt
    obtain rfl := Except.ok.inj (hos.symm.trans hos')
    obtain rfl := Except.ok.inj (his.symm.trans his')
    exact ⟨hlt, tasks, htasks, (hcell slot t).mpr ⟨o, i, hoslot, hislot, hwithin⟩⟩

end Composed

theorem Has.slot_lt {m : Mapping} (hm : m.Shares) {worker slot : Nat} {t : List Nat}
    (h : m.Has worker slot t) : slot < m.perWorker ∧ InGrid m.shape t := by
  obtain ⟨hlt, tasks, htasks, ht⟩ := h
  obtain ⟨tasks', htasks', hlen, hgrid⟩ := hm.tasks worker hlt
  obtain rfl := Except.ok.inj (htasks.symm.trans htasks')
  obtain ⟨hslot, rfl⟩ := List.getElem?_eq_some_iff.mp ht
  exact ⟨hlen ▸ hslot, hgrid _ (List.getElem_mem hslot)⟩

/-- A mapping composed of two that share out their tasks does so. -/
theorem composed_shares {x : Extents} {outer inner : Mapping} (h : Sound (.composed x outer inner))
    (hfit : taskBytes * x.perWorker < 2 ^ 63) (ho : outer.Shares) (hi : inner.Shares) :
    Shares (.composed x outer inner) := by
  obtain ⟨-, hlen, hshape, hlim, -⟩ := id h
  rw [hshape] at hlim
  refine ⟨fun worker hlt => ?_, fun t ht => ?_⟩
  · obtain ⟨os, is, tasks, hos, his, htasks, hlength, hcell⟩ := tasksOf_composed h hfit ho hi hlt
    refine ⟨tasks, htasks, hlength, fun t ht => ?_⟩
    obtain ⟨slot, hslot⟩ := List.getElem?_of_mem ht
    obtain ⟨o, i, hoh, hih, hwithin⟩ := (has_composed h hfit ho hi).mp ⟨hlt, tasks, htasks, hslot⟩
    obtain ⟨u, hu, hgrid, -⟩ :=
      within_inGrid (hoh.slot_lt ho).2 (hih.slot_lt hi).2 hlen hlim
    show InGrid x.shape t
    rwa [hshape, Except.ok.inj (hwithin.symm.trans hu)]
  · have ht : InGrid (List.zipWith (· * ·) outer.shape inner.shape) t := hshape ▸ ht
    obtain ⟨hogrid, higrid, hwithin⟩ := within_divMod ht hlen hlim
    obtain ⟨⟨wo, so⟩, hoh, houniq⟩ := ho.unique _ hogrid
    obtain ⟨⟨wi, si⟩, hih, hiuniq⟩ := hi.unique _ higrid
    have hwi : wi < inner.workers := hih.1
    have hsi : si < inner.perWorker := (hih.slot_lt hi).1
    refine ⟨(wo * inner.workers + wi, so * inner.perWorker + si), ?_, ?_⟩
    · refine (has_composed h hfit ho hi).mpr ⟨_, _, ?_, ?_, hwithin⟩
      · rw [(mul_add_div_mod hwi).1, (mul_add_div_mod hsi).1]; exact hoh
      · rw [(mul_add_div_mod hwi).2, (mul_add_div_mod hsi).2]; exact hih
    · rintro ⟨worker, slot⟩ hhas
      obtain ⟨o, i, hoh', hih', hwithin'⟩ := (has_composed h hfit ho hi).mp hhas
      -- the quotient and the remainder of the task name the two tasks it was made from
      obtain ⟨u, hu, -, hdiv, hmod⟩ :=
        within_inGrid (hoh'.slot_lt ho).2 (hih'.slot_lt hi).2 hlen hlim
      obtain rfl := Except.ok.inj (hwithin'.symm.trans hu)
      subst hdiv hmod
      obtain ⟨rfl, rfl⟩ := Prod.mk.inj (houniq (_, _) hoh')
      obtain ⟨rfl, rfl⟩ := Prod.mk.inj (hiuniq (_, _) hih')
      rw [Nat.div_add_mod', Nat.div_add_mod']

/-- **The workers of a built mapping share its tasks out.** -/
theorem Sound.shares : ∀ {m : Mapping}, m.Sound → m.Fits → m.Shares
  | .spatial _ _, h, _ => spatial_shares h
  | .repeated _ _, h, hfit => repeated_shares h hfit
  | .composed _ _ _, h, ⟨hfo, hfi, hfit⟩ =>
      composed_shares h hfit (h.1.1.shares hfo) (h.1.2.shares hfi)

end Mapping

end TensorLoops
