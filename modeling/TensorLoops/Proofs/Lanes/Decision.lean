import Mathlib.Data.List.Nodup
import Mathlib.Data.List.Perm.Subperm
import TensorLoops.Proofs.Lanes.Partition

/-!
# Proofs — Lanes — Decision

What the test for a partition decides.  A mapping may state any grid and any counts, so the tasks
that its workers have need not be as many as it states, nor lie in its grid.  The test compares the
counts that are stated and looks for tasks at the same row-major position (`isPartition_eq_true`):
it does not see a task that no worker has, if the counts do not give it away, and it takes a task
outside the grid for the one inside with the same position.

Where the workers have as many tasks as the mapping states, all in its grid, neither can happen.
Tasks of a grid that are no two the same are all of them just when there are as many as the grid
has (`length_eq_prod_iff`), and the test decides whether the mapping is a partition.
-/

namespace TensorLoops

namespace Mapping

/-- The tasks of all workers, one worker after the other. -/
def listing (m : Mapping) : Except Error (List (List Nat)) := do
  return (← (List.range m.workers).mapM m.tasksOf).flatten

/-- Every task of the grid occurs once among the tasks of the workers, and no other task does. -/
def Partitions (m : Mapping) : Prop :=
  ∃ tasks, m.listing = .ok tasks ∧ tasks.Nodup ∧ ∀ task, task ∈ tasks ↔ InGrid m.shape task

/-- Tasks that can be marked one after the other: their positions are below the total, no two the
same and none of them met before. -/
def Markable (shape : List Nat) (total : Nat) (met : Std.HashSet Nat) (tasks : List (List Nat)) :
    Prop :=
  ∃ ps, tasks.mapM (position shape) = .ok ps ∧ ps.Nodup ∧ ∀ p ∈ ps, p < total ∧ p ∉ met

variable {m : Mapping} {shape ps : List Nat} {total n worker : Nat} {met met' : Std.HashSet Nat}
  {tasks rest : List (List Nat)} {b : Bool}

/-! ### What was marked -/

/-- Marking meets tasks at different positions, none of them met before. -/
theorem markTasks_eq_some (h : markTasks shape total tasks met = .ok (some met')) :
    ∃ ps, tasks.mapM (position shape) = .ok ps ∧ ps.Nodup ∧ (∀ p ∈ ps, p < total ∧ p ∉ met) ∧
      ∀ q, q ∈ met' ↔ q ∈ met ∨ q ∈ ps := by
  induction tasks generalizing met with
  | nil =>
      obtain rfl : met = met' := Option.some.inj (Except.ok.inj h)
      exact ⟨[], rfl, by simp⟩
  | cons t tasks ih =>
      rw [markTasks] at h
      obtain ⟨p, hp, h⟩ := bind_eq_ok.mp h
      split at h
      · cases h
      · rename_i hgo
        obtain ⟨ps, hps, hnodup, hnew, hmem⟩ := ih h
        simp only [Bool.or_eq_true, decide_eq_true_eq, Std.HashSet.contains_iff_mem, not_or,
          Nat.not_le] at hgo
        have hne : ∀ q ∈ ps, q ≠ p ∧ q ∉ met := by
          intro q hq
          have hout := (hnew q hq).2
          rw [Std.HashSet.mem_insert, beq_iff_eq, not_or] at hout
          exact ⟨Ne.symm hout.1, hout.2⟩
        refine ⟨p :: ps, ?_, ?_, ?_, fun q => ?_⟩
        · rw [List.mapM_cons, hp, hps]
          rfl
        · exact List.nodup_cons.mpr ⟨fun hmem => (hne p hmem).1 rfl, hnodup⟩
        · exact List.forall_mem_cons.mpr ⟨hgo, fun q hq => ⟨(hnew q hq).1, (hne q hq).2⟩⟩
        · rw [hmem, Std.HashSet.mem_insert, List.mem_cons, beq_iff_eq, eq_comm]
          tauto

/-- Tasks can be marked behind others when they can be once those are met. -/
theorem markable_append (hps : tasks.mapM (position shape) = .ok ps) (hnodup : ps.Nodup)
    (hnew : ∀ p ∈ ps, p < total ∧ p ∉ met) (hmem : ∀ q, q ∈ met' ↔ q ∈ met ∨ q ∈ ps) :
    Markable shape total met (tasks ++ rest) ↔ Markable shape total met' rest := by
  unfold Markable
  constructor
  · rintro ⟨rs, hrs, hrnodup, hrnew⟩
    rw [List.mapM_append, hps, ok_bind] at hrs
    obtain ⟨qs, hqs, hrs⟩ := bind_eq_ok.mp hrs
    obtain rfl := pure_eq_ok.mp hrs
    obtain ⟨-, hqnodup, hapart⟩ := List.nodup_append.mp hrnodup
    refine ⟨qs, hqs, hqnodup, fun q hq => ?_⟩
    obtain ⟨hlt, hout⟩ := hrnew q (List.mem_append_right _ hq)
    rw [hmem]
    exact ⟨hlt, not_or.mpr ⟨hout, fun hold => hapart q hold q hq rfl⟩⟩
  · rintro ⟨qs, hqs, hqnodup, hqnew⟩
    refine ⟨ps ++ qs, ?_, List.nodup_append.mpr ⟨hnodup, hqnodup, ?_⟩, fun q hq => ?_⟩
    · rw [List.mapM_append, hps, hqs]
      rfl
    · rintro p hp q hq rfl
      exact (hqnew p hq).2 ((hmem p).mpr (.inr hp))
    · rcases List.mem_append.mp hq with hq | hq
      · exact hnew q hq
      · exact ⟨(hqnew q hq).1, fun hold => (hqnew q hq).2 ((hmem q).mpr (.inl hold))⟩

/-- **Workers are all marked just when their tasks can be**, taken one worker after the other. -/
theorem markWorkers_eq_true : markWorkers m total n worker met = .ok true ↔
    ∃ lists, (List.range' worker n).mapM m.tasksOf = .ok lists ∧
      Markable m.shape total met lists.flatten := by
  induction n generalizing worker met with
  | zero => exact iff_of_true rfl ⟨[], rfl, [], rfl, by simp⟩
  | succ n ih =>
      rw [markWorkers, bind_eq_ok, List.range'_succ]
      constructor
      · rintro ⟨tasks, htasks, h⟩
        obtain ⟨marked, hmark, h⟩ := bind_eq_ok.mp h
        cases marked with
        | none => cases h
        | some met' =>
            obtain ⟨ps, hps, hnodup, hnew, hmem⟩ := markTasks_eq_some hmark
            obtain ⟨lists, hlists, hrest⟩ := ih.mp h
            refine ⟨tasks :: lists, ?_, (markable_append hps hnodup hnew hmem).mpr hrest⟩
            rw [List.mapM_cons, htasks, hlists]
            rfl
      · rintro ⟨lists, hlists, hmarkable⟩
        rw [List.mapM_cons] at hlists
        obtain ⟨tasks, htasks, hlists⟩ := bind_eq_ok.mp hlists
        obtain ⟨rest, hrest, hlists⟩ := bind_eq_ok.mp hlists
        obtain rfl := pure_eq_ok.mp hlists
        obtain ⟨rs, hrs, hrnodup, hrnew⟩ := id hmarkable
        -- the positions of this worker's tasks come first
        rw [List.flatten_cons, List.mapM_append] at hrs
        obtain ⟨ps, hps, hrs⟩ := bind_eq_ok.mp hrs
        obtain ⟨qs, hqs, hrs⟩ := bind_eq_ok.mp hrs
        obtain rfl := pure_eq_ok.mp hrs
        have hnodup : ps.Nodup := (List.nodup_append.mp hrnodup).1
        have hnew : ∀ p ∈ ps, p < total ∧ p ∉ met :=
          fun p hp => hrnew p (List.mem_append_left _ hp)
        obtain ⟨met', hmark, hmem⟩ := markTasks_eq (mapM_eq_ok_iff.mp hps)
          (fun p hp => (hnew p hp).1) hnodup fun p hp => (hnew p hp).2
        refine ⟨tasks, htasks, bind_eq_ok.mpr ⟨some met', hmark, ih.mpr ⟨rest, hrest, ?_⟩⟩⟩
        exact (markable_append hps hnodup hnew hmem).mp hmarkable

/-! ### What the test finds -/

theorem listing_eq_ok : m.listing = .ok tasks ↔
    ∃ lists, (List.range m.workers).mapM m.tasksOf = .ok lists ∧ lists.flatten = tasks := by
  simp only [listing, bind_eq_ok, pure_eq_ok]

/-- An answer counts the grid and, where the counts agree, is that of marking the workers. -/
theorem isPartition_eq_ok (h : m.isPartition = .ok b) : m.taskCount = .ok m.shape.prod ∧
    if m.workers * m.perWorker = m.shape.prod then
      m.shape.prod < 2 ^ 63 ∧ markWorkers m m.shape.prod m.workers 0 ∅ = .ok b
    else b = false := by
  obtain ⟨total, htotal, h⟩ := bind_eq_ok.mp h
  obtain rfl := Word.product_eq htotal
  obtain ⟨slots, hslots, h⟩ := bind_eq_ok.mp h
  obtain ⟨-, rfl⟩ := Word.mul_eq_ok.mp hslots
  refine ⟨htotal, ?_⟩
  by_cases hcount : m.workers * m.perWorker = m.shape.prod
  · rw [if_pos hcount]
    rw [if_neg (not_not.mpr hcount)] at h
    by_cases hroom : m.shape.prod < 2 ^ 63
    · rw [room_eq_ok (by simpa [markBytes] using hroom)] at h
      exact ⟨hroom, h⟩
    · rw [room_eq_error (by simpa [markBytes] using hroom)] at h
      cases h
  · rw [if_neg hcount]
    rw [if_pos hcount] at h
    exact (pure_eq_ok.mp h).symm

/-- **The test succeeds** when the counts make up the grid, the record of the tasks fits, and the
workers' tasks can be marked. -/
theorem isPartition_eq_true : m.isPartition = .ok true ↔ m.taskCount = .ok m.shape.prod ∧
    m.shape.prod < 2 ^ 63 ∧ m.workers * m.perWorker = m.shape.prod ∧
    ∃ tasks, m.listing = .ok tasks ∧ Markable m.shape m.shape.prod ∅ tasks := by
  constructor
  · intro h
    obtain ⟨htotal, h⟩ := isPartition_eq_ok h
    split at h
    · rename_i hcount
      obtain ⟨hroom, h⟩ := h
      obtain ⟨lists, hlists, hmarkable⟩ := markWorkers_eq_true.mp h
      rw [← List.range_eq_range'] at hlists
      exact ⟨htotal, hroom, hcount, _, listing_eq_ok.mpr ⟨lists, hlists, rfl⟩, hmarkable⟩
    · cases h
  · rintro ⟨htotal, hroom, hcount, tasks, htasks, hmarkable⟩
    obtain ⟨lists, hlists, rfl⟩ := listing_eq_ok.mp htasks
    have hslots : Word.mul m.workers m.perWorker = .ok m.shape.prod :=
      Word.mul_eq_ok.mpr ⟨hcount ▸ Word.product_lt htotal, hcount.symm⟩
    rw [List.range_eq_range'] at hlists
    rw [isPartition, htotal, ok_bind, hslots, ok_bind, if_neg (not_not.mpr rfl),
      room_eq_ok (by simpa [markBytes] using hroom)]
    exact markWorkers_eq_true.mpr ⟨lists, hlists, hmarkable⟩

/-! ### Tasks of the grid -/

/-- The tasks of a grid, each once. -/
theorem exists_grid (shape : List Nat) : ∃ grid : List (List Nat), grid.length = shape.prod ∧
    grid.Nodup ∧ ∀ task, task ∈ grid ↔ InGrid shape task := by
  have hr : (rowRanks shape.length).length = shape.length := by simp [rowRanks]
  obtain ⟨ds, -, hok⟩ := unravel_eq_ok hr
  choose! task htask using hok
  refine ⟨(List.range shape.prod).map task, by simp, ?_, fun t => ?_⟩
  · refine List.Nodup.map_on (fun i hi j hj hij => ?_) List.nodup_range
    rw [List.mem_range] at hi hj
    rw [← (htask i hi).2.2, hij, (htask j hj).2.2]
  · simp only [List.mem_map, List.mem_range]
    constructor
    · rintro ⟨i, hi, rfl⟩
      exact (htask i hi).2.1
    · intro ht
      obtain ⟨i, ⟨hi, hunravel⟩, -⟩ := existsUnique_unravel hr ht
      exact ⟨i, hi, Except.ok.inj ((htask i hi).1.symm.trans hunravel)⟩

/-- Different tasks of a grid are all of them just when there are as many as the grid has. -/
theorem length_eq_prod_iff (hnodup : tasks.Nodup) (hgrid : ∀ task ∈ tasks, InGrid shape task) :
    tasks.length = shape.prod ↔ ∀ task, InGrid shape task → task ∈ tasks := by
  obtain ⟨grid, hlength, hgnodup, hmem⟩ := exists_grid shape
  have hsub : tasks ⊆ grid := fun t ht => (hmem t).mpr (hgrid t ht)
  constructor
  · intro hlen t ht
    have hperm : tasks.Perm grid :=
      (hnodup.subperm hsub).perm_of_length_le (Nat.le_of_eq (hlength.trans hlen.symm))
    exact hperm.mem_iff.mpr ((hmem t).mpr ht)
  · intro hall
    have hperm : tasks.Perm grid := (List.perm_ext_iff_of_nodup hnodup hgnodup).mpr
      fun t => ⟨fun ht => hsub ht, fun ht => hall t ((hmem t).mp ht)⟩
    rw [hperm.length_eq, hlength]

/-- A pairing that gives no two members the same partner. -/
theorem nodup_of_forall₂ {α β : Type} {R : α → β → Prop} {xs : List α} {ys : List β}
    (h : List.Forall₂ R xs ys) (hinj : ∀ x ∈ xs, ∀ x' ∈ xs, ∀ y, R x y → R x' y → x = x')
    (hxs : xs.Nodup) : ys.Nodup := by
  induction h with
  | nil => exact List.nodup_nil
  | @cons x y xs ys hxy h ih =>
      obtain ⟨hnot, hxs⟩ := List.nodup_cons.mp hxs
      obtain ⟨hx, hrest⟩ := List.forall_mem_cons.mp hinj
      refine List.nodup_cons.mpr ⟨fun hmem => hnot ?_, ih (fun x' hx' x'' hx'' => ?_) hxs⟩
      · obtain ⟨x', hx', hxy'⟩ := exists_of_forall₂ h hmem
        rwa [hx x' (List.mem_cons_of_mem _ hx') y hxy hxy']
      · exact hrest x' hx' x'' (List.mem_cons_of_mem _ hx'')

/-- Tasks at different positions are different. -/
theorem Markable.nodup (h : Markable shape total met tasks) : tasks.Nodup := by
  obtain ⟨ps, hps, hnodup, -⟩ := h
  refine nodup_of_forall₂ (mapM_eq_ok_iff.mp hps).flip (fun p _ p' _ t hp hp' => ?_) hnodup
  exact Except.ok.inj (hp.symm.trans hp')

/-- Different tasks of the grid can be marked. -/
theorem markable_of_inGrid (htotal : m.taskCount = .ok total) (hnodup : tasks.Nodup)
    (hgrid : ∀ task ∈ tasks, InGrid m.shape task) : Markable m.shape total ∅ tasks := by
  have hpos : ∀ t ∈ tasks, ∃ p, position m.shape t = .ok p ∧ p < total :=
    fun t ht => position_eq_ok htotal (hgrid t ht)
  obtain ⟨ps, hps⟩ := exists_mapM_eq_ok fun t ht => (hpos t ht).imp fun _ h => h.1
  have hpairs := mapM_eq_ok_iff.mp hps
  refine ⟨ps, hps, ?_, fun p hp => ⟨?_, by simp⟩⟩
  · refine nodup_of_forall₂ hpairs (fun t ht u hu p hpt hpu => ?_) hnodup
    exact position_injective (hgrid t ht) (hgrid u hu) hpt hpu
  · obtain ⟨t, ht, hpt⟩ := exists_of_forall₂ hpairs hp
    obtain ⟨q, hq, hlt⟩ := hpos t ht
    rwa [Except.ok.inj (hpt.symm.trans hq)]

/-! ### What is decided -/

/-- What an answer says of the mapping. -/
theorem isPartition_eq_ok_iff (h : m.isPartition = .ok b) : b = true ↔
    m.workers * m.perWorker = m.shape.prod ∧
      ∃ tasks, m.listing = .ok tasks ∧ Markable m.shape m.shape.prod ∅ tasks := by
  obtain ⟨htotal, hcase⟩ := isPartition_eq_ok h
  constructor
  · rintro rfl
    exact (isPartition_eq_true.mp h).2.2
  · rintro ⟨hcount, hmarkable⟩
    rw [if_pos hcount] at hcase
    have htrue := isPartition_eq_true.mpr ⟨htotal, hcase.1, hcount, hmarkable⟩
    exact Except.ok.inj (h.symm.trans htrue)

/-- **The test and partitions.**  A partition whose counts make up the grid passes; what passes is a
partition if its tasks are in the grid and as many as the grid has. -/
theorem partitions_iff (h : m.isPartition = .ok b) :
    m.Partitions ∧ m.workers * m.perWorker = m.shape.prod ↔
      b = true ∧ ∃ tasks, m.listing = .ok tasks ∧ tasks.length = m.shape.prod ∧
        ∀ task ∈ tasks, InGrid m.shape task := by
  constructor
  · rintro ⟨⟨tasks, htasks, hnodup, hmem⟩, hcount⟩
    have hgrid : ∀ task ∈ tasks, InGrid m.shape task := fun task ht => (hmem task).mp ht
    have hmarkable := markable_of_inGrid (isPartition_eq_ok h).1 hnodup hgrid
    refine ⟨(isPartition_eq_ok_iff h).mpr ⟨hcount, tasks, htasks, hmarkable⟩, tasks, htasks, ?_, hgrid⟩
    exact (length_eq_prod_iff hnodup hgrid).mpr fun task ht => (hmem task).mpr ht
  · rintro ⟨hb, tasks, htasks, hlength, hgrid⟩
    obtain ⟨hcount, tasks', htasks', hmarkable⟩ := (isPartition_eq_ok_iff h).mp hb
    obtain rfl := Except.ok.inj (htasks.symm.trans htasks')
    have hall := (length_eq_prod_iff hmarkable.nodup hgrid).mp hlength
    exact ⟨⟨tasks, htasks, hmarkable.nodup, fun task => ⟨hgrid task, hall task⟩⟩, hcount⟩

/-- **What the test decides.**  It answers yes just when the stated counts make up the grid and the
workers' tasks have positions in it, no two the same.  A partition passes just when its counts make
up the grid, and what passes is a partition just when its tasks lie in the grid and are as many as
the grid has.  So where the workers have as many tasks as is stated, all in the grid, the answer is
whether the mapping is a partition. -/
theorem isPartition_decides (h : m.isPartition = .ok b) :
    (b = true ↔ m.workers * m.perWorker = m.shape.prod ∧ ∃ tasks ps, m.listing = .ok tasks ∧
      tasks.mapM (position m.shape) = .ok ps ∧ ps.Nodup ∧ ∀ p ∈ ps, p < m.shape.prod) ∧
    (m.Partitions → (b = true ↔ m.workers * m.perWorker = m.shape.prod)) ∧
    (b = true → (m.Partitions ↔ ∃ tasks, m.listing = .ok tasks ∧ tasks.length = m.shape.prod ∧
      ∀ task ∈ tasks, InGrid m.shape task)) ∧
    ∀ tasks, m.listing = .ok tasks → tasks.length = m.workers * m.perWorker →
      (∀ task ∈ tasks, InGrid m.shape task) → (b = true ↔ m.Partitions) := by
  have hpart := partitions_iff h
  have hcount : b = true → m.workers * m.perWorker = m.shape.prod :=
    fun hb => ((isPartition_eq_ok_iff h).mp hb).1
  refine ⟨?_, fun hm => ⟨hcount, fun hc => (hpart.mp ⟨hm, hc⟩).1⟩, fun hb => ⟨fun hm => ?_, ?_⟩,
    fun tasks htasks hlength hgrid => ⟨fun hb => ?_, ?_⟩⟩
  · simpa [Markable] using isPartition_eq_ok_iff h
  · exact (hpart.mp ⟨hm, hcount hb⟩).2
  · exact fun htasks => (hpart.mpr ⟨hb, htasks⟩).1
  · exact (hpart.mpr ⟨hb, tasks, htasks, hlength.trans (hcount hb), hgrid⟩).1
  · rintro ⟨tasks', htasks', hnodup, hmem⟩
    obtain rfl := Except.ok.inj (htasks.symm.trans htasks')
    have hall := (length_eq_prod_iff hnodup hgrid).mpr fun task => (hmem task).mpr
    exact (hpart.mp ⟨⟨tasks, htasks, hnodup, hmem⟩, hlength.symm.trans hall⟩).1

/-- Six workers and ranks that order the dimensions without being their numbers. -/
theorem isPartition_decides_strangeRanks :
    let m : Mapping := .spatial ⟨[2, 3], 6, 1⟩ [7, 3]
    m.listing = .ok [[0, 0], [1, 0], [0, 1], [1, 1], [0, 2], [1, 2]] ∧
      m.isPartition = .ok true ∧ m.Partitions := by
  intro m
  have hlisting : m.listing = .ok [[0, 0], [1, 0], [0, 1], [1, 1], [0, 2], [1, 2]] := rfl
  have h : m.isPartition = .ok true := isPartition_eq_true.mpr
    ⟨rfl, by decide, rfl, _, hlisting, [0, 3, 1, 4, 2, 5], rfl, by decide, by simp [m, shape, extents]⟩
  refine ⟨hlisting, h, ((isPartition_decides h).2.2.2 _ hlisting rfl ?_).mp rfl⟩
  simp [InGrid, m, shape, extents]

/-- Three mappings that are judged wrongly.  One worker states two tasks and has one, so that a task
is left over; two workers have a task each and state five; and six workers have the tasks of one
long row, which count as those of two short ones. -/
theorem isPartition_misjudges :
    let short : Mapping := .spatial ⟨[2], 1, 2⟩ [0]
    let misstated : Mapping := .spatial ⟨[2], 2, 5⟩ [0]
    let row : Mapping := .composed ⟨[2, 3], 6, 1⟩ (.spatial ⟨[1, 6], 6, 1⟩ [0, 1])
      (.spatial ⟨[1, 1], 1, 1⟩ [0, 1])
    (short.isPartition = .ok true ∧ ¬ short.Partitions) ∧
    (misstated.isPartition = .ok false ∧ misstated.Partitions) ∧
    row.isPartition = .ok true ∧ ¬ row.Partitions := by
  intro short misstated row
  have hshort : short.listing = .ok [[0]] := rfl
  have hgrid : ∀ task ∈ [[0], [1]], InGrid misstated.shape task := by
    simp [InGrid, misstated, shape, extents]
  have hall := (length_eq_prod_iff (by decide) hgrid).mp rfl
  have hrow : row.listing = .ok [[0, 0], [0, 1], [0, 2], [0, 3], [0, 4], [0, 5]] := rfl
  refine ⟨⟨?_, ?_⟩, ⟨rfl, [[0], [1]], rfl, by decide, fun task => ⟨hgrid task, hall task⟩⟩, ?_, ?_⟩
  · exact isPartition_eq_true.mpr
      ⟨rfl, by decide, rfl, _, hshort, [0], rfl, by decide, by simp [short, shape, extents]⟩
  · rintro ⟨tasks, htasks, -, hmem⟩
    obtain rfl := Except.ok.inj (hshort.symm.trans htasks)
    have hleft : [1] ∈ [[0]] := (hmem [1]).mpr (by simp [InGrid, short, shape, extents])
    simp at hleft
  · exact isPartition_eq_true.mpr ⟨rfl, by decide, rfl, _, hrow, [0, 1, 2, 3, 4, 5], rfl,
      by decide, by simp [row, shape, extents]⟩
  · rintro ⟨tasks, htasks, -, hmem⟩
    obtain rfl := Except.ok.inj (hrow.symm.trans htasks)
    have hout : InGrid row.shape [0, 3] := (hmem [0, 3]).mp (by simp)
    simp [InGrid, row, shape, extents] at hout

end Mapping

end TensorLoops
