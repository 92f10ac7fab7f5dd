import Mathlib.Data.List.Nodup
import TensorLoops.Lanes.Partition
import TensorLoops.Proofs.Lanes.Sharing

/-!
# Proofs — Lanes — Partition

A built mapping is found to be a partition.  The row-major positions of the tasks of a grid are
below its size and no two the same (`position_eq_ok`, `position_injective`), so marking the tasks
of one worker after the other never meets a task outside the grid or a second time
(`markTasks_eq`, `markWorkers_eq`).

What can fail is memory: the list of a worker's tasks, and the record of the tasks met.
-/

namespace TensorLoops

namespace Mapping

/-! ### Positions -/

/-- The position folded on from `acc`, which counts points among `p`. -/
theorem foldlM_position {shape task : List Nat} {acc p total : Nat} (hacc : acc < p)
    (htotal : shape.foldlM Word.mul p = .ok total) (ht : InGrid shape task) :
    ∃ q, (task.zip shape).foldlM (fun acc c => do Word.add (← Word.mul acc c.2) c.1) acc = .ok q ∧
      q < total := by
  induction ht generalizing acc p with
  | nil =>
      obtain rfl := pure_eq_ok.mp htotal
      exact ⟨acc, rfl, hacc⟩
  | @cons c n task shape hc ht ih =>
      obtain ⟨r, hr, htotal⟩ := bind_eq_ok.mp htotal
      obtain ⟨hlim, rfl⟩ := Word.mul_eq_ok.mp hr
      have hlt : acc * n + c < p * n := mul_add_lt hacc hc
      obtain ⟨q, hq, hqlt⟩ := ih hlt htotal
      simp only [List.zip_cons_cons, List.foldlM_cons, bind_eq_ok, Word.mul_eq_ok, Word.add_eq_ok]
      exact ⟨q, ⟨_, ⟨_, ⟨by omega, rfl⟩, by omega, rfl⟩, hq⟩, hqlt⟩

/-- Positions tell tasks of one grid apart, digit by digit. -/
theorem foldlM_position_injective {shape t u : List Nat} {a b q : Nat} (ht : InGrid shape t)
    (hu : InGrid shape u)
    (hta : (t.zip shape).foldlM (fun acc c => do Word.add (← Word.mul acc c.2) c.1) a = .ok q)
    (hub : (u.zip shape).foldlM (fun acc c => do Word.add (← Word.mul acc c.2) c.1) b = .ok q) :
    a = b ∧ t = u := by
  induction ht generalizing a b u with
  | nil =>
      obtain rfl := List.forall₂_nil_right_iff.mp hu
      exact ⟨(pure_eq_ok.mp hta).trans (pure_eq_ok.mp hub).symm, rfl⟩
  | @cons c n t shape hc ht ih =>
      obtain ⟨d, u, hd, hrest, rfl⟩ := List.forall₂_cons_right_iff.mp hu
      simp only [List.zip_cons_cons, List.foldlM_cons, bind_eq_ok, Word.mul_eq_ok,
        Word.add_eq_ok] at hta hub
      obtain ⟨_, ⟨_, ⟨-, rfl⟩, -, rfl⟩, hta⟩ := hta
      obtain ⟨_, ⟨_, ⟨-, rfl⟩, -, rfl⟩, hub⟩ := hub
      obtain ⟨hsum, rfl⟩ := ih hrest hta hub
      obtain ⟨rfl, rfl⟩ := mul_add_inj hc hd hsum
      exact ⟨rfl, rfl⟩

theorem position_eq_ok {m : Mapping} {total : Nat} (htotal : m.taskCount = .ok total)
    {task : List Nat} (ht : InGrid m.shape task) : ∃ q, position m.shape task = .ok q ∧ q < total :=
  foldlM_position Nat.one_pos htotal ht

theorem position_injective {shape t u : List Nat} {q : Nat} (ht : InGrid shape t)
    (hu : InGrid shape u) (hpt : position shape t = .ok q) (hpu : position shape u = .ok q) : t = u :=
  (foldlM_position_injective ht hu hpt hpu).2

/-! ### Marking tasks -/

/-- Tasks at different positions, none of them met before, are all marked. -/
theorem markTasks_eq {shape : List Nat} {total : Nat} {tasks : List (List Nat)} {ps : List Nat}
    {met : Std.HashSet Nat} (hps : List.Forall₂ (fun t p => position shape t = .ok p) tasks ps)
    (hlt : ∀ p ∈ ps, p < total) (hnodup : ps.Nodup) (hnew : ∀ p ∈ ps, p ∉ met) :
    ∃ met', markTasks shape total tasks met = .ok (some met') ∧ ∀ q, q ∈ met' ↔ q ∈ met ∨ q ∈ ps := by
  induction hps generalizing met with
  | nil => exact ⟨met, rfl, by simp⟩
  | @cons t p tasks ps hp _ ih =>
      obtain ⟨hplt, hlt⟩ := List.forall_mem_cons.mp hlt
      obtain ⟨hpnew, hnew⟩ := List.forall_mem_cons.mp hnew
      obtain ⟨hnot, hnodup⟩ := List.nodup_cons.mp hnodup
      have hnew' : ∀ q ∈ ps, q ∉ met.insert p := by
        intro q hq hmem
        rcases Std.HashSet.mem_insert.mp hmem with he | hmem
        · exact hnot (beq_iff_eq.mp he ▸ hq)
        · exact hnew q hq hmem
      obtain ⟨met', hmark, hmem⟩ := ih hlt hnodup hnew'
      refine ⟨met', ?_, fun q => ?_⟩
      · have hgo : ¬ (total ≤ p || met.contains p) = true := by
          rw [Bool.or_eq_true, decide_eq_true_eq, Std.HashSet.contains_iff_mem]
          exact not_or.mpr ⟨Nat.not_le.mpr hplt, hpnew⟩
        rw [markTasks, bind_eq_ok]
        exact ⟨p, hp, by rw [if_neg hgo, hmark]⟩
      · rw [hmem, Std.HashSet.mem_insert, List.mem_cons, beq_iff_eq, eq_comm]
        tauto

/-- The positions of one worker's tasks. -/
theorem positions_of_worker {m : Mapping} {total worker : Nat} (hm : m.Shares)
    (htotal : m.taskCount = .ok total) (hlt : worker < m.workers) :
    ∃ tasks ps, m.tasksOf worker = .ok tasks ∧
      List.Forall₂ (fun t p => position m.shape t = .ok p) tasks ps ∧ (∀ p ∈ ps, p < total) ∧
      ps.Nodup ∧ ∀ p ∈ ps, ∃ slot t, m.Has worker slot t ∧ position m.shape t = .ok p := by
  obtain ⟨tasks, htasks, -, hgrid⟩ := hm.tasks worker hlt
  have hpos : ∀ t ∈ tasks, ∃ p, position m.shape t = .ok p := fun t ht =>
    let ⟨p, hp, _⟩ := position_eq_ok htotal (hgrid t ht)
    ⟨p, hp⟩
  obtain ⟨ps, hps⟩ := exists_mapM_eq_ok hpos
  have hpairs := mapM_eq_ok_iff.mp hps
  have hat : ∀ {slot p}, ps[slot]? = some p →
      ∃ t, m.Has worker slot t ∧ InGrid m.shape t ∧ position m.shape t = .ok p := by
    intro slot p hp
    obtain ⟨t, ht, hpt⟩ := forall₂_getElem? hpairs.flip hp
    exact ⟨t, ⟨hlt, tasks, htasks, ht⟩, hgrid t (List.mem_of_getElem? ht), hpt⟩
  refine ⟨tasks, ps, htasks, hpairs, fun p hp => ?_, ?_, fun p hp => ?_⟩
  · obtain ⟨slot, hslot⟩ := List.getElem?_of_mem hp
    obtain ⟨t, -, hg, hpt⟩ := hat hslot
    obtain ⟨q, hq, hqlt⟩ := position_eq_ok htotal hg
    exact Except.ok.inj (hpt.symm.trans hq) ▸ hqlt
  · refine List.nodup_iff_getElem?_ne_getElem?.mpr fun i j hij hj heq => ?_
    obtain ⟨t, hti, hg, hpt⟩ := hat (heq.trans (List.getElem?_eq_getElem hj))
    obtain ⟨u, huj, hgu, hpu⟩ := hat (List.getElem?_eq_getElem hj)
    obtain rfl := position_injective hg hgu hpt hpu
    have hsame : (worker, i) = (worker, j) := (hm.unique t hg).unique hti huj
    exact Nat.ne_of_lt hij (Prod.mk.inj hsame).2
  · obtain ⟨slot, hslot⟩ := List.getElem?_of_mem hp
    obtain ⟨t, hhas, -, hpt⟩ := hat hslot
    exact ⟨slot, t, hhas, hpt⟩

/-- Workers whose tasks are shared out are all marked.  The positions met so far are those of the
workers before. -/
theorem markWorkers_eq {m : Mapping} {total : Nat} (hm : m.Shares) (htotal : m.taskCount = .ok total)
    {n worker : Nat} {met : Std.HashSet Nat} (hn : worker + n = m.workers)
    (hmet : ∀ q ∈ met, ∃ w < worker, ∃ slot t, m.Has w slot t ∧ position m.shape t = .ok q) :
    markWorkers m total n worker met = .ok true := by
  induction n generalizing worker met with
  | zero => rfl
  | succ n ih =>
      have hworker : worker < m.workers := by omega
      obtain ⟨tasks, ps, htasks, hpairs, hlt, hnodup, hhas⟩ := positions_of_worker hm htotal hworker
      have hnew : ∀ p ∈ ps, p ∉ met := by
        intro p hp hmem
        obtain ⟨w, hw, slot, t, hold, hpt⟩ := hmet p hmem
        obtain ⟨slot', u, hcur, hpu⟩ := hhas p hp
        have hg := (hold.slot_lt hm).2
        obtain rfl := position_injective hg (hcur.slot_lt hm).2 hpt hpu
        have hsame : (w, slot) = (worker, slot') := (hm.unique t hg).unique hold hcur
        exact Nat.ne_of_lt hw (Prod.mk.inj hsame).1
      obtain ⟨met', hmark, hmem⟩ := markTasks_eq hpairs hlt hnodup hnew
      rw [markWorkers, bind_eq_ok]
      refine ⟨tasks, htasks, bind_eq_ok.mpr ⟨some met', hmark, ?_⟩⟩
      refine ih (by omega) fun q hq => ?_
      rcases (hmem q).mp hq with hq | hq
      · obtain ⟨w, hw, hold⟩ := hmet q hq
        exact ⟨w, by omega, hold⟩
      · exact ⟨worker, by omega, hhas q hq⟩

/-! ### Memory -/

theorem room_eq_ok {bytes n : Nat} (h : bytes * n < 2 ^ 63) : Word.room bytes n = .ok () := if_pos h

theorem room_eq_error {bytes n : Nat} (h : ¬ bytes * n < 2 ^ 63) :
    Word.room bytes n = .error (.arithmetic .noRoom) := if_neg h

/-- Where a list of tasks does not fit, no worker has its tasks. -/
theorem tasksOf_of_not_fits : ∀ {m : Mapping}, m.Sound → ¬ m.Fits → ∀ worker < m.workers,
    m.tasksOf worker = .error (.arithmetic .noRoom)
  | .spatial _ _, _, hfit, _, _ => absurd trivial hfit
  | .repeated x ranks, ⟨_, _, hp⟩, hfit, worker, _ => by
      rw [tasksOf, hp]
      show (Word.room taskBytes x.perWorker >>= _) = _
      rw [room_eq_error hfit]
      rfl
  | .composed x outer inner, h, hfit, worker, hlt => by
      obtain ⟨⟨ho, hi⟩, -, -, -, hw, hp, hplt⟩ := id h
      have hlt : worker < outer.workers * inner.workers := hw ▸ hlt
      have hpos : 0 < inner.workers := Nat.pos_of_mul_pos_left (Nat.zero_lt_of_lt hlt)
      have hdiv : Word.div worker inner.workers = .ok (worker / inner.workers) :=
        Word.div_eq_ok.mpr ⟨by omega, rfl⟩
      have hmod : Word.mod worker inner.workers = .ok (worker % inner.workers) :=
        Word.mod_eq_ok.mpr ⟨by omega, rfl⟩
      have hlto := (Nat.div_lt_iff_lt_mul hpos).mpr hlt
      rw [tasksOf, hdiv]
      show (outer.tasksOf _ >>= _) = _
      by_cases hfo : outer.Fits
      · obtain ⟨os, hos, hoslen, -⟩ := (ho.shares hfo).tasks _ hlto
        rw [hos, hmod]
        show (inner.tasksOf _ >>= _) = _
        by_cases hfi : inner.Fits
        · obtain ⟨is, his, hislen, -⟩ := (hi.shares hfi).tasks _ (Nat.mod_lt worker hpos)
          rw [his]
          show (Word.mul os.length is.length >>= _) = _
          rw [hoslen, hislen, Word.mul_eq_ok.mpr ⟨hp ▸ hplt, hp⟩]
          show (Word.room taskBytes x.perWorker >>= _) = _
          rw [room_eq_error fun hroom => hfit ⟨hfo, hfi, hroom⟩]
          rfl
        · rw [tasksOf_of_not_fits hi hfi _ (Nat.mod_lt worker hpos)]
          rfl
      · rw [tasksOf_of_not_fits ho hfo _ hlto]
        rfl

theorem InGrid.prod_pos {shape task : List Nat} (h : InGrid shape task) : 0 < shape.prod := by
  induction h with
  | nil => exact Nat.one_pos
  | cons hc _ ih =>
      rw [List.prod_cons]
      exact Nat.mul_pos (Nat.zero_lt_of_lt hc) ih

/-- Without workers there is nothing to fit. -/
theorem Sound.shares_of_workers {m : Mapping} (h : m.Sound) (hfit : 0 < m.workers → m.Fits) :
    m.Shares := by
  rcases Nat.eq_zero_or_pos m.workers with hw | hw
  · refine ⟨fun worker hlt => ?_, fun task ht => ?_⟩
    · exact absurd (hw ▸ hlt) (Nat.not_lt_zero worker)
    · have hcount := h.count
      rw [hw, Nat.zero_mul] at hcount
      exact absurd ht.prod_pos (by omega)
  · exact h.shares (hfit hw)

/-- The test marks the tasks of one worker after the other. -/
theorem isPartition_eq {m : Mapping} (h : m.Sound) {total : Nat} (ht : m.taskCount = .ok total) :
    m.isPartition = (do Word.room markBytes total; markWorkers m total m.workers 0 ∅) := by
  have hcount : m.workers * m.perWorker = total := h.count.trans (Word.product_eq ht).symm
  have hlim : total < Word.limit := Word.product_lt ht
  have hslots : Word.mul m.workers m.perWorker = .ok total :=
    Word.mul_eq_ok.mpr ⟨hcount ▸ hlim, hcount.symm⟩
  rw [isPartition, ht]
  show (Word.mul m.workers m.perWorker >>= _) = _
  rw [hslots]
  show (if total ≠ total then _ else _) = _
  rw [if_neg (not_not.mpr rfl)]

/-! ### Built mappings are partitions -/

/-- Two mappings that are built but do not fit in memory: the record of `2 ^ 63` tasks is too
long, and so is a list of as many tasks, even where none of them is left in the composed grid. -/
theorem built_without_room :
    (∃ m, rowSpatial [2 ^ 63] = .ok m ∧ m.taskCount = .ok (2 ^ 63) ∧
      m.isPartition = .error (.arithmetic .noRoom)) ∧
    ∃ outer inner m, rowRepeat [2 ^ 63] = .ok outer ∧ rowRepeat [0] = .ok inner ∧
      compose outer inner = .ok m ∧ m.taskCount = .ok 0 ∧ m.workers = 1 ∧
      m.workerTasks 0 = .error (.arithmetic .noRoom) ∧
      m.isPartition = .error (.arithmetic .noRoom) := by
  constructor
  · have hrow : rowSpatial [2 ^ 63] = .ok (.spatial ⟨[2 ^ 63], 2 ^ 63, 1⟩ [0]) := rfl
    refine ⟨_, hrow, rfl, ?_⟩
    rw [isPartition_eq (ofSpatial_sound hrow rfl) rfl, room_eq_error (by decide)]
    rfl
  · exact ⟨_, _, _, rfl, rfl, rfl, rfl, rfl, rfl, rfl⟩

/-- **Built mappings are partitions**, as far as memory goes.  The workers' counts make up the
grid.  Where the workers' lists fit, every worker has its tasks and every task of the grid stands
at exactly one place of one worker's list; where the record of the tasks fits too, the mapping is
found to be a partition.  Where something does not fit, that is the error. -/
theorem Built.partitions_tasks {m : Mapping} (h : m.Built) {total : Nat} (ht : m.taskCount = .ok total) :
    m.workers * m.perWorker = total ∧
    (∀ worker < m.workers,
      if m.Fits then ∃ tasks, m.workerTasks worker = .ok tasks ∧ tasks.length = m.perWorker ∧
        ∀ task ∈ tasks, InGrid m.shape task
      else m.workerTasks worker = .error (.arithmetic .noRoom)) ∧
    ((0 < m.workers → m.Fits) → ∀ task, InGrid m.shape task → ∃! place : Nat × Nat,
      place.1 < m.workers ∧ ∃ tasks, m.workerTasks place.1 = .ok tasks ∧
        tasks[place.2]? = some task) ∧
    if total < 2 ^ 63 ∧ (0 < m.workers → m.Fits) then m.isPartition = .ok true
    else m.isPartition = .error (.arithmetic .noRoom) := by
  have hs := h.sound
  have hcount : m.workers * m.perWorker = total := hs.count.trans (Word.product_eq ht).symm
  have hworker : ∀ worker < m.workers, m.workerTasks worker = m.tasksOf worker :=
    fun worker hlt => if_pos hlt
  refine ⟨hcount, fun worker hlt => ?_, fun hfit task hgrid => ?_, ?_⟩
  · split
    · rename_i hfit
      rw [hworker worker hlt]
      exact (hs.shares hfit).tasks worker hlt
    · rename_i hfit
      rw [hworker worker hlt, tasksOf_of_not_fits hs hfit worker hlt]
  · have hhas : ∀ place : Nat × Nat, m.Has place.1 place.2 task ↔ place.1 < m.workers ∧
        ∃ tasks, m.workerTasks place.1 = .ok tasks ∧ tasks[place.2]? = some task :=
      fun place => and_congr_right fun hlt => by rw [hworker place.1 hlt]
    exact (existsUnique_congr hhas).mp ((hs.shares_of_workers hfit).unique task hgrid)
  · rw [isPartition_eq hs ht]
    split
    · rename_i hroom
      rw [room_eq_ok (by simpa [markBytes] using hroom.1)]
      exact markWorkers_eq (hs.shares_of_workers hroom.2) ht (Nat.zero_add _) (by simp)
    · rename_i hroom
      by_cases hlt : total < 2 ^ 63
      · obtain ⟨hpos, hfit⟩ := Classical.not_imp.mp fun hfit => hroom ⟨hlt, hfit⟩
        obtain ⟨n, hn⟩ := Nat.exists_eq_add_of_lt hpos
        rw [room_eq_ok (by simpa [markBytes] using hlt), hn, Nat.zero_add]
        show (m.tasksOf 0 >>= _) = _
        rw [tasksOf_of_not_fits hs hfit 0 hpos]
        rfl
      · rw [room_eq_error (by simpa [markBytes] using hlt)]
        rfl

/-- Six workers in columns, each with two tasks of a grid of twelve. -/
theorem partitions_tasks_columns : ∃ outer inner m : Mapping,
    spatialMap [2, 3] [1, 0] = .ok outer ∧ rowRepeat [2, 1] = .ok inner ∧
    compose outer inner = .ok m ∧ m.taskCount = .ok 12 ∧ m.Fits ∧ m.isPartition = .ok true := by
  have ho : spatialMap [2, 3] [1, 0] = .ok (.spatial ⟨[2, 3], 6, 1⟩ [1, 0]) := rfl
  have hi : rowRepeat [2, 1] = .ok (.repeated ⟨[2, 1], 1, 2⟩ [0, 1]) := rfl
  have hm : compose (.spatial ⟨[2, 3], 6, 1⟩ [1, 0]) (.repeated ⟨[2, 1], 1, 2⟩ [0, 1]) =
    .ok (.composed ⟨[4, 3], 6, 2⟩ (.spatial ⟨[2, 3], 6, 1⟩ [1, 0])
      (.repeated ⟨[2, 1], 1, 2⟩ [0, 1])) := rfl
  have hpart := (Built.partitions_tasks (.compose (.spatialMap ho) (.rowRepeat hi) hm) rfl).2.2.2
  rw [if_pos ⟨by decide, fun _ => by decide⟩] at hpart
  exact ⟨_, _, _, ho, hi, hm, rfl, by decide, hpart⟩

end Mapping

end TensorLoops
