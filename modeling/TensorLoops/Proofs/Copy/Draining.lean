import TensorLoops.Proofs.Copy.Conservation

/-!
# Proofs — Copy — Draining

How the queue is emptied.  Groups leave it one at a time, the oldest first (`Retires`), and a wait
is the sequence of these steps that ends where enough have left (`retires_retire`).  Waiting for
everything is a commit followed by a wait for no group at all when a copy is open, and that wait
alone when none is; in the other case each differs from it by the group of the open batch.
-/

namespace TensorLoops

namespace CopyQueue

/-! ### One group at a time -/

/-- The groups `done` are retired one at a time, the oldest first. -/
inductive Retires : CopyQueue → List CopyGroup → CopyQueue → Prop where
  | nil {q} : Retires q [] q
  | cons {q g rest done q'} : q.pending = g :: rest →
      Retires { q with pending := rest, completed := q.completed ++ [g] } done q' →
      Retires q (g :: done) q'

variable {q q' : CopyQueue} {done : List CopyGroup} {event : CopyEvent}
  {events : List CopyEvent}

/-- What is retired comes off the pending groups and goes behind the completed ones. -/
theorem Retires.eq (h : Retires q done q') : q.pending = done ++ q'.pending ∧
    q' = { q with pending := q'.pending, completed := q.completed ++ done } := by
  induction h with
  | nil => simp
  | cons hpending _ ih =>
      obtain ⟨hrest, hq'⟩ := ih
      refine ⟨?_, ?_⟩
      · rw [hpending, List.cons_append, ← hrest]
      · rw [hq', List.append_assoc, List.singleton_append]

/-- Any number of groups from the front can be retired. -/
theorem retires_of_pending {rest : List CopyGroup} (h : q.pending = done ++ rest) :
    Retires q done { q with pending := rest, completed := q.completed ++ done } := by
  induction done generalizing q with
  | nil =>
      obtain rfl : q.pending = rest := h
      rw [List.append_nil]
      exact .nil
  | cons g done ih =>
      have hstep := ih (q := { q with pending := done ++ rest, completed := q.completed ++ [g] }) rfl
      rw [List.append_assoc, List.singleton_append] at hstep
      exact .cons h hstep

/-- A wait retires groups one at a time. -/
theorem retires_retire (q : CopyQueue) (n : Nat) : Retires q (q.retire n).1 (q.retire n).2 :=
  retires_of_pending (List.take_append_drop _ _).symm

/-- A wait for no group at all is retiring one at a time until none is pending. -/
theorem retire_zero_eq_iff :
    q.retire 0 = (done, q') ↔ Retires q done q' ∧ q'.pending = [] := by
  constructor
  · intro h
    have hretires := retires_retire q 0
    rw [h] at hretires
    rw [retire_zero] at h
    exact ⟨hretires, congrArg (·.2.pending) h.symm⟩
  · rintro ⟨hretires, hnone⟩
    obtain ⟨hpending, hq'⟩ := hretires.eq
    rw [hnone, List.append_nil] at hpending
    rw [retire_zero, hpending, hq', hnone]

/-! ### An idle batch -/

/-- A batch without copies has no bytes either. -/
def Idle (q : CopyQueue) : Prop := q.openCopies = 0 → q.openBytes = 0

/-- An operation that returns leaves an idle batch idle.  Only an issue fills the batch, and then it
has a copy; a commit empties it. -/
theorem Performs.idle (h : Performs q event q') (hq : q.Idle) : q'.Idle := by
  have h := h.of_apply
  cases event with
  | issue bytes =>
      obtain rfl := issue_returns h
      exact fun hzero => absurd hzero (Nat.succ_ne_zero _)
  | commit =>
      obtain rfl := commit_returns (returns_discard.mp h)
      exact fun _ => rfl
  | waitGroup n =>
      obtain rfl := waitGroup_returns.mp (returns_discard.mp h)
      split
      · exact hq
      · exact hq
  | waitAll =>
      obtain rfl := waitAll_returns (returns_discard.mp h)
      split
      · exact fun _ => rfl
      · exact hq

theorem Runs.idle (h : Runs q events q') (hq : q.Idle) : q'.Idle := by
  induction h with
  | nil => exact hq
  | cons h _ ih => exact ih (h.idle hq)

/-! ### Waiting for everything -/

/-- The group that the open batch becomes when everything is waited for. -/
def openGroup (q : CopyQueue) : List CopyGroup :=
  if 0 < q.openCopies then [⟨q.nextGroup, q.openCopies, q.openBytes⟩] else []

theorem waitGroup_zero (q : CopyQueue) : q.waitGroup 0 = .ok (q.retire 0) :=
  waitGroup_of_lt (by decide)

/-- Without an open copy, waiting for everything is the wait for no group. -/
theorem waitAll_of_idle (h : q.openCopies = 0) : q.waitAll = q.waitGroup 0 := by
  rw [waitGroup_zero]
  refine resultOf_eq_ok.mpr ?_
  rw [run_waitAll, if_neg (Nat.not_lt_of_le (Nat.le_of_eq h))]
  rfl

/-- With an open copy it is a commit and that wait, which fails where the commit does. -/
theorem waitAll_of_open (h : 0 < q.openCopies) :
    q.waitAll = q.commit >>= fun c => c.2.waitGroup 0 := by
  by_cases hnext : q.nextGroup + 1 < Word.limit
  · rw [commit_of_lt hnext, ok_bind, waitGroup_zero]
    refine resultOf_eq_ok.mpr ?_
    rw [run_waitAll, if_pos h, if_pos hnext]
    rfl
  · rw [commit_of_not_lt hnext]
    refine resultOf_eq_error.mpr ⟨q, ?_⟩
    rw [run_waitAll, if_pos h, if_neg hnext]

/-- Without an open copy a commit makes one group more. -/
theorem waitAll_ne_commit_waitGroup (h : q.openCopies = 0) :
    (q.commit >>= fun c => c.2.waitGroup 0) ≠ q.waitAll := by
  intro heq
  rw [waitAll_of_idle h, waitGroup_zero] at heq
  obtain ⟨⟨id, q₁⟩, hcommit, hwait⟩ := bind_eq_ok.mp heq
  obtain rfl := commit_eq_ok hcommit
  rw [waitGroup_zero, retire_zero, retire_zero] at hwait
  have hlength := congrArg List.length (Prod.mk.inj (Except.ok.inj hwait)).1
  simp [committed] at hlength

/-- With an open copy a wait leaves it open. -/
theorem waitAll_ne_waitGroup (h : 0 < q.openCopies) : q.waitGroup 0 ≠ q.waitAll := by
  intro heq
  rw [waitAll_of_open h] at heq
  obtain ⟨⟨id, q₁⟩, hcommit, hwait⟩ := bind_eq_ok.mp heq.symm
  obtain rfl := commit_eq_ok hcommit
  rw [waitGroup_zero, Except.ok.injEq] at hwait
  have hopen : 0 = q.openCopies := congrArg (·.2.openCopies) hwait
  omega

/-- **What waiting for everything does.**  It retires the pending groups and the open batch, which
is the last of them. -/
theorem waitAll_eq (hq : q.Idle) (hroom : q.openCopies = 0 ∨ q.nextGroup + 1 < Word.limit) :
    q.waitAll = .ok (q.pending ++ q.openGroup, ⟨0, 0, [],
      q.completed ++ (q.pending ++ q.openGroup), q.nextGroup + q.openGroup.length⟩) := by
  by_cases hopen : 0 < q.openCopies
  · have hlt : q.nextGroup + 1 < Word.limit := hroom.resolve_left (Nat.ne_of_gt hopen)
    rw [waitAll_of_open hopen, commit_of_lt hlt, ok_bind, waitGroup_zero, retire_zero]
    simp [committed, openGroup, hopen]
  · have hzero : q.openCopies = 0 := Nat.eq_zero_of_not_pos hopen
    rw [waitAll_of_idle hzero, waitGroup_zero, retire_zero]
    simp [openGroup, hzero, hq hzero]

/-- **Draining the queue.**  After any operations from the empty queue, waiting for everything does
what a commit and then a wait for no group do just when a copy is open, and what that wait does
alone just when none is: the same groups in the same order, the same state and the same failure.
Where the number of the next group is not exhausted it succeeds, with the pending groups and the
open batch retired and nothing outstanding.  Its result is the one that retiring the oldest group
again and again, until none is pending, comes to. -/
theorem runs_drain (h : Runs .empty events q) :
    ((q.commit >>= fun c => c.2.waitGroup 0) = q.waitAll ↔ 0 < q.openCopies) ∧
    (q.waitGroup 0 = q.waitAll ↔ q.openCopies = 0) ∧
    (q.openCopies = 0 ∨ q.nextGroup + 1 < Word.limit →
      ∃ q', q.waitAll = .ok (q.pending ++ q.openGroup, q') ∧ q'.isDrained = true ∧
        q' = ⟨0, 0, [], q.completed ++ (q.pending ++ q.openGroup),
          q.nextGroup + q.openGroup.length⟩) ∧
    (∀ id q₁ done q', 0 < q.openCopies → q.commit = .ok (id, q₁) →
      (q.waitAll = .ok (done, q') ↔ Retires q₁ done q' ∧ q'.pending = [])) ∧
    ∀ done q', q.openCopies = 0 →
      (q.waitAll = .ok (done, q') ↔ Retires q done q' ∧ q'.pending = []) := by
  have hq : q.Idle := h.idle fun _ => rfl
  refine ⟨⟨fun heq => ?_, fun hopen => (waitAll_of_open hopen).symm⟩,
    ⟨fun heq => ?_, fun hzero => (waitAll_of_idle hzero).symm⟩, fun hroom => ?_,
    fun id q₁ done q' hopen hcommit => ?_, fun done q' hzero => ?_⟩
  · by_contra hzero
    exact waitAll_ne_commit_waitGroup (Nat.eq_zero_of_not_pos hzero) heq
  · by_contra hopen
    exact waitAll_ne_waitGroup (Nat.pos_of_ne_zero hopen) heq
  · exact ⟨_, waitAll_eq hq hroom, rfl, rfl⟩
  · rw [waitAll_of_open hopen, hcommit, ok_bind, waitGroup_zero, Except.ok.injEq]
    exact retire_zero_eq_iff
  · rw [waitAll_of_idle hzero, waitGroup_zero, Except.ok.injEq]
    exact retire_zero_eq_iff

/-- A pending group and an open copy; after the drain an empty batch is committed, which waiting for
everything would not do. -/
theorem runs_drain_openBatch :
    let q : CopyQueue := ⟨1, 8, [⟨0, 1, 16⟩], [], 1⟩
    let q' : CopyQueue := ⟨0, 0, [], [⟨0, 1, 16⟩, ⟨1, 1, 8⟩], 2⟩
    Runs .empty [.issue 16, .commit, .issue 8] q ∧
      (q.commit >>= fun c => c.2.waitGroup 0) = .ok ([⟨0, 1, 16⟩, ⟨1, 1, 8⟩], q') ∧
      q.waitAll = .ok ([⟨0, 1, 16⟩, ⟨1, 1, 8⟩], q') ∧ q'.isDrained = true ∧
      Runs .empty [.issue 16, .commit, .issue 8, .waitAll] q' ∧
      q'.waitGroup 0 = q'.waitAll ∧ (q'.commit >>= fun c => c.2.waitGroup 0) ≠ q'.waitAll := by
  intro q q'
  have h : Runs .empty [.issue 16, .commit, .issue 8] q :=
    .cons (.issue ⟨_, rfl, nofun⟩) (.cons (.commit ⟨_, rfl, nofun⟩)
      (.cons (.issue ⟨_, rfl, nofun⟩) .nil))
  have h' : Runs .empty [.issue 16, .commit, .issue 8, .waitAll] q' :=
    .cons (.issue ⟨_, rfl, nofun⟩) (.cons (.commit ⟨_, rfl, nofun⟩)
      (.cons (.issue ⟨_, rfl, nofun⟩) (.cons (.waitAll ⟨_, rfl, nofun⟩) .nil)))
  obtain ⟨hcommit, -, hwait, -⟩ := runs_drain h
  obtain ⟨q₁, hall, hdrained, rfl⟩ := hwait (.inr (by decide))
  have heq := hcommit.mpr (by decide)
  obtain ⟨hcommit', hwait', -⟩ := runs_drain h'
  refine ⟨h, heq.trans hall, hall, hdrained, h', hwait'.mpr rfl, fun heq' => ?_⟩
  exact absurd (hcommit'.mp heq') (by decide)

end CopyQueue

end TensorLoops
