import Mathlib.Algebra.GroupWithZero.Nat
import Mathlib.Data.List.Nodup
import TensorLoops.Copy.Queue
import TensorLoops.Proofs.Checked

/-!
# Proofs — Copy — Conservation

Nothing is lost in the copy queue.  The groups ever made are the completed ones followed by the
pending ones (`CopyQueue.groups`).  An operation leaves them as they are or puts one more behind
them, and what it has issued is found in the groups or in the open batch (`Conserves`).  The
operations of a run add up (`Runs.conserves`), so from the empty queue the ids are `0, 1, 2, ..` in
order and every copy and every byte is accounted for.

What a call gives and what it leaves, whether it succeeds or not, is said once for each of them
(`run_issue`, `run_commit`, `run_waitGroup`, `run_waitAll`).  A wait takes the oldest group off
again and again (`popOldest`), which comes to cutting the pending groups in two (`popOldest_eq`).
-/

namespace TensorLoops

namespace CopyEvent

/-- The copies that an operation issues. -/
def copies : CopyEvent → Nat
  | .issue _ => 1
  | _        => 0

/-- The bytes that an operation issues. -/
def bytes : CopyEvent → Nat
  | .issue bytes => bytes
  | _            => 0

end CopyEvent

namespace CopyQueue

/-- Every group made so far, oldest first. -/
def groups (q : CopyQueue) : List CopyGroup := q.completed ++ q.pending

/-- The copies in groups and in the open batch. -/
def copies (q : CopyQueue) : Nat := (q.groups.map (·.copies)).sum + q.openCopies

/-- The bytes in groups and in the open batch. -/
def bytes (q : CopyQueue) : Nat := (q.groups.map (·.bytes)).sum + q.openBytes

/-- The groups are numbered in the order in which they were made. -/
def Numbered (q : CopyQueue) : Prop := q.groups.map (·.id) = List.range q.nextGroup

/-! ### What a call does -/

/-- The queue with the oldest groups retired, so that at most `n` are pending, and these groups. -/
def retire (q : CopyQueue) (n : Nat) : List CopyGroup × CopyQueue :=
  let done := q.pending.take (q.pending.length - n)
  (done, { q with
    pending := q.pending.drop (q.pending.length - n), completed := q.completed ++ done })

/-- The queue with its open batch closed. -/
def committed (q : CopyQueue) : CopyQueue :=
  ⟨0, 0, q.pending ++ [⟨q.nextGroup, q.openCopies, q.openBytes⟩], q.completed, q.nextGroup + 1⟩

/-- Taking the oldest group off until at most `n` are left takes those that are too many. -/
theorem popOldest_eq (n : Nat) (retired groups : List CopyGroup) :
    Update.popOldest n retired groups =
      (retired ++ groups.take (groups.length - n), groups.drop (groups.length - n)) := by
  induction groups generalizing retired with
  | nil => simp [Update.popOldest]
  | cons g gs ih =>
      rw [Update.popOldest]
      by_cases hn : n < (g :: gs).length
      · have hcount : (g :: gs).length - n = gs.length - n + 1 := by
          rw [List.length_cons] at hn ⊢
          omega
        rw [if_pos hn, ih, hcount, List.take_succ_cons, List.drop_succ_cons, List.append_assoc,
          List.singleton_append]
      · have hcount : (g :: gs).length - n = 0 := by omega
        rw [if_neg hn, hcount, List.take_zero, List.drop_zero, List.append_nil]

/-- A copy is counted before its bytes are. -/
theorem run_issue (bytes : Nat) (q : CopyQueue) : (Update.issue bytes).run.run q =
    if q.openCopies + 1 < Word.limit then
      if q.openBytes + bytes < Word.limit then
        (.ok (), { q with openCopies := q.openCopies + 1, openBytes := q.openBytes + bytes })
      else (.error (.arithmetic .addOverflow), { q with openCopies := q.openCopies + 1 })
    else (.error (.arithmetic .addOverflow), q) := by
  show (MonadExcept.ofExcept (Word.add q.openCopies 1) >>= (_ : Nat → Update Unit)).run.run q = _
  rw [Word.add]
  by_cases hcopies : q.openCopies + 1 < Word.limit
  · rw [if_pos hcopies, if_pos hcopies]
    show (MonadExcept.ofExcept (Word.add q.openBytes bytes) >>=
      (_ : Nat → Update Unit)).run.run _ = _
    rw [Word.add]
    by_cases hbytes : q.openBytes + bytes < Word.limit
    · rw [if_pos hbytes, if_pos hbytes]
      rfl
    · rw [if_neg hbytes, if_neg hbytes]
      rfl
  · rw [if_neg hcopies, if_neg hcopies]
    rfl

/-- A commit closes the open batch, unless the numbers are used up. -/
theorem run_commit (q : CopyQueue) : Update.commit.run.run q =
    if q.nextGroup + 1 < Word.limit then (.ok q.nextGroup, q.committed)
    else (.error (.arithmetic .addOverflow), q) := by
  show (MonadExcept.ofExcept (Word.add q.nextGroup 1) >>= (_ : Nat → Update Nat)).run.run q = _
  rw [Word.add]
  by_cases hnext : q.nextGroup + 1 < Word.limit
  · rw [if_pos hnext, if_pos hnext]
    rfl
  · rw [if_neg hnext, if_neg hnext]
    rfl

/-- A wait retires the oldest groups.  One that asks to keep too many pending is refused, and leaves
the queue as it was. -/
theorem run_waitGroup (n : Nat) (q : CopyQueue) : (Update.waitGroup n).run.run q =
    if waitLimit ≤ n then (.error (.replay (.waitCount waitLimit n)), q)
    else (.ok (q.retire n).1, (q.retire n).2) := by
  rw [Update.waitGroup]
  by_cases hn : waitLimit ≤ n
  · rw [if_pos hn, if_pos hn]
    rfl
  · rw [if_neg hn, if_neg hn]
    show ((.ok (Update.popOldest n [] q.pending).1, { q with
      pending := (Update.popOldest n [] q.pending).2,
      completed := q.completed ++ (Update.popOldest n [] q.pending).1 }) : Except Error _ × _) = _
    rw [popOldest_eq]
    rfl

theorem retire_zero (q : CopyQueue) :
    q.retire 0 = (q.pending, { q with pending := [], completed := q.completed ++ q.pending }) := by
  simp only [retire, Nat.sub_zero, List.take_length, List.drop_length]

/-- Waiting for everything drains the queue, after a commit if a copy is open. -/
theorem run_waitAll (q : CopyQueue) : Update.waitAll.run.run q =
    if 0 < q.openCopies then
      if q.nextGroup + 1 < Word.limit then
        (.ok (q.committed.retire 0).1, (q.committed.retire 0).2)
      else (.error (.arithmetic .addOverflow), q)
    else (.ok (q.retire 0).1, (q.retire 0).2) := by
  rw [retire_zero, retire_zero]
  show (if 0 < q.openCopies then discard Update.commit >>= (_ : Unit → Update (List CopyGroup))
    else (_ : Update (List CopyGroup))).run.run q = _
  by_cases hopen : 0 < q.openCopies
  · rw [if_pos hopen, if_pos hopen, ExceptT.run_bind, StateT.run_bind, run_discard, run_commit]
    by_cases hnext : q.nextGroup + 1 < Word.limit
    · rw [if_pos hnext, if_pos hnext]
      rfl
    · rw [if_neg hnext, if_neg hnext]
      rfl
  · rw [if_neg hopen, if_neg hopen]
    rfl

/-! ### What a call gives -/

section Results

variable {q q' : CopyQueue} {n : Nat}

/-- A copy is issued as long as copies and bytes can be counted. -/
theorem issue_of_lt {bytes : Nat} (hcopies : q.openCopies + 1 < Word.limit)
    (hbytes : q.openBytes + bytes < Word.limit) : q.issue bytes =
      .ok { q with openCopies := q.openCopies + 1, openBytes := q.openBytes + bytes } := by
  rw [issue, resultOf_eq_ok.mpr]
  · rfl
  · rw [run_issue, if_pos hcopies, if_pos hbytes]

theorem commit_of_lt (h : q.nextGroup + 1 < Word.limit) :
    q.commit = .ok (q.nextGroup, q.committed) := by
  refine resultOf_eq_ok.mpr ?_
  rw [run_commit, if_pos h]

theorem commit_of_not_lt (h : ¬ q.nextGroup + 1 < Word.limit) :
    q.commit = .error (.arithmetic .addOverflow) := by
  refine resultOf_eq_error.mpr ⟨q, ?_⟩
  rw [run_commit, if_neg h]

theorem commit_eq_ok {id : Nat} (h : q.commit = .ok (id, q')) : q' = q.committed := by
  by_cases hnext : q.nextGroup + 1 < Word.limit
  · rw [commit_of_lt hnext] at h
    exact (Prod.mk.inj (Except.ok.inj h)).2.symm
  · rw [commit_of_not_lt hnext] at h
    cases h

theorem waitGroup_of_lt (hn : n < waitLimit) : q.waitGroup n = .ok (q.retire n) := by
  refine resultOf_eq_ok.mpr ?_
  rw [run_waitGroup, if_neg (Nat.not_le_of_lt hn)]
  rfl

theorem waitGroup_of_le (hn : waitLimit ≤ n) :
    q.waitGroup n = .error (.replay (.waitCount waitLimit n)) := by
  refine resultOf_eq_error.mpr ⟨q, ?_⟩
  rw [run_waitGroup, if_pos hn]

end Results

/-! ### Runs -/

/-- The call returns, with a result or refused, and leaves `q'`. -/
def Returns {α : Type} (call : Update α) (q q' : CopyQueue) : Prop :=
  ∃ r, call.run.run q = (r, q') ∧ ∀ a, r ≠ .error (.arithmetic a)

/-- One operation, called by itself or by way of `apply`, leads from `q` to `q'`. -/
inductive Performs (q : CopyQueue) : CopyEvent → CopyQueue → Prop where
  | issue {bytes q'} : Returns (Update.issue bytes) q q' → Performs q (.issue bytes) q'
  | commit {q'} : Returns Update.commit q q' → Performs q .commit q'
  | waitGroup {n q'} : Returns (Update.waitGroup n) q q' → Performs q (.waitGroup n) q'
  | waitAll {q'} : Returns Update.waitAll q q' → Performs q .waitAll q'
  | apply {event q'} : Returns (Update.apply event) q q' → Performs q event q'

/-- Operations performed one after another. -/
inductive Runs : CopyQueue → List CopyEvent → CopyQueue → Prop where
  | nil {q} : Runs q [] q
  | cons {q event q₁ events q'} : Performs q event q₁ → Runs q₁ events q' →
      Runs q (event :: events) q'

variable {q q' q₁ : CopyQueue} {n : Nat} {done : List CopyGroup}

/-- Dropping the result of a call does not change what it leaves. -/
theorem returns_discard {α : Type} {call : Update α} :
    Returns (discard call) q q' ↔ Returns call q q' := by
  rw [Returns, Returns, run_discard]
  match call.run.run q with
  | (.ok a, q₁) =>
      constructor
      · rintro ⟨_, ⟨⟩, -⟩
        exact ⟨_, rfl, by rintro _ ⟨⟩⟩
      · rintro ⟨_, ⟨⟩, -⟩
        exact ⟨_, rfl, by rintro _ ⟨⟩⟩
  | (.error e, q₁) =>
      constructor
      · rintro ⟨_, ⟨⟩, h⟩
        exact ⟨_, rfl, fun a ha => h a (congrArg _ (Except.error.inj ha))⟩
      · rintro ⟨_, ⟨⟩, h⟩
        exact ⟨_, rfl, fun a ha => h a (congrArg _ (Except.error.inj ha))⟩

/-- An issue that returns has counted its copy and its bytes. -/
theorem issue_returns {bytes : Nat} (h : Returns (Update.issue bytes) q q') :
    q' = { q with openCopies := q.openCopies + 1, openBytes := q.openBytes + bytes } := by
  obtain ⟨r, h, hr⟩ := h
  rw [run_issue] at h
  split at h
  · split at h
    · exact (Prod.mk.inj h).2.symm
    · exact absurd (Prod.mk.inj h).1.symm (hr _)
  · exact absurd (Prod.mk.inj h).1.symm (hr _)

theorem commit_returns (h : Returns Update.commit q q') : q' = q.committed := by
  obtain ⟨r, h, hr⟩ := h
  rw [run_commit] at h
  split at h
  · exact (Prod.mk.inj h).2.symm
  · exact absurd (Prod.mk.inj h).1.symm (hr _)

/-- A wait that returns has retired groups, or was refused and has done nothing. -/
theorem waitGroup_returns : Returns (Update.waitGroup n) q q' ↔
    q' = if waitLimit ≤ n then q else (q.retire n).2 := by
  rw [Returns, run_waitGroup]
  split
  · constructor
    · rintro ⟨_, ⟨⟩, -⟩
      rfl
    · rintro rfl
      exact ⟨_, rfl, by rintro _ ⟨⟩⟩
  · constructor
    · rintro ⟨_, ⟨⟩, -⟩
      rfl
    · rintro rfl
      exact ⟨_, rfl, by rintro _ ⟨⟩⟩

/-- Waiting for everything retires all groups, that of the open batch among them. -/
theorem waitAll_returns (h : Returns Update.waitAll q q') :
    q' = ((if 0 < q.openCopies then q.committed else q).retire 0).2 := by
  obtain ⟨r, h, hr⟩ := h
  rw [run_waitAll] at h
  split at h
  · rename_i hopen
    rw [if_pos hopen]
    split at h
    · exact (Prod.mk.inj h).2.symm
    · exact absurd (Prod.mk.inj h).1.symm (hr _)
  · rename_i hopen
    rw [if_neg hopen]
    exact (Prod.mk.inj h).2.symm

/-- What an operation leaves does not depend on the way it is called. -/
theorem Performs.of_apply {event : CopyEvent} (h : Performs q event q') :
    Returns (Update.apply event) q q' := by
  cases h with
  | issue h => exact h
  | commit h => exact returns_discard.mpr h
  | waitGroup h => exact returns_discard.mpr h
  | waitAll h => exact returns_discard.mpr h
  | apply h => exact h

/-! ### What an operation keeps -/

/-- From `q` to `q'` the groups only gained members, completed ones stayed completed, and `copies`
and `bytes` were issued. -/
structure Conserves (q : CopyQueue) (copies bytes : Nat) (q' : CopyQueue) : Prop where
  numbered  : q.Numbered → q'.Numbered
  groups    : q.groups <+: q'.groups
  completed : q.completed <+: q'.completed
  copies    : q'.copies = q.copies + copies
  bytes     : q'.bytes = q.bytes + bytes

theorem Conserves.refl (q : CopyQueue) : Conserves q 0 0 q :=
  ⟨id, List.prefix_refl _, List.prefix_refl _, rfl, rfl⟩

theorem Conserves.trans {c b c' b' : Nat} (h : Conserves q c b q₁) (h' : Conserves q₁ c' b' q') :
    Conserves q (c + c') (b + b') q' where
  numbered  := fun hq => h'.numbered (h.numbered hq)
  groups    := h.groups.trans h'.groups
  completed := h.completed.trans h'.completed
  copies    := by rw [h'.copies, h.copies, Nat.add_assoc]
  bytes     := by rw [h'.bytes, h.bytes, Nat.add_assoc]

theorem issue_conserves (q : CopyQueue) (bytes : Nat) : Conserves q 1 bytes
    { q with openCopies := q.openCopies + 1, openBytes := q.openBytes + bytes } := by
  refine ⟨id, List.prefix_refl _, List.prefix_refl _, ?_, ?_⟩
  · simp only [CopyQueue.copies, groups, Nat.add_assoc]
  · simp only [CopyQueue.bytes, groups, Nat.add_assoc]

/-- Closing the batch moves what it holds into a group. -/
theorem committed_conserves (q : CopyQueue) : Conserves q 0 0 q.committed := by
  -- the open batch becomes the last group, under the next number
  refine ⟨fun hq => ?_, ?_, List.prefix_refl _, ?_, ?_⟩
  · simp only [Numbered, groups, committed] at hq ⊢
    rw [← List.append_assoc, List.map_append, hq, List.range_succ]
    rfl
  · simp [groups, committed, ← List.append_assoc]
  · simp [CopyQueue.copies, groups, committed, Nat.add_assoc]
  · simp [CopyQueue.bytes, groups, committed, Nat.add_assoc]

/-- Retiring moves groups from the front of the pending ones to the back of the completed ones. -/
theorem groups_retire (q : CopyQueue) (n : Nat) : (q.retire n).2.groups = q.groups := by
  simp only [groups, retire]
  rw [List.append_assoc, List.take_append_drop]

/-- Retiring groups changes neither the groups nor the batch. -/
theorem retire_conserves (q : CopyQueue) (n : Nat) : Conserves q 0 0 (q.retire n).2 := by
  refine ⟨fun hq => ?_, ?_, List.prefix_append _ _, ?_, ?_⟩
  · rw [Numbered, groups_retire]
    exact hq
  · exact (groups_retire q n).symm ▸ List.prefix_refl q.groups
  · simp only [CopyQueue.copies, groups_retire]
    rfl
  · simp only [CopyQueue.bytes, groups_retire]
    rfl

/-! ### What a run keeps -/

/-- An operation conserves what it issues. -/
theorem Performs.conserves {event : CopyEvent} (h : Performs q event q') :
    Conserves q event.copies event.bytes q' := by
  have h := h.of_apply
  cases event with
  | issue bytes =>
      obtain rfl := issue_returns h
      exact issue_conserves q bytes
  | commit =>
      obtain rfl := commit_returns (returns_discard.mp h)
      exact committed_conserves q
  | waitGroup n =>
      obtain rfl := waitGroup_returns.mp (returns_discard.mp h)
      split
      · exact .refl q
      · exact retire_conserves q n
  | waitAll =>
      obtain rfl := waitAll_returns (returns_discard.mp h)
      split
      · exact (committed_conserves q).trans (retire_conserves q.committed 0)
      · exact retire_conserves q 0

/-- **A run conserves what its operations issue.** -/
theorem Runs.conserves {events : List CopyEvent} (h : Runs q events q') :
    Conserves q (events.map (·.copies)).sum (events.map (·.bytes)).sum q' := by
  induction h with
  | nil => exact .refl _
  | cons h _ ih =>
      rw [List.map_cons, List.map_cons, List.sum_cons, List.sum_cons]
      exact h.conserves.trans ih

/-- A refused wait changes nothing, however it is asked for. -/
theorem performs_refused_iff (hn : waitLimit ≤ n) : Performs q (.waitGroup n) q' ↔ q' = q := by
  have hreturns : Returns (Update.waitGroup n) q q' ↔ q' = q := by
    rw [waitGroup_returns, if_pos hn]
  exact ⟨fun h => hreturns.mp (returns_discard.mp h.of_apply), fun h => .waitGroup (hreturns.mpr h)⟩

/-- Groups with one number are one group. -/
theorem Numbered.eq_of_id_eq (hq : q.Numbered) {g g' : CopyGroup} (hg : g ∈ q.groups)
    (hg' : g' ∈ q.groups) (hid : g.id = g'.id) : g = g' := by
  have hnodup : (q.groups.map (·.id)).Nodup := by
    rw [hq]
    exact List.nodup_range
  exact List.inj_on_of_nodup_map hnodup hg hg' hid

/-- A wait leaves the newest groups and returns the others, oldest first. -/
theorem retire_pending (q : CopyQueue) (n : Nat) :
    q.pending = (q.retire n).1 ++ (q.retire n).2.pending ∧
      (q.retire n).2.pending.length = min n q.pending.length ∧
      (q.retire n).2.completed = q.completed ++ (q.retire n).1 := by
  refine ⟨(List.take_append_drop _ _).symm, ?_, rfl⟩
  simp only [retire, List.length_drop]
  omega

/-- **Conservation and order.**  After any operations from the empty queue the groups are numbered
in order and hold, with the open batch, all that was issued.  Whatever comes later, a group stays
what it is and stays completed once it is.  A wait for fewer than ten groups leaves the newest of
them pending, at most as many as it says, and returns the others; any other wait is refused. -/
theorem runs_conserve {events later : List CopyEvent} (h : Runs .empty events q)
    (h' : Runs q later q') :
    (q.completed ++ q.pending).map (·.id) = List.range q.nextGroup ∧
    ((q.completed ++ q.pending).map (·.copies)).sum + q.openCopies =
      (events.map (·.copies)).sum ∧
    ((q.completed ++ q.pending).map (·.bytes)).sum + q.openBytes = (events.map (·.bytes)).sum ∧
    (∀ g ∈ q.completed ++ q.pending, g ∈ q'.completed ++ q'.pending ∧
      ∀ g' ∈ q'.completed ++ q'.pending, g'.id = g.id → g' = g) ∧
    q.completed <+: q'.completed ∧
    (∀ n, n < 10 → ∃ done q₁, q.waitGroup n = .ok (done, q₁) ∧ q.pending = done ++ q₁.pending ∧
      q₁.pending.length = min n q.pending.length ∧ q₁.completed = q.completed ++ done) ∧
    ∀ n, 10 ≤ n → (∃ e, q.waitGroup n = .error e) ∧
      ∀ q₁, Performs q (.waitGroup n) q₁ ↔ q₁ = q := by
  have hrun := h.conserves
  have hlater := h'.conserves
  have hq : q.Numbered := hrun.numbered rfl
  have hcopies := hrun.copies
  have hbytes := hrun.bytes
  refine ⟨hq, ?_, ?_, fun g hg => ⟨hlater.groups.subset hg, fun g' hg' hid => ?_⟩,
    hlater.completed, fun n hn => ?_, fun n hn => ⟨?_, fun q₁ => ?_⟩⟩
  · simpa [CopyQueue.copies, groups, empty] using hcopies
  · simpa [CopyQueue.bytes, groups, empty] using hbytes
  · exact (hlater.numbered hq).eq_of_id_eq hg' (hlater.groups.subset hg) hid
  · exact ⟨_, _, waitGroup_of_lt hn, retire_pending q n⟩
  · exact ⟨_, waitGroup_of_le hn⟩
  · exact performs_refused_iff hn

/-- Two groups, an open copy and a refused wait; then a wait that retires the older group, and one
that closes the open batch. -/
theorem runs_conserve_twoGroups :
    let events : List CopyEvent := [.issue 16, .commit, .issue 4, .issue 4, .commit, .issue 8,
      .waitGroup 12]
    let q : CopyQueue := ⟨1, 8, [⟨0, 1, 16⟩, ⟨1, 2, 8⟩], [], 2⟩
    let q' : CopyQueue := ⟨0, 0, [], [⟨0, 1, 16⟩, ⟨1, 2, 8⟩, ⟨2, 1, 8⟩], 3⟩
    Runs .empty events q ∧ Runs q [.waitGroup 1, .waitAll] q' ∧
      (q.completed ++ q.pending).map (·.id) = List.range 2 ∧
      ((q.completed ++ q.pending).map (·.bytes)).sum + q.openBytes = (events.map (·.bytes)).sum ∧
      q.completed <+: q'.completed := by
  intro events q q'
  have h : Runs .empty events q :=
    .cons (.issue ⟨_, rfl, nofun⟩) (.cons (.commit ⟨_, rfl, nofun⟩)
      (.cons (.apply ⟨_, rfl, nofun⟩) (.cons (.apply ⟨_, rfl, nofun⟩)
        (.cons (.apply ⟨_, rfl, nofun⟩) (.cons (.issue ⟨_, rfl, nofun⟩)
          (.cons (.waitGroup ⟨_, rfl, nofun⟩) .nil))))))
  have h' : Runs q [.waitGroup 1, .waitAll] q' :=
    .cons (.waitGroup ⟨_, rfl, nofun⟩) (.cons (.waitAll ⟨_, rfl, nofun⟩) .nil)
  obtain ⟨hids, -, hbytes, -, hcompleted, -⟩ := runs_conserve h h'
  exact ⟨h, h', hids, hbytes, hcompleted⟩

end CopyQueue

end TensorLoops
