import TensorLoops.Matmul.Schedule
import TensorLoops.Proofs.Device.Entries

/-!
# Proofs — Matmul — Outcome

How building a schedule ends.  A constraint that fails puts the schedule into words first, and a
schedule that fails none has its threads and its shared memory computed on the way.  So whatever
the parameters are, building comes to the same as describing the schedule and then naming the first
constraint that it violates (`make_eq`).

The description needs the quantities that follow from the parameters.  Where these are words
(`Measured`) the outcome is a schedule or a violated constraint, and a caller can go on to the next
candidate.  Where they are not it is an arithmetic failure, also if the constraint that was to be
reported is the very one that forbids the division.
-/

namespace TensorLoops

namespace Word

theorem add_eq_error {a b : Nat} {e : Error} (h : add a b = .error e) :
    limit ≤ a + b ∧ e = .arithmetic .addOverflow := by
  unfold add at h
  split at h
  · cases h
  · exact ⟨Nat.le_of_not_lt ‹_›, (Except.error.inj h).symm⟩

theorem mul_eq_error {a b : Nat} {e : Error} (h : mul a b = .error e) :
    limit ≤ a * b ∧ e = .arithmetic .mulOverflow := by
  unfold mul at h
  split at h
  · cases h
  · exact ⟨Nat.le_of_not_lt ‹_›, (Except.error.inj h).symm⟩

/-- A quotient fails for a divisor of zero. -/
theorem div_eq_error {a b : Nat} {e : Error} (h : div a b = .error e) :
    b = 0 ∧ e = .arithmetic .divideByZero := by
  unfold div at h
  split at h
  · exact ⟨‹b = 0›, (Except.error.inj h).symm⟩
  · cases h

end Word

namespace Schedule

variable {s : Schedule}

/-! ### Quantities of a schedule -/

/-- Warps of a block, counted without a limit. -/
def warpCount (s : Schedule) : Nat := s.blockM / s.warpM * (s.blockN / s.warpN)

/-- Elements of both slices, for all stages. -/
def stagedCount (s : Schedule) : Nat := (s.blockM + s.blockN) * s.blockK * s.stages

/-- What follows from the parameters is defined and can be counted in words, each step of the way
included. -/
structure Measured (s : Schedule) : Prop where
  warpM   : s.warpM ≠ 0
  warpN   : s.warpN ≠ 0
  warps   : s.warpCount < Word.limit
  threads : s.warpCount * s.target.warpSize < Word.limit
  rows    : s.blockM + s.blockN < Word.limit
  stage   : (s.blockM + s.blockN) * s.blockK < Word.limit
  staged  : s.stagedCount < Word.limit
  bytes   : s.stagedCount * s.shape.input.bytes < Word.limit

/-- Warps are counted where the warp tile is not empty and their number is a word. -/
theorem warps_eq_ok {n : Nat} : s.warps = .ok n ↔
    s.warpM ≠ 0 ∧ s.warpN ≠ 0 ∧ s.warpCount < Word.limit ∧ n = s.warpCount := by
  unfold warps
  simp only [bind_eq_ok, Word.div_eq_ok, Word.mul_eq_ok]
  constructor
  · rintro ⟨_, ⟨hm, rfl⟩, _, ⟨hn, rfl⟩, hlt, rfl⟩
    exact ⟨hm, hn, hlt, rfl⟩
  · rintro ⟨hm, hn, hlt, rfl⟩
    exact ⟨_, ⟨hm, rfl⟩, _, ⟨hn, rfl⟩, hlt, rfl⟩

/-- Threads are counted where warps are and their number is a word as well. -/
theorem threads_eq_ok {n : Nat} : s.threads = .ok n ↔
    s.warpM ≠ 0 ∧ s.warpN ≠ 0 ∧ s.warpCount < Word.limit ∧
      s.warpCount * s.target.warpSize < Word.limit ∧ n = s.warpCount * s.target.warpSize := by
  unfold threads
  simp only [bind_eq_ok, warps_eq_ok, Word.mul_eq_ok]
  constructor
  · rintro ⟨_, ⟨hm, hn, hwarps, rfl⟩, hlt, rfl⟩
    exact ⟨hm, hn, hwarps, hlt, rfl⟩
  · rintro ⟨hm, hn, hwarps, hlt, rfl⟩
    exact ⟨_, ⟨hm, hn, hwarps, rfl⟩, hlt, rfl⟩

/-- Shared memory is measured where every product on the way is a word. -/
theorem sharedBytes_eq_ok {n : Nat} : s.sharedBytes = .ok n ↔
    s.blockM + s.blockN < Word.limit ∧ (s.blockM + s.blockN) * s.blockK < Word.limit ∧
      s.stagedCount < Word.limit ∧ s.stagedCount * s.shape.input.bytes < Word.limit ∧
      n = s.stagedCount * s.shape.input.bytes := by
  unfold sharedBytes
  simp only [bind_eq_ok, Word.add_eq_ok, Word.mul_eq_ok]
  constructor
  · rintro ⟨_, ⟨hrows, rfl⟩, _, ⟨hstage, rfl⟩, _, ⟨hstaged, rfl⟩, hlt, rfl⟩
    exact ⟨hrows, hstage, hstaged, hlt, rfl⟩
  · rintro ⟨hrows, hstage, hstaged, hlt, rfl⟩
    exact ⟨_, ⟨hrows, rfl⟩, _, ⟨hstage, rfl⟩, _, ⟨hstaged, rfl⟩, hlt, rfl⟩

/-- The words for a schedule whose quantities exist. -/
def words (s : Schedule) : ScheduleText :=
  ⟨"MatmulSchedule", s.keys,
    [("threads", toString (s.warpCount * s.target.warpSize)),
      ("smem_bytes", toString (s.stagedCount * s.shape.input.bytes))]⟩

/-- A schedule is described where it is measured. -/
theorem describe_eq_ok {d : ScheduleText} : s.describe = .ok d ↔ s.Measured ∧ d = s.words := by
  unfold describe
  simp only [bind_eq_ok, threads_eq_ok, sharedBytes_eq_ok, pure_eq_ok]
  constructor
  · rintro ⟨_, ⟨hm, hn, hwarps, hthreads, rfl⟩, _, ⟨hrows, hstage, hstaged, hbytes, rfl⟩, rfl⟩
    exact ⟨⟨hm, hn, hwarps, hthreads, hrows, hstage, hstaged, hbytes⟩, rfl⟩
  · rintro ⟨⟨hm, hn, hwarps, hthreads, hrows, hstage, hstaged, hbytes⟩, rfl⟩
    exact ⟨_, ⟨hm, hn, hwarps, hthreads, rfl⟩, _, ⟨hrows, hstage, hstaged, hbytes, rfl⟩, rfl⟩

/-! ### How quantities fail -/

/-- The numbers that are multiplied on the way to the quantities of a schedule come to these. -/
def products (s : Schedule) : List Nat :=
  [s.warpCount, s.warpCount * s.target.warpSize, (s.blockM + s.blockN) * s.blockK, s.stagedCount,
    s.stagedCount * s.shape.input.bytes]

/-- The arithmetic failures of a schedule: a division by a warp tile without extent, and otherwise a
sum or a product that is no word. -/
inductive Fails (s : Schedule) : Error → Prop where
  | division : s.warpM = 0 ∨ s.warpN = 0 → Fails s (.arithmetic .divideByZero)
  | sum : s.warpM ≠ 0 → s.warpN ≠ 0 → Word.limit ≤ s.blockM + s.blockN →
      Fails s (.arithmetic .addOverflow)
  | product {n} : s.warpM ≠ 0 → s.warpN ≠ 0 → n ∈ s.products → Word.limit ≤ n →
      Fails s (.arithmetic .mulOverflow)

/-- Counting threads fails as a schedule does. -/
theorem threads_fails {e : Error} (h : s.threads = .error e) : s.Fails e := by
  rcases bind_eq_error.mp h with h | ⟨_, hwarps, h⟩
  · rcases bind_eq_error.mp h with h | ⟨_, hdown, h⟩
    · obtain ⟨hm, rfl⟩ := Word.div_eq_error h
      exact .division (.inl hm)
    · rcases bind_eq_error.mp h with h | ⟨_, hacross, h⟩
      · obtain ⟨hn, rfl⟩ := Word.div_eq_error h
        exact .division (.inr hn)
      · obtain ⟨hm, rfl⟩ := Word.div_eq_ok.mp hdown
        obtain ⟨hn, rfl⟩ := Word.div_eq_ok.mp hacross
        obtain ⟨hle, rfl⟩ := Word.mul_eq_error h
        exact .product hm hn (n := s.warpCount) (by simp [products]) hle
  · obtain ⟨hm, hn, -, rfl⟩ := warps_eq_ok.mp hwarps
    obtain ⟨hle, rfl⟩ := Word.mul_eq_error h
    exact .product hm hn (n := s.warpCount * s.target.warpSize) (by simp [products]) hle

/-- Measuring shared memory fails as a schedule does. -/
theorem sharedBytes_fails {e : Error} (hm : s.warpM ≠ 0) (hn : s.warpN ≠ 0)
    (h : s.sharedBytes = .error e) : s.Fails e := by
  rcases bind_eq_error.mp h with h | ⟨_, hrows, h⟩
  · obtain ⟨hle, rfl⟩ := Word.add_eq_error h
    exact .sum hm hn hle
  · obtain ⟨-, rfl⟩ := Word.add_eq_ok.mp hrows
    have hproduct : ∀ {n}, n ∈ s.products → Word.limit ≤ n → s.Fails (.arithmetic .mulOverflow) :=
      .product hm hn
    rcases bind_eq_error.mp h with h | ⟨_, hstage, h⟩
    · obtain ⟨hle, rfl⟩ := Word.mul_eq_error h
      exact hproduct (by simp [products]) hle
    · obtain ⟨-, rfl⟩ := Word.mul_eq_ok.mp hstage
      rcases bind_eq_error.mp h with h | ⟨_, hstaged, h⟩
      · obtain ⟨hle, rfl⟩ := Word.mul_eq_error h
        exact hproduct (n := s.stagedCount) (by simp [products]) hle
      · obtain ⟨-, rfl⟩ := Word.mul_eq_ok.mp hstaged
        obtain ⟨hle, rfl⟩ := Word.mul_eq_error h
        exact hproduct (n := s.stagedCount * s.shape.input.bytes) (by simp [products]) hle

theorem describe_fails {e : Error} (h : s.describe = .error e) : s.Fails e := by
  rcases bind_eq_error.mp h with h | ⟨_, hthreads, h⟩
  · exact threads_fails h
  · obtain ⟨hm, hn, -⟩ := threads_eq_ok.mp hthreads
    rcases bind_eq_error.mp h with h | ⟨_, -, h⟩
    · exact sharedBytes_fails hm hn h
    · cases h

theorem Fails.not_recoverable {e : Error} (h : s.Fails e) : e.isRecoverable = false := by
  cases h with
  | _ => rfl

/-! ### The verdict on a schedule -/

/-- Whether a schedule meets a constraint. -/
def meets (s : Schedule) : Constraint → Bool
  | .tileSizes            => 0 < s.blockM && 0 < s.blockN && 0 < s.blockK
  | .warpTileSizes        => 0 < s.warpM && 0 < s.warpN
  | .warpTileDivides      => s.warpM ∣ s.blockM ∧ s.warpN ∣ s.blockN
  | .shapeDividesWarpTile => s.shape.m ∣ s.warpM ∧ s.shape.n ∣ s.warpN
  | .depthDividesTile     => s.shape.k ∣ s.blockK
  | .stageCount           => 1 ≤ s.stages && s.stages ≤ waitLimit
  | .threadCount          => s.warpCount * s.target.warpSize ≤ s.target.maxThreads
  | .sharedMemory         => s.stagedCount * s.shape.input.bytes ≤ s.target.maxShared
  | _                     => true

/-- The constraints on a schedule, in the order in which they are looked at. -/
def demands : List Constraint :=
  [.tileSizes, .warpTileSizes, .warpTileDivides, .shapeDividesWarpTile, .depthDividesTile,
    .stageCount, .threadCount, .sharedMemory]

/-- The first of the given constraints that the schedule violates is reported in the given words. -/
def verdict (s : Schedule) (d : ScheduleText) : List Constraint → Except Error Schedule
  | []      => .ok s
  | c :: cs => if s.meets c then s.verdict d cs else .error (.schedule d.text c)

/-- A requirement comes first; what follows it matters only where the requirement is met. -/
theorem require_verdict {holds : Bool} {c : Constraint} {cs : List Constraint}
    {rest : Except Error Schedule} (hc : holds = s.meets c)
    (hrest : s.meets c = true → rest = s.describe >>= fun d => s.verdict d cs) :
    (s.require holds c >>= fun _ => rest) = s.describe >>= fun d => s.verdict d (c :: cs) := by
  unfold require
  simp only [verdict, hc]
  cases hmeets : s.meets c with
  | true => exact hrest hmeets
  | false =>
      cases s.describe with
      | ok d => rfl
      | error e => rfl

/-- Two quotients have no remainder. -/
theorem bothMultiples_eq {a b c d : Nat} (hb : b ≠ 0) (hd : d ≠ 0) :
    bothMultiples a b c d = .ok (decide (b ∣ a ∧ d ∣ c)) := by
  simp only [bothMultiples, Word.mod, if_neg hb, if_neg hd, ok_bind, Nat.dvd_iff_mod_eq_zero]
  by_cases ha : a % b = 0
  · simp [ha, pure, Except.pure]
    rfl
  · simp [ha, pure, Except.pure]

/-- **Building a schedule is describing it and naming the first constraint that it violates.** -/
theorem make_eq {target : Target} {blockM blockN blockK warpM warpN stages : Nat} {shape : MmaShape}
    (hm : shape.m ≠ 0) (hn : shape.n ≠ 0) (hk : shape.k ≠ 0)
    (hs : s = ⟨blockM, blockN, blockK, warpM, warpN, stages, shape, target⟩) :
    make target blockM blockN blockK warpM warpN stages shape =
      s.describe >>= fun d => s.verdict d demands := by
  have hthreads : ∀ {e}, s.threads = .error e → s.describe = .error e := by
    intro e h
    rw [describe, h]
    rfl
  have hbytes : ∀ {n e}, s.threads = .ok n → s.sharedBytes = .error e → s.describe = .error e := by
    intro n e ht h
    rw [describe, ht, ok_bind, h]
    rfl
  unfold make
  rw [← hs]
  refine require_verdict (by rw [hs]; rfl) fun _ =>
    require_verdict (by rw [hs]; rfl) fun hwarp => ?_
  -- from here on the warp tile has an extent and can be divided by
  have hpos : warpM ≠ 0 ∧ warpN ≠ 0 := by
    rw [hs] at hwarp
    simpa [meets, Nat.pos_iff_ne_zero] using hwarp
  rw [bothMultiples_eq hpos.1 hpos.2, ok_bind]
  refine require_verdict (by rw [hs]; rfl) fun _ => ?_
  rw [bothMultiples_eq hm hn, ok_bind]
  refine require_verdict (by rw [hs]; rfl) fun _ => ?_
  rw [Word.mod, if_neg hk, ok_bind]
  refine require_verdict (by rw [hs]; simp [meets, Nat.dvd_iff_mod_eq_zero, beq_eq_decide]) fun _ =>
    require_verdict (by rw [hs]; rfl) fun _ => ?_
  cases ht : s.threads with
  | error e =>
      rw [hthreads ht]
      rfl
  | ok n =>
      obtain ⟨-, -, -, -, rfl⟩ := threads_eq_ok.mp ht
      refine require_verdict (by rw [hs]; rfl) fun _ => ?_
      cases hb : s.sharedBytes with
      | error e =>
          rw [hbytes ht hb]
          rfl
      | ok b =>
          obtain ⟨-, -, -, -, rfl⟩ := sharedBytes_eq_ok.mp hb
          refine require_verdict (by rw [hs]; rfl) fun _ => ?_
          rw [describe, ht, ok_bind, hb]
          rfl

/-- A verdict is the schedule, or an error that a caller can go on after. -/
theorem verdict_recoverable (d : ScheduleText) (cs : List Constraint) :
    s.verdict d cs = .ok s ∨ ∃ c ∈ cs, s.verdict d cs = .error (.schedule d.text c) := by
  induction cs with
  | nil => exact .inl rfl
  | cons c cs ih =>
      rw [verdict]
      split
      · refine ih.imp_right ?_
        rintro ⟨c', hc', h⟩
        exact ⟨c', List.mem_cons_of_mem c hc', h⟩
      · exact .inr ⟨c, List.mem_cons_self, rfl⟩

/-- The shapes of the table have an extent in every direction. -/
theorem extents_of_table {shapes : List MmaShape} {x : MmaShape}
    (htable : MmaShape.table = .ok shapes) (hx : x ∈ shapes) : x.m ≠ 0 ∧ x.n ≠ 0 ∧ x.k ≠ 0 := by
  obtain rfl := Except.ok.inj (Device.table_eq.symm.trans htable)
  have hall : ∀ x ∈ Device.shapes, x.m ≠ 0 ∧ x.n ≠ 0 ∧ x.k ≠ 0 := by decide +kernel
  exact hall x hx

/-- **When building a schedule fails recoverably.**  For every target, every shape of the table and
all parameters: the outcome is a schedule or a violated constraint if and only if the quantities
that follow from the parameters are words.  Then it is the first violated constraint that is
reported.  Otherwise it is an arithmetic failure: a division by zero if the warp tile has no extent,
and else the overflow of a sum or a product. -/
theorem make_recovers_iff {shapes : List MmaShape} (htable : MmaShape.table = .ok shapes)
    (s : Schedule) (hshape : s.shape ∈ shapes) :
    (((∃ t, make s.target s.blockM s.blockN s.blockK s.warpM s.warpN s.stages s.shape = .ok t) ∨
        ∃ e, make s.target s.blockM s.blockN s.blockK s.warpM s.warpN s.stages s.shape = .error e ∧
          e.isRecoverable = true) ↔ s.Measured) ∧
    (s.Measured → make s.target s.blockM s.blockN s.blockK s.warpM s.warpN s.stages s.shape =
      s.verdict s.words demands) ∧
    (¬ s.Measured → ∃ e, s.Fails e ∧
      make s.target s.blockM s.blockN s.blockK s.warpM s.warpN s.stages s.shape = .error e) := by
  obtain ⟨hm, hn, hk⟩ := extents_of_table htable hshape
  rw [make_eq hm hn hk (s := s) rfl]
  have hmeasured : s.Measured →
      (s.describe >>= fun d => s.verdict d demands) = s.verdict s.words demands := by
    intro h
    rw [describe_eq_ok.mpr ⟨h, rfl⟩, ok_bind]
  have hfails : ¬ s.Measured → ∃ e, s.Fails e ∧
      (s.describe >>= fun d => s.verdict d demands) = .error e := by
    intro h
    cases hd : s.describe with
    | ok d => exact absurd (describe_eq_ok.mp hd).1 h
    | error e => exact ⟨e, describe_fails hd, rfl⟩
  refine ⟨⟨fun h => ?_, fun h => ?_⟩, hmeasured, hfails⟩
  · by_contra hnot
    obtain ⟨e, he, hmake⟩ := hfails hnot
    rw [hmake] at h
    obtain ⟨t, ht⟩ | ⟨e', he', hrecoverable⟩ := h
    · cases ht
    · obtain rfl := Except.error.inj he'
      exact absurd he.not_recoverable (by simp [hrecoverable])
  · rw [hmeasured h]
    rcases verdict_recoverable s.words demands with hok | ⟨c, -, herror⟩
    · exact .inl ⟨s, hok⟩
    · exact .inr ⟨_, herror, rfl⟩

theorem shapes_ne_nil : Device.shapes ≠ [] := by decide +kernel

/-- Blocks of 64 × 64 × 16 in two stages, for the first shape of the table. -/
def candidate (warpM warpN : Nat) : Schedule :=
  ⟨64, 64, 16, warpM, warpN, 2, Device.shapes.head shapes_ne_nil, .standard⟩

theorem candidate_shape {warpM warpN : Nat} : (candidate warpM warpN).shape ∈ Device.shapes :=
  List.head_mem shapes_ne_nil

/-- A warp tile that does not divide the block is reported as such. -/
theorem make_recovers_iff_candidate :
    (candidate 48 32).Measured ∧
      make .standard 64 64 16 48 32 2 (candidate 48 32).shape =
        .error (.schedule (candidate 48 32).words.text .warpTileDivides) := by
  have hmeasured : (candidate 48 32).Measured := by
    constructor <;> decide +kernel
  exact ⟨hmeasured,
    (make_recovers_iff Device.table_eq (candidate 48 32) candidate_shape).2.1 hmeasured⟩

/-- The warp tile without extent is what the second constraint forbids, but the words for the
violation need the number of warps. -/
theorem make_divides_by_zero :
    MmaShape.table = .ok Device.shapes ∧ (candidate 0 32).shape ∈ Device.shapes ∧
      (candidate 0 32).meets .warpTileSizes = false ∧
      make .standard 64 64 16 0 32 2 (candidate 0 32).shape = .error (.arithmetic .divideByZero) ∧
      (Error.arithmetic .divideByZero).isRecoverable = false :=
  ⟨Device.table_eq, candidate_shape, rfl, rfl, rfl⟩

end Schedule

end TensorLoops
