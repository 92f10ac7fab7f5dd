import Mathlib.Algebra.Order.Floor.Div
import Mathlib.Tactic.Ring
import TensorLoops.Proofs.Copy.Conservation
import TensorLoops.Proofs.Matmul.Outcome

/-!
# Proofs — Matmul — Tiling

Which schedules there are, and how they tile.  Where no product overflows, a schedule is built
exactly if it meets the constraints said in arithmetic (`Schedule.Admitted`).  It then tiles at two
levels without a remainder, warps over the block and instructions over the warp, and the wait
between its stages is one that the copy queue accepts.

A problem is tiled by rounding its sizes up to whole blocks.  Sizes that are no problem at all are
refused as such.  For all others the result is the least number of tiles that covers the problem, in
each direction, if the sum of the size and the block is a word; where it is not, rounding overflows
although the number of tiles itself would be small (`Schedule.RoundsUp`).
-/

namespace TensorLoops

namespace Schedule

variable {s : Schedule}

/-! ### Schedules that are built -/

/-- The constraints on a schedule: tiles that divide one another, few enough stages, and no more
threads and shared memory than the target has. -/
structure Admitted (s : Schedule) : Prop where
  blockM        : 0 < s.blockM
  blockN        : 0 < s.blockN
  blockK        : 0 < s.blockK
  warpDividesM  : s.warpM ∣ s.blockM
  warpDividesN  : s.warpN ∣ s.blockN
  shapeDividesM : s.shape.m ∣ s.warpM
  shapeDividesN : s.shape.n ∣ s.warpN
  shapeDividesK : s.shape.k ∣ s.blockK
  stages        : 1 ≤ s.stages ∧ s.stages ≤ 10
  threads       : s.blockM / s.warpM * (s.blockN / s.warpN) * s.target.warpSize ≤
    s.target.maxThreads
  shared        : (s.blockM + s.blockN) * s.blockK * s.stages * s.shape.input.bytes ≤
    s.target.maxShared

/-- A warp tile that divides a block has an extent. -/
theorem Admitted.warpM (h : s.Admitted) : 0 < s.warpM :=
  Nat.pos_of_dvd_of_pos h.warpDividesM h.blockM

theorem Admitted.warpN (h : s.Admitted) : 0 < s.warpN :=
  Nat.pos_of_dvd_of_pos h.warpDividesN h.blockN

theorem meets_demands_iff : (∀ c ∈ demands, s.meets c = true) ↔ s.Admitted := by
  simp only [demands, List.forall_mem_cons, meets, Bool.and_eq_true, decide_eq_true_eq]
  constructor
  · rintro ⟨⟨⟨hm, hn⟩, hk⟩, -, ⟨hwm, hwn⟩, ⟨hsm, hsn⟩, hsk, hstages, hthreads, hshared, -⟩
    exact ⟨hm, hn, hk, hwm, hwn, hsm, hsn, hsk, hstages, hthreads, hshared⟩
  · intro h
    exact ⟨⟨⟨h.blockM, h.blockN⟩, h.blockK⟩, ⟨h.warpM, h.warpN⟩, ⟨h.warpDividesM, h.warpDividesN⟩,
      ⟨h.shapeDividesM, h.shapeDividesN⟩, h.shapeDividesK, h.stages, h.threads, h.shared,
      List.forall_mem_nil _⟩

/-- A schedule that passes all checks is the verdict. -/
theorem verdict_eq_ok {d : ScheduleText} {cs : List Constraint} {t : Schedule} :
    s.verdict d cs = .ok t ↔ (∀ c ∈ cs, s.meets c = true) ∧ t = s := by
  induction cs with
  | nil =>
      rw [verdict, and_iff_right (List.forall_mem_nil _), Except.ok.injEq]
      exact eq_comm
  | cons c cs ih =>
      rw [verdict, List.forall_mem_cons]
      by_cases hc : s.meets c = true
      · rw [if_pos hc, ih, and_iff_right hc]
      · rw [if_neg hc]
        exact iff_of_false (by simp) fun h => hc h.1.1

/-- A schedule is built if its quantities are words and it meets the constraints. -/
theorem make_eq_ok (hm : s.shape.m ≠ 0) (hn : s.shape.n ≠ 0) (hk : s.shape.k ≠ 0) {t : Schedule} :
    make s.target s.blockM s.blockN s.blockK s.warpM s.warpN s.stages s.shape = .ok t ↔
      s.Measured ∧ s.Admitted ∧ t = s := by
  rw [make_eq hm hn hk (s := s) rfl, bind_eq_ok]
  simp only [describe_eq_ok, verdict_eq_ok, meets_demands_iff]
  constructor
  · rintro ⟨_, ⟨hmeasured, rfl⟩, hadmitted, rfl⟩
    exact ⟨hmeasured, hadmitted, rfl⟩
  · rintro ⟨hmeasured, hadmitted, rfl⟩
    exact ⟨_, ⟨hmeasured, rfl⟩, hadmitted, rfl⟩

/-- Nothing more than the products has to be a word: a block has a depth, so that the sum of its
other sides is no greater than a product. -/
theorem Admitted.measured (h : s.Admitted) (hproducts : ∀ n ∈ s.products, n < Word.limit) :
    s.Measured := by
  simp only [products, List.forall_mem_cons] at hproducts
  obtain ⟨hwarps, hthreads, hstage, hstaged, hbytes, -⟩ := hproducts
  have hrows : s.blockM + s.blockN < Word.limit :=
    Nat.lt_of_le_of_lt (Nat.le_mul_of_pos_right _ h.blockK) hstage
  exact ⟨h.warpM.ne', h.warpN.ne', hwarps, hthreads, hrows, hstage, hstaged, hbytes⟩

/-- Parts of parts make up the whole. -/
theorem tiles_exactly {block warp part : Nat} (hwarp : warp ∣ block) (hpart : part ∣ warp) :
    block / warp * (warp / part) * part = block := by
  rw [Nat.mul_assoc, Nat.div_mul_cancel hpart, Nat.div_mul_cancel hwarp]

/-- The instructions of all warps of a block cover it without a remainder. -/
theorem Admitted.covers (h : s.Admitted) :
    s.warpCount * (s.warpM / s.shape.m) * (s.warpN / s.shape.n) * s.shape.m * s.shape.n =
      s.blockM * s.blockN := by
  calc s.warpCount * (s.warpM / s.shape.m) * (s.warpN / s.shape.n) * s.shape.m * s.shape.n
    _ = s.blockM / s.warpM * (s.warpM / s.shape.m) * s.shape.m *
          (s.blockN / s.warpN * (s.warpN / s.shape.n) * s.shape.n) := by
        rw [warpCount]
        ring
    _ = s.blockM * s.blockN := by
        rw [tiles_exactly h.warpDividesM h.shapeDividesM,
          tiles_exactly h.warpDividesN h.shapeDividesN]

theorem instructionCount_eq (hm : s.shape.m ≠ 0) (hn : s.shape.n ≠ 0) :
    s.instructionCount = .ok (s.warpM / s.shape.m, s.warpN / s.shape.n) := by
  rw [instructionCount, Word.div_eq_ok.mpr ⟨hm, rfl⟩, ok_bind, Word.div_eq_ok.mpr ⟨hn, rfl⟩,
    ok_bind]
  rfl

/-- The groups that may stay pending are fewer than the queue's limit, in every state of it. -/
theorem waitGroup_pendingGroups (hstages : s.stages ≤ 10) (q : CopyQueue) :
    q.waitGroup s.pendingGroups = .ok (q.retire s.pendingGroups) := by
  refine CopyQueue.waitGroup_of_lt ?_
  rw [pendingGroups, waitLimit]
  omega

/-- **The schedules that meet the constraints are built, and they tile exactly.**  For every target,
every shape of the table and all parameters for which no product overflows: the schedule with these
parameters is built if and only if it is admitted, and no other schedule is.  Then warps and
instructions tile the block exactly, threads are lanes of warps, and fewer groups stay pending than
there are stages, which the queue of copies accepts in every state. -/
theorem make_iff_admitted {shapes : List MmaShape} (htable : MmaShape.table = .ok shapes)
    (s : Schedule) (hshape : s.shape ∈ shapes) (hproducts : ∀ n ∈ s.products, n < Word.limit) :
    (∀ t, make s.target s.blockM s.blockN s.blockK s.warpM s.warpN s.stages s.shape = .ok t ↔
      s.Admitted ∧ t = s) ∧
    (s.Admitted → ∃ warps threads down across,
      s.warps = .ok warps ∧ s.threads = .ok threads ∧ s.instructionCount = .ok (down, across) ∧
      warps * down * across * s.shape.m * s.shape.n = s.blockM * s.blockN ∧
      threads = warps * s.target.warpSize ∧
      s.pendingGroups < max s.stages 1 ∧
      ∀ q : CopyQueue, ∃ retired q', q.waitGroup s.pendingGroups = .ok (retired, q')) := by
  obtain ⟨hm, hn, hk⟩ := extents_of_table htable hshape
  refine ⟨fun t => ?built, fun h => ?tiles⟩
  case built =>
    rw [make_eq_ok hm hn hk]
    exact ⟨And.right, fun h => ⟨h.1.measured hproducts, h⟩⟩
  case tiles =>
    have hmeasured := h.measured hproducts
    have hpending : s.pendingGroups < max s.stages 1 := by
      rw [pendingGroups]
      omega
    refine ⟨s.warpCount, s.warpCount * s.target.warpSize, _, _, ?_, ?_, instructionCount_eq hm hn,
      h.covers, rfl, hpending, fun q => ⟨_, _, waitGroup_pendingGroups h.stages.2 q⟩⟩
    · exact warps_eq_ok.mpr ⟨hmeasured.warpM, hmeasured.warpN, hmeasured.warps, rfl⟩
    · exact threads_eq_ok.mpr
        ⟨hmeasured.warpM, hmeasured.warpN, hmeasured.warps, hmeasured.threads, rfl⟩

/-- Warps of 32 × 32 over blocks of 64 × 64 are admitted. -/
theorem candidate_admitted : (candidate 32 32).Admitted := by
  constructor <;> decide +kernel

/-- Four warps, each of two by four instructions. -/
theorem make_iff_admitted_candidate :
    (∀ n ∈ (candidate 32 32).products, n < Word.limit) ∧
      make .standard 64 64 16 32 32 2 (candidate 32 32).shape = .ok (candidate 32 32) ∧
      ∃ warps threads down across, (candidate 32 32).warps = .ok warps ∧
        (candidate 32 32).threads = .ok threads ∧
        (candidate 32 32).instructionCount = .ok (down, across) ∧
        warps * down * across * (candidate 32 32).shape.m * (candidate 32 32).shape.n =
          64 * 64 := by
  have hproducts : ∀ n ∈ (candidate 32 32).products, n < Word.limit := by decide +kernel
  obtain ⟨hbuilt, htiles⟩ :=
    make_iff_admitted Device.table_eq (candidate 32 32) candidate_shape hproducts
  obtain ⟨warps, threads, down, across, hwarps, hthreads, hcount, hcovers, -⟩ :=
    htiles candidate_admitted
  exact ⟨hproducts, (hbuilt _).mpr ⟨candidate_admitted, rfl⟩, warps, threads, down, across, hwarps,
    hthreads, hcount, hcovers⟩

/-! ### Problems that are tiled -/

/-- A problem for the schedule: it has an extent in every direction, and its depth is a multiple of
that of the instruction. -/
structure Tileable (s : Schedule) (m n k : Nat) : Prop where
  sizes : 0 < m ∧ 0 < n ∧ 0 < k
  depth : s.shape.k ∣ k

/-- The sizes can be rounded up to whole blocks in words. -/
structure RoundsUp (s : Schedule) (m n k : Nat) : Prop where
  m : m + s.blockM < Word.limit
  n : n + s.blockN < Word.limit
  k : k + s.blockK < Word.limit

instance (s : Schedule) (m n k : Nat) : Decidable (s.RoundsUp m n k) :=
  decidable_of_iff
    (m + s.blockM < Word.limit ∧ n + s.blockN < Word.limit ∧ k + s.blockK < Word.limit)
    ⟨fun h => ⟨h.1, h.2.1, h.2.2⟩, fun h => ⟨h.m, h.n, h.k⟩⟩

/-- So many tiles cover the size, and one tile fewer does not. -/
def LeastCover (tile size count : Nat) : Prop :=
  ((count : ℤ) - 1) * tile < size ∧ (size : ℤ) ≤ count * tile

/-- The quotient rounded up is the least number of tiles that covers a size. -/
theorem leastCover_ceilDiv {tile size : Nat} (htile : 0 < tile) :
    LeastCover tile size (size ⌈/⌉ tile) := by
  have hle : size ≤ tile * (size ⌈/⌉ tile) := (ceilDiv_le_iff_le_mul htile).mp (Nat.le_refl _)
  have hmin : ∀ fewer, fewer < size ⌈/⌉ tile → tile * fewer < size := fun fewer h =>
    Nat.lt_of_not_le fun hfewer => Nat.not_le_of_lt h ((ceilDiv_le_iff_le_mul htile).mpr hfewer)
  refine ⟨?_, by exact_mod_cast Nat.mul_comm tile _ ▸ hle⟩
  cases hcount : size ⌈/⌉ tile with
  | zero =>
      rw [hcount, Nat.mul_zero] at hle
      have hneg : ((0 : ℕ) - 1 : ℤ) * tile = -tile := by simp
      omega
  | succ fewer =>
      have hlt := hmin fewer (hcount ▸ Nat.lt_succ_self fewer)
      have hpred : ((fewer + 1 : ℕ) : ℤ) - 1 = fewer := by simp
      rw [hpred]
      exact_mod_cast Nat.mul_comm tile fewer ▸ hlt

theorem tileCount_eq {size tile : Nat} (htile : tile ≠ 0) : tileCount size tile =
    if size + tile < Word.limit then .ok (size ⌈/⌉ tile)
    else .error (.arithmetic .addOverflow) := by
  unfold tileCount Word.add
  split
  · rw [ok_bind]
    exact Word.div_eq_ok.mpr ⟨htile, rfl⟩
  · rfl

/-- The constraint that a problem violates which is none for the schedule. -/
def refusal (s : Schedule) (m n k : Nat) : Constraint :=
  if 0 < m ∧ 0 < n ∧ 0 < k then .problemDepth k s.shape.k else .problemSizes

theorem require_eq (hmeasured : s.Measured) (holds : Bool) (c : Constraint) :
    s.require holds c = if holds then .ok () else .error (.schedule s.words.text c) := by
  rw [require, describe_eq_ok.mpr ⟨hmeasured, rfl⟩]
  rfl

theorem sizes_eq (m n k : Nat) :
    (decide (0 < m) && decide (0 < n) && decide (0 < k)) = decide (0 < m ∧ 0 < n ∧ 0 < k) := by
  rw [Bool.decide_and, Bool.decide_and, Bool.and_assoc]

/-- What is no problem for a schedule is refused before any rounding, and the words for it exist. -/
theorem tile_of_not_tileable (hmeasured : s.Measured) (hk : s.shape.k ≠ 0) {m n k : Nat}
    (h : ¬ s.Tileable m n k) :
    s.tile m n k = .error (.schedule s.words.text (s.refusal m n k)) := by
  rw [tile, sizes_eq, require_eq hmeasured, refusal]
  by_cases hsizes : 0 < m ∧ 0 < n ∧ 0 < k
  · have hdepth : (k % s.shape.k == 0) = false := by
      simpa [Nat.dvd_iff_mod_eq_zero] using fun hdepth => h ⟨hsizes, hdepth⟩
    rw [decide_eq_true hsizes, if_pos rfl, if_pos hsizes, ok_bind, Word.mod, if_neg hk, ok_bind,
      require_eq hmeasured, hdepth]
    rfl
  · rw [decide_eq_false hsizes, if_neg hsizes]
    rfl

/-- A problem is rounded up direction by direction, and overflows in the first one that does. -/
theorem tile_of_tileable (hadmitted : s.Admitted) (hk : s.shape.k ≠ 0) {m n k : Nat}
    (h : s.Tileable m n k) : s.tile m n k =
      if s.RoundsUp m n k then .ok ⟨m ⌈/⌉ s.blockM, n ⌈/⌉ s.blockN, k ⌈/⌉ s.blockK⟩
      else .error (.arithmetic .addOverflow) := by
  have hdepth : (k % s.shape.k == 0) = true := by simp [Nat.mod_eq_zero_of_dvd h.depth]
  rw [tile, sizes_eq, decide_eq_true h.sizes, require, if_pos rfl, ok_bind, Word.mod, if_neg hk,
    ok_bind, hdepth, require, if_pos rfl, ok_bind, tileCount_eq hadmitted.blockM.ne',
    tileCount_eq hadmitted.blockN.ne', tileCount_eq hadmitted.blockK.ne']
  by_cases hm : m + s.blockM < Word.limit
  · by_cases hn : n + s.blockN < Word.limit
    · by_cases hk : k + s.blockK < Word.limit
      · rw [if_pos hm, if_pos hn, if_pos hk, if_pos ⟨hm, hn, hk⟩]
        rfl
      · rw [if_pos hm, if_pos hn, if_neg hk, if_neg fun h : s.RoundsUp m n k => hk h.k]
        rfl
    · rw [if_pos hm, if_neg hn, if_neg fun h : s.RoundsUp m n k => hn h.n]
      rfl
  · rw [if_neg hm, if_neg fun h : s.RoundsUp m n k => hm h.m]
    rfl

/-- **How a problem is tiled.**  For every schedule that is built for a shape of the table and all
sizes: a problem is tiled if and only if it is one for the schedule and its sizes can be rounded up
in words, and then in each direction by the least number of tiles that covers it.  What is no
problem for the schedule is refused with the constraint that it violates.  What is one, but with a
size that cannot be rounded up, is an overflow. -/
theorem tile_covers_iff {shapes : List MmaShape} (htable : MmaShape.table = .ok shapes)
    (s : Schedule) (hshape : s.shape ∈ shapes)
    (hmake : make s.target s.blockM s.blockN s.blockK s.warpM s.warpN s.stages s.shape = .ok s)
    (m n k : Nat) :
    ((∃ grid, s.tile m n k = .ok grid) ↔ s.Tileable m n k ∧ s.RoundsUp m n k) ∧
    (∀ grid, s.tile m n k = .ok grid → LeastCover s.blockM m grid.m ∧
      LeastCover s.blockN n grid.n ∧ LeastCover s.blockK k grid.k) ∧
    (¬ s.Tileable m n k → s.tile m n k = .error (.schedule s.words.text (s.refusal m n k))) ∧
    (s.Tileable m n k → ¬ s.RoundsUp m n k → s.tile m n k = .error (.arithmetic .addOverflow)) := by
  obtain ⟨hshapeM, hshapeN, hshapeK⟩ := extents_of_table htable hshape
  obtain ⟨hmeasured, hadmitted, -⟩ := (make_eq_ok hshapeM hshapeN hshapeK).mp hmake
  have hrefused : ¬ s.Tileable m n k →
      s.tile m n k = .error (.schedule s.words.text (s.refusal m n k)) :=
    tile_of_not_tileable hmeasured hshapeK
  have htile := fun h : s.Tileable m n k => tile_of_tileable hadmitted hshapeK h
  have honly : ∀ grid, s.tile m n k = .ok grid → s.Tileable m n k ∧ s.RoundsUp m n k ∧
      grid = ⟨m ⌈/⌉ s.blockM, n ⌈/⌉ s.blockN, k ⌈/⌉ s.blockK⟩ := by
    intro grid hgrid
    by_cases h : s.Tileable m n k
    · rw [htile h] at hgrid
      split at hgrid
      · exact ⟨h, ‹_›, (Except.ok.inj hgrid).symm⟩
      · cases hgrid
    · cases hgrid.symm.trans (hrefused h)
  refine ⟨⟨?only, ?tiled⟩, ?covers, hrefused, fun h hr => ?fails⟩
  case only =>
    rintro ⟨grid, hgrid⟩
    obtain ⟨h, hr, -⟩ := honly grid hgrid
    exact ⟨h, hr⟩
  case tiled =>
    rintro ⟨h, hr⟩
    exact ⟨_, (htile h).trans (if_pos hr)⟩
  case covers =>
    intro grid hgrid
    obtain ⟨-, -, rfl⟩ := honly grid hgrid
    exact ⟨leastCover_ceilDiv hadmitted.blockM, leastCover_ceilDiv hadmitted.blockN,
      leastCover_ceilDiv hadmitted.blockK⟩
  case fails => exact (htile h).trans (if_neg hr)

theorem make_candidate :
    make .standard 64 64 16 32 32 2 (candidate 32 32).shape = .ok (candidate 32 32) := by
  have hshape : (candidate 32 32).shape ∈ Device.shapes := candidate_shape
  obtain ⟨hm, hn, hk⟩ := extents_of_table Device.table_eq hshape
  exact (make_eq_ok hm hn hk (s := candidate 32 32)).mpr
    ⟨candidate_admitted.measured (by decide +kernel), candidate_admitted, rfl⟩

/-- A problem of 100 × 64 × 48 takes two, one and three tiles. -/
theorem tile_covers_iff_candidate :
    (candidate 32 32).tile 100 64 48 = .ok ⟨2, 1, 3⟩ ∧ LeastCover 64 100 2 ∧ LeastCover 64 64 1 ∧
      LeastCover 16 48 3 := by
  have htile : (candidate 32 32).tile 100 64 48 = .ok ⟨2, 1, 3⟩ := by decide +kernel
  obtain ⟨-, hcovers, -⟩ :=
    tile_covers_iff Device.table_eq (candidate 32 32) candidate_shape make_candidate 100 64 48
  exact ⟨htile, hcovers _ htile⟩

/-- The largest size would take `2 ^ 58` tiles of 64, but rounding it up overflows. -/
theorem tile_overflows :
    make .standard 64 64 16 32 32 2 (candidate 32 32).shape = .ok (candidate 32 32) ∧
      Word.limit - 1 < Word.limit ∧ (candidate 32 32).Tileable (Word.limit - 1) 64 16 ∧
      (candidate 32 32).tile (Word.limit - 1) 64 16 = .error (.arithmetic .addOverflow) := by
  refine ⟨make_candidate, by decide, ⟨by decide, ?_⟩, ?_⟩
  · decide +kernel
  · decide +kernel

end Schedule

end TensorLoops
