import Mathlib.Data.List.Zip
import TensorLoops.Proofs.Lanes.Partition

/-!
# Proofs — Lanes — Associativity

Composing three mappings, grouped from the left or from the right.  The two groupings split the
worker, the place in its list and the coordinates by different divisions, and these come to the same
(`Has.regroup`, `within_assoc`).  So both make the same mapping: the same shape, counts and text,
and for each worker the same tasks in the same order (`compose_assoc`).

What the groupings do not share is the lists that are made on the way.  Where no task is left these
may be too long in one of them only (`regrouped_without_room`).
-/

namespace TensorLoops

namespace Mapping

/-! ### Coordinates -/

/-- The place of a task within a task within a task does not depend on which two are put together
first. -/
theorem within_assoc {bs cs i j k p q t : List Nat} (hi : i.length = bs.length)
    (hj : j.length = bs.length) (hk : k.length = bs.length) (hcs : cs.length = bs.length)
    (hp : within bs i j = .ok p) (hq : within cs j k = .ok q) :
    within cs p k = .ok t ↔ within (List.zipWith (· * ·) bs cs) i q = .ok t := by
  induction bs generalizing cs i j k p q t with
  | nil =>
      obtain rfl := List.length_eq_zero_iff.mp hi
      obtain rfl := List.length_eq_zero_iff.mp hcs
      obtain rfl := pure_eq_ok.mp hp
      exact Iff.rfl
  | cons b bs ih =>
      obtain ⟨x, i, rfl⟩ := List.exists_cons_of_length_eq_add_one hi
      obtain ⟨y, j, rfl⟩ := List.exists_cons_of_length_eq_add_one hj
      obtain ⟨z, k, rfl⟩ := List.exists_cons_of_length_eq_add_one hk
      obtain ⟨c, cs, rfl⟩ := List.exists_cons_of_length_eq_add_one hcs
      obtain ⟨-, p, hp', rfl⟩ := within_cons.mp hp
      obtain ⟨-, q, hq', rfl⟩ := within_cons.mp hq
      have hsame : x * (b * c) + (y * c + z) = (x * b + y) * c + z := by
        rw [Nat.add_mul, Nat.mul_assoc, Nat.add_assoc]
      have htail : ∀ {us}, within cs p k = .ok us ↔
          within (List.zipWith (· * ·) bs cs) i q = .ok us :=
        ih (by simpa using hi) (by simpa using hj) (by simpa using hk) (by simpa using hcs) hp' hq'
      rw [List.zipWith_cons_cons, within_cons, within_cons, hsame]
      simp only [htail]

/-! ### Places in the workers' lists -/

theorem compose_eq_ok {outer inner m : Mapping} (h : compose outer inner = .ok m) :
    ∃ x, m = .composed x outer inner := by
  unfold compose at h
  split at h
  · cases h
  · simp only [bind_eq_ok, pure_eq_ok] at h
    obtain ⟨shape, -, workers, -, perWorker, -, rfl⟩ := h
    exact ⟨_, rfl⟩

/-- Dividing by two numbers one after the other, and dividing by their product first. -/
theorem divMod_regroup (n b c : Nat) :
    n / c / b = n / (b * c) ∧ n / c % b = n % (b * c) / c ∧ n % c = n % (b * c) % c :=
  ⟨by rw [Nat.div_div_eq_div_mul, Nat.mul_comm], (Nat.mod_mul_left_div_self n c b).symm,
    (Nat.mod_mul_left_mod n b c).symm⟩

section Regroup

variable {a b c : Mapping} {x y u v : Extents}

/-- Both groupings state the same of themselves. -/
theorem extents_regroup (hl : Sound (.composed y (.composed x a b) c))
    (hr : Sound (.composed v a (.composed u b c))) : y = v := by
  obtain ⟨⟨⟨-, -, hshapex, -, hwx, hpx, -⟩, -⟩, -, hshapey, -, hwy, hpy, -⟩ := hl
  obtain ⟨⟨-, -, -, hshapeu, -, hwu, hpu, -⟩, -, hshapev, -, hwv, hpv, -⟩ := hr
  have hshape : y.shape = v.shape := by
    rw [hshapey, hshapev]
    show List.zipWith (· * ·) x.shape c.shape = List.zipWith (· * ·) a.shape u.shape
    rw [hshapex, hshapeu, List.zipWith_zipWith_left, List.zipWith_zipWith_right]
    simp only [Nat.mul_assoc]
  have hworkers : y.workers = v.workers := by
    rw [hwy, hwv]
    show x.workers * c.workers = a.workers * u.workers
    rw [hwx, hwu, Nat.mul_assoc]
  have hperWorker : y.perWorker = v.perWorker := by
    rw [hpy, hpv]
    show x.perWorker * c.perWorker = a.perWorker * u.perWorker
    rw [hpx, hpu, Nat.mul_assoc]
  cases y
  cases v
  rw [Extents.mk.injEq]
  exact ⟨hshape, hworkers, hperWorker⟩

/-- A worker has a task at a place in one grouping if and only if it has it there in the other. -/
theorem Has.regroup (hl : Sound (.composed y (.composed x a b) c))
    (hr : Sound (.composed v a (.composed u b c))) (hfl : Fits (.composed y (.composed x a b) c))
    (hfr : Fits (.composed v a (.composed u b c))) (worker slot : Nat) (t : List Nat) :
    Has (.composed y (.composed x a b) c) worker slot t ↔
      Has (.composed v a (.composed u b c)) worker slot t := by
  obtain ⟨⟨hab, hc⟩, -⟩ := id hl
  obtain ⟨⟨ha, hbc⟩, -⟩ := id hr
  obtain ⟨⟨-, hb⟩, hlenab, hshapeab, hlimab, -⟩ := id hab
  obtain ⟨-, hlenbc, hshapebc, hlimbc, hwbc, hpbc, -⟩ := id hbc
  obtain ⟨hfab, hfc, hrooml⟩ := id hfl
  obtain ⟨hfa, hfbc, hroomr⟩ := id hfr
  obtain ⟨-, hfb, hroomab⟩ := id hfab
  obtain ⟨-, -, hroombc⟩ := id hfbc
  have hsa := ha.shares hfa
  have hsb := hb.shares hfb
  have hsc := hc.shares hfc
  rw [has_composed hl hrooml (hab.shares hfab) hsc, has_composed hr hroomr hsa (hbc.shares hfbc)]
  simp only [has_composed hab hroomab hsa hsb, has_composed hbc hroombc hsb hsc]
  have hworkers : (composed u b c).workers = b.workers * c.workers := hwbc
  have hperWorker : (composed u b c).perWorker = b.perWorker * c.perWorker := hpbc
  have hshape : (composed u b c).shape = List.zipWith (· * ·) b.shape c.shape := hshapebc
  obtain ⟨hdivw, hmidw, hmodw⟩ := divMod_regroup worker b.workers c.workers
  obtain ⟨hdivs, hmids, hmods⟩ := divMod_regroup slot b.perWorker c.perWorker
  rw [hworkers, hperWorker, hshape, ← hdivw, ← hmidw, ← hmodw, ← hdivs, ← hmids, ← hmods]
  -- The places are the same on both sides now; what remains is that the coordinates are.
  have hplaces {wa sa wb sb wc sc : Nat} {i j k : List Nat} (hi : a.Has wa sa i)
      (hj : b.Has wb sb j) (hk : c.Has wc sc k) : ∃ p q, within b.shape i j = .ok p ∧
        within c.shape j k = .ok q ∧ (within c.shape p k = .ok t ↔
          within (List.zipWith (· * ·) b.shape c.shape) i q = .ok t) := by
    have higrid := (hi.slot_lt hsa).2
    have hjgrid := (hj.slot_lt hsb).2
    have hkgrid := (hk.slot_lt hsc).2
    obtain ⟨p, hp, -⟩ := within_inGrid higrid hjgrid hlenab (hshapeab ▸ hlimab)
    obtain ⟨q, hq, -⟩ := within_inGrid hjgrid hkgrid hlenbc (hshapebc ▸ hlimbc)
    exact ⟨p, q, hp, hq, within_assoc (higrid.length_eq.trans hlenab) hjgrid.length_eq
      (hkgrid.length_eq.trans hlenbc.symm) hlenbc.symm hp hq⟩
  constructor
  · rintro ⟨p', k, ⟨i, j, hi, hj, hp'⟩, hk, ht⟩
    obtain ⟨p, q, hp, hq, hassoc⟩ := hplaces hi hj hk
    obtain rfl := Except.ok.inj (hp'.symm.trans hp)
    exact ⟨i, q, hi, ⟨j, k, hj, hk, hq⟩, hassoc.mp ht⟩
  · rintro ⟨i, q', hi, ⟨j, k, hj, hk, hq'⟩, ht⟩
    obtain ⟨p, q, hp, hq, hassoc⟩ := hplaces hi hj hk
    obtain rfl := Except.ok.inj (hq'.symm.trans hq)
    exact ⟨p, k, ⟨i, j, hi, hj, hp⟩, hk, hassoc.mpr ht⟩

/-- Where the lists of both groupings fit, each worker has one list in both. -/
theorem tasksOf_regroup (hl : Sound (.composed y (.composed x a b) c))
    (hr : Sound (.composed y a (.composed u b c))) (hfl : Fits (.composed y (.composed x a b) c))
    (hfr : Fits (.composed y a (.composed u b c))) {worker : Nat} (hlt : worker < y.workers) :
    tasksOf (.composed y (.composed x a b) c) worker =
      tasksOf (.composed y a (.composed u b c)) worker := by
  obtain ⟨ts, hts, -⟩ := (hl.shares hfl).tasks worker hlt
  obtain ⟨us, hus, -⟩ := (hr.shares hfr).tasks worker hlt
  have hsame : ts = us := by
    refine List.ext_getElem? fun slot => Option.ext fun t => ?_
    have hhas := Has.regroup hl hr hfl hfr worker slot t
    constructor
    · intro ht
      obtain ⟨-, us', hus', ht'⟩ := hhas.mp ⟨hlt, ts, hts, ht⟩
      rwa [Except.ok.inj (hus.symm.trans hus')]
    · intro ht
      obtain ⟨-, ts', hts', ht'⟩ := hhas.mpr ⟨hlt, us, hus, ht⟩
      rwa [Except.ok.inj (hts.symm.trans hts')]
  rw [hts, hus, hsame]

/-- While there are tasks, the lists on the way are no longer than the list of all. -/
theorem fits_regroup (hl : Sound (.composed y (.composed x a b) c))
    (hr : Sound (.composed y a (.composed u b c))) (hpos : 0 < y.perWorker) :
    Fits (.composed y (.composed x a b) c) ↔ Fits (.composed y a (.composed u b c)) := by
  have hleft : y.perWorker = x.perWorker * c.perWorker := hl.2.2.2.2.2.1
  have hright : y.perWorker = a.perWorker * u.perWorker := hr.2.2.2.2.2.1
  have hxle : x.perWorker ≤ y.perWorker :=
    hleft ▸ Nat.le_mul_of_pos_right _ (Nat.pos_of_mul_pos_left (hleft ▸ hpos))
  have hule : u.perWorker ≤ y.perWorker :=
    hright ▸ Nat.le_mul_of_pos_left _ (Nat.pos_of_mul_pos_right (hright ▸ hpos))
  simp only [Fits, taskBytes]
  constructor
  · rintro ⟨⟨hfa, hfb, -⟩, hfc, hroom⟩
    exact ⟨hfa, ⟨hfb, hfc, by omega⟩, hroom⟩
  · rintro ⟨hfa, ⟨hfb, hfc, -⟩, hroom⟩
    exact ⟨⟨hfa, hfb, by omega⟩, hfc, hroom⟩

end Regroup

/-! ### Groupings -/

/-- What a worker has, if everything fits. -/
theorem workerTasks_eq {m : Mapping} (hm : m.Sound) (worker : Nat) (hlt : worker < m.workers) :
    ∃ tasks, tasks.length = m.perWorker ∧
      m.workerTasks worker = if m.Fits then .ok tasks else .error (.arithmetic .noRoom) := by
  rw [workerTasks, if_pos hlt]
  by_cases hfit : m.Fits
  · obtain ⟨tasks, htasks, hlength, -⟩ := (hm.shares hfit).tasks worker hlt
    exact ⟨tasks, hlength, by rw [if_pos hfit, htasks]⟩
  · exact ⟨List.replicate m.perWorker [], List.length_replicate,
      by rw [if_neg hfit, tasksOf_of_not_fits hm hfit worker hlt]⟩

/-- Three mappings of which no task is left.  In the first case the list of the outermost is too
long in either grouping; in the second the two inner ones make a list that is, and the grouping from
the left does not come to it. -/
theorem regrouped_without_room :
    (∃ a b c ab bc l r, rowRepeat [2 ^ 63] = .ok a ∧ rowRepeat [0] = .ok b ∧ rowRepeat [1] = .ok c ∧
      compose a b = .ok ab ∧ compose ab c = .ok l ∧ compose b c = .ok bc ∧ compose a bc = .ok r ∧
      l.perWorker = 0 ∧ l.workers = 1 ∧ l.workerTasks 0 = .error (.arithmetic .noRoom) ∧
      r.workerTasks 0 = .error (.arithmetic .noRoom)) ∧
    ∃ a b ab bb l r, rowRepeat [0] = .ok a ∧ rowRepeat [2 ^ 30] = .ok b ∧
      compose a b = .ok ab ∧ compose ab b = .ok l ∧ compose b b = .ok bb ∧ compose a bb = .ok r ∧
      l.workers = 1 ∧ l.workerTasks 0 = .ok [] ∧
      r.workerTasks 0 = .error (.arithmetic .noRoom) := by
  constructor
  · exact ⟨_, _, _, _, _, _, _, rfl, rfl, rfl, rfl, rfl, rfl, rfl, rfl, rfl, rfl, rfl⟩
  · -- The lists are too long to be evaluated, so it is their lengths that decide.
    let a : Mapping := .repeated ⟨[0], 1, 0⟩ [0]
    let b : Mapping := .repeated ⟨[2 ^ 30], 1, 2 ^ 30⟩ [0]
    let ab : Mapping := .composed ⟨[0], 1, 0⟩ a b
    let bb : Mapping := .composed ⟨[2 ^ 60], 1, 2 ^ 60⟩ b b
    have ha : rowRepeat [0] = .ok a := rfl
    have hb : rowRepeat [2 ^ 30] = .ok b := rfl
    have hab : compose a b = .ok ab := by decide
    have hbb : compose b b = .ok bb := by decide
    have hl : compose ab b = .ok (.composed ⟨[0], 1, 0⟩ ab b) := by decide
    have hr : compose a bb = .ok (.composed ⟨[0], 1, 0⟩ a bb) := by decide
    have hbuilt : Built (.composed ⟨[0], 1, 0⟩ ab b) :=
      .compose (.compose (.rowRepeat ha) (.rowRepeat hb) hab) (.rowRepeat hb) hl
    have hbuilt' : Built (.composed ⟨[0], 1, 0⟩ a bb) :=
      .compose (.rowRepeat ha) (.compose (.rowRepeat hb) (.rowRepeat hb) hbb) hr
    obtain ⟨tasks, hlength, htasks⟩ := workerTasks_eq hbuilt.sound 0 (by decide)
    obtain ⟨_, -, hfail⟩ := workerTasks_eq hbuilt'.sound 0 (by decide)
    rw [if_pos (by decide), List.length_eq_zero_iff.mp hlength] at htasks
    rw [if_neg (by decide)] at hfail
    exact ⟨a, b, ab, bb, _, _, ha, hb, hab, hl, hbb, hr, rfl, htasks, hfail⟩

/-- **Composition is associative**, as far as memory goes.  Both groupings of three mappings have
the same shape, the same counts and the same text.  For each worker there is one list of as many
tasks as stated, which either grouping gives, in the same order, if the lists that it makes on the
way fit; if they do not, that is the error.  While a worker has tasks at all, the lists of one
grouping fit if and only if those of the other do, so that both give the same.  A worker that there
is not is refused by both alike. -/
theorem compose_assoc {a b c ab bc l r : Mapping} (ha : a.Built) (hb : b.Built) (hc : c.Built)
    (hab : compose a b = .ok ab) (hl : compose ab c = .ok l) (hbc : compose b c = .ok bc)
    (hr : compose a bc = .ok r) :
    l.shape = r.shape ∧ l.workers = r.workers ∧ l.perWorker = r.perWorker ∧ l.text = r.text ∧
    (∀ worker < l.workers, ∃ tasks, tasks.length = l.perWorker ∧
      l.workerTasks worker = (if l.Fits then .ok tasks else .error (.arithmetic .noRoom)) ∧
      r.workerTasks worker = (if r.Fits then .ok tasks else .error (.arithmetic .noRoom))) ∧
    (0 < l.perWorker → (l.Fits ↔ r.Fits)) ∧
    ∀ worker, l.workers ≤ worker → l.workerTasks worker = r.workerTasks worker := by
  have hsab := compose_sound hab ha.sound hb.sound
  have hsbc := compose_sound hbc hb.sound hc.sound
  have hsl := compose_sound hl hsab hc.sound
  have hsr := compose_sound hr ha.sound hsbc
  obtain ⟨x, rfl⟩ := compose_eq_ok hab
  obtain ⟨u, rfl⟩ := compose_eq_ok hbc
  obtain ⟨y, rfl⟩ := compose_eq_ok hl
  obtain ⟨v, rfl⟩ := compose_eq_ok hr
  obtain rfl := extents_regroup hsl hsr
  have htext : text (.composed y (.composed x a b) c) = text (.composed y a (.composed u b c)) := by
    simp only [text, String.append_assoc]
  refine ⟨rfl, rfl, rfl, htext, fun worker hlt => ?_, fits_regroup hsl hsr, fun worker hle => ?_⟩
  · obtain ⟨ts, hts, hleft⟩ := workerTasks_eq hsl worker hlt
    obtain ⟨us, hus, hright⟩ := workerTasks_eq hsr worker hlt
    by_cases hfl : Fits (.composed y (.composed x a b) c)
    · by_cases hfr : Fits (.composed y a (.composed u b c))
      · have hsame := tasksOf_regroup hsl hsr hfl hfr hlt
        refine ⟨ts, hts, hleft, ?_⟩
        rw [workerTasks, if_pos hlt, if_pos hfl, hsame] at hleft
        exact (if_pos hlt).trans (hleft.trans (if_pos hfr).symm)
      · exact ⟨ts, hts, hleft, by rw [hright, if_neg hfr, if_neg hfr]⟩
    · exact ⟨us, hus, by rw [hleft, if_neg hfl, if_neg hfl], hright⟩
  · have hrefused : ∀ {m : Mapping}, m.workers ≤ worker →
        m.workerTasks worker = .error (.mapping (.worker worker m.text m.workers)) :=
      fun h => if_neg (Nat.not_lt.mpr h)
    have hright : workers (.composed y a (.composed u b c)) ≤ worker := hle
    rw [hrefused hle, hrefused hright, htext]
    rfl

/-- Two rows of lanes, each lane with two elements, in both groupings. -/
theorem compose_assoc_lanes : ∃ rows lanes pair left right l r : Mapping,
    rowRepeat [2, 1] = .ok rows ∧ rowSpatial [8, 4] = .ok lanes ∧ rowRepeat [1, 2] = .ok pair ∧
    compose rows lanes = .ok left ∧ compose left pair = .ok l ∧
    compose lanes pair = .ok right ∧ compose rows right = .ok r ∧
    ∀ worker < 32, ∃ tasks, tasks.length = 4 ∧ l.workerTasks worker = .ok tasks ∧
      r.workerTasks worker = .ok tasks := by
  let rows : Mapping := .repeated ⟨[2, 1], 1, 2⟩ [0, 1]
  let lanes : Mapping := .spatial ⟨[8, 4], 32, 1⟩ [0, 1]
  let pair : Mapping := .repeated ⟨[1, 2], 1, 2⟩ [0, 1]
  have hrows : rowRepeat [2, 1] = .ok rows := rfl
  have hlanes : rowSpatial [8, 4] = .ok lanes := rfl
  have hpair : rowRepeat [1, 2] = .ok pair := rfl
  have hleft : compose rows lanes = .ok (.composed ⟨[16, 4], 32, 2⟩ rows lanes) := rfl
  have hright : compose lanes pair = .ok (.composed ⟨[8, 8], 32, 2⟩ lanes pair) := rfl
  refine ⟨rows, lanes, pair, _, _, _, _, hrows, hlanes, hpair, hleft, rfl, hright, rfl, ?_⟩
  intro worker hlt
  obtain ⟨-, -, -, -, hworkers, -⟩ := compose_assoc (.rowRepeat hrows) (.rowSpatial hlanes)
    (.rowRepeat hpair) hleft rfl hright rfl
  obtain ⟨tasks, hlength, hl, hr⟩ := hworkers worker hlt
  rw [if_pos (by decide)] at hl hr
  exact ⟨tasks, hlength, hl, hr⟩

end Mapping

end TensorLoops
