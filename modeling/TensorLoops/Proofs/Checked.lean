import Mathlib.Algebra.BigOperators.Group.List.Basic
import Mathlib.Data.List.Forall2
import TensorLoops.Number.Word

/-!
# Proofs — Checked

What a computation that did not fail has done.  A sequence of steps succeeds when each of them
does (`bind_eq_ok`, `step_bind_eq_ok`), a list is mapped when each item is (`mapM_eq_ok_iff`), and
an operation on words succeeds with the exact result, when that is a word (`Word.mul_eq_ok`).
-/

namespace TensorLoops

variable {ε σ α β : Type}

/-! ### Steps that may fail -/

/-- Two steps succeed when both do, the second with what the first gave. -/
theorem bind_eq_ok {x : Except ε α} {f : α → Except ε β} {b : β} :
    (x >>= f) = .ok b ↔ ∃ a, x = .ok a ∧ f a = .ok b := by
  cases x with
  | ok a => simp [bind, Except.bind]
  | error e => simp [bind, Except.bind]

theorem ok_bind {a : α} {f : α → Except ε β} : (Except.ok a >>= f) = f a := rfl

theorem pure_eq_ok {a b : α} : (pure a : Except ε α) = .ok b ↔ a = b := by
  simp [pure, Except.pure]

/-- A step with a state succeeds when its parts do, each from where the one before it ended. -/
theorem step_bind_eq_ok {x : StateT σ (Except ε) α} {f : α → StateT σ (Except ε) β} {s : σ}
    {r : β × σ} : (x >>= f) s = .ok r ↔ ∃ a t, x s = .ok (a, t) ∧ f a t = .ok r := by
  show (x s >>= fun p => f p.1 p.2) = .ok r ↔ _
  rw [bind_eq_ok]
  exact ⟨fun ⟨p, hx, hf⟩ => ⟨p.1, p.2, hx, hf⟩, fun ⟨a, t, hx, hf⟩ => ⟨(a, t), hx, hf⟩⟩

/-- Returning a value leaves the state as it is. -/
theorem step_pure_eq_ok {a : α} {s : σ} {r : α × σ} :
    (pure a : StateT σ (Except ε) α) s = .ok r ↔ r = (a, s) := by
  show Except.ok (a, s) = .ok r ↔ _
  rw [Except.ok.injEq, eq_comm]

theorem step_get_bind_eq_ok {f : σ → StateT σ (Except ε) β} {s : σ} {r : β × σ} :
    (get >>= f) s = .ok r ↔ f s s = .ok r := Iff.rfl

theorem step_get_bind {f : σ → StateT σ (Except ε) β} {s : σ} : (get >>= f) s = f s s := rfl

theorem step_set_bind_eq_ok {f : PUnit → StateT σ (Except ε) β} {s t : σ} {r : β × σ} :
    (set t >>= f) s = .ok r ↔ f ⟨⟩ t = .ok r := Iff.rfl

/-- After a change of the state, the rest runs from what it was changed to. -/
theorem step_modify_bind_eq_ok {f : PUnit → StateT σ (Except ε) β} {h : σ → σ} {s : σ}
    {r : β × σ} : (modify h >>= f) s = .ok r ↔ f ⟨⟩ (h s) = .ok r := Iff.rfl

theorem step_modify_eq_ok {f : σ → σ} {s : σ} {r : PUnit × σ} :
    (modify f : StateT σ (Except ε) PUnit) s = .ok r ↔ r = (⟨⟩, f s) := by
  show Except.ok (PUnit.unit, f s) = .ok r ↔ _
  rw [Except.ok.injEq, eq_comm]

/-- A computation without a state, taken as a step. -/
theorem step_lift_bind_eq_ok {x : Except ε α} {f : α → StateT σ (Except ε) β} {s : σ} {r : β × σ} :
    ((liftM x : StateT σ (Except ε) α) >>= f) s = .ok r ↔ ∃ a, x = .ok a ∧ f a s = .ok r := by
  cases x with
  | ok a => exact ⟨fun h => ⟨a, rfl, h⟩, fun ⟨_, ha, h⟩ => Except.ok.inj ha ▸ h⟩
  | error e => exact ⟨nofun, fun ⟨_, ha, _⟩ => nomatch ha⟩

theorem step_lift_ok_bind {a : α} {f : α → StateT σ (Except ε) β} {s : σ} :
    ((liftM (.ok a : Except ε α) : StateT σ (Except ε) α) >>= f) s = f a s := rfl

theorem step_throw_ne_ok {e : ε} {s : σ} {r : α × σ} :
    (throw e : StateT σ (Except ε) α) s ≠ .ok r := nofun

/-- Two steps fail when the first does, or when the second does after the first has not. -/
theorem bind_eq_error {x : Except ε α} {f : α → Except ε β} {e : ε} :
    (x >>= f) = .error e ↔ x = .error e ∨ ∃ a, x = .ok a ∧ f a = .error e := by
  cases x with
  | ok a => simp [bind, Except.bind]
  | error e' => simp [bind, Except.bind]

/-- A step with a state fails when a part of it does, after parts that do not. -/
theorem step_bind_eq_error {x : StateT σ (Except ε) α} {f : α → StateT σ (Except ε) β} {s : σ}
    {e : ε} :
    (x >>= f) s = .error e ↔ x s = .error e ∨ ∃ a t, x s = .ok (a, t) ∧ f a t = .error e := by
  show (x s >>= fun p => f p.1 p.2) = .error e ↔ _
  rw [bind_eq_error, Prod.exists]

theorem step_get_bind_eq_error {f : σ → StateT σ (Except ε) β} {s : σ} {e : ε} :
    (get >>= f) s = .error e ↔ f s s = .error e := Iff.rfl

/-- A computation without a state fails the step that it begins, and so does what comes after it. -/
theorem step_lift_bind_eq_error {x : Except ε α} {f : α → StateT σ (Except ε) β} {s : σ} {e : ε} :
    ((liftM x : StateT σ (Except ε) α) >>= f) s = .error e ↔
      x = .error e ∨ ∃ a, x = .ok a ∧ f a s = .error e := by
  cases x with
  | ok a =>
      refine ⟨fun h => .inr ⟨a, rfl, h⟩, ?_⟩
      rintro (h | ⟨b, hb, h⟩)
      · exact nomatch h
      · exact Except.ok.inj hb ▸ h
  | error e' =>
      refine ⟨fun h => .inl (congrArg _ (Except.error.inj h)), ?_⟩
      rintro (h | ⟨b, hb, h⟩)
      · exact congrArg _ (Except.error.inj h)
      · exact nomatch hb

/-! ### Calls on a state -/

section Calls

variable {call : ExceptT Error (StateM σ) α} {s s' : σ}

/-- The result of a call is that of its run. -/
theorem resultOf_eq_ok {a : α} :
    resultOf call s = .ok (a, s') ↔ call.run.run s = (.ok a, s') := by
  unfold resultOf
  match call.run.run s with
  | (.ok b, t)    => exact ⟨fun h => by cases h; rfl, fun h => by cases h; rfl⟩
  | (.error e, t) => exact iff_of_false (by rintro ⟨⟩) (by rintro ⟨⟩)

/-- A failed call has left some state behind, which its result does not show. -/
theorem resultOf_eq_error {e : Error} :
    resultOf call s = .error e ↔ ∃ t, call.run.run s = (.error e, t) := by
  unfold resultOf
  match call.run.run s with
  | (.ok b, t)     => exact iff_of_false (by rintro ⟨⟩) (by rintro ⟨_, ⟨⟩⟩)
  | (.error e', t) => exact ⟨fun h => by cases h; exact ⟨t, rfl⟩, fun ⟨_, h⟩ => by cases h; rfl⟩

/-- A call whose result is dropped leaves the same state. -/
theorem run_discard : (discard call).run.run s =
    ((call.run.run s).1.map fun _ => (), (call.run.run s).2) := by
  show (call >>= fun _ => pure ()).run.run s = _
  simp only [ExceptT.run_bind, StateT.run_bind]
  match call.run.run s with
  | (.ok a, t)    => rfl
  | (.error e, t) => rfl

/-- The state that a call ends in does not depend on whether its result is dropped. -/
theorem snd_resultOf_discard :
    Prod.snd <$> resultOf (discard call) s = Prod.snd <$> resultOf call s := by
  unfold resultOf
  rw [run_discard]
  match call.run.run s with
  | (.ok a, t)    => rfl
  | (.error e, t) => rfl

end Calls

/-! ### Lists -/

/-- A list is mapped when each of its items is. -/
theorem mapM_eq_ok_iff {f : α → Except ε β} {xs : List α} {ys : List β} :
    xs.mapM f = .ok ys ↔ List.Forall₂ (fun x y => f x = .ok y) xs ys := by
  induction xs generalizing ys with
  | nil => rw [List.mapM_nil, pure_eq_ok, List.forall₂_nil_left_iff, eq_comm]
  | cons x xs ih =>
      rw [List.mapM_cons, bind_eq_ok, List.forall₂_cons_left_iff]
      constructor
      · rintro ⟨y, hy, h⟩
        obtain ⟨zs, hzs, h⟩ := bind_eq_ok.mp h
        exact ⟨y, zs, hy, ih.mp hzs, (pure_eq_ok.mp h).symm⟩
      · rintro ⟨y, zs, hy, hzs, rfl⟩
        exact ⟨y, hy, bind_eq_ok.mpr ⟨zs, ih.mpr hzs, rfl⟩⟩

/-- If every item of a list is mapped, the list is. -/
theorem exists_mapM_eq_ok {f : α → Except ε β} {xs : List α} (h : ∀ x ∈ xs, ∃ y, f x = .ok y) :
    ∃ ys, xs.mapM f = .ok ys := by
  induction xs with
  | nil => exact ⟨[], rfl⟩
  | cons x xs ih =>
      obtain ⟨⟨y, hy⟩, h⟩ := List.forall_mem_cons.mp h
      obtain ⟨ys, hys⟩ := ih h
      exact ⟨y :: ys, mapM_eq_ok_iff.mpr (.cons hy (mapM_eq_ok_iff.mp hys))⟩

/-- A list that is not mapped has an item that fails, with the error of the list. -/
theorem mapM_eq_error {f : α → Except ε β} {xs : List α} {e : ε} (h : xs.mapM f = .error e) :
    ∃ x ∈ xs, f x = .error e := by
  induction xs with
  | nil => exact nomatch h
  | cons x xs ih =>
      rw [List.mapM_cons] at h
      rcases bind_eq_error.mp h with h | ⟨_, -, h⟩
      · exact ⟨x, List.mem_cons_self, h⟩
      · rcases bind_eq_error.mp h with h | ⟨_, -, h⟩
        · obtain ⟨y, hy, h⟩ := ih h
          exact ⟨y, List.mem_cons_of_mem _ hy, h⟩
        · exact nomatch h

/-- `mapM_eq_ok_iff` for computations that fail without an error. -/
theorem mapM_eq_some_iff {f : α → Option β} {xs : List α} {ys : List β} :
    xs.mapM f = some ys ↔ List.Forall₂ (fun x y => f x = some y) xs ys := by
  induction xs generalizing ys with
  | nil => simp [eq_comm]
  | cons x xs ih =>
      rw [List.mapM_cons, List.forall₂_cons_left_iff]
      simp only [Option.bind_eq_bind, Option.bind_eq_some_iff, Option.pure_def, Option.some.injEq]
      constructor
      · rintro ⟨y, hy, zs, hzs, rfl⟩
        exact ⟨y, zs, hy, ih.mp hzs, rfl⟩
      · rintro ⟨y, zs, hy, hzs, rfl⟩
        exact ⟨y, hy, zs, ih.mpr hzs, rfl⟩

/-- Related lists are related at every position. -/
theorem forall₂_getElem? {R : α → β → Prop} {xs : List α} {ys : List β} (h : List.Forall₂ R xs ys)
    {i : Nat} {x : α} (hx : xs[i]? = some x) : ∃ y, ys[i]? = some y ∧ R x y := by
  induction h generalizing i with
  | nil => simp at hx
  | cons hr _ ih =>
      cases i with
      | zero => exact ⟨_, rfl, by simpa using (Option.some.inj hx) ▸ hr⟩
      | succ i => exact ih (by simpa using hx)

/-- What is on the right of a relation between lists is related to something on the left. -/
theorem exists_of_forall₂ {R : α → β → Prop} {xs : List α} {ys : List β} (h : List.Forall₂ R xs ys)
    {y : β} (hy : y ∈ ys) : ∃ x ∈ xs, R x y := by
  induction h with
  | nil => exact absurd hy List.not_mem_nil
  | @cons x _ xs _ hr _ ih =>
      rcases List.mem_cons.mp hy with rfl | hy
      · exact ⟨x, List.mem_cons_self, hr⟩
      · obtain ⟨x', hx', hr'⟩ := ih hy
        exact ⟨x', List.mem_cons_of_mem x hx', hr'⟩

/-! ### Words -/

namespace Word

/-- A sum of words is exact, and fails where it is beyond a word. -/
theorem add_eq_ok {a b c : Nat} : add a b = .ok c ↔ a + b < limit ∧ c = a + b := by
  unfold add
  split
  · rename_i h; simp [h, eq_comm]
  · rename_i h; simp [h]

/-- A product of words is exact, and fails where it is beyond a word. -/
theorem mul_eq_ok {a b c : Nat} : mul a b = .ok c ↔ a * b < limit ∧ c = a * b := by
  unfold mul
  split
  · rename_i h; simp [h, eq_comm]
  · rename_i h; simp [h]

/-- A quotient fails only for a divisor of zero. -/
theorem div_eq_ok {a b c : Nat} : div a b = .ok c ↔ b ≠ 0 ∧ c = a / b := by
  unfold div
  split
  · rename_i h; simp [h]
  · rename_i h; simp [h, eq_comm]

/-- A remainder fails only for a divisor of zero. -/
theorem mod_eq_ok {a b c : Nat} : mod a b = .ok c ↔ b ≠ 0 ∧ c = a % b := by
  unfold mod
  split
  · rename_i h; simp [h]
  · rename_i h; simp [h, eq_comm]

/-- The id after a given one, as long as ids last. -/
theorem nextId_eq_ok {a b : Nat} : nextId a = .ok b ↔ a + 1 < idLimit ∧ b = a + 1 := by
  unfold nextId
  split
  · rename_i h; simp [h, eq_comm]
  · rename_i h; simp [h]

theorem one_lt_limit : 1 < limit := by decide

/-- A product of words from `a` on is found if no product on the way to it is beyond a word. -/
theorem foldlM_mul_eq_ok {ns : List Nat} {a b : Nat} (ha : a < limit) :
    ns.foldlM mul a = .ok b ↔ (∀ k, a * (ns.take k).prod < limit) ∧ b = a * ns.prod := by
  induction ns generalizing a with
  | nil => simp [pure, Except.pure, ha, eq_comm]
  | cons n ns ih =>
      simp only [List.foldlM_cons, bind_eq_ok, mul_eq_ok]
      constructor
      · rintro ⟨_, ⟨hlt, rfl⟩, h⟩
        obtain ⟨hpartial, rfl⟩ := (ih hlt).mp h
        refine ⟨fun k => ?_, by rw [List.prod_cons, Nat.mul_assoc]⟩
        cases k with
        | zero => simpa using ha
        | succ k => simpa [Nat.mul_assoc] using hpartial k
      · rintro ⟨hpartial, rfl⟩
        have hlt : a * n < limit := by simpa using hpartial 1
        refine ⟨a * n, ⟨hlt, rfl⟩, (ih hlt).mpr ⟨fun k => ?_, ?_⟩⟩
        · simpa [Nat.mul_assoc] using hpartial (k + 1)
        · rw [List.prod_cons, Nat.mul_assoc]

/-- A product of words is exact, and is found if no partial product is beyond a word. -/
theorem product_eq_ok {ns : List Nat} {b : Nat} :
    product ns = .ok b ↔ (∀ k, (ns.take k).prod < limit) ∧ b = ns.prod := by
  rw [product, foldlM_mul_eq_ok one_lt_limit]
  simp only [Nat.one_mul]

theorem product_lt {ns : List Nat} {b : Nat} (h : product ns = .ok b) : b < limit := by
  obtain ⟨hpartial, rfl⟩ := product_eq_ok.mp h
  simpa using hpartial ns.length

theorem product_eq {ns : List Nat} {b : Nat} (h : product ns = .ok b) : b = ns.prod :=
  (product_eq_ok.mp h).2

/-- Positive factors whose product is a word have one that is found. -/
theorem product_of_lt {ns : List Nat} (hpos : ∀ n ∈ ns, 0 < n) (h : ns.prod < limit) :
    product ns = .ok ns.prod := by
  -- the factors to come are positive, so a partial product is no larger than the whole
  have hprod : 0 < ns.prod := List.prod_pos_iff_forall_pos_nat.mpr hpos
  have hpartial : ∀ k, (ns.take k).prod ≤ ns.prod := fun k =>
    Nat.le_of_dvd hprod (Dvd.intro _ (List.prod_take_mul_prod_drop ns k))
  exact product_eq_ok.mpr ⟨fun k => Nat.lt_of_le_of_lt (hpartial k) h, rfl⟩

/-- A product fails by a multiplication that overflows. -/
theorem product_eq_error {ns : List Nat} {e : Error} (h : product ns = .error e) :
    e = .arithmetic .mulOverflow := by
  have hfold : ∀ a, ns.foldlM mul a = .error e → e = .arithmetic .mulOverflow := by
    clear h
    induction ns with
    | nil => exact fun a h => nomatch h
    | cons n ns ih =>
        intro a h
        rw [List.foldlM_cons, mul] at h
        split at h
        · exact ih _ h
        · exact (Except.error.inj h).symm
  exact hfold 1 h

end Word

end TensorLoops
