import TensorLoops.Proofs.Code.Machine

/-!
# Proofs — Code — Running

Runs that end without returning, seen by what they do to the memory (`Runs`).  There is one rule
for each statement of a loop nest; the rule for loops asks for an invariant of the iterations.
-/

namespace TensorLoops

variable {V : Type} (I : Interp V)

/-- The statements run from memory `m` to memory `m'`, whatever happened before. -/
def Runs (ss : List Stmt) (m m' : Memory V) : Prop :=
  ∀ trace, ∃ trace', execList I ss ⟨m, trace, none⟩ = some ⟨m', trace', none⟩

variable {I} {m m₁ m' : Memory V}

/-- Writing to one variable leaves the others. -/
theorem update_of_id_ne {p q : Place} (h : p.id ≠ q.id) (x : V) : Function.update m q x p = m p :=
  Function.update_of_ne (fun heq => h (congrArg Place.id heq)) x m

/-- Statements run one after the other as long as none of them returns. -/
theorem execList_append {ss ts : List Stmt} {s s₁ : Machine V} (h : execList I ss s = some s₁)
    (hs : s₁.result = none) : execList I (ss ++ ts) s = execList I ts s₁ := by
  induction ss generalizing s with
  | nil =>
      obtain rfl := Option.some.inj h
      rfl
  | cons t ss ih =>
      obtain ⟨s₂, ht, h⟩ := Option.bind_eq_some_iff.mp h
      rw [List.cons_append, execList, ht]
      show s₂.proceed _ = _
      unfold Machine.proceed at h ⊢
      split at h
      · rename_i hsome
        obtain rfl := Option.some.inj h
        rw [hs] at hsome
        exact nomatch hsome
      · rename_i hnone
        rw [if_neg hnone]
        exact ih h

/-- One statement. -/
theorem execList_singleton {t : Stmt} {s : Machine V} : execList I [t] s = exec I t s := by
  rw [execList]
  cases exec I t s with
  | none => rfl
  | some s' =>
      show s'.proceed some = some s'
      unfold Machine.proceed
      split <;> rfl

namespace Runs

theorem nil : Runs I [] m m := fun trace => ⟨trace, rfl⟩

/-- Two runs can be made one. -/
theorem append {ss ts : List Stmt} (h : Runs I ss m m₁) (h' : Runs I ts m₁ m') :
    Runs I (ss ++ ts) m m' := by
  intro trace
  obtain ⟨trace₁, h₁⟩ := h trace
  obtain ⟨trace₂, h₂⟩ := h' trace₁
  exact ⟨trace₂, (execList_append h₁ rfl).trans h₂⟩

theorem cons {t : Stmt} {ts : List Stmt} (h : Runs I [t] m m₁) (h' : Runs I ts m₁ m') :
    Runs I (t :: ts) m m' := h.append h'

theorem seq {ss : List Stmt} (h : Runs I ss m m') : Runs I [.seq ss] m m' := by
  intro trace
  obtain ⟨trace', h⟩ := h trace
  exact ⟨trace', execList_singleton.trans h⟩

theorem ofList {ss : List Stmt} (h : Runs I ss m m') : Runs I [.ofList ss] m m' := by
  unfold Stmt.ofList
  split
  · exact h
  · exact h.seq

/-- An assignment sets the scalar of its variable. -/
theorem assign {v : Var} {e : Expr} {x : V} (h : eval I m e = some x) :
    Runs I [.assign v e] m (Function.update m (.scalar v.id) x) := by
  intro trace
  rw [execList_singleton, exec, h]
  exact ⟨_, rfl⟩

/-- A declaration with a value does the same. -/
theorem declare {v : Var} {e : Expr} {x : V} (h : eval I m e = some x) :
    Runs I [.declare v (some e)] m (Function.update m (.scalar v.id) x) := by
  intro trace
  rw [execList_singleton, exec, h]
  exact ⟨_, rfl⟩

/-- A store sets one element, if the indices are admitted. -/
theorem store {buf : Var} {idxs : List Expr} {e : Expr} {x : V} {is : List Int}
    (h : eval I m e = some x) (hidxs : indices I m idxs = some is) (hty : buf.ty.Admits is) :
    Runs I [.store buf idxs e] m (Function.update m (.element buf.id is) x) := by
  intro trace
  rw [execList_singleton, exec, h, place, hidxs]
  simp only [Option.bind_eq_bind, Option.bind_some, cell, if_pos hty]
  exact ⟨_, rfl⟩

/-- A condition that holds runs its branch. -/
theorem cond_true {test : Expr} {yes : Stmt} {x : V} (h : eval I m test = some x)
    (hx : I.isTrue x = true) (hyes : Runs I [yes] m m') : Runs I [.cond test yes none] m m' := by
  intro trace
  rw [execList_singleton, exec, h]
  simp only [Option.bind_eq_bind, Option.bind_some, if_pos hx]
  obtain ⟨trace', hyes⟩ := hyes ((trace ++ [.value x]) ++ [.branch true])
  exact ⟨trace', execList_singleton.symm.trans hyes⟩

/-- A condition that does not hold does nothing. -/
theorem cond_false {test : Expr} {yes : Stmt} {x : V} (h : eval I m test = some x)
    (hx : I.isTrue x = false) : Runs I [.cond test yes none] m m := by
  intro trace
  rw [execList_singleton, exec, h]
  simp only [Option.bind_eq_bind, Option.bind_some, hx]
  exact ⟨_, rfl⟩

end Runs

/-- **A loop**, by an invariant of its iterations.  There is none if the extent is negative. -/
theorem runs_loop {v : Var} {extent : Expr} {body : Stmt} {k : Int}
    (hcount : ∀ m, count I m extent = some k) (Q : Nat → Memory V → Prop)
    (hstep : ∀ i m, i < k.toNat → Q i m →
      ∃ m', Runs I [body] (Function.update m (.scalar v.id) (I.counter i)) m' ∧ Q (i + 1) m')
    (h : Q 0 m) : ∃ m', Runs I [.loop v extent body] m m' ∧ Q k.toNat m' := by
  have iterations : ∀ left i m, i + left = k.toNat → Q i m → ∃ m', Q k.toNat m' ∧ ∀ trace, ∃ trace',
      iterate I v.id (exec I body) (List.range' i left) ⟨m, trace, none⟩ =
        some ⟨m', trace', none⟩ := by
    -- by induction on the iterations that are left
    intro left
    induction left with
    | zero =>
        intro i m hi hQ
        obtain rfl : i = k.toNat := hi
        exact ⟨m, hQ, fun trace => ⟨trace, rfl⟩⟩
    | succ left ih =>
        intro i m hi hQ
        obtain ⟨m₁, hrun, hQ₁⟩ := hstep i m (by omega) hQ
        obtain ⟨m', hQ', hrest⟩ := ih (i + 1) m₁ (by omega) hQ₁
        refine ⟨m', hQ', fun trace => ?_⟩
        obtain ⟨trace₁, hbody⟩ :=
          hrun ((trace ++ [.iteration i]) ++ [.write (.scalar v.id) (I.counter i)])
        obtain ⟨trace₂, hrest⟩ := hrest trace₁
        refine ⟨trace₂, ?_⟩
        rw [execList_singleton] at hbody
        rw [List.range'_succ, iterate]
        exact Option.bind_eq_some_iff.mpr ⟨_, hbody, hrest⟩
  obtain ⟨m', hQ, hrun⟩ := iterations k.toNat 0 m (Nat.zero_add _) h
  refine ⟨m', fun trace => ?_, hQ⟩
  obtain ⟨trace', hrun⟩ := hrun trace
  refine ⟨trace', ?_⟩
  rw [execList_singleton, exec, hcount]
  simp only [Option.bind_eq_bind, Option.bind_some, List.range_eq_range']
  exact hrun

end TensorLoops
