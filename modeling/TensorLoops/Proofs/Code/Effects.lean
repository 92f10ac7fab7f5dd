import TensorLoops.Proofs.Checked
import TensorLoops.Proofs.Code.Running

/-!
# Proofs — Code — Effects

What a run leaves alone.  A statement is *confined* to some ids if it sets variables with these ids
only, be it by an assignment, a store, a declaration or a loop, and never returns.  A run of it
*acts within* them: the cells of other variables hold what they held, and none was written
(`exec_actsWithin`).  So a run that ends can be followed through code of which only this much is
known, and through loops by an invariant of the machine (`exec_loop`).
-/

namespace TensorLoops

/-! ### Confined statements -/

namespace Stmt

variable {K : Nat → Prop}

mutual

/-- The statement sets variables with ids in `K` only, and does not return. -/
def Confined (K : Nat → Prop) : Stmt → Prop
  | .seq ss        => ConfinedList K ss
  | .declare v _   => K v.id
  | .assign v _    => K v.id
  | .store buf _ _ => K buf.id
  | .loop v _ body => K v.id ∧ body.Confined K
  | .cond _ yes no => yes.Confined K ∧ ConfinedOption K no
  | .eval _        => True
  | .ret _         => False
  | .asm a         => ∀ o ∈ a.outputs, ∀ v ∈ o.value.vars, K v.id

def ConfinedList (K : Nat → Prop) : List Stmt → Prop
  | []      => True
  | s :: ss => s.Confined K ∧ ConfinedList K ss

def ConfinedOption (K : Nat → Prop) : Option Stmt → Prop
  | none   => True
  | some s => s.Confined K

end

/-- Lists of statements are confined when both parts are. -/
@[simp] theorem confinedList_append {ss ts : List Stmt} :
    ConfinedList K (ss ++ ts) ↔ ConfinedList K ss ∧ ConfinedList K ts := by
  induction ss with
  | nil => simp [ConfinedList]
  | cons s ss ih => simp [ConfinedList, ih, and_assoc]

/-- Being confined does not depend on how a list is made one statement. -/
@[simp] theorem confined_ofList {ss : List Stmt} : (ofList ss).Confined K ↔ ConfinedList K ss := by
  unfold ofList
  split
  · simp [ConfinedList]
  · rfl

end Stmt

/-! ### What is left alone -/

section Machines

variable {V : Type}

/-- The cells of a variable that were written, in order and as often as they were. -/
def writesTo (id : Nat) (trace : List (Event V)) : List Place :=
  trace.filterMap fun
    | .write p _ => if p.id = id then some p else none
    | _          => none

/-- The writes of a trace are those of its parts, in order. -/
theorem writesTo_append (id : Nat) (es fs : List (Event V)) :
    writesTo id (es ++ fs) = writesTo id es ++ writesTo id fs := List.filterMap_append

/-- Ids outside `K` are left alone: their cells hold what they held, and none was written. -/
structure ActsWithin (K : Nat → Prop) (s s' : Machine V) : Prop where
  result : s'.result = s.result
  memory : ∀ p : Place, ¬ K p.id → s'.memory p = s.memory p
  writes : ∀ id, ¬ K id → writesTo id s'.trace = writesTo id s.trace

namespace ActsWithin

variable {K : Nat → Prop} {s s₁ s' : Machine V}

theorem refl (s : Machine V) : ActsWithin K s s := ⟨rfl, fun _ _ => rfl, fun _ _ => rfl⟩

/-- What acts within a set twice acts within it. -/
theorem trans (h : ActsWithin K s s₁) (h' : ActsWithin K s₁ s') : ActsWithin K s s' where
  result := h'.result.trans h.result
  memory := fun p hp => (h'.memory p hp).trans (h.memory p hp)
  writes := fun id hid => (h'.writes id hid).trans (h.writes id hid)

/-- Noting something else than a write. -/
theorem log {e : Event V} (he : ∀ id, writesTo id [e] = []) (s : Machine V) :
    ActsWithin K s (s.log e) := by
  refine ⟨rfl, fun _ _ => rfl, fun id _ => ?_⟩
  rw [Machine.log, writesTo_append, he, List.append_nil]

/-- A write acts within its own variable. -/
theorem write {p : Place} (hp : K p.id) (x : V) (s : Machine V) : ActsWithin K s (s.write p x) := by
  refine ⟨rfl, fun q hq => ?_, fun id hid => ?_⟩
  · have hne : q.id ≠ p.id := fun h => hq (h ▸ hp)
    exact update_of_id_ne hne x
  · have hne : p.id ≠ id := fun h => hid (h ▸ hp)
    rw [Machine.write, writesTo_append]
    simp [writesTo, hne]

theorem assign {p : Place} (hp : K p.id) (x : V) (s : Machine V) :
    ActsWithin K s ((s.log (.value x)).write p x) := (log (fun _ => rfl) s).trans (write hp x _)

/-- Beginning an iteration acts within the loop variable. -/
theorem begin {id : Nat} (hid : K id) (I : Interp V) (i : Nat) (s : Machine V) :
    ActsWithin K s (s.begin I id i) := (log (fun _ => rfl) s).trans (write hid _ _)

theorem logAll (xs : List V) (s : Machine V) :
    ActsWithin K s (xs.foldl (fun s x => s.log (.value x)) s) := by
  induction xs generalizing s with
  | nil => exact refl s
  | cons x xs ih => exact (log (fun _ => rfl) s).trans (ih _)

/-- Writes to variables of a set act within it. -/
theorem writeAll {ws : List (Place × V)} (hws : ∀ w ∈ ws, K w.1.id) (s : Machine V) :
    ActsWithin K s (s.writeAll ws) := by
  induction ws generalizing s with
  | nil => exact refl s
  | cons w ws ih =>
      obtain ⟨hw, hws⟩ := List.forall_mem_cons.mp hws
      exact (write hw w.2 s).trans (ih hws _)

/-- What comes next is run unless the machine has returned. -/
theorem proceed {next : Machine V → Option (Machine V)}
    (hnext : next s = some s' → ActsWithin K s s') (h : s.proceed next = some s') :
    ActsWithin K s s' := by
  unfold Machine.proceed at h
  split at h
  · obtain rfl := Option.some.inj h
    exact refl s
  · exact hnext h

end ActsWithin

end Machines

/-! ### Running confined statements -/

section Exec

variable {V : Type} {I : Interp V} {K : Nat → Prop} {s s' : Machine V}

theorem exec_ofList {ss : List Stmt} : exec I (.ofList ss) s = execList I ss s := by
  unfold Stmt.ofList
  split
  · exact execList_singleton.symm
  · rfl

/-- A cell that is named belongs to a variable of the name. -/
theorem mem_vars_of_place {m : Memory V} {e : Expr} {p : Place} (h : place I m e = some p) :
    ∃ v ∈ e.vars, p.id = v.id := by
  cases e with
  | var v =>
      obtain rfl := Option.some.inj h
      exact ⟨v, List.mem_singleton_self v, rfl⟩
  | element base idxs =>
      obtain ⟨is, -, h⟩ := Option.bind_eq_some_iff.mp h
      cases base with
      | var v =>
          simp only [cell] at h
          split at h
          · obtain rfl := Option.some.inj h
            exact ⟨v, by simp [Expr.vars], rfl⟩
          · cases h
      | _ => cases h
  | _ => cases h

/-- A loop acts within its variable and what its body acts within.  By induction on the iterations
left. -/
theorem iterate_actsWithin {id : Nat} {body : Machine V → Option (Machine V)} (hid : K id)
    (hbody : ∀ s s', body s = some s' → ActsWithin K s s') {is : List Nat}
    (h : iterate I id body is s = some s') : ActsWithin K s s' := by
  induction is generalizing s with
  | nil =>
      obtain rfl := Option.some.inj h
      exact .refl s
  | cons i is ih =>
      obtain ⟨s₁, hs₁, h⟩ := Option.bind_eq_some_iff.mp h
      have hfirst := (ActsWithin.begin hid I i s).trans (hbody _ _ hs₁)
      exact hfirst.trans (.proceed ih h)

mutual

/-- **A run of a confined statement leaves the other ids alone.** -/
theorem exec_actsWithin : ∀ {t : Stmt} {s s' : Machine V}, t.Confined K → exec I t s = some s' →
    ActsWithin K s s'
  | .seq _, _, _, ht, h => execList_actsWithin ht h
  | .declare v none, s, _, ht, h => by
      obtain rfl := Option.some.inj h
      refine ⟨rfl, fun p hp => ?_, fun _ _ => rfl⟩
      have hne : p.id ≠ v.id := fun h => hp (h ▸ ht)
      exact if_neg hne
  | .declare _ (some _), s, _, ht, h => by
      obtain ⟨x, -, h⟩ := Option.bind_eq_some_iff.mp h
      obtain rfl := Option.some.inj h
      exact .assign ht x s
  | .assign _ _, s, _, ht, h => by
      obtain ⟨x, -, h⟩ := Option.bind_eq_some_iff.mp h
      obtain rfl := Option.some.inj h
      exact .assign ht x s
  | .store _ _ _, s, _, ht, h => by
      obtain ⟨x, -, h⟩ := Option.bind_eq_some_iff.mp h
      obtain ⟨p, hp, h⟩ := Option.bind_eq_some_iff.mp h
      obtain rfl := Option.some.inj h
      obtain ⟨is, -, hp⟩ := Option.bind_eq_some_iff.mp hp
      simp only [cell] at hp
      split at hp
      · obtain rfl := Option.some.inj hp
        exact .assign ht x s
      · cases hp
  | .loop _ _ _, _, _, ht, h => by
      obtain ⟨n, -, h⟩ := Option.bind_eq_some_iff.mp h
      exact iterate_actsWithin ht.1 (fun _ _ => exec_actsWithin ht.2) h
  | .cond _ _ _, s, _, ht, h => by
      obtain ⟨x, -, h⟩ := Option.bind_eq_some_iff.mp h
      have hlog (b : Bool) : ActsWithin K s ((s.log (.value x)).log (.branch b)) :=
        (ActsWithin.log (fun _ => rfl) _).trans (.log (fun _ => rfl) _)
      split at h
      · exact (hlog true).trans (exec_actsWithin ht.1 h)
      · exact (hlog false).trans (execOption_actsWithin ht.2 h)
  | .eval _, s, _, _, h => by
      obtain ⟨x, -, h⟩ := Option.bind_eq_some_iff.mp h
      obtain rfl := Option.some.inj h
      exact .log (fun _ => rfl) s
  | .asm a, s, _, ht, h => by
      obtain ⟨outs, -, h⟩ := Option.bind_eq_some_iff.mp h
      obtain ⟨ins, -, h⟩ := Option.bind_eq_some_iff.mp h
      obtain ⟨ps, hps, h⟩ := Option.bind_eq_some_iff.mp h
      obtain rfl := Option.some.inj h
      refine (ActsWithin.logAll (outs ++ ins) s).trans (.writeAll (fun w hw => ?_) _)
      -- a cell that is written is that of an output
      obtain ⟨e, he, hplace⟩ :=
        exists_of_forall₂ (mapM_eq_some_iff.mp hps) (List.of_mem_zip hw).1
      obtain ⟨o, ho, rfl⟩ := List.mem_map.mp he
      obtain ⟨v, hv, hid⟩ := mem_vars_of_place hplace
      exact hid ▸ ht o ho v hv

theorem execList_actsWithin : ∀ {ts : List Stmt} {s s' : Machine V}, Stmt.ConfinedList K ts →
    execList I ts s = some s' → ActsWithin K s s'
  | [], s, _, _, h => by
      obtain rfl := Option.some.inj h
      exact .refl s
  | _ :: _, _, _, ht, h => by
      obtain ⟨s₁, hs₁, h⟩ := Option.bind_eq_some_iff.mp h
      exact (exec_actsWithin ht.1 hs₁).trans (.proceed (execList_actsWithin ht.2) h)

theorem execOption_actsWithin : ∀ {t : Option Stmt} {s s' : Machine V}, Stmt.ConfinedOption K t →
    execOption I t s = some s' → ActsWithin K s s'
  | none, s, _, _, h => by
      obtain rfl := Option.some.inj h
      exact .refl s
  | some _, _, _, ht, h => exec_actsWithin ht h

end

/-- Code that does not return is run to its end before what follows it. -/
theorem execList_append_eq_some {ss ts : List Stmt} (hss : Stmt.ConfinedList K ss)
    (hs : s.result = none) (h : execList I (ss ++ ts) s = some s') :
    ∃ s₁, execList I ss s = some s₁ ∧ execList I ts s₁ = some s' := by
  induction ss generalizing s with
  | nil => exact ⟨s, rfl, h⟩
  | cons t ss ih =>
      obtain ⟨s₁, ht, h⟩ := Option.bind_eq_some_iff.mp h
      have hs₁ : s₁.result = none := (exec_actsWithin hss.1 ht).result.trans hs
      rw [Machine.proceed, hs₁] at h
      obtain ⟨s₂, hs₂, h⟩ := ih hss.2 hs₁ h
      refine ⟨s₂, ?_, h⟩
      rw [execList, ht]
      show s₁.proceed _ = _
      rw [Machine.proceed, hs₁]
      exact hs₂

/-- **A loop in a run that ends**, by an invariant of its iterations. -/
theorem exec_loop {v : Var} {extent : Expr} {body : Stmt} {n : Nat}
    (hcount : ∀ m, count I m extent = some (n : Int)) (Q : Nat → Machine V → Prop)
    (hgoing : ∀ i s, Q i s → s.result = none)
    (hstep : ∀ i s s', i < n → Q i s → exec I body (s.begin I v.id i) = some s' → Q (i + 1) s')
    (h : Q 0 s) (hrun : exec I (.loop v extent body) s = some s') : Q n s' := by
  have iterations : ∀ k i s, i + k = n → Q i s →
      iterate I v.id (exec I body) (List.range' i k) s = some s' → Q n s' := by
    -- by induction on the iterations that are left
    intro k
    induction k with
    | zero =>
        intro i s hi hQ hrun
        obtain rfl : i = n := hi
        obtain rfl := Option.some.inj hrun
        exact hQ
    | succ k ih =>
        intro i s hi hQ hrun
        rw [List.range'_succ] at hrun
        obtain ⟨s₁, hs₁, hrun⟩ := Option.bind_eq_some_iff.mp hrun
        have hQ₁ := hstep i s s₁ (by omega) hQ hs₁
        rw [Machine.proceed, hgoing _ _ hQ₁] at hrun
        exact ih (i + 1) s₁ (by omega) hQ₁ hrun
  obtain ⟨k, hk, hrun⟩ := Option.bind_eq_some_iff.mp hrun
  obtain rfl := Option.some.inj ((hcount _).symm.trans hk)
  rw [Int.toNat_natCast, List.range_eq_range'] at hrun
  exact iterations n 0 s (Nat.zero_add n) h hrun

end Exec

end TensorLoops
