import TensorLoops.Proofs.Code.Accesses

/-!
# Proofs — Code — NormalForm

What flattening gives, and when.  `Flattens` says it of any part of the code: a result is given if
the accesses suit their variables and the numbers of elements are found, with what is known of it,
and a failure names which of the two does not hold.

* `Stmt.flatten_flattens`: the accesses of a flattened statement are those of the statement in
  order, each with one index, and its variables are those of the statement in order, each laid out
  in one dimension unless a loop counts it.
* `Stmt.flatten_iff_suits`: the outcome for every statement.  A tensor without elements is counted
  from the left like any other, so that its number can be out of reach while being zero
  (`Stmt.flatten_vacant`).
-/

namespace TensorLoops

/-! ### Layouts in one dimension -/

/-- The type laid out in one dimension. -/
def Ty.linear : Ty → Ty
  | .tensor s shape => .tensor s [shape.prod]
  | ty              => ty

/-- The number of elements is found: no product on the way to it, from the left, is beyond a
word. -/
def Ty.Counted : Ty → Prop
  | .tensor _ shape => ∀ k, (shape.take k).prod < Word.limit
  | _               => True

/-- The variable laid out in one dimension. -/
def Var.linear (v : Var) : Var := { v with ty := v.ty.linear }

/-- The access of a variable that is laid out in one dimension. -/
def Access.linear : Access → Access
  | ⟨.var v, _⟩ => ⟨.var v.linear, 1⟩
  | ⟨base, _⟩   => ⟨base, 1⟩

theorem Access.linear_rank (a : Access) : a.linear.rank = 1 := by
  obtain ⟨base, rank⟩ := a
  cases base <;> rfl

/-- A variable is flattened if its elements can be counted, to one of as many in one dimension. -/
theorem Var.flatten_eq_ok {v w : Var} : v.flatten = .ok w ↔ v.ty.Counted ∧ w = v.linear := by
  obtain ⟨id, hint, ty⟩ := v
  cases ty with
  | tensor s shape =>
      simp only [Var.flatten, bind_eq_ok, pure_eq_ok, Word.product_eq_ok, Ty.Counted, Var.linear,
        Ty.linear]
      constructor
      · rintro ⟨_, ⟨h, rfl⟩, rfl⟩
        exact ⟨h, rfl⟩
      · rintro ⟨h, rfl⟩
        exact ⟨_, ⟨h, rfl⟩, rfl⟩
  | _ => simp [Var.flatten, Ty.Counted, Var.linear, Ty.linear, eq_comm]

/-- A number of elements that is positive and a word is found. -/
theorem Ty.Counted.of_count {ty : Ty} (hpos : 0 < ty.count) (h : ty.count < Word.limit) :
    ty.Counted := by
  cases ty with
  | tensor s shape =>
      exact (Word.product_eq_ok.mp
        (Word.product_of_lt (List.prod_pos_iff_forall_pos_nat.mp hpos) h)).1
  | _ => trivial

/-! ### Outcomes -/

/-- The outcome of flattening code whose accesses suit their variables if `P` and whose numbers of
elements are found if `Q`: then a result with `R`, otherwise an error for the one that fails. -/
inductive Flattens {α : Type} (P Q : Prop) (R : α → Prop) : Except Error α → Prop where
  | ok {a : α} (hp : P) (hq : Q) (hr : R a) : Flattens P Q R (.ok a)
  | layout {e : LayoutError} (hp : ¬ P) : Flattens P Q R (.error (.layout e))
  | overflow (hq : ¬ Q) : Flattens P Q R (.error (.arithmetic .mulOverflow))

namespace Flattens

variable {α β : Type} {P P' Q Q' : Prop} {R : α → Prop} {S : β → Prop} {x : Except Error α}

/-- The conditions of an outcome may be replaced by equivalent ones. -/
theorem congr (h : Flattens P Q R x) (hp : P ↔ P') (hq : Q ↔ Q') : Flattens P' Q' R x := by
  rwa [← hp, ← hq]

/-- The conditions of two computations one after the other add up. -/
theorem bind {f : α → Except Error β} (hx : Flattens P Q R x)
    (hf : ∀ a, R a → Flattens P' Q' S (f a)) : Flattens (P ∧ P') (Q ∧ Q') S (x >>= f) := by
  cases hx with
  | @ok a hp hq hr =>
      rw [ok_bind]
      generalize f a = y, hf a hr = hy
      cases hy with
      | ok hp' hq' hs => exact .ok ⟨hp, hp'⟩ ⟨hq, hq'⟩ hs
      | layout hp' => exact .layout fun h => hp' h.2
      | overflow hq' => exact .overflow fun h => hq' h.2
  | layout hp => exact .layout fun h => hp h.1
  | overflow hq => exact .overflow fun h => hq h.1

/-- Nothing can go wrong after the first step. -/
theorem map {g : α → β} (hx : Flattens P Q R x) (hg : ∀ a, R a → S (g a)) :
    Flattens P Q S (x >>= fun a => pure (g a)) := by
  cases hx with
  | ok hp hq hr => exact .ok hp hq (hg _ hr)
  | layout hp => exact .layout hp
  | overflow hq => exact .overflow hq

/-- There is a result exactly if both conditions hold. -/
theorem ok_iff (h : Flattens P Q R x) : (∃ a, x = .ok a) ↔ P ∧ Q := by
  cases h with
  | ok hp hq _ => exact iff_of_true ⟨_, rfl⟩ ⟨hp, hq⟩
  | layout hp => exact iff_of_false (by simp) fun h => hp h.1
  | overflow hq => exact iff_of_false (by simp) fun h => hq h.2

theorem result {a : α} (h : Flattens P Q R x) (hx : x = .ok a) : R a := by
  subst hx
  cases h with
  | ok _ _ hr => exact hr

/-- An error of layout says that the first condition fails, and an overflow that the second does. -/
theorem error {e : Error} (h : Flattens P Q R x) (hx : x = .error e) :
    (∃ l, e = .layout l) ∧ ¬ P ∨ e = .arithmetic .mulOverflow ∧ ¬ Q := by
  subst hx
  cases h with
  | layout hp => exact .inl ⟨⟨_, rfl⟩, hp⟩
  | overflow hq => exact .inr ⟨rfl, hq⟩

end Flattens

/-- Flattening a variable can fail by an overflow only. -/
theorem Var.flatten_flattens (v : Var) : Flattens True v.ty.Counted (· = v.linear) v.flatten := by
  cases h : v.flatten with
  | ok w =>
      obtain ⟨hcounted, hw⟩ := flatten_eq_ok.mp h
      exact .ok trivial hcounted hw
  | error e =>
      obtain rfl := flatten_eq_error h
      refine .overflow fun hcounted => ?_
      cases h.symm.trans (flatten_eq_ok.mpr ⟨hcounted, rfl⟩)

/-! ### Expressions -/

/-- A row-major address is made of the indices in their order. -/
theorem rowMajor_parts {shape : List Nat} {es : List Expr} (h : es.length = shape.length) :
    (rowMajor shape es).accesses = Expr.accessesList es ∧
      (rowMajor shape es).vars = Expr.varsList es := by
  have hfold : ∀ (es : List Expr) (extents : List Nat) (acc : Expr), es.length = extents.length →
      let e := (es.zip extents).foldl (fun acc p => (acc.mul (.ofSize p.2)).add p.1) acc
      e.accesses = acc.accesses ++ Expr.accessesList es ∧
        e.vars = acc.vars ++ Expr.varsList es := by
    intro es
    induction es with
    | nil => intro extents acc _; simp [Expr.accessesList, Expr.varsList]
    | cons e es ih =>
        intro extents acc h
        cases extents with
        | nil => cases h
        | cons n extents =>
            obtain ⟨haccesses, hvars⟩ := ih extents ((acc.mul (.ofSize n)).add e) (Nat.succ.inj h)
            refine ⟨haccesses.trans ?_, hvars.trans ?_⟩
            · simp [Expr.add, Expr.mul, Expr.ofSize, Expr.int, Expr.accesses, Expr.accessesList]
            · simp [Expr.add, Expr.mul, Expr.ofSize, Expr.int, Expr.vars, Expr.varsList]
  cases es with
  | nil => exact ⟨rfl, rfl⟩
  | cons e es =>
      cases shape with
      | nil => cases h
      | cons n extents => exact hfold es extents e (Nat.succ.inj h)

/-- In `t` are the accesses and the variables of `s`, in order, laid out in one dimension. -/
structure Laid {α ω : Type} (accesses : α → List Access) (vars : α → List ω) (linear : ω → ω)
    (s t : α) : Prop where
  accesses : accesses t = (accesses s).map Access.linear
  vars     : vars t = (vars s).map linear

namespace Expr

/-- Lists of expressions are laid out when their members are. -/
theorem laid_cons {e t : Expr} {es ts : List Expr} (h : Laid accesses vars Var.linear e t)
    (hs : Laid accessesList varsList Var.linear es ts) :
    Laid accessesList varsList Var.linear (e :: es) (t :: ts) where
  accesses := by rw [accessesList, accessesList, h.accesses, hs.accesses, List.map_append]
  vars     := by rw [varsList, varsList, h.vars, hs.vars, List.map_append]

/-- Index expressions joined to one address mention what they mentioned before. -/
theorem laid_rowMajor {shape : List Nat} {es ts : List Expr}
    (h : Laid accessesList varsList Var.linear es ts) (hrank : ts.length = shape.length) :
    Laid accessesList varsList Var.linear es [rowMajor shape ts] := by
  obtain ⟨haccesses, hvars⟩ := rowMajor_parts hrank
  constructor
  · rw [accessesList, accessesList, haccesses, List.append_nil, h.accesses]
  · rw [varsList, varsList, hvars, List.append_nil, h.vars]

/-- The index of a flattened access stands for its indices. -/
theorem flatIndex_flattens {base : Expr} {es ts : List Expr} (hlength : ts.length = es.length)
    (h : Laid accessesList varsList Var.linear es ts) :
    Flattens (Access.mk base es.length).Suits True
      (fun ks => (∃ v, base = .var v) ∧ ks.length = 1 ∧ Laid accessesList varsList Var.linear es ks)
      (flatIndex base ts) := by
  rw [← hlength]
  cases base with
  | var v =>
      refine .congr ?_ Access.suits_var.symm Iff.rfl
      obtain ⟨id, hint, ty⟩ := v
      cases ty with
      | tensor s shape =>
          by_cases hrank : ts.length = shape.length
          · rw [flatIndex, if_pos hrank]
            exact .ok hrank trivial ⟨⟨_, rfl⟩, rfl, laid_rowMajor h hrank⟩
          · rw [flatIndex, if_neg hrank]
            exact .layout hrank
      | pointer base =>
          by_cases hrank : ts.length = 1
          · rw [flatIndex, if_pos hrank]
            exact .ok hrank trivial ⟨⟨_, rfl⟩, hrank, h⟩
          · rw [flatIndex, if_neg hrank]
            exact .layout hrank
      | _ => exact .layout not_false
  | _ =>
      refine .layout ?_
      rintro ⟨_, hbase, -⟩
      cases hbase

/-- The access itself, its index found. -/
theorem element_flattens {base : Expr} {es ks : List Expr} (hbase : ∃ v, base = .var v)
    (hlength : ks.length = 1) (h : Laid accessesList varsList Var.linear es ks) :
    Flattens (∀ a ∈ base.accesses, a.Suits) (∀ v ∈ base.vars, v.ty.Counted)
      (Laid accesses vars Var.linear (.element base es))
      (do return .element (← base.flatten) ks) := by
  obtain ⟨v, rfl⟩ := hbase
  have hvar : Flattens True v.ty.Counted (· = .var v.linear) (Expr.var v).flatten :=
    v.flatten_flattens.map fun w hw => by rw [hw]
  refine .congr (hvar.map fun b hb => ?_) (by simp [accesses]) (by simp [vars])
  subst hb
  exact ⟨by simp [accesses, Access.linear, hlength, h.accesses], by simp [vars, h.vars]⟩

mutual

/-- **Flattening an expression** succeeds if every access suits its variable and every variable can
be counted, and then lays it out. -/
theorem flatten_flattens : ∀ e : Expr, Flattens (∀ a ∈ e.accesses, a.Suits)
    (∀ v ∈ e.vars, v.ty.Counted) (Laid accesses vars Var.linear e) e.flatten
  | .var v => by
      refine .congr (v.flatten_flattens.map fun w hw => ?_) (by simp [accesses]) (by simp [vars])
      subst hw
      exact ⟨rfl, rfl⟩
  | .const _ _ => .ok (by simp [accesses]) (by simp [vars]) ⟨rfl, rfl⟩
  | .node _ => .ok (by simp [accesses]) (by simp [vars]) ⟨rfl, rfl⟩
  | .binary _ lhs rhs => by
      refine .congr (lhs.flatten_flattens.bind fun l hl => rhs.flatten_flattens.map fun r hr => ?_)
        List.forall_mem_append.symm List.forall_mem_append.symm
      exact ⟨by simp [accesses, hl.accesses, hr.accesses], by simp [vars, hl.vars, hr.vars]⟩
  | .unary _ e => e.flatten_flattens.map fun _ h => ⟨h.accesses, h.vars⟩
  | .cast e _ => e.flatten_flattens.map fun _ h => ⟨h.accesses, h.vars⟩
  | .element base idxs => by
      refine .congr ((flattenList_flattens idxs).bind fun js hjs =>
        (flatIndex_flattens hjs.1 hjs.2).bind fun ks hks =>
          element_flattens hks.1 hks.2.1 hks.2.2) ?_ ?_
      -- the indices are flattened before the access is looked at, but listed behind it
      · rw [accesses, List.forall_mem_cons, List.forall_mem_append]
        tauto
      · rw [vars, List.forall_mem_append]
        tauto
  | .call _ args => (flattenList_flattens args).map fun _ h => ⟨h.2.accesses, h.2.vars⟩

theorem flattenList_flattens : ∀ es : List Expr, Flattens (∀ a ∈ accessesList es, a.Suits)
    (∀ v ∈ varsList es, v.ty.Counted)
    (fun ts => ts.length = es.length ∧ Laid accessesList varsList Var.linear es ts) (flattenList es)
  | [] => .ok (by simp [accessesList]) (by simp [varsList]) ⟨rfl, rfl, rfl⟩
  | e :: es =>
      .congr (e.flatten_flattens.bind fun _ h => (flattenList_flattens es).map fun _ hs =>
          ⟨congrArg Nat.succ hs.1, laid_cons h hs.2⟩)
        List.forall_mem_append.symm List.forall_mem_append.symm

end

theorem varsList_eq_flatMap (es : List Expr) : varsList es = es.flatMap vars := by
  induction es with
  | nil => rfl
  | cons e es ih => rw [varsList, ih, List.flatMap_cons]

end Expr

/-! ### Statements -/

namespace Asm

theorem vars_eq_append (a : Asm) : a.vars =
    Expr.varsList (a.outputs.map (·.value)) ++ Expr.varsList (a.inputs.map (·.value)) := by
  simp [vars, Expr.varsList_eq_flatMap, List.flatMap_map]

/-- The operands of an inline instruction are flattened one after the other. -/
theorem operands_flattens (os : List AsmOperand) :
    Flattens (∀ a ∈ Expr.accessesList (os.map (·.value)), a.Suits)
      (∀ v ∈ Expr.varsList (os.map (·.value)), v.ty.Counted)
      (fun ts => Laid Expr.accessesList Expr.varsList Var.linear (os.map (·.value))
        (ts.map (·.value)))
      (os.mapM fun o => do
        let value ← o.value.flatten
        return { o with value }) := by
  induction os with
  | nil => exact .ok (by simp [Expr.accessesList]) (by simp [Expr.varsList]) ⟨rfl, rfl⟩
  | cons o os ih =>
      rw [List.mapM_cons]
      have hoperand := o.value.flatten_flattens.map
        (S := fun t : AsmOperand => Laid Expr.accesses Expr.vars Var.linear o.value t.value)
        (g := fun value => { o with value }) fun _ h => h
      exact .congr (hoperand.bind fun _ h => ih.map fun _ hs => Expr.laid_cons h hs)
        List.forall_mem_append.symm List.forall_mem_append.symm

/-- An inline instruction is flattened if its operands are. -/
theorem flatten_flattens (a : Asm) : Flattens (∀ x ∈ a.accesses, x.Suits)
    (∀ v ∈ a.vars, v.ty.Counted) (Laid accesses vars Var.linear a) a.flatten := by
  refine .congr ((operands_flattens a.outputs).bind fun outs houts =>
    (operands_flattens a.inputs).map fun ins hins => ?_) ?_ ?_
  · constructor
    · rw [accesses, accesses, houts.accesses, hins.accesses, List.map_append]
    · rw [vars_eq_append, vars_eq_append, houts.vars, hins.vars, List.map_append]
  · rw [accesses, List.forall_mem_append]
  · rw [vars_eq_append, List.forall_mem_append]

end Asm

/-- A variable where it stands: as the one that a loop counts, or as any other. -/
inductive Mention where
  | counter (v : Var)
  | use (v : Var)
deriving DecidableEq, Repr

namespace Mention

def var : Mention → Var
  | counter v => v
  | use v     => v

/-- The variable laid out in one dimension, unless a loop counts it. -/
def linear : Mention → Mention
  | counter v => counter v
  | use v     => use v.linear

/-- The number of elements of the variable is found, unless a loop counts it. -/
def Counted : Mention → Prop
  | counter _ => True
  | use v     => v.ty.Counted

end Mention

namespace Stmt

mutual

/-- The variables declared, assigned or read, in order of appearance, where they stand. -/
def mentions : Stmt → List Mention
  | .seq ss              => mentionsList ss
  | .declare v init      => .use v :: (init.elim [] Expr.vars).map .use
  | .assign v value      => .use v :: value.vars.map .use
  | .store buf idxs val  => .use buf :: (Expr.varsList idxs ++ val.vars).map .use
  | .loop v extent body  => .counter v :: (extent.vars.map .use ++ body.mentions)
  | .cond test yes no    => test.vars.map .use ++ yes.mentions ++ mentionsOption no
  | .eval e              => e.vars.map .use
  | .ret e               => e.vars.map .use
  | .asm a               => a.vars.map .use

def mentionsList : List Stmt → List Mention
  | []      => []
  | s :: ss => s.mentions ++ mentionsList ss

def mentionsOption : Option Stmt → List Mention
  | none   => []
  | some s => s.mentions

end

end Stmt

theorem Mention.forall_use {vs : List Var} :
    (∀ o ∈ vs.map use, o.Counted) ↔ ∀ v ∈ vs, v.ty.Counted :=
  List.forall_mem_map

/-- Declarations are never counted, so only uses can fail. -/
theorem Mention.forall_counted {os : List Mention} :
    (∀ o ∈ os, o.Counted) ↔ ∀ v, .use v ∈ os → v.ty.Counted := by
  constructor
  · exact fun h v hv => h _ hv
  · intro h o ho
    cases o with
    | counter v => trivial
    | use v => exact h v ho

theorem Mention.map_var_use {vs : List Var} : (vs.map use).map var = vs :=
  List.map_map.trans (List.map_id vs)

/-- Laying a variable out in one dimension keeps its id and hint. -/
theorem Mention.linear_name (o : Mention) :
    (o.linear.var.id, o.linear.var.hint) = (o.var.id, o.var.hint) := by
  cases o <;> rfl

theorem Mention.map_use {vs ws : List Var} (h : ws = vs.map Var.linear) :
    ws.map use = (vs.map use).map linear := by
  rw [h, List.map_map, List.map_map]
  rfl

namespace Stmt

mutual

/-- **What flattening a statement comes to**, by induction on the statement: each form flattens its
parts one after the other, and the first that cannot be flattened decides. -/
theorem flatten_flattens : ∀ s : Stmt, Flattens (∀ a ∈ s.accesses, a.Suits)
    (∀ o ∈ s.mentions, o.Counted) (Laid accesses mentions Mention.linear s) s.flatten
  | .seq ss => (flattenList_flattens ss).map fun _ h => ⟨h.accesses, h.vars⟩
  | .declare v none => by
      refine .congr (v.flatten_flattens.map fun w hw => ?_) (by simp [accesses])
        (by simp [mentions, Mention.Counted])
      subst hw
      exact ⟨rfl, rfl⟩
  | .declare v (some init) => by
      refine .congr (v.flatten_flattens.bind fun w hw => init.flatten_flattens.map fun e h => ?_)
        (by simp [accesses]) (by simp [mentions, Mention.Counted])
      subst hw
      exact ⟨h.accesses, congrArg _ (Mention.map_use h.vars)⟩
  | .assign v value => by
      refine .congr (v.flatten_flattens.bind fun w hw => value.flatten_flattens.map fun e h => ?_)
        (by simp [accesses]) (by simp [mentions, Mention.Counted])
      subst hw
      exact ⟨h.accesses, congrArg _ (Mention.map_use h.vars)⟩
  | .store buf idxs value => by
      refine .congr ((Expr.flattenList_flattens idxs).bind fun js hjs =>
        (Expr.flatIndex_flattens hjs.1 hjs.2).bind fun ks hks =>
          buf.flatten_flattens.bind fun w hw => value.flatten_flattens.map fun e h => ?_) ?_ ?_
      · subst hw
        exact ⟨by simp [accesses, Access.linear, hks.2.1, hks.2.2.accesses, h.accesses],
          congrArg _ (Mention.map_use (by rw [hks.2.2.vars, h.vars, List.map_append]))⟩
      · rw [accesses, List.forall_mem_cons, List.forall_mem_append]
        tauto
      · rw [mentions, List.forall_mem_cons, Mention.forall_use, List.forall_mem_append,
          Mention.Counted]
        tauto
  | .loop v extent body => by
      refine .congr (extent.flatten_flattens.bind fun e he => (flatten_flattens body).map
        fun b hb => ?_) List.forall_mem_append.symm ?_
      · exact ⟨by simp [accesses, he.accesses, hb.accesses],
          by simp [mentions, Mention.linear, Mention.map_use he.vars, hb.vars]⟩
      · rw [mentions, List.forall_mem_cons, List.forall_mem_append, Mention.forall_use,
          Mention.Counted, true_and]
  | .cond test yes no => by
      refine .congr (test.flatten_flattens.bind fun c hc => (flatten_flattens yes).bind
        fun y hy => (flattenOption_flattens no).map fun n hn => ?_) ?_ ?_
      · exact ⟨by simp [accesses, hc.accesses, hy.accesses, hn.accesses],
          by simp [mentions, Mention.map_use hc.vars, hy.vars, hn.vars]⟩
      · rw [accesses, List.forall_mem_append, List.forall_mem_append, and_assoc]
      · rw [mentions, List.forall_mem_append, List.forall_mem_append, and_assoc,
          Mention.forall_use]
  | .eval e =>
      .congr (e.flatten_flattens.map fun _ h => ⟨h.accesses, Mention.map_use h.vars⟩)
        Iff.rfl Mention.forall_use.symm
  | .ret e =>
      .congr (e.flatten_flattens.map fun _ h => ⟨h.accesses, Mention.map_use h.vars⟩)
        Iff.rfl Mention.forall_use.symm
  | .asm a =>
      .congr (a.flatten_flattens.map fun _ h => ⟨h.accesses, Mention.map_use h.vars⟩)
        Iff.rfl Mention.forall_use.symm

theorem flattenList_flattens : ∀ ss : List Stmt, Flattens (∀ a ∈ accessesList ss, a.Suits)
    (∀ o ∈ mentionsList ss, o.Counted)
    (Laid accessesList mentionsList Mention.linear ss) (flattenList ss)
  | [] => .ok (by simp [accessesList]) (by simp [mentionsList]) ⟨rfl, rfl⟩
  | s :: ss => by
      refine .congr ((flatten_flattens s).bind fun t h => (flattenList_flattens ss).map
        fun ts hs => ?_) List.forall_mem_append.symm List.forall_mem_append.symm
      exact ⟨by simp [accessesList, h.accesses, hs.accesses],
        by simp [mentionsList, h.vars, hs.vars]⟩

theorem flattenOption_flattens : ∀ s : Option Stmt, Flattens (∀ a ∈ accessesOption s, a.Suits)
    (∀ o ∈ mentionsOption s, o.Counted)
    (Laid accessesOption mentionsOption Mention.linear s) (flattenOption s)
  | none => .ok (by simp [accessesOption]) (by simp [mentionsOption]) ⟨rfl, rfl⟩
  | some s => (flatten_flattens s).map fun _ h => ⟨h.accesses, h.vars⟩

end

mutual

/-- The variables mentioned in a statement are its variables, in order. -/
theorem map_var_mentions : ∀ s : Stmt, s.mentions.map Mention.var = s.vars
  | .seq ss => map_var_mentionsList ss
  | .declare v init => congrArg (v :: ·) Mention.map_var_use
  | .assign v value => congrArg (v :: ·) Mention.map_var_use
  | .store buf idxs value => congrArg (buf :: ·) Mention.map_var_use
  | .loop v extent body => by
      simp only [mentions, vars, List.map_cons, List.map_append, Mention.var,
        Mention.map_var_use, map_var_mentions body]
  | .cond test yes no => by
      simp only [mentions, vars, List.map_append, Mention.map_var_use,
        map_var_mentions yes, map_var_mentionsOption no]
  | .eval _ => Mention.map_var_use
  | .ret _ => Mention.map_var_use
  | .asm _ => Mention.map_var_use

theorem map_var_mentionsList : ∀ ss : List Stmt,
    (mentionsList ss).map Mention.var = varsList ss
  | [] => rfl
  | s :: ss => by
      rw [mentionsList, varsList, List.map_append, map_var_mentions s,
        map_var_mentionsList ss]

theorem map_var_mentionsOption : ∀ s : Option Stmt,
    (mentionsOption s).map Mention.var = varsOption s
  | none => rfl
  | some s => map_var_mentions s

end

/-- **Flattening succeeds on accesses that suit, and gives a normal form.**  A statement is
flattened if and only if every access suits its variable and the number of elements of every
variable that no loop counts is found; a failure tells which of the two is not so.  Numbers that are
positive and words are found, and then the accesses alone decide.  In the result every access is the
one that was there with a single index, every variable that no loop counts is laid out in one
dimension, and all keep their identities and hints. -/
theorem flatten_iff_suits (s : Stmt) :
    ((∃ t, s.flatten = .ok t) ↔
      (∀ a ∈ s.accesses, a.Suits) ∧ ∀ v, .use v ∈ s.mentions → v.ty.Counted) ∧
    ((∀ v, .use v ∈ s.mentions → 0 < v.ty.count ∧ v.ty.count < Word.limit) →
      ((∃ t, s.flatten = .ok t) ↔ ∀ a ∈ s.accesses, a.Suits)) ∧
    (∀ t, s.flatten = .ok t →
      t.accesses = s.accesses.map Access.linear ∧ (∀ a ∈ t.accesses, a.rank = 1) ∧
      t.mentions = s.mentions.map Mention.linear ∧
      t.vars.map (fun v => (v.id, v.hint)) = s.vars.map fun v => (v.id, v.hint)) ∧
    ∀ e, s.flatten = .error e →
      (∃ l, e = .layout l) ∧ (∃ a ∈ s.accesses, ¬ a.Suits) ∨
      e = .arithmetic .mulOverflow ∧ ∃ v, .use v ∈ s.mentions ∧ ¬ v.ty.Counted := by
  have h := s.flatten_flattens
  rw [Mention.forall_counted] at h
  refine ⟨h.ok_iff, fun hcount => ?_, fun t ht => ?_, fun e he => ?_⟩
  · rw [h.ok_iff]
    exact and_iff_left fun v hv => .of_count (hcount v hv).1 (hcount v hv).2
  · obtain ⟨haccesses, hmentions⟩ := h.result ht
    refine ⟨haccesses, ?_, hmentions, ?_⟩
    · rw [haccesses]
      exact List.forall_mem_map.mpr fun a _ => a.linear_rank
    · rw [← map_var_mentions, ← map_var_mentions, hmentions]
      simp only [List.map_map]
      exact List.map_congr_left fun o _ => o.linear_name
  · simpa only [not_forall, exists_prop] using h.error he

/-- `B[p[j], i] = A[i, j]` in a loop over `i` and one over `j`. -/
def permuted : Stmt :=
  let i : Var := ⟨0, "i", .scalar .i32⟩
  let j : Var := ⟨1, "j", .scalar .i32⟩
  let a : Var := ⟨2, "A", .tensor .f32 [3, 4]⟩
  let b : Var := ⟨3, "B", .tensor .f32 [4, 3]⟩
  let p : Var := ⟨4, "p", .pointer (.scalar .i32)⟩
  .loop i (.int 3) (.loop j (.int 4)
    (.store b [.element (.var p) [.var j], .var i] (.element (.var a) [.var i, .var j])))

/-- Flattening `permuted` leaves one index in each of its accesses. -/
theorem flatten_iff_suits_permuted : (∀ a ∈ permuted.accesses, a.Suits) ∧
    (∀ v, .use v ∈ permuted.mentions → 0 < v.ty.count ∧ v.ty.count < Word.limit) ∧
    ∃ t, permuted.flatten = .ok t ∧ t.accesses.map (·.rank) = [1, 1, 1] ∧
      t.mentions = permuted.mentions.map Mention.linear := by
  have hsuits : ∀ a ∈ permuted.accesses, a.Suits := by
    simp [permuted, accesses, Expr.accesses, Expr.accessesList, Access.suits_var, Ty.Takes,
      Expr.int]
  have hcount : ∀ v, .use v ∈ permuted.mentions → 0 < v.ty.count ∧ v.ty.count < Word.limit := by
    simp [permuted, mentions, Expr.vars, Expr.varsList, Ty.count, Expr.int, Word.limit]
  obtain ⟨-, hiff, hresult, -⟩ := flatten_iff_suits permuted
  obtain ⟨t, ht⟩ := (hiff hcount).mpr hsuits
  obtain ⟨haccesses, -, hmentions, -⟩ := hresult t ht
  exact ⟨hsuits, hcount, t, ht, by rw [haccesses]; rfl, hmentions⟩

/-- `A[1, 2, 3]` of a tensor without elements. -/
def vacant : Stmt :=
  .eval (.element (.var ⟨0, "A", .tensor .f32 [4294967296, 4294967296, 0]⟩)
    [.int 1, .int 2, .int 3])

/-- The number of elements is zero, but the product of the first two extents is beyond a word. -/
theorem flatten_vacant : (∀ a ∈ vacant.accesses, a.Suits) ∧
    (∀ v ∈ vacant.vars, v.ty.count < Word.limit) ∧
    vacant.flatten = .error (.arithmetic .mulOverflow) := by
  refine ⟨?_, ?_, rfl⟩
  · simp [vacant, accesses, Expr.accesses, Expr.accessesList, Access.suits_var, Ty.Takes, Expr.int]
  · simp [vacant, vars, Expr.vars, Expr.varsList, Ty.count, Expr.int, Word.limit]

end Stmt

/-! ### Procedures -/

/-- Variables are flattened if all of them can be counted. -/
theorem Var.mapM_flatten_flattens (vs : List Var) :
    Flattens True (∀ v ∈ vs, v.ty.Counted) (· = vs.map linear) (vs.mapM flatten) := by
  induction vs with
  | nil => exact .ok trivial (by simp) rfl
  | cons v vs ih =>
      rw [List.mapM_cons]
      refine .congr (v.flatten_flattens.bind fun w hw => ih.map fun ws hws => ?_)
        (by simp) (by simp)
      rw [hw, hws, List.map_cons]

/-- The variables that are sized are those whose elements can be counted. -/
theorem Var.sized_iff {v : Var} : v.Sized ↔ v.ty.Counted := by
  rw [Var.Sized, v.flatten_flattens.ok_iff, true_and]

/-- A result is given if `P` holds; otherwise there is something wrong with a layout. -/
def Settles {α : Type} (x : Except Error α) (P : Prop) : Prop :=
  (P ∧ ∃ a, x = .ok a) ∨ (¬ P ∧ ∃ e, x = .error (.layout e))

namespace Settles

variable {α : Type} {x : Except Error α} {P : Prop}

/-- What settles by a condition succeeds exactly under it. -/
theorem ok_iff (h : Settles x P) : (∃ a, x = .ok a) ↔ P := by
  rcases h with ⟨hP, hx⟩ | ⟨hP, e, rfl⟩
  · exact iff_of_true hx hP
  · exact iff_of_false nofun hP

theorem error {e : Error} (h : Settles x P) (he : x = .error e) : ∃ l, e = .layout l := by
  rcases h with ⟨-, a, rfl⟩ | ⟨-, l, rfl⟩
  · exact nomatch he
  · exact ⟨l, (Except.error.inj he).symm⟩

end Settles

/-- Where all numbers of elements are found, only a layout can go wrong. -/
theorem Flattens.settles {α : Type} {P Q : Prop} {R : α → Prop} {x : Except Error α}
    (h : Flattens P Q R x) (hq : Q) : Settles x P := by
  cases h with
  | ok hp _ _ => exact .inl ⟨hp, _, rfl⟩
  | layout hp => exact .inr ⟨hp, _, rfl⟩
  | overflow hq' => exact absurd hq hq'

/-- A procedure is flattened if every access in its body suits its variable. -/
theorem Procedure.flatten_settles {p : Procedure} (h : ∀ v ∈ p.vars, v.Sized) :
    Settles p.flatten (∀ a ∈ p.body.accesses, a.Suits) := by
  simp only [Var.sized_iff] at h
  obtain ⟨h, hbody⟩ := List.forall_mem_append.mp h
  obtain ⟨hparams, hlocals⟩ := List.forall_mem_append.mp h
  have hcounted : ∀ o ∈ p.body.mentions, o.Counted := by
    refine Mention.forall_counted.mpr fun v hv => hbody v ?_
    rw [← p.body.map_var_mentions]
    exact List.mem_map_of_mem hv
  have hflattens := (Var.mapM_flatten_flattens p.params).bind fun params _ =>
    (Var.mapM_flatten_flattens p.locals).bind fun locals _ =>
      p.body.flatten_flattens.map (S := fun _ => True)
        (g := fun body => { p with params, locals, body }) fun _ _ => trivial
  exact (hflattens.congr (by simp) Iff.rfl).settles ⟨hparams, hlocals, hcounted⟩

end TensorLoops
