import TensorLoops.Code.Stmt

/-!
# Proofs — Code — Renaming

Other variables for the variables of a procedure.  `rename f` puts `f v` for each variable `v`,
wherever it stands, and leaves everything else as it is.  `Var.shift w k` is the renaming that makes
room for `k` ids at `w`.
-/

namespace TensorLoops

/-- The variable, its id moved up by `k` if it is `w` or more. -/
def Var.shift (w k : Nat) (v : Var) : Var := if w ≤ v.id then { v with id := v.id + k } else v

/-- Ids below the threshold stay as they are. -/
theorem Var.shift_of_lt {w k : Nat} {v : Var} (h : v.id < w) : v.shift w k = v :=
  if_neg (Nat.not_le.mpr h)

/-- Ids from the threshold on are moved up. -/
theorem Var.shift_of_le {w k id : Nat} {hint : String} {ty : Ty} (h : w ≤ id) :
    shift w k ⟨id, hint, ty⟩ = ⟨id + k, hint, ty⟩ := if_pos h

namespace Expr

mutual

/-- The expression with its variables replaced. -/
def rename (f : Var → Var) : Expr → Expr
  | .var v             => .var (f v)
  | .const value s     => .const value s
  | .node id           => .node id
  | .binary op lhs rhs => .binary op (lhs.rename f) (rhs.rename f)
  | .unary op operand  => .unary op (operand.rename f)
  | .cast operand ty   => .cast (operand.rename f) ty
  | .element base idxs => .element (base.rename f) (renameList f idxs)
  | .call func args    => .call func (renameList f args)

def renameList (f : Var → Var) : List Expr → List Expr
  | []      => []
  | e :: es => e.rename f :: renameList f es

end

theorem renameList_eq_map (f : Var → Var) : ∀ es, renameList f es = es.map (rename f) := by
  intro es
  induction es with
  | nil => rfl
  | cons e es ih => exact congrArg _ ih

end Expr

def AsmOperand.rename (f : Var → Var) (o : AsmOperand) : AsmOperand :=
  { o with value := o.value.rename f }

def Asm.rename (f : Var → Var) (a : Asm) : Asm :=
  { a with outputs := a.outputs.map (·.rename f), inputs := a.inputs.map (·.rename f) }

namespace Stmt

mutual

/-- The statement with its variables replaced. -/
def rename (f : Var → Var) : Stmt → Stmt
  | .seq ss             => .seq (renameList f ss)
  | .declare v init     => .declare (f v) (init.map (·.rename f))
  | .assign v value     => .assign (f v) (value.rename f)
  | .store buf idxs val => .store (f buf) (Expr.renameList f idxs) (val.rename f)
  | .loop v extent body => .loop (f v) (extent.rename f) (body.rename f)
  | .cond test yes no   => .cond (test.rename f) (yes.rename f) (renameOption f no)
  | .eval e             => .eval (e.rename f)
  | .ret e              => .ret (e.rename f)
  | .asm a              => .asm (a.rename f)

def renameList (f : Var → Var) : List Stmt → List Stmt
  | []      => []
  | s :: ss => s.rename f :: renameList f ss

def renameOption (f : Var → Var) : Option Stmt → Option Stmt
  | none   => none
  | some s => some (s.rename f)

end

theorem renameList_append (f : Var → Var) (ts : List Stmt) :
    ∀ ss, renameList f (ss ++ ts) = renameList f ss ++ renameList f ts := by
  intro ss
  induction ss with
  | nil => rfl
  | cons s ss ih => exact congrArg _ ih

/-- Renaming does not depend on how a list is made one statement. -/
theorem rename_ofList (f : Var → Var) (ss : List Stmt) :
    (ofList ss).rename f = ofList (renameList f ss) := by
  rcases ss with _ | ⟨_, _ | _⟩ <;> rfl

end Stmt

/-- The procedure with the variables of its parameters, its locals and its body replaced. -/
def Procedure.rename (f : Var → Var) (p : Procedure) : Procedure :=
  { p with params := p.params.map f, locals := p.locals.map f, body := p.body.rename f }

end TensorLoops
