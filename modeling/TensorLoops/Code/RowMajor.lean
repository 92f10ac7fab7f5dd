import TensorLoops.Number.Word

/-!
# Code — RowMajor

Row-major addresses for tensor accesses.  A tensor variable of shape `[3, 4]` becomes one of
shape `[12]`, and an access `A[i, j]` becomes `A[((i * 4) + j)]`.  Pointers keep their one
index.
-/

namespace TensorLoops

/-- A tensor variable laid out in one dimension; other variables stay as they are. -/
def Var.flatten (v : Var) : Except Error Var :=
  match v.ty with
  | .tensor s shape => do
      let size ← Word.product shape
      return { v with ty := .tensor s [size] }
  | _ => .ok v

/-- The row-major address of indices in a shape: the first index, then for each further
dimension the address so far times its extent plus the index. -/
def rowMajor (shape : List Nat) (indices : List Expr) : Expr :=
  match indices, shape with
  | first :: indices, _ :: extents =>
      (indices.zip extents).foldl (fun acc p => (acc.mul (.ofSize p.2)).add p.1) first
  | _, _ => .int 0

/-- The single index of an access whose own indices have been flattened. -/
def flatIndex (base : Expr) (indices : List Expr) : Except Error (List Expr) :=
  match base with
  | .var ⟨_, hint, ty⟩ =>
      match ty with
      | .tensor _ shape =>
          if indices.length = shape.length then .ok [rowMajor shape indices]
          else .error (.layout (.rank shape base.text indices.length))
      | .pointer _ =>
          if indices.length = 1 then .ok indices
          else .error (.layout (.pointerIndices hint indices.length))
      | _ => .error (.layout (.noLayout base.text))
  | _ => .error (.layout (.noLayout base.text))

namespace Expr

mutual

/-- Flatten every access in an expression. -/
def flatten : Expr → Except Error Expr
  | .var v             => return .var (← v.flatten)
  | .const value s     => return .const value s
  | .node id           => return .node id
  | .binary op lhs rhs => return .binary op (← lhs.flatten) (← rhs.flatten)
  | .unary op operand  => return .unary op (← operand.flatten)
  | .cast operand ty   => return .cast (← operand.flatten) ty
  | .element base idxs => do
      let idxs ← flattenList idxs
      let idx ← flatIndex base idxs
      return .element (← base.flatten) idx
  | .call func args    => return .call func (← flattenList args)

def flattenList : List Expr → Except Error (List Expr)
  | []      => return []
  | e :: es => return (← e.flatten) :: (← flattenList es)

end

end Expr

/-- Flatten every access in an inline instruction. -/
def Asm.flatten (a : Asm) : Except Error Asm := do
  let operand (o : AsmOperand) : Except Error AsmOperand := return { o with value := ← o.value.flatten }
  let outputs ← a.outputs.mapM operand
  let inputs ← a.inputs.mapM operand
  return { a with outputs, inputs }

namespace Stmt

mutual

/-- Flatten every access in a statement.  Loop variables stay as they are. -/
def flatten : Stmt → Except Error Stmt
  | .seq ss                => return .seq (← flattenList ss)
  | .declare v none        => return .declare (← v.flatten) none
  | .declare v (some init) => return .declare (← v.flatten) (some (← init.flatten))
  | .assign v value        => return .assign (← v.flatten) (← value.flatten)
  | .store buf idxs value  => do
      let idxs ← Expr.flattenList idxs
      let idx ← flatIndex (.var buf) idxs
      return .store (← buf.flatten) idx (← value.flatten)
  | .loop v extent body    => return .loop v (← extent.flatten) (← body.flatten)
  | .cond test yes no      => return .cond (← test.flatten) (← yes.flatten) (← flattenOption no)
  | .eval e                => return .eval (← e.flatten)
  | .ret e                 => return .ret (← e.flatten)
  | .asm a                 => return .asm (← a.flatten)

def flattenList : List Stmt → Except Error (List Stmt)
  | []      => return []
  | s :: ss => return (← s.flatten) :: (← flattenList ss)

def flattenOption : Option Stmt → Except Error (Option Stmt)
  | none   => return none
  | some s => return some (← s.flatten)

end

end Stmt

/-- Flatten a procedure, its parameters and locals included. -/
def Procedure.flatten (p : Procedure) : Except Error Procedure := do
  let params ← p.params.mapM Var.flatten
  let locals ← p.locals.mapM Var.flatten
  let body ← p.body.flatten
  return { p with params, locals, body }

end TensorLoops
