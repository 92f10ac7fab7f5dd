import TensorLoops.Code.Expr

/-!
# Code — Stmt

Statements and procedures of the loop-nest language.  `Stmt.ofList` is the one way a body is
made from a list of statements: a single statement stands for itself.
-/

namespace TensorLoops

/-- An operand of an inline instruction. -/
structure AsmOperand where
  constraint : String
  value      : Expr
deriving Repr

/-- An inline instruction; `%N` in the template counts the outputs first, then the inputs. -/
structure Asm where
  template   : String
  outputs    : List AsmOperand
  inputs     : List AsmOperand
  isVolatile : Bool
deriving Repr

/-- A statement. -/
inductive Stmt where
  | seq (stmts : List Stmt)
  | declare (v : Var) (init : Option Expr)
  | assign (v : Var) (value : Expr)
  | store (buf : Var) (indices : List Expr) (value : Expr)
  | loop (v : Var) (extent : Expr) (body : Stmt)
  | cond (test : Expr) (yes : Stmt) (no : Option Stmt)
  | eval (e : Expr)
  | ret (e : Expr)
  | asm (a : Asm)
deriving Repr

/-- Where a procedure runs. -/
inductive ProcKind where
  | device
  | kernel
  | host
deriving DecidableEq, Repr

/-- A procedure. -/
structure Procedure where
  name   : String
  kind   : ProcKind
  params : List Var
  locals : List Var
  body   : Stmt
  result : Ty
deriving Repr

namespace Asm

/-- The variables of the operands, outputs first. -/
def vars (a : Asm) : List Var := (a.outputs ++ a.inputs).flatMap fun o => o.value.vars

def toJson (a : Asm) : Json :=
  let operand (o : AsmOperand) : Json :=
    .obj [("constraint", .str o.constraint), ("value", o.value.toJson)]
  .obj [("template", .str a.template), ("outputs", .arr (a.outputs.map operand)),
    ("inputs", .arr (a.inputs.map operand)), ("is_volatile", .bool a.isVolatile)]

end Asm

namespace Stmt

/-- The statements in order; a single one stands for itself. -/
def ofList : List Stmt → Stmt
  | [s] => s
  | ss  => .seq ss

mutual

/-- The variables declared, assigned or read, in order of appearance. -/
def vars : Stmt → List Var
  | .seq ss              => varsList ss
  | .declare v init      => v :: init.elim [] Expr.vars
  | .assign v value      => v :: value.vars
  | .store buf idxs val  => buf :: (Expr.varsList idxs ++ val.vars)
  | .loop v extent body  => v :: (extent.vars ++ body.vars)
  | .cond test yes no    => test.vars ++ yes.vars ++ varsOption no
  | .eval e              => e.vars
  | .ret e               => e.vars
  | .asm a               => a.vars

def varsList : List Stmt → List Var
  | []      => []
  | s :: ss => s.vars ++ varsList ss

def varsOption : Option Stmt → List Var
  | none   => []
  | some s => s.vars

end

mutual

def toJson : Stmt → Json
  | .seq ss              => .tagged "Seq" (.arr (toJsonList ss))
  | .declare v init      =>
      .tagged "Declare" (.obj [("var", v.toJson), ("init", init.elim .null Expr.toJson)])
  | .assign v value      => .tagged "Assign" (.obj [("var", v.toJson), ("value", value.toJson)])
  | .store buf idxs val  =>
      .tagged "BufferStore" (.obj [("buf", buf.toJson), ("indices", .arr (Expr.toJsonList idxs)),
        ("value", val.toJson)])
  | .loop v extent body  =>
      .tagged "For" (.obj [("var", v.toJson), ("extent", extent.toJson), ("body", body.toJson)])
  | .cond test yes no    =>
      .tagged "If" (.obj [("cond", test.toJson), ("then_body", yes.toJson),
        ("else_body", toJsonOption no)])
  | .eval e              => .tagged "Evaluate" e.toJson
  | .ret e               => .tagged "Return" e.toJson
  | .asm a               => .tagged "Asm" a.toJson

def toJsonList : List Stmt → List Json
  | []      => []
  | s :: ss => s.toJson :: toJsonList ss

def toJsonOption : Option Stmt → Json
  | none   => .null
  | some s => s.toJson

end

end Stmt

namespace ProcKind

/-- What stands before the result type in device code. -/
def qualifier : ProcKind → String
  | .device => "__device__ __forceinline__ "
  | .kernel => "__global__ "
  | .host   => ""

/-- The name in JSON. -/
def tag : ProcKind → String
  | .device => "CudaDevice"
  | .kernel => "CudaKernel"
  | .host   => "Host"

end ProcKind

namespace Procedure

/-- Parameters, locals and every variable of the body, in order of appearance. -/
def vars (p : Procedure) : List Var := p.params ++ p.locals ++ p.body.vars

def toJson (p : Procedure) : Json :=
  .obj [("name", .str p.name), ("kind", .str p.kind.tag), ("params", .arr (p.params.map Var.toJson)),
    ("local_vars", .arr (p.locals.map Var.toJson)), ("body", p.body.toJson),
    ("ret_type", p.result.toJson)]

end Procedure

end TensorLoops
