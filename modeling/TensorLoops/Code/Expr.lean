import TensorLoops.Code.Scalar

/-!
# Code — Expr

Types, variables and expressions of the loop-nest language.  A variable is told from another
by its `id`; the `hint` only proposes a name.  Tensor shapes are lists of extents.
-/

namespace TensorLoops

/-- The type of a variable. -/
inductive Ty where
  | scalar (s : Scalar)
  | tensor (s : Scalar) (shape : List Nat)
  | pointer (base : Ty)
  | reference (base : Ty)
  | void
deriving DecidableEq, Repr

namespace Ty

/-- The scalar a value of this type is, seen through references. -/
def scalar? : Ty → Option Scalar
  | .scalar s    => some s
  | .reference t => t.scalar?
  | _            => none

/-- The type of what indexing gives. -/
def element? : Ty → Option Scalar
  | .tensor s _ => some s
  | .pointer t  => t.scalar?
  | _           => none

/-- The type in device code. -/
def text : Ty → String
  | .scalar s       => s.deviceName
  | .tensor s shape => s.deviceName ++ "[" ++ ", ".intercalate (shape.map toString) ++ "]"
  | .pointer t      => t.text ++ "*"
  | .reference t    => t.text ++ "&"
  | .void           => "void"

def toJson : Ty → Json
  | .scalar s       => .tagged "Scalar" s.toJson
  | .tensor s shape => .tagged "Tensor" (.obj [("dtype", s.toJson), ("shape", .nats shape)])
  | .pointer t      => .tagged "Pointer" t.toJson
  | .reference t    => .tagged "Reference" t.toJson
  | .void           => .str "Void"

end Ty

/-- A typed variable. -/
structure Var where
  id   : Nat
  hint : String
  ty   : Ty
deriving DecidableEq, Repr

def Var.toJson (v : Var) : Json :=
  .obj [("id", .nat v.id), ("hint", .str v.hint), ("ty", v.ty.toJson)]

inductive BinaryOp where
  | add | sub | mul | div | mod
  | min | max
  | lt | le | gt | ge | eq | ne
  | and | or
deriving DecidableEq, Repr

namespace BinaryOp

def all : List BinaryOp :=
  [.add, .sub, .mul, .div, .mod, .min, .max, .lt, .le, .gt, .ge, .eq, .ne, .and, .or]

/-- Comparisons and connectives give a `bool`. -/
def isPredicate : BinaryOp → Bool
  | .lt | .le | .gt | .ge | .eq | .ne | .and | .or => true
  | _                                              => false

def symbol : BinaryOp → String
  | .add => "+"
  | .sub => "-"
  | .mul => "*"
  | .div => "/"
  | .mod => "%"
  | .min => "min"
  | .max => "max"
  | .lt  => "<"
  | .le  => "<="
  | .gt  => ">"
  | .ge  => ">="
  | .eq  => "=="
  | .ne  => "!="
  | .and => "&&"
  | .or  => "||"

/-- The name in JSON. -/
def tag : BinaryOp → String
  | .add => "Add"
  | .sub => "Sub"
  | .mul => "Mul"
  | .div => "Div"
  | .mod => "Mod"
  | .min => "Min"
  | .max => "Max"
  | .lt  => "Lt"
  | .le  => "Le"
  | .gt  => "Gt"
  | .ge  => "Ge"
  | .eq  => "Eq"
  | .ne  => "Ne"
  | .and => "And"
  | .or  => "Or"

end BinaryOp

inductive UnaryOp where
  | neg
  | not
deriving DecidableEq, Repr

namespace UnaryOp

def symbol : UnaryOp → String
  | .neg => "-"
  | .not => "!"

/-- The name in JSON. -/
def tag : UnaryOp → String
  | .neg => "Neg"
  | .not => "Not"

end UnaryOp

/-- An expression.  `node` stands for the value of a compute-graph node and is gone once the
graph has been expanded into loops. -/
inductive Expr where
  | var (v : Var)
  | const (value : Literal) (dtype : Scalar)
  | node (id : Nat)
  | binary (op : BinaryOp) (lhs rhs : Expr)
  | unary (op : UnaryOp) (operand : Expr)
  | cast (operand : Expr) (ty : Ty)
  | element (base : Expr) (indices : List Expr)
  | call (func : String) (args : List Expr)
deriving Repr

namespace Expr

/-- An `i32` literal. -/
def int (i : Int) : Expr := .const (.int i) .i32

/-- A size as an `i32` literal, its 64 bits read as a signed number. -/
def ofSize (n : Nat) : Expr := int (Int.bmod n (Nat.pow 2 64))

/-- An `f32` literal. -/
def real (x : Binary64) : Expr := .const (.real x) .f32

def add : Expr → Expr → Expr := .binary .add
def sub : Expr → Expr → Expr := .binary .sub
def mul : Expr → Expr → Expr := .binary .mul
def div : Expr → Expr → Expr := .binary .div
def mod : Expr → Expr → Expr := .binary .mod
def min : Expr → Expr → Expr := .binary .min
def max : Expr → Expr → Expr := .binary .max
def lt : Expr → Expr → Expr := .binary .lt
def gt : Expr → Expr → Expr := .binary .gt
def neg : Expr → Expr := .unary .neg

/-- The value of an integer literal. -/
def constInt? : Expr → Option Int
  | .const value _ => value.toInt?
  | _              => none

mutual

/-- The variables that occur, in order and as often as they do. -/
def vars : Expr → List Var
  | .var v             => [v]
  | .const _ _         => []
  | .node _            => []
  | .binary _ lhs rhs  => lhs.vars ++ rhs.vars
  | .unary _ operand   => operand.vars
  | .cast operand _    => operand.vars
  | .element base idxs => base.vars ++ varsList idxs
  | .call _ args       => varsList args

def varsList : List Expr → List Var
  | []      => []
  | e :: es => e.vars ++ varsList es

end

mutual

/-- Equality of expressions, float literals comparing as numbers. -/
def equal : Expr → Expr → Bool
  | .var v,           .var w           => v == w
  | .const a s,       .const b t       => a.equal b && s == t
  | .node m,          .node n          => m == n
  | .binary o a b,    .binary p c d    => o == p && a.equal c && b.equal d
  | .unary o a,       .unary p b       => o == p && a.equal b
  | .cast a s,        .cast b t        => a.equal b && s == t
  | .element a as,    .element b bs    => a.equal b && equalList as bs
  | .call f as,       .call g bs       => f == g && equalList as bs
  | _,                _                => false

def equalList : List Expr → List Expr → Bool
  | [],      []      => true
  | a :: as, b :: bs => a.equal b && equalList as bs
  | _,       _       => false

end

mutual

def toJson : Expr → Json
  | .var v              => .tagged "Var" v.toJson
  | .const value dtype  =>
      .tagged "Const" (.obj [("value", value.toJson), ("dtype", dtype.toJson)])
  | .node id            => .tagged "Node" (.nat id)
  | .binary op lhs rhs  =>
      .tagged "Binary" (.obj [("op", .str op.tag), ("lhs", lhs.toJson), ("rhs", rhs.toJson)])
  | .unary op operand   =>
      .tagged "Unary" (.obj [("op", .str op.tag), ("operand", operand.toJson)])
  | .cast operand ty    =>
      .tagged "Cast" (.obj [("expr", operand.toJson), ("to", ty.toJson)])
  | .element base idxs  =>
      .tagged "TensorElement" (.obj [("base", base.toJson), ("indices", .arr (toJsonList idxs))])
  | .call func args     =>
      .tagged "Call" (.obj [("func", .str func), ("args", .arr (toJsonList args))])

def toJsonList : List Expr → List Json
  | []      => []
  | e :: es => e.toJson :: toJsonList es

end

end Expr

end TensorLoops
