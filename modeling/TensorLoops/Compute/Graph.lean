import TensorLoops.Number.Word

/-!
# Compute — Graph

Compute graphs: a list of nodes addressed by ids, and the id of the next variable.  A node
without a definition is an input.  Nodes are told apart by their position, so two nodes with equal
definitions are two values.

The id of a node is its position as a word of 32 bits.  A node behind the first `2 ^ 32` is given
the id of an earlier one, and no id leads to it.
-/

namespace TensorLoops

/-- What a node holds. -/
inductive NodeKind where
  | tensor (s : Scalar) (shape : List Nat)
  | scalar (s : Scalar)
deriving DecidableEq, Repr

namespace NodeKind

def dtype : NodeKind → Scalar
  | .tensor s _ => s
  | .scalar s   => s

def name : NodeKind → String
  | .tensor _ _ => "tensor"
  | .scalar _   => "scalar"

/-- The type of storage for a node of this kind. -/
def storage : NodeKind → Ty
  | .tensor s shape => .tensor s shape
  | .scalar s       => .scalar s

def toJson : NodeKind → Json
  | .tensor s shape => .tagged "Tensor" (.obj [("dtype", s.toJson), ("shape", .nats shape)])
  | .scalar s       => .tagged "Scalar" (.obj [("dtype", s.toJson)])

end NodeKind

/-- How a node is computed: a value at every point of a grid, a reduction of the values at
every point of a shape, or the position of the best value below an extent. -/
inductive Compute where
  | grid (shape : List Nat) (axes : List Var) (value : Expr)
  | reduce (shape : List Nat) (axes : List Var) (value : Expr) (op : Reduction)
  | argReduce (extent : Nat) (axis : Var) (value : Expr) (op : Reduction) (index : Scalar)
deriving Repr

namespace Compute

/-- The name of the pattern. -/
def pattern : Compute → String
  | .grid ..      => "grid"
  | .reduce ..    => "reduce"
  | .argReduce .. => "arg-reduce"

def value : Compute → Expr
  | .grid _ _ value          => value
  | .reduce _ _ value _      => value
  | .argReduce _ _ value _ _ => value

/-- The axes the value ranges over. -/
def axes : Compute → List Var
  | .grid _ axes _          => axes
  | .reduce _ axes _ _      => axes
  | .argReduce _ axis _ _ _ => [axis]

def toJson : Compute → Json
  | .grid shape axes value =>
      .tagged "Grid" (.obj [("shape", .nats shape), ("axes", .arr (axes.map Var.toJson)),
        ("value", value.toJson)])
  | .reduce shape axes value op =>
      .tagged "Reduce" (.obj [("shape", .nats shape), ("axes", .arr (axes.map Var.toJson)),
        ("value", value.toJson), ("op", op.toJson)])
  | .argReduce extent axis value op index =>
      .tagged "ArgReduce" (.obj [("extent", .nat extent), ("axis", axis.toJson),
        ("value", value.toJson), ("op", op.toJson), ("index_dtype", index.toJson)])

end Compute

/-- A node of a compute graph. -/
structure Node where
  name    : String
  kind    : NodeKind
  compute : Option Compute
deriving Repr

namespace Node

/-- An input's storage comes from outside. -/
def isInput (n : Node) : Bool := n.compute.isNone

def toJson (n : Node) : Json :=
  .obj [("name", .str n.name), ("kind", n.kind.toJson), ("compute", n.compute.elim .null (·.toJson))]

end Node

/-- A compute graph. -/
structure Graph where
  nodes   : Array Node
  /-- The least variable id not yet given out. -/
  nextVar : Nat
deriving Repr

namespace Graph

def empty : Graph := ⟨#[], 0⟩

def size (g : Graph) : Nat := g.nodes.size

/-- The node that an id leads to. -/
def node? (g : Graph) (id : Nat) : Option Node := if id < Word.idLimit then g.nodes[id]? else none

def node (g : Graph) (id : Nat) : Except Error Node :=
  match g.node? id with
  | some n => .ok n
  | none   => .error (.graph (.unknownNode id))

def toJson (g : Graph) : Json :=
  .obj [("nodes", .arr (g.nodes.toList.map Node.toJson)), ("next_var", .nat g.nextVar)]

/-- The type of an element, for a base read with `rank` indices. -/
def elementType (g : Graph) (base : Expr) (rank : Nat) : Except Error Scalar :=
  match base with
  | .node id => do
      let n ← g.node id
      match n.kind with
      | .tensor s shape =>
          if shape.length = rank then .ok s
          else .error (.graph (.indexCount shape.length n.name rank))
      | .scalar _ => .error (.graph (.indexedScalar n.name))
  | .var v =>
      match v.ty.element? with
      | some s => .ok s
      | none   => .error (.graph (.indexedVariable v))
  | e => .error (.graph (.indexedExpression e.text))

/-- The scalar type of an expression over the graph.  Neither the operand of a cast nor the
indices of an element are looked at. -/
def typeOf (g : Graph) : Expr → Except Error Scalar
  | .var v =>
      match v.ty.scalar? with
      | some s => .ok s
      | none   => .error (.graph (.variableAsScalar v))
  | .const _ s => .ok s
  | .node id => do
      let n ← g.node id
      match n.kind with
      | .scalar s   => .ok s
      | .tensor _ _ => .error (.graph (.tensorAsScalar n.name))
  | .binary op lhs rhs => do
      let s ← g.typeOf lhs
      let t ← g.typeOf rhs
      .ok (if op.isPredicate then .bool else s.promote t)
  | .unary op operand => do
      let s ← g.typeOf operand
      .ok (match op with
        | .neg => s
        | .not => .bool)
  | .cast _ ty =>
      match ty.scalar? with
      | some s => .ok s
      | none   => .error (.graph (.castTarget ty))
  | .element base idxs => g.elementType base idxs.length
  | .call func _ => .error (.graph (.untypedCall func))

end Graph

end TensorLoops
