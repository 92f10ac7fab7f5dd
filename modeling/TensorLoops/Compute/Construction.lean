import TensorLoops.Compute.Graph

/-!
# Compute — Construction

Building compute graphs.  An update may fail, and what it took from the graph before it failed
stays taken: variable ids are never given out twice.  The checked constructors `addGrid`,
`addReduce` and `addArgReduce` infer the type of what they add; `addNode` adds anything.
-/

namespace TensorLoops

namespace Graph

/-- A change of a graph that may fail midway. -/
abbrev Update := ExceptT Error (StateM Graph)

/-- Raise the error of a failed computation. -/
def Update.lift {α : Type} (x : Except Error α) : Update α := ExceptT.mk (pure x)

/-- A variable with an id of its own. -/
def freshVar (hint : String) (ty : Ty) : Update Var := do
  let g ← get
  let next ← Update.lift (Word.nextId g.nextVar)
  set { g with nextVar := next }
  return ⟨g.nextVar, hint, ty⟩

/-- A fresh `i32` loop axis. -/
def newAxis (hint : String) : Update Var := freshVar hint (.scalar .i32)

/-- Fresh axes, in order. -/
def newAxes (hints : List String) : Update (List Var) := hints.mapM newAxis

/-- Add a node as it is, whether or not its definition suits its kind, and give its id. -/
def addNode (n : Node) : Update Nat := do
  let g ← get
  set { g with nodes := g.nodes.push n }
  return Word.toId g.size

def tensorInput (name : String) (s : Scalar) (shape : List Nat) : Update Nat :=
  addNode ⟨name, .tensor s shape, none⟩

def scalarInput (name : String) (s : Scalar) : Update Nat := addNode ⟨name, .scalar s, none⟩

/-- The type of an expression over the current graph. -/
def inferType (value : Expr) : Update Scalar := do
  let g ← get
  Update.lift (g.typeOf value)

/-- A shape needs one axis for each dimension. -/
def checkAxes (shape : List Nat) (axes : List Var) : Update Unit :=
  if shape.length = axes.length then pure ()
  else throw (.graph (.axisCount axes.length shape.length))

/-- Add a tensor whose value at each point of `shape` is `value`. -/
def addGrid (name : String) (shape : List Nat) (axes : List Var) (value : Expr) : Update Nat := do
  checkAxes shape axes
  let s ← inferType value
  addNode ⟨name, .tensor s shape, some (.grid shape axes value)⟩

/-- Add the reduction of `value` over all points of `shape`. -/
def addReduce (name : String) (shape : List Nat) (axes : List Var) (value : Expr)
    (op : Reduction) : Update Nat := do
  if op.isArg then throw (.graph (.argReduction op))
  checkAxes shape axes
  let s ← inferType value
  addNode ⟨name, .scalar s, some (.reduce shape axes value op)⟩

/-- Add the position of the best `value` below `extent`.  The value must have a type though
the node has that of the position. -/
def addArgReduce (name : String) (extent : Nat) (axis : Var) (value : Expr) (op : Reduction)
    (index : Scalar) : Update Nat := do
  if !op.isArg then throw (.graph (.notArgReduction op))
  if !index.isInteger then throw (.graph (.indexType index))
  discard (inferType value)
  addNode ⟨name, .scalar index, some (.argReduce extent axis value op index)⟩

/-- `addGrid` over new axes, the value being made from them. -/
def grid (name : String) (shape : List Nat) (hints : List String)
    (value : List Var → Update Expr) : Update Nat := do
  let axes ← newAxes hints
  let value ← value axes
  addGrid name shape axes value

/-- `addReduce` over new axes, the value being made from them. -/
def reduce (name : String) (shape : List Nat) (hints : List String) (op : Reduction)
    (value : List Var → Update Expr) : Update Nat := do
  let axes ← newAxes hints
  let value ← value axes
  addReduce name shape axes value op

/-- `addArgReduce` over a new axis, the value being made from it. -/
def argReduce (name : String) (extent : Nat) (hint : String) (op : Reduction) (index : Scalar)
    (value : Var → Update Expr) : Update Nat := do
  let axis ← newAxis hint
  let value ← value axis
  addArgReduce name extent axis value op index

end Graph

end TensorLoops
