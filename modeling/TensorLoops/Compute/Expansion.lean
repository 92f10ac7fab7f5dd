import TensorLoops.Compute.Construction

/-!
# Compute — Expansion

From compute nodes to loop nests.  Expanding an expression gives the statements that compute
the nodes it mentions and an expression for its value once they have run.  A grid becomes
loops around a store, a reduction loops around an accumulator:

    for (i = 0; i < 3; i++)            C = grid[i: 3] => sum[k: 3] => A[i, k]
      s = 0;
      for (k = 0; k < 3; k++)
        s = s + A[i, k];
      C[i] = s;

Nodes without storage of their own get new variables.  Nothing is remembered between two
occurrences of a node: it is computed twice, into the same storage.
-/

namespace TensorLoops

/-- Storage for nodes, by position. -/
abbrev Storage := Table Nat Var

namespace Expansion

/-- What an expansion has used so far. -/
structure State where
  /-- Storage made for nodes that had none. -/
  created : Storage
  /-- The next variable id. -/
  nextVar : Nat
  /-- The number of loops open around the current point. -/
  depth   : Nat
deriving Repr

/-- A step of expansion. -/
abbrev Step := StateT State (Except Error)

/-- Statements, and the value they make available. -/
structure Piece where
  stmts : List Stmt
  value : Expr
deriving Repr

/-- Where an expansion takes place: the graph and the storage given for its nodes. -/
structure Context where
  graph : Graph
  given : Storage
deriving Repr

def freshVar (hint : String) (ty : Ty) : Step Var := do
  let s ← get
  let next ← Word.nextId s.nextVar
  set { s with nextVar := next }
  return ⟨s.nextVar, hint, ty⟩

/-- The variable made for a node, on its first occurrence a fresh one. -/
def createdFor (id : Nat) (hint : String) (ty : Ty) : Step Var := do
  match (← get).created.find? id with
  | some v => return v
  | none   =>
      let v ← freshVar hint ty
      modify fun s => { s with created := s.created.insert id v }
      return v

/-- The storage of a node: the given one, or one made for it. -/
def bufferFor (c : Context) (id : Nat) (hint : String) (ty : Ty) : Step Var :=
  match c.given.find? id with
  | some v => return v
  | none   => createdFor id hint ty

/-- Open loops. -/
def openLoops (n : Nat) : Step Unit := modify fun s => { s with depth := s.depth + n }

/-- Close loops.  A node with fewer axes than dimensions closes more loops than it opened, and
sooner or later there is none left to close. -/
def closeLoops (n : Nat) : Step Unit := do
  let s ← get
  if n ≤ s.depth then set { s with depth := s.depth - n } else throw (.scope .noOpenScope)

/-- Loops over axes with their extents, the first outermost, around statements. -/
def nest : List (Var × Nat) → List Stmt → List Stmt
  | [],               ss => ss
  | (v, extent) :: r, ss => [.loop v (.ofSize extent) (.ofList (nest r ss))]

/-- Statements followed by an assignment to the given storage of a node, if there is any. -/
def writeBack (c : Context) (id : Nat) (value : Expr) (ss : List Stmt) : List Stmt :=
  match c.given.find? id with
  | some v => ss ++ [.assign v value]
  | none   => ss

mutual

/-- Expand the nodes of an expression from left to right, each by `expandNode`. -/
def expandExpr (expandNode : Nat → Step Piece) : Expr → Step Piece
  | .var v             => return ⟨[], .var v⟩
  | .const value s     => return ⟨[], .const value s⟩
  | .node id           => expandNode id
  | .binary op lhs rhs => do
      let l ← expandExpr expandNode lhs
      let r ← expandExpr expandNode rhs
      return ⟨l.stmts ++ r.stmts, .binary op l.value r.value⟩
  | .unary op operand  => do
      let p ← expandExpr expandNode operand
      return ⟨p.stmts, .unary op p.value⟩
  | .cast operand ty   => do
      let p ← expandExpr expandNode operand
      return ⟨p.stmts, .cast p.value ty⟩
  | .element base idxs => do
      let b ← expandExpr expandNode base
      let (ss, is) ← expandExprs expandNode idxs
      return ⟨b.stmts ++ ss, .element b.value is⟩
  | .call func args    => do
      let (ss, as) ← expandExprs expandNode args
      return ⟨ss, .call func as⟩

def expandExprs (expandNode : Nat → Step Piece) : List Expr → Step (List Stmt × List Expr)
  | []      => return ([], [])
  | e :: es => do
      let p ← expandExpr expandNode e
      let (ss, vs) ← expandExprs expandNode es
      return (p.stmts ++ ss, p.value :: vs)

end

/-- Expand a grid: loops around a store of the value. -/
def expandGrid (c : Context) (expandNode : Nat → Step Piece) (id : Nat) (n : Node)
    (shape : List Nat) (axes : List Var) (value : Expr) : Step Piece := do
  let buf ← bufferFor c id n.name n.kind.storage
  let loops := axes.zip shape
  openLoops loops.length
  let p ← expandExpr expandNode value
  closeLoops shape.length
  return ⟨nest loops (p.stmts ++ [.store buf (axes.map .var) p.value]), .var buf⟩

/-- Expand a reduction: an accumulator, loops that fold the value into it, and its result. -/
def expandReduce (c : Context) (expandNode : Nat → Step Piece) (id : Nat) (n : Node)
    (shape : List Nat) (axes : List Var) (value : Expr) (op : Reduction) : Step Piece := do
  if op.isArg then throw (.expansion (.argInReduce op n.name))
  let s ← c.graph.typeOf value
  let acc ← createdFor id n.name (.scalar s)
  let loops := axes.zip shape
  openLoops loops.length
  let p ← expandExpr expandNode value
  closeLoops shape.length
  let count ← Word.product shape
  let result := op.finalize (.var acc) count
  let start := Stmt.assign acc (op.identity s)
  let step := Stmt.assign acc (op.combine (.var acc) p.value)
  return ⟨writeBack c id result (start :: nest loops (p.stmts ++ [step])), result⟩

/-- The test under which a candidate takes the place of the best value. -/
def improves (op : Reduction) (candidate best : Expr) : Except Error Expr :=
  match op.better? candidate best with
  | some test => .ok test
  | none      => .error (.expansion (.noComparison op))

/-- Expand an arg-reduction: the best value so far and its position, and a loop that updates
both.  The best value is declared anew at each occurrence. -/
def expandArgReduce (c : Context) (expandNode : Nat → Step Piece) (id : Nat) (n : Node)
    (extent : Nat) (axis : Var) (value : Expr) (op : Reduction) (index : Scalar) :
    Step Piece := do
  let s ← c.graph.typeOf value
  let position ← createdFor id (n.name ++ "_idx") (.scalar index)
  let best ← freshVar (n.name ++ "_val") (.scalar s)
  openLoops 1
  let p ← expandExpr expandNode value
  let test ← improves op p.value (.var best)
  closeLoops 1
  let update := Stmt.seq [.assign best p.value,
    .assign position (.cast (.var axis) (.scalar index))]
  let start := [Stmt.declare best (some (op.identity s)), .assign position (.const index.zero index)]
  let loop := nest [(axis, extent)] (p.stmts ++ [.cond test update none])
  return ⟨writeBack c id (.var position) (start ++ loop), .var position⟩

/-- Expand a node by its definition, the nodes in it by `expandNode`. -/
def expandDefined (c : Context) (expandNode : Nat → Step Piece) (id : Nat) : Step Piece := do
  let n ← c.graph.node id
  match n.kind, n.compute with
  | _, none =>
      match c.given.find? id with
      | some v => return ⟨[], .var v⟩
      | none   => throw (.expansion (.noStorage n.kind.name n.name))
  | .tensor _ _, some (.grid shape axes value) => expandGrid c expandNode id n shape axes value
  | .scalar _, some (.reduce shape axes value op) =>
      expandReduce c expandNode id n shape axes value op
  | .scalar _, some (.argReduce extent axis value op index) =>
      expandArgReduce c expandNode id n extent axis value op index
  | kind, some compute => throw (.expansion (.mismatch compute.pattern kind.name n.name))

/-- Expand a node.  A chain of `n` nodes, each computed from the next, uses up `n`; a graph
has no longer chain without a cycle than it has nodes. -/
def expandNode (c : Context) : Nat → Nat → Step Piece
  | 0,     id => throw (.graph (.cyclic id))
  | k + 1, id => expandDefined c (expandNode c k) id

/-! ### Graphs with a cycle

A node that is computed from itself is expanded without end, and fails at the first thing that
runs out.  Each round on a cycle may use variable ids and close loops that it did not open, so
either may be the first. -/

/-- A node whose expansion has begun, with the state at its beginning. -/
structure Visit where
  id    : Nat
  state : State
deriving Repr

/-- The round from a visit to `s` goes on for ever: no storage is made in it that a later round
would find, and no loops are used up. -/
def Visit.recursAt (v : Visit) (s : State) : Bool :=
  v.state.created.size = s.created.size && v.state.depth ≤ s.depth

/-- What ends the repetition of a round from a visit to `s`: if a round takes variable ids,
they run out. -/
def Visit.endAt (v : Visit) (s : State) : Error :=
  if v.state.nextVar < s.nextVar then .arithmetic .addOverflow else .graph (.cyclic v.id)

/-- Expand a node under the visits that lead to it, the latest first, until a round recurs. -/
def expandUnder (c : Context) : Nat → List Visit → Nat → Step Piece
  | 0,     _,      id => throw (.graph (.cyclic id))
  | k + 1, visits, id => do
      let s ← get
      match visits.find? (·.id = id) with
      | some v => if v.recursAt s then throw (v.endAt s)
      | none   => pure ()
      expandDefined c (expandUnder c k (⟨id, s⟩ :: visits)) id

/-- A chain of this length has a round that recurs, or is stopped by an error before: the rounds
that make storage are no more than the nodes, and the loops they leave open are no more than
the axes of as many nodes. -/
def recurrenceBound (g : Graph) : Nat :=
  let axes := g.nodes.foldl (fun n node => n + (node.compute.map (·.axes.length)).getD 0) 0
  (g.size + 1) * (g.size + 1) * (axes + 2)

/-- Expand an expression. -/
def expandAll (c : Context) (e : Expr) (s : State) : Except Error (Piece × State) :=
  match (expandExpr (expandNode c (c.graph.size + 1)) e).run s with
  | .error (.graph (.cyclic _)) => (expandExpr (expandUnder c (recurrenceBound c.graph) []) e).run s
  | result                      => result

/-- The first variable id above the graph's, the given storage's and `first`. -/
def firstVar (c : Context) (first : Nat) : Except Error Nat :=
  c.given.entries.foldlM (fun m e => return max m (← Word.nextId e.2.id)) (max c.graph.nextVar first)

end Expansion

/-- An expanded expression. -/
structure Expansion where
  /-- The statements that compute the value. -/
  stmt    : Stmt
  /-- The value, once they have run. -/
  value   : Expr
  /-- Storage made for nodes that had none. -/
  created : Storage
  /-- The next variable id. -/
  nextVar : Nat
deriving Repr

namespace Graph

/-- Expand an expression, using the given storage and variable ids from `first` on. -/
def expandFrom (g : Graph) (first : Nat) (e : Expr) (given : Storage) : Except Error Expansion := do
  let c : Expansion.Context := ⟨g, given⟩
  let next ← Expansion.firstVar c first
  let (p, s) ← Expansion.expandAll c e ⟨.empty, next, 0⟩
  return ⟨.ofList p.stmts, p.value, s.created, s.nextVar⟩

/-- Expand an expression, using the given storage. -/
def expand (g : Graph) (e : Expr) (given : Storage) : Except Error Expansion :=
  g.expandFrom 0 e given

end Graph

end TensorLoops
