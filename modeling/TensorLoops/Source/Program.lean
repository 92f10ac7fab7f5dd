import TensorLoops.Compute.Construction
import TensorLoops.Source.Lexeme

/-!
# Source — Program

Programs and how they are read.  A program declares inputs, binds names to grids and
reductions, and lists its outputs:

    input A: f32[4, 8];
    let r = grid[i: 4] => sum[k: 8] => A[i, k];
    output r;

Reading goes over the lexemes once and adds to the compute graph as it goes, so that nodes and
variables are numbered in the order in which the text completes them.  The first lexeme that
spells no token stops it as soon as it comes up as the next one.
-/

namespace TensorLoops

/-- A program: a compute graph with its named nodes. -/
structure Program where
  graph    : Graph
  /-- The inputs, in order of declaration. -/
  inputs   : List Nat
  /-- The bindings, in order of declaration. -/
  bindings : List (String × Nat)
  /-- The nodes listed as outputs. -/
  outputs  : List Nat
deriving Repr

/-- What to compute: the nodes read and the nodes written. -/
structure Task where
  name    : String
  inputs  : List Nat
  outputs : List Nat
deriving DecidableEq, Repr

namespace Program

/-- Whether a node was declared, as an input or by a binding. -/
def isDeclared (p : Program) (id : Nat) : Bool :=
  p.inputs.contains id || p.bindings.any fun b => b.2 == id

/-- The id of the first node that has the name, among those whose id was declared. -/
def lookup (p : Program) (name : String) : Option Nat :=
  ((List.range p.graph.size).find? fun i =>
    p.isDeclared (Word.toId i) && (p.graph.nodes[i]?).any fun n => n.name == name).map Word.toId

/-- The task of a program: all its inputs, and its outputs or else its last binding. -/
def task (p : Program) (name : String) : Except Error Task :=
  match p.outputs, p.bindings.getLast? with
  | [],   none         => .error (.parse .noComputation)
  | [],   some (_, id) => .ok ⟨name, p.inputs, [id]⟩
  | outs, _            => .ok ⟨name, p.inputs, outs⟩

/-- What has been read so far. -/
structure Reading where
  /-- The lexemes from the current one on. -/
  rest       : List Lexeme
  program    : Program
  /-- The declared names. -/
  symbols    : List (String × Nat)
  /-- The name being bound. -/
  binding    : String
  /-- The number of reductions in the current binding. -/
  reductions : Nat
deriving Repr

/-- A step of reading. -/
abbrev Reader := StateT Reading (Except Error)

/-- The axes in scope, innermost first. -/
abbrev Scope := List (String × Var)

namespace Reader

/-- The current token; `none` at the end. -/
def current : Reader (Option Token) := return (← get).rest.head?.bind (·.token)

/-- The token after the current one. -/
def following : Reader (Option Token) := return (← get).rest.tail.head?.bind (·.token)

/-- Stand at the given lexemes, the first of which must spell a token. -/
def enter (rest : List Lexeme) : Reader Unit :=
  match rest with
  | ⟨none, start, _⟩ :: _ => throw (.lexical start)
  | _                     => modify fun r => { r with rest }

/-- Go on to the next lexeme. -/
def advance : Reader Unit := do enter (← get).rest.tail

def fail {α : Type} (e : ParseError) : Reader α := throw (.parse e)

def unexpected {α : Type} (wanted : Wanted) : Reader α := do
  fail (.unexpected wanted (← current))

/-- Whether the current token is `t`. -/
def atToken (t : Token) : Reader Bool := return (← current) == some t

/-- Take the token `t`. -/
def expect (t : Token) : Reader Unit := do
  if ← atToken t then advance else unexpected (.token t)

def identifier : Reader String := do
  match ← current with
  | some (.ident name) => advance; return name
  | _                  => unexpected .identifier

def extent : Reader Nat := do
  match ← current with
  | some (.int n) => if 0 < n then advance; return n else unexpected .extent
  | _             => unexpected .extent

def dataType : Reader Scalar := do
  let name ← identifier
  match Scalar.ofName? name with
  | some s => return s
  | none   => fail (.unknownType name)

/-- Items with commas between them, at most `n`. -/
def commaList {α : Type} (item : Reader α) : Nat → Reader (List α)
  | 0     => fail .nesting
  | n + 1 => do
      let x ← item
      if ← atToken .comma then
        advance
        return x :: (← commaList item n)
      else return [x]

/-- More steps than reading the rest of the text can take. -/
def allowance : Reader Nat := return 16 * ((← get).rest.length + 1)

/-- A change of the graph. -/
def onGraph {α : Type} (u : Graph.Update α) : Reader α := do
  let r ← get
  match u.run.run r.program.graph with
  | (.ok a, g)    => set { r with program := { r.program with graph := g } }; return a
  | (.error e, _) => throw e

/-- Bind a name to a node, once. -/
def declare (name : String) (id : Nat) : Reader Unit := do
  let r ← get
  if (r.symbols.lookup name).isSome then fail (.alreadyDefined name)
  set { r with symbols := (name, id) :: r.symbols }

/-- One axis with its extent: `i: 4`. -/
def axis : Reader (String × Nat) := do
  let name ← identifier
  expect .colon
  return (name, ← extent)

/-- Axes with their extents: `[i: 4, j: 8]`. -/
def axes : Reader (List (String × Nat)) := do
  expect .lbracket
  let list ← commaList axis (← allowance)
  expect .rbracket
  return list

/-- The current token is a reduction followed by its axes or its index type. -/
def atReduction : Reader Bool := do
  match ← current with
  | some (.ident name) =>
      if (Reduction.ofName? name).isSome then
        let t ← following
        return t == some .lbracket || t == some .lt
      else return false
  | _ => return false

/-- The name of an inner reduction, numbered within its binding. -/
def innerName (op : Reduction) : Reader String := do
  let r ← get
  return r.binding ++ "_" ++ op.name ++ toString r.reductions

/-- The type of an arg-reduction's positions: `<i64>`, or `i32` when left out. -/
def indexType (op : Reduction) : Reader Scalar := do
  if ← atToken .lt then
    if !op.isArg then fail (.noIndexType op)
    advance
    let s ← dataType
    expect .gt
    return s
  else return .i32

/-- Add a reduction; an arg-reduction has one axis. -/
def addReduction (name : String) (op : Reduction) (index : Scalar) (extents : List Nat)
    (axes : List Var) (value : Expr) : Reader Nat :=
  if op.isArg then
    match extents, axes with
    | [extent], [axis] => onGraph (Graph.addArgReduce name extent axis value op index)
    | _,        _      => fail (.oneAxis op extents.length)
  else onGraph (Graph.addReduce name extents axes value op)

/-- The meaning of a call: `min`, `max` or a cast to a data type. -/
def call (name : String) (args : List Expr) : Reader Expr :=
  match name, args with
  | "max", [lhs, rhs] => return lhs.max rhs
  | "min", [lhs, rhs] => return lhs.min rhs
  | _,     [arg]      =>
      match Scalar.ofName? name with
      | some s => return .cast arg (.scalar s)
      | none   => fail (.unknownFunction name)
  | _,     _          => fail (.unknownArity name args.length)

end Reader

/-- The levels of binary operators, the loosest first. -/
inductive Level where
  | disjunction
  | conjunction
  | comparison
  | sum
  | product
deriving DecidableEq, Repr

namespace Level

/-- The next tighter level. -/
def tighter : Level → Option Level
  | .disjunction => some .conjunction
  | .conjunction => some .comparison
  | .comparison  => some .sum
  | .sum         => some .product
  | .product     => none

/-- The operator of this level that a token spells. -/
def operator? : Level → Token → Option BinaryOp
  | .disjunction, .orOr    => some .or
  | .conjunction, .andAnd  => some .and
  | .comparison,  .eqEq    => some .eq
  | .comparison,  .notEq   => some .ne
  | .comparison,  .lt      => some .lt
  | .comparison,  .le      => some .le
  | .comparison,  .gt      => some .gt
  | .comparison,  .ge      => some .ge
  | .sum,         .plus    => some .add
  | .sum,         .minus   => some .sub
  | .product,     .star    => some .mul
  | .product,     .slash   => some .div
  | .product,     .percent => some .mod
  | _,            _        => none

/-- Whether operators of the level follow one another; comparisons do not. -/
def repeats : Level → Bool
  | .comparison => false
  | _           => true

end Level

namespace Reader

mutual

/-- Operands of a level joined by its operators, to the left. -/
def level (scope : Scope) : Nat → Level → Reader Expr
  | 0,     _ => fail .nesting
  | n + 1, l => do
      let lhs ← operand scope n l
      chain scope n l lhs

/-- An operand of a level: an expression of the next tighter one. -/
def operand (scope : Scope) : Nat → Level → Reader Expr
  | 0,     _ => fail .nesting
  | n + 1, l =>
      match l.tighter with
      | some t => level scope n t
      | none   => unary scope n

/-- What follows the first operand of a level. -/
def chain (scope : Scope) : Nat → Level → Expr → Reader Expr
  | 0,     _, _   => fail .nesting
  | n + 1, l, lhs => do
      match (← current).bind l.operator? with
      | none    => return lhs
      | some op =>
          advance
          let rhs ← operand scope n l
          if l.repeats then chain scope n l (.binary op lhs rhs)
          else return .binary op lhs rhs

/-- Signs and negations before a primary expression. -/
def unary (scope : Scope) : Nat → Reader Expr
  | 0     => fail .nesting
  | n + 1 => do
      match ← current with
      | some .minus => advance; return .unary .neg (← unary scope n)
      | some .bang  => advance; return .unary .not (← unary scope n)
      | _           => primary scope n

/-- A literal, a name, an element, a reduction, a call or an expression in parentheses. -/
def primary (scope : Scope) : Nat → Reader Expr
  | 0     => fail .nesting
  | n + 1 => do
      match ← current with
      | some (.int i)  => advance; return .int i
      | some (.real x) => advance; return .real x
      | some .lparen   =>
          advance
          let e ← level scope n .disjunction
          expect .rparen
          return e
      | some (.ident name) =>
          if ← atReduction then return .node (← reduction scope n none)
          else if (← following) == some .lparen then
            advance
            expect .lparen
            let args ← commaList (level scope n .disjunction) n
            expect .rparen
            call name args
          else
            advance
            named scope n name
      | some .gridWord => fail .nestedGrid
      | _              => unexpected .expression

/-- What a name stands for: an axis, a scalar, or a tensor with its indices. -/
def named (scope : Scope) : Nat → String → Reader Expr
  | 0,     _    => fail .nesting
  | n + 1, name => do
      match scope.lookup name with
      | some v => return .var v
      | none   =>
          match (← get).symbols.lookup name with
          | none    => fail (.unknownName name)
          | some id =>
              match (← onGraph (do Graph.Update.lift ((← get).node id))).kind with
              | .scalar _ =>
                  if ← atToken .lbracket then fail (.indexedScalar name) else return .node id
              | .tensor _ _ =>
                  if ← atToken .lbracket then
                    advance
                    let idxs ← commaList (level scope n .disjunction) n
                    expect .rbracket
                    return .element (.node id) idxs
                  else fail (.unindexedTensor name)

/-- A reduction, under its own name or numbered within the binding. -/
def reduction (scope : Scope) : Nat → Option String → Reader Nat
  | 0,     _    => fail .nesting
  | n + 1, name => do
      let word ← identifier
      match Reduction.ofName? word with
      | none    => fail (.unknownReduction word)
      | some op =>
          let index ← indexType op
          let list ← axes
          let name ← match name with
            | some name => pure name
            | none      => innerName op
          modify fun r => { r with reductions := r.reductions + 1 }
          let (vars, value) ← body scope n list
          addReduction name op index (list.map Prod.snd) vars value

/-- What follows the axes: `=> value`, the axes being in scope in the value. -/
def body (scope : Scope) : Nat → List (String × Nat) → Reader (List Var × Expr)
  | 0,     _    => fail .nesting
  | n + 1, list => do
      expect .arrow
      let vars ← onGraph (Graph.newAxes (list.map Prod.fst))
      let value ← level (((list.map Prod.fst).zip vars).reverse ++ scope) n .disjunction
      return (vars, value)

end

/-- An expression. -/
def expression (scope : Scope) : Reader Expr := do level scope (← allowance) .disjunction

/-- `input A: f32[4, 8];` or `input s: f32;`. -/
def inputStatement : Reader Unit := do
  expect .inputWord
  let name ← identifier
  expect .colon
  let s ← dataType
  let id ← if ← atToken .lbracket then do
      advance
      let shape ← commaList extent (← allowance)
      expect .rbracket
      onGraph (Graph.tensorInput name s shape)
    else onGraph (Graph.scalarInput name s)
  expect .semicolon
  declare name id
  modify fun r => { r with program := { r.program with inputs := r.program.inputs ++ [id] } }

/-- A grid over axes: `grid[i: 4] => value`. -/
def gridBinding (name : String) : Reader Nat := do
  expect .gridWord
  let list ← axes
  let (vars, value) ← body [] (← allowance) list
  onGraph (Graph.addGrid name (list.map Prod.snd) vars value)

/-- `let C = grid[..] => ..;` or `let s = sum[..] => ..;`. -/
def letStatement : Reader Unit := do
  expect .letWord
  let name ← identifier
  expect .equals
  modify fun r => { r with binding := name, reductions := 0 }
  let id ← if ← atToken .gridWord then gridBinding name
    else if ← atReduction then reduction [] (← allowance) (some name)
    else unexpected .computation
  expect .semicolon
  declare name id
  modify fun r =>
    { r with program := { r.program with bindings := r.program.bindings ++ [(name, id)] } }

/-- One output: a declared name. -/
def output : Reader Unit := do
  let name ← identifier
  match (← get).symbols.lookup name with
  | none    => fail (.unknownOutput name)
  | some id =>
      modify fun r =>
        { r with program := { r.program with outputs := r.program.outputs ++ [id] } }

/-- `output C, best;`. -/
def outputStatement : Reader Unit := do
  expect .outputWord
  discard (commaList output (← allowance))
  expect .semicolon

def statement : Reader Unit := do
  match ← current with
  | some .inputWord  => inputStatement
  | some .letWord    => letStatement
  | some .outputWord => outputStatement
  | _                => unexpected .statement

/-- Statements up to the end, at most `n`. -/
def statements : Nat → Reader Unit
  | 0     => fail .nesting
  | n + 1 => do
      match ← current with
      | none   => return ()
      | some _ => statement; statements n

/-- A step applied to a text from its start. -/
def onText {α : Type} (step : Reader α) (source : String) : Except Error (α × Reading) :=
  (do enter (Lexeme.scan source); step).run ⟨[], ⟨.empty, [], [], []⟩, [], "", 0⟩

end Reader

/-- Read a program. -/
def parse (source : String) : Except Error Program := do
  let (_, r) ← Reader.onText (do Reader.statements (← Reader.allowance)) source
  return r.program

/-- Read an expression at the front of a text in which no name is declared. -/
def parseExpr (source : String) : Except Error Expr := do
  let (e, _) ← Reader.onText (Reader.expression []) source
  return e

end Program

end TensorLoops
