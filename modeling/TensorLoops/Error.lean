import TensorLoops.Code.Naming
import TensorLoops.Compute.Reduction
import TensorLoops.Source.Token

/-!
# Error

Everything that can go wrong, by cause.  `Error.kind` sorts the causes into the kinds a caller
tells apart and `Error.message` is the one place where they are put into words.
-/

namespace TensorLoops

/-- A result that does not fit in a machine word, or has no value. -/
inductive ArithmeticError where
  | addOverflow
  | mulOverflow
  | divideByZero
  | remainderByZero
  | outOfBounds (size index : Nat)
  | noRoom
deriving DecidableEq, Repr

/-- What a parser was looking for. -/
inductive Wanted where
  | token (t : Token)
  | identifier
  | extent
  | statement
  | computation
  | expression
deriving DecidableEq, Repr

/-- A text that is not a program.  `nesting` is reported by a parser whose allowance of steps
is used up. -/
inductive ParseError where
  | unexpected (wanted : Wanted) (found : Option Token)
  | unknownType (name : String)
  | alreadyDefined (name : String)
  | unknownOutput (name : String)
  | unknownReduction (name : String)
  | noIndexType (op : Reduction)
  | oneAxis (op : Reduction) (given : Nat)
  | nestedGrid
  | unknownFunction (name : String)
  | unknownArity (name : String) (given : Nat)
  | unknownName (name : String)
  | unindexedTensor (name : String)
  | indexedScalar (name : String)
  | noComputation
  | nesting
deriving DecidableEq, Repr

/-- An ill-formed compute graph or an expression that has no scalar type in it. -/
inductive GraphError where
  | unknownNode (id : Nat)
  | axisCount (axes dims : Nat)
  | tensorAsScalar (name : String)
  | indexedScalar (name : String)
  | indexCount (dims : Nat) (name : String) (given : Nat)
  | variableAsScalar (v : Var)
  | indexedVariable (v : Var)
  | indexedExpression (shown : String)
  | castTarget (ty : Ty)
  | untypedCall (func : String)
  | cyclic (id : Nat)
  | argReduction (op : Reduction)
  | notArgReduction (op : Reduction)
  | indexType (s : Scalar)
deriving DecidableEq, Repr

/-- A compute pattern that cannot be expanded into loops. -/
inductive ExpansionError where
  | noStorage (kind name : String)
  | mismatch (pattern kind name : String)
  | argInReduce (op : Reduction) (name : String)
  | noComparison (op : Reduction)
deriving DecidableEq, Repr

/-- Scopes of a statement that do not pair up. -/
inductive ScopeError where
  | noOpenScope
  | leftOpen (count : Nat)
deriving DecidableEq, Repr

/-- A tensor access without a row-major address. -/
inductive LayoutError where
  | pointerIndices (hint : String) (given : Nat)
  | noLayout (shown : String)
  | rank (shape : List Nat) (shown : String) (given : Nat)
deriving DecidableEq, Repr

/-- A copy protocol that cannot be replayed or followed. -/
inductive ReplayError where
  | loopExtent (hint shown : String)
  | conditional (shown : String)
  | waitCount (limit given : Nat)
deriving DecidableEq, Repr

/-- A task mapping that cannot be built or used. -/
inductive MappingError where
  | ranks (ranks : List Nat) (dims : Nat)
  | dimensions (outerDims : Nat) (outer : String) (innerDims : Nat) (inner : String)
  | worker (worker : Nat) (shown : String) (workers : Nat)
  | lanes (shown : String) (workers lanes : Nat)
deriving DecidableEq, Repr

/-- Elements that do not fit the registers and lanes of a target. -/
inductive PackingError where
  | registers (count : Nat) (s : Scalar) (bits lanes registerBits : Nat)
  | lanes (count lanes : Nat)
  | fragment (operand shown key : String) (rows cols elements : Nat)
deriving DecidableEq, Repr

/-- A constraint that a schedule violates. -/
inductive Constraint where
  | tileSizes
  | warpTileSizes
  | warpTileDivides
  | shapeDividesWarpTile
  | depthDividesTile
  | stageCount
  | threadCount
  | sharedMemory
  | problemSizes
  | problemDepth (k step : Nat)
  | other (text : String)
deriving DecidableEq, Repr

/-- An instruction asked for with operands it does not have. -/
inductive InstructionError where
  | cacheLevel (name : String)
  | copySize (given : Nat)
  | prefetch (given : Nat)
  | globalCopySize (given : Nat)
  | sourceSize (limit : Nat) (given : Int)
  | matrixCount (given : Nat)
  | unknownShape (key : String)
  | arity (func : String) (params given : Nat)
deriving DecidableEq, Repr

/-- Why an operation has no result. -/
inductive Error where
  | arithmetic (e : ArithmeticError)
  | lexical (position : Nat)
  | parse (e : ParseError)
  | graph (e : GraphError)
  | expansion (e : ExpansionError)
  | scope (e : ScopeError)
  | layout (e : LayoutError)
  | replay (e : ReplayError)
  | mapping (e : MappingError)
  | packing (e : PackingError)
  | schedule (shown : String) (c : Constraint)
  | instruction (e : InstructionError)
  | duplicateFunction (name : String)
  | unknownFunction (name : String)
deriving DecidableEq, Repr

/-- The kinds of errors. -/
inductive ErrorKind where
  | arithmetic
  | lexical
  | parse
  | unsupported
  | schedule
  | parameter
  | duplicate
  | unknown
  | configuration
  | invalidCode
deriving DecidableEq, Repr

def ArithmeticError.message : ArithmeticError → String
  | .addOverflow          => "attempt to add with overflow"
  | .mulOverflow          => "attempt to multiply with overflow"
  | .divideByZero         => "attempt to divide by zero"
  | .remainderByZero      => "attempt to calculate the remainder with a divisor of zero"
  | .outOfBounds size i   => s!"index out of bounds: the len is {size} but the index is {i}"
  | .noRoom               => "capacity overflow"

def Wanted.text : Wanted → String
  | .token t     => "'" ++ t.text ++ "'"
  | .identifier  => "identifier"
  | .extent      => "positive extent"
  | .statement   => "'input', 'let' or 'output'"
  | .computation => "'grid' or a reduction"
  | .expression  => "expression"

def ParseError.message : ParseError → String
  | .unexpected wanted none     => s!"Expected {wanted.text}, got end of input"
  | .unexpected wanted (some t) => s!"Expected {wanted.text}, got '{t.text}'"
  | .unknownType name           => s!"Unknown data type: {name}"
  | .alreadyDefined name        => s!"`{name}` is already defined"
  | .unknownOutput name         => s!"Unknown output: {name}"
  | .unknownReduction name      => s!"Unknown reduction: {name}"
  | .noIndexType op             => s!"`{op.name}` does not take an index type"
  | .oneAxis op given           => s!"`{op.name}` reduces exactly one axis, got {given}"
  | .nestedGrid                 => "grid is only allowed at the top of a let binding"
  | .unknownFunction name       => s!"Unknown function: {name}"
  | .unknownArity name given    => s!"Unknown function: {name} with {given} argument(s)"
  | .unknownName name           => s!"Unknown name: {name}"
  | .unindexedTensor name       => s!"tensor `{name}` must be indexed"
  | .indexedScalar name         => s!"scalar `{name}` cannot be indexed"
  | .noComputation              => "program defines no computation"
  | .nesting                    => "expression is nested too deeply"

def GraphError.message : GraphError → String
  | .unknownNode id             => s!"unknown node %{id}"
  | .axisCount axes dims        => s!"{axes} axes given for a {dims}-d shape"
  | .tensorAsScalar name        => s!"tensor `{name}` used as a scalar; index it"
  | .indexedScalar name         => s!"scalar `{name}` cannot be indexed"
  | .indexCount dims name given => s!"{dims}-d tensor `{name}` indexed with {given} indices"
  | .variableAsScalar v         => s!"variable `{v.hint}` of type {v.ty.text} used as a scalar"
  | .indexedVariable v          => s!"variable `{v.hint}` of type {v.ty.text} cannot be indexed"
  | .indexedExpression shown    => s!"cannot index expression {shown}"
  | .castTarget ty              => s!"cast to non-scalar type {ty.text}"
  | .untypedCall func           => s!"cannot infer the type of a call to `{func}`"
  | .cyclic id                  => s!"node %{id} is computed from itself"
  | .argReduction op            => s!"`{op.name}` is an arg-reduction; use add_arg_reduce"
  | .notArgReduction op         => s!"`{op.name}` is not an arg-reduction"
  | .indexType s                => s!"arg-reduce index type must be an integer, got {s.name}"

def ExpansionError.message : ExpansionError → String
  | .noStorage kind name        => s!"input {kind} `{name}` has no storage in the input map"
  | .mismatch pattern kind name => s!"{pattern} compute on {kind} node `{name}`"
  | .argInReduce op name        => s!"arg operation `{op.name}` in plain reduce `{name}`"
  | .noComparison op            => s!"reduce operation `{op.name}` has no arg comparison"

def ScopeError.message : ScopeError → String
  | .noOpenScope    => "exit_body called without an open scope"
  | .leftOpen count => s!"{count} scope(s) left open when finishing statement builder"

/-- A list in square brackets. -/
def bracketList (ns : List Nat) : String := "[" ++ ", ".intercalate (ns.map toString) ++ "]"

def LayoutError.message : LayoutError → String
  | .pointerIndices hint given => s!"pointer {hint} indexed with {given} indices"
  | .noLayout shown            => s!"cannot infer a layout for {shown}"
  | .rank shape shown given    =>
      s!"access to {shape.length}-d tensor {shown} {bracketList shape} with {given} indices"

def ReplayError.message : ReplayError → String
  | .loopExtent hint shown  =>
      s!"cannot replay loop over `{hint}` with non-constant extent {shown}"
  | .conditional shown      => s!"cannot replay conditional on {shown}"
  | .waitCount limit given  => s!"wait_group count must be in [0, {limit}), got {given}"

def MappingError.message : MappingError → String
  | .ranks order dims =>
      s!"ranks {bracketList order} are not a permutation of the {dims} dimensions"
  | .dimensions outerDims outer innerDims inner =>
      s!"cannot compose {outerDims}-d mapping {outer} with {innerDims}-d mapping {inner}"
  | .worker index shown workers =>
      s!"worker {index} out of range for {shown} (has {workers} workers)"
  | .lanes shown workers count =>
      s!"{shown} uses {workers} workers, which does not divide {count} lanes"

def PackingError.message : PackingError → String
  | .registers count s bits warp registerBits =>
      s!"{count} x {s.name} ({bits} bits) does not pack into {warp}-lane groups of " ++
        s!"{registerBits}-bit registers"
  | .lanes count warp => s!"{count} elements cannot be split evenly over {warp} lanes"
  | .fragment operand shown key rows cols elements =>
      s!"{operand} fragment mapping {shown} of {key} does not cover a {rows}x{cols} tile with " ++
        s!"{elements} element(s) per lane"

def Constraint.message : Constraint → String
  | .tileSizes            => "tile sizes must be positive"
  | .warpTileSizes        => "warp tile sizes must be positive"
  | .warpTileDivides      => "warp tile must divide block tile"
  | .shapeDividesWarpTile => "mma shape must divide warp tile"
  | .depthDividesTile     => "mma k must divide block_k"
  | .stageCount           => "stages must be in [1, 10]"
  | .threadCount          => "too many threads per block"
  | .sharedMemory         => "shared memory budget exceeded"
  | .problemSizes         => "problem sizes must be positive"
  | .problemDepth k step  => s!"k = {k} is not a multiple of mma k = {step}"
  | .other text           => text

def InstructionError.message : InstructionError → String
  | .cacheLevel name         => s!"cache level candidates: [always, global], got {name}"
  | .copySize given          => s!"cp_size must be either 4, 8, or 16, got {given}"
  | .prefetch given          => s!"prefetch_bytes must be either 0, 64, 128 or 256, got {given}"
  | .globalCopySize given    => s!"cache level global requires cp_size 16, got {given}"
  | .sourceSize limit given  => s!"src_size must be within 0..={limit}, got {given}"
  | .matrixCount given       => s!"ldmatrix loads 1, 2, or 4 matrices, got {given}"
  | .unknownShape key        => s!"no mma configuration named `{key}`"
  | .arity func params given => s!"`{func}` takes {params} argument(s), got {given}"

namespace Error

/-- The kind of an error. -/
def kind : Error → ErrorKind
  | .arithmetic _                => .arithmetic
  | .lexical _                   => .lexical
  | .parse _                     => .parse
  | .graph (.argReduction _)     => .parameter
  | .graph (.notArgReduction _)  => .parameter
  | .graph (.indexType _)        => .parameter
  | .graph _                     => .invalidCode
  | .expansion _                 => .unsupported
  | .scope _                     => .invalidCode
  | .layout _                    => .invalidCode
  | .replay (.waitCount _ _)     => .parameter
  | .replay _                    => .unsupported
  | .mapping (.worker _ _ _)     => .parameter
  | .mapping _                   => .configuration
  | .packing _                   => .configuration
  | .schedule _ _                => .schedule
  | .instruction _               => .parameter
  | .duplicateFunction _         => .duplicate
  | .unknownFunction _           => .unknown

/-- What went wrong, without the kind. -/
def detail : Error → String
  | .arithmetic e           => e.message
  | .lexical _              => "unrecognized character"
  | .parse e                => e.message
  | .graph e                => e.message
  | .expansion e            => e.message
  | .scope e                => e.message
  | .layout e               => e.message
  | .replay e               => e.message
  | .mapping e              => e.message
  | .packing e              => e.message
  | .schedule _ c           => c.message
  | .instruction e          => e.message
  | .duplicateFunction name => name
  | .unknownFunction name   => name

/-- The words of an error. -/
def message (e : Error) : String :=
  match e with
  | .arithmetic a           => a.message
  | .lexical position       => s!"Lexer error at position {position}: {e.detail}"
  | .schedule shown _       => s!"Schedule constraint violated by {shown}: {e.detail}"
  | .duplicateFunction name => s!"Duplicate registration of function `{name}`"
  | .unknownFunction name   => s!"Unknown function: {name}"
  | _                       =>
      match e.kind with
      | .parse         => "Parse error: " ++ e.detail
      | .unsupported   => "Unsupported pattern: " ++ e.detail
      | .parameter     => "Invalid parameter: " ++ e.detail
      | .configuration => "Configuration error: " ++ e.detail
      | _              => "Invalid IR: " ++ e.detail

/-- Whether another schedule may succeed where this one failed. -/
def isRecoverable (e : Error) : Bool := e.kind == .schedule

end Error

/-- What a call on a state gives, with the state behind it; of a call that fails, the error. -/
def resultOf {σ α : Type} (call : ExceptT Error (StateM σ) α) (s : σ) : Except Error (α × σ) :=
  match call.run.run s with
  | (.ok a, s)    => .ok (a, s)
  | (.error e, _) => .error e

end TensorLoops
