import Mathlib.Logic.Function.Basic
import TensorLoops.Code.Stmt

/-!
# Proofs — Code — Machine

Running statements.  The machine keeps a value at every *place*: the scalar of a variable id and
each of its elements.  Values are of any type `V`; an `Interp V` says what the operators, casts,
literals and calls compute and how a value is read as an index or a truth value.

A run either ends in a machine or meets an access outside its tensor, a node that has not been
expanded, or an index or extent that is no integer, and then has no result.  Beside the memory, a
machine keeps what happened so far: the values that expressions came to, the branches taken, the
iterations begun and the cells written.  After a `return` nothing more is done.
-/

namespace TensorLoops

/-- A meaning for scalar operations over values `V`. -/
structure Interp (V : Type) where
  literal : Literal → Scalar → V
  binary  : BinaryOp → V → V → V
  unary   : UnaryOp → V → V
  cast    : Ty → V → V
  call    : String → List V → V
  /-- What an inline instruction leaves in its outputs, given their values and the inputs'. -/
  asm     : String → List V → List V → List V
  /-- What a variable holds that is declared without a value. -/
  blank   : V
  isTrue  : V → Bool
  /-- The value of a loop counter. -/
  counter : Int → V
  /-- A value as an index or an extent, if it is an integer. -/
  toInt?  : V → Option Int

/-- The counters of a loop of `n` iterations read back as themselves.  Where values are machine
numbers, this holds of loops that are short enough. -/
def Interp.Counts {V : Type} (I : Interp V) (n : Nat) : Prop :=
  ∀ i : Nat, i < n → I.toInt? (I.counter i) = some i

/-- A cell of the memory. -/
inductive Place where
  | scalar (id : Nat)
  | element (id : Nat) (indices : List Int)
deriving DecidableEq

/-- The variable a cell belongs to. -/
def Place.id : Place → Nat
  | .scalar id    => id
  | .element id _ => id

/-- What every cell holds. -/
abbrev Memory (V : Type) := Place → V

/-- The memory with `x` in every cell of a variable. -/
def Memory.fill {V : Type} (m : Memory V) (id : Nat) (x : V) : Memory V :=
  fun p => if p.id = id then x else m p

/-- Indices within a shape: one for each dimension, below its extent. -/
def Within : List Nat → List Int → Prop
  | [],      []      => True
  | n :: ns, i :: is => (0 ≤ i ∧ i < n) ∧ Within ns is
  | _,       _       => False

instance decidableWithin : (ns : List Nat) → (is : List Int) → Decidable (Within ns is)
  | [],      []      => .isTrue trivial
  | n :: ns, i :: is =>
      have := decidableWithin ns is
      inferInstanceAs (Decidable ((0 ≤ i ∧ i < n) ∧ Within ns is))
  | [],      _ :: _  => .isFalse id
  | _ :: _,  []      => .isFalse id

/-- The indices that a variable of this type can be accessed at: those within the shape of a
tensor, and any single one of a pointer. -/
def Ty.Admits : Ty → List Int → Prop
  | .tensor _ shape, is => Within shape is
  | .pointer _,      is => is.length = 1
  | _,               _  => False

instance (ty : Ty) (is : List Int) : Decidable (ty.Admits is) := by
  unfold Ty.Admits
  split <;> infer_instance

/-- The cell of an access, if it lies within the variable accessed. -/
def cell (base : Expr) (is : List Int) : Option Place :=
  match base with
  | .var v => if v.ty.Admits is then some (.element v.id is) else none
  | _      => none

section Eval

variable {V : Type} (I : Interp V) (m : Memory V)

mutual

/-- The value of an expression. -/
def eval : Expr → Option V
  | .var v             => some (m (.scalar v.id))
  | .const value s     => some (I.literal value s)
  | .node _            => none
  | .binary op lhs rhs => do return I.binary op (← eval lhs) (← eval rhs)
  | .unary op operand  => do return I.unary op (← eval operand)
  | .cast operand ty   => do return I.cast ty (← eval operand)
  | .element base idxs => do
      let is ← (← evalList idxs).mapM I.toInt?
      return m (← cell base is)
  | .call func args    => do return I.call func (← evalList args)

def evalList : List Expr → Option (List V)
  | []      => some []
  | e :: es => do return (← eval e) :: (← evalList es)

end

/-- The values of index expressions, as integers. -/
def indices (es : List Expr) : Option (List Int) := do (← evalList I m es).mapM I.toInt?

/-- The cell that an expression names. -/
def place : Expr → Option Place
  | .var v             => some (.scalar v.id)
  | .element base idxs => do cell base (← indices I m idxs)
  | _                  => none

/-- The number of iterations of a loop.  A literal counts as it stands. -/
def count (extent : Expr) : Option Int :=
  match extent.constInt? with
  | some n => some n
  | none   => do I.toInt? (← eval I m extent)

end Eval

/-- Something that happened in a run. -/
inductive Event (V : Type) where
  /-- An expression of a statement came to a value. -/
  | value (x : V)
  | branch (taken : Bool)
  | iteration (i : Nat)
  | write (p : Place) (x : V)

/-- A machine in the course of a run. -/
structure Machine (V : Type) where
  memory : Memory V
  /-- What happened so far, the latest last. -/
  trace  : List (Event V)
  /-- The value returned. -/
  result : Option V

namespace Machine

variable {V : Type}

/-- Note an event. -/
def log (s : Machine V) (e : Event V) : Machine V := { s with trace := s.trace ++ [e] }

/-- Put a value in a cell. -/
def write (s : Machine V) (p : Place) (x : V) : Machine V :=
  { s with memory := Function.update s.memory p x, trace := s.trace ++ [.write p x] }

/-- Put values in cells, one after the other. -/
def writeAll (s : Machine V) (ws : List (Place × V)) : Machine V :=
  ws.foldl (fun s w => s.write w.1 w.2) s

/-- Begin an iteration of a loop. -/
def begin (I : Interp V) (s : Machine V) (id i : Nat) : Machine V :=
  (s.log (.iteration i)).write (.scalar id) (I.counter i)

/-- Go on unless a value has been returned. -/
def proceed (s : Machine V) (next : Machine V → Option (Machine V)) : Option (Machine V) :=
  if s.result.isSome then some s else next s

end Machine

section Exec

variable {V : Type} (I : Interp V)

/-- Run the body of a loop for each of the counters. -/
def iterate (id : Nat) (body : Machine V → Option (Machine V)) :
    List Nat → Machine V → Option (Machine V)
  | [],      s => some s
  | i :: is, s => do (← body (s.begin I id i)).proceed (iterate id body is)

mutual

/-- Run a statement. -/
def exec : Stmt → Machine V → Option (Machine V)
  | .seq ss,               s => execList ss s
  | .declare v none,       s => some { s with memory := s.memory.fill v.id I.blank }
  | .declare v (some e),   s => do
      let x ← eval I s.memory e
      return (s.log (.value x)).write (.scalar v.id) x
  | .assign v e,           s => do
      let x ← eval I s.memory e
      return (s.log (.value x)).write (.scalar v.id) x
  | .store buf idxs e,     s => do
      let x ← eval I s.memory e
      let p ← place I s.memory (.element (.var buf) idxs)
      return (s.log (.value x)).write p x
  | .loop v extent body,   s => do
      let n ← count I s.memory extent
      iterate I v.id (exec body) (List.range n.toNat) s
  | .cond test yes no,     s => do
      let x ← eval I s.memory test
      if I.isTrue x then exec yes ((s.log (.value x)).log (.branch true))
      else execOption no ((s.log (.value x)).log (.branch false))
  | .eval e,               s => do return s.log (.value (← eval I s.memory e))
  | .ret e,                s => do
      let x ← eval I s.memory e
      return { s.log (.value x) with result := some x }
  | .asm a,                s => do
      let outs ← evalList I s.memory (a.outputs.map (·.value))
      let ins ← evalList I s.memory (a.inputs.map (·.value))
      let ps ← (a.outputs.map (·.value)).mapM (place I s.memory)
      let s := (outs ++ ins).foldl (fun s x => s.log (.value x)) s
      return s.writeAll (ps.zip (I.asm a.template outs ins))

def execList : List Stmt → Machine V → Option (Machine V)
  | [],      s => some s
  | t :: ts, s => do (← exec t s).proceed (execList ts)

def execOption : Option Stmt → Machine V → Option (Machine V)
  | none,   s => some s
  | some t, s => exec t s

end

/-- Run a procedure from a memory. -/
def Procedure.run (p : Procedure) (m : Memory V) : Option (Machine V) := exec I p.body ⟨m, [], none⟩

end Exec

/-- Integers as values, with exact arithmetic; `1` and `0` are the truth values. -/
def Interp.integers : Interp Int where
  literal
    | .int i,  _ => i
    | .nat n,  _ => n
    | .bool b, _ => b.toNat
    | .real _, _ => 0
  binary
    | .add, x, y => x + y
    | .sub, x, y => x - y
    | .mul, x, y => x * y
    | .div, x, y => x / y
    | .mod, x, y => x % y
    | .min, x, y => min x y
    | .max, x, y => max x y
    | .lt,  x, y => (decide (x < y)).toNat
    | .le,  x, y => (decide (x ≤ y)).toNat
    | .gt,  x, y => (decide (y < x)).toNat
    | .ge,  x, y => (decide (y ≤ x)).toNat
    | .eq,  x, y => (decide (x = y)).toNat
    | .ne,  x, y => (decide (x ≠ y)).toNat
    | .and, x, y => (decide (x ≠ 0 ∧ y ≠ 0)).toNat
    | .or,  x, y => (decide (x ≠ 0 ∨ y ≠ 0)).toNat
  unary
    | .neg, x => -x
    | .not, x => (decide (x = 0)).toNat
  cast _ x := x
  call _ xs := xs.foldl (· + ·) 0
  asm _ outs _ := outs
  blank := 0
  isTrue x := x ≠ 0
  counter i := i
  toInt? := some

/-- Integers count loops of any length. -/
theorem Interp.counts_integers (n : Nat) : integers.Counts n := fun _ _ => rfl

end TensorLoops
