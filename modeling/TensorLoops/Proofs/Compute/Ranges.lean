import TensorLoops.Proofs.Compute.Extrema
import TensorLoops.Proofs.Compute.Types

/-!
# Proofs — Compute — Ranges

Whether the numbers in lowered code fit their types.  `figures` lists the literals of code and the
extents of its loops, at any depth.  Nothing on the way from the text to the code compares a number
with the type that it gets: axes count in `i32` whatever their extents, and the extents, the numbers
of the text and the divisors of means are written as `i32` literals.

So a figure of the code strays from its type just when a node that the outputs are computed from
makes it do so, by its extents, by a literal of its value or by its divisor
(`Computes.strays_iff`).  What an accumulator starts from always fits (`not_strays_identity`).
-/

namespace TensorLoops

open Relation

/-! ### Numbers of a type -/

namespace Scalar

/-- A float type has no numbers, and any other has zero and one among them. -/
theorem float_or_range (t : Scalar) :
    (t.zero.number? = none ∧ t.one.number? = none ∧ t.minimum.number? = none ∧
      t.maximum.number? = none) ∨
    ∃ lo hi, (t.zero.number? = some 0 ∧ t.one.number? = some 1 ∧ t.minimum.number? = some lo ∧
      t.maximum.number? = some hi) ∧ lo ≤ 0 ∧ 1 ≤ hi := by
  cases t with
  | f16 | bf16 | tf32 | f32 | f64 => exact .inl ⟨rfl, rfl, rfl, rfl⟩
  | _ => exact .inr ⟨_, _, ⟨rfl, rfl, rfl, rfl⟩, by decide, by decide⟩

/-- How many of the numbers of a type are not negative. -/
def span (t : Scalar) : Nat := t.maximum.number?.elim 0 fun hi => (hi + 1).toNat

/-- A type holds the sizes below its span. -/
theorem holds_natCast {t : Scalar} {i : Nat} : t.Holds i ↔ i < t.span := by
  rcases t.float_or_range with ⟨-, -, -, hmax⟩ | ⟨lo, hi, ⟨-, -, hmin, hmax⟩, hlo, hhi⟩
  · simp [Holds, span, hmax]
  · simp only [Holds, span, hmin, hmax, Option.some.injEq, Option.elim_some]
    constructor
    · rintro ⟨_, _, rfl, rfl, -, hle⟩
      omega
    · intro hlt
      exact ⟨lo, hi, rfl, rfl, by omega, by omega⟩

theorem holds_i32 {z : Int} : Scalar.i32.Holds z ↔ -2 ^ 31 ≤ z ∧ z ≤ 2 ^ 31 - 1 := by
  have hmin : Scalar.i32.minimum.number? = some (-2 ^ 31) := rfl
  have hmax : Scalar.i32.maximum.number? = some (2 ^ 31 - 1) := rfl
  simp only [Holds, hmin, hmax, Option.some.injEq, exists_and_left, exists_eq_left']

instance (t : Scalar) (z : Int) : Decidable (t.Holds z) :=
  decidable_of_iff ((∃ lo ∈ t.minimum.number?, lo ≤ z) ∧ ∃ hi ∈ t.maximum.number?, z ≤ hi) <| by
    simp only [Holds, Option.mem_def]
    constructor
    · rintro ⟨⟨lo, hlo, hle⟩, hi, hhi, hge⟩
      exact ⟨lo, hi, hlo, hhi, hle, hge⟩
    · rintro ⟨lo, hi, hlo, hhi, hle, hge⟩
      exact ⟨⟨lo, hlo, hle⟩, hi, hhi, hge⟩

end Scalar

/-! ### Figures of code -/

/-- A literal with its type, or the extent of a loop with its variable. -/
inductive Figure where
  | literal (value : Literal) (dtype : Scalar)
  | bound (v : Var) (extent : Expr)
deriving Repr

/-- A literal that is a number is one of its type; an extent is known, and not beyond the greatest
number of the variable's type. -/
def Figure.Fits : Figure → Prop
  | .literal value dtype => ∀ z ∈ value.number?, dtype.Holds z
  | .bound v extent      => ∃ z ∈ extent.constInt?, ∃ t ∈ v.ty.scalar?,
      ∃ hi ∈ t.maximum.number?, z ≤ hi

def Figure.isBound : Figure → Bool
  | .literal _ _ => false
  | .bound _ _   => true

instance : DecidablePred Figure.Fits
  | .literal value dtype => inferInstanceAs (Decidable (∀ z ∈ value.number?, dtype.Holds z))
  | .bound v extent      => inferInstanceAs (Decidable (∃ z ∈ extent.constInt?, ∃ t ∈ v.ty.scalar?,
      ∃ hi ∈ t.maximum.number?, z ≤ hi))

namespace Expr

mutual

/-- The literals in an expression, at any depth. -/
def figures : Expr → List Figure
  | .var _             => []
  | .const value dtype => [.literal value dtype]
  | .node _            => []
  | .binary _ lhs rhs  => lhs.figures ++ rhs.figures
  | .unary _ operand   => operand.figures
  | .cast operand _    => operand.figures
  | .element base idxs => base.figures ++ figuresList idxs
  | .call _ args       => figuresList args

def figuresList : List Expr → List Figure
  | []      => []
  | e :: es => e.figures ++ figuresList es

end

theorem figuresList_map_var {vs : List Var} : figuresList (vs.map .var) = [] := by
  induction vs with
  | nil => rfl
  | cons v vs ih => simp [figuresList, figures, ih]

end Expr

def Asm.figures (a : Asm) : List Figure :=
  Expr.figuresList (a.outputs.map AsmOperand.value) ++
    Expr.figuresList (a.inputs.map AsmOperand.value)

namespace Stmt

mutual

/-- The literals and the extents in a statement, at any depth. -/
def figures : Stmt → List Figure
  | .seq ss              => figuresList ss
  | .declare _ init      => init.elim [] Expr.figures
  | .assign _ value      => value.figures
  | .store _ idxs val    => Expr.figuresList idxs ++ val.figures
  | .loop v extent body  => .bound v extent :: (extent.figures ++ body.figures)
  | .cond test yes no    => test.figures ++ yes.figures ++ figuresOption no
  | .eval e              => e.figures
  | .ret e               => e.figures
  | .asm a               => a.figures

def figuresList : List Stmt → List Figure
  | []      => []
  | s :: ss => s.figures ++ figuresList ss

def figuresOption : Option Stmt → List Figure
  | none   => []
  | some s => s.figures

end

variable {ss ts : List Stmt}

@[simp] theorem figuresList_append : figuresList (ss ++ ts) = figuresList ss ++ figuresList ts := by
  induction ss with
  | nil => rfl
  | cons s ss ih => simp [figuresList, ih]

/-- The figures of a list do not depend on how it is made one statement. -/
@[simp] theorem figures_ofList : (ofList ss).figures = figuresList ss := by
  unfold ofList
  split
  · simp [figuresList]
  · rfl

end Stmt

/-- Some figure does not fit. -/
def Strays (xs : List Figure) : Prop := ∃ x ∈ xs, ¬ x.Fits

section Strays

variable {x : Figure} {xs ys : List Figure}

@[simp] theorem not_strays_nil : ¬ Strays [] := fun ⟨_, h, _⟩ => List.not_mem_nil h

/-- Something strays in one part or the other. -/
@[simp] theorem strays_append : Strays (xs ++ ys) ↔ Strays xs ∨ Strays ys := by
  simp only [Strays, List.mem_append, or_and_right, exists_or]

@[simp] theorem strays_cons : Strays (x :: xs) ↔ ¬ x.Fits ∨ Strays xs := by
  simp [Strays]

theorem not_strays : ¬ Strays xs ↔ ∀ x ∈ xs, x.Fits := by
  simp [Strays]

end Strays

/-! ### Sizes as literals -/

/-- A size below `2 ^ 63` is written as it is. -/
theorem bmod_size {n : Nat} (h : n < 2 ^ 63) : Int.bmod n (Nat.pow 2 64) = n := by
  rw [Nat.pow_eq, Int.bmod_def]
  omega

/-- A literal strays if it is none of its type. -/
theorem Expr.strays_int {z : Int} : Strays (Expr.int z).figures ↔ ¬ Scalar.i32.Holds z := by
  simp [Expr.int, Expr.figures, Figure.Fits, Literal.number?]

/-- A size as a literal strays from `2 ^ 31` on. -/
theorem Expr.strays_ofSize {n : Nat} (h : n < 2 ^ 63) :
    Strays (Expr.ofSize n).figures ↔ ¬ n < 2 ^ 31 := by
  rw [Expr.ofSize, bmod_size h, Expr.strays_int, Scalar.holds_i32]
  omega

/-- A loop counter can be told apart from a bound below `2 ^ 31` only. -/
theorem Figure.bound_ofSize {v : Var} {n : Nat} (hv : v.ty = .scalar .i32) (h : n < 2 ^ 63) :
    (Figure.bound v (.ofSize n)).Fits ↔ n < 2 ^ 31 := by
  have hextent : (Expr.ofSize n).constInt? = some (n : Int) := congrArg some (bmod_size h)
  have hmax : Scalar.i32.maximum.number? = some (2 ^ 31 - 1) := rfl
  simp only [Figure.Fits, hextent, hv, Ty.scalar?, hmax, Option.mem_def, Option.some.injEq,
    exists_eq_left']
  omega

/-- The number of points is read as a signed word, so that the greatest are small again. -/
theorem Expr.strays_ofCount {n : Nat} (h : n < 2 ^ 64) :
    Strays (Expr.ofSize n).figures ↔ ¬ (n < 2 ^ 31 ∨ 2 ^ 64 - 2 ^ 31 ≤ n) := by
  rw [Expr.ofSize, Expr.strays_int, Scalar.holds_i32, Nat.pow_eq, Int.bmod_def]
  omega

/-! ### Computations in range -/

namespace Compute

/-- What the result of a mean is divided by. -/
def divisor? : Compute → Option Nat
  | .reduce shape _ _ .mean => some shape.prod
  | _                       => none

/-- The number of positions that an arg-reduction looks at, and the type that it gives them. -/
def positions? : Compute → Option (Nat × Scalar)
  | .argReduce extent _ _ _ index => some (extent, index)
  | _                             => none

/-- The figures that a computation adds to the code fit. -/
structure InRange (d : Compute) : Prop where
  extents : ∀ n ∈ d.extents, n < 2 ^ 31
  value   : ∀ x ∈ d.value.figures, x.Fits
  divisor : ∀ n ∈ d.divisor?, n < 2 ^ 31 ∨ 2 ^ 64 - 2 ^ 31 ≤ n

/-- Every position is a number of its type. -/
def HoldsPositions (d : Compute) : Prop := ∀ x ∈ d.positions?, ∀ i : Nat, i < x.1 → x.2.Holds i

variable {d : Compute}

/-- A computation is out of range by an extent, by its value or by the number it divides by. -/
theorem not_inRange : ¬ d.InRange ↔ (∃ n ∈ d.extents, ¬ n < 2 ^ 31) ∨ Strays d.value.figures ∨
    ∃ n ∈ d.divisor?, ¬ (n < 2 ^ 31 ∨ 2 ^ 64 - 2 ^ 31 ≤ n) := by
  have hand : d.InRange ↔ (∀ n ∈ d.extents, n < 2 ^ 31) ∧ (∀ x ∈ d.value.figures, x.Fits) ∧
      ∀ n ∈ d.divisor?, n < 2 ^ 31 ∨ 2 ^ 64 - 2 ^ 31 ≤ n :=
    ⟨fun h => ⟨h.extents, h.value, h.divisor⟩, fun h => ⟨h.1, h.2.1, h.2.2⟩⟩
  rw [hand, not_and_or, not_and_or]
  simp only [Strays, not_forall, exists_prop]

theorem holdsPositions_iff : d.HoldsPositions ↔ ∀ x ∈ d.positions?, x.1 ≤ x.2.span := by
  refine forall₂_congr fun x _ => ?_
  simp only [Scalar.holds_natCast]
  refine ⟨fun h => ?_, fun h i hi => Nat.lt_of_lt_of_le hi h⟩
  by_contra hlt
  exact Nat.lt_irrefl _ (h _ (Nat.lt_of_not_le hlt))

end Compute

namespace Graph

/-- What the node is computed by is out of range. -/
def Exceeds (g : Graph) (id : Nat) : Prop :=
  ∃ n d, g.node? id = some n ∧ n.compute = some d ∧ ¬ d.InRange

variable {g : Graph} {id : Nat} {n : Node}

theorem not_exceeds_input (hn : g.node? id = some n) (hc : n.compute = none) : ¬ g.Exceeds id := by
  rintro ⟨n', d, hn', hd, -⟩
  obtain rfl := Option.some.inj (hn.symm.trans hn')
  cases hc.symm.trans hd

/-- A computed node exceeds the range if its definition does. -/
theorem exceeds_computed {d : Compute} (hn : g.node? id = some n) (hc : n.compute = some d) :
    g.Exceeds id ↔ ¬ d.InRange := by
  constructor
  · rintro ⟨n', d', hn', hd, h⟩
    obtain rfl := Option.some.inj (hn.symm.trans hn')
    obtain rfl := Option.some.inj (hc.symm.trans hd)
    exact h
  · exact fun h => ⟨n, d, hn, hc, h⟩

end Graph

namespace Expansion

open Stmt

/-! ### Figures in code for nodes -/

/-- The figures of code and of the value it makes available. -/
def Piece.figures (p : Piece) : List Figure := figuresList p.stmts ++ p.value.figures

section Code

variable {c : Context} {axes : List Var} {p : Piece} {shape : List Nat} {op : Reduction}
  {s index : Scalar} {id extent count : Nat} {buf acc axis best position : Var}
  {test result e : Expr} {ss : List Stmt}

/-- Literals between the bounds of a type. -/
theorem not_strays_const {value : Literal}
    (h : value ∈ [s.zero, s.one, s.minimum, s.maximum]) : ¬ Strays (Expr.const value s).figures := by
  rw [not_strays]
  intro x hx
  obtain rfl := List.mem_singleton.mp hx
  intro z hz
  simp only [List.mem_cons, List.not_mem_nil, or_false] at h
  have hvalue : ∀ {w : Option Int}, value.number? = w → w = some z := fun hw => hw.symm.trans hz
  rcases s.float_or_range with ⟨h₀, h₁, hmin, hmax⟩ | ⟨lo, hi, ⟨h₀, h₁, hmin, hmax⟩, hlo, hhi⟩
  · rcases h with rfl | rfl | rfl | rfl
    · cases hvalue h₀
    · cases hvalue h₁
    · cases hvalue hmin
    · cases hvalue hmax
  · refine ⟨lo, hi, hmin, hmax, ?_⟩
    rcases h with rfl | rfl | rfl | rfl
    · obtain rfl := Option.some.inj (hvalue h₀)
      omega
    · obtain rfl := Option.some.inj (hvalue h₁)
      omega
    · obtain rfl := Option.some.inj (hvalue hmin)
      omega
    · obtain rfl := Option.some.inj (hvalue hmax)
      omega

theorem not_strays_identity : ¬ Strays (op.identity s).figures := by
  refine not_strays_const ?_
  cases op <;> simp

/-- The end of a reduction strays if the number it divides by does. -/
theorem strays_finalize (hcount : Word.product shape = .ok count) :
    Strays (op.finalize (.var acc) count).figures ↔
      ∃ n ∈ (Compute.reduce shape axes e op).divisor?, ¬ (n < 2 ^ 31 ∨ 2 ^ 64 - 2 ^ 31 ≤ n) := by
  have hlt : count < 2 ^ 64 := Word.product_lt hcount
  obtain rfl := Word.product_eq hcount
  cases op with
  | mean =>
      rw [Reduction.finalize, Expr.div, Expr.figures, Expr.figures, List.nil_append,
        Expr.strays_ofCount hlt]
      simp [Compute.divisor?]
  | _ => simp [Reduction.finalize, Expr.figures, Compute.divisor?]

/-- The step of a reduction has the figures of the value. -/
theorem figures_combine : (op.combine (.var acc) e).figures = e.figures := by
  cases op <;> rfl

theorem figures_better? (h : op.better? e (.var best) = some test) : test.figures = e.figures := by
  unfold Reduction.better? at h
  split at h <;> cases h <;> simp [Expr.gt, Expr.lt, Expr.figures]

/-- Loops that count in `i32`, to extents that are words. -/
structure Counting (axes : List Var) (shape : List Nat) : Prop where
  length : axes.length = shape.length
  axes   : ∀ v ∈ axes, v.ty = .scalar .i32
  shape  : ∀ n ∈ shape, n < 2 ^ 63

/-- Loops stray by an extent or by what is in them. -/
theorem strays_nest (h : Counting axes shape) : Strays (figuresList (nest (axes.zip shape) ss)) ↔
    (∃ n ∈ shape, ¬ n < 2 ^ 31) ∨ Strays (figuresList ss) := by
  obtain ⟨hlen, haxes, hshape⟩ := h
  induction axes generalizing shape with
  | nil =>
      obtain rfl := List.length_eq_zero_iff.mp hlen.symm
      simp [nest]
  | cons v axes ih =>
      obtain ⟨n, shape, rfl⟩ := List.exists_cons_of_length_eq_add_one hlen.symm
      obtain ⟨hv, haxes⟩ := List.forall_mem_cons.mp haxes
      obtain ⟨hn, hshape⟩ := List.forall_mem_cons.mp hshape
      have hrest := ih (Nat.succ.inj hlen) haxes hshape
      -- the extent counts twice: it bounds the loop and is a literal itself
      simp only [List.zip_cons_cons, nest, figuresList, figures, figures_ofList, List.append_nil,
        strays_cons, strays_append, Figure.bound_ofSize hv hn, Expr.strays_ofSize hn, hrest,
        List.mem_cons, exists_eq_or_imp]
      rw [or_self_left, or_assoc]

/-- Writing back strays if the result does. -/
theorem strays_writeBack : Strays (Piece.figures ⟨writeBack c id result ss, result⟩) ↔
    Strays (figuresList ss) ∨ Strays result.figures := by
  unfold writeBack Piece.figures
  split
  · simp only [figuresList_append, figuresList, figures, List.append_nil, strays_append]
    tauto
  · simp only [strays_append]

/-- A grid strays by an extent or by its value. -/
theorem strays_gridStmts (h : Counting axes shape) :
    Strays (figuresList (gridStmts shape axes buf p)) ↔
      (∃ n ∈ shape, ¬ n < 2 ^ 31) ∨ Strays p.figures := by
  rw [gridStmts, strays_nest h]
  simp [figuresList, figures, Expr.figuresList_map_var, Piece.figures]

theorem strays_reduceStmts (h : Counting axes shape) :
    Strays (figuresList (reduceStmts shape axes op s acc p)) ↔
      (∃ n ∈ shape, ¬ n < 2 ^ 31) ∨ Strays p.figures := by
  rw [reduceStmts, figuresList, strays_append, strays_nest h, figures, or_iff_right not_strays_identity]
  simp [figuresList, figures, figures_combine, Piece.figures]

theorem strays_argReduceStmts (h : Counting [axis] [extent])
    (htest : op.better? p.value (.var best) = some test) :
    Strays (figuresList (argReduceStmts extent axis op s index best position test p)) ↔
      (∃ n ∈ [extent], ¬ n < 2 ^ 31) ∨ Strays p.figures := by
  have hstart : ¬ Strays (figuresList [.declare best (some (op.identity s)),
      .assign position (.const index.zero index)]) := by
    have hzero : ¬ Strays (Expr.const index.zero index).figures := not_strays_const (by simp)
    simp only [figuresList, figures, Option.elim_some, strays_append, not_strays_nil, or_false]
    exact not_or.mpr ⟨not_strays_identity, hzero⟩
  rw [argReduceStmts, figuresList_append, strays_append, or_iff_right hstart]
  refine (strays_nest h).trans (or_congr_right ?_)
  simp [figuresList, figures, figuresOption, figures_better? htest, Expr.figures, Piece.figures]

end Code

/-! ### Figures in whole expansions -/

section Expansions

variable {c : Context} {w : Nat}

/-- Every axis counts in `i32`. -/
def CountsInts (g : Graph) : Prop := ∀ v ∈ g.axes, v.ty = .scalar .i32

/-- The axes of a node count its extents. -/
theorem CountsInts.counting {id : Nat} {n : Node} {d : Compute} {S : List Var}
    (haxes : CountsInts c.graph) (hn : c.graph.node? id = some n) (hd : n.compute = some d)
    (hwf : d.WellFormed n.kind id w S) : Counting d.axes d.extents where
  length := hwf.length
  axes   := fun v hv => haxes v (axes_subset hn hd hv)
  shape  := fun n hn => (hwf.extents n hn).2

mutual

/-- **Code strays where the expression does or a node exceeds the range.** -/
theorem Expands.strays_iff (haxes : CountsInts c.graph) : ∀ {S e u p u'}, Expands c w S e u p u' →
    (Strays p.figures ↔ Strays e.figures ∨ c.graph.Meets c.graph.Exceeds e.nodes)
  | _, _, _, _, _, .var _ => by simp [Piece.figures, figuresList, Expr.figures, Expr.nodes]
  | _, _, _, _, _, .const => by simp [Piece.figures, figuresList, Expr.nodes]
  | _, _, _, _, _, .node _ _ h => by
      rw [h.strays_iff haxes]
      simp [Expr.figures, Expr.nodes]
  | _, _, _, _, _, .binary hl hr => by
      have ihl := hl.strays_iff haxes
      have ihr := hr.strays_iff haxes
      simp only [Piece.figures, figuresList_append, Expr.figures, Expr.nodes, strays_append,
        Graph.meets_append] at ihl ihr ⊢
      rw [or_or_or_comm, ihl, ihr, or_or_or_comm]
  | _, _, _, _, _, .unary h => h.strays_iff haxes
  | _, _, _, _, _, .cast h => h.strays_iff haxes
  | _, _, _, _, _, .element _ _ h hs => by
      have ih := h.strays_iff haxes
      have ihs := hs.strays_iff haxes
      simp only [Piece.figures, figuresList_append, Expr.figures, Expr.nodes, strays_append,
        Graph.meets_append, not_strays_nil, false_or] at ih ihs ⊢
      rw [or_or_or_comm, ih, ihs, or_left_comm]

theorem ExpandsList.strays_iff (haxes : CountsInts c.graph) :
    ∀ {S es u ss vs u'}, ExpandsList c w S es u ss vs u' →
      (Strays (figuresList ss ++ Expr.figuresList vs) ↔
        Strays (Expr.figuresList es) ∨ c.graph.Meets c.graph.Exceeds (Expr.nodesList es))
  | _, _, _, _, _, _, .nil => by simp [figuresList, Expr.figuresList, Expr.nodesList]
  | _, _, _, _, _, _, .cons h hs => by
      have ih := h.strays_iff haxes
      have ihs := hs.strays_iff haxes
      simp only [Piece.figures, figuresList_append, Expr.figuresList, Expr.nodesList, strays_append,
        Graph.meets_append] at ih ihs ⊢
      rw [or_or_or_comm, ih, ihs, or_or_or_comm]

/-- **A figure strays where a node that is met is out of range**, and nowhere else. -/
theorem Computes.strays_iff (haxes : CountsInts c.graph) : ∀ {S id u p u'},
    Computes c w S id u p u' → (Strays p.figures ↔ c.graph.Meets c.graph.Exceeds [id])
  | _, _, _, _, _, .input hn hc _ => by
      rw [Graph.meets_input hn hc]
      refine iff_of_false ?_ (Graph.not_exceeds_input hn hc)
      simp [Piece.figures, figuresList, Expr.figures]
  | _, _, _, _, _, .grid hn _ hc hwf _ h => by
      have hloops := haxes.counting hn hc hwf
      have hvalue := h.strays_iff haxes
      rw [Graph.meets_computed hn hc, Graph.exceeds_computed hn hc, Compute.not_inRange,
        Piece.figures, strays_append]
      simp only [Compute.axes, Compute.extents, Compute.value] at hloops ⊢
      rw [strays_gridStmts hloops, hvalue]
      simp [Expr.figures, Compute.divisor?, or_assoc]
  | _, _, _, _, _, .reduce hn _ hc hwf _ hcount _ h => by
      have hloops := haxes.counting hn hc hwf
      have hvalue := h.strays_iff haxes
      rw [Graph.meets_computed hn hc, Graph.exceeds_computed hn hc, Compute.not_inRange,
        strays_writeBack, ← strays_finalize hcount]
      simp only [Compute.axes, Compute.extents, Compute.value] at hloops ⊢
      rw [strays_reduceStmts hloops, hvalue, ← or_assoc, or_right_comm, ← or_assoc]
  | _, _, _, _, _, .argReduce hn _ hc hwf _ _ h htest => by
      have hloops := haxes.counting hn hc hwf
      have hvalue := h.strays_iff haxes
      rw [Graph.meets_computed hn hc, Graph.exceeds_computed hn hc, Compute.not_inRange,
        strays_writeBack]
      simp only [Compute.axes, Compute.extents, Compute.value] at hloops ⊢
      rw [strays_argReduceStmts hloops htest, hvalue]
      simp [Expr.figures, Compute.divisor?, or_assoc]

end

/-- The value of a node with storage of its own has been written to it. -/
theorem Computes.strays_stmts {S : List Var} {id : Nat} {u u' : Supply} {p : Piece} {v : Var}
    (h : Computes c w S id u p u') (hv : c.given.find? id = some v) :
    Strays (figuresList p.stmts) ↔ Strays p.figures := by
  cases h with
  | input => simp [Piece.figures, Expr.figures]
  | grid => simp [Piece.figures, Expr.figures]
  | argReduce => simp [Piece.figures, Expr.figures]
  | reduce =>
      simp only [Piece.figures, strays_append, writeBack, hv, figuresList_append, figuresList,
        figures, List.append_nil]
      tauto

end Expansions

end Expansion

/-! ### Procedures -/

namespace Task

open Expansion Stmt

/-- Drafts stray where the outputs reach a node that exceeds the range. -/
theorem Drafts.strays_iff {g : Graph} (haxes : CountsInts g) {w : Nat} {ids : List Nat}
    {d d' : Draft} (h : Drafts g w ids d d') (hids : ∀ id ∈ ids, id ∈ d.storage.keys) :
    Strays (figuresList d'.stmts) ↔ Strays (figuresList d.stmts) ∨ g.Meets g.Exceeds ids := by
  induction h with
  | nil => simp
  | cons _ _ _ hc _ ih =>
      obtain ⟨hid, hids⟩ := List.forall_mem_cons.mp hids
      obtain ⟨v, hv⟩ := Table.mem_keys_iff.mp hid
      have hcode := (hc.strays_stmts hv).trans (hc.strays_iff haxes)
      rw [ih fun id hid => Table.mem_keys_union.mpr (.inl (hids id hid)), Draft.add,
        figuresList_append, strays_append, figuresList, figures_ofList, figuresList,
        List.append_nil, hcode, or_assoc]
      exact or_congr_right Graph.meets_cons.symm

/-- A figure of a lowered task strays where its outputs meet a node that is out of range. -/
theorem Lowered.strays_iff {t : Task} {g : Graph} {params : List Var} {d : Draft}
    (haxes : CountsInts g) (h : t.Lowered g params d) :
    Strays (figuresList d.stmts) ↔ g.Meets g.Exceeds t.outputs := by
  have haxes' : CountsInts { g with nextVar := g.nextVar + (t.inputs ++ t.outputs).length } := haxes
  refine (h.drafts.strays_iff haxes' fun id hid => ?_).trans (or_iff_right not_strays_nil)
  rw [Table.mem_keys_ofList, List.map_fst_zip (Nat.le_of_eq h.fits.length_eq)]
  exact List.mem_append_right _ hid

end Task

/-- Every computation that the given nodes take is as stated. -/
def Graph.Throughout (g : Graph) (P : Compute → Prop) (ids : List Nat) : Prop :=
  ∀ o ∈ ids, ∀ (i : Nat) (n : Node) (d : Compute), ReflTransGen g.Contains o i →
    g.node? i = some n → n.compute = some d → P d

theorem Graph.throughout_congr {g : Graph} {P Q : Compute → Prop} {ids : List Nat}
    (h : ∀ d, P d ↔ Q d) : g.Throughout P ids ↔ g.Throughout Q ids :=
  ⟨fun hP o ho i n d hi hn hd => (h d).mp (hP o ho i n d hi hn hd),
    fun hQ o ho i n d hi hn hd => (h d).mpr (hQ o ho i n d hi hn hd)⟩

/-- All definitions are in range if no node exceeds it. -/
theorem Graph.throughout_inRange {g : Graph} {ids : List Nat} :
    g.Throughout Compute.InRange ids ↔ ¬ g.Meets g.Exceeds ids := by
  constructor
  · rintro h ⟨o, ho, i, hi, n, d, hn, hd, hout⟩
    exact hout (h o ho i n d hi hn hd)
  · intro h o ho i n d hi hn hd
    by_contra hout
    exact h ⟨o, ho, i, hi, n, d, hn, hd, hout⟩

/-- **When the numbers of lowered code fit their types.**  Every literal that is a number is one of
its type, and every extent one that its loop variable can count to, if and only if every computation
that the outputs take is in range: its extents are below `2 ^ 31`, the literals of its value fit, and
the number of points of a mean, read as a signed word, is one of `i32`.  Every position that an
arg-reduction looks at is a number of the index type if and only if there are no more positions than
the type has numbers that are not negative.  Nothing else is asked of a text that can be lowered. -/
theorem lowerSource_figures_iff {source name : String} {kind : ProcKind} {f : Procedure}
    (h : lowerSource source name kind = .ok f) :
    ∃ p t, Program.parse source = .ok p ∧ p.task name = .ok t ∧
      ((∀ x ∈ f.body.figures, x.Fits) ↔ p.graph.Throughout Compute.InRange t.outputs) ∧
      (p.graph.Throughout Compute.HoldsPositions t.outputs ↔
        p.graph.Throughout (fun d => ∀ x ∈ d.positions?, x.1 ≤ x.2.span) t.outputs) := by
  obtain ⟨p, t, params, d, hp, ht, -, hlowered, rfl⟩ := lowerSource_eq_ok h
  refine ⟨p, t, hp, ht, ?_, ?_⟩
  · rw [Stmt.figures_ofList, ← not_strays, Graph.throughout_inRange]
    exact not_congr (hlowered.strays_iff (Program.spends_of_parse hp).2.1)
  · exact Graph.throughout_congr fun d => Compute.holdsPositions_iff

/-- As many positions as a signed byte has, a mean and a literal. -/
def centred : String :=
  "input x: f32[9];
let a = argmax<i8>[k: 128] => 3 - mean[j: 9] => x[j];"

/-- All figures of `centred` fit, a mean among them. -/
theorem lowerSource_figures_iff_centred : ∃ f p t, lowerSource centred "main" .host = .ok f ∧
    Program.parse centred = .ok p ∧ p.task "main" = .ok t ∧ (∀ x ∈ f.body.figures, x.Fits) ∧
    p.graph.Throughout Compute.InRange t.outputs := by
  have hok : (do
      let f ← lowerSource centred "main" .host
      return decide (∀ x ∈ f.body.figures, x.Fits)) = Except.ok true := by
    decide +kernel
  obtain ⟨f, hf, hok⟩ := bind_eq_ok.mp hok
  have hfits := of_decide_eq_true (pure_eq_ok.mp hok)
  obtain ⟨p, t, hp, ht, hiff, -⟩ := lowerSource_figures_iff hf
  exact ⟨f, p, t, hf, hp, ht, hfits, hiff.mp hfits⟩

/-- A loop that its variable cannot count to the end of. -/
def longLoop : String := "let s = sum[i: 4294967296] => 1;"

/-- A literal that its type does not have. -/
def largeLiteral : String := "let s = sum[i: 4] => 3000000000;"

/-- More positions than the index type has. -/
def shortIndex : String :=
  "input x: f32[1000];
let best = argmax<i8>[k: 1000] => x[k];"

/-- Texts that are lowered although an extent, a literal or a position does not fit. -/
theorem lowerSource_strays :
    (∃ f, lowerSource longLoop "main" .host = .ok f ∧
      ∃ x ∈ f.body.figures, x.isBound = true ∧ ¬ x.Fits) ∧
    (∃ f, lowerSource largeLiteral "main" .host = .ok f ∧
      ∃ x ∈ f.body.figures, x.isBound = false ∧ ¬ x.Fits) ∧
    ∃ f p t, lowerSource shortIndex "main" .host = .ok f ∧ Program.parse shortIndex = .ok p ∧
      p.task "main" = .ok t ∧ ¬ p.graph.Throughout Compute.HoldsPositions t.outputs := by
  have hloop : (do
      let f ← lowerSource longLoop "main" .host
      return decide (∃ x ∈ f.body.figures, x.isBound = true ∧ ¬ x.Fits)) = Except.ok true := by
    decide +kernel
  have hliteral : (do
      let f ← lowerSource largeLiteral "main" .host
      return decide (∃ x ∈ f.body.figures, x.isBound = false ∧ ¬ x.Fits)) = Except.ok true := by
    decide +kernel
  have hindex : (do
      let _ ← lowerSource shortIndex "main" .host
      let p ← Program.parse shortIndex
      let t ← p.task "main"
      return decide (∃ o ∈ t.outputs, ∃ n ∈ p.graph.node? o, ∃ d ∈ n.compute,
        ∃ x ∈ d.positions?, ¬ x.1 ≤ x.2.span)) = Except.ok true := by
    decide +kernel
  obtain ⟨f₁, hf₁, hloop⟩ := bind_eq_ok.mp hloop
  obtain ⟨f₂, hf₂, hliteral⟩ := bind_eq_ok.mp hliteral
  obtain ⟨f₃, hf₃, hindex⟩ := bind_eq_ok.mp hindex
  obtain ⟨p, hp, hindex⟩ := bind_eq_ok.mp hindex
  obtain ⟨t, ht, hindex⟩ := bind_eq_ok.mp hindex
  obtain ⟨o, ho, n, hn, d, hd, x, hx, hlt⟩ := of_decide_eq_true (pure_eq_ok.mp hindex)
  refine ⟨⟨f₁, hf₁, of_decide_eq_true (pure_eq_ok.mp hloop)⟩,
    ⟨f₂, hf₂, of_decide_eq_true (pure_eq_ok.mp hliteral)⟩, f₃, p, t, hf₃, hp, ht, fun hall => ?_⟩
  exact hlt (Compute.holdsPositions_iff.mp (hall o ho o n d .refl hn hd) x hx)

end TensorLoops
