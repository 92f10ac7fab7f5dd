import TensorLoops.Code.Expr

/-!
# Compute — Reduction

The reductions: what an accumulator starts from, how a value is folded into it and what is
done to it at the end.  An arg-reduction reports the position of the best value; `better?` is
its test, strict so that the earliest of equal values is kept.
-/

namespace TensorLoops

inductive Reduction where
  | sum | mean | max | min | prod | argmax | argmin
deriving DecidableEq, Repr

namespace Reduction

def name : Reduction → String
  | .sum    => "sum"
  | .mean   => "mean"
  | .max    => "max"
  | .min    => "min"
  | .prod   => "prod"
  | .argmax => "argmax"
  | .argmin => "argmin"

/-- The reduction of a name; `avg` is a second name of `mean`. -/
def ofName? : String → Option Reduction
  | "sum"    => some .sum
  | "mean"   => some .mean
  | "avg"    => some .mean
  | "max"    => some .max
  | "min"    => some .min
  | "prod"   => some .prod
  | "argmax" => some .argmax
  | "argmin" => some .argmin
  | _        => none

/-- Whether the result is a position rather than a value. -/
def isArg : Reduction → Bool
  | .argmax | .argmin => true
  | _                 => false

/-- What an accumulator of the given type starts from. -/
def identity (r : Reduction) (s : Scalar) : Expr :=
  let value := match r with
    | .sum | .mean   => s.zero
    | .prod          => s.one
    | .max | .argmax => s.minimum
    | .min | .argmin => s.maximum
  .const value s

/-- Fold a value into an accumulator. -/
def combine (r : Reduction) (acc value : Expr) : Expr :=
  match r with
  | .sum | .mean   => acc.add value
  | .prod          => acc.mul value
  | .max | .argmax => acc.max value
  | .min | .argmin => acc.min value

/-- The result of an accumulator over `count` values. -/
def finalize (r : Reduction) (acc : Expr) (count : Nat) : Expr :=
  match r with
  | .mean => acc.div (.ofSize count)
  | _     => acc

/-- The test under which a candidate takes the place of the best value so far. -/
def better? (r : Reduction) (candidate best : Expr) : Option Expr :=
  match r with
  | .argmax => some (candidate.gt best)
  | .argmin => some (candidate.lt best)
  | _       => none

def toJson (r : Reduction) : Json := .str r.name

end Reduction

end TensorLoops
