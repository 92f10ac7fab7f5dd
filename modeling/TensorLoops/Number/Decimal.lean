import TensorLoops.Number.Binary64

/-!
# Number — Decimal

The fewest decimal digits that read back as a given double.  The reals that round to a finite
number `m · 2 ^ q` form an interval; for 1, 2, … 17 digits the two neighbours of the number on
that decimal grid are tested against it (`Decimal.onGrid`), and the first grid with a hit wins.
All comparisons are between naturals.

`plain`, `scientific` and `whole` lay the chosen digits out.
-/

namespace TensorLoops

/-- The decimal `digits · 10 ^ exponent`. -/
structure Decimal where
  digits   : Nat
  exponent : Int
deriving DecidableEq, Repr

/-- Which of two equally near decimals is taken. -/
inductive Tie where
  | toEven
  | up
deriving DecidableEq, Repr

namespace Decimal

/-- Drop trailing zero digits, at most `n` of them. -/
def trimUpTo : Nat → Decimal → Decimal
  | 0,     d => d
  | n + 1, d =>
      if d.digits ≠ 0 ∧ d.digits % 10 = 0 then trimUpTo n ⟨d.digits / 10, d.exponent + 1⟩ else d

/-- The greatest `k` with `10 ^ k ≤ num / den`, found from an estimate by steps of one. -/
def leadingExponent (num den : Nat) (estimate : Int) : Nat → Int
  | 0     => estimate
  | n + 1 =>
      if num * Nat.pow 10 (-estimate).toNat < den * Nat.pow 10 estimate.toNat then
        leadingExponent num den (estimate - 1) n
      else if
          den * Nat.pow 10 (estimate + 1).toNat ≤ num * Nat.pow 10 (-(estimate + 1)).toNat then
        leadingExponent num den (estimate + 1) n
      else estimate

/-- The decimal on the grid `10 ^ k` nearest to a positive finite number, if one on that grid
rounds to the number.  In units of a quarter of the last binary place the number is `4 · m`
and its interval reaches from `low` to `4 · m + 2`; the ends belong to it when `m` is even. -/
def onGrid (tie : Tie) (x : Binary64) (k : Int) : Option Decimal :=
  let m := x.significand
  let q := x.exponent - 2
  let low := if m = Nat.pow 2 52 ∧ -1074 < x.exponent then 4 * m - 1 else 4 * m - 2
  let a := Nat.pow 2 q.toNat * Nat.pow 10 (-k).toNat
  let u := Nat.pow 2 (-q).toNat * Nat.pow 10 k.toNat
  let within (n : Nat) : Bool :=
    if m % 2 = 0 then low * a ≤ n * u ∧ n * u ≤ (4 * m + 2) * a
    else low * a < n * u ∧ n * u < (4 * m + 2) * a
  let below := 4 * m * a / u
  let under := 4 * m * a - below * u
  let above := (below + 1) * u - 4 * m * a
  match within below, within (below + 1) with
  | true,  false => some ⟨below, k⟩
  | false, true  => some ⟨below + 1, k⟩
  | false, false => none
  | true,  true  =>
      if under < above then some ⟨below, k⟩
      else if above < under then some ⟨below + 1, k⟩
      else match tie with
        | .up     => some ⟨below + 1, k⟩
        | .toEven => some ⟨if below % 2 = 0 then below else below + 1, k⟩

/-- The first hit on the grids below `10 ^ top`, trying `n` of them. -/
def firstHit (tie : Tie) (x : Binary64) (top : Int) : Nat → Decimal
  | 0     => ⟨x.wholePart, 0⟩
  | n + 1 =>
      match onGrid tie x top with
      | some d => d
      | none   => firstHit tie x (top - 1) n

/-- The fewest digits that read back as a finite number. -/
def shortest (tie : Tie) (x : Binary64) : Decimal :=
  if x.significand = 0 then ⟨0, 0⟩
  else
    let num := x.significand * Nat.pow 2 x.exponent.toNat
    let den := Nat.pow 2 (-x.exponent).toNat
    let estimate := ((num.log2 : Int) - den.log2) * 30103 / 100000
    let top := leadingExponent num den estimate 4
    trimUpTo 18 (firstHit tie x top 18)

/-- The exponent of the first digit. -/
def scale (d : Decimal) : Int := d.exponent + (toString d.digits).length - 1

/-- Positional digits, with a point only where a digit follows it: `0.001`, `12.5`, `1200`. -/
def plain (d : Decimal) : String :=
  let text := (toString d.digits).toList
  if 0 ≤ d.exponent then String.ofList (text ++ List.replicate d.exponent.toNat '0')
  else
    let places := (-d.exponent).toNat
    let text := List.replicate (places + 1 - text.length) '0' ++ text
    let (whole, rest) := text.splitAt (text.length - places)
    String.ofList (whole ++ '.' :: rest)

/-- One digit, the others after a point, then the power of ten: `1.25e3`, `5e-324`.  `plus`
stands before a power that is not negative. -/
def scientific (plus : String) (d : Decimal) : String :=
  let first := (toString d.digits).toList.take 1
  let rest := (toString d.digits).toList.drop 1
  let mantissa := if rest.isEmpty then first else first ++ '.' :: rest
  String.ofList mantissa ++ "e" ++ (if d.scale < 0 then "" else plus) ++ toString d.scale

end Decimal

/-- The sign in front of a magnitude. -/
def Binary64.signed (x : Binary64) (text : String) : String :=
  if x.isNegative then "-" ++ text else text

end TensorLoops
