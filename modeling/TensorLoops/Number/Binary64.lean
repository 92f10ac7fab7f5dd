/-!
# Number — Binary64

Double-precision numbers as bit patterns.  A literal of a program is one of these, never a
machine float, so that what is read, compared and printed is a statement about integers.

* `ofRatio` rounds a quotient of naturals to the nearest double, a tie to the even one;
* `ofDecimal` reads `digits · 10 ^ exponent`, and `ofInt` an integer, through it;
* `significand` and `exponent` read a finite number back as `significand · 2 ^ exponent`.
-/

namespace TensorLoops

/-- A double-precision number, held as its bit pattern. -/
structure Binary64 where
  bits : UInt64
deriving DecidableEq, Repr

/-- `num / den` rounded to the nearest natural, a tie to the even one. -/
def roundEven (num den : Nat) : Nat :=
  let low := num / den
  let rest := num % den
  if 2 * rest > den ∨ (2 * rest = den ∧ low % 2 = 1) then low + 1 else low

namespace Binary64

/-- The magnitude bits of the infinities; every larger magnitude is a NaN. -/
def infinityBits : Nat := 0x7ff * Nat.pow 2 52

/-- The number with a sign and the magnitude bits, an overflowing magnitude being infinite. -/
def ofMagnitude (negative : Bool) (magnitude : Nat) : Binary64 :=
  let magnitude := min magnitude infinityBits
  ⟨UInt64.ofNat (if negative then Nat.pow 2 63 + magnitude else magnitude)⟩

def zero : Binary64 := ⟨0⟩

def one : Binary64 := ⟨0x3ff0000000000000⟩

def infinity (negative : Bool) : Binary64 := ofMagnitude negative infinityBits

/-- A quiet NaN. -/
def nan : Binary64 := ⟨0x7ff8000000000000⟩

def isNegative (x : Binary64) : Bool := Nat.pow 2 63 ≤ x.bits.toNat

/-- The bits below the sign. -/
def magnitude (x : Binary64) : Nat := x.bits.toNat % Nat.pow 2 63

def isNaN (x : Binary64) : Bool := infinityBits < x.magnitude

def isInfinite (x : Binary64) : Bool := x.magnitude = infinityBits

/-- Of a finite number, the natural `m` of `m · 2 ^ q`. -/
def significand (x : Binary64) : Nat :=
  if x.magnitude / Nat.pow 2 52 = 0 then x.magnitude else x.magnitude % Nat.pow 2 52 + Nat.pow 2 52

/-- Of a finite number, the integer `q` of `m · 2 ^ q`. -/
def exponent (x : Binary64) : Int :=
  if x.magnitude / Nat.pow 2 52 = 0 then -1074 else (x.magnitude / Nat.pow 2 52 : Nat) - 1075

/-- Equality of numbers: the two zeros are equal and a NaN equals nothing. -/
def equal (x y : Binary64) : Bool :=
  !x.isNaN && !y.isNaN && (x.bits == y.bits || (x.magnitude == 0 && y.magnitude == 0))

/-- `num / (den · 2 ^ q)` as a quotient of naturals. -/
def scaled (num den : Nat) (q : Int) : Nat × Nat :=
  (num * Nat.pow 2 (-q).toNat, den * Nat.pow 2 q.toNat)

/-- The double nearest to `num / den`, a tie going to the even significand.  The significand
gets 53 bits, or as many as the least exponent leaves. -/
def ofRatio (negative : Bool) (num den : Nat) : Binary64 :=
  if num = 0 then ofMagnitude negative 0
  else
    let near : Int := (num.log2 : Int) - den.log2
    let (n, d) := scaled num den near
    let top := if d ≤ n then near else near - 1
    let q := max (top - 52) (-1074)
    let (n, d) := scaled num den q
    ofMagnitude negative ((q + 1074).toNat * Nat.pow 2 52 + roundEven n d)

/-- The double nearest to an integer. -/
def ofInt (i : Int) : Binary64 := ofRatio (i < 0) i.natAbs 1

/-- The double nearest to `digits · 10 ^ exponent`.  Exponents far outside the range are
settled without computing the power. -/
def ofDecimal (negative : Bool) (digits : Nat) (exponent : Int) : Binary64 :=
  if digits = 0 then ofMagnitude negative 0
  else if 400 < exponent then infinity negative
  else if exponent + digits.log2 < -400 then ofMagnitude negative 0
  else ofRatio negative (digits * Nat.pow 10 exponent.toNat) (Nat.pow 10 (-exponent).toNat)

/-- Whether a finite number is an integer. -/
def isIntegral (x : Binary64) : Bool :=
  0 ≤ x.exponent || x.significand % Nat.pow 2 (-x.exponent).toNat == 0

/-- The integer part of the magnitude of a finite number. -/
def wholePart (x : Binary64) : Nat :=
  x.significand * Nat.pow 2 x.exponent.toNat / Nat.pow 2 (-x.exponent).toNat

end Binary64

end TensorLoops
