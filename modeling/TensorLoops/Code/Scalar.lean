import TensorLoops.Text.Json

/-!
# Code — Scalar

The scalar element types and the literals of each.  `Scalar.promote` is the type of an
arithmetic result: floats win over integers, wider types over narrower, signed over unsigned.
-/

namespace TensorLoops

/-- A scalar element type. -/
inductive Scalar where
  | bool
  | i8 | i16 | i32 | i64
  | u8 | u16 | u32 | u64
  | f16 | bf16 | tf32 | f32 | f64
deriving DecidableEq, Repr

/-- A literal value.  Unsigned values are kept apart from signed ones, so that the largest
64-bit value stays exact. -/
inductive Literal where
  | bool (b : Bool)
  | int (i : Int)
  | nat (n : Nat)
  | real (x : Binary64)
deriving DecidableEq, Repr

namespace Literal

/-- The nearest double. -/
def toBinary64 : Literal → Binary64
  | .bool b => if b then .one else .zero
  | .int i  => .ofInt i
  | .nat n  => .ofInt n
  | .real x => x

/-- The value as a signed 64-bit integer, where there is one; a float has none. -/
def toInt? : Literal → Option Int
  | .bool b => some (if b then 1 else 0)
  | .int i  => some i
  | .nat n  => if n < Nat.pow 2 63 then some n else none
  | .real _ => none

/-- Integers below `1e16` are written positionally with one place and everything else with a
power of ten. -/
def realText (x : Binary64) : String :=
  if x.isNaN then "NaN"
  else if x.isInfinite then x.signed "inf"
  else if x.isIntegral && x.wholePart < Nat.pow 10 16 then x.signed (toString x.wholePart ++ ".0")
  else x.signed ((Decimal.shortest .up x).scientific "")

/-- The literal in program text; unsigned literals end in `u`. -/
def text : Literal → String
  | .bool b => toString b
  | .int i  => toString i
  | .nat n  => toString n ++ "u"
  | .real x => realText x

/-- Equality of values: floats compare as numbers, literals of two kinds are never equal. -/
def equal : Literal → Literal → Bool
  | .bool a, .bool b => a == b
  | .int a,  .int b  => a == b
  | .nat a,  .nat b  => a == b
  | .real a, .real b => a.equal b
  | _,       _       => false

def toJson : Literal → Json
  | .bool b => .tagged "Bool" (.bool b)
  | .int i  => .tagged "Int" (.int i)
  | .nat n  => .tagged "UInt" (.nat n)
  | .real x => .tagged "Float" (.real x)

end Literal

namespace Scalar

/-- Every scalar type, in its usual order. -/
def all : List Scalar :=
  [.bool, .i8, .i16, .i32, .i64, .u8, .u16, .u32, .u64, .f16, .bf16, .tf32, .f32, .f64]

/-- Storage width; a `tf32` occupies a full 32-bit register. -/
def bits : Scalar → Nat
  | .bool | .i8 | .u8              => 8
  | .i16 | .u16 | .f16 | .bf16     => 16
  | .i32 | .u32 | .f32 | .tf32     => 32
  | .i64 | .u64 | .f64             => 64

def bytes (s : Scalar) : Nat := s.bits / 8

def isFloat : Scalar → Bool
  | .f16 | .bf16 | .tf32 | .f32 | .f64 => true
  | _                                  => false

def isInteger (s : Scalar) : Bool := !s.isFloat && s != .bool

/-- Whether negative values exist; floats count as signed. -/
def isSigned : Scalar → Bool
  | .i8 | .i16 | .i32 | .i64 => true
  | s                        => s.isFloat

/-- The name in source text and in instruction names. -/
def name : Scalar → String
  | .bool => "bool"
  | .i8   => "i8"
  | .i16  => "i16"
  | .i32  => "i32"
  | .i64  => "i64"
  | .u8   => "u8"
  | .u16  => "u16"
  | .u32  => "u32"
  | .u64  => "u64"
  | .f16  => "f16"
  | .bf16 => "bf16"
  | .tf32 => "tf32"
  | .f32  => "f32"
  | .f64  => "f64"

/-- The second name source text may use. -/
def longName : Scalar → String
  | .bool => "bool"
  | .i8   => "int8"
  | .i16  => "int16"
  | .i32  => "int32"
  | .i64  => "int64"
  | .u8   => "uint8"
  | .u16  => "uint16"
  | .u32  => "uint32"
  | .u64  => "uint64"
  | .f16  => "float16"
  | .bf16 => "bfloat16"
  | .tf32 => "tfloat32"
  | .f32  => "float32"
  | .f64  => "float64"

/-- The name in rendered device code. -/
def deviceName : Scalar → String
  | .bool => "bool"
  | .i8   => "int8_t"
  | .i16  => "int16_t"
  | .i32  => "int32_t"
  | .i64  => "int64_t"
  | .u8   => "uint8_t"
  | .u16  => "uint16_t"
  | .u32  => "uint32_t"
  | .u64  => "uint64_t"
  | .f16  => "half"
  | .bf16 => "nv_bfloat16"
  | .tf32 => "tfloat32_t"
  | .f32  => "float"
  | .f64  => "double"

/-- The type of a short (`f32`) or long (`float32`) name. -/
def ofName? (text : String) : Option Scalar :=
  all.find? fun s => text = s.name || text = s.longName

/-- An integer brought into the type's literals; a negative one becomes an unsigned zero. -/
def literal (s : Scalar) (i : Int) : Literal :=
  if s = .bool then .bool (i ≠ 0)
  else if s.isFloat then .real (.ofInt i)
  else if s.isSigned then .int i
  else .nat i.toNat

def zero (s : Scalar) : Literal := s.literal 0

def one (s : Scalar) : Literal := s.literal 1

/-- The greatest finite magnitude of a float type. -/
def floatBound : Scalar → Binary64
  | .f16  => .ofInt 65504
  | .bf16 => .ofDecimal false 33895314 31
  | .f64  => ⟨0x7fefffffffffffff⟩
  | _     => ⟨0x47efffffe0000000⟩

/-- The least finite value. -/
def minimum (s : Scalar) : Literal :=
  if s = .bool then .bool false
  else if s.isFloat then .real (.ofMagnitude true s.floatBound.magnitude)
  else if s.isSigned then .int (-Int.pow 2 (s.bits - 1))
  else .nat 0

/-- The greatest finite value. -/
def maximum (s : Scalar) : Literal :=
  if s = .bool then .bool true
  else if s.isFloat then .real s.floatBound
  else if s.isSigned then .int (Int.pow 2 (s.bits - 1) - 1)
  else .nat (Nat.pow 2 s.bits - 1)

/-- The type of an arithmetic result.  Two float types of one width have no common type of
that width and meet in `f32`. -/
def promote (s t : Scalar) : Scalar :=
  if s = t then s
  else
    match s.isFloat, t.isFloat with
    | true,  false => s
    | false, true  => t
    | true,  true  =>
        if s.bits = t.bits then .f32 else if s.bits > t.bits then s else t
    | false, false =>
        if s = .bool then t
        else if t = .bool then s
        else if s.bits ≠ t.bits then (if s.bits > t.bits then s else t)
        else if s.isSigned then s
        else t

def toJson (s : Scalar) : Json := .str s.name

end Scalar

end TensorLoops
