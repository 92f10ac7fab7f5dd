import TensorLoops.Error

/-!
# Number — Word

Arithmetic on sizes.  Sizes and counts are naturals below `2 ^ 64` and ids are naturals below
`2 ^ 32`; an operation whose result would leave that range is an error, and so is a division
by zero.  Only where a position is made into an id are its higher digits dropped (`toId`).
-/

namespace TensorLoops

namespace Word

/-- Sizes are below this. -/
def limit : Nat := Nat.pow 2 64

/-- Ids are below this. -/
def idLimit : Nat := Nat.pow 2 32

def add (a b : Nat) : Except Error Nat :=
  if a + b < limit then .ok (a + b) else .error (.arithmetic .addOverflow)

def mul (a b : Nat) : Except Error Nat :=
  if a * b < limit then .ok (a * b) else .error (.arithmetic .mulOverflow)

def div (a b : Nat) : Except Error Nat :=
  if b = 0 then .error (.arithmetic .divideByZero) else .ok (a / b)

def mod (a b : Nat) : Except Error Nat :=
  if b = 0 then .error (.arithmetic .remainderByZero) else .ok (a % b)

/-- The product of a list, taken from the left; a partial product must be a word too. -/
def product (ns : List Nat) : Except Error Nat := ns.foldlM mul 1

/-- A list of `n` entries of `bytes` bytes each fits in memory, where addresses are signed. -/
def room (bytes n : Nat) : Except Error Unit :=
  if bytes * n < Nat.pow 2 63 then .ok () else .error (.arithmetic .noRoom)

/-- A position as an id. -/
def toId (n : Nat) : Nat := n % idLimit

/-- The id after `id`. -/
def nextId (id : Nat) : Except Error Nat :=
  if id + 1 < idLimit then .ok (id + 1) else .error (.arithmetic .addOverflow)

end Word

end TensorLoops
