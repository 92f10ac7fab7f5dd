import TensorLoops.Number.Decimal

/-!
# Source — Token

The tokens of compute definitions and their spelling.
-/

namespace TensorLoops

/-- A token.  Integer literals are below `2 ^ 63`. -/
inductive Token where
  | inputWord | letWord | outputWord | gridWord
  | real (x : Binary64)
  | int (n : Nat)
  | ident (name : String)
  | arrow
  | plus | minus | star | slash | percent
  | eqEq | notEq | le | ge | lt | gt
  | andAnd | orOr
  | bang
  | equals
  | lparen | rparen | lbracket | rbracket
  | comma | semicolon | colon
deriving DecidableEq, Repr

namespace Token

/-- Equality of tokens, floats comparing as numbers. -/
def equal : Token → Token → Bool
  | .real x, .real y => x.equal y
  | t,       u       => t == u

/-- A float is spelled positionally, whatever its size. -/
def realText (x : Binary64) : String :=
  if x.isNaN then "NaN"
  else if x.isInfinite then x.signed "inf"
  else x.signed (Decimal.shortest .up x).plain

/-- The spelling of a token. -/
def text : Token → String
  | .inputWord  => "input"
  | .letWord    => "let"
  | .outputWord => "output"
  | .gridWord   => "grid"
  | .real x     => realText x
  | .int n      => toString n
  | .ident name => name
  | .arrow      => "=>"
  | .plus       => "+"
  | .minus      => "-"
  | .star       => "*"
  | .slash      => "/"
  | .percent    => "%"
  | .eqEq       => "=="
  | .notEq      => "!="
  | .le         => "<="
  | .ge         => ">="
  | .lt         => "<"
  | .gt         => ">"
  | .andAnd     => "&&"
  | .orOr       => "||"
  | .bang       => "!"
  | .equals     => "="
  | .lparen     => "("
  | .rparen     => ")"
  | .lbracket   => "["
  | .rbracket   => "]"
  | .comma      => ","
  | .semicolon  => ";"
  | .colon      => ":"

end Token

end TensorLoops
