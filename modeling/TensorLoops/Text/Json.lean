import TensorLoops.Number.Decimal

/-!
# Text — Json

JSON documents whose objects keep the order of their fields, with the two ways of writing
them: `compact` without a blank, and `pretty` with one item a line and two blanks a level.
-/

namespace TensorLoops

/-- A JSON document. -/
inductive Json where
  | null
  | bool (b : Bool)
  | int (i : Int)
  | real (x : Binary64)
  | str (s : String)
  | arr (items : List Json)
  | obj (fields : List (String × Json))
deriving Repr

namespace Json

/-- An object with one field, the way a tagged value is written. -/
def tagged (tag : String) (content : Json) : Json := .obj [(tag, content)]

def nat (n : Nat) : Json := .int n

def nats (ns : List Nat) : Json := .arr (ns.map nat)

def strings (ss : List String) : Json := .arr (ss.map .str)

/-- Control characters, quotes and backslashes are escaped and all else stands for itself. -/
def escapeChar (c : Char) : List Char :=
  match c with
  | '"'    => ['\\', '"']
  | '\\'   => ['\\', '\\']
  | '\n'   => ['\\', 'n']
  | '\r'   => ['\\', 'r']
  | '\t'   => ['\\', 't']
  | '\x08' => ['\\', 'b']
  | '\x0c' => ['\\', 'f']
  | c      =>
      if c.toNat < 0x20 then
        ['\\', 'u', '0', '0', Nat.digitChar (c.toNat / 16), Nat.digitChar (c.toNat % 16)]
      else [c]

def quoted (s : String) : String := String.ofList ('"' :: s.toList.flatMap escapeChar ++ ['"'])

/-- Numbers are positional from `1e-5` up to below `1e16`, always with a point; outside they
have a signed power of ten.  What is not finite has no number and is `null`. -/
def realText (x : Binary64) : String :=
  if x.isNaN || x.isInfinite then "null"
  else
    let d := Decimal.shortest .toEven x
    let text :=
      if d.digits = 0 ∨ (-5 ≤ d.scale ∧ d.scale ≤ 15) then
        if d.exponent < 0 then d.plain else d.plain ++ ".0"
      else d.scientific "+"
    x.signed text

mutual

/-- The document on one line, without blanks. -/
def compact : Json → String
  | .null       => "null"
  | .bool b     => toString b
  | .int i      => toString i
  | .real x     => realText x
  | .str s      => quoted s
  | .arr items  => "[" ++ ",".intercalate (compactItems items) ++ "]"
  | .obj fields => "\x7b" ++ ",".intercalate (compactFields fields) ++ "\x7d"

def compactItems : List Json → List String
  | []      => []
  | j :: js => compact j :: compactItems js

def compactFields : List (String × Json) → List String
  | []           => []
  | (k, j) :: js => (quoted k ++ ":" ++ compact j) :: compactFields js

end

/-- Items between brackets, each on a line of its own, `pad` being the indentation outside. -/
def bracketed (pad opening closing : String) (items : List String) : String :=
  if items.isEmpty then opening ++ closing
  else
    let inner := pad ++ "  "
    opening ++ "\n" ++ inner ++ (",\n" ++ inner).intercalate items ++ "\n" ++ pad ++ closing

mutual

/-- The document with one item a line, `pad` being the indentation of the line it starts on. -/
def prettyAt (pad : String) : Json → String
  | .null       => "null"
  | .bool b     => toString b
  | .int i      => toString i
  | .real x     => realText x
  | .str s      => quoted s
  | .arr items  => bracketed pad "[" "]" (prettyItems (pad ++ "  ") items)
  | .obj fields => bracketed pad "\x7b" "\x7d" (prettyFields (pad ++ "  ") fields)

def prettyItems (pad : String) : List Json → List String
  | []      => []
  | j :: js => prettyAt pad j :: prettyItems pad js

def prettyFields (pad : String) : List (String × Json) → List String
  | []           => []
  | (k, j) :: js => (quoted k ++ ": " ++ prettyAt pad j) :: prettyFields pad js

end

/-- The document with one item a line. -/
def pretty (j : Json) : String := prettyAt "" j

end Json

end TensorLoops
