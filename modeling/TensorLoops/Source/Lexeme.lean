import TensorLoops.Source.Token

/-!
# Source — Lexeme

Reading tokens off a text.  Blanks and comments (`#` to the end of the line) are skipped
between lexemes; a lexeme is the longest piece of text that spells a token, or one character
that starts none.  Each carries the bytes it covers, counted in UTF-8.

`Lexeme.scan` reads a whole text.  A `Cursor` hands the lexemes out one at a time and can look
one ahead.
-/

namespace TensorLoops

/-- A piece of text: the token it spells, or `none` if it spells no token, and the bytes
`start` up to `stop` that it covers. -/
structure Lexeme where
  token : Option Token
  start : Nat
  stop  : Nat
deriving DecidableEq, Repr

namespace Lexeme

def isBlank (c : Char) : Bool := c == ' ' || c == '\t' || c == '\n' || c == '\r'

def isWordStart (c : Char) : Bool := c.isAlpha || c == '_'

def isWordPart (c : Char) : Bool := c.isAlphanum || c == '_'

/-- The number of bytes of a text. -/
def byteCount (cs : List Char) : Nat := cs.foldl (fun n c => n + c.utf8Size) 0

/-- Skip blanks and comments, counting bytes from `pos`. -/
def skip (inComment : Bool) (pos : Nat) : List Char → Nat × List Char
  | []      => (pos, [])
  | c :: cs =>
      if inComment then skip (c != '\n') (pos + c.utf8Size) cs
      else if isBlank c then skip false (pos + c.utf8Size) cs
      else if c == '#' then skip true (pos + c.utf8Size) cs
      else (pos, c :: cs)

/-- The value of a run of decimal digits. -/
def digitsValue (cs : List Char) : Nat := cs.foldl (fun n c => 10 * n + (c.toNat - '0'.toNat)) 0

/-- A word is a keyword or a name. -/
def wordToken (cs : List Char) : Token :=
  match String.ofList cs with
  | "input"  => .inputWord
  | "let"    => .letWord
  | "output" => .outputWord
  | "grid"   => .gridWord
  | name     => .ident name

/-- The length and the value of an exponent such as `e-12` at the front of a text. -/
def exponent? : List Char → Option (Nat × Int)
  | e :: cs =>
      if e == 'e' || e == 'E' then
        let sign := cs.takeWhile (fun c => c == '+' || c == '-') |>.take 1
        let digits := (cs.drop sign.length).takeWhile Char.isDigit
        if digits.isEmpty then none
        else
          let n : Int := digitsValue digits
          some (1 + sign.length + digits.length, if sign == ['-'] then -n else n)
      else none
  | [] => none

/-- The digits after a point at the front of a text, if there is a point with digits. -/
def fraction? : List Char → Option (List Char)
  | '.' :: cs =>
      let digits := cs.takeWhile Char.isDigit
      if digits.isEmpty then none else some digits
  | _ => none

/-- The token of a text that starts with a digit, and how many characters it takes.  An
integer of `2 ^ 63` or more spells no token. -/
def number (cs : List Char) : Option Token × Nat :=
  let whole := cs.takeWhile Char.isDigit
  let rest := cs.drop whole.length
  match fraction? rest with
  | some places =>
      let mantissa := digitsValue (whole ++ places)
      let length := whole.length + 1 + places.length
      match exponent? (cs.drop length) with
      | some (n, e) => (some (.real (.ofDecimal false mantissa (e - places.length))), length + n)
      | none        => (some (.real (.ofDecimal false mantissa (-(places.length : Int)))), length)
  | none =>
      match exponent? rest with
      | some (n, e) => (some (.real (.ofDecimal false (digitsValue whole) e)), whole.length + n)
      | none        =>
          let n := digitsValue whole
          (if n < Nat.pow 2 63 then some (.int n) else none, whole.length)

/-- The operator or bracket at the front of a text, the longer one first. -/
def operator : List Char → Option Token × Nat
  | '=' :: '>' :: _ => (some .arrow, 2)
  | '=' :: '=' :: _ => (some .eqEq, 2)
  | '!' :: '=' :: _ => (some .notEq, 2)
  | '<' :: '=' :: _ => (some .le, 2)
  | '>' :: '=' :: _ => (some .ge, 2)
  | '&' :: '&' :: _ => (some .andAnd, 2)
  | '|' :: '|' :: _ => (some .orOr, 2)
  | '+' :: _        => (some .plus, 1)
  | '-' :: _        => (some .minus, 1)
  | '*' :: _        => (some .star, 1)
  | '/' :: _        => (some .slash, 1)
  | '%' :: _        => (some .percent, 1)
  | '<' :: _        => (some .lt, 1)
  | '>' :: _        => (some .gt, 1)
  | '!' :: _        => (some .bang, 1)
  | '=' :: _        => (some .equals, 1)
  | '(' :: _        => (some .lparen, 1)
  | ')' :: _        => (some .rparen, 1)
  | '[' :: _        => (some .lbracket, 1)
  | ']' :: _        => (some .rbracket, 1)
  | ',' :: _        => (some .comma, 1)
  | ';' :: _        => (some .semicolon, 1)
  | ':' :: _        => (some .colon, 1)
  | _               => (none, 1)

/-- The token at the front of a text and how many characters it takes. -/
def munch (cs : List Char) : Option Token × Nat :=
  match cs with
  | []     => (none, 0)
  | c :: _ =>
      if isWordStart c then
        let word := cs.takeWhile isWordPart
        (some (wordToken word), word.length)
      else if c.isDigit then number cs
      else operator cs

/-- At most `n` lexemes of a text that starts at byte `pos`. -/
def scanFrom : Nat → Nat → List Char → List Lexeme
  | 0,     _,   _  => []
  | n + 1, pos, cs =>
      match skip false pos cs with
      | (_,   [])      => []
      | (pos, c :: cs) =>
          let (token, length) := munch (c :: cs)
          let stop := pos + byteCount ((c :: cs).take length)
          ⟨token, pos, stop⟩ :: scanFrom n stop ((c :: cs).drop length)

/-- The lexemes of a text.  Each takes a character, so their number is no limit. -/
def scan (source : String) : List Lexeme := scanFrom source.length 0 source.toList

end Lexeme

/-- A reader of lexemes with one lexeme of lookahead. -/
structure Cursor where
  /-- The lexemes not yet returned. -/
  rest : List Lexeme
  /-- Whether the first of them has been looked at. -/
  looked : Bool
  /-- The bytes of the lexeme reached last. -/
  span : Nat × Nat
  /-- The length of the text. -/
  size : Nat
deriving Repr

namespace Cursor

def ofString (source : String) : Cursor :=
  ⟨Lexeme.scan source, false, (0, 0), source.utf8ByteSize⟩

/-- The bytes of the next lexeme; at the end, the empty span there. -/
def nextSpan (c : Cursor) : Nat × Nat :=
  match c.rest with
  | []     => (c.size, c.size)
  | l :: _ => (l.start, l.stop)

/-- Look at the next lexeme without taking it. -/
def look (c : Cursor) : Option Lexeme × Cursor :=
  (c.rest.head?, if c.looked then c else { c with looked := true, span := c.nextSpan })

/-- Take the next lexeme. -/
def next (c : Cursor) : Option Lexeme × Cursor :=
  let c := c.look.2
  (c.rest.head?, { c with rest := c.rest.tail, looked := false })

/-- Whether the next lexeme spells a given token. -/
def check (c : Cursor) (t : Token) : Bool × Cursor :=
  let (l, c) := c.look
  (l.any fun l => l.token.any (·.equal t), c)

end Cursor

end TensorLoops
