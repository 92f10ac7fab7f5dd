import TensorLoops.Code.Stmt
import TensorLoops.Table

/-!
# Code — Naming

The text of expressions, statements and procedures.  A variable is written as its hint, unless
another variable of the same text shares the hint; then all that share it carry their ids.
-/

namespace TensorLoops

/-- Names for the variables whose hint does not tell them apart, by id. -/
structure Naming where
  renamed : Table Nat String
deriving Repr

namespace Naming

/-- The ids that occur under each hint. -/
def idsByHint (vs : List Var) : Table String (List Nat) :=
  vs.foldl (fun t v =>
    let ids := (t.find? v.hint).getD []
    if v.id ∈ ids then t else t.insert v.hint (v.id :: ids)) .empty

/-- Names for a text in which these variables occur.  A hint with several ids gives way to
`hint_id`; where an id has several such hints the last of them names it. -/
def ofVars (vs : List Var) : Naming :=
  let shared := (idsByHint vs).entries.filter fun e => 1 < e.2.length
  ⟨.ofList (shared.flatMap fun e => e.2.map fun id => (id, e.1 ++ "_" ++ toString id))⟩

def name (n : Naming) (v : Var) : String := (n.renamed.find? v.id).getD v.hint

end Naming

namespace Expr

mutual

/-- The expression under given names, in full parentheses. -/
def write (n : Naming) : Expr → String
  | .var v             => n.name v
  | .const value _     => value.text
  | .node id           => "%" ++ toString id
  | .binary op lhs rhs =>
      match op with
      | .min | .max => op.symbol ++ "(" ++ lhs.write n ++ ", " ++ rhs.write n ++ ")"
      | _           => "(" ++ lhs.write n ++ " " ++ op.symbol ++ " " ++ rhs.write n ++ ")"
  | .unary op operand  => "(" ++ op.symbol ++ operand.write n ++ ")"
  | .cast operand ty   => "((" ++ ty.text ++ ")" ++ operand.write n ++ ")"
  | .element base idxs => base.write n ++ "[" ++ ", ".intercalate (writeList n idxs) ++ "]"
  | .call func args    => func ++ "(" ++ ", ".intercalate (writeList n args) ++ ")"

def writeList (n : Naming) : List Expr → List String
  | []      => []
  | e :: es => e.write n :: writeList n es

end

/-- The text of an expression on its own. -/
def text (e : Expr) : String := e.write (.ofVars e.vars)

end Expr

/-- The text of an inline instruction. -/
def Asm.write (n : Naming) (a : Asm) : String :=
  let operands (os : List AsmOperand) : String :=
    ", ".intercalate (os.map fun o => "\"" ++ o.constraint ++ "\"(" ++ o.value.write n ++ ")")
  "asm" ++ (if a.isVolatile then " volatile" else "") ++ "(\"" ++ a.template ++ "\" : " ++
    operands a.outputs ++ " : " ++ operands a.inputs ++ ");"

namespace Stmt

mutual

/-- The lines of a statement, `pad` being its indentation. -/
def lines (n : Naming) (pad : String) : Stmt → List String
  | .seq ss             => linesList n pad ss
  | .declare v init     =>
      let value := init.elim "" fun e => " = " ++ e.write n
      [pad ++ v.ty.text ++ " " ++ n.name v ++ value ++ ";"]
  | .assign v value     => [pad ++ n.name v ++ " = " ++ value.write n ++ ";"]
  | .store buf idxs val =>
      [pad ++ n.name buf ++ "[" ++ ", ".intercalate (Expr.writeList n idxs) ++ "] = " ++
        val.write n ++ ";"]
  | .loop v extent body =>
      let i := n.name v
      (pad ++ "for (" ++ v.ty.text ++ " " ++ i ++ " = 0; " ++ i ++ " < " ++ extent.write n ++
          "; " ++ i ++ "++) \x7b") ::
        (body.lines n (pad ++ "  ") ++ [pad ++ "\x7d"])
  | .cond test yes no   =>
      (pad ++ "if (" ++ test.write n ++ ") \x7b") ::
        (yes.lines n (pad ++ "  ") ++ (linesOption n pad no ++ [pad ++ "\x7d"]))
  | .eval e             => [pad ++ e.write n ++ ";"]
  | .ret e              => [pad ++ "return " ++ e.write n ++ ";"]
  | .asm a              => [pad ++ a.write n]

def linesList (n : Naming) (pad : String) : List Stmt → List String
  | []      => []
  | s :: ss => s.lines n pad ++ linesList n pad ss

/-- The lines of the other branch, if there is one. -/
def linesOption (n : Naming) (pad : String) : Option Stmt → List String
  | none   => []
  | some s => (pad ++ "\x7d else \x7b") :: s.lines n (pad ++ "  ")

end

end Stmt

/-- Lines, each with its end. -/
def unlines (ls : List String) : String := String.join (ls.map (· ++ "\n"))

/-- The text of a statement on its own. -/
def Stmt.text (s : Stmt) : String := unlines (s.lines (.ofVars s.vars) "")

/-- The text of a procedure: its head, its locals and its body. -/
def Procedure.text (p : Procedure) : String :=
  let n := Naming.ofVars p.vars
  let params := p.params.map fun v => v.ty.text ++ " " ++ n.name v
  let head := p.kind.qualifier ++ p.result.text ++ " " ++ p.name ++ "(" ++
    ", ".intercalate params ++ ") \x7b"
  let locals := p.locals.map fun v => "  " ++ v.ty.text ++ " " ++ n.name v ++ ";"
  unlines (head :: (locals ++ p.body.lines n "  " ++ ["\x7d"]))

end TensorLoops
