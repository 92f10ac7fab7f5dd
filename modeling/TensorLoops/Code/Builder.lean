import TensorLoops.Error
import TensorLoops.Number.Word

/-!
# Code — Builder

Building statements and procedures piece by piece.  A statement builder keeps the scopes that
are open, innermost first; closing a scope appends it, as one statement, to the scope around
it.  Only with every scope closed is there a statement.
-/

namespace TensorLoops

/-- What opened a scope. -/
inductive ScopeHead where
  | loop (v : Var) (extent : Expr)
  | cond (test : Expr)
deriving Repr

/-- The statement of a scope with its body. -/
def ScopeHead.close : ScopeHead → Stmt → Stmt
  | .loop v extent, body => .loop v extent body
  | .cond test,     body => .cond test body none

/-- An open scope and the statements in it so far. -/
structure OpenScope where
  head  : ScopeHead
  stmts : List Stmt
deriving Repr

/-- A statement under construction. -/
structure StmtBuilder where
  /-- The statements outside every scope. -/
  root   : List Stmt
  /-- The open scopes, innermost first. -/
  scopes : List OpenScope
deriving Repr

namespace StmtBuilder

def empty : StmtBuilder := ⟨[], []⟩

/-- The number of open scopes. -/
def depth (b : StmtBuilder) : Nat := b.scopes.length

/-- Append a statement to the innermost scope. -/
def append (b : StmtBuilder) (s : Stmt) : StmtBuilder :=
  match b.scopes with
  | []      => { b with root := b.root ++ [s] }
  | o :: os => { b with scopes := { o with stmts := o.stmts ++ [s] } :: os }

/-- Open a scope. -/
def enter (b : StmtBuilder) (head : ScopeHead) : StmtBuilder :=
  { b with scopes := ⟨head, []⟩ :: b.scopes }

/-- A call on a builder.  It leaves a builder also where it fails. -/
abbrev Update := ExceptT Error (StateM StmtBuilder)

/-- Close the innermost scope. -/
def Update.exit : Update Unit := do
  let b ← get
  match b.scopes with
  | []      => throw (.scope .noOpenScope)
  | o :: os => set (append { b with scopes := os } (o.head.close (.ofList o.stmts)))

def exit (b : StmtBuilder) : Except Error StmtBuilder := Prod.snd <$> resultOf Update.exit b

/-- The finished statement. -/
def finish (b : StmtBuilder) : Except Error Stmt :=
  match b.scopes with
  | []     => .ok (.ofList b.root)
  | _ :: _ => .error (.scope (.leftOpen b.depth))

end StmtBuilder

/-- A procedure under construction; its variable ids are its own. -/
structure ProcBuilder where
  name    : String
  kind    : ProcKind
  result  : Ty
  params  : List Var
  locals  : List Var
  nextVar : Nat
  body    : StmtBuilder
deriving Repr

namespace ProcBuilder

def empty (name : String) (kind : ProcKind) (result : Ty) : ProcBuilder :=
  ⟨name, kind, result, [], [], 0, .empty⟩

/-- A variable that is neither a parameter nor a local. -/
def freshVar (b : ProcBuilder) (hint : String) (ty : Ty) : Except Error (Var × ProcBuilder) := do
  let next ← Word.nextId b.nextVar
  return (⟨b.nextVar, hint, ty⟩, { b with nextVar := next })

def param (b : ProcBuilder) (hint : String) (ty : Ty) : Except Error (Var × ProcBuilder) := do
  let (v, b) ← b.freshVar hint ty
  return (v, { b with params := b.params ++ [v] })

def addLocal (b : ProcBuilder) (hint : String) (ty : Ty) : Except Error (Var × ProcBuilder) := do
  let (v, b) ← b.freshVar hint ty
  return (v, { b with locals := b.locals ++ [v] })

/-- The finished procedure. -/
def finish (b : ProcBuilder) : Except Error Procedure := do
  let body ← b.body.finish
  return ⟨b.name, b.kind, b.params, b.locals, body, b.result⟩

end ProcBuilder

end TensorLoops
