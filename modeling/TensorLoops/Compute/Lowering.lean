import TensorLoops.Compute.Expansion
import TensorLoops.Source.Program

/-!
# Compute — Lowering

A task as one procedure.  Inputs and outputs are its parameters, the outputs are computed one
after another, and storage made on the way becomes local variables, which later outputs use
too.
-/

namespace TensorLoops

namespace Task

/-- Storage for a node, as a fresh variable. -/
def paramFor (id : Nat) : Graph.Update Var := do
  let g ← get
  let n ← Graph.Update.lift (g.node id)
  Graph.freshVar n.name n.kind.storage

/-- The parameters of a task: the inputs, then the outputs. -/
def params (t : Task) : Graph.Update (List Var) := (t.inputs ++ t.outputs).mapM paramFor

/-- The procedure as far as it has been put together. -/
structure Draft where
  storage : Storage
  locals  : List Var
  stmts   : List Stmt
  nextVar : Nat
deriving Repr

/-- Compute one more output. -/
def addOutput (g : Graph) (d : Draft) (id : Nat) : Except Error Draft := do
  let x ← g.expandFrom d.nextVar (.node id) d.storage
  return ⟨d.storage.union x.created, d.locals ++ x.created.entries.map Prod.snd,
    d.stmts ++ [x.stmt], x.nextVar⟩

/-- Lower a task to a procedure. -/
def lower (t : Task) (kind : ProcKind) : Graph.Update Procedure := do
  let params ← t.params
  let g ← get
  let storage := Table.ofList ((t.inputs ++ t.outputs).zip params)
  let d ← Graph.Update.lift (t.outputs.foldlM (addOutput g) ⟨storage, [], [], 0⟩)
  return ⟨t.name, kind, params, d.locals, .ofList d.stmts, .void⟩

end Task

/-- Read a program and lower its task to a procedure. -/
def lowerSource (source name : String) (kind : ProcKind) : Except Error Procedure := do
  let p ← Program.parse source
  let t ← p.task name
  ((t.lower kind).run.run p.graph).1

end TensorLoops
