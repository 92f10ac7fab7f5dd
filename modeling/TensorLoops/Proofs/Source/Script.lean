import TensorLoops.Proofs.Source.Failure

/-!
# Proofs — Source — Script

Readers as scripts.  All that a reader does with the text is to ask for the current token, for the
one after it or for how many lexemes are left, and to go on to the next lexeme.  A `Script` is a
program of such questions and steps, which meanwhile keeps notes of what it has read and may give up
for reasons of its own.  Every reader is one (`statements_scripted`), so that what is said of the
questions and steps holds of reading a whole text.
-/

namespace TensorLoops.Program

/-- What has been read, without the lexemes that are left. -/
def Reading.notes (r : Reading) : Reading := { r with rest := [] }

open Reading

/-- A program that reads a text.  It gives up over anything but the spelling of a lexeme. -/
inductive Script (α : Type) where
  | done (a : α)
  | failed (e : Error) (he : ∀ p, e ≠ .lexical p)
  | current (k : Option Token → Script α)
  | following (k : Option Token → Script α)
  | left (k : Nat → Script α)
  | advance (k : Script α)
  | consult (k : Reading → Script α)
  | note (r : Reading) (k : Script α)

namespace Script

variable {α β : Type}

/-- The reader that follows a script. -/
def run : Script α → Reader α
  | done a      => pure a
  | failed e _  => throw e
  | current k   => do (k (← Reader.current)).run
  | following k => do (k (← Reader.following)).run
  | left k      => do (k (← get).rest.length).run
  | advance k   => do Reader.advance; k.run
  | consult k   => do (k (← get).notes).run
  | note n k    => do modify (fun r => { n with rest := r.rest }); k.run

/-- A script and then another. -/
def bind : Script α → (α → Script β) → Script β
  | done a,      f => f a
  | failed e he, _ => failed e he
  | current k,   f => current fun t => (k t).bind f
  | following k, f => following fun t => (k t).bind f
  | left k,      f => left fun n => (k n).bind f
  | advance k,   f => advance (k.bind f)
  | consult k,   f => consult fun r => (k r).bind f
  | note n k,    f => note n (k.bind f)

/-- A script that goes on runs like the reader that goes on. -/
theorem run_bind (s : Script α) (f : α → Script β) (r : Reading) :
    (s.bind f).run r = (s.run >>= fun a => (f a).run) r := by
  induction s generalizing r with
  | done a => rfl
  | failed e he => rfl
  | current k ih => exact ih _ r
  | following k ih => exact ih _ r
  | left k ih => exact ih _ r
  | consult k ih => exact ih _ r
  | note n k ih => exact ih { n with rest := r.rest }
  | advance k ih =>
      show (Reader.advance r >>= fun p => (k.bind f).run p.2) =
        ((Reader.advance r >>= fun p => k.run p.2) >>= fun p => (f p.1).run p.2)
      cases Reader.advance r with
      | error e => rfl
      | ok p => exact ih p.2

end Script

namespace Reader

/-- The reader follows a script. -/
def Scripted {α : Type} (x : Reader α) : Prop := ∃ s : Script α, ∀ r, s.run r = x r

namespace Scripted

variable {α β : Type}

theorem pure {a : α} : Scripted (pure a) := ⟨.done a, fun _ => rfl⟩

/-- Failing over anything but a lexeme follows a script. -/
theorem thrown {e : Error} (he : ∀ p, e ≠ .lexical p) : Scripted (throw e : Reader α) :=
  ⟨.failed e he, fun _ => rfl⟩

theorem failed {e : ParseError} : Scripted (fail e : Reader α) := .thrown nofun

/-- Readers in sequence follow a script if each does. -/
theorem bind {x : Reader α} {f : α → Reader β} (hx : Scripted x) (hf : ∀ a, Scripted (f a)) :
    Scripted (x >>= f) := by
  obtain ⟨s, hs⟩ := hx
  choose k hk using hf
  refine ⟨s.bind k, fun r => ?_⟩
  rw [s.run_bind k r]
  show (s.run r >>= fun p => (k p.1).run p.2) = (x r >>= fun p => f p.1 p.2)
  simp only [hs, hk]

/-- A step that is a script once the notes are known. -/
theorem consulted {x : Reader α}
    (h : ∀ r : Reading, ∃ s : Script α, ∀ rest, s.run { r with rest } = x { r with rest }) :
    Scripted x := by
  choose k hk using h
  exact ⟨.consult k, fun r => hk r.notes r.rest⟩

/-- A step that does not use the lexemes of a reading. -/
theorem got {f : Reading → Reader α} (hf : ∀ r rest, f { r with rest } = f r)
    (h : ∀ r, Scripted (f r)) : Scripted (get >>= f) := by
  refine .consulted fun r => ?_
  obtain ⟨s, hs⟩ := h r
  refine ⟨s, fun rest => ?_⟩
  show s.run { r with rest } = f { r with rest } { r with rest }
  rw [hs, hf r rest]

/-- A change of the notes, whatever lexemes are left. -/
theorem modified {f : Reading → Reading} (hf : ∀ r rest, f { r with rest } = { f r with rest }) :
    Scripted (modify f : Reader Unit) :=
  .consulted fun r => ⟨.note (f r) (.done ()), fun rest =>
    congrArg (fun r' => Except.ok ((), r')) (hf r rest).symm⟩

/-- Readers to choose between follow a script if both do. -/
theorem ite {c : Prop} [Decidable c] {x y : Reader α} (hx : Scripted x) (hy : Scripted y) :
    Scripted (if c then x else y) := by
  split
  · exact hx
  · exact hy

/-- A change of the graph, which is refused for what is wrong with the graph. -/
theorem onGraph {u : Graph.Update α} (hu : ∀ g, ∃ w, u.Faulty w g) : Scripted (onGraph u) := by
  refine .consulted fun r => ?_
  rcases hrun : u.run.run r.program.graph with ⟨e | a, g⟩
  · have he : ∀ p, e ≠ .lexical p := by
      obtain ⟨w, hfaulty⟩ := hu r.program.graph
      cases hfaulty e (by rw [Graph.Update.result, hrun]) with
      | graph _ => exact nofun
      | ids _ => exact nofun
    refine ⟨.failed e he, fun rest => ?_⟩
    simp only [Reader.onGraph, step_get_bind, hrun]
    rfl
  · refine ⟨.note { r with program := { r.program with graph := g } } (.done a), fun rest => ?_⟩
    simp only [Reader.onGraph, step_get_bind, hrun]
    rfl

end Scripted

/-! ### Readers of tokens -/

theorem current_scripted : Scripted current := ⟨.current .done, fun _ => rfl⟩

theorem following_scripted : Scripted following := ⟨.following .done, fun _ => rfl⟩

theorem allowance_scripted : Scripted allowance :=
  ⟨.left fun n => .done (16 * (n + 1)), fun _ => rfl⟩

/-- Going on follows a script. -/
theorem advance_scripted : Scripted advance := by
  refine ⟨.advance (.done ()), fun r => ?_⟩
  show (advance r >>= fun p => .ok ((), p.2)) = advance r
  cases advance r <;> rfl

theorem unexpected_scripted {α : Type} {w : Wanted} : Scripted (unexpected w : Reader α) :=
  current_scripted.bind fun _ => .failed

theorem atToken_scripted {t : Token} : Scripted (atToken t) := current_scripted.bind fun _ => .pure

theorem expect_scripted {t : Token} : Scripted (expect t) :=
  atToken_scripted.bind fun _ => .ite advance_scripted unexpected_scripted

theorem identifier_scripted : Scripted identifier := by
  refine current_scripted.bind fun t => ?_
  split
  · exact advance_scripted.bind fun _ => .pure
  · exact unexpected_scripted

theorem extent_scripted : Scripted extent := by
  refine current_scripted.bind fun t => ?_
  split
  · exact .ite (advance_scripted.bind fun _ => .pure) unexpected_scripted
  · exact unexpected_scripted

theorem dataType_scripted : Scripted dataType := by
  refine identifier_scripted.bind fun name => ?_
  split
  · exact .pure
  · exact .failed

/-- A list follows a script if its items do. -/
theorem commaList_scripted {α : Type} {item : Reader α} (hitem : Scripted item) :
    ∀ n, Scripted (commaList item n)
  | 0 => .failed
  | n + 1 => hitem.bind fun _ => atToken_scripted.bind fun _ =>
      .ite (advance_scripted.bind fun _ => (commaList_scripted hitem n).bind fun _ => .pure) .pure

theorem axes_scripted : Scripted axes := by
  have haxis : Scripted axis := identifier_scripted.bind fun _ => expect_scripted.bind fun _ =>
    extent_scripted.bind fun _ => .pure
  exact expect_scripted.bind fun _ => allowance_scripted.bind fun n =>
    (commaList_scripted haxis n).bind fun _ => expect_scripted.bind fun _ => .pure

theorem atReduction_scripted : Scripted atReduction := by
  refine current_scripted.bind fun t => ?_
  split
  · exact .ite (following_scripted.bind fun _ => .pure) .pure
  · exact .pure

theorem innerName_scripted {op : Reduction} : Scripted (innerName op) :=
  .got (fun _ _ => rfl) fun _ => .pure

theorem indexType_scripted {op : Reduction} : Scripted (indexType op) := by
  have htype : Scripted (do
      advance
      let s ← dataType
      expect .gt
      return s) :=
    advance_scripted.bind fun _ => dataType_scripted.bind fun _ => expect_scripted.bind fun _ =>
      .pure
  exact atToken_scripted.bind fun _ => .ite (.ite (Scripted.failed.bind fun _ => htype) htype) .pure

/-- Adding a reduction reads nothing, whatever it adds. -/
theorem addReduction_scripted {name : String} {op : Reduction} {index : Scalar} {extents : List Nat}
    {axes : List Var} {value : Expr} :
    Scripted (addReduction name op index extents axes value) := by
  unfold addReduction
  split
  · split
    · exact .onGraph fun _ => ⟨0, Graph.addArgReduce_faulty⟩
    · exact .failed
  · exact .onGraph fun _ => ⟨0, Graph.addReduce_faulty⟩

theorem call_scripted {name : String} {args : List Expr} : Scripted (call name args) := by
  unfold call
  split
  · exact .pure
  · exact .pure
  · split
    · exact .pure
    · exact .failed
  · exact .failed

/-! ### Readers of expressions -/

/-- At allowance `n` the readers of expressions are scripts. -/
structure ScriptedAt (n : Nat) : Prop where
  level     : ∀ scope l, Scripted (level scope n l)
  operand   : ∀ scope l, Scripted (operand scope n l)
  chain     : ∀ scope l lhs, Scripted (chain scope n l lhs)
  unary     : ∀ scope, Scripted (unary scope n)
  primary   : ∀ scope, Scripted (primary scope n)
  named     : ∀ scope name, Scripted (named scope n name)
  reduction : ∀ scope name, Scripted (reduction scope n name)
  body      : ∀ scope list, Scripted (body scope n list)

namespace ScriptedAt

variable {n : Nat}

/-- Operands follow a script on one more of the allowance. -/
theorem operand_succ (hn : ScriptedAt n) (scope : Scope) (l : Level) :
    Scripted (Reader.operand scope (n + 1) l) := by
  unfold Reader.operand
  split
  · exact hn.level scope _
  · exact hn.unary scope

/-- A chain goes on only behind an operator, on one less of the allowance. -/
theorem chain_succ (hn : ScriptedAt n) (scope : Scope) (l : Level) (lhs : Expr) :
    Scripted (Reader.chain scope (n + 1) l lhs) := by
  refine current_scripted.bind fun t => ?_
  split
  · exact .pure
  · exact advance_scripted.bind fun _ => (hn.operand scope l).bind fun _ =>
      .ite (hn.chain scope l _) .pure

theorem unary_succ (hn : ScriptedAt n) (scope : Scope) : Scripted (Reader.unary scope (n + 1)) := by
  refine current_scripted.bind fun t => ?_
  split
  · exact advance_scripted.bind fun _ => (hn.unary scope).bind fun _ => .pure
  · exact advance_scripted.bind fun _ => (hn.unary scope).bind fun _ => .pure
  · exact hn.primary scope

/-- A primary expression is chosen by the tokens it begins with. -/
theorem primary_succ (hn : ScriptedAt n) (scope : Scope) :
    Scripted (Reader.primary scope (n + 1)) := by
  refine current_scripted.bind fun t => ?_
  split
  · exact advance_scripted.bind fun _ => .pure
  · exact advance_scripted.bind fun _ => .pure
  · exact advance_scripted.bind fun _ => (hn.level scope _).bind fun _ =>
      expect_scripted.bind fun _ => .pure
  · refine atReduction_scripted.bind fun _ => .ite ((hn.reduction scope none).bind fun _ => .pure)
      (following_scripted.bind fun _ => .ite ?call ?named)
    case call =>
      exact advance_scripted.bind fun _ => expect_scripted.bind fun _ =>
        (commaList_scripted (hn.level scope _) n).bind fun _ => expect_scripted.bind fun _ =>
          call_scripted
    case named => exact advance_scripted.bind fun _ => hn.named scope _
  · exact .failed
  · exact unexpected_scripted

/-- What a name begins is chosen by the names known. -/
theorem named_succ (hn : ScriptedAt n) (scope : Scope) (name : String) :
    Scripted (Reader.named scope (n + 1) name) := by
  unfold Reader.named
  split
  · exact .pure
  · refine .got (fun _ _ => rfl) fun r => ?_
    split
    · exact .failed
    · refine (Scripted.onGraph fun _ => ⟨0, ?_⟩).bind fun m => ?_
      · exact .bind .get fun _ _ _ => .lift fun _ => Graph.node_faults
      split
      · exact atToken_scripted.bind fun _ => .ite .failed .pure
      · exact atToken_scripted.bind fun _ => .ite (advance_scripted.bind fun _ =>
          (commaList_scripted (hn.level scope _) n).bind fun _ => expect_scripted.bind fun _ =>
            .pure) .failed

/-- A reduction looks at its axes before its body. -/
theorem reduction_succ (hn : ScriptedAt n) (scope : Scope) (name : Option String) :
    Scripted (Reader.reduction scope (n + 1) name) := by
  refine identifier_scripted.bind fun word => ?_
  split
  · exact .failed
  · refine indexType_scripted.bind fun index => axes_scripted.bind fun list => ?_
    have hcount : Scripted (modify fun r : Reading => { r with reductions := r.reductions + 1 }) :=
      .modified fun _ _ => rfl
    have hrest : ∀ name op, Scripted (do
        modify fun r : Reading => { r with reductions := r.reductions + 1 }
        let b ← Reader.body scope n list
        addReduction name op index (list.map Prod.snd) b.1 b.2 : Reader Nat) := fun _ _ =>
      hcount.bind fun _ => (hn.body scope list).bind fun _ => addReduction_scripted
    cases name with
    | some name => exact hrest name _
    | none => exact innerName_scripted.bind fun name => hrest name _

/-- The readers call one another at a smaller allowance. -/
theorem succ (hn : ScriptedAt n) : ScriptedAt (n + 1) where
  level scope l := (hn.operand scope l).bind fun _ => hn.chain scope l _
  operand := hn.operand_succ
  chain := hn.chain_succ
  unary := hn.unary_succ
  primary := hn.primary_succ
  named := hn.named_succ
  reduction := hn.reduction_succ
  body _ _ := expect_scripted.bind fun _ =>
    (Scripted.onGraph fun _ => ⟨_, Graph.newAxes_faulty⟩).bind fun _ =>
      (hn.level _ _).bind fun _ => .pure

end ScriptedAt

/-- **The readers of expressions are scripts**, by induction on the allowance. -/
theorem scriptedAt : ∀ n, ScriptedAt n
  | 0 => ⟨fun _ _ => .failed, fun _ _ => .failed, fun _ _ _ => .failed, fun _ => .failed,
      fun _ => .failed, fun _ _ => .failed, fun _ _ => .failed, fun _ _ => .failed⟩
  | n + 1 => (scriptedAt n).succ

/-! ### Readers of statements -/

/-- A declaration follows a script. -/
theorem declare_scripted {name : String} {id : Nat} : Scripted (declare name id) := by
  refine .consulted fun r => ?_
  by_cases h : (r.symbols.lookup name).isSome = true
  · refine ⟨.failed (.parse (.alreadyDefined name)) nofun, fun rest => ?_⟩
    simp only [declare, step_get_bind, h, if_true]
    rfl
  · refine ⟨.note { r with symbols := (name, id) :: r.symbols } (.done ()), fun rest => ?_⟩
    simp only [declare, step_get_bind, h, if_false, Bool.false_eq_true]
    rfl

/-- The end of a declaration. -/
theorem declaration_scripted {name : String} {id : Nat} {f : Reading → Reading}
    (hf : ∀ r rest, f { r with rest } = { f r with rest }) :
    Scripted (do expect .semicolon; declare name id; modify f : Reader Unit) :=
  expect_scripted.bind fun _ => declare_scripted.bind fun _ => .modified hf

/-- An input statement follows a script. -/
theorem inputStatement_scripted : Scripted inputStatement := by
  have hadd : ∀ n, Scripted (onGraph (Graph.addNode n)) := fun _ =>
    .onGraph fun _ => ⟨0, Graph.addNode_faulty⟩
  refine expect_scripted.bind fun _ => identifier_scripted.bind fun name => ?_
  refine expect_scripted.bind fun _ => dataType_scripted.bind fun s => ?_
  refine atToken_scripted.bind fun _ => .ite ?tensor ?scalar
  case tensor =>
    exact advance_scripted.bind fun _ => allowance_scripted.bind fun n =>
      (commaList_scripted extent_scripted n).bind fun _ => expect_scripted.bind fun _ =>
        (hadd _).bind fun _ => declaration_scripted fun _ _ => rfl
  case scalar => exact (hadd _).bind fun _ => declaration_scripted fun _ _ => rfl

theorem gridBinding_scripted {name : String} : Scripted (gridBinding name) :=
  expect_scripted.bind fun _ => axes_scripted.bind fun list => allowance_scripted.bind fun n =>
    ((scriptedAt n).body [] list).bind fun _ => .onGraph fun _ => ⟨0, Graph.addGrid_faulty⟩

/-- A binding follows a script, whatever it binds. -/
theorem letStatement_scripted : Scripted letStatement := by
  have hbinding : ∀ name, Scripted (modify fun r : Reading =>
      { r with binding := name, reductions := 0 }) :=
    fun _ => .modified fun _ _ => rfl
  refine expect_scripted.bind fun _ => identifier_scripted.bind fun name => ?_
  refine expect_scripted.bind fun _ => (hbinding name).bind fun _ => ?_
  refine atToken_scripted.bind fun _ => atReduction_scripted.bind fun _ => ?_
  refine .ite (gridBinding_scripted.bind fun _ => declaration_scripted fun _ _ => rfl)
    (.ite ?reduction ?other)
  case reduction =>
    exact allowance_scripted.bind fun n => ((scriptedAt n).reduction [] _).bind fun _ =>
      declaration_scripted fun _ _ => rfl
  case other =>
    exact unexpected_scripted.bind fun _ => declaration_scripted fun _ _ => rfl

theorem output_scripted : Scripted output := by
  refine identifier_scripted.bind fun name => .got (fun _ _ => rfl) fun r => ?_
  split
  · exact .failed
  · exact .modified fun _ _ => rfl

theorem outputStatement_scripted : Scripted outputStatement :=
  expect_scripted.bind fun _ => allowance_scripted.bind fun n =>
    ((commaList_scripted output_scripted n).bind fun _ => .pure).bind fun _ => expect_scripted

/-- **Every statement follows a script.** -/
theorem statement_scripted : Scripted statement := by
  refine current_scripted.bind fun t => ?_
  split
  · exact inputStatement_scripted
  · exact letStatement_scripted
  · exact outputStatement_scripted
  · exact unexpected_scripted

/-- Statements up to the end, by induction on their number. -/
theorem statements_scripted : ∀ n, Scripted (statements n)
  | 0 => .failed
  | n + 1 => by
      refine current_scripted.bind fun t => ?_
      split
      · exact .pure
      · exact statement_scripted.bind fun _ => statements_scripted n

end Reader

end TensorLoops.Program
