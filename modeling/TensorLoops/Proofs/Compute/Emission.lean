import TensorLoops.Proofs.Code.Outlines
import TensorLoops.Proofs.Compute.Order

/-!
# Proofs — Compute — Emission

Expansion with a statement builder.  `Graph.expand` returns the code of every part and puts loops
around it, and beside that counts the loops that are open.  `Graph.emit` says the same as one pass
that appends each statement to a builder, opens loops on it and closes them: one for each axis that
has an extent, and one for each extent.

A node with fewer axes than extents closes loops of the nodes around it, and what follows is then
appended in the wrong place.  `Wrote` says what is known of a builder after a part has been emitted:
it is no deeper than before, and if it is as deep then the code of the part has been appended to it
and nothing else has changed.  The two expansions agree on that step by step (`emitNode_follows`),
and at the end no scope can be open, so they come to the same (`emit_eq_expand`).
-/

namespace TensorLoops

/-! ### Builders -/

namespace StmtBuilder

/-- Append statements to the innermost scope. -/
def appendAll (b : StmtBuilder) (ss : List Stmt) : StmtBuilder := ss.foldl append b

/-- Open loops over axes with their extents, the first outermost. -/
def enterLoops (b : StmtBuilder) : List (Var × Nat) → StmtBuilder
  | []               => b
  | (v, extent) :: r => (b.enter (.loop v (.ofSize extent))).enterLoops r

/-- Close the innermost `n` scopes. -/
def exits (b : StmtBuilder) : Nat → Except Error StmtBuilder
  | 0     => .ok b
  | n + 1 => do (← b.exits n).exit

theorem appendAll_append (b : StmtBuilder) (ss ts : List Stmt) :
    b.appendAll (ss ++ ts) = (b.appendAll ss).appendAll ts := List.foldl_append

/-- Outside every scope, statements go to the root. -/
theorem appendAll_root (root ss : List Stmt) :
    appendAll ⟨root, []⟩ ss = ⟨root ++ ss, []⟩ := by
  induction ss generalizing root with
  | nil => simp [appendAll]
  | cons s ss ih => simpa [appendAll, append] using ih (root ++ [s])

/-- Inside a scope they go to it. -/
theorem appendAll_scope (root : List Stmt) (o : OpenScope) (os : List OpenScope)
    (ss : List Stmt) :
    appendAll ⟨root, o :: os⟩ ss = ⟨root, ⟨o.head, o.stmts ++ ss⟩ :: os⟩ := by
  induction ss generalizing o with
  | nil => simp [appendAll]
  | cons s ss ih => simpa [appendAll, append] using ih ⟨o.head, o.stmts ++ [s]⟩

/-- Every loop entered is one scope more. -/
theorem depth_enterLoops (b : StmtBuilder) (loops : List (Var × Nat)) :
    (b.enterLoops loops).depth = b.depth + loops.length := by
  induction loops generalizing b with
  | nil => rfl
  | cons l r ih =>
      rw [enterLoops, ih, List.length_cons, Nat.add_comm r.length, ← Nat.add_assoc]
      rfl

/-- A scope is closed around the statements appended since it was opened. -/
theorem exit_appendAll_enter (b : StmtBuilder) (head : ScopeHead) (ss : List Stmt) :
    ((b.enter head).appendAll ss).exit = .ok (b.append (head.close (.ofList ss))) := by
  rw [enter, appendAll_scope]
  rfl

/-- Loops that are opened and closed are loops around the statements between. -/
theorem exits_appendAll_enterLoops (b : StmtBuilder) (loops : List (Var × Nat)) (ss : List Stmt) :
    ((b.enterLoops loops).appendAll ss).exits loops.length =
      .ok (b.appendAll (Expansion.nest loops ss)) := by
  induction loops generalizing b with
  | nil => rfl
  | cons l r ih =>
      rw [enterLoops, List.length_cons, exits, ih]
      exact exit_appendAll_enter b _ _

/-- Scopes are closed while there are any. -/
theorem exits_cases (b : StmtBuilder) (n : Nat) :
    (∃ b', b.exits n = .ok b' ∧ b'.depth + n = b.depth) ∨
      b.exits n = .error (.scope .noOpenScope) ∧ b.depth < n := by
  induction n with
  | zero => exact .inl ⟨b, rfl, rfl⟩
  | succ n ih =>
      rcases ih with ⟨b₁, h, hdepth⟩ | ⟨h, hlt⟩
      · have hrun : b.exits (n + 1) = b₁.exit := by rw [exits, h]; rfl
        rw [hrun]
        cases hexit : b₁.exit with
        | ok b' =>
            have hstep := exit_eq_ok hexit
            exact .inl ⟨b', rfl, by omega⟩
        | error e =>
            obtain ⟨hzero, rfl⟩ := exit_eq_error_iff.mp hexit
            exact .inr ⟨rfl, by omega⟩
      · have hrun : b.exits (n + 1) = .error (.scope .noOpenScope) := by rw [exits, h]; rfl
        exact .inr ⟨hrun, by omega⟩

end StmtBuilder

namespace Expansion

open StmtBuilder

/-! ### Emission -/

/-- What an emission has used and written so far. -/
structure Page where
  created : Storage
  nextVar : Nat
  builder : StmtBuilder

namespace Page

/-- The state of an expansion with as many loops open. -/
def state (t : Page) : State := ⟨t.created, t.nextVar, t.builder.depth⟩

def append (t : Page) (s : Stmt) : Page := { t with builder := t.builder.append s }

def enterLoops (t : Page) (loops : List (Var × Nat)) : Page :=
  { t with builder := t.builder.enterLoops loops }

end Page

/-- A step of emission. -/
abbrev Emitter := StateT Page (Except Error)

namespace Emitter

/-- A step that only takes storage and ids. -/
def supply {α : Type} (x : Step α) : Emitter α := fun t => do
  let (a, s) ← x t.state
  return (a, { t with created := s.created, nextVar := s.nextVar })

def put (s : Stmt) : Emitter Unit := modify (·.append s)

def enterLoops (loops : List (Var × Nat)) : Emitter Unit := modify (·.enterLoops loops)

def enter (head : ScopeHead) : Emitter Unit :=
  modify fun t => { t with builder := t.builder.enter head }

def exits (n : Nat) : Emitter Unit := fun t => do
  let b ← t.builder.exits n
  return ((), { t with builder := b })

/-- Assign to the given storage of a node, if there is any. -/
def putBack (c : Context) (id : Nat) (value : Expr) : Emitter Unit :=
  match c.given.find? id with
  | some v => put (.assign v value)
  | none   => return ()

end Emitter

open Emitter

mutual

/-- Emit the nodes of an expression from left to right, each by `emitNode`. -/
def emitExpr (emitNode : Nat → Emitter Expr) : Expr → Emitter Expr
  | .var v             => return .var v
  | .const value s     => return .const value s
  | .node id           => emitNode id
  | .binary op lhs rhs => do
      let l ← emitExpr emitNode lhs
      let r ← emitExpr emitNode rhs
      return .binary op l r
  | .unary op operand  => do
      let e ← emitExpr emitNode operand
      return .unary op e
  | .cast operand ty   => do
      let e ← emitExpr emitNode operand
      return .cast e ty
  | .element base idxs => do
      let b ← emitExpr emitNode base
      let is ← emitExprs emitNode idxs
      return .element b is
  | .call func args    => do
      let as ← emitExprs emitNode args
      return .call func as

def emitExprs (emitNode : Nat → Emitter Expr) : List Expr → Emitter (List Expr)
  | []      => return []
  | e :: es => do
      let v ← emitExpr emitNode e
      let vs ← emitExprs emitNode es
      return v :: vs

end

def emitGrid (c : Context) (emitNode : Nat → Emitter Expr) (id : Nat) (n : Node)
    (shape : List Nat) (axes : List Var) (value : Expr) : Emitter Expr := do
  let buf ← supply (bufferFor c id n.name n.kind.storage)
  enterLoops (axes.zip shape)
  let v ← emitExpr emitNode value
  put (.store buf (axes.map .var) v)
  exits shape.length
  return .var buf

def emitReduce (c : Context) (emitNode : Nat → Emitter Expr) (id : Nat) (n : Node)
    (shape : List Nat) (axes : List Var) (value : Expr) (op : Reduction) : Emitter Expr := do
  if op.isArg then throw (.expansion (.argInReduce op n.name))
  let s ← c.graph.typeOf value
  let acc ← supply (createdFor id n.name (.scalar s))
  put (.assign acc (op.identity s))
  enterLoops (axes.zip shape)
  let v ← emitExpr emitNode value
  put (.assign acc (op.combine (.var acc) v))
  exits shape.length
  let count ← Word.product shape
  let result := op.finalize (.var acc) count
  putBack c id result
  return result

def emitArgReduce (c : Context) (emitNode : Nat → Emitter Expr) (id : Nat) (n : Node)
    (extent : Nat) (axis : Var) (value : Expr) (op : Reduction) (index : Scalar) :
    Emitter Expr := do
  let s ← c.graph.typeOf value
  let position ← supply (createdFor id (n.name ++ "_idx") (.scalar index))
  let best ← supply (freshVar (n.name ++ "_val") (.scalar s))
  put (.declare best (some (op.identity s)))
  put (.assign position (.const index.zero index))
  enterLoops [(axis, extent)]
  let v ← emitExpr emitNode value
  let test ← improves op v (.var best)
  enter (.cond test)
  put (.assign best v)
  put (.assign position (.cast (.var axis) (.scalar index)))
  exits 1
  exits 1
  putBack c id (.var position)
  return .var position

/-- Emit a node by its definition, the nodes in it by `emitNode`. -/
def emitDefined (c : Context) (emitNode : Nat → Emitter Expr) (id : Nat) : Emitter Expr := do
  let n ← c.graph.node id
  match n.kind, n.compute with
  | _, none =>
      match c.given.find? id with
      | some v => return .var v
      | none   => throw (.expansion (.noStorage n.kind.name n.name))
  | .tensor _ _, some (.grid shape axes value) => emitGrid c emitNode id n shape axes value
  | .scalar _, some (.reduce shape axes value op) =>
      emitReduce c emitNode id n shape axes value op
  | .scalar _, some (.argReduce extent axis value op index) =>
      emitArgReduce c emitNode id n extent axis value op index
  | kind, some compute => throw (.expansion (.mismatch compute.pattern kind.name n.name))

/-- Emit a node; a chain of `n` nodes, each computed from the next, uses up `n`. -/
def emitNode (c : Context) : Nat → Nat → Emitter Expr
  | 0,     id => throw (.graph (.cyclic id))
  | k + 1, id => emitDefined c (emitNode c k) id

end Expansion

/-- Expand an expression into a statement builder, using the given storage. -/
def Graph.emit (g : Graph) (e : Expr) (given : Storage) : Except Error Expansion := do
  let c : Expansion.Context := ⟨g, given⟩
  let next ← Expansion.firstVar c 0
  let (v, t) ← Expansion.emitExpr (Expansion.emitNode c (g.size + 1)) e ⟨.empty, next, .empty⟩
  let stmt ← t.builder.finish
  return ⟨stmt, v, t.created, t.nextVar⟩

/-! ### Agreement -/

namespace Expansion

open StmtBuilder Emitter

variable {α β γ δ : Type}

/-- Both computations fail alike, or they have related results. -/
inductive Agrees (R : α → β → Prop) : Except Error α → Except Error β → Prop where
  | ok {a b} : R a b → Agrees R (.ok a) (.ok b)
  | error (e) : Agrees R (.error e) (.error e)

/-- Only the code `ss` has been written between the pages, unless scopes have been closed that were
not opened between them. -/
structure Wrote (t : Page) (ss : List Stmt) (t' : Page) : Prop where
  depth : t'.builder.depth ≤ t.builder.depth
  code  : t'.builder.depth = t.builder.depth → t'.builder = t.builder.appendAll ss

namespace Wrote

variable {t t' t'' : Page} {ss ss' : List Stmt}

theorem of_eq (h : t'.builder = t.builder) : Wrote t [] t' :=
  ⟨Nat.le_of_eq (congrArg StmtBuilder.depth h), fun _ => h⟩

/-- What is written in two parts is written. -/
theorem trans (h : Wrote t ss t') (h' : Wrote t' ss' t'') : Wrote t (ss ++ ss') t'' where
  depth := Nat.le_trans h'.depth h.depth
  code  := fun heq => by
    have hle := h.depth
    have hle' := h'.depth
    rw [h'.code (by omega), h.code (by omega), appendAll_append]

theorem append (h : Wrote t ss t') (s : Stmt) : Wrote t (ss ++ [s]) (t'.append s) :=
  h.trans ⟨Nat.le_of_eq (depth_append t'.builder s), fun _ => rfl⟩

end Wrote

theorem state_append (t : Page) (s : Stmt) : (t.append s).state = t.state := by
  rw [Page.state, Page.append, depth_append]
  rfl

/-- A step of expansion and one of emission: from states that go together they fail alike or return
the same value, in states that go together, and what the one returns as code the other has
written. -/
def Follows (stmts : α → List Stmt) (value : α → β) (x : Step α) (y : Emitter β) : Prop :=
  ∀ t, Agrees (fun r r' => r'.1 = value r.1 ∧ r.2 = r'.2.state ∧ Wrote t (stmts r.1) r'.2)
    (x t.state) (y t)

section Steps

variable {Q : γ × State → δ × Page → Prop} {t : Page}

/-- A step and then another, from a page on which its code has been written. -/
theorem Follows.next {stmts : α → List Stmt} {value : α → β} {x : Step α} {y : Emitter β}
    {f : α → Step γ} {f' : β → Emitter δ} (h : Follows stmts value x y)
    (hf : ∀ a t', Wrote t (stmts a) t' → Agrees Q (f a t'.state) (f' (value a) t')) :
    Agrees Q ((x >>= f) t.state) ((y >>= f') t) := by
  show Agrees Q (x t.state >>= fun p => f p.1 p.2) (y t >>= fun p => f' p.1 p.2)
  generalize x t.state = r, y t = r', h t = hr
  cases hr with
  | error e => exact .error e
  | @ok r r' hr =>
      obtain ⟨a, s⟩ := r
      obtain ⟨b, t'⟩ := r'
      obtain ⟨rfl, rfl, hw⟩ : b = value a ∧ s = t'.state ∧ Wrote t (stmts a) t' := hr
      exact hf a t' hw

/-- A computation without a state takes no part in the agreement. -/
theorem Agrees.lift {x : Except Error α} {f : α → Step γ} {f' : α → Emitter δ}
    {s : State} (hf : ∀ a, x = .ok a → Agrees Q (f a s) (f' a t)) :
    Agrees Q (((liftM x : Step α) >>= f) s) (((liftM x : Emitter α) >>= f') t) := by
  cases x with
  | ok a => exact hf a rfl
  | error e => exact .error e

/-- Storage and ids are taken alike. -/
theorem Agrees.supply {x : Step α} (hx : ∀ s a s', x s = .ok (a, s') → s'.depth = s.depth)
    {f : α → Step γ} {f' : α → Emitter δ}
    (hf : ∀ a t', t'.builder = t.builder → Agrees Q (f a t'.state) (f' a t')) :
    Agrees Q ((x >>= f) t.state) ((Emitter.supply x >>= f') t) := by
  show Agrees Q (x t.state >>= fun p => f p.1 p.2)
    ((x t.state >>= fun p =>
      .ok (p.1, { t with created := p.2.created, nextVar := p.2.nextVar })) >>= fun p => f' p.1 p.2)
  cases hrun : x t.state with
  | error e => exact .error e
  | ok p =>
      obtain ⟨a, created, nextVar, depth⟩ := p
      obtain rfl : depth = t.builder.depth := hx _ _ _ hrun
      exact hf a { t with created, nextVar } rfl

/-- Code that expansion only returns is written at once. -/
theorem Agrees.put {x : Step γ} {f' : Unit → Emitter δ} (s : Stmt)
    (hf : Agrees Q (x (t.append s).state) (f' () (t.append s))) :
    Agrees Q (x t.state) ((Emitter.put s >>= f') t) := by
  rw [state_append] at hf
  exact hf

/-- Loops are opened alike. -/
theorem Agrees.enterLoops (loops : List (Var × Nat)) {f : Unit → Step γ} {f' : Unit → Emitter δ}
    (hf : Agrees Q (f () (t.enterLoops loops).state) (f' () (t.enterLoops loops))) :
    Agrees Q ((openLoops loops.length >>= f) t.state) ((Emitter.enterLoops loops >>= f') t) := by
  rw [Page.state, Page.enterLoops, depth_enterLoops] at hf
  exact hf

/-- Loops are closed alike.  If none is closed that was not opened, they stand around the code
written since. -/
theorem Agrees.exits (loops : List (Var × Nat)) {n : Nat} {ss : List Stmt} {t' : Page}
    {f : Unit → Step γ} {f' : Unit → Emitter δ} (hn : loops.length ≤ n)
    (h : Wrote (t.enterLoops loops) ss t')
    (hf : ∀ t'', Wrote t (nest loops ss) t'' → Agrees Q (f () t''.state) (f' () t'')) :
    Agrees Q ((closeLoops n >>= f) t'.state) ((Emitter.exits n >>= f') t') := by
  have hdepth : t'.builder.depth ≤ t.builder.depth + loops.length :=
    (depth_enterLoops t.builder loops) ▸ h.depth
  have hclose : (closeLoops n >>= f) t'.state = if n ≤ t'.builder.depth
      then f () { t'.state with depth := t'.builder.depth - n }
      else .error (.scope .noOpenScope) := by
    show (closeLoops n t'.state >>= fun p => f p.1 p.2) = _
    have hrun : closeLoops n t'.state = if n ≤ t'.builder.depth
        then .ok ((), { t'.state with depth := t'.builder.depth - n })
        else .error (.scope .noOpenScope) := by
      rw [closeLoops, step_get_bind]
      show (if n ≤ t'.builder.depth then _ else _ : Step Unit) _ = _
      split <;> rfl
    rw [hrun]
    split <;> rfl
  have hexit : (Emitter.exits n >>= f') t' =
      (t'.builder.exits n >>= fun b => f' () { t' with builder := b }) := by
    show ((t'.builder.exits n >>= fun b => .ok ((), { t' with builder := b })) >>=
      fun p => f' p.1 p.2) = _
    cases t'.builder.exits n <;> rfl
  rw [hclose, hexit]
  rcases t'.builder.exits_cases n with ⟨b, hb, hlevel⟩ | ⟨hb, hlt⟩
  · rw [if_pos (by omega), hb, ← hlevel, Nat.add_sub_cancel]
    refine hf { t' with builder := b } ⟨by simp only; omega, fun heq => ?_⟩
    -- as deep as before the loops were opened: none but those has been closed
    have hcount : n = loops.length := by simp only at heq; omega
    have hcode := h.code (by simp only at heq; rw [Page.enterLoops, depth_enterLoops]; omega)
    rw [hcode, hcount, Page.enterLoops, exits_appendAll_enterLoops] at hb
    exact (Except.ok.inj hb).symm
  · rw [if_neg (by omega), hb]
    exact .error _

end Steps

theorem depth_of_freshVar {hint : String} {ty : Ty} (s : State) (v : Var) (s' : State)
    (h : freshVar hint ty s = .ok (v, s')) : s'.depth = s.depth := by
  obtain ⟨-, rfl⟩ := freshVar_eq_ok h
  rfl

/-- Making storage opens and closes no loop. -/
theorem depth_of_createdFor {id : Nat} {hint : String} {ty : Ty} (s : State) (v : Var) (s' : State)
    (h : createdFor id hint ty s = .ok (v, s')) : s'.depth = s.depth := by
  rw [createdFor, step_get_bind_eq_ok] at h
  cases hfind : s.created.find? id with
  | some x =>
      rw [hfind] at h
      exact congrArg State.depth (Prod.mk.inj (step_pure_eq_ok.mp h)).2
  | none =>
      rw [hfind] at h
      obtain ⟨x, s₁, hx, h⟩ := step_bind_eq_ok.mp h
      obtain ⟨-, rfl⟩ := Prod.mk.inj (Except.ok.inj h)
      exact depth_of_freshVar s x s₁ hx

theorem depth_of_bufferFor {c : Context} {id : Nat} {hint : String} {ty : Ty} (s : State) (v : Var)
    (s' : State) (h : bufferFor c id hint ty s = .ok (v, s')) : s'.depth = s.depth := by
  unfold bufferFor at h
  cases hfind : c.given.find? id with
  | some x =>
      rw [hfind] at h
      exact congrArg State.depth (Prod.mk.inj (step_pure_eq_ok.mp h)).2
  | none =>
      rw [hfind] at h
      exact depth_of_createdFor s v s' h

/-! ### One node at a time -/

section Nodes

variable {c : Context} {f : Nat → Step Piece} {f' : Nat → Emitter Expr}

mutual

/-- Expressions are emitted as they are expanded, if nodes are. -/
theorem emitExpr_follows (h : ∀ i, Follows Piece.stmts Piece.value (f i) (f' i)) : ∀ e : Expr,
    Follows Piece.stmts Piece.value (expandExpr f e) (emitExpr f' e)
  | .var _, _ => .ok ⟨rfl, rfl, .of_eq rfl⟩
  | .const _ _, _ => .ok ⟨rfl, rfl, .of_eq rfl⟩
  | .node id, t => h id t
  | .binary _ lhs rhs, _ => (emitExpr_follows h lhs).next fun _ _ hl =>
      (emitExpr_follows h rhs).next fun _ _ hr => .ok ⟨rfl, rfl, hl.trans hr⟩
  | .unary _ e, _ => (emitExpr_follows h e).next fun _ _ hw => .ok ⟨rfl, rfl, hw⟩
  | .cast e _, _ => (emitExpr_follows h e).next fun _ _ hw => .ok ⟨rfl, rfl, hw⟩
  | .element base idxs, _ => (emitExpr_follows h base).next fun _ _ hb =>
      (emitExprs_follows h idxs).next fun _ _ hs => .ok ⟨rfl, rfl, hb.trans hs⟩
  | .call _ args, _ => (emitExprs_follows h args).next fun _ _ hw => .ok ⟨rfl, rfl, hw⟩

theorem emitExprs_follows (h : ∀ i, Follows Piece.stmts Piece.value (f i) (f' i)) :
    ∀ es : List Expr, Follows Prod.fst Prod.snd (expandExprs f es) (emitExprs f' es)
  | [], _ => .ok ⟨rfl, rfl, .of_eq rfl⟩
  | e :: es, _ => (emitExpr_follows h e).next fun _ _ hw =>
      (emitExprs_follows h es).next fun _ _ hs => .ok ⟨rfl, rfl, hw.trans hs⟩

end

theorem length_zip_le {axes : List Var} {shape : List Nat} :
    (axes.zip shape).length ≤ shape.length := by
  rw [List.length_zip]
  exact Nat.min_le_right ..

/-- A scope around two statements is one statement. -/
theorem Agrees.scope {Q : γ × State → δ × Page → Prop} {t : Page} {x : Step γ}
    {f' : Unit → Emitter δ} {head : ScopeHead} (s s' : Stmt)
    (hf : Agrees Q (x (t.append (head.close (.seq [s, s']))).state)
      (f' () (t.append (head.close (.seq [s, s']))))) :
    Agrees Q (x t.state) ((Emitter.enter head >>= fun _ => Emitter.put s >>= fun _ =>
      Emitter.put s' >>= fun _ => Emitter.exits 1 >>= f') t) := by
  rw [state_append] at hf
  exact hf

/-- The value of a node is written back alike. -/
theorem Agrees.putBack {id : Nat} {result : Expr} {ss : List Stmt} {t t' : Page}
    (h : Wrote t ss t') :
    Agrees (fun r r' => r'.1 = Piece.value r.1 ∧ r.2 = r'.2.state ∧ Wrote t (Piece.stmts r.1) r'.2)
      ((pure ⟨writeBack c id result ss, result⟩ : Step Piece) t'.state)
      ((Emitter.putBack c id result >>= fun _ => pure result) t') := by
  unfold writeBack Emitter.putBack
  cases c.given.find? id with
  | some v => exact .ok ⟨rfl, (state_append t' _).symm, h.append _⟩
  | none => exact .ok ⟨rfl, rfl, h⟩

section Definitions

variable {id : Nat} {n : Node} {value : Expr}
  (h : Follows Piece.stmts Piece.value (expandExpr f value) (emitExpr f' value))

include h

/-- A grid is emitted as it is expanded. -/
theorem emitGrid_follows {shape : List Nat} {axes : List Var} :
    Follows Piece.stmts Piece.value (expandGrid c f id n shape axes value)
      (emitGrid c f' id n shape axes value) := by
  intro t
  refine .supply depth_of_bufferFor fun buf t₁ ht₁ => ?_
  refine .enterLoops _ (h.next fun p t₂ hp => .put _ ?_)
  refine .exits _ length_zip_le (hp.append _) fun t₃ hw => ?_
  exact .ok ⟨rfl, rfl, (Wrote.of_eq ht₁).trans hw⟩

theorem emitReduce_follows {shape : List Nat} {axes : List Var} {op : Reduction} :
    Follows Piece.stmts Piece.value (expandReduce c f id n shape axes value op)
      (emitReduce c f' id n shape axes value op) := by
  intro t
  unfold expandReduce emitReduce
  by_cases hop : op.isArg = true
  · simp only [hop, if_true]
    exact .error _
  · simp only [hop, if_false, Bool.false_eq_true]
    refine .lift fun s _ => .supply depth_of_createdFor fun acc t₁ ht₁ => .put _ ?_
    refine .enterLoops _ (h.next fun p t₂ hp => .put _ ?_)
    refine .exits _ length_zip_le (hp.append _) fun t₃ hw => .lift fun count _ => ?_
    exact .putBack (((Wrote.of_eq ht₁).append _).trans hw)

theorem emitArgReduce_follows {extent : Nat} {axis : Var} {op : Reduction} {index : Scalar} :
    Follows Piece.stmts Piece.value (expandArgReduce c f id n extent axis value op index)
      (emitArgReduce c f' id n extent axis value op index) := by
  intro t
  refine .lift fun s _ => .supply depth_of_createdFor fun position t₁ ht₁ =>
    .supply depth_of_freshVar fun best t₂ ht₂ => .put _ (.put _ ?_)
  refine .enterLoops [(axis, extent)] (h.next fun p t₃ hp => .lift fun test _ => ?_)
  refine .scope _ _ ?_
  refine .exits [(axis, extent)] (Nat.le_refl 1) (hp.append _) fun t₄ hw => ?_
  exact .putBack ((((Wrote.of_eq (ht₂.trans ht₁)).append _).append _).trans hw)

end Definitions

/-- A node is emitted as its definition is expanded. -/
theorem emitDefined_follows (h : ∀ i, Follows Piece.stmts Piece.value (f i) (f' i)) (id : Nat) :
    Follows Piece.stmts Piece.value (expandDefined c f id) (emitDefined c f' id) := by
  refine fun t => .lift fun n _ => ?_
  have hvalue := emitExpr_follows h
  match n.kind, n.compute with
  | _, none =>
      dsimp only
      cases c.given.find? id with
      | some v => exact .ok ⟨rfl, rfl, .of_eq rfl⟩
      | none => exact .error _
  | .tensor _ _, some (.grid shape axes value) => exact emitGrid_follows (hvalue value) t
  | .scalar _, some (.reduce shape axes value op) => exact emitReduce_follows (hvalue value) t
  | .scalar _, some (.argReduce extent axis value op index) =>
      exact emitArgReduce_follows (hvalue value) t
  | .scalar _, some (.grid _ _ _) => exact .error _
  | .tensor _ _, some (.reduce _ _ _ _) => exact .error _
  | .tensor _ _, some (.argReduce _ _ _ _ _) => exact .error _

/-- **Emission does what expansion does**, node by node. -/
theorem emitNode_follows : ∀ k id,
    Follows Piece.stmts Piece.value (expandNode c k id) (emitNode c k id)
  | 0, _ => fun _ => .error _
  | k + 1, id => emitDefined_follows (emitNode_follows k) id

end Nodes

/-- **Emission is expansion.**  Where expansion terminates, it comes to the same whether code is
put together from parts or written into a statement builder. -/
theorem emit_eq_expand {g : Graph} {e : Expr} {given : Storage}
    (h : Terminates ⟨g, given⟩ e) : g.emit e given = g.expand e given := by
  rw [Graph.emit, Graph.expand, Graph.expandFrom]
  cases firstVar ⟨g, given⟩ 0 with
  | error e => rfl
  | ok next =>
      have hfollows := emitExpr_follows (emitNode_follows (c := ⟨g, given⟩) (g.size + 1)) e
        ⟨.empty, next, .empty⟩
      rw [ok_bind, ok_bind, ← (h (g.size + 1) ⟨.empty, next, 0⟩ (Nat.lt_succ_self _)).2]
      dsimp only [Page.state, depth, empty, List.length_nil] at hfollows ⊢
      generalize expandExpr (expandNode ⟨g, given⟩ (g.size + 1)) e ⟨.empty, next, 0⟩ = r,
        emitExpr (emitNode ⟨g, given⟩ (g.size + 1)) e ⟨.empty, next, ⟨[], []⟩⟩ = r' at hfollows ⊢
      cases hfollows with
      | error e => rfl
      | @ok r r' hr =>
          obtain ⟨p, s⟩ := r
          obtain ⟨v, t⟩ := r'
          obtain ⟨rfl, rfl, hw⟩ :
            v = p.value ∧ s = t.state ∧ Wrote ⟨.empty, next, .empty⟩ p.stmts t := hr
          have hbuilder : t.builder = ⟨p.stmts, []⟩ :=
            (hw.code (Nat.le_zero.mp hw.depth)).trans (appendAll_root [] p.stmts)
          show (t.builder.finish >>= _) = _
          rw [hbuilder]
          rfl

end Expansion

end TensorLoops
