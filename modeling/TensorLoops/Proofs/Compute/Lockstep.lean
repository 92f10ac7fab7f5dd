import TensorLoops.Proofs.Code.Renaming
import TensorLoops.Proofs.Compute.Denotation
import TensorLoops.Proofs.Compute.Drafts

/-!
# Proofs — Compute — Lockstep

Expansion from a higher counter.  Start an expansion once more with the next id and all ids from `w`
on moved up by `k`, while the graph, whose variables lie below `w`, stays as it is.  The second run
does what the first does, step by step: it asks the same questions, finds storage for the same nodes
and makes the same code up to the shift (`Lockstep`).  The one thing that may come between is that
the second run is out of ids first (`Mirrors`).
-/

namespace TensorLoops

/-- The second result is the first taken along by `φ`, unless ids have run out. -/
def Mirrors {α β : Type} (φ : α → β) (r : Except Error α) (r' : Except Error β) : Prop :=
  r' = r.map φ ∨ r' = .error (.arithmetic .addOverflow)

namespace Mirrors

variable {α β γ δ : Type} {φ : α → β} {ψ : γ → δ}

theorem ok (a : α) : Mirrors φ (.ok a) (.ok (φ a)) := .inl rfl

theorem error (e : Error) : Mirrors φ (.error e) (.error e) := .inl rfl

/-- Computations mirror each other when their parts do. -/
theorem bind {x : Except Error α} {x' : Except Error β} {f : α → Except Error γ}
    {f' : β → Except Error δ} (hx : Mirrors φ x x')
    (hf : ∀ a, x = .ok a → Mirrors ψ (f a) (f' (φ a))) : Mirrors ψ (x >>= f) (x' >>= f') := by
  rcases hx with rfl | rfl
  · cases x with
    | ok a => exact hf a rfl
    | error e => exact .error e
  · exact .inr rfl

/-- A failure is that of the first run, or the lack of an id. -/
theorem eq_error {r : Except Error α} {r' : Except Error β} {e : Error} (h : Mirrors φ r r')
    (he : r' = .error e) : r = .error e ∨ e = .arithmetic .addOverflow := by
  rcases h with rfl | rfl
  · cases r with
    | ok a => cases he
    | error e' => exact .inl (congrArg _ (Except.error.inj he))
  · exact .inr (Except.error.inj he).symm

/-- Only what is returned, without the state it is returned with. -/
theorem fst {σ τ : Type} {χ : σ → τ} {r : Except Error α} {r' : Except Error β} {s : σ} {s' : τ}
    (h : Mirrors (Prod.map φ χ) (r.map (·, s)) (r'.map (·, s'))) : Mirrors φ r r' := by
  cases r' with
  | ok b =>
      obtain ⟨a, rfl, hb⟩ : ∃ a, r = .ok a ∧ b = φ a := by
        rcases h with h | h
        · cases r with
          | ok a => exact ⟨a, rfl, congrArg Prod.fst (Except.ok.inj h)⟩
          | error e => cases h
        · cases h
      exact .inl (congrArg Except.ok hb)
  | error e =>
      rcases h.eq_error rfl with h | rfl
      · cases r with
        | ok a => cases h
        | error e' => exact .inl (congrArg _ (Except.error.inj h).symm)
      · exact .inr rfl

/-- The next id is mirrored by the next id further up. -/
theorem nextId (k n : Nat) : Mirrors (· + k) (Word.nextId n) (Word.nextId (n + k)) := by
  unfold Word.nextId
  by_cases h : n + k + 1 < Word.idLimit
  · rw [if_pos h, if_pos (by omega), Nat.add_right_comm]
    exact .ok (n + 1)
  · rw [if_neg h]
    exact .inr rfl

end Mirrors

/-- The graph with `k` more ids given out. -/
def Graph.raise (g : Graph) (k : Nat) : Graph := { g with nextVar := g.nextVar + k }

/-- The variables of the definitions have ids below `w`. -/
def Graph.VarsBelow (g : Graph) (w : Nat) : Prop :=
  ∀ (id : Nat) (n : Node) (d : Compute), g.node? id = some n → n.compute = some d →
    (∀ v ∈ d.axes, v.id < w) ∧ ∀ v ∈ d.value.vars, v.id < w

namespace Reduction

variable {f : Var → Var} {op : Reduction}

theorem rename_combine (acc value : Expr) :
    (op.combine acc value).rename f = op.combine (acc.rename f) (value.rename f) := by
  cases op <;> rfl

theorem rename_finalize (acc : Expr) (count : Nat) :
    (op.finalize acc count).rename f = op.finalize (acc.rename f) count := by
  cases op <;> rfl

end Reduction

namespace Expansion

/-- A piece with its variables replaced. -/
def Piece.rename (f : Var → Var) (p : Piece) : Piece :=
  ⟨Stmt.renameList f p.stmts, p.value.rename f⟩

/-- The state with room for `k` ids at `w`. -/
def State.shift (w k : Nat) (s : State) : State :=
  ⟨s.created.map (Var.shift w k), s.nextVar + k, s.depth⟩

/-- The graph and its storage, with room for `k` ids at `w`. -/
def Context.shift (w k : Nat) (c : Context) : Context :=
  ⟨c.graph.raise k, c.given.map (Var.shift w k)⟩

variable {w k : Nat}

/-- Renaming passes through loops whose variables stay as they are. -/
theorem renameList_nest {f : Var → Var} {loops : List (Var × Nat)} (ss : List Stmt)
    (h : ∀ l ∈ loops, f l.1 = l.1) :
    Stmt.renameList f (nest loops ss) = nest loops (Stmt.renameList f ss) := by
  induction loops with
  | nil => rfl
  | cons l loops ih =>
      obtain ⟨hl, hloops⟩ := List.forall_mem_cons.mp h
      obtain ⟨v, n⟩ := l
      rw [nest, nest, Stmt.renameList, Stmt.rename, Stmt.rename_ofList, ih hloops, hl]
      rfl

/-- Renaming passes through the writing back of a result, in the shifted context. -/
theorem renameList_writeBack (c : Context) (id : Nat) (value : Expr) (ss : List Stmt) :
    Stmt.renameList (Var.shift w k) (writeBack c id value ss) =
      writeBack (c.shift w k) id (value.rename (Var.shift w k))
        (Stmt.renameList (Var.shift w k) ss) := by
  unfold writeBack Context.shift
  simp only [Table.find?_map]
  cases c.given.find? id with
  | none => rfl
  | some v => exact Stmt.renameList_append _ _ _

/-! ### Steps -/

/-- From a state whose next id is `w` or more, the second step mirrors the first, and the next id
does not fall below `w`. -/
def Lockstep {α : Type} (w k : Nat) (φ : α → α) (x x' : Step α) : Prop :=
  ∀ s : State, w ≤ s.nextVar →
    Mirrors (fun r => (φ r.1, r.2.shift w k)) (x s) (x' (s.shift w k)) ∧
      ∀ a t, x s = .ok (a, t) → w ≤ t.nextVar

namespace Lockstep

variable {α β : Type} {φ : α → α} {ψ : β → β} {x x' : Step α}

/-- A value is kept in step with its image. -/
theorem pure {a a' : α} (h : a' = φ a) : Lockstep w k φ (Pure.pure a) (Pure.pure a') := by
  subst h
  intro s hs
  refine ⟨.ok (a, s), fun b t h => ?_⟩
  obtain ⟨rfl, rfl⟩ := Prod.mk.inj (Except.ok.inj h)
  exact hs

/-- Both steps fail at once. -/
theorem fail {e : Error} (hx : ∀ s, x s = .error e) (hx' : ∀ s, x' s = .error e) :
    Lockstep w k φ x x' := by
  intro s _
  rw [hx, hx']
  refine ⟨.error e, fun a t h => ?_⟩
  cases h

/-- **Steps keep in step** when each does, from states that are. -/
theorem bind {f f' : α → Step β} (hx : Lockstep w k φ x x')
    (hf : ∀ a, Lockstep w k ψ (f a) (f' (φ a))) : Lockstep w k ψ (x >>= f) (x' >>= f') := by
  intro s hs
  obtain ⟨hmirrors, hnext⟩ := hx s hs
  constructor
  · refine Mirrors.bind hmirrors fun r hr => ?_
    exact (hf r.1 r.2 (hnext r.1 r.2 hr)).1
  · intro b t h
    obtain ⟨a, s₁, hx, h⟩ := step_bind_eq_ok.mp h
    exact (hf a s₁ (hnext a s₁ hx)).2 b t h

/-- A computation without a state that is the same in both runs. -/
theorem lift_bind {r : Except Error β} {f f' : β → Step α}
    (hf : ∀ b, r = .ok b → Lockstep w k φ (f b) (f' b)) :
    Lockstep w k φ (liftM r >>= f) (liftM r >>= f') := by
  cases r with
  | ok b => exact hf b rfl
  | error e => exact fail (fun _ => rfl) (fun _ => rfl)

/-- A computation without a state is kept in step if it is mirrored. -/
theorem lift {r r' : Except Error α} (h : Mirrors φ r r') :
    Lockstep w k φ (liftM r) (liftM r') := by
  intro s hs
  constructor
  · exact Mirrors.bind h fun a _ => .ok (a, s)
  · intro a t h
    obtain ⟨b, -, h⟩ := bind_eq_ok.mp h
    obtain ⟨rfl, rfl⟩ := Prod.mk.inj (pure_eq_ok.mp h)
    exact hs

end Lockstep

theorem openLoops_lockstep (n : Nat) : Lockstep w k id (openLoops n) (openLoops n) := by
  intro s hs
  refine ⟨.ok (PUnit.unit, { s with depth := s.depth + n }), fun a t h => ?_⟩
  obtain ⟨rfl, rfl⟩ := Prod.mk.inj (Except.ok.inj h)
  exact hs

theorem closeLoops_lockstep (n : Nat) : Lockstep w k id (closeLoops n) (closeLoops n) := by
  intro s hs
  rw [closeLoops, step_get_bind, step_get_bind]
  by_cases hd : n ≤ s.depth
  · rw [if_pos hd, if_pos (show n ≤ (s.shift w k).depth from hd)]
    refine ⟨.ok (PUnit.unit, { s with depth := s.depth - n }), fun a t h => ?_⟩
    obtain ⟨rfl, rfl⟩ := Prod.mk.inj (Except.ok.inj h)
    exact hs
  · rw [if_neg hd, if_neg (show ¬ n ≤ (s.shift w k).depth from hd)]
    exact Lockstep.fail (fun _ => rfl) (fun _ => rfl) s hs

/-- A new variable is mirrored by its shift. -/
theorem freshVar_lockstep (hint : String) (ty : Ty) :
    Lockstep w k (Var.shift w k) (freshVar hint ty) (freshVar hint ty) := by
  intro s hs
  have hrun : ∀ t : State, freshVar hint ty t = Word.nextId t.nextVar >>= fun next =>
      .ok (⟨t.nextVar, hint, ty⟩, { t with nextVar := next }) := by
    intro t
    rw [freshVar, step_get_bind]
    cases Word.nextId t.nextVar <;> rfl
  constructor
  · rw [hrun, hrun]
    refine (Mirrors.nextId k s.nextVar).bind fun next _ => .inl ?_
    simp only [Except.map, Var.shift_of_le hs]
    rfl
  · intro v t h
    obtain ⟨-, rfl⟩ := freshVar_eq_ok h
    exact Nat.le_succ_of_le hs

/-- Storage that is made or found is mirrored by its shift. -/
theorem createdFor_lockstep (id : Nat) (hint : String) (ty : Ty) :
    Lockstep w k (Var.shift w k) (createdFor id hint ty) (createdFor id hint ty) := by
  intro s hs
  have hfind : (s.shift w k).created.find? id = (s.created.find? id).map (Var.shift w k) :=
    Table.find?_map _ _ _
  rw [createdFor, step_get_bind, step_get_bind, hfind]
  cases s.created.find? id with
  | some v => exact Lockstep.pure rfl s hs
  | none =>
      refine Lockstep.bind (freshVar_lockstep hint ty) (fun v => ?_) s hs
      intro t ht
      refine ⟨.inl ?_, fun a t' h => ?_⟩
      · show Except.ok (v.shift w k, State.mk _ _ _) = Except.ok (v.shift w k, State.mk _ _ _)
        rw [Table.map_insert]
        rfl
      · obtain ⟨rfl, rfl⟩ := Prod.mk.inj (Except.ok.inj h)
        exact ht

variable {c : Context}

theorem bufferFor_lockstep (id : Nat) (hint : String) (ty : Ty) :
    Lockstep w k (Var.shift w k) (bufferFor c id hint ty) (bufferFor (c.shift w k) id hint ty) := by
  unfold bufferFor Context.shift
  simp only [Table.find?_map]
  cases c.given.find? id with
  | some v => exact .pure rfl
  | none => exact createdFor_lockstep id hint ty

/-- The test of an arg-reduction is renamed with its operands. -/
theorem improves_mirrors (op : Reduction) (candidate best : Expr) (f : Var → Var) :
    Mirrors (Expr.rename f) (improves op candidate best)
      (improves op (candidate.rename f) (best.rename f)) := by
  cases op <;> exact .inl rfl

/-! ### Expressions -/

variable {f f' : Nat → Step Piece}

mutual

/-- Expressions are expanded in step if nodes are, as their own variables are below the threshold.
-/
theorem expandExpr_lockstep
    (hf : ∀ id, Lockstep w k (Piece.rename (Var.shift w k)) (f id) (f' id)) :
    ∀ e : Expr, (∀ v ∈ e.vars, v.id < w) →
      Lockstep w k (Piece.rename (Var.shift w k)) (expandExpr f e) (expandExpr f' e)
  | .var v, hv => by
      have hfixed : v.shift w k = v := Var.shift_of_lt (hv v (List.mem_singleton_self v))
      exact .pure (congrArg (fun v => Piece.mk [] (.var v)) hfixed.symm)
  | .const _ _, _ => .pure rfl
  | .node id, _ => hf id
  | .binary _ lhs rhs, hv => by
      obtain ⟨hl, hr⟩ := List.forall_mem_append.mp hv
      refine (expandExpr_lockstep hf lhs hl).bind fun l => ?_
      refine (expandExpr_lockstep hf rhs hr).bind fun r => .pure ?_
      exact congrArg (Piece.mk · _) (Stmt.renameList_append _ _ _).symm
  | .unary _ operand, hv => (expandExpr_lockstep hf operand hv).bind fun _ => .pure rfl
  | .cast operand _, hv => (expandExpr_lockstep hf operand hv).bind fun _ => .pure rfl
  | .element base idxs, hv => by
      obtain ⟨hb, hs⟩ := List.forall_mem_append.mp hv
      refine (expandExpr_lockstep hf base hb).bind fun b => ?_
      refine (expandExprs_lockstep hf idxs hs).bind fun r => .pure ?_
      exact congrArg (Piece.mk · _) (Stmt.renameList_append _ _ _).symm
  | .call _ args, hv => (expandExprs_lockstep hf args hv).bind fun _ => .pure rfl

theorem expandExprs_lockstep
    (hf : ∀ id, Lockstep w k (Piece.rename (Var.shift w k)) (f id) (f' id)) :
    ∀ es : List Expr, (∀ v ∈ Expr.varsList es, v.id < w) →
      Lockstep w k (Prod.map (Stmt.renameList (Var.shift w k)) (Expr.renameList (Var.shift w k)))
        (expandExprs f es) (expandExprs f' es)
  | [], _ => .pure rfl
  | e :: es, hv => by
      obtain ⟨he, hes⟩ := List.forall_mem_append.mp hv
      refine (expandExpr_lockstep hf e he).bind fun p => ?_
      refine (expandExprs_lockstep hf es hes).bind fun r => .pure ?_
      exact congrArg (·, _) (Stmt.renameList_append _ _ _).symm

end

/-! ### Nodes -/

section Definitions

variable {id : Nat} {n : Node}

/-- The axes of loops keep their ids. -/
theorem shift_loop {axes : List Var} {shape : List Nat} (haxes : ∀ v ∈ axes, v.id < w) :
    ∀ l ∈ axes.zip shape, l.1.shift w k = l.1 :=
  fun _ hl => Var.shift_of_lt (haxes _ (List.of_mem_zip hl).1)

section Values

variable (hf : ∀ id, Lockstep w k (Piece.rename (Var.shift w k)) (f id) (f' id))
  {shape : List Nat} {axes : List Var} {value : Expr} {op : Reduction}

include hf

/-- Grids are expanded in step. -/
theorem expandGrid_lockstep (haxes : ∀ v ∈ axes, v.id < w) (hvalue : ∀ v ∈ value.vars, v.id < w) :
    Lockstep w k (Piece.rename (Var.shift w k)) (expandGrid c f id n shape axes value)
      (expandGrid (c.shift w k) f' id n shape axes value) := by
  refine (bufferFor_lockstep _ _ _).bind fun buf => ?_
  refine (openLoops_lockstep _).bind fun _ => ?_
  refine (expandExpr_lockstep hf value hvalue).bind fun p => ?_
  refine (closeLoops_lockstep _).bind fun _ => .pure ?_
  have hidxs : Expr.renameList (Var.shift w k) (axes.map .var) = axes.map .var := by
    rw [Expr.renameList_eq_map, List.map_map]
    exact List.map_congr_left fun v hv => congrArg Expr.var (Var.shift_of_lt (haxes v hv))
  rw [Piece.rename, Piece.rename, renameList_nest _ (shift_loop haxes), Stmt.renameList_append,
    Stmt.renameList, Stmt.rename, hidxs]
  rfl

theorem expandReduce_lockstep (haxes : ∀ v ∈ axes, v.id < w) (hvalue : ∀ v ∈ value.vars, v.id < w) :
    Lockstep w k (Piece.rename (Var.shift w k)) (expandReduce c f id n shape axes value op)
      (expandReduce (c.shift w k) f' id n shape axes value op) := by
  have htype : (c.shift w k).graph.typeOf value = c.graph.typeOf value := Graph.typeOf_nextVar value
  cases hop : op.isArg with
  | true =>
      simp only [expandReduce, hop, if_true]
      exact .fail (fun _ => rfl) (fun _ => rfl)
  | false =>
      simp only [expandReduce, hop, Bool.false_eq_true, if_false]
      rw [htype]
      refine .lift_bind fun s _ => ?_
      refine (createdFor_lockstep _ _ _).bind fun acc => ?_
      refine (openLoops_lockstep _).bind fun _ => ?_
      refine (expandExpr_lockstep hf value hvalue).bind fun p => ?_
      refine (closeLoops_lockstep _).bind fun _ => ?_
      refine .lift_bind fun count _ => .pure ?_
      rw [Piece.rename, Piece.rename, renameList_writeBack, Stmt.renameList,
        renameList_nest _ (shift_loop haxes), Stmt.renameList_append, Stmt.renameList, Stmt.rename,
        Stmt.rename, Reduction.rename_finalize, Reduction.rename_combine]
      rfl

theorem expandArgReduce_lockstep {extent : Nat} {axis : Var} {index : Scalar} (haxis : axis.id < w)
    (hvalue : ∀ v ∈ value.vars, v.id < w) :
    Lockstep w k (Piece.rename (Var.shift w k)) (expandArgReduce c f id n extent axis value op index)
      (expandArgReduce (c.shift w k) f' id n extent axis value op index) := by
  have htype : (c.shift w k).graph.typeOf value = c.graph.typeOf value := Graph.typeOf_nextVar value
  have haxes : ∀ l ∈ [(axis, extent)], l.1.shift w k = l.1 := by
    simpa using Var.shift_of_lt haxis
  simp only [expandArgReduce]
  rw [htype]
  refine .lift_bind fun s _ => ?_
  refine (createdFor_lockstep _ _ _).bind fun position => ?_
  refine (freshVar_lockstep _ _).bind fun best => ?_
  refine (openLoops_lockstep _).bind fun _ => ?_
  refine (expandExpr_lockstep hf value hvalue).bind fun p => ?_
  refine (Lockstep.lift (improves_mirrors _ _ _ _)).bind fun test => ?_
  refine (closeLoops_lockstep _).bind fun _ => .pure ?_
  rw [Piece.rename, Piece.rename, renameList_writeBack, Stmt.renameList_append,
    renameList_nest _ haxes, Stmt.renameList_append]
  simp only [Stmt.renameList, Stmt.rename, Stmt.renameOption, Expr.rename, Var.shift_of_lt haxis]
  rfl

end Values

/-- A node expanded by its definition. -/
theorem expandDefined_lockstep (hg : c.graph.VarsBelow w)
    (hf : ∀ id, Lockstep w k (Piece.rename (Var.shift w k)) (f id) (f' id)) (id : Nat) :
    Lockstep w k (Piece.rename (Var.shift w k)) (expandDefined c f id)
      (expandDefined (c.shift w k) f' id) := by
  refine .lift_bind fun n hnode => ?_
  have hn := Graph.node_eq_ok.mp hnode
  have hfind : (c.shift w k).given.find? id = (c.given.find? id).map (Var.shift w k) :=
    Table.find?_map _ _ _
  cases hc : n.compute with
  | none =>
      simp only [hfind]
      cases c.given.find? id with
      | some v => exact .pure rfl
      | none => exact .fail (fun _ => rfl) (fun _ => rfl)
  | some d =>
      obtain ⟨haxes, hvalue⟩ := hg id n d hn hc
      -- a definition that does not suit the kind of its node is refused by both
      cases d with
      | grid shape axes value =>
          cases n.kind with
          | tensor => exact expandGrid_lockstep hf haxes hvalue
          | scalar => exact .fail (fun _ => rfl) (fun _ => rfl)
      | reduce shape axes value op =>
          cases n.kind with
          | tensor => exact .fail (fun _ => rfl) (fun _ => rfl)
          | scalar => exact expandReduce_lockstep hf haxes hvalue
      | argReduce extent axis value op index =>
          cases n.kind with
          | tensor => exact .fail (fun _ => rfl) (fun _ => rfl)
          | scalar =>
              exact expandArgReduce_lockstep hf (haxes axis (List.mem_singleton_self _)) hvalue

end Definitions

/-- **Nodes are expanded in step.**  By induction on the allowance. -/
theorem expandNode_lockstep (hg : c.graph.VarsBelow w) : ∀ n id,
    Lockstep w k (Piece.rename (Var.shift w k)) (expandNode c n id) (expandNode (c.shift w k) n id)
  | 0, _ => .fail (fun _ => rfl) (fun _ => rfl)
  | n + 1, id => expandDefined_lockstep hg (expandNode_lockstep hg n) id

/-! ### The watch for cycles -/

def Visit.shift (w k : Nat) (v : Visit) : Visit := ⟨v.id, v.state.shift w k⟩

/-- Shifting ids does not change where a visit recurs. -/
theorem Visit.recursAt_shift (v : Visit) (s : State) :
    (v.shift w k).recursAt (s.shift w k) = v.recursAt s := by
  have hv : (v.shift w k).state.created.size = v.state.created.size := Table.size_map _ _
  have hs : (s.shift w k).created.size = s.created.size := Table.size_map _ _
  rw [recursAt, recursAt, hv, hs]
  rfl

theorem Visit.endAt_shift (v : Visit) (s : State) :
    (v.shift w k).endAt (s.shift w k) = v.endAt s := by
  simp only [endAt, shift, State.shift, Nat.add_lt_add_iff_right]

theorem find?_visits (visits : List Visit) (id : Nat) :
    (visits.map (Visit.shift w k)).find? (·.id = id) =
      (visits.find? (·.id = id)).map (Visit.shift w k) := List.find?_map ..

/-- Expansion under a watch for cycles is kept in step as well. -/
theorem expandUnder_lockstep (hg : c.graph.VarsBelow w) : ∀ n visits id,
    Lockstep w k (Piece.rename (Var.shift w k)) (expandUnder c n visits id)
      (expandUnder (c.shift w k) n (visits.map (Visit.shift w k)) id)
  | 0, _, _ => .fail (fun _ => rfl) (fun _ => rfl)
  | n + 1, visits, id => by
      intro s hs
      have hdefined :=
        expandDefined_lockstep hg (expandUnder_lockstep hg n (⟨id, s⟩ :: visits)) id s hs
      rw [expandUnder, expandUnder, step_get_bind, step_get_bind, find?_visits]
      cases hv : visits.find? (·.id = id) with
      | none => exact hdefined
      | some v =>
          simp only [Option.map_some, Visit.recursAt_shift, Visit.endAt_shift]
          cases v.recursAt s with
          | true => exact Lockstep.fail (fun _ => rfl) (fun _ => rfl) s hs
          | false => exact hdefined

/-! ### Whole expansions -/

/-- Where the plain expansion is cut off, the watch decides. -/
theorem expandAll_of_cyclic {e : Expr} {s : State} {i : Nat}
    (h : expandExpr (expandNode c (c.graph.size + 1)) e s = .error (.graph (.cyclic i))) :
    expandAll c e s = expandExpr (expandUnder c (recurrenceBound c.graph) []) e s := by
  unfold expandAll StateT.run
  rw [h]

/-- Where it is not, it is the expansion. -/
theorem expandAll_of_not_cyclic {e : Expr} {s : State}
    (h : ∀ i, expandExpr (expandNode c (c.graph.size + 1)) e s ≠ .error (.graph (.cyclic i))) :
    expandAll c e s = expandExpr (expandNode c (c.graph.size + 1)) e s := by
  unfold expandAll StateT.run
  split
  · rename_i i heq
    exact absurd heq (h i)
  · rfl

/-- **A whole expression**, whether or not the watch is needed. -/
theorem expandAll_lockstep (hg : c.graph.VarsBelow w) {e : Expr} (he : ∀ v ∈ e.vars, v.id < w) :
    Lockstep w k (Piece.rename (Var.shift w k)) (expandAll c e) (expandAll (c.shift w k) e) := by
  intro s hs
  have hplain := expandExpr_lockstep (k := k) (expandNode_lockstep hg (c.graph.size + 1)) e he s hs
  have hwatch := expandExpr_lockstep (k := k)
    (expandUnder_lockstep hg (recurrenceBound c.graph) []) e he s hs
  by_cases hcyclic : ∃ i, expandExpr (expandNode c (c.graph.size + 1)) e s =
      .error (.graph (.cyclic i))
  · obtain ⟨i, hi⟩ := hcyclic
    rw [expandAll_of_cyclic hi]
    refine ⟨?_, hwatch.2⟩
    -- the second run calls the watch too, unless it is out of ids before
    rcases hplain.1 with hr | hr
    · rw [hi] at hr
      rw [expandAll_of_cyclic hr]
      exact hwatch.1
    · rw [expandAll_of_not_cyclic (fun j hj => ?_)]
      · exact .inr hr
      · cases hr.symm.trans hj
  · have hne : ∀ i, expandExpr (expandNode c (c.graph.size + 1)) e s ≠
        .error (.graph (.cyclic i)) := fun i hi => hcyclic ⟨i, hi⟩
    rw [expandAll_of_not_cyclic hne, expandAll_of_not_cyclic (fun j hj => ?_)]
    · exact hplain
    · rcases hplain.1.eq_error hj with h | h
      · exact hne j h
      · cases h

/-- Ids below `w` do not decide where new ones start. -/
theorem firstVar_mirrors {first first' : Nat} (hw : w ≤ max c.graph.nextVar first)
    (hfirst : max (c.graph.nextVar + k) first' = max c.graph.nextVar first + k) :
    Mirrors (· + k) (firstVar c first) (firstVar (c.shift w k) first') := by
  unfold firstVar Context.shift Table.map Graph.raise
  rw [hfirst]
  generalize c.given.entries = es, max c.graph.nextVar first = m at hw ⊢
  induction es generalizing m with
  | nil => exact .ok m
  | cons e es ih =>
      rw [List.map_cons, List.foldlM_cons, List.foldlM_cons]
      refine Mirrors.bind (φ := (· + k)) ?_ fun m' hm' => ?_
      · -- a variable that is moved counts for as much more; one that is not is below `w` anyway
        by_cases he : w ≤ e.2.id
        · refine Mirrors.bind (φ := (· + k)) ?_ fun next _ => .inl ?_
          · rw [Var.shift, if_pos he]
            exact .nextId k e.2.id
          · exact congrArg Except.ok (Nat.add_max_add_right m next k)
        · rw [Var.shift, if_neg he]
          refine Mirrors.bind (φ := fun next => next) ?_ fun next hnext => .inl ?_
          · cases Word.nextId e.2.id <;> exact .inl rfl
          · obtain ⟨-, rfl⟩ := Word.nextId_eq_ok.mp hnext
            refine congrArg Except.ok ?_
            simp only
            omega
      · obtain ⟨next, -, hm'⟩ := bind_eq_ok.mp hm'
        obtain rfl := pure_eq_ok.mp hm'
        exact ih _ (Nat.le_trans hw (Nat.le_max_left _ _))

end Expansion

open Expansion

/-- An expanded expression with room for `k` ids at `w`. -/
def Expansion.shift (w k : Nat) (x : Expansion) : Expansion :=
  ⟨x.stmt.rename (Var.shift w k), x.value.rename (Var.shift w k), x.created.map (Var.shift w k),
    x.nextVar + k⟩

variable {g : Graph} {w k : Nat}

/-- **Expansion from a higher counter** makes the same code up to the shift. -/
theorem Graph.expandFrom_mirrors (hg : g.VarsBelow w) {first first' : Nat}
    (hw : w ≤ max g.nextVar first)
    (hfirst : max (g.nextVar + k) first' = max g.nextVar first + k) {e : Expr}
    (he : ∀ v ∈ e.vars, v.id < w) (given : Storage) :
    Mirrors (Expansion.shift w k) (g.expandFrom first e given)
      ((g.raise k).expandFrom first' e (given.map (Var.shift w k))) := by
  refine Mirrors.bind (firstVar_mirrors (c := ⟨g, given⟩) hw hfirst) fun next hnext => ?_
  obtain ⟨hle, hle', -⟩ := firstVar_eq_ok hnext
  have hall := expandAll_lockstep (c := ⟨g, given⟩) (k := k) hg he ⟨.empty, next, 0⟩
    (Nat.le_trans hw (Nat.max_le.mpr ⟨hle, hle'⟩))
  refine Mirrors.bind hall.1 fun r _ => .inl (congrArg Except.ok ?_)
  rw [Expansion.shift, Stmt.rename_ofList]
  rfl

end TensorLoops
