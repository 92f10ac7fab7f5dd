import TensorLoops.Compute.Expansion
import TensorLoops.Proofs.Compute.Unfolding
import TensorLoops.Proofs.Compute.Updates

/-!
# Proofs — Compute — Expands

What an expansion that did not fail has made.  `Expands c w S e u p u'` says that where the axes
`S` are in scope the expression `e` becomes the piece `p`, while the storage made and the next
variable id go from `u` to `u'`; `Computes` says it of a node.  The relations have one rule for
each way code comes about and keep what is known of the graph at that point, so that statements
about the code are shown by one induction and never look into the expansion itself.

Expanding what is well scoped gives related code (`Unfolds.computes`).  How many loops are open is
left out of the relations: it never changes what is made.
-/

namespace TensorLoops

namespace Expansion

/-- The storage made so far and the next variable id. -/
structure Supply where
  created : Storage
  nextVar : Nat

def State.supply (s : State) : Supply := ⟨s.created, s.nextVar⟩

/-- Variable `v` is the one made for node `id`, before or just now. -/
inductive Creates (id : Nat) (hint : String) (ty : Ty) (u : Supply) : Var → Supply → Prop where
  | again {v} : u.created.find? id = some v → Creates id hint ty u v u
  | fresh : u.created.find? id = none →
      Creates id hint ty u ⟨u.nextVar, hint, ty⟩
        ⟨u.created.insert id ⟨u.nextVar, hint, ty⟩, u.nextVar + 1⟩

/-- Variable `v` is the storage of node `id`: the given one, or one made for it. -/
inductive Allots (c : Context) (id : Nat) (hint : String) (ty : Ty) (u : Supply) :
    Var → Supply → Prop where
  | given {v} : c.given.find? id = some v → Allots c id hint ty u v u
  | made {v u'} : c.given.find? id = none → Creates id hint ty u v u' → Allots c id hint ty u v u'

/-- Loops around a store of a value. -/
def gridStmts (shape : List Nat) (axes : List Var) (buf : Var) (p : Piece) : List Stmt :=
  nest (axes.zip shape) (p.stmts ++ [.store buf (axes.map .var) p.value])

/-- An accumulator, and loops that fold a value into it. -/
def reduceStmts (shape : List Nat) (axes : List Var) (op : Reduction) (s : Scalar) (acc : Var)
    (p : Piece) : List Stmt :=
  .assign acc (op.identity s) ::
    nest (axes.zip shape) (p.stmts ++ [.assign acc (op.combine (.var acc) p.value)])

/-- The best value and its position, and a loop that updates both. -/
def argReduceStmts (extent : Nat) (axis : Var) (op : Reduction) (s index : Scalar)
    (best position : Var) (test : Expr) (p : Piece) : List Stmt :=
  [.declare best (some (op.identity s)), .assign position (.const index.zero index)] ++
    nest [(axis, extent)] (p.stmts ++ [.cond test (.seq [.assign best p.value,
      .assign position (.cast (.var axis) (.scalar index))]) none])

mutual

/-- Expression `e` becomes the piece `p`. -/
inductive Expands (c : Context) (w : Nat) : List Var → Expr → Supply → Piece → Supply → Prop where
  | var {S v u} : v ∈ S → Expands c w S (.var v) u ⟨[], .var v⟩ u
  | const {S value s u} : Expands c w S (.const value s) u ⟨[], .const value s⟩ u
  | node {S id n s u p u'} : c.graph.node? id = some n → n.kind = .scalar s →
      Computes c w S id u p u' → Expands c w S (.node id) u p u'
  | binary {S op lhs rhs u p u₁ q u'} : Expands c w S lhs u p u₁ → Expands c w S rhs u₁ q u' →
      Expands c w S (.binary op lhs rhs) u ⟨p.stmts ++ q.stmts, .binary op p.value q.value⟩ u'
  | unary {S op e u p u'} : Expands c w S e u p u' →
      Expands c w S (.unary op e) u ⟨p.stmts, .unary op p.value⟩ u'
  | cast {S e ty u p u'} : Expands c w S e u p u' →
      Expands c w S (.cast e ty) u ⟨p.stmts, .cast p.value ty⟩ u'
  | element {S id n s shape idxs u p u₁ ss is u'} : c.graph.node? id = some n →
      n.kind = .tensor s shape → Computes c w S id u p u₁ →
      ExpandsList c w S idxs u₁ ss is u' →
      Expands c w S (.element (.node id) idxs) u ⟨p.stmts ++ ss, .element p.value is⟩ u'

/-- Expressions become statements and values, from left to right. -/
inductive ExpandsList (c : Context) (w : Nat) :
    List Var → List Expr → Supply → List Stmt → List Expr → Supply → Prop where
  | nil {S u} : ExpandsList c w S [] u [] [] u
  | cons {S e es u p u₁ ss vs u'} : Expands c w S e u p u₁ → ExpandsList c w S es u₁ ss vs u' →
      ExpandsList c w S (e :: es) u (p.stmts ++ ss) (p.value :: vs) u'

/-- Node `id` becomes the piece `p`. -/
inductive Computes (c : Context) (w : Nat) : List Var → Nat → Supply → Piece → Supply → Prop where
  | input {S id n v u} : c.graph.node? id = some n → n.compute = none →
      c.given.find? id = some v → Computes c w S id u ⟨[], .var v⟩ u
  | grid {S id n s shape axes value u buf u₁ p u'} : c.graph.node? id = some n →
      n.kind = .tensor s shape → n.compute = some (.grid shape axes value) →
      (Compute.grid shape axes value).WellFormed n.kind id w S →
      Allots c id n.name n.kind.storage u buf u₁ → Expands c w (axes ++ S) value u₁ p u' →
      Computes c w S id u ⟨gridStmts shape axes buf p, .var buf⟩ u'
  | reduce {S id n k shape axes value op s count u acc u₁ p u'} : c.graph.node? id = some n →
      n.kind = .scalar k → n.compute = some (.reduce shape axes value op) →
      (Compute.reduce shape axes value op).WellFormed n.kind id w S →
      c.graph.typeOf value = .ok s → Word.product shape = .ok count →
      Creates id n.name (.scalar s) u acc u₁ → Expands c w (axes ++ S) value u₁ p u' →
      Computes c w S id u
        ⟨writeBack c id (op.finalize (.var acc) count) (reduceStmts shape axes op s acc p),
          op.finalize (.var acc) count⟩ u'
  | argReduce {S id n k extent axis value op index s u position u₁ p test u'} :
      c.graph.node? id = some n →
      n.kind = .scalar k → n.compute = some (.argReduce extent axis value op index) →
      (Compute.argReduce extent axis value op index).WellFormed n.kind id w S →
      c.graph.typeOf value = .ok s → Creates id (n.name ++ "_idx") (.scalar index) u position u₁ →
      Expands c w (axis :: S) value ⟨u₁.created, u₁.nextVar + 1⟩ p u' →
      op.better? p.value (.var ⟨u₁.nextVar, n.name ++ "_val", .scalar s⟩) = some test →
      Computes c w S id u
        ⟨writeBack c id (.var position) (argReduceStmts extent axis op s index
          ⟨u₁.nextVar, n.name ++ "_val", .scalar s⟩ position test p), .var position⟩ u'

end

/-! ### What steps of an expansion do -/

variable {c : Context} {s s' : State} {id : Nat} {hint : String} {ty : Ty} {v : Var}

theorem freshVar_eq_ok (h : freshVar hint ty s = .ok (v, s')) :
    v = ⟨s.nextVar, hint, ty⟩ ∧ s' = { s with nextVar := s.nextVar + 1 } := by
  rw [freshVar, step_get_bind_eq_ok, step_lift_bind_eq_ok] at h
  obtain ⟨next, hnext, h⟩ := h
  obtain ⟨-, rfl⟩ := Word.nextId_eq_ok.mp hnext
  rw [step_set_bind_eq_ok, step_pure_eq_ok] at h
  exact Prod.mk.inj h

/-- Storage is made for a node, or has been. -/
theorem createdFor_eq_ok (h : createdFor id hint ty s = .ok (v, s')) :
    Creates id hint ty s.supply v s'.supply := by
  rw [createdFor, step_get_bind_eq_ok] at h
  match hfind : s.created.find? id with
  | some x =>
      rw [hfind] at h
      obtain ⟨rfl, rfl⟩ := Prod.mk.inj (step_pure_eq_ok.mp h)
      exact .again hfind
  | none =>
      rw [hfind] at h
      obtain ⟨x, s₁, hx, h⟩ := step_bind_eq_ok.mp h
      obtain ⟨rfl, rfl⟩ := freshVar_eq_ok hx
      rw [step_modify_bind_eq_ok, step_pure_eq_ok] at h
      obtain ⟨rfl, rfl⟩ := Prod.mk.inj h
      exact .fresh hfind

/-- A buffer is given for a node, or made. -/
theorem bufferFor_eq_ok (h : bufferFor c id hint ty s = .ok (v, s')) :
    Allots c id hint ty s.supply v s'.supply := by
  unfold bufferFor at h
  match hfind : c.given.find? id with
  | some x =>
      rw [hfind] at h
      obtain ⟨rfl, rfl⟩ := Prod.mk.inj (step_pure_eq_ok.mp h)
      exact .given hfind
  | none =>
      rw [hfind] at h
      exact .made hfind (createdFor_eq_ok h)

theorem closeLoops_eq_ok {n : Nat} {a : Unit} (h : closeLoops n s = .ok (a, s')) :
    s'.supply = s.supply := by
  rw [closeLoops, step_get_bind_eq_ok] at h
  split at h
  · obtain ⟨-, rfl⟩ := Prod.mk.inj (Except.ok.inj h)
    rfl
  · exact absurd h step_throw_ne_ok

theorem improves_eq_ok {op : Reduction} {candidate best test : Expr}
    (h : improves op candidate best = .ok test) : op.better? candidate best = some test := by
  unfold improves at h
  split at h
  · rw [← Except.ok.inj h]
    assumption
  · exact nomatch h

section Reductions

variable {f : Nat → Step Piece} {n : Node} {value : Expr} {op : Reduction} {p : Piece}

/-- A reduction takes its accumulator first and then expands its value. -/
theorem expandReduce_eq_ok {shape : List Nat} {axes : List Var}
    (h : expandReduce c f id n shape axes value op s = .ok (p, s')) :
    ∃ (t : Scalar) (acc : Var) (s₁ : State) (q : Piece) (s₂ : State) (count : Nat),
      c.graph.typeOf value = .ok t ∧
      Creates id n.name (.scalar t) s.supply acc s₁.supply ∧ expandExpr f value s₁ = .ok (q, s₂) ∧
      s'.supply = s₂.supply ∧ Word.product shape = .ok count ∧
      p = ⟨writeBack c id (op.finalize (.var acc) count) (reduceStmts shape axes op t acc q),
        op.finalize (.var acc) count⟩ := by
  cases hop : op.isArg with
  | true =>
      simp only [expandReduce, hop, if_true] at h
      obtain ⟨_, _, h, -⟩ := step_bind_eq_ok.mp h
      exact absurd h step_throw_ne_ok
  | false =>
      simp only [expandReduce, hop, Bool.false_eq_true, if_false] at h
      rw [step_lift_bind_eq_ok] at h
      obtain ⟨t, htype, h⟩ := h
      obtain ⟨acc, s₁, hacc, h⟩ := step_bind_eq_ok.mp h
      rw [openLoops, step_modify_bind_eq_ok] at h
      obtain ⟨q, s₂, hq, h⟩ := step_bind_eq_ok.mp h
      obtain ⟨_, s₃, hclose, h⟩ := step_bind_eq_ok.mp h
      rw [step_lift_bind_eq_ok] at h
      obtain ⟨count, hcount, h⟩ := h
      obtain ⟨rfl, rfl⟩ := Prod.mk.inj (step_pure_eq_ok.mp h)
      have hacc := createdFor_eq_ok hacc
      exact ⟨t, acc, { s₁ with depth := s₁.depth + (axes.zip shape).length }, q, s₂, count, htype,
        hacc, hq, closeLoops_eq_ok hclose, hcount, rfl⟩

/-- An arg-reduction takes the variable of its position, then that of the best value, and then
expands its value. -/
theorem expandArgReduce_eq_ok {extent : Nat} {axis : Var} {index : Scalar}
    (h : expandArgReduce c f id n extent axis value op index s = .ok (p, s')) :
    ∃ (t : Scalar) (position : Var) (s₁ : State) (q : Piece) (s₂ : State) (test : Expr),
      c.graph.typeOf value = .ok t ∧
      Creates id (n.name ++ "_idx") (.scalar index) s.supply position s₁.supply ∧
      expandExpr f value { s₁ with nextVar := s₁.nextVar + 1 } = .ok (q, s₂) ∧
      s'.supply = s₂.supply ∧
      op.better? q.value (.var ⟨s₁.nextVar, n.name ++ "_val", .scalar t⟩) = some test ∧
      p = ⟨writeBack c id (.var position) (argReduceStmts extent axis op t index
        ⟨s₁.nextVar, n.name ++ "_val", .scalar t⟩ position test q), .var position⟩ := by
  simp only [expandArgReduce] at h
  rw [step_lift_bind_eq_ok] at h
  obtain ⟨t, htype, h⟩ := h
  obtain ⟨position, s₁, hposition, h⟩ := step_bind_eq_ok.mp h
  obtain ⟨best, s₂, hbest, h⟩ := step_bind_eq_ok.mp h
  obtain ⟨rfl, rfl⟩ := freshVar_eq_ok hbest
  rw [openLoops, step_modify_bind_eq_ok] at h
  obtain ⟨q, s₃, hq, h⟩ := step_bind_eq_ok.mp h
  rw [step_lift_bind_eq_ok] at h
  obtain ⟨test, htest, h⟩ := h
  obtain ⟨_, s₄, hclose, h⟩ := step_bind_eq_ok.mp h
  obtain ⟨rfl, rfl⟩ := Prod.mk.inj (step_pure_eq_ok.mp h)
  have hposition := createdFor_eq_ok hposition
  exact ⟨t, position, { s₁ with depth := s₁.depth + 1 }, q, s₃, test, htype, hposition, hq,
    closeLoops_eq_ok hclose, improves_eq_ok htest, rfl⟩

end Reductions

/-! ### Expanding what is well scoped -/

/-- A step by which nodes are expanded, with or without a watch for cycles. -/
inductive Expander (c : Context) : (Nat → Step Piece) → Prop where
  | plain (k : Nat) : Expander c (expandNode c k)
  | watched (k : Nat) (visits : List Visit) : Expander c (expandUnder c k visits)

/-- A node is expanded by its definition. -/
theorem Expander.defined {f : Nat → Step Piece} (hf : Expander c f) {p : Piece}
    (h : f id s = .ok (p, s')) :
    ∃ f', Expander c f' ∧ expandDefined c f' id s = .ok (p, s') := by
  match hf with
  | .plain 0 => exact absurd h step_throw_ne_ok
  | .plain (k + 1) => exact ⟨_, .plain k, h⟩
  | .watched 0 _ => exact absurd h step_throw_ne_ok
  | .watched (k + 1) visits =>
      rw [expandUnder, step_get_bind_eq_ok] at h
      cases hv : visits.find? (·.id = id) with
      | none =>
          rw [hv] at h
          exact ⟨_, .watched k _, h⟩
      | some v =>
          simp only [hv] at h
          split at h
          · obtain ⟨_, _, h, -⟩ := step_bind_eq_ok.mp h
            exact absurd h step_throw_ne_ok
          · exact ⟨_, .watched k _, h⟩

/-- A node is expanded by its kind and its definition. -/
theorem expandDefined_node {f : Nat → Step Piece} {n : Node} (hn : c.graph.node? id = some n) :
    expandDefined c f id s = (match n.kind, n.compute with
      | _, none =>
          match c.given.find? id with
          | some v => return ⟨[], .var v⟩
          | none   => throw (.expansion (.noStorage n.kind.name n.name))
      | .tensor _ _, some (.grid shape axes value) => expandGrid c f id n shape axes value
      | .scalar _, some (.reduce shape axes value op) => expandReduce c f id n shape axes value op
      | .scalar _, some (.argReduce extent axis value op index) =>
          expandArgReduce c f id n extent axis value op index
      | kind, some compute =>
          throw (.expansion (.mismatch compute.pattern kind.name n.name)) : Step Piece) s := by
  rw [expandDefined, Graph.node_eq_ok.mpr hn]
  rfl

/-- An input is expanded to the storage that is given for it. -/
theorem expandDefined_input {f : Nat → Step Piece} {n : Node} {r : Piece × State}
    (hn : c.graph.node? id = some n) (hc : n.compute = none) (h : expandDefined c f id s = .ok r) :
    ∃ v, c.given.find? id = some v ∧ r = (⟨[], .var v⟩, s) := by
  rw [expandDefined_node hn, hc] at h
  cases hv : c.given.find? id with
  | none =>
      rw [hv] at h
      exact absurd h step_throw_ne_ok
  | some v =>
      rw [hv] at h
      exact ⟨v, rfl, step_pure_eq_ok.mp h⟩

/-- Items that expand one by one expand as a list. -/
theorem expandExprs_eq_ok {f : Nat → Step Piece} {w : Nat} {S : List Var} {es : List Expr}
    (he : ∀ e ∈ es, ∀ s p s', expandExpr f e s = .ok (p, s') →
      Expands c w S e s.supply p s'.supply) {s s' : State} {ss : List Stmt} {vs : List Expr}
    (h : expandExprs f es s = .ok ((ss, vs), s')) :
    ExpandsList c w S es s.supply ss vs s'.supply := by
  induction es generalizing s ss vs with
  | nil =>
      obtain ⟨hp, rfl⟩ := Prod.mk.inj (step_pure_eq_ok.mp h)
      obtain ⟨rfl, rfl⟩ := Prod.mk.inj hp
      exact .nil
  | cons e es ih =>
      obtain ⟨he, hes⟩ := List.forall_mem_cons.mp he
      obtain ⟨p, s₁, hp, h⟩ := step_bind_eq_ok.mp h
      obtain ⟨⟨ss', vs'⟩, s₂, hss, h⟩ := step_bind_eq_ok.mp h
      obtain ⟨hq, rfl⟩ := Prod.mk.inj (step_pure_eq_ok.mp h)
      obtain ⟨rfl, rfl⟩ := Prod.mk.inj hq
      exact .cons (he s p s₁ hp) (ih hes hss)

mutual

/-- **What a scoped expression is expanded to**, and a node that unfolds. -/
theorem expandExpr_eq_ok {w : Nat} : ∀ {S e}, c.graph.Scoped w S e → ∀ {f}, Expander c f →
    ∀ {s p s'}, expandExpr f e s = .ok (p, s') → Expands c w S e s.supply p s'.supply
  | _, _, .var hv, _, _, _, _, _, h => by
      obtain ⟨rfl, rfl⟩ := Prod.mk.inj (step_pure_eq_ok.mp h)
      exact .var hv
  | _, _, .const, _, _, _, _, _, h => by
      obtain ⟨rfl, rfl⟩ := Prod.mk.inj (step_pure_eq_ok.mp h)
      exact .const
  | _, _, .node hn hk hu, _, hf, _, _, _, h => by
      obtain ⟨f', hf', h⟩ := hf.defined h
      exact .node hn hk (expandDefined_eq_ok hu hf' h)
  | _, _, .binary hl hr, _, hf, _, _, _, h => by
      obtain ⟨p, s₁, hp, h⟩ := step_bind_eq_ok.mp h
      obtain ⟨q, s₂, hq, h⟩ := step_bind_eq_ok.mp h
      obtain ⟨rfl, rfl⟩ := Prod.mk.inj (step_pure_eq_ok.mp h)
      exact .binary (expandExpr_eq_ok hl hf hp) (expandExpr_eq_ok hr hf hq)
  | _, _, .unary he, _, hf, _, _, _, h => by
      obtain ⟨p, s₁, hp, h⟩ := step_bind_eq_ok.mp h
      obtain ⟨rfl, rfl⟩ := Prod.mk.inj (step_pure_eq_ok.mp h)
      exact .unary (expandExpr_eq_ok he hf hp)
  | _, _, .cast he, _, hf, _, _, _, h => by
      obtain ⟨p, s₁, hp, h⟩ := step_bind_eq_ok.mp h
      obtain ⟨rfl, rfl⟩ := Prod.mk.inj (step_pure_eq_ok.mp h)
      exact .cast (expandExpr_eq_ok he hf hp)
  | _, _, .element hn hk hu hidxs, _, hf, _, _, _, h => by
      obtain ⟨p, s₁, hp, h⟩ := step_bind_eq_ok.mp h
      obtain ⟨⟨ss, is⟩, s₂, hss, h⟩ := step_bind_eq_ok.mp h
      obtain ⟨rfl, rfl⟩ := Prod.mk.inj (step_pure_eq_ok.mp h)
      obtain ⟨f', hf', hp⟩ := hf.defined hp
      exact .element hn hk (expandDefined_eq_ok hu hf' hp)
        (expandExprs_eq_ok (fun e he _ _ _ h => expandExpr_eq_ok (hidxs e he) hf h) hss)

/-- **Expanding a node that makes sense gives related code.** -/
theorem expandDefined_eq_ok {w : Nat} : ∀ {S id}, c.graph.Unfolds w S id → ∀ {f}, Expander c f →
    ∀ {s p s'}, expandDefined c f id s = .ok (p, s') → Computes c w S id s.supply p s'.supply
  | _, _, .input hn hc, _, _, _, _, _, h => by
      obtain ⟨v, hv, h⟩ := expandDefined_input hn hc h
      obtain ⟨rfl, rfl⟩ := Prod.mk.inj h
      exact .input hn hc hv
  | _, _, .computed (c := .grid shape axes value) (n := n) hn hc hwf hv, _, hf, _, _, _, h => by
      obtain ⟨k, hk⟩ := Compute.kind_of_grid hwf.suits
      rw [expandDefined_node hn, hk, hc] at h
      obtain ⟨buf, s₁, hbuf, h⟩ := step_bind_eq_ok.mp h
      rw [openLoops, step_modify_bind_eq_ok] at h
      obtain ⟨p, s₂, hp, h⟩ := step_bind_eq_ok.mp h
      obtain ⟨_, s₃, hclose, h⟩ := step_bind_eq_ok.mp h
      obtain ⟨rfl, rfl⟩ := Prod.mk.inj (step_pure_eq_ok.mp h)
      have hvalue := expandExpr_eq_ok hv hf hp
      rw [closeLoops_eq_ok hclose]
      exact .grid hn hk hc hwf (bufferFor_eq_ok hbuf) hvalue
  | _, _, .computed (c := .reduce shape axes value op) (n := n) hn hc hwf hv, _, hf, _, _, _, h => by
      obtain ⟨⟨k, hk⟩, -⟩ := Compute.kind_of_reduce hwf.suits
      rw [expandDefined_node hn, hk, hc] at h
      obtain ⟨t, acc, s₁, p, s₂, count, htype, hacc, hp, hsame, hcount, rfl⟩ := expandReduce_eq_ok h
      rw [hsame]
      exact .reduce hn hk hc hwf htype hcount hacc (expandExpr_eq_ok hv hf hp)
  | _, _, .computed (c := .argReduce extent axis value op index) hn hc hwf hv, _, hf, _, _, _, h => by
      obtain ⟨k, hk⟩ := Compute.kind_of_argReduce hwf.suits
      rw [expandDefined_node hn, hk, hc] at h
      obtain ⟨t, position, s₁, p, s₂, test, htype, hposition, hp, hsame, htest, rfl⟩ :=
        expandArgReduce_eq_ok h
      rw [hsame]
      exact .argReduce hn hk hc hwf htype hposition (expandExpr_eq_ok hv hf hp) htest

end

/-! ### What has been expanded is well scoped -/

section Scoped

variable {w : Nat}

mutual

/-- An expression that was expanded is scoped, and a node unfolds. -/
theorem Expands.scoped : ∀ {S e u p u'}, Expands c w S e u p u' → c.graph.Scoped w S e
  | _, _, _, _, _, .var hv => .var hv
  | _, _, _, _, _, .const => .const
  | _, _, _, _, _, .node hn hk h => .node hn hk h.unfolds
  | _, _, _, _, _, .binary hl hr => .binary hl.scoped hr.scoped
  | _, _, _, _, _, .unary h => .unary h.scoped
  | _, _, _, _, _, .cast h => .cast h.scoped
  | _, _, _, _, _, .element hn hk h hs => .element hn hk h.unfolds hs.scoped

theorem ExpandsList.scoped : ∀ {S es u ss vs u'}, ExpandsList c w S es u ss vs u' →
    ∀ e ∈ es, c.graph.Scoped w S e
  | _, _, _, _, _, _, .nil => nofun
  | _, _, _, _, _, _, .cons h hs => List.forall_mem_cons.mpr ⟨h.scoped, hs.scoped⟩

theorem Computes.unfolds : ∀ {S id u p u'}, Computes c w S id u p u' → c.graph.Unfolds w S id
  | _, _, _, _, _, .input hn hc _ => .input hn hc
  | _, _, _, _, _, .grid hn _ hc hwf _ h => .computed hn hc hwf h.scoped
  | _, _, _, _, _, .reduce hn _ hc hwf _ _ _ h => .computed hn hc hwf h.scoped
  | _, _, _, _, _, .argReduce hn _ hc hwf _ _ h _ => .computed hn hc hwf h.scoped

end

end Scoped

end Expansion

end TensorLoops
