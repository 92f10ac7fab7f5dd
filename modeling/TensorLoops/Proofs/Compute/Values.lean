import TensorLoops.Proofs.Compute.Drafts

/-!
# Proofs — Compute — Values

The values that expansion gives, over any graph.  `Becomes c e u v u'` says that the expression `e`
becomes the value `v` while the storage made and the next variable id go from `u` to `u'`, and
`Stands c id u v u'` says it of a node.  Unlike `Expands` the relations ask nothing of the graph: it
may mention variables that are nowhere in scope, or nodes in any order.  What they leave out is the
code, which the value does not depend on.

Whatever was expanded is related (`becomes_from_firstVar`).
-/

namespace TensorLoops

namespace Expansion

mutual

/-- Expression `e` becomes the value `v`. -/
inductive Becomes (c : Context) : Expr → Supply → Expr → Supply → Prop where
  | var {v u} : Becomes c (.var v) u (.var v) u
  | const {value s u} : Becomes c (.const value s) u (.const value s) u
  | node {id u v u'} : Stands c id u v u' → Becomes c (.node id) u v u'
  | binary {op lhs rhs u l u₁ r u'} : Becomes c lhs u l u₁ → Becomes c rhs u₁ r u' →
      Becomes c (.binary op lhs rhs) u (.binary op l r) u'
  | unary {op e u v u'} : Becomes c e u v u' → Becomes c (.unary op e) u (.unary op v) u'
  | cast {e ty u v u'} : Becomes c e u v u' → Becomes c (.cast e ty) u (.cast v ty) u'
  | element {base idxs u b u₁ vs u'} : Becomes c base u b u₁ → BecomesList c idxs u₁ vs u' →
      Becomes c (.element base idxs) u (.element b vs) u'
  | call {func args u vs u'} : BecomesList c args u vs u' →
      Becomes c (.call func args) u (.call func vs) u'

/-- Expressions become values, from left to right. -/
inductive BecomesList (c : Context) : List Expr → Supply → List Expr → Supply → Prop where
  | nil {u} : BecomesList c [] u [] u
  | cons {e es u v u₁ vs u'} : Becomes c e u v u₁ → BecomesList c es u₁ vs u' →
      BecomesList c (e :: es) u (v :: vs) u'

/-- Node `id` stands for the value `v`. -/
inductive Stands (c : Context) : Nat → Supply → Expr → Supply → Prop where
  | input {id n x u} : c.graph.node? id = some n → n.compute = none →
      c.given.find? id = some x → Stands c id u (.var x) u
  | grid {id n shape axes value u buf u₁ v u'} : c.graph.node? id = some n →
      n.compute = some (.grid shape axes value) → Allots c id n.name n.kind.storage u buf u₁ →
      Becomes c value u₁ v u' → Stands c id u (.var buf) u'
  | reduce {id n shape axes value op s count u acc u₁ v u'} : c.graph.node? id = some n →
      n.compute = some (.reduce shape axes value op) → c.graph.typeOf value = .ok s →
      Creates id n.name (.scalar s) u acc u₁ → Becomes c value u₁ v u' →
      Stands c id u (op.finalize (.var acc) count) u'
  | argReduce {id n extent axis value op index u position u₁ v u'} :
      c.graph.node? id = some n → n.compute = some (.argReduce extent axis value op index) →
      Creates id (n.name ++ "_idx") (.scalar index) u position u₁ →
      Becomes c value ⟨u₁.created, u₁.nextVar + 1⟩ v u' → Stands c id u (.var position) u'

end

variable {c : Context} {f : Nat → Step Piece}

/-- Nodes that are expanded by `f` stand for what they become. -/
def Faithful (c : Context) (f : Nat → Step Piece) : Prop :=
  ∀ id s p s', f id s = .ok (p, s') → Stands c id s.supply p.value s'.supply

mutual

/-- Expressions become what they should, if nodes do. -/
theorem Faithful.becomes (hf : Faithful c f) : ∀ {e : Expr} {s s' : State} {p : Piece},
    expandExpr f e s = .ok (p, s') → Becomes c e s.supply p.value s'.supply
  | .var _, _, _, _, h => by
      obtain ⟨rfl, rfl⟩ := Prod.mk.inj (step_pure_eq_ok.mp h)
      exact .var
  | .const _ _, _, _, _, h => by
      obtain ⟨rfl, rfl⟩ := Prod.mk.inj (step_pure_eq_ok.mp h)
      exact .const
  | .node _, _, _, _, h => .node (hf _ _ _ _ h)
  | .binary _ _ _, _, _, _, h => by
      obtain ⟨l, s₁, hl, h⟩ := step_bind_eq_ok.mp h
      obtain ⟨r, s₂, hr, h⟩ := step_bind_eq_ok.mp h
      obtain ⟨rfl, rfl⟩ := Prod.mk.inj (step_pure_eq_ok.mp h)
      exact .binary (hf.becomes hl) (hf.becomes hr)
  | .unary _ _, _, _, _, h => by
      obtain ⟨p, s₁, hp, h⟩ := step_bind_eq_ok.mp h
      obtain ⟨rfl, rfl⟩ := Prod.mk.inj (step_pure_eq_ok.mp h)
      exact .unary (hf.becomes hp)
  | .cast _ _, _, _, _, h => by
      obtain ⟨p, s₁, hp, h⟩ := step_bind_eq_ok.mp h
      obtain ⟨rfl, rfl⟩ := Prod.mk.inj (step_pure_eq_ok.mp h)
      exact .cast (hf.becomes hp)
  | .element _ _, _, _, _, h => by
      obtain ⟨b, s₁, hb, h⟩ := step_bind_eq_ok.mp h
      obtain ⟨⟨ss, vs⟩, s₂, hvs, h⟩ := step_bind_eq_ok.mp h
      obtain ⟨rfl, rfl⟩ := Prod.mk.inj (step_pure_eq_ok.mp h)
      exact .element (hf.becomes hb) (hf.becomesList hvs)
  | .call _ _, _, _, _, h => by
      obtain ⟨⟨ss, vs⟩, s₂, hvs, h⟩ := step_bind_eq_ok.mp h
      obtain ⟨rfl, rfl⟩ := Prod.mk.inj (step_pure_eq_ok.mp h)
      exact .call (hf.becomesList hvs)

theorem Faithful.becomesList (hf : Faithful c f) :
    ∀ {es : List Expr} {s s' : State} {ss : List Stmt} {vs : List Expr},
      expandExprs f es s = .ok ((ss, vs), s') → BecomesList c es s.supply vs s'.supply
  | [], _, _, _, _, h => by
      obtain ⟨hp, rfl⟩ := Prod.mk.inj (step_pure_eq_ok.mp h)
      obtain ⟨rfl, rfl⟩ := Prod.mk.inj hp
      exact .nil
  | _ :: _, _, _, _, _, h => by
      obtain ⟨p, s₁, hp, h⟩ := step_bind_eq_ok.mp h
      obtain ⟨⟨ss, vs⟩, s₂, hvs, h⟩ := step_bind_eq_ok.mp h
      obtain ⟨hq, rfl⟩ := Prod.mk.inj (step_pure_eq_ok.mp h)
      obtain ⟨rfl, rfl⟩ := Prod.mk.inj hq
      exact .cons (hf.becomes hp) (hf.becomesList hvs)

end

section Definitions

variable {id : Nat} {n : Node} {s s' : State} {p : Piece}

/-- A grid stands for its buffer. -/
theorem Faithful.grid (hf : Faithful c f) {shape : List Nat} {axes : List Var} {value : Expr}
    (hn : c.graph.node? id = some n) (hc : n.compute = some (.grid shape axes value))
    (h : expandGrid c f id n shape axes value s = .ok (p, s')) :
    Stands c id s.supply p.value s'.supply := by
  obtain ⟨buf, s₁, hbuf, h⟩ := step_bind_eq_ok.mp h
  rw [openLoops, step_modify_bind_eq_ok] at h
  obtain ⟨q, s₂, hq, h⟩ := step_bind_eq_ok.mp h
  obtain ⟨_, s₃, hclose, h⟩ := step_bind_eq_ok.mp h
  obtain ⟨rfl, rfl⟩ := Prod.mk.inj (step_pure_eq_ok.mp h)
  have hvalue := hf.becomes hq
  rw [closeLoops_eq_ok hclose]
  exact .grid hn hc (bufferFor_eq_ok hbuf) hvalue

/-- A reduction stands for its accumulator, finished. -/
theorem Faithful.reduce (hf : Faithful c f) {shape : List Nat} {axes : List Var} {value : Expr}
    {op : Reduction} (hn : c.graph.node? id = some n)
    (hc : n.compute = some (.reduce shape axes value op))
    (h : expandReduce c f id n shape axes value op s = .ok (p, s')) :
    Stands c id s.supply p.value s'.supply := by
  obtain ⟨t, acc, s₁, q, s₂, count, htype, hacc, hq, hsame, -, rfl⟩ := expandReduce_eq_ok h
  rw [hsame]
  exact .reduce hn hc htype hacc (hf.becomes hq)

/-- An arg-reduction stands for the variable of its position. -/
theorem Faithful.argReduce (hf : Faithful c f) {extent : Nat} {axis : Var} {value : Expr}
    {op : Reduction} {index : Scalar} (hn : c.graph.node? id = some n)
    (hc : n.compute = some (.argReduce extent axis value op index))
    (h : expandArgReduce c f id n extent axis value op index s = .ok (p, s')) :
    Stands c id s.supply p.value s'.supply := by
  obtain ⟨t, position, s₁, q, s₂, test, -, hposition, hq, hsame, -, rfl⟩ := expandArgReduce_eq_ok h
  rw [hsame]
  exact .argReduce hn hc hposition (hf.becomes hq)

/-- A node that is expanded by its definition stands for what it becomes. -/
theorem Faithful.defined (hf : Faithful c f) : Faithful c (expandDefined c f) := by
  intro id s p s' h
  obtain ⟨n, hnode, -⟩ := step_lift_bind_eq_ok.mp h
  have hn := Graph.node_eq_ok.mp hnode
  match hc : n.compute with
  | none =>
      obtain ⟨v, hv, h⟩ := expandDefined_input hn hc h
      obtain ⟨rfl, rfl⟩ := Prod.mk.inj h
      exact .input hn hc hv
  | some (.grid shape axes value) =>
      rw [expandDefined_node hn, hc] at h
      cases hk : n.kind with
      | tensor => exact hf.grid hn hc (by rwa [hk] at h)
      | scalar => exact absurd (by rwa [hk] at h) step_throw_ne_ok
  | some (.reduce shape axes value op) =>
      rw [expandDefined_node hn, hc] at h
      cases hk : n.kind with
      | tensor => exact absurd (by rwa [hk] at h) step_throw_ne_ok
      | scalar => exact hf.reduce hn hc (by rwa [hk] at h)
  | some (.argReduce extent axis value op index) =>
      rw [expandDefined_node hn, hc] at h
      cases hk : n.kind with
      | tensor => exact absurd (by rwa [hk] at h) step_throw_ne_ok
      | scalar => exact hf.argReduce hn hc (by rwa [hk] at h)

end Definitions

/-- **Expansion is faithful**, whatever its allowance. -/
theorem faithful_expandNode : ∀ k, Faithful c (expandNode c k)
  | 0 => fun _ _ _ _ h => absurd h step_throw_ne_ok
  | k + 1 => (faithful_expandNode k).defined

/-- Expansion is faithful under a watch for cycles, too. -/
theorem faithful_expandUnder : ∀ k visits, Faithful c (expandUnder c k visits)
  | 0, _ => fun _ _ _ _ h => absurd h step_throw_ne_ok
  | k + 1, visits => by
      intro id s p s' h
      rw [expandUnder, step_get_bind_eq_ok] at h
      -- the visits decide only whether to give up; a success comes from the definition either way
      have hdefined := (faithful_expandUnder k (⟨id, s⟩ :: visits)).defined id s p s'
      cases hv : visits.find? (·.id = id) with
      | none =>
          rw [hv] at h
          exact hdefined h
      | some v =>
          simp only [hv] at h
          split at h
          · obtain ⟨_, _, h, -⟩ := step_bind_eq_ok.mp h
            exact absurd h step_throw_ne_ok
          · exact hdefined h

theorem Expander.faithful {f : Nat → Step Piece} (hf : Expander c f) : Faithful c f := by
  cases hf with
  | plain k => exact faithful_expandNode k
  | watched k visits => exact faithful_expandUnder k visits

/-- **What is expanded becomes its value**, with ids from the first free one on. -/
theorem becomes_from_firstVar {g : Graph} {e : Expr} {given : Storage} {x : Expansion}
    (h : g.expand e given = .ok x) :
    ∃ next, firstVar ⟨g, given⟩ 0 = .ok next ∧
      Becomes ⟨g, given⟩ e ⟨.empty, next⟩ x.value ⟨x.created, x.nextVar⟩ := by
  obtain ⟨next, hnext, h⟩ := bind_eq_ok.mp h
  obtain ⟨⟨p, s⟩, hall, h⟩ := bind_eq_ok.mp h
  obtain rfl := pure_eq_ok.mp h
  obtain ⟨f, hf, hexpand⟩ := expandAll_eq_ok hall
  exact ⟨next, hnext, hf.faithful.becomes hexpand⟩

theorem becomes_of_expand {g : Graph} {e : Expr} {given : Storage} {x : Expansion}
    (h : g.expand e given = .ok x) :
    ∃ next, Becomes ⟨g, given⟩ e ⟨.empty, next⟩ x.value ⟨x.created, x.nextVar⟩ := by
  obtain ⟨next, -, hbecomes⟩ := becomes_from_firstVar h
  exact ⟨next, hbecomes⟩

end Expansion

end TensorLoops
