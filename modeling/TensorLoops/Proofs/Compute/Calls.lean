import TensorLoops.Proofs.Source.Growth

/-!
# Proofs — Compute — Calls

Graphs that are built by calls.  A client makes inputs, axes and computed nodes in any order and
with any values (`Call`); a call that fails leaves the graph as it was.  What one call can do is
said once (`Call.effect`): at most it takes an id, or adds a node at the end whose definition has
passed the checks (`Node.Admissible`).  What holds of every graph built this way follows by
induction over the calls (`Graph.after_induction`).

The checks ask for a type, and type inference does not look everywhere: the nodes that a value
mentions are those it looks at (`Expr.shown`) and the others, in the operands of casts, among
indices and in arguments (`Expr.hidden`).
-/

namespace TensorLoops

/-! ### Nodes that type inference looks at -/

namespace Expr

/-- The mentioned nodes that type inference looks at. -/
def shown : Expr → List Nat
  | .node id          => [id]
  | .binary _ lhs rhs => lhs.shown ++ rhs.shown
  | .unary _ operand  => operand.shown
  | .element base _   => base.shown
  | _                 => []

/-- The mentioned nodes that type inference does not look at. -/
def hidden : Expr → List Nat
  | .binary _ lhs rhs  => lhs.hidden ++ rhs.hidden
  | .unary _ operand   => operand.hidden
  | .cast operand _    => operand.nodes
  | .element base idxs => base.hidden ++ nodesList idxs
  | .call _ args       => nodesList args
  | _                  => []

/-- Type inference looks at a mentioned node or it does not. -/
theorem mem_nodes_iff {i : Nat} : ∀ {e : Expr}, i ∈ e.nodes ↔ i ∈ e.shown ∨ i ∈ e.hidden
  | .var _ | .const _ _ | .node _ | .cast _ _ | .call _ _ => by simp [nodes, shown, hidden]
  | .binary _ lhs rhs => by
      simp only [nodes, shown, hidden, List.mem_append, mem_nodes_iff (e := lhs),
        mem_nodes_iff (e := rhs)]
      exact or_or_or_comm
  | .unary _ operand => mem_nodes_iff (e := operand)
  | .element base _ => by
      simp only [nodes, shown, hidden, List.mem_append, mem_nodes_iff (e := base), or_assoc]

end Expr

namespace Graph

variable {g g' : Graph}

/-- A node that the graph gives is one of its positions. -/
theorem lt_size_of_node {id : Nat} {n : Node} (h : g.node id = .ok n) : id < g.size :=
  lt_size_of_node? (node_eq_ok.mp h)

/-- Where an expression has a type, the graph has the nodes that were looked at. -/
theorem lt_size_of_typeOf : ∀ {e : Expr} {s : Scalar}, g.typeOf e = .ok s →
    ∀ i ∈ e.shown, i < g.size
  | .var _, _, _, _, hi | .const _ _, _, _, _, hi | .cast _ _, _, _, _, hi
  | .call _ _, _, _, _, hi =>
      absurd hi List.not_mem_nil
  | .node id, _, h, i, hi => by
      obtain ⟨n, hn, -⟩ := bind_eq_ok.mp h
      exact List.mem_singleton.mp hi ▸ lt_size_of_node hn
  | .binary _ lhs rhs, _, h, i, hi => by
      obtain ⟨s₁, hl, h⟩ := bind_eq_ok.mp h
      obtain ⟨s₂, hr, -⟩ := bind_eq_ok.mp h
      rcases List.mem_append.mp hi with hi | hi
      · exact lt_size_of_typeOf hl i hi
      · exact lt_size_of_typeOf hr i hi
  | .unary _ operand, _, h, i, hi => by
      obtain ⟨s₁, he, -⟩ := bind_eq_ok.mp h
      exact lt_size_of_typeOf he i hi
  | .element (.node id) _, _, h, i, hi => by
      obtain ⟨n, hn, -⟩ := bind_eq_ok.mp h
      exact List.mem_singleton.mp hi ▸ lt_size_of_node hn
  | .element (.var _) _, _, _, _, hi => absurd hi List.not_mem_nil
  | .element (.const _ _) _, _, h, _, _ | .element (.binary _ _ _) _, _, h, _, _
  | .element (.unary _ _) _, _, h, _, _ | .element (.cast _ _) _, _, h, _, _
  | .element (.element _ _) _, _, h, _, _ | .element (.call _ _) _, _, h, _, _ => nomatch h

end Graph

/-! ### One call -/

/-- A call that makes an input, an axis or a computed node. -/
inductive Call where
  | tensorInput (name : String) (s : Scalar) (shape : List Nat)
  | scalarInput (name : String) (s : Scalar)
  | newAxis (hint : String)
  | addGrid (name : String) (shape : List Nat) (axes : List Var) (value : Expr)
  | addReduce (name : String) (shape : List Nat) (axes : List Var) (value : Expr) (op : Reduction)
  | addArgReduce (name : String) (extent : Nat) (axis : Var) (value : Expr) (op : Reduction)
      (index : Scalar)
deriving Repr

/-- The graph after an update, whether or not it fails. -/
def Graph.Update.after {α : Type} (u : Graph.Update α) (g : Graph) : Graph := (u.run.run g).2

/-- The graph after a call. -/
def Call.apply (g : Graph) : Call → Graph
  | .tensorInput name s shape           => (Graph.tensorInput name s shape).after g
  | .scalarInput name s                 => (Graph.scalarInput name s).after g
  | .newAxis hint                       => (Graph.newAxis hint).after g
  | .addGrid name shape axes value      => (Graph.addGrid name shape axes value).after g
  | .addReduce name shape axes value op => (Graph.addReduce name shape axes value op).after g
  | .addArgReduce name extent axis value op index =>
      (Graph.addArgReduce name extent axis value op index).after g

namespace Graph.Update

variable {α β : Type} {g : Graph}

/-- The update leaves the graph as it is. -/
def Looks (u : Update α) : Prop := ∀ g, u.after g = g

/-- The update leaves the graph as it is where it fails. -/
def Careful (u : Update α) : Prop := ∀ g e g', u.run.run g = (.error e, g') → g' = g

theorem looks_lift {x : Except Error α} : Looks (Update.lift x) := fun _ => rfl

theorem looks_throw {e : Error} : Looks (throw e : Update α) := fun _ => rfl

theorem looks_pure {a : α} : Looks (pure a : Update α) := fun _ => rfl

theorem looks_get : Looks (get : Update Graph) := fun _ => rfl

section Bind

variable {u : Update α} {f : α → Update β}

/-- What only looks at the graph leaves it to what comes next. -/
theorem Looks.run_bind (hu : Looks u) : (u >>= f).run.run g = match (u.run.run g).1 with
    | .ok a    => (f a).run.run g
    | .error e => (.error e, g) := by
  have hg := hu g
  unfold after at hg
  rw [ExceptT.run_bind, StateT.run_bind]
  rcases hrun : u.run.run g with ⟨e | a, g₁⟩
  · rw [hrun] at hg
    obtain rfl : g₁ = g := hg
    rfl
  · rw [hrun] at hg
    obtain rfl : g₁ = g := hg
    rfl

/-- Looking twice is looking. -/
theorem Looks.bind_looks (hu : Looks u) (hf : ∀ a, Looks (f a)) : Looks (u >>= f) := by
  intro g
  rw [after, hu.run_bind]
  split
  · exact hf _ g
  · rfl

/-- Where looking comes first, a failure still leaves the graph as it was. -/
theorem Looks.bind (hu : Looks u) (hf : ∀ a, Careful (f a)) : Careful (u >>= f) := by
  intro g e g' h
  rw [hu.run_bind] at h
  split at h
  · exact hf _ g e g' h
  · cases h
    rfl

end Bind

/-- A careful update fails and changes nothing, or does what it does where it succeeds. -/
theorem Careful.after_cases {u : Update α} (h : Careful u) (g : Graph) :
    u.after g = g ∨ ∃ a, Updates u g a (u.after g) := by
  unfold after Updates
  rcases hrun : u.run.run g with ⟨e | a, g'⟩
  · exact .inl (h g e g' hrun)
  · exact .inr ⟨a, rfl⟩

end Graph.Update

namespace Graph

open Update

theorem freshVar_careful {hint : String} {ty : Ty} : Careful (freshVar hint ty) :=
  looks_get.bind fun _ => looks_lift.bind fun _ _ _ _ h => nomatch h

theorem newAxis_careful {hint : String} : Careful (newAxis hint) := freshVar_careful

theorem addNode_careful {n : Node} : Careful (addNode n) := fun _ _ _ h => nomatch h

/-- Checking axes only looks at the graph. -/
theorem checkAxes_looks {shape : List Nat} {axes : List Var} : Looks (checkAxes shape axes) := by
  unfold checkAxes
  split
  · exact looks_pure
  · exact looks_throw

theorem inferType_looks {value : Expr} : Looks (inferType value) :=
  looks_get.bind_looks fun _ => looks_lift

/-- A check before the rest of an update. -/
theorem Update.Careful.check {α : Type} {c : Prop} [Decidable c] {e : Error} {f : PUnit → Update α}
    (hf : ∀ x, Careful (f x)) : Careful (if c then throw e >>= f else f ⟨⟩) := by
  split
  · exact looks_throw.bind hf
  · exact hf ⟨⟩

/-- A grid is checked before the graph is touched. -/
theorem addGrid_careful {name : String} {shape : List Nat} {axes : List Var} {value : Expr} :
    Careful (addGrid name shape axes value) :=
  checkAxes_looks.bind fun _ => inferType_looks.bind fun _ => addNode_careful

/-- A reduction is checked before the graph is touched. -/
theorem addReduce_careful {name : String} {shape : List Nat} {axes : List Var} {value : Expr}
    {op : Reduction} : Careful (addReduce name shape axes value op) := by
  unfold addReduce
  refine .check fun _ => ?_
  exact checkAxes_looks.bind fun _ => inferType_looks.bind fun _ => addNode_careful

/-- An arg-reduction is checked before the graph is touched. -/
theorem addArgReduce_careful {name : String} {extent : Nat} {axis : Var} {value : Expr}
    {op : Reduction} {index : Scalar} :
    Careful (addArgReduce name extent axis value op index) := by
  unfold addArgReduce
  refine .check fun _ => .check fun _ => ?_
  exact (inferType_looks.bind_looks fun _ => looks_pure).bind fun _ => addNode_careful

end Graph

/-- The node is an input, or its definition suits it and has a type in `g`. -/
def Node.Admissible (g : Graph) (n : Node) : Prop :=
  ∀ d, n.compute = some d → d.Suits n.kind ∧ d.axes.length = d.extents.length ∧ d.Typed g n.kind

/-- What may be added to a graph may be added to it later as well. -/
theorem Node.Admissible.mono {g g' : Graph} {n : Node} (hg : g.Extends g') (h : n.Admissible g) :
    n.Admissible g' := by
  intro d hd
  obtain ⟨hsuits, hlen, htyped⟩ := h d hd
  exact ⟨hsuits, hlen, htyped.mono hg⟩

/-- What a call can do. -/
inductive Call.Effect (g : Graph) : Graph → Prop where
  | nothing : Effect g g
  | axis : Effect g { g with nextVar := g.nextVar + 1 }
  | node {n} : n.Admissible g → Effect g (g.push n)

namespace Call

variable {g : Graph}

/-- The effect of a careful update is that of its success, since a failure has none. -/
theorem Effect.of_after {α : Type} {u : Graph.Update α} (hu : u.Careful)
    (h : ∀ a g', Graph.Updates u g a g' → Effect g g') : Effect g (u.after g) := by
  rcases hu.after_cases g with hg | ⟨a, ha⟩
  · rw [hg]
    exact .nothing
  · exact h a _ ha

/-- Adding an admissible node is an effect. -/
theorem Effect.of_addNode {n : Node} (hn : n.Admissible g) :
    Effect g ((Graph.addNode n).after g) := by
  refine .of_after Graph.addNode_careful fun id g' h => ?_
  obtain ⟨-, rfl⟩ := Graph.addNode_eq_ok h
  exact .node hn

/-- **What one call does**: nothing, an id more, or a node more that has passed the checks. -/
theorem effect (g : Graph) (c : Call) : Effect g (c.apply g) := by
  cases c with
  | tensorInput name s shape => exact .of_addNode nofun
  | scalarInput name s => exact .of_addNode nofun
  | newAxis hint =>
      refine .of_after Graph.newAxis_careful fun v g' h => ?_
      obtain ⟨-, rfl⟩ := Graph.freshVar_eq_ok h
      exact .axis
  | addGrid name shape axes value =>
      refine .of_after Graph.addGrid_careful fun id g' h => ?_
      obtain ⟨hlen, -, s, htype, rfl⟩ := Graph.addGrid_eq_ok h
      refine .node fun d hd => ?_
      cases hd
      exact ⟨rfl, hlen.symm, htype⟩
  | addReduce name shape axes value op =>
      refine .of_after Graph.addReduce_careful fun id g' h => ?_
      obtain ⟨hop, hlen, -, s, htype, rfl⟩ := Graph.addReduce_eq_ok h
      refine .node fun d hd => ?_
      cases hd
      exact ⟨hop, hlen.symm, htype⟩
  | addArgReduce name extent axis value op index =>
      refine .of_after Graph.addArgReduce_careful fun id g' h => ?_
      obtain ⟨hop, -, htype, rfl⟩ := Graph.addArgReduce_eq_ok h
      refine .node fun d hd => ?_
      cases hd
      exact ⟨hop, rfl, htype, rfl⟩

end Call

/-! ### Any number of calls -/

namespace Graph

variable {g g' : Graph}

/-- The graph after calls, from first to last. -/
def after (g : Graph) (calls : List Call) : Graph := calls.foldl (fun g c => c.apply g) g

/-- What holds at first and is kept by ids and by admissible nodes holds after any calls. -/
theorem after_induction {P : Graph → Prop} (hbase : P g)
    (haxis : ∀ g k, P g → P { g with nextVar := k })
    (hnode : ∀ g n, P g → n.Admissible g → P (g.push n)) (calls : List Call) :
    P (g.after calls) := by
  induction calls generalizing g with
  | nil => exact hbase
  | cons c calls ih =>
      -- of the call only its effect is used, so the graph after it can be any with that effect
      refine ih (g := c.apply g) ?_
      have heffect := c.effect g
      generalize c.apply g = g' at heffect
      cases heffect with
      | nothing => exact hbase
      | axis => exact haxis g _ hbase
      | node hn => exact hnode g _ hbase hn

/-- Definitions suit their nodes and have types. -/
def Consistent (g : Graph) : Prop :=
  ∀ (i : Nat) (n : Node), g.node? i = some n → n.Admissible g

/-- One more admissible node keeps a graph consistent. -/
theorem Consistent.push {n : Node} (hg : g.Consistent) (hn : n.Admissible g) :
    (g.push n).Consistent := by
  intro i m hm
  rcases of_node_push hm with hm | ⟨-, rfl, rfl⟩
  · exact (hg i m hm).mono extends_push
  · exact hn.mono extends_push

/-- Any number of calls keep a graph consistent. -/
theorem Consistent.after (hg : g.Consistent) (calls : List Call) : (g.after calls).Consistent :=
  after_induction hg (fun g k h i n hn => (h i n hn).mono (g.extends_nextVar k))
    (fun _ _ h hn => h.push hn) calls

end Graph

end TensorLoops
