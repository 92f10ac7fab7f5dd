import Mathlib.Algebra.BigOperators.Group.List.Basic
import Mathlib.Algebra.Group.Nat.Defs
import Mathlib.Data.List.Nodup
import TensorLoops.Proofs.Compute.Updates

/-!
# Proofs — Compute — Unfolding

Well-scoped compute graphs.  An anonymous reduction may mention the axes of the nodes around it,
so whether a node makes sense depends on where it stands.  `g.Unfolds w S i` says that node `i`
can be computed where the axes `S` are in scope: it is an input, or its definition suits its kind
and its value is well scoped once its own axes are added (`g.Scoped`).  A derivation walks the
whole of what the node is computed from, so it is finite and no node is computed from itself.

All axes met on the way have ids below `w`.  A node that unfolds in `S` also unfolds where more
variables are in scope, as long as their ids are not below `w` (`Unfolds.mono`).

A node that is added has its position as its id, unless there are no more ids (`node_push`).
-/

namespace TensorLoops

theorem append_subset_append {α : Type} {A S T : List α} (h : S ⊆ T) : A ++ S ⊆ A ++ T :=
  List.append_subset.mpr ⟨List.subset_append_left A T, fun _ hv => List.mem_append_right A (h hv)⟩

namespace Expr

mutual

/-- The nodes that an expression mentions. -/
def nodes : Expr → List Nat
  | .var _             => []
  | .const _ _         => []
  | .node id           => [id]
  | .binary _ lhs rhs  => lhs.nodes ++ rhs.nodes
  | .unary _ operand   => operand.nodes
  | .cast operand _    => operand.nodes
  | .element base idxs => base.nodes ++ nodesList idxs
  | .call _ args       => nodesList args

def nodesList : List Expr → List Nat
  | []      => []
  | e :: es => e.nodes ++ nodesList es

end

/-- The nodes of a list are those of its members. -/
theorem mem_nodesList {es : List Expr} {i : Nat} : i ∈ nodesList es ↔ ∃ e ∈ es, i ∈ e.nodes := by
  induction es with
  | nil => simp [nodesList]
  | cons e es ih => simp [nodesList, ih]

end Expr

namespace Compute

/-- The extents of the loops, one for each axis. -/
def extents : Compute → List Nat
  | .grid shape _ _           => shape
  | .reduce shape _ _ _       => shape
  | .argReduce extent _ _ _ _ => [extent]

/-- Grids are tensors and reductions scalars, under the operations meant for them. -/
def Suits : Compute → NodeKind → Prop
  | .grid shape _ _,       .tensor _ s => s = shape
  | .reduce _ _ _ op,      .scalar _   => op.isArg = false
  | .argReduce _ _ _ op _, .scalar _   => op.isArg = true
  | _,                     _           => False

theorem kind_of_grid {shape : List Nat} {axes : List Var} {value : Expr} {kind : NodeKind}
    (h : (Compute.grid shape axes value).Suits kind) : ∃ s, kind = .tensor s shape := by
  match kind, h with
  | .tensor s _, rfl => exact ⟨s, rfl⟩

/-- Reductions are scalars, by an operation without positions. -/
theorem kind_of_reduce {shape : List Nat} {axes : List Var} {value : Expr} {op : Reduction}
    {kind : NodeKind} (h : (Compute.reduce shape axes value op).Suits kind) :
    (∃ s, kind = .scalar s) ∧ op.isArg = false := by
  match kind, h with
  | .scalar s, h => exact ⟨⟨s, rfl⟩, h⟩

/-- Arg-reductions are scalars. -/
theorem kind_of_argReduce {extent : Nat} {axis : Var} {value : Expr} {op : Reduction}
    {index : Scalar} {kind : NodeKind} (h : (Compute.argReduce extent axis value op index).Suits kind) :
    ∃ s, kind = .scalar s := by
  match kind, h with
  | .scalar s, _ => exact ⟨s, rfl⟩

/-- The operation of an arg-reduction is one with positions. -/
theorem isArg_of_argReduce {extent : Nat} {axis : Var} {value : Expr} {op : Reduction}
    {index : Scalar} {kind : NodeKind} (h : (Compute.argReduce extent axis value op index).Suits kind) :
    op.isArg = true := by
  match kind, h with
  | .scalar _, h => exact h

/-- The definition of node `id` makes sense where `S` is in scope: its axes are new, with extents
that loops can count, and its value mentions earlier nodes only. -/
structure WellFormed (c : Compute) (kind : NodeKind) (id w : Nat) (S : List Var) : Prop where
  suits   : c.Suits kind
  length  : c.axes.length = c.extents.length
  extents : ∀ n ∈ c.extents, 0 < n ∧ n < 2 ^ 63
  nodup   : (c.axes.map (·.id)).Nodup
  below   : ∀ v ∈ c.axes, v.id < w
  fresh   : ∀ v ∈ c.axes, v.id ∉ S.map (·.id)
  earlier : ∀ i ∈ c.value.nodes, i < id

end Compute

/-- The axes that a node owns. -/
def Node.axes (n : Node) : List Var := n.compute.elim [] (·.axes)

namespace Graph

/-- The axes of all nodes, in order. -/
def axes (g : Graph) : List Var := g.nodes.toList.flatMap Node.axes

mutual

/-- An expression that makes sense where `S` is in scope.  Scalars are read as they are, tensors
at indices. -/
inductive Scoped (g : Graph) (w : Nat) : List Var → Expr → Prop where
  | var {S v} : v ∈ S → Scoped g w S (.var v)
  | const {S value s} : Scoped g w S (.const value s)
  | node {S id n s} : g.node? id = some n → n.kind = .scalar s → Unfolds g w S id →
      Scoped g w S (.node id)
  | binary {S op lhs rhs} : Scoped g w S lhs → Scoped g w S rhs → Scoped g w S (.binary op lhs rhs)
  | unary {S op e} : Scoped g w S e → Scoped g w S (.unary op e)
  | cast {S e ty} : Scoped g w S e → Scoped g w S (.cast e ty)
  | element {S id n s shape idxs} : g.node? id = some n → n.kind = .tensor s shape →
      Unfolds g w S id → (∀ e ∈ idxs, Scoped g w S e) → Scoped g w S (.element (.node id) idxs)

/-- A node that can be computed where `S` is in scope. -/
inductive Unfolds (g : Graph) (w : Nat) : List Var → Nat → Prop where
  | input {S id n} : g.node? id = some n → n.compute = none → Unfolds g w S id
  | computed {S id n c} : g.node? id = some n → n.compute = some c →
      c.WellFormed n.kind id w S → Scoped g w (c.axes ++ S) c.value → Unfolds g w S id

end

/-- What an id leads to in `g` it leads to in `g'`. -/
def Extends (g g' : Graph) : Prop :=
  ∀ (id : Nat) (n : Node), g.node? id = some n → g'.node? id = some n

theorem extends_nextVar (g : Graph) (k : Nat) : g.Extends { g with nextVar := k } := fun _ _ h => h

variable {g g' : Graph} {w w' : Nat}

/-- A definition stays well-formed inside axes that were there or are new. -/
theorem wellFormed_mono {c : Compute} {kind : NodeKind} {id : Nat} {S T : List Var} (hw : w ≤ w')
    (hT : ∀ v ∈ T, v ∈ S ∨ w ≤ v.id) (h : c.WellFormed kind id w S) :
    c.WellFormed kind id w' T := by
  refine { h with below := fun v hv => Nat.lt_of_lt_of_le (h.below v hv) hw, fresh := ?_ }
  intro v hv hmem
  obtain ⟨u, hu, hid⟩ := List.mem_map.mp hmem
  rcases hT u hu with hS | hle
  · exact h.fresh v hv (List.mem_map.mpr ⟨u, hS, hid⟩)
  · exact absurd (h.below v hv) (by omega)

mutual

/-- A scoped expression stays scoped in a graph with more nodes. -/
theorem Scoped.mono {S T : List Var} (hg : g.Extends g') (hw : w ≤ w') (hS : S ⊆ T)
    (hT : ∀ v ∈ T, v ∈ S ∨ w ≤ v.id) : ∀ {e : Expr}, g.Scoped w S e → g'.Scoped w' T e
  | _, .var hv => .var (hS hv)
  | _, .const => .const
  | _, .node hn hk hu => .node (hg _ _ hn) hk (hu.mono hg hw hS hT)
  | _, .binary hl hr => .binary (hl.mono hg hw hS hT) (hr.mono hg hw hS hT)
  | _, .unary he => .unary (he.mono hg hw hS hT)
  | _, .cast he => .cast (he.mono hg hw hS hT)
  | _, .element hn hk hu hi =>
      .element (hg _ _ hn) hk (hu.mono hg hw hS hT) fun e he => (hi e he).mono hg hw hS hT

/-- A node keeps making sense in a larger graph and where more variables are in scope, if none of
them is one of the axes it loops over. -/
theorem Unfolds.mono {S T : List Var} (hg : g.Extends g') (hw : w ≤ w') (hS : S ⊆ T)
    (hT : ∀ v ∈ T, v ∈ S ∨ w ≤ v.id) : ∀ {id : Nat}, g.Unfolds w S id → g'.Unfolds w' T id
  | _, .input hn hc => .input (hg _ _ hn) hc
  | _, .computed (c := c) hn hc hwf hv =>
      .computed (hg _ _ hn) hc (wellFormed_mono hw hT hwf)
        (hv.mono hg hw (append_subset_append hS) fun v hv => by
          rcases List.mem_append.mp hv with hv | hv
          · exact .inl (List.mem_append_left _ hv)
          · exact (hT v hv).imp_left (List.mem_append_right _))

end

/-- The nodes of a well-scoped expression make sense where it does. -/
theorem Scoped.unfolds {S : List Var} : ∀ {e : Expr}, g.Scoped w S e → ∀ i ∈ e.nodes, g.Unfolds w S i
  | _, .var _, i, hi => absurd hi List.not_mem_nil
  | _, .const, i, hi => absurd hi List.not_mem_nil
  | _, .node _ _ hu, i, hi => List.mem_singleton.mp hi ▸ hu
  | _, .binary hl hr, i, hi => (List.mem_append.mp hi).elim (hl.unfolds i) (hr.unfolds i)
  | _, .unary he, i, hi => he.unfolds i hi
  | _, .cast he, i, hi => he.unfolds i hi
  | _, .element _ _ hu hidxs, i, hi => by
      rcases List.mem_append.mp hi with hi | hi
      · exact List.mem_singleton.mp hi ▸ hu
      · obtain ⟨e, he, hi⟩ := Expr.mem_nodesList.mp hi
        exact (hidxs e he).unfolds i hi

/-- A node that makes sense is there. -/
theorem Unfolds.exists_node? {S : List Var} {id : Nat} (h : g.Unfolds w S id) :
    ∃ n, g.node? id = some n := by
  cases h with
  | input hn _ => exact ⟨_, hn⟩
  | computed hn _ _ _ => exact ⟨_, hn⟩

theorem Unfolds.lt_size {S : List Var} {id : Nat} (h : g.Unfolds w S id) : id < g.size := by
  obtain ⟨_, hn⟩ := h.exists_node?
  exact lt_size_of_node? hn

/-- Every id of the graph leads to a node that makes sense where axes of `T` and of the graph are
in scope. -/
def Settled (g : Graph) (T : List Var) : Prop :=
  ∀ (id : Nat) (n : Node), g.node? id = some n → ∃ S, g.Unfolds g.nextVar S id ∧ S ⊆ T ++ g.axes

/-- More axes around it keep a graph settled. -/
theorem Settled.mono {T T' : List Var} (h : g.Settled T) (hT : T ⊆ T') : g.Settled T' := by
  intro id n hn
  obtain ⟨S, hS, hsub⟩ := h id n hn
  refine ⟨S, hS, fun v hv => ?_⟩
  exact (List.mem_append.mp (hsub hv)).elim (fun hv => List.mem_append_left _ (hT hv))
    (List.mem_append_right _)

theorem Settled.nextVar {T : List Var} {k : Nat} (h : g.Settled T) (hk : g.nextVar ≤ k) :
    Settled { g with nextVar := k } T := by
  intro id n hn
  obtain ⟨S, hS, hsub⟩ := h id n hn
  exact ⟨S, hS.mono (extends_nextVar g k) hk (List.Subset.refl _) fun _ => .inl, hsub⟩

/-! ### Adding nodes -/

section Adding

variable {g₁ : Graph} {n m : Node} {id : Nat}

@[simp] theorem axes_push : (g.push n).axes = g.axes ++ n.axes := by
  simp [axes, push]

@[simp] theorem size_push : (g.push n).size = g.size + 1 := Array.size_push n

/-- A graph is extended by one more node. -/
theorem extends_push : g.Extends (g.push n) := by
  intro id m hm
  obtain ⟨hlt, hm⟩ := node?_eq_some.mp hm
  have hsize := (Array.getElem?_eq_some_iff.mp hm).1
  refine node?_eq_some.mpr ⟨hlt, ?_⟩
  rw [push, Array.getElem?_push_lt hsize, ← hm, Array.getElem?_eq_getElem hsize]

/-- There is an id for a new node below `2 ^ 32` nodes. -/
theorem compact_push : (g.push n).Compact ↔ g.size < Word.idLimit := by
  rw [Compact, size_push]
  rfl

/-- As long as there are ids enough, the id of a new node is its position. -/
theorem toId_size (h : (g.push n).Compact) : Word.toId g.size = g.size :=
  Nat.mod_eq_of_lt (compact_push.mp h)

theorem node_push (h : (g.push n).Compact) : (g.push n).node? g.size = some n :=
  node?_eq_some.mpr ⟨compact_push.mp h, Array.getElem?_push_size⟩

/-- The id that is given for a new node leads to a node, though perhaps to an earlier one. -/
theorem exists_node?_push : ∃ m, (g.push n).node? (Word.toId g.size) = some m := by
  have hsize : Word.toId g.size < (g.push n).nodes.size := by
    rw [push, Array.size_push]
    exact Nat.lt_succ_of_le (Nat.mod_le _ _)
  exact ⟨_, node?_eq_some.mpr ⟨Nat.mod_lt _ (by decide), Array.getElem?_eq_getElem hsize⟩⟩

/-- A position holds what it held, or the new node. -/
theorem of_getElem?_push {i : Nat} (h : (g.push n).nodes[i]? = some m) :
    g.nodes[i]? = some m ∨ i = g.size ∧ n = m := by
  rw [push, Array.getElem?_push] at h
  split at h
  · exact .inr ⟨‹_›, Option.some.inj h⟩
  · exact .inl h

/-- An id leads where it led, or to the new node if there was an id for it. -/
theorem of_node_push (h : (g.push n).node? id = some m) :
    g.node? id = some m ∨ (g.push n).Compact ∧ id = g.size ∧ n = m := by
  obtain ⟨hlt, hm⟩ := node?_eq_some.mp h
  rcases of_getElem?_push hm with hm | ⟨rfl, rfl⟩
  · exact .inl (node?_eq_some.mpr ⟨hlt, hm⟩)
  · exact .inr ⟨compact_push.mpr hlt, rfl, rfl⟩

/-- An input keeps a graph settled. -/
theorem Settled.pushInput {T : List Var} (h : g.Settled T) (hc : n.compute = none) :
    (g.push n).Settled T := by
  intro id m hm
  rcases of_node_push hm with hn | ⟨-, rfl, rfl⟩
  · obtain ⟨S, hS, hsub⟩ := h id m hn
    refine ⟨S, hS.mono extends_push (Nat.le_refl _) (List.Subset.refl _) fun _ => .inl, ?_⟩
    rw [axes_push, ← List.append_assoc]
    exact fun v hv => List.mem_append_left _ (hsub hv)
  · exact ⟨[], .input hm hc, List.nil_subset _⟩

/-- `g'` is `g` with computed nodes behind its own, each of which owns an axis. -/
def Gains (g g' : Graph) : Prop :=
  ∃ new : Array Node, g'.nodes = g.nodes ++ new ∧ ∀ n ∈ new, n.axes ≠ []

namespace Gains

theorem of_nodes_eq (h : g'.nodes = g.nodes) : g.Gains g' := ⟨#[], by simp [h], by simp⟩

/-- What is gained in two parts is gained. -/
theorem trans (h : g.Gains g₁) (h' : g₁.Gains g') : g.Gains g' := by
  obtain ⟨new, hnew, howns⟩ := h
  obtain ⟨new', hnew', howns'⟩ := h'
  refine ⟨new ++ new', by rw [hnew', hnew, Array.append_assoc], fun n hn => ?_⟩
  exact (Array.mem_append.mp hn).elim (howns n) (howns' n)

theorem push (h : n.axes ≠ []) : g.Gains (g.push n) :=
  ⟨#[n], Array.push_eq_append, by simpa using h⟩

/-- A graph that has gained nodes and is compact was so before. -/
theorem compact (h : g.Gains g') (hg : g'.Compact) : g.Compact := by
  obtain ⟨new, hnew, -⟩ := h
  have hle : g.size ≤ g'.size := by simp [size, hnew]
  exact Nat.le_trans hle hg

/-- The old nodes keep their ids. -/
theorem extended (h : g.Gains g') : g.Extends g' := by
  obtain ⟨new, hnew, -⟩ := h
  intro id n hn
  obtain ⟨hlt, hn⟩ := node?_eq_some.mp hn
  refine node?_eq_some.mpr ⟨hlt, ?_⟩
  rw [hnew, Array.getElem?_append_left (Array.getElem?_eq_some_iff.mp hn).1, hn]

/-- No input is new. -/
theorem node?_of_input (h : g.Gains g') (hn : g'.node? id = some n) (hc : n.compute = none) :
    g.node? id = some n := by
  obtain ⟨new, hnew, howns⟩ := h
  obtain ⟨hlt, hn⟩ := node?_eq_some.mp hn
  refine node?_eq_some.mpr ⟨hlt, ?_⟩
  rw [hnew, Array.getElem?_append] at hn
  split at hn
  · exact hn
  · exact absurd (by simp [Node.axes, hc]) (howns n (Array.mem_of_getElem? hn))

/-- Each new node has brought an axis. -/
theorem size_add_le (h : g.Gains g') : g'.size + g.axes.length ≤ g.size + g'.axes.length := by
  obtain ⟨new, hnew, howns⟩ := h
  have hnew_le : new.size ≤ (new.toList.flatMap Node.axes).length := by
    rw [List.length_flatMap, ← Array.length_toList, ← List.length_map (f := fun n => n.axes.length)]
    refine List.length_le_sum_of_one_le _ (List.forall_mem_map.mpr fun n hn => ?_)
    exact List.length_pos_of_ne_nil (howns n (Array.mem_toList_iff.mp hn))
  simp only [size, axes, hnew, Array.size_append, Array.toList_append, List.flatMap_append,
    List.length_append]
  omega

end Gains

end Adding

end Graph

end TensorLoops
