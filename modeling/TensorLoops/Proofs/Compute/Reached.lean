import TensorLoops.Proofs.Compute.Drafts
import TensorLoops.Proofs.Source.Growth

/-!
# Proofs — Compute — Reached

The nodes that an expansion comes to.  Code for an expression computes the nodes it mentions, the
nodes that their values mention, and so on.  What the code does at some node is therefore said of
the nodes reached from the expression (`Graph.Meets`), and follows the graph: a node is met first,
and then those of its value (`meets_computed`).  Storage is made for exactly the nodes met that need
it (`Computes.mem_keys`).
-/

namespace TensorLoops

open Relation

/-! ### Nodes met -/

namespace Graph

/-- Some node reached from the given ones is as stated. -/
def Meets (g : Graph) (T : Nat → Prop) (is : List Nat) : Prop :=
  ∃ i ∈ is, ∃ k, ReflTransGen g.Contains i k ∧ T k

variable {g : Graph} {T T' : Nat → Prop} {is js : List Nat} {id : Nat} {n : Node}

@[simp] theorem not_meets_nil : ¬ g.Meets T [] := fun ⟨_, h, _⟩ => List.not_mem_nil h

@[simp] theorem meets_append : g.Meets T (is ++ js) ↔ g.Meets T is ∨ g.Meets T js := by
  simp only [Meets, List.mem_append, or_and_right, exists_or]

theorem meets_cons : g.Meets T (id :: is) ↔ g.Meets T [id] ∨ g.Meets T is := by
  rw [← meets_append, List.singleton_append]

/-- A node of one kind is one of a wider kind. -/
theorem Meets.imp (h : ∀ k, T k → T' k) (hmeets : g.Meets T is) : g.Meets T' is := by
  obtain ⟨i, hi, k, hk, hT⟩ := hmeets
  exact ⟨i, hi, k, hk, h k hT⟩

/-- What is met at a node, or below it. -/
theorem meets_singleton :
    g.Meets T [id] ↔ T id ∨ ∃ k, TransGen g.Contains id k ∧ T k := by
  constructor
  · rintro ⟨i, hi, k, hk, hT⟩
    obtain rfl := List.mem_singleton.mp hi
    rcases reflTransGen_iff_eq_or_transGen.mp hk with rfl | hk
    · exact .inl hT
    · exact .inr ⟨k, hk, hT⟩
  · rintro (hT | ⟨k, hk, hT⟩)
    · exact ⟨id, List.mem_singleton_self id, id, .refl, hT⟩
    · exact ⟨id, List.mem_singleton_self id, k, hk.to_reflTransGen, hT⟩

/-- What is met from a definition lies below its node. -/
theorem meets_value {d : Compute} (hn : g.node? id = some n) (hc : n.compute = some d) :
    g.Meets T d.value.nodes ↔ ∃ k, TransGen g.Contains id k ∧ T k := by
  constructor
  · rintro ⟨i, hi, k, hk, hT⟩
    exact ⟨k, .head' ⟨n, d, hn, hc, hi⟩ hk, hT⟩
  · rintro ⟨k, hk, hT⟩
    obtain ⟨i, ⟨n', d', hn', hc', hi⟩, hk⟩ := TransGen.head'_iff.mp hk
    obtain rfl := Option.some.inj (hn.symm.trans hn')
    obtain rfl := Option.some.inj (hc.symm.trans hc')
    exact ⟨i, hi, k, hk, hT⟩

/-- Nothing lies below an input. -/
theorem not_transGen_input {k : Nat} (hn : g.node? id = some n) (hc : n.compute = none) :
    ¬ TransGen g.Contains id k := by
  intro h
  obtain ⟨i, ⟨n', d, hn', hc', -⟩, -⟩ := TransGen.head'_iff.mp h
  obtain rfl := Option.some.inj (hn.symm.trans hn')
  exact nomatch hc.symm.trans hc'

/-- From an input only the input is met. -/
theorem meets_input (hn : g.node? id = some n) (hc : n.compute = none) :
    g.Meets T [id] ↔ T id := by
  rw [meets_singleton, or_iff_left]
  rintro ⟨k, hk, -⟩
  exact not_transGen_input hn hc hk

/-- A computed node is met, and then the nodes of its value. -/
theorem meets_computed {d : Compute} (hn : g.node? id = some n) (hc : n.compute = some d) :
    g.Meets T [id] ↔ T id ∨ g.Meets T d.value.nodes := by
  rw [meets_singleton, meets_value hn hc]

end Graph

/-! ### Storage for nodes -/

def Compute.isGrid : Compute → Bool
  | .grid _ _ _ => true
  | _           => false

namespace Expansion

/-- Code for the node makes storage for it: always for a reduction, and for a grid if it has
none. -/
def Context.Needs (c : Context) (id : Nat) : Prop :=
  ∃ n d, c.graph.node? id = some n ∧ n.compute = some d ∧ (d.isGrid → c.given.find? id = none)

variable {c : Context} {id k : Nat} {hint : String} {ty : Ty} {u u' : Supply} {v : Var}

theorem Context.needs_input {n : Node} (hn : c.graph.node? id = some n) (hc : n.compute = none) :
    ¬ c.Needs id := by
  rintro ⟨n', d, hn', hc', -⟩
  obtain rfl := Option.some.inj (hn.symm.trans hn')
  exact nomatch hc.symm.trans hc'

/-- A computed node needs storage, unless it is a grid that has been given some. -/
theorem Context.needs_computed {n : Node} {d : Compute} (hn : c.graph.node? id = some n)
    (hc : n.compute = some d) : c.Needs id ↔ (d.isGrid → c.given.find? id = none) := by
  constructor
  · rintro ⟨n', d', hn', hc', h⟩
    obtain rfl := Option.some.inj (hn.symm.trans hn')
    obtain rfl := Option.some.inj (hc.symm.trans hc')
    exact h
  · exact fun h => ⟨n, d, hn, hc, h⟩

/-- Storage is there for the node then, and for those before. -/
theorem Creates.mem_keys (h : Creates id hint ty u v u') :
    k ∈ u'.created.keys ↔ k ∈ u.created.keys ∨ k = id := by
  cases h with
  | again hv =>
      refine ⟨.inl, fun h => h.elim (fun h => h) ?_⟩
      rintro rfl
      exact Table.mem_keys_iff.mpr ⟨v, hv⟩
  | fresh _ => exact Table.mem_keys_insert

/-- A buffer is made only where none is given. -/
theorem Allots.mem_keys (h : Allots c id hint ty u v u') :
    k ∈ u'.created.keys ↔ k ∈ u.created.keys ∨ k = id ∧ c.given.find? id = none := by
  cases h with
  | given hv => simp [hv]
  | made hnone h => simp [h.mem_keys, hnone]

variable {w : Nat}

mutual

/-- **Storage is made for the nodes that need it**, among those that are reached. -/
theorem Expands.mem_keys : ∀ {S e u p u'}, Expands c w S e u p u' →
    (k ∈ u'.created.keys ↔
      k ∈ u.created.keys ∨ c.graph.Meets (fun i => i = k ∧ c.Needs i) e.nodes)
  | _, _, _, _, _, .var _ => by simp [Expr.nodes]
  | _, _, _, _, _, .const => by simp [Expr.nodes]
  | _, _, _, _, _, .node _ _ h => h.mem_keys
  | _, _, _, _, _, .binary hl hr => by
      rw [hr.mem_keys, hl.mem_keys, Expr.nodes, Graph.meets_append, or_assoc]
  | _, _, _, _, _, .unary h => h.mem_keys
  | _, _, _, _, _, .cast h => h.mem_keys
  | _, _, _, _, _, .element _ _ h hs => by
      rw [hs.mem_keys, h.mem_keys, Expr.nodes, Graph.meets_append, Expr.nodes, or_assoc]

theorem ExpandsList.mem_keys : ∀ {S es u ss vs u'}, ExpandsList c w S es u ss vs u' →
    (k ∈ u'.created.keys ↔
      k ∈ u.created.keys ∨ c.graph.Meets (fun i => i = k ∧ c.Needs i) (Expr.nodesList es))
  | _, _, _, _, _, _, .nil => by simp [Expr.nodesList]
  | _, _, _, _, _, _, .cons h hs => by
      rw [hs.mem_keys, h.mem_keys, Expr.nodesList, Graph.meets_append, or_assoc]

/-- **Storage is made for the nodes met that need it**, and for no others. -/
theorem Computes.mem_keys : ∀ {S id u p u'}, Computes c w S id u p u' →
    (k ∈ u'.created.keys ↔
      k ∈ u.created.keys ∨ c.graph.Meets (fun i => i = k ∧ c.Needs i) [id])
  | _, _, _, _, _, .input hn hc _ => by
      rw [Graph.meets_input hn hc]
      simp [Context.needs_input hn hc]
  | _, _, _, _, _, .grid hn _ hc _ hbuf h => by
      rw [h.mem_keys, hbuf.mem_keys, Graph.meets_computed hn hc, Context.needs_computed hn hc,
        or_assoc, eq_comm]
      simp [Compute.isGrid, Compute.value]
  | _, _, _, _, _, .reduce hn _ hc _ _ _ hacc h => by
      rw [h.mem_keys, hacc.mem_keys, Graph.meets_computed hn hc, Context.needs_computed hn hc,
        or_assoc, eq_comm]
      simp [Compute.isGrid, Compute.value]
  | _, _, _, _, _, .argReduce hn _ hc _ _ hpos h _ => by
      rw [h.mem_keys, hpos.mem_keys, Graph.meets_computed hn hc, Context.needs_computed hn hc,
        or_assoc, eq_comm]
      simp [Compute.isGrid, Compute.value]

end

end Expansion

end TensorLoops
