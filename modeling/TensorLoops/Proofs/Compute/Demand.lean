import Mathlib.Data.Finset.Card
import TensorLoops.Proofs.Compute.Reached

/-!
# Proofs — Compute — Demand

How many variables an expansion takes.  Nothing is remembered between two occurrences of a node, so
a node is computed as often as it is come to: `Graph.visits` lists the nodes that are computed for
one, each as often as it is.  Every visit to an arg-reduction takes a variable for the best value
(`Graph.bests`), and storage is made once for each node visited that needs it (`Context.made`).
The three follow the graph: a computed node stands for itself and for the nodes of its value.
-/

namespace TensorLoops

open Relation

def Compute.isArg : Compute → Bool
  | .argReduce _ _ _ _ _ => true
  | _                    => false

namespace Graph

/-- How a node is computed; `none` for an input. -/
def compute? (g : Graph) (id : Nat) : Option Compute := (g.node? id).bind (·.compute)

/-- The earlier nodes that the value of a node mentions, each as often as it does. -/
def mentions (g : Graph) (id : Nat) : List Nat :=
  match g.compute? id with
  | some d => d.value.nodes.filter (· < id)
  | none   => []

/-- Only earlier nodes count as mentioned. -/
theorem lt_of_mem_mentions {g : Graph} {id i : Nat} (h : i ∈ g.mentions id) : i < id := by
  unfold mentions at h
  split at h
  · simpa using (List.mem_filter.mp h).2
  · exact absurd h List.not_mem_nil

/-- The nodes that are computed for a node, each as often as it is computed. -/
def visits (g : Graph) (id : Nat) : List Nat :=
  id :: (g.mentions id).attach.flatMap fun i => g.visits i.1
termination_by id
decreasing_by exact lt_of_mem_mentions i.2

/-- A node is visited, and then what its definition mentions, each time that it does. -/
theorem visits_eq (g : Graph) (id : Nat) :
    g.visits id = id :: (g.mentions id).flatMap g.visits := by
  rw [visits, List.flatMap_subtype (fun _ _ => rfl), List.unattach_attach]

def isGrid (g : Graph) (id : Nat) : Bool := (g.compute? id).any Compute.isGrid

def isReduction (g : Graph) (id : Nat) : Bool := (g.compute? id).any fun d => !d.isGrid

def isArgReduction (g : Graph) (id : Nat) : Bool := (g.compute? id).any Compute.isArg

/-- The number of best values that code for the given nodes keeps. -/
def bests (g : Graph) (is : List Nat) : Nat := (is.flatMap g.visits).countP g.isArgReduction

variable {g : Graph} {id k : Nat} {n : Node} {d : Compute} {is js : List Nat}

/-- The definition of a computed node. -/
theorem compute?_eq_some (hn : g.node? id = some n) (hc : n.compute = some d) :
    g.compute? id = some d := by
  simp [compute?, hn, hc]

theorem compute?_eq_none (hn : g.node? id = some n) (hc : n.compute = none) :
    g.compute? id = none := by
  simp [compute?, hn, hc]

theorem visits_input (hn : g.node? id = some n) (hc : n.compute = none) : g.visits id = [id] := by
  rw [visits_eq, mentions, compute?_eq_none hn hc]
  rfl

/-- A computed node is visited, and then the nodes of its value. -/
theorem visits_computed (hn : g.node? id = some n) (hc : n.compute = some d)
    (hd : ∀ i ∈ d.value.nodes, i < id) : g.visits id = id :: d.value.nodes.flatMap g.visits := by
  have hall : d.value.nodes.filter (· < id) = d.value.nodes :=
    List.filter_eq_self.mpr fun i hi => decide_eq_true (hd i hi)
  rw [visits_eq, mentions, compute?_eq_some hn hc]
  simp only [hall]

/-- Best values are counted for each mention. -/
theorem bests_append : g.bests (is ++ js) = g.bests is + g.bests js := by
  rw [bests, List.flatMap_append, List.countP_append]
  rfl

theorem bests_input (hn : g.node? id = some n) (hc : n.compute = none) : g.bests [id] = 0 := by
  simp [bests, visits_input hn hc, isArgReduction, compute?_eq_none hn hc]

/-- An arg-reduction keeps one best value, beside those of its value. -/
theorem bests_computed (hn : g.node? id = some n) (hc : n.compute = some d)
    (hd : ∀ i ∈ d.value.nodes, i < id) :
    g.bests [id] = (if d.isArg then 1 else 0) + g.bests d.value.nodes := by
  simp [bests, visits_computed hn hc hd, isArgReduction, compute?_eq_some hn hc, List.countP_cons,
    Nat.add_comm]

/-- The variables of a graph do not matter. -/
theorem visits_nextVar (w : Nat) : { g with nextVar := w }.visits = g.visits := by
  funext id
  induction id using Nat.strongRecOn with
  | ind id ih =>
      rw [visits_eq, visits_eq]
      exact congrArg (id :: ·) (List.flatMap_congr fun i hi => ih i (lt_of_mem_mentions hi))

end Graph

namespace Expansion

/-- Storage is needed for reductions, and for grids that none is given for. -/
theorem Context.needs_iff {c : Context} {id : Nat} :
    c.Needs id ↔ c.graph.isReduction id ∨ c.graph.isGrid id ∧ c.given.find? id = none := by
  rw [Graph.isReduction, Graph.isGrid, Graph.compute?]
  constructor
  · rintro ⟨n, d, hn, hc, h⟩
    cases hgrid : d.isGrid <;> simp_all
  · intro h
    cases hn : c.graph.node? id with
    | none => simp [hn] at h
    | some n =>
        cases hc : n.compute with
        | none => simp [hn, hc] at h
        | some d =>
            refine ⟨n, d, hn, hc, fun hgrid => ?_⟩
            simpa [hn, hc, hgrid] using h

instance (c : Context) : DecidablePred c.Needs := fun _ => decidable_of_iff' _ Context.needs_iff

/-- The nodes that code for the given ones makes storage for. -/
def Context.made (c : Context) (is : List Nat) : Finset Nat :=
  ((is.flatMap c.graph.visits).filter fun id => c.Needs id).toFinset

variable {c : Context} {id : Nat} {n : Node} {d : Compute} {is js : List Nat}

/-- Storage is made once, however often a node is mentioned. -/
theorem Context.made_append : c.made (is ++ js) = c.made is ∪ c.made js := by
  simp [made]

theorem Context.made_input (hn : c.graph.node? id = some n) (hc : n.compute = none) :
    c.made [id] = ∅ := by
  simp [made, Graph.visits_input hn hc, Context.needs_input hn hc]

/-- A computed node makes its own storage and that of its value. -/
theorem Context.made_computed (hn : c.graph.node? id = some n) (hc : n.compute = some d)
    (hd : ∀ i ∈ d.value.nodes, i < id) :
    c.made [id] = (if c.Needs id then {id} else ∅) ∪ c.made d.value.nodes := by
  rw [made, List.flatMap_singleton, Graph.visits_computed hn hc hd, List.filter_cons]
  by_cases hneeds : c.Needs id
  · rw [if_pos (decide_eq_true hneeds), if_pos hneeds, List.toFinset_cons, Finset.insert_eq]
    rfl
  · rw [if_neg (by simpa using hneeds), if_neg hneeds, Finset.empty_union]
    rfl

end Expansion

end TensorLoops
