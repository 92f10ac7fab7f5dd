import Mathlib.Data.List.Forall2
import TensorLoops.Compute.Construction
import TensorLoops.Proofs.Checked

/-!
# Proofs — Compute — Updates

What a change of a graph that did not fail has done.  New variables take the ids from the
graph's counter on (`mapM_fresh`), and a checked constructor adds one node at the end
(`addGrid_eq_ok`, `addReduce_eq_ok`, `addArgReduce_eq_ok`).
-/

namespace TensorLoops

namespace Graph

variable {α β : Type} {g g' : Graph}

/-- The update takes `g` to `g'` and gives `a`. -/
def Updates (u : Update α) (g : Graph) (a : α) (g' : Graph) : Prop := u.run.run g = (.ok a, g')

/-- Two updates succeed when both do, the second on the graph that the first leaves. -/
theorem updates_bind {u : Update α} {f : α → Update β} {b : β} :
    Updates (u >>= f) g b g' ↔ ∃ a g₁, Updates u g a g₁ ∧ Updates (f a) g₁ b g' := by
  simp only [Updates, ExceptT.run_bind, StateT.run_bind]
  constructor
  · intro h
    match hu : u.run.run g with
    | (.ok a, g₁) =>
        rw [hu] at h
        exact ⟨a, g₁, rfl, h⟩
    | (.error e, g₁) =>
        rw [hu] at h
        exact nomatch h
  · rintro ⟨a, g₁, hu, hf⟩
    rw [hu]
    exact hf

/-- Returning a value leaves the graph as it is. -/
theorem updates_pure {a b : α} : Updates (pure a) g b g' ↔ a = b ∧ g = g' := by
  show ((Except.ok a, g) : Except Error α × Graph) = (.ok b, g') ↔ _
  rw [Prod.mk.injEq, Except.ok.injEq]

theorem updates_get {h : Graph} : Updates get g h g' ↔ g = h ∧ g = g' := by
  show ((Except.ok g, g) : Except Error Graph × Graph) = (.ok h, g') ↔ _
  rw [Prod.mk.injEq, Except.ok.injEq]

theorem updates_set {h : Graph} : Updates (set h) g ⟨⟩ g' ↔ h = g' := by
  show ((Except.ok PUnit.unit, h) : Except Error PUnit × Graph) = (.ok ⟨⟩, g') ↔ _
  simp

theorem updates_lift {x : Except Error α} {a : α} :
    Updates (Update.lift x) g a g' ↔ x = .ok a ∧ g = g' := by
  show ((x, g) : Except Error α × Graph) = (.ok a, g') ↔ _
  rw [Prod.mk.injEq]

theorem not_updates_throw {e : Error} {a : α} : ¬ Updates (throw e : Update α) g a g' := nofun

/-- What an update comes to. -/
def Update.result (u : Update α) (g : Graph) : Except Error (α × Graph) :=
  match u.run.run g with
  | (.ok a, g')   => .ok (a, g')
  | (.error e, _) => .error e

/-- The result of an update is that of its run. -/
theorem Update.result_eq_ok {u : Update α} {a : α} : u.result g = .ok (a, g') ↔ Updates u g a g' := by
  unfold result Updates
  match u.run.run g with
  | (.ok b, g₁)    => exact ⟨fun h => by cases h; rfl, fun h => by cases h; rfl⟩
  | (.error e, g₁) => exact ⟨nofun, nofun⟩

/-- The result of two updates is that of the second, on the graph of the first. -/
theorem Update.result_bind {u : Update α} {f : α → Update β} :
    (u >>= f).result g = u.result g >>= fun r => (f r.1).result r.2 := by
  unfold result
  simp only [ExceptT.run_bind, StateT.run_bind]
  match u.run.run g with
  | (.ok a, g₁)    => rfl
  | (.error e, g₁) => rfl

theorem Update.result_pure {a : α} : (pure a : Update α).result g = .ok (a, g) := rfl

theorem Update.result_get : (get : Update Graph).result g = .ok (g, g) := rfl

theorem Update.result_set {h : Graph} : (set h : Update PUnit).result g = .ok (⟨⟩, h) := rfl

/-- A computation without a graph has its own result. -/
theorem Update.result_lift {x : Except Error α} :
    (Update.lift x).result g = x >>= fun a => .ok (a, g) := by
  cases x <;> rfl

/-! ### New variables -/

/-- A new variable has the next id, and no other comes to have it. -/
theorem freshVar_eq_ok {hint : String} {ty : Ty} {v : Var} (h : Updates (freshVar hint ty) g v g') :
    v = ⟨g.nextVar, hint, ty⟩ ∧ g' = { g with nextVar := g.nextVar + 1 } := by
  simp only [freshVar, updates_bind, updates_get, updates_lift, updates_pure,
    Word.nextId_eq_ok] at h
  obtain ⟨_, _, ⟨rfl, rfl⟩, _, _, ⟨⟨-, rfl⟩, rfl⟩, _, _, hset, rfl, rfl⟩ := h
  obtain rfl := updates_set.mp hset
  exact ⟨rfl, rfl⟩

/-- Ids are left after it. -/
theorem freshVar_lt {hint : String} {ty : Ty} {v : Var} (h : Updates (freshVar hint ty) g v g') :
    g'.nextVar < Word.idLimit := by
  simp only [freshVar, updates_bind, updates_get, updates_lift, updates_pure,
    Word.nextId_eq_ok] at h
  obtain ⟨_, _, ⟨rfl, rfl⟩, _, _, ⟨⟨hlt, rfl⟩, rfl⟩, _, _, hset, rfl, rfl⟩ := h
  obtain rfl := updates_set.mp hset
  exact hlt

/-- It fails only where ids run out. -/
theorem freshVar_result {hint : String} {ty : Ty} :
    (freshVar hint ty).result g =
      Word.nextId g.nextVar >>= fun next => .ok (⟨g.nextVar, hint, ty⟩, { g with nextVar := next }) := by
  simp only [freshVar, Update.result_bind, Update.result_get, Update.result_lift, Update.result_set,
    Update.result_pure, ok_bind]
  cases Word.nextId g.nextVar <;> rfl

/-- One new variable for each item: they take the next ids in order, and nothing else changes. -/
theorem mapM_fresh {f : α → Update Var} {R : (Nat → Option Node) → α → Var → Prop}
    (hf : ∀ {x g v g'}, Updates (f x) g v g' →
      v.id = g.nextVar ∧ R g.node? x v ∧ g' = { g with nextVar := g.nextVar + 1 })
    {xs : List α} {vs : List Var} (h : Updates (xs.mapM f) g vs g') :
    vs.map (·.id) = List.range' g.nextVar xs.length ∧ List.Forall₂ (R g.node?) xs vs ∧
      g' = { g with nextVar := g.nextVar + xs.length } := by
  induction xs generalizing g vs with
  | nil =>
      rw [List.mapM_nil] at h
      obtain ⟨rfl, rfl⟩ := updates_pure.mp h
      exact ⟨rfl, .nil, rfl⟩
  | cons x xs ih =>
      simp only [List.mapM_cons, updates_bind, updates_pure] at h
      obtain ⟨v, _, hv, us, _, hus, rfl, rfl⟩ := h
      obtain ⟨hid, hR, rfl⟩ := hf hv
      obtain ⟨hids, hRs, rfl⟩ := ih hus
      refine ⟨?_, .cons hR hRs, ?_⟩
      · rw [List.map_cons, hids, hid, List.length_cons, List.range'_succ]
      · simp only [List.length_cons, Nat.add_comm xs.length 1, Nat.add_assoc]

/-- New axes take ids in order. -/
theorem newAxes_eq_ok {hints : List String} {vs : List Var} (h : Updates (newAxes hints) g vs g') :
    vs.map (·.id) = List.range' g.nextVar hints.length ∧
      g' = { g with nextVar := g.nextVar + hints.length } := by
  obtain ⟨hids, -, hg⟩ := mapM_fresh (R := fun _ _ _ => True) (fun h => by
    obtain ⟨rfl, rfl⟩ := freshVar_eq_ok h
    exact ⟨rfl, trivial, rfl⟩) h
  exact ⟨hids, hg⟩

/-! ### Nodes -/

/-- A node is found under its position, if that is an id. -/
theorem node?_eq_some {id : Nat} {n : Node} :
    g.node? id = some n ↔ id < Word.idLimit ∧ g.nodes[id]? = some n := by
  rw [node?, Option.ite_none_right_eq_some]

/-- What is found under an id is at that position. -/
theorem getElem?_of_node? {id : Nat} {n : Node} (h : g.node? id = some n) :
    g.nodes[id]? = some n := (node?_eq_some.mp h).2

/-- The id is a position of the graph. -/
theorem lt_size_of_node? {id : Nat} {n : Node} (h : g.node? id = some n) : id < g.size :=
  (Array.getElem?_eq_some_iff.mp (getElem?_of_node? h)).1

@[simp] theorem node?_empty {id : Nat} : empty.node? id = none := by
  simp [node?, empty]

@[simp] theorem node?_nextVar {k id : Nat} : { g with nextVar := k }.node? id = g.node? id := rfl

/-- There are ids enough for the nodes. -/
def Compact (g : Graph) : Prop := g.size ≤ Word.idLimit

/-- A node is given where one is found. -/
theorem node_eq_ok {id : Nat} {n : Node} : g.node id = .ok n ↔ g.node? id = some n := by
  unfold node
  split
  · rename_i m hm
    rw [hm, Except.ok.injEq, Option.some.injEq]
  · rename_i hm
    rw [hm]
    exact iff_of_false nofun nofun

/-- The graph with one more node. -/
def push (g : Graph) (n : Node) : Graph := { g with nodes := g.nodes.push n }

/-- A node is put behind the others, and its id is its position as far as ids go. -/
theorem addNode_eq_ok {n : Node} {id : Nat} (h : Updates (addNode n) g id g') :
    id = Word.toId g.size ∧ g' = g.push n := by
  simp only [addNode, updates_bind, updates_get, updates_pure] at h
  obtain ⟨_, _, ⟨rfl, rfl⟩, _, _, hset, rfl, rfl⟩ := h
  obtain rfl := updates_set.mp hset
  exact ⟨rfl, rfl⟩

/-- There is one axis for each dimension. -/
theorem checkAxes_eq_ok {shape : List Nat} {axes : List Var}
    (h : Updates (checkAxes shape axes) g () g') : shape.length = axes.length ∧ g = g' := by
  unfold checkAxes at h
  split at h
  · rename_i hlen
    exact ⟨hlen, (updates_pure.mp h).2⟩
  · exact absurd h not_updates_throw

/-- Inferring a type leaves the graph as it is. -/
theorem inferType_eq_ok {value : Expr} {s : Scalar} (h : Updates (inferType value) g s g') :
    g.typeOf value = .ok s ∧ g = g' := by
  simp only [inferType, updates_bind, updates_get] at h
  obtain ⟨_, _, ⟨rfl, rfl⟩, h⟩ := h
  exact updates_lift.mp h

/-- A grid becomes a tensor of the type of its value. -/
theorem addGrid_eq_ok {name : String} {shape : List Nat} {axes : List Var} {value : Expr} {id : Nat}
    (h : Updates (addGrid name shape axes value) g id g') :
    shape.length = axes.length ∧ id = Word.toId g.size ∧ ∃ s, g.typeOf value = .ok s ∧
      g' = g.push ⟨name, .tensor s shape, some (.grid shape axes value)⟩ := by
  simp only [addGrid, updates_bind] at h
  obtain ⟨_, _, hcheck, s, _, htype, hadd⟩ := h
  obtain ⟨hlen, rfl⟩ := checkAxes_eq_ok hcheck
  obtain ⟨hs, rfl⟩ := inferType_eq_ok htype
  obtain ⟨rfl, rfl⟩ := addNode_eq_ok hadd
  exact ⟨hlen, rfl, s, hs, rfl⟩

/-- A reduction becomes a scalar of the type of its value. -/
theorem addReduce_eq_ok {name : String} {shape : List Nat} {axes : List Var} {value : Expr}
    {op : Reduction} {id : Nat} (h : Updates (addReduce name shape axes value op) g id g') :
    op.isArg = false ∧ shape.length = axes.length ∧ id = Word.toId g.size ∧ ∃ s, g.typeOf value = .ok s ∧
      g' = g.push ⟨name, .scalar s, some (.reduce shape axes value op)⟩ := by
  unfold addReduce at h
  split at h
  · obtain ⟨_, _, h, -⟩ := updates_bind.mp h
    exact absurd h not_updates_throw
  · rename_i hop
    simp only [updates_bind] at h
    obtain ⟨_, _, hcheck, s, _, htype, hadd⟩ := h
    obtain ⟨hlen, rfl⟩ := checkAxes_eq_ok hcheck
    obtain ⟨hs, rfl⟩ := inferType_eq_ok htype
    obtain ⟨rfl, rfl⟩ := addNode_eq_ok hadd
    exact ⟨Bool.eq_false_iff.mpr hop, hlen, rfl, s, hs, rfl⟩

/-- An arg-reduction becomes a scalar of its index type. -/
theorem addArgReduce_eq_ok {name : String} {extent : Nat} {axis : Var} {value : Expr}
    {op : Reduction} {index : Scalar} {id : Nat}
    (h : Updates (addArgReduce name extent axis value op index) g id g') :
    op.isArg = true ∧ id = Word.toId g.size ∧ (∃ s, g.typeOf value = .ok s) ∧
      g' = g.push ⟨name, .scalar index, some (.argReduce extent axis value op index)⟩ := by
  cases hop : op.isArg with
  | false =>
      rw [addArgReduce, hop] at h
      obtain ⟨_, _, h, -⟩ := updates_bind.mp h
      exact absurd h not_updates_throw
  | true =>
      cases hindex : index.isInteger with
      | false =>
          rw [addArgReduce, hop, hindex] at h
          obtain ⟨_, _, h, -⟩ := updates_bind.mp h
          exact absurd h not_updates_throw
      | true =>
          rw [addArgReduce, hop, hindex] at h
          obtain ⟨_, _, htype, hadd⟩ := updates_bind.mp h
          obtain ⟨_, _, htype, hpure⟩ := updates_bind.mp htype
          obtain ⟨hs, rfl⟩ := inferType_eq_ok htype
          obtain ⟨-, rfl⟩ := updates_pure.mp hpure
          obtain ⟨rfl, rfl⟩ := addNode_eq_ok hadd
          exact ⟨rfl, rfl, ⟨_, hs⟩, rfl⟩

end Graph

end TensorLoops
