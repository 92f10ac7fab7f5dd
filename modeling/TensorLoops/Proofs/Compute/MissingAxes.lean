import Mathlib.Algebra.Order.BigOperators.Group.List
import TensorLoops.Proofs.Compute.Accounting
import TensorLoops.Proofs.Compute.Emission
import TensorLoops.Proofs.Compute.Progress

/-!
# Proofs — Compute — Missing axes

Graphs in which a node has fewer axes than dimensions.  Nothing checks for that where nodes are
added as they are.  Expanding such a node opens a loop for each axis and closes one for each
dimension, so that inside other loops it fails only later.

What is missing adds up along an expansion (`Graph.missing`): a part that succeeds leaves as many
loops fewer open as axes are missing in it (`expandNode_spends`).  At the start no loop is open, so
with an axis missing anywhere there is no success.
-/

namespace TensorLoops

open Relation

/-! ### Nodes with too few axes -/

/-- The number of dimensions without an axis. -/
def Compute.missing (d : Compute) : Nat := d.extents.length - d.axes.length

namespace Graph

/-- The node has fewer axes than dimensions. -/
def LacksAxis (g : Graph) (id : Nat) : Prop :=
  ∃ d, g.compute? id = some d ∧ d.axes.length < d.extents.length

/-- A reduction whose points are not counted in words: its leading extents have a product that is
none. -/
def Uncounted (g : Graph) (id : Nat) : Prop :=
  ∃ shape axes value op k, g.compute? id = some (.reduce shape axes value op) ∧
    Word.limit ≤ (shape.take k).prod

/-- The number of axes that are missing where the given nodes are computed, at every visit. -/
def missing (g : Graph) (is : List Nat) : Nat :=
  ((is.flatMap g.visits).map fun i => ((g.compute? i).map Compute.missing).getD 0).sum

variable {g : Graph} {id : Nat} {n : Node} {d : Compute} {is js : List Nat}

theorem missing_append : g.missing (is ++ js) = g.missing is + g.missing js := by
  simp [missing]

theorem missing_input (hn : g.node? id = some n) (hc : n.compute = none) :
    g.missing [id] = 0 := by
  simp [missing, visits_input hn hc, compute?_eq_none hn hc]

/-- A computed node misses its own loops and those of its value. -/
theorem missing_computed (hn : g.node? id = some n) (hc : n.compute = some d)
    (hd : ∀ i ∈ d.value.nodes, i < id) :
    g.missing [id] = d.missing + g.missing d.value.nodes := by
  simp [missing, visits_computed hn hc hd, compute?_eq_some hn hc]

/-- What can be reached is visited. -/
theorem mem_visits_of_reaches (hg : ∀ i j, g.Contains j i → i < j) {i k : Nat}
    (h : ReflTransGen g.Contains i k) : k ∈ g.visits i := by
  induction h using ReflTransGen.head_induction_on with
  | refl =>
      rw [visits_eq]
      exact List.mem_cons_self
  | @head i j hij _ ih =>
      obtain ⟨n, d, hn, hc, hj⟩ := hij
      rw [visits_computed hn hc fun m hm => hg m i ⟨n, d, hn, hc, hm⟩]
      exact List.mem_cons_of_mem _ (List.mem_flatMap.mpr ⟨j, hj, ih⟩)

/-- Where a node lacks an axis, a loop is missing. -/
theorem missing_pos (hg : ∀ i j, g.Contains j i → i < j) (h : g.Meets g.LacksAxis is) :
    0 < g.missing is := by
  obtain ⟨i, hi, k, hreach, d, hd, hlt⟩ := h
  have hmem : k ∈ is.flatMap g.visits :=
    List.mem_flatMap.mpr ⟨i, hi, mem_visits_of_reaches hg hreach⟩
  have hone : d.missing ≤ g.missing is := by
    refine List.le_sum_of_mem (List.mem_map.mpr ⟨k, hmem, ?_⟩)
    rw [hd]
    rfl
  have hpos : 0 < d.missing := Nat.sub_pos_of_lt hlt
  omega

end Graph

/-! ### What a step costs -/

/-- How a computation ends that takes no ids from `total` on: with a result as stated, refused for a
reason other than a number, or where a count or an id is out of range. -/
inductive Bounded {α : Type} (big : Prop) (total : Nat) (P : α → Prop) : Except Error α → Prop where
  | done {a} : P a → Bounded big total P (.ok a)
  | refused {e} : (∀ a, e ≠ .arithmetic a) → Bounded big total P (.error e)
  | many : big → Bounded big total P (.error (.arithmetic .mulOverflow))
  | spent : Word.idLimit ≤ total → Bounded big total P (.error (.arithmetic .addOverflow))

namespace Bounded

variable {α β : Type} {big big' : Prop} {total total' : Nat} {P P' : α → Prop} {Q : β → Prop}

/-- Bounds can be weakened. -/
theorem imp {r : Except Error α} (h : Bounded big total P r) (hbig : big → big')
    (htotal : total = total') (hP : ∀ a, P a → P' a) : Bounded big' total' P' r := by
  subst htotal
  cases h with
  | done ha => exact .done (hP _ ha)
  | refused he => exact .refused he
  | many hb => exact .many (hbig hb)
  | spent hle => exact .spent hle

/-- The bounds of two computations one after the other. -/
theorem bind {x : Except Error α} {f : α → Except Error β} (hx : Bounded big total P x)
    (htotal : total ≤ total') (hf : ∀ a, P a → Bounded big' total' Q (f a)) :
    Bounded (big ∨ big') total' Q (x >>= f) := by
  cases hx with
  | refused he => exact .refused he
  | many hb => exact .many (.inl hb)
  | spent hle => exact .spent (Nat.le_trans hle htotal)
  | @done a ha => exact (hf a ha).imp .inr rfl fun _ h => h

theorem map {x : Except Error α} {f : α → β} (hx : Bounded big total P x)
    (hf : ∀ a, P a → Q (f a)) : Bounded big total Q (x >>= fun a => .ok (f a)) := by
  cases hx with
  | done ha => exact .done (hf _ ha)
  | refused he => exact .refused he
  | many hb => exact .many hb
  | spent hle => exact .spent hle

/-- What is limited is bounded. -/
theorem of_limited {r : Except Error α} (h : Limited big total P r) : Bounded big total P r := by
  cases h with
  | done _ _ ha => exact .done ha
  | many hb => exact .many hb
  | spent hle => exact .spent hle

end Bounded

namespace Expansion

/-- A step that takes `n` variables and storage for `M`, opens `k` loops and closes `m`. -/
def Costs {α : Type} (big : Prop) (n : Nat) (M : Finset Nat) (k m : Nat) (x : Step α) : Prop :=
  ∀ s, Bounded big (s.after n M) (fun r => r.2.nextVar = s.after n M ∧ r.2.held = s.held ∪ M ∧
    r.2.depth + m = s.depth + k) (x s)

section Costs

variable {α β : Type} {big big' : Prop} {n n' k k' m m' : Nat} {M N : Finset Nat}

/-- Costs add up. -/
theorem Costs.bind {x : Step α} {f : α → Step β} (hx : Costs big n M k m x)
    (hf : ∀ a, Costs big' n' N k' m' (f a)) :
    Costs (big ∨ big') (n + n') (M ∪ N) (k + k') (m + m') (x >>= f) := by
  intro s
  refine Bounded.bind (hx s) after_mono fun r ⟨hnext, hheld, hdepth⟩ => ?_
  have hafter : r.2.after n' N = s.after (n + n') (M ∪ N) := after_after hnext hheld
  refine (hf r.1 r.2).imp (fun h => h) hafter fun r' ⟨hnext', hheld', hdepth'⟩ => ?_
  exact ⟨hnext'.trans hafter, by rw [hheld', hheld, Finset.union_assoc], by omega⟩

/-- Loops that are opened and closed again cancel out. -/
theorem Costs.congr {x : Step α} (hx : Costs big n M k m x) (hbig : big ↔ big') (hn : n = n')
    (hM : M = N) (hkm : k + m' = k' + m) : Costs big' n' N k' m' x := by
  subst hn hM
  refine fun s => (hx s).imp hbig.mp rfl fun r ⟨hnext, hheld, hdepth⟩ => ?_
  exact ⟨hnext, hheld, by omega⟩

theorem costs_pure (a : α) : Costs False 0 ∅ 0 0 (pure a : Step α) := fun s =>
  .done ⟨by simp [State.after], (Finset.union_empty _).symm, rfl⟩

theorem costs_throw {e : Error} (he : ∀ a, e ≠ .arithmetic a) :
    Costs big n M k m (throw e : Step α) := fun _ => .refused he

/-- A step after a computation that is refused for no reason of numbers. -/
theorem Costs.lift_bind {x : Except Error α} {f : α → Step β}
    (hx : ∀ e, x = .error e → ∀ a, e ≠ .arithmetic a)
    (hf : ∀ a, x = .ok a → Costs big n M k m (f a)) :
    Costs big n M k m ((liftM x : Step α) >>= f) := by
  cases x with
  | ok a => exact hf a rfl
  | error e => exact fun _ => .refused (hx e rfl)

theorem costs_freshVar (hint : String) (ty : Ty) : Costs False 1 ∅ 0 0 (freshVar hint ty) :=
  fun s => .of_limited (freshVar_ends hint ty s)

/-- Storage for a node is paid for once. -/
theorem costs_createdFor (id : Nat) (hint : String) (ty : Ty) :
    Costs False 0 {id} 0 0 (createdFor id hint ty) := by
  intro s
  rcases createdFor_cases id hint ty s with ⟨hmem, v, hrun⟩ | ⟨hnew, hrun⟩
  · rw [hrun]
    exact .done ⟨(after_held hmem).symm, by simp [hmem], rfl⟩
  · rw [hrun, after_new hnew]
    refine Bounded.map (costs_freshVar hint ty s) fun r ⟨hnext, hheld, hdepth⟩ => ?_
    rw [Finset.union_empty] at hheld
    exact ⟨hnext, by rw [held_insert, hheld], hdepth⟩

/-- A buffer that is given costs nothing. -/
theorem costs_bufferFor (c : Context) (id : Nat) (hint : String) (ty : Ty) :
    Costs False 0 (if c.given.contains id then ∅ else {id}) 0 0 (bufferFor c id hint ty) := by
  unfold bufferFor Table.contains
  cases c.given.find? id with
  | some v => exact costs_pure v
  | none => exact costs_createdFor id hint ty

theorem costs_openLoops (k : Nat) : Costs False 0 ∅ k 0 (openLoops k) := fun s =>
  .done ⟨by simp [State.after], (Finset.union_empty _).symm, rfl⟩

/-- Closing a loop that is not open is refused. -/
theorem costs_closeLoops (m : Nat) : Costs False 0 ∅ 0 m (closeLoops m) := by
  intro s
  rw [closeLoops, step_get_bind]
  by_cases hm : m ≤ s.depth
  · rw [if_pos hm]
    exact .done ⟨by simp [State.after], (Finset.union_empty _).symm, Nat.sub_add_cancel hm⟩
  · rw [if_neg hm]
    exact .refused (by simp)

/-- Counting points may overflow. -/
theorem costs_product (shape : List Nat) :
    Costs (∃ k, Word.limit ≤ (shape.take k).prod) 0 ∅ 0 0
      (liftM (Word.product shape) : Step Nat) := by
  cases hcount : Word.product shape with
  | ok count =>
      refine (costs_pure count).congr (iff_of_false not_false ?_) rfl rfl rfl
      rintro ⟨k, hk⟩
      exact Nat.not_lt.mpr hk ((Word.product_eq_ok.mp hcount).1 k)
  | error e =>
      rw [Word.product_eq_error hcount]
      refine fun s => .many ?_
      by_contra hsmall
      rw [not_exists] at hsmall
      cases hcount.symm.trans (Word.product_eq_ok.mpr ⟨fun k => Nat.lt_of_not_le (hsmall k), rfl⟩)

end Costs

/-! ### Expansions -/

/-- A graph refuses for reasons of its own. -/
theorem not_arithmetic_of_faults {e : Error} (h : Graph.Faults 0 e) : ∀ a, e ≠ .arithmetic a := by
  cases h with
  | graph _ => exact nofun
  | ids hle => exact absurd hle (by decide)

/-- A step that costs what code for the given nodes does. -/
def Context.Spends {α : Type} (c : Context) (is : List Nat) (x : Step α) : Prop :=
  Costs (c.graph.Meets c.graph.Uncounted is) (c.graph.bests is) (c.made is) 0 (c.graph.missing is) x

section Nodes

variable {α β : Type} {c : Context} {f : Nat → Step Piece} {is js : List Nat}

theorem Context.Spends.pure {a : α} : c.Spends [] (pure a : Step α) :=
  (costs_pure a).congr (by simp) rfl rfl rfl

/-- What two steps spend is spent by both together. -/
theorem Context.Spends.bind {x : Step α} {g : α → Step β} (hx : c.Spends is x)
    (hg : ∀ a, c.Spends js (g a)) : c.Spends (is ++ js) (x >>= g) :=
  (Costs.bind hx hg).congr Graph.meets_append.symm Graph.bests_append.symm
    Context.made_append.symm (by rw [Graph.missing_append])

theorem Context.Spends.map {x : Step α} {g : α → β} (hx : c.Spends is x) :
    c.Spends is (x >>= fun a => Pure.pure (g a)) :=
  (List.append_nil is) ▸ hx.bind fun _ => .pure

mutual

/-- Code for an expression costs what its nodes do. -/
theorem expandExpr_spends (hf : ∀ i, c.Spends [i] (f i)) : ∀ e : Expr,
    c.Spends e.nodes (expandExpr f e)
  | .var _ => .pure
  | .const _ _ => .pure
  | .node id => hf id
  | .binary _ lhs rhs =>
      (expandExpr_spends hf lhs).bind fun _ => (expandExpr_spends hf rhs).map
  | .unary _ e => (expandExpr_spends hf e).map
  | .cast e _ => (expandExpr_spends hf e).map
  | .element base idxs =>
      (expandExpr_spends hf base).bind fun _ => (expandExprs_spends hf idxs).map
  | .call _ args => (expandExprs_spends hf args).map

theorem expandExprs_spends (hf : ∀ i, c.Spends [i] (f i)) : ∀ es : List Expr,
    c.Spends (Expr.nodesList es) (expandExprs f es)
  | [] => .pure
  | e :: es => (expandExpr_spends hf e).bind fun _ => (expandExprs_spends hf es).map

end

section Patterns

variable {id : Nat} {n : Node} {value : Expr} {big : Prop} {b m : Nat} {M : Finset Nat}
  (hv : Costs big b M 0 m (expandExpr f value))

include hv

/-- A grid closes one loop for each dimension, and opens one for each axis. -/
theorem expandGrid_costs {shape : List Nat} {axes : List Var} :
    Costs big b ((if c.given.contains id then ∅ else {id}) ∪ M) 0 (shape.length - axes.length + m)
      (expandGrid c f id n shape axes value) := by
  refine Costs.congr ((costs_bufferFor c id n.name n.kind.storage).bind fun buf =>
    (costs_openLoops (axes.zip shape).length).bind fun _ => hv.bind fun p =>
      (costs_closeLoops shape.length).bind fun _ => costs_pure _) ?_ ?_ ?_ ?_
  · simp
  · simp
  · simp
  · rw [List.length_zip]
    omega

/-- A reduction closes and opens loops as a grid does, and counts its points. -/
theorem expandReduce_costs {shape : List Nat} {axes : List Var} {op : Reduction} :
    Costs (big ∨ ∃ k, Word.limit ≤ (shape.take k).prod) b ({id} ∪ M) 0
      (shape.length - axes.length + m) (expandReduce c f id n shape axes value op) := by
  unfold expandReduce
  by_cases hop : op.isArg = true
  · simp only [hop, if_true]
    exact costs_throw (by simp)
  simp only [hop, if_false, Bool.false_eq_true]
  refine .lift_bind (fun e he => not_arithmetic_of_faults (Graph.typeOf_faults he)) fun t _ => ?_
  refine Costs.congr ((costs_createdFor id n.name (.scalar t)).bind fun acc =>
    (costs_openLoops (axes.zip shape).length).bind fun _ => hv.bind fun p =>
      (costs_closeLoops shape.length).bind fun _ => (costs_product shape).bind fun _ =>
        costs_pure _) ?_ ?_ ?_ ?_
  · simp
  · simp
  · simp
  · rw [List.length_zip]
    omega

/-- An arg-reduction has one axis, and takes a variable for its best value. -/
theorem expandArgReduce_costs {extent : Nat} {axis : Var} {op : Reduction} {index : Scalar} :
    Costs big (1 + b) ({id} ∪ M) 0 m (expandArgReduce c f id n extent axis value op index) := by
  have himproves : ∀ {candidate best} e, improves op candidate best = .error e →
      ∀ a, e ≠ .arithmetic a := by
    intro candidate best e he
    unfold improves at he
    split at he
    · cases he
    · exact Except.error.inj he ▸ nofun
  refine .lift_bind (fun e he => not_arithmetic_of_faults (Graph.typeOf_faults he)) fun t _ => ?_
  refine Costs.congr ((costs_createdFor id (n.name ++ "_idx") (.scalar index)).bind fun position =>
    (costs_freshVar (n.name ++ "_val") (.scalar t)).bind fun best => (costs_openLoops 1).bind
      fun _ => hv.bind fun p => .lift_bind himproves fun test _ => (costs_closeLoops 1).bind
        fun _ => costs_pure _) ?_ ?_ ?_ ?_
  · simp
  · simp
  · simp
  · omega

end Patterns

/-- The cost of a node is that of its own loops and storage, and of its value. -/
theorem expandDefined_spends (hg : ∀ i j, c.graph.Contains j i → i < j)
    (hf : ∀ i, c.Spends [i] (f i)) (id : Nat) : c.Spends [id] (expandDefined c f id) := by
  refine .lift_bind (fun e he => not_arithmetic_of_faults (Graph.node_faults he)) fun n hnode => ?_
  have hn := Graph.node_eq_ok.mp hnode
  match hk : n.kind, hc : n.compute with
  | _, none =>
      dsimp only
      cases c.given.find? id with
      | some v =>
          refine (costs_pure _).congr ?_ (Graph.bests_input hn hc).symm
            (Context.made_input hn hc).symm (by rw [Graph.missing_input hn hc])
          simp [Graph.meets_input hn hc, Graph.Uncounted, Graph.compute?_eq_none hn hc]
      | none => exact costs_throw (by simp)
  | .tensor _ _, some (.grid shape axes value) =>
      have hd := fun i hi => hg i id ⟨n, _, hn, hc, hi⟩
      refine (expandGrid_costs (expandExpr_spends hf value)).congr ?_ ?_ ?_ ?_
      · rw [Graph.meets_computed hn hc]
        simp [Graph.Uncounted, Graph.compute?_eq_some hn hc, Compute.value]
      · rw [Graph.bests_computed hn hc hd]
        simp [Compute.isArg, Compute.value]
      · rw [Context.made_computed hn hc hd, Table.contains]
        cases hgiven : c.given.find? id <;>
          simp [Context.needs_computed hn hc, hgiven, Compute.isGrid, Compute.value]
      · rw [Graph.missing_computed hn hc hd]
        rfl
  | .scalar _, some (.reduce shape axes value op) =>
      have hd := fun i hi => hg i id ⟨n, _, hn, hc, hi⟩
      refine (expandReduce_costs (expandExpr_spends hf value)).congr ?_ ?_ ?_ ?_
      · rw [Graph.meets_computed hn hc, or_comm]
        simp [Graph.Uncounted, Graph.compute?_eq_some hn hc, Compute.value]
      · rw [Graph.bests_computed hn hc hd]
        simp [Compute.isArg, Compute.value]
      · simp [Context.made_computed hn hc hd, Context.needs_computed hn hc, Compute.isGrid,
          Compute.value]
      · rw [Graph.missing_computed hn hc hd]
        rfl
  | .scalar _, some (.argReduce extent axis value op index) =>
      have hd := fun i hi => hg i id ⟨n, _, hn, hc, hi⟩
      refine (expandArgReduce_costs (expandExpr_spends hf value)).congr ?_ ?_ ?_ ?_
      · rw [Graph.meets_computed hn hc]
        simp [Graph.Uncounted, Graph.compute?_eq_some hn hc, Compute.value]
      · rw [Graph.bests_computed hn hc hd]
        simp [Compute.isArg, Compute.value]
      · simp [Context.made_computed hn hc hd, Context.needs_computed hn hc, Compute.isGrid,
          Compute.value]
      · rw [Graph.missing_computed hn hc hd]
        simp [Compute.missing, Compute.extents, Compute.axes, Compute.value]
  | .scalar _, some (.grid _ _ _) => exact costs_throw (by simp)
  | .tensor _ _, some (.reduce _ _ _ _) => exact costs_throw (by simp)
  | .tensor _ _, some (.argReduce _ _ _ _ _) => exact costs_throw (by simp)

/-- **What the expansion of a node costs.** -/
theorem expandNode_spends (hg : ∀ i j, c.graph.Contains j i → i < j) : ∀ k id,
    c.Spends [id] (expandNode c k id)
  | 0, _ => costs_throw (by simp)
  | k + 1, id => expandDefined_spends hg (expandNode_spends hg k) id

end Nodes

/-- The first id is out of range only if it is that of given storage. -/
theorem firstVar_eq_error {c : Context} {first : Nat} {e : Error}
    (h : firstVar c first = .error e) :
    e = .arithmetic .addOverflow ∧ Word.idLimit ≤
      c.given.entries.foldl (fun m e => max m (e.2.id + 1)) (max c.graph.nextVar first) := by
  have hle : ∀ (es : List (Nat × Var)) (m : Nat),
      m ≤ es.foldl (fun m e => max m (e.2.id + 1)) m := by
    intro es
    induction es with
    | nil => exact fun _ => Nat.le_refl _
    | cons e es ih => exact fun m => Nat.le_trans (Nat.le_max_left ..) (ih _)
  unfold firstVar at h
  generalize c.given.entries = es, max c.graph.nextVar first = m at h ⊢
  induction es generalizing m with
  | nil => cases h
  | cons entry es ih =>
      rw [List.foldlM_cons, Word.nextId] at h
      by_cases hlt : entry.2.id + 1 < Word.idLimit
      · rw [if_pos hlt] at h
        exact ih _ h
      · rw [if_neg hlt] at h
        refine ⟨(Except.error.inj h).symm, Nat.le_trans (Nat.le_of_not_lt hlt) ?_⟩
        exact Nat.le_trans (Nat.le_max_right ..) (hle es _)

end Expansion

namespace Graph

open Expansion

variable {g : Graph} {e : Expr} {given : Storage}

/-- The ids that expanding an expression takes at most, from the first on that is free. -/
def demand (g : Graph) (e : Expr) (given : Storage) : Nat :=
  g.bests e.nodes + (Context.made ⟨g, given⟩ e.nodes).card

/-- Where nodes are computed from earlier ones, expansion ends. -/
theorem terminates_of_earlier (hg : ∀ i j, g.Contains j i → i < j) : Terminates ⟨g, given⟩ e :=
  terminates_of_not_meets fun ⟨_, _, j, _, hj⟩ => not_recurs_of_earlier (fun j i => hg i j) j hj

/-- Expanding an expression succeeds only where no axis is missing. -/
theorem expand_bounded (hg : ∀ i j, g.Contains j i → i < j) :
    Bounded (g.Meets g.Uncounted e.nodes) (g.firstFree given + g.demand e given)
      (fun _ => g.missing e.nodes = 0) (g.expand e given) := by
  rw [expand, expandFrom]
  cases hfirst : firstVar ⟨g, given⟩ 0 with
  | error err =>
      obtain ⟨rfl, hle⟩ := firstVar_eq_error hfirst
      rw [Nat.max_eq_left (Nat.zero_le _)] at hle
      exact .spent (Nat.le_trans hle (Nat.le_add_right ..))
  | ok next =>
      obtain rfl : next = g.firstFree given := by
        rw [firstVar_eq_foldl hfirst, Nat.max_eq_left (Nat.zero_le _)]
        rfl
      have hterminates : Terminates ⟨g, given⟩ e := terminates_of_earlier hg
      have hcosts := expandExpr_spends (expandNode_spends (c := ⟨g, given⟩) hg (g.size + 1)) e
        ⟨.empty, g.firstFree given, 0⟩
      have hafter : State.after ⟨.empty, g.firstFree given, 0⟩ (g.bests e.nodes)
          (Context.made ⟨g, given⟩ e.nodes) = g.firstFree given + g.demand e given := by
        have hheld : State.held ⟨.empty, g.firstFree given, 0⟩ = ∅ := rfl
        rw [State.after, hheld, Finset.sdiff_empty, Nat.add_assoc]
        rfl
      rw [ok_bind, ← (hterminates (g.size + 1) _ (Nat.lt_succ_self _)).2]
      refine (Bounded.map hcosts fun r hr => ?_).imp (fun h => h) hafter fun _ h => h
      -- no loop was open at the start
      exact (Nat.add_eq_zero_iff.mp hr.2.2).2

/-- **A missing axis is never passed over.**  Let nodes be computed from earlier ones only, and let
a node with fewer axes than dimensions be reached from an expression.  Then expanding the expression
fails, whether code is put together or written into a statement builder, and it ends.  The failure
is one of arithmetic only if the points of a reduction that is reached cannot be counted, or if
there are not enough ids. -/
theorem expand_of_lacksAxis (e : Expr) (given : Storage) (hg : ∀ i j, g.Contains j i → i < j)
    (hlacks : g.Meets g.LacksAxis e.nodes) :
    ∃ err, g.expand e given = .error err ∧ g.emit e given = .error err ∧
      (∀ id, err ≠ .graph (.cyclic id)) ∧
      ∀ a, err = .arithmetic a →
        a = .mulOverflow ∧ g.Meets g.Uncounted e.nodes ∨
        a = .addOverflow ∧ Word.idLimit ≤ g.firstFree given + g.demand e given := by
  have hterminates : Terminates ⟨g, given⟩ e := terminates_of_earlier hg
  have hends := hterminates.not_runsOut
  have hbounded : Bounded _ _ _ (g.expand e given) := expand_bounded hg
  rw [emit_eq_expand hterminates]
  generalize g.expand e given = r at hends hbounded ⊢
  cases hbounded with
  | done hzero => exact absurd hzero (Nat.ne_of_gt (missing_pos hg hlacks))
  | @refused err he =>
      exact ⟨err, rfl, rfl, fun id h => hends ⟨id, congrArg _ h⟩, fun a h => absurd h (he a)⟩
  | many hb => exact ⟨_, rfl, rfl, nofun, fun a h => .inl ⟨(Error.arithmetic.inj h).symm, hb⟩⟩
  | spent hle => exact ⟨_, rfl, rfl, nofun, fun a h => .inr ⟨(Error.arithmetic.inj h).symm, hle⟩⟩

/-- A sum over two dimensions with an axis for the first only, in a grid that has both of its
own. -/
def halfSums (shape : List Nat) : Graph where
  nodes   := #[⟨"s", .scalar .i32, some (.reduce shape [⟨2, "k", .scalar .i32⟩] (.int 1) .sum)⟩,
    ⟨"y", .tensor .i32 [2, 2],
      some (.grid [2, 2] [⟨0, "i", .scalar .i32⟩, ⟨1, "j", .scalar .i32⟩] (.node 0))⟩]
  nextVar := 3

theorem halfSums_earlier (shape : List Nat) (i j : Nat) (h : (halfSums shape).Contains j i) :
    i < j := by
  obtain ⟨n, d, hn, hd, hi⟩ := h
  match j with
  | 0 =>
      cases hn
      cases hd
      cases hi
  | 1 =>
      cases hn
      cases hd
      rw [List.mem_singleton.mp hi]
      exact Nat.one_pos
  | j + 2 => cases getElem?_of_node? hn

theorem halfSums_lacksAxis (a b : Nat) : (halfSums [a, b]).Meets (halfSums [a, b]).LacksAxis [1] :=
  ⟨1, List.mem_singleton_self 1, 0, .single ⟨_, _, rfl, rfl, List.mem_singleton_self 0⟩, _, rfl,
    Nat.lt_succ_self 1⟩

/-- The sum closes a loop of the grid, and the grid then has one too few to close. -/
theorem expand_of_lacksAxis_halfSums :
    (halfSums [4, 4]).expand (.node 1) .empty = .error (.scope .noOpenScope) ∧
      (halfSums [4, 4]).emit (.node 1) .empty = .error (.scope .noOpenScope) := by
  obtain ⟨err, hexpand, hemit, -, -⟩ := expand_of_lacksAxis (.node 1) .empty
    (halfSums_earlier [4, 4]) (halfSums_lacksAxis 4 4)
  have hscope : (halfSums [4, 4]).expand (.node 1) .empty = .error (.scope .noOpenScope) := rfl
  exact ⟨hscope, hemit.trans (hexpand.symm.trans hscope)⟩

/-- The failure is not always an error of the graph: the points of the sum are counted before the
grid is closed. -/
theorem expand_halfSums_overflows :
    (∀ i j, (halfSums [2 ^ 32, 2 ^ 32]).Contains j i → i < j) ∧
      (halfSums [2 ^ 32, 2 ^ 32]).Meets (halfSums [2 ^ 32, 2 ^ 32]).LacksAxis [1] ∧
      (halfSums [2 ^ 32, 2 ^ 32]).expand (.node 1) .empty = .error (.arithmetic .mulOverflow) :=
  ⟨halfSums_earlier _, halfSums_lacksAxis _ _, rfl⟩

end Graph

end TensorLoops
