import TensorLoops.Proofs.Compute.Calls
import TensorLoops.Proofs.Compute.Reached
import TensorLoops.Proofs.Compute.Values
import TensorLoops.Proofs.Source.Failure

/-!
# Proofs — Compute — Order

Which nodes the nodes of a graph are computed from, and what that means for expansion.  The checked
constructors see to it that the nodes which type inference looks at come earlier, and see to nothing
else: a node may mention itself or later nodes in the operand of a cast or among indices.  Where it
does not, no node is computed from itself.

Expansion follows a chain of nodes, each computed from the next, and runs out of its allowance only
at the end of a chain as long (`Graph.Deep`).  Without a node that is computed from itself there is
no chain longer than the graph has nodes, so expansion terminates (`terminates_of_not_meets`); and
where expansion succeeds, no such node was reached (`not_meets_of_expand`).
-/

namespace TensorLoops

open Relation

/-! ### Chains of nodes -/

namespace Graph

variable {g : Graph}

/-- The node is computed from itself. -/
def Recurs (g : Graph) (i : Nat) : Prop := TransGen g.Contains i i

/-- A chain of `k` nodes starts at node `i`, each computed from the next. -/
def Deep (g : Graph) : Nat → Nat → Prop
  | 0,     _ => True
  | k + 1, i => ∃ j, g.Contains i j ∧ g.Deep k j

/-- A node that contains another is one of the graph's. -/
theorem Contains.lt_size {i j : Nat} (h : g.Contains i j) : i < g.size := by
  obtain ⟨n, _, hn, -, -⟩ := h
  exact lt_size_of_node? hn

/-- What a node contains is mentioned in its definition. -/
theorem Contains.mem_value {i j : Nat} {n : Node} {d : Compute} (h : g.Contains i j)
    (hn : g.node? i = some n) (hc : n.compute = some d) : j ∈ d.value.nodes := by
  obtain ⟨n', d', hn', hd', hj⟩ := h
  obtain rfl := Option.some.inj (hn.symm.trans hn')
  obtain rfl := Option.some.inj (hc.symm.trans hd')
  exact hj

/-- The nodes of a chain are different if none of them is computed from itself. -/
theorem Deep.exists_nodup {k i : Nat} (h : g.Deep k i)
    (hi : ∀ j, ReflTransGen g.Contains i j → ¬ g.Recurs j) :
    ∃ l : List Nat, l.length = k ∧ l.Nodup ∧ ∀ j ∈ l, j < g.size ∧ ReflTransGen g.Contains i j := by
  induction k generalizing i with
  | zero => exact ⟨[], rfl, List.nodup_nil, nofun⟩
  | succ k ih =>
      obtain ⟨j, hij, hdeep⟩ := h
      obtain ⟨l, hlen, hnodup, hl⟩ := ih hdeep fun m hm => hi m (.head hij hm)
      refine ⟨i :: l, by rw [List.length_cons, hlen],
        List.nodup_cons.mpr ⟨fun hmem => ?_, hnodup⟩, ?_⟩
      -- were the first node met again further on, it would be computed from itself
      · exact hi i .refl (.head' hij (hl i hmem).2)
      · refine List.forall_mem_cons.mpr ⟨⟨hij.lt_size, .refl⟩, fun m hm => ?_⟩
        exact ⟨(hl m hm).1, .head hij (hl m hm).2⟩

/-- No chain is longer than there are nodes, unless it comes back. -/
theorem Deep.le_size {k i : Nat} (h : g.Deep k i)
    (hi : ∀ j, ReflTransGen g.Contains i j → ¬ g.Recurs j) : k ≤ g.size := by
  obtain ⟨l, rfl, hnodup, hl⟩ := h.exists_nodup hi
  have hsubset : l ⊆ List.range g.size := fun j hj => List.mem_range.mpr (hl j hj).1
  have hle := (List.subperm_of_subset hnodup hsubset).length_le
  rwa [List.length_range] at hle

/-- Nodes that are computed from earlier ones only are not computed from themselves. -/
theorem not_recurs_of_earlier (h : ∀ j i, g.Contains j i → i < j) (i : Nat) : ¬ g.Recurs i := by
  intro hcycle
  have hlt : ∀ {j}, TransGen g.Contains i j → j < i := fun hj => by
    induction hj with
    | single hij => exact h _ _ hij
    | tail _ hjk ih => exact Nat.lt_trans (h _ _ hjk) ih
  exact Nat.lt_irrefl i (hlt hcycle)

/-- A node from which every chain ends does not recur. -/
theorem not_recurs_of_acc {i : Nat} (h : Acc (fun a b => g.Contains b a) i) : ¬ g.Recurs i := by
  induction h with
  | intro i _ ih =>
      intro hcycle
      obtain ⟨j, hij, hji⟩ := TransGen.head'_iff.mp hcycle
      exact ih j hij (.tail' hji hij)

/-- If every chain from a node ends, so does every chain from what it reaches. -/
theorem acc_of_reaches {i j : Nat} (h : Acc (fun a b => g.Contains b a) i)
    (hij : ReflTransGen g.Contains i j) : Acc (fun a b => g.Contains b a) j := by
  induction hij with
  | refl => exact h
  | tail _ hjk ih => exact ih.inv hjk

end Graph

/-! ### Running out -/

namespace Expansion

/-- A computation that was cut off at the end of its allowance. -/
def RunsOut {α : Type} (r : Except Error α) : Prop := ∃ id, r = .error (.graph (.cyclic id))

theorem not_runsOut_ok {α : Type} {a : α} : ¬ RunsOut (.ok a) := nofun

/-- An error is that of a computation cut off if it names a cycle. -/
theorem runsOut_error {α : Type} {e : Error} :
    RunsOut (.error e : Except Error α) ↔ ∃ id, e = .graph (.cyclic id) := by
  simp only [RunsOut, Except.error.injEq]

/-- A computation is not cut off if none of its parts is. -/
theorem not_runsOut_bind {α β : Type} {x : Except Error α} {f : α → Except Error β}
    (hx : ¬ RunsOut x) (hf : ∀ a, ¬ RunsOut (f a)) : ¬ RunsOut (x >>= f) := by
  rintro ⟨id, h⟩
  rcases bind_eq_error.mp h with h | ⟨a, -, h⟩
  · exact hx ⟨id, h⟩
  · exact hf a ⟨id, h⟩

theorem not_runsOut_foldlM {α β : Type} {f : β → α → Except Error β} (hf : ∀ b a, ¬ RunsOut (f b a))
    (as : List α) (b : β) : ¬ RunsOut (as.foldlM f b) := by
  induction as generalizing b with
  | nil => exact not_runsOut_ok
  | cons a as ih => exact not_runsOut_bind (hf b a) ih

/-- What fails over a fault of the text or the graph was not cut off. -/
theorem not_runsOut_of_faults {α : Type} {w : Nat} {r : Except Error α}
    (h : ∀ e, r = .error e → Graph.Faults w e) : ¬ RunsOut r := by
  rintro ⟨id, hr⟩
  cases h _ hr with
  | graph hne => exact hne id rfl

theorem not_runsOut_nextId (id : Nat) : ¬ RunsOut (Word.nextId id) := by
  unfold Word.nextId
  split
  · exact not_runsOut_ok
  · exact nofun

/-- Counting points is not cut off. -/
theorem not_runsOut_product (shape : List Nat) : ¬ RunsOut (Word.product shape) := by
  refine not_runsOut_foldlM (fun a b => ?_) shape 1
  unfold Word.mul
  split
  · exact not_runsOut_ok
  · exact nofun

theorem not_runsOut_improves {op : Reduction} {candidate best : Expr} :
    ¬ RunsOut (improves op candidate best) := by
  unfold improves
  split
  · exact not_runsOut_ok
  · exact nofun

theorem not_runsOut_firstVar {c : Context} {first : Nat} : ¬ RunsOut (firstVar c first) :=
  not_runsOut_foldlM
    (fun _ _ => not_runsOut_bind (not_runsOut_nextId _) fun _ => not_runsOut_ok) _ _

/-- From any state, the step is cut off, and then `P` holds; or it is not, and `y` does the same. -/
def Reaches {α : Type} (P : Prop) (x y : Step α) : Prop :=
  ∀ s, P ∧ RunsOut (x s) ∨ ¬ RunsOut (x s) ∧ y s = x s

namespace Reaches

variable {α β : Type} {P Q : Prop}

theorem imp {x y : Step α} (h : Reaches P x y) (hPQ : P → Q) : Reaches Q x y :=
  fun s => (h s).imp_left fun h => ⟨hPQ h.1, h.2⟩

/-- What is never cut off reaches the end. -/
theorem refl {x : Step α} (h : ∀ s, ¬ RunsOut (x s)) : Reaches P x x := fun s => .inr ⟨h s, rfl⟩

theorem pure {a : α} : Reaches P (pure a) (pure a) := .refl fun _ => not_runsOut_ok

/-- A computation without a state that is not cut off reaches the end. -/
theorem lift {x : Except Error α} (hx : ¬ RunsOut x) :
    Reaches P (liftM x : Step α) (liftM x : Step α) := by
  refine .refl fun s h => hx ?_
  cases x with
  | ok a => exact absurd h not_runsOut_ok
  | error e => exact runsOut_error.mpr (runsOut_error.mp h)

theorem thrown {e : Error} (he : ∀ id, e ≠ .graph (.cyclic id)) :
    Reaches P (throw e : Step α) (throw e : Step α) := by
  refine .refl fun s h => ?_
  obtain ⟨id, h⟩ := runsOut_error.mp h
  exact he id h

/-- An error of expansion is no lack of allowance. -/
theorem refused {e : ExpansionError} :
    Reaches P (throw (.expansion e) : Step α) (throw (.expansion e) : Step α) := by
  refine .thrown fun id h => ?_
  cases h

/-- Steps reach the end when each does. -/
theorem bind {x y : Step α} {f f' : α → Step β} (hx : Reaches P x y)
    (hf : ∀ a, Reaches P (f a) (f' a)) : Reaches P (x >>= f) (y >>= f') := by
  intro s
  show P ∧ RunsOut (x s >>= fun p => f p.1 p.2) ∨ ¬ RunsOut (x s >>= fun p => f p.1 p.2) ∧
    (y s >>= fun p => f' p.1 p.2) = (x s >>= fun p => f p.1 p.2)
  rcases hx s with ⟨hP, id, h⟩ | ⟨hout, hy⟩
  · rw [h]
    exact .inl ⟨hP, id, rfl⟩
  · rw [hy]
    cases hrun : x s with
    | ok p => exact hf p.1 p.2
    | error e =>
        rw [hrun] at hout
        exact .inr ⟨fun h => hout (runsOut_error.mpr (runsOut_error.mp h)), rfl⟩

/-- A computation without a state, and then a step that may use its result. -/
theorem lift_bind {x : Except Error α} {f f' : α → Step β} (hx : ¬ RunsOut x)
    (hf : ∀ a, x = .ok a → Reaches P (f a) (f' a)) :
    Reaches P ((liftM x : Step α) >>= f) ((liftM x : Step α) >>= f') := by
  cases x with
  | ok a => exact hf a rfl
  | error e => exact fun s => .inr ⟨fun h => hx (runsOut_error.mpr (runsOut_error.mp h)), rfl⟩

/-- A check before the rest of a step. -/
theorem check {b : Prop} [Decidable b] {e : Error} {f f' : PUnit → Step α}
    (he : ∀ id, e ≠ .graph (.cyclic id)) (hf : ∀ x, Reaches P (f x) (f' x)) :
    Reaches P (if b then throw e >>= f else f ⟨⟩) (if b then throw e >>= f' else f' ⟨⟩) := by
  split
  · exact (thrown he).bind hf
  · exact hf ⟨⟩

end Reaches

/-! ### One node at a time -/

section Steps

variable {c : Context} {P : Prop} {f f' : Nat → Step Piece} {id : Nat}

mutual

/-- An expression is cut off where one of its nodes is. -/
theorem expandExpr_reaches : ∀ {e : Expr}, (∀ i ∈ e.nodes, Reaches P (f i) (f' i)) →
    Reaches P (expandExpr f e) (expandExpr f' e)
  | .var _, _ => .pure
  | .const _ _, _ => .pure
  | .node id, h => h id (List.mem_singleton_self id)
  | .binary _ _ _, h =>
      (expandExpr_reaches fun i hi => h i (List.mem_append_left _ hi)).bind fun _ =>
        (expandExpr_reaches fun i hi => h i (List.mem_append_right _ hi)).bind fun _ => .pure
  | .unary _ e, h => (expandExpr_reaches (e := e) h).bind fun _ => .pure
  | .cast e _, h => (expandExpr_reaches (e := e) h).bind fun _ => .pure
  | .element _ _, h =>
      (expandExpr_reaches fun i hi => h i (List.mem_append_left _ hi)).bind fun _ =>
        (expandExprs_reaches fun i hi => h i (List.mem_append_right _ hi)).bind fun _ => .pure
  | .call _ _, h => (expandExprs_reaches h).bind fun _ => .pure

theorem expandExprs_reaches : ∀ {es : List Expr},
    (∀ i ∈ Expr.nodesList es, Reaches P (f i) (f' i)) →
    Reaches P (expandExprs f es) (expandExprs f' es)
  | [], _ => .pure
  | _ :: _, h =>
      (expandExpr_reaches fun i hi => h i (List.mem_append_left _ hi)).bind fun _ =>
        (expandExprs_reaches fun i hi => h i (List.mem_append_right _ hi)).bind fun _ => .pure

end

theorem freshVar_reaches {hint : String} {ty : Ty} :
    Reaches P (freshVar hint ty) (freshVar hint ty) :=
  Reaches.bind (.refl fun _ => not_runsOut_ok) fun _ =>
    Reaches.bind (.lift (not_runsOut_nextId _)) fun _ => .refl fun _ => not_runsOut_ok

/-- Making storage reaches the end. -/
theorem createdFor_reaches {hint : String} {ty : Ty} :
    Reaches P (createdFor id hint ty) (createdFor id hint ty) := by
  refine Reaches.bind (.refl fun _ => not_runsOut_ok) fun s => ?_
  split
  · exact .pure
  · exact freshVar_reaches.bind fun _ => .refl fun _ => not_runsOut_ok

theorem bufferFor_reaches {hint : String} {ty : Ty} :
    Reaches P (bufferFor c id hint ty) (bufferFor c id hint ty) := by
  unfold bufferFor
  split
  · exact .pure
  · exact createdFor_reaches

theorem closeLoops_reaches {n : Nat} : Reaches P (closeLoops n) (closeLoops n) := by
  refine Reaches.bind (.refl fun _ => not_runsOut_ok) fun s => ?_
  split
  · exact .refl fun _ => not_runsOut_ok
  · exact .thrown nofun

theorem openLoops_reaches {n : Nat} : Reaches P (openLoops n) (openLoops n) :=
  .refl fun _ => not_runsOut_ok

theorem typeOf_reaches {value : Expr} :
    Reaches P (liftM (c.graph.typeOf value) : Step Scalar) (liftM (c.graph.typeOf value)) :=
  .lift (not_runsOut_of_faults (w := 0) fun _ => Graph.typeOf_faults)

section Definitions

variable {n : Node} {value : Expr} (h : Reaches P (expandExpr f value) (expandExpr f' value))

include h

/-- A grid reaches the end if its value does. -/
theorem expandGrid_reaches {shape : List Nat} {axes : List Var} :
    Reaches P (expandGrid c f id n shape axes value) (expandGrid c f' id n shape axes value) :=
  bufferFor_reaches.bind fun _ => openLoops_reaches.bind fun _ => h.bind fun _ =>
    closeLoops_reaches.bind fun _ => .pure

theorem expandReduce_reaches {shape : List Nat} {axes : List Var} {op : Reduction} :
    Reaches P (expandReduce c f id n shape axes value op)
      (expandReduce c f' id n shape axes value op) := by
  unfold expandReduce
  exact .check nofun fun _ => typeOf_reaches.bind fun _ => createdFor_reaches.bind fun _ =>
    openLoops_reaches.bind fun _ => h.bind fun _ => closeLoops_reaches.bind fun _ =>
      Reaches.bind (.lift (not_runsOut_product shape)) fun _ => .pure

theorem expandArgReduce_reaches {extent : Nat} {axis : Var} {op : Reduction} {index : Scalar} :
    Reaches P (expandArgReduce c f id n extent axis value op index)
      (expandArgReduce c f' id n extent axis value op index) :=
  typeOf_reaches.bind fun _ => createdFor_reaches.bind fun _ => freshVar_reaches.bind fun _ =>
    openLoops_reaches.bind fun _ => h.bind fun _ =>
      Reaches.bind (.lift not_runsOut_improves) fun _ => closeLoops_reaches.bind fun _ => .pure

end Definitions

/-- A node is cut off where a node that it is computed from is. -/
theorem expandDefined_reaches (h : ∀ i, c.graph.Contains id i → Reaches P (f i) (f' i)) :
    Reaches P (expandDefined c f id) (expandDefined c f' id) := by
  refine .lift_bind (not_runsOut_of_faults (w := 0) fun _ => Graph.node_faults) fun n hnode => ?_
  have hvalue : ∀ d, n.compute = some d →
      Reaches P (expandExpr f d.value) (expandExpr f' d.value) := fun d hd =>
    expandExpr_reaches fun i hi => h i ⟨n, d, Graph.node_eq_ok.mp hnode, hd, hi⟩
  match hk : n.kind, hc : n.compute with
  | _, none =>
      dsimp only
      split
      · exact .pure
      · exact .refused
  | .tensor _ _, some (.grid shape axes value) => exact expandGrid_reaches (hvalue _ hc)
  | .scalar _, some (.reduce shape axes value op) => exact expandReduce_reaches (hvalue _ hc)
  | .scalar _, some (.argReduce extent axis value op index) =>
      exact expandArgReduce_reaches (hvalue _ hc)
  | .scalar _, some (.grid _ _ _) => exact .refused
  | .tensor _ _, some (.reduce _ _ _ _) => exact .refused
  | .tensor _ _, some (.argReduce _ _ _ _ _) => exact .refused

end Steps

/-! ### Chains of expansions -/

variable {c : Context}

/-- **A node is cut off at the end of a chain** that is as long as the allowance; with a greater
one it comes to the same otherwise. -/
theorem expandNode_reaches (m : Nat) : ∀ k id,
    Reaches (c.graph.Deep k id) (expandNode c k id) (expandNode c (k + m) id)
  | 0, id => fun _ => .inl ⟨trivial, id, rfl⟩
  | k + 1, id => by
      rw [Nat.add_right_comm]
      exact expandDefined_reaches fun i hi =>
        (expandNode_reaches m k i).imp fun hdeep => ⟨i, hi, hdeep⟩

/-- Expansion terminates: whatever the allowance above the number of nodes, it is not cut off,
and comes to the same. -/
def Terminates (c : Context) (e : Expr) : Prop :=
  ∀ k s, c.graph.size < k → ¬ RunsOut (expandExpr (expandNode c k) e s) ∧
    expandExpr (expandNode c k) e s = expandAll c e s

/-- **Expansion ends where no node recurs.** -/
theorem terminates_of_not_meets {e : Expr} (h : ¬ c.graph.Meets c.graph.Recurs e.nodes) :
    Terminates c e := by
  -- the default allowance is above any chain, so nothing is cut off under it or a greater one
  have hreaches : ∀ m, Reaches False (expandExpr (expandNode c (c.graph.size + 1)) e)
      (expandExpr (expandNode c (c.graph.size + 1 + m)) e) := fun m =>
    expandExpr_reaches fun i hi => (expandNode_reaches m _ i).imp fun hdeep => by
      have hle := hdeep.le_size fun j hij hj => h ⟨i, hi, j, hij, hj⟩
      omega
  have hall : ∀ s, ¬ RunsOut (expandExpr (expandNode c (c.graph.size + 1)) e s) ∧
      expandAll c e s = expandExpr (expandNode c (c.graph.size + 1)) e s := fun s => by
    obtain ⟨hfalse, -⟩ | ⟨hout, -⟩ := hreaches 0 s
    · exact hfalse.elim
    · refine ⟨hout, ?_⟩
      unfold expandAll
      split
      · exact absurd ⟨_, ‹_›⟩ hout
      · rfl
  intro k s hk
  obtain ⟨m, rfl⟩ := Nat.exists_eq_add_of_le hk
  obtain ⟨hfalse, -⟩ | ⟨-, hsame⟩ := hreaches m s
  · exact hfalse.elim
  · rw [Nat.succ_eq_add_one, hsame]
    exact ⟨(hall s).1, (hall s).2.symm⟩

/-- An expansion that ends is not cut off. -/
theorem Terminates.not_runsOut {g : Graph} {e : Expr} {given : Storage}
    (h : Terminates ⟨g, given⟩ e) : ¬ RunsOut (g.expand e given) := by
  refine not_runsOut_bind not_runsOut_firstVar fun next =>
    not_runsOut_bind ?_ fun _ => not_runsOut_ok
  obtain ⟨hout, hall⟩ := h (g.size + 1) ⟨.empty, next, 0⟩ (Nat.lt_succ_self _)
  rwa [← hall]

/-! ### What succeeds -/

mutual

/-- Every chain of nodes from an expanded expression ends. -/
theorem Becomes.acc : ∀ {e u v u'}, Becomes c e u v u' →
    ∀ i ∈ e.nodes, Acc (fun a b => c.graph.Contains b a) i
  | _, _, _, _, .var, _, hi => absurd hi List.not_mem_nil
  | _, _, _, _, .const, _, hi => absurd hi List.not_mem_nil
  | _, _, _, _, .node h, _, hi => List.mem_singleton.mp hi ▸ h.acc
  | _, _, _, _, .binary hl hr, i, hi => (List.mem_append.mp hi).elim (hl.acc i) (hr.acc i)
  | _, _, _, _, .unary h, i, hi => h.acc i hi
  | _, _, _, _, .cast h, i, hi => h.acc i hi
  | _, _, _, _, .element hb hs, i, hi => (List.mem_append.mp hi).elim (hb.acc i) (hs.acc i)
  | _, _, _, _, .call hs, i, hi => hs.acc i hi

theorem BecomesList.acc : ∀ {es u vs u'}, BecomesList c es u vs u' →
    ∀ i ∈ Expr.nodesList es, Acc (fun a b => c.graph.Contains b a) i
  | _, _, _, _, .nil, _, hi => absurd hi List.not_mem_nil
  | _, _, _, _, .cons h hs, i, hi => (List.mem_append.mp hi).elim (h.acc i) (hs.acc i)

theorem Stands.acc : ∀ {id u v u'}, Stands c id u v u' → Acc (fun a b => c.graph.Contains b a) id
  | _, _, _, _, .input hn hc _ => .intro _ fun i hi => by
      obtain ⟨n, d, hn', hd, -⟩ := hi
      obtain rfl := Option.some.inj (hn.symm.trans hn')
      cases hc.symm.trans hd
  | _, _, _, _, .grid hn hc _ h => .intro _ fun i hi => h.acc i (hi.mem_value hn hc)
  | _, _, _, _, .reduce hn hc _ _ h => .intro _ fun i hi => h.acc i (hi.mem_value hn hc)
  | _, _, _, _, .argReduce hn hc _ h => .intro _ fun i hi => h.acc i (hi.mem_value hn hc)

end

/-- **Where expansion succeeds, no node that it came to is computed from itself.** -/
theorem not_meets_of_expand {g : Graph} {e : Expr} {given : Storage} {x : Expansion}
    (h : g.expand e given = .ok x) : ¬ g.Meets g.Recurs e.nodes := by
  obtain ⟨next, hbecomes⟩ := becomes_of_expand h
  rintro ⟨i, hi, j, hij, hj⟩
  exact Graph.not_recurs_of_acc (Graph.acc_of_reaches (hbecomes.acc i hi) hij) hj

end Expansion

/-! ### Graphs built by calls -/

namespace Graph

open Expansion

variable {g : Graph}

/-- The nodes that are mentioned where type inference does not look come earlier. -/
def HidesEarlier (g : Graph) : Prop :=
  ∀ (i : Nat) (n : Node) (d : Compute), g.node? i = some n → n.compute = some d →
    ∀ j ∈ d.value.hidden, j < i

/-- The nodes that are mentioned where type inference looks come earlier. -/
def ShowsEarlier (g : Graph) : Prop :=
  ∀ (i : Nat) (n : Node) (d : Compute), g.nodes[i]? = some n → n.compute = some d →
    ∀ j ∈ d.value.shown, j < i

/-- Type inference refuses a node that shows a later one. -/
theorem ShowsEarlier.push {n : Node} (hg : g.ShowsEarlier) (hn : n.Admissible g) :
    (g.push n).ShowsEarlier := by
  intro i m d hm hd j hj
  rcases of_getElem?_push hm with hm | ⟨rfl, rfl⟩
  · exact hg i m d hm hd j hj
  · obtain ⟨s, hs⟩ := (hn d hd).2.2.exists_typeOf
    exact lt_size_of_typeOf hs j hj

/-- By induction over the calls: a node is added behind those that its check has found. -/
theorem showsEarlier_after (calls : List Call) : (empty.after calls).ShowsEarlier := by
  refine after_induction (fun i n d hn => ?_) (fun _ _ h => h) (fun _ _ h hn => h.push hn) calls
  have hnone : (#[] : Array Node)[i]? = none := Array.getElem?_empty
  cases hnone.symm.trans hn

/-- So only what type inference does not look at can be out of order. -/
theorem ShowsEarlier.ordered_iff (h : g.ShowsEarlier) :
    (∀ j i, g.Contains j i → i < j) ↔ g.HidesEarlier := by
  constructor
  · intro hordered i n d hn hd j hj
    exact hordered i j ⟨n, d, hn, hd, Expr.mem_nodes_iff.mpr (.inr hj)⟩
  · rintro hhidden j i ⟨n, d, hn, hd, hi⟩
    rcases Expr.mem_nodes_iff.mp hi with hi | hi
    · exact h j n d (getElem?_of_node? hn) hd i hi
    · exact hhidden j n d hn hd i hi

/-- **The order of a graph built by calls.**  A node comes behind the nodes that its value mentions
where type inference looks.  It comes behind all of them exactly if that holds of the others too,
and then every expression is expanded to an end.  In any graph so is an expression that does not
lead to a node computed from itself, and no other is expanded successfully. -/
theorem after_ordered (calls : List Call) :
    (empty.after calls).ShowsEarlier ∧
    ((∀ j i, (empty.after calls).Contains j i → i < j) ↔ (empty.after calls).HidesEarlier) ∧
    ((empty.after calls).HidesEarlier → ∀ e given,
      Terminates ⟨empty.after calls, given⟩ e ∧ ¬ RunsOut ((empty.after calls).expand e given)) ∧
    (∀ e given, ¬ (empty.after calls).Meets (empty.after calls).Recurs e.nodes →
      Terminates ⟨empty.after calls, given⟩ e ∧ ¬ RunsOut ((empty.after calls).expand e given)) ∧
    (∀ e given x, (empty.after calls).expand e given = .ok x →
      ¬ (empty.after calls).Meets (empty.after calls).Recurs e.nodes) := by
  have hshown := showsEarlier_after calls
  have hends : ∀ e given, ¬ (empty.after calls).Meets (empty.after calls).Recurs e.nodes →
      Terminates ⟨empty.after calls, given⟩ e ∧ ¬ RunsOut ((empty.after calls).expand e given) := by
    intro e given h
    have hself : Terminates ⟨empty.after calls, given⟩ e := terminates_of_not_meets h
    exact ⟨hself, hself.not_runsOut⟩
  refine ⟨hshown, hshown.ordered_iff, fun hhidden e given => hends e given ?_, hends,
    fun _ _ _ => not_meets_of_expand⟩
  rintro ⟨_, _, j, _, hj⟩
  exact not_recurs_of_earlier (hshown.ordered_iff.mpr hhidden) j hj

/-- Calls that make a tensor and its elements as halves. -/
def halved : List Call :=
  [.tensorInput "x" .f32 [4], .newAxis "i", .addGrid "y" [4] [⟨0, "i", .scalar .i32⟩]
    (.cast (.element (.node 0) [.var ⟨0, "i", .scalar .i32⟩]) (.scalar .f16))]

/-- Calls that hide nothing give a graph in order. -/
theorem after_ordered_halved :
    (empty.after halved).HidesEarlier ∧ (empty.after halved).Contains 1 0 ∧
      (∀ j i, (empty.after halved).Contains j i → i < j) ∧
      (∀ given, ¬ RunsOut ((empty.after halved).expand (.node 1) given)) ∧
      (∃ x, (empty.after halved).expand (.node 1) (.insert .empty 0 ⟨1, "x", .tensor .f32 [4]⟩) =
        .ok x) ∧ ¬ (empty.after halved).Meets (empty.after halved).Recurs [1] := by
  have hhidden : (empty.after halved).HidesEarlier := by
    intro i n d hn hd j hj
    match i with
    | 0 =>
        cases hn
        cases hd
    | 1 =>
        cases hn
        cases hd
        simpa [Compute.value, Expr.hidden, Expr.nodes, Expr.nodesList] using hj
    | i + 2 => cases getElem?_of_node? hn
  obtain ⟨-, hiff, hends, -, hsuccess⟩ := after_ordered halved
  refine ⟨hhidden, ⟨_, _, rfl, rfl, ?_⟩, hiff.mpr hhidden,
    fun given => (hends hhidden _ given).2, ⟨_, rfl⟩,
    hsuccess (.node 1) (.insert .empty 0 ⟨1, "x", .tensor .f32 [4]⟩) _ rfl⟩
  simp [Compute.value, Expr.nodes, Expr.nodesList]

/-- The operand of a cast may be the node that is being added.  It is then computed from itself, and
expansion does not end. -/
theorem after_addGrid_of_itself :
    (empty.after [.addGrid "y" [] [] (.cast (.node 0) (.scalar .f32))]).Contains 0 0 ∧
      (empty.after [.addGrid "y" [] [] (.cast (.node 0) (.scalar .f32))]).expand (.node 0) .empty =
        .error (.graph (.cyclic 0)) :=
  ⟨⟨_, _, rfl, rfl, List.mem_singleton_self 0⟩, rfl⟩

end Graph

end TensorLoops
