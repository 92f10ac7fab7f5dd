import Mathlib.Data.Finset.Lattice.Lemmas
import TensorLoops.Proofs.Compute.Demand

/-!
# Proofs — Compute — Progress

How an expansion ends.  Expanding what is well scoped fails in two ways only: ids run out, or a
reduction has more points than a word can count.  `Limited` says which of the three a computation
has come to, and when; computations that end so one after the other end so together
(`Limited.bind`).  A node that makes sense is expanded in such steps (`expandNode_ends`), so whether
an expansion fails can be read off the graph.
-/

namespace TensorLoops

/-- A reduction over more points than a word can count. -/
def Graph.Overcounts (g : Graph) (id : Nat) : Prop :=
  ∃ shape axes value op, g.compute? id = some (.reduce shape axes value op) ∧
    Word.limit ≤ shape.prod

/-! ### Limits -/

/-- How a computation ends that takes all ids below `total`: with a result as stated, or where a
count or an id is out of range. -/
inductive Limited {α : Type} (big : Prop) (total : Nat) (P : α → Prop) : Except Error α → Prop where
  | done {a} : ¬ big → total < Word.idLimit → P a → Limited big total P (.ok a)
  | many : big → Limited big total P (.error (.arithmetic .mulOverflow))
  | spent : Word.idLimit ≤ total → Limited big total P (.error (.arithmetic .addOverflow))

namespace Limited

variable {α β : Type} {big big' : Prop} {total total' : Nat} {P : α → Prop} {Q : β → Prop}

/-- The ways to end may be described by equivalent conditions. -/
theorem imp {P' : α → Prop} {r : Except Error α} (h : Limited big total P r) (hbig : big ↔ big')
    (htotal : total = total') (hP : ∀ a, P a → P' a) : Limited big' total' P' r := by
  rw [← htotal]
  cases h with
  | done hb hlt ha => exact .done (mt hbig.mpr hb) hlt (hP _ ha)
  | many hb => exact .many (hbig.mp hb)
  | spent hle => exact .spent hle

/-- A computation and then another that takes the ids after it. -/
theorem bind {x : Except Error α} {f : α → Except Error β} (hx : Limited big total P x)
    (htotal : total ≤ total')
    (hf : ∀ a, x = .ok a → total < Word.idLimit → P a → Limited big' total' Q (f a)) :
    Limited (big ∨ big') total' Q (x >>= f) := by
  cases hx with
  | many hb => exact .many (.inl hb)
  | spent hle => exact .spent (Nat.le_trans hle htotal)
  | @done a hb hlt ha =>
      show Limited _ _ _ (f a)
      generalize f a = r, hf a rfl hlt ha = hr
      cases hr with
      | many hb' => exact .many (.inr hb')
      | spent hle => exact .spent hle
      | done hb' hlt' hb => exact .done (not_or.mpr ⟨‹¬ big›, hb'⟩) hlt' hb

theorem map {x : Except Error α} {f : α → β} (hx : Limited big total P x)
    (hf : ∀ a, P a → Q (f a)) : Limited big total Q (x >>= fun a => .ok (f a)) := by
  cases hx with
  | done hb hlt ha => exact .done hb hlt (hf _ ha)
  | many hb => exact .many hb
  | spent hle => exact .spent hle

end Limited

namespace Expansion

/-- Values have types and inputs have storage. -/
structure Context.Furnished (c : Context) : Prop where
  typed : ∀ (i : Nat) (n : Node) (d : Compute), c.graph.node? i = some n → n.compute = some d →
    ∃ s, c.graph.typeOf d.value = .ok s
  given : ∀ (i : Nat) (n : Node), c.graph.node? i = some n → n.compute = none →
    ∃ v, c.given.find? i = some v

/-- The nodes that storage has been made for. -/
def State.held (s : State) : Finset Nat := s.created.keys.toFinset

/-- The next id once `n` variables are taken, and storage for those of the nodes `M` that have
none. -/
def State.after (s : State) (n : Nat) (M : Finset Nat) : Nat := s.nextVar + n + (M \ s.held).card

/-- How a step ends that takes `n` variables and storage for `M`, and leaves `depth` loops open. -/
def Ends {α : Type} (big : Prop) (n : Nat) (M : Finset Nat) (s : State) (depth : Nat) :
    Except Error (α × State) → Prop :=
  Limited big (s.after n M) fun r =>
    r.2.nextVar = s.after n M ∧ r.2.held = s.held ∪ M ∧ r.2.depth = depth

/-! ### Steps that end so -/

section Ends

variable {α β : Type} {big big' : Prop} {n n' : Nat} {M N : Finset Nat} {s : State}
variable {depth depth' : Nat}

theorem Ends.congr {r : Except Error (α × State)} (h : Ends big n M s depth r) (hbig : big ↔ big')
    (hn : n = n') (hM : M = N) (hdepth : depth = depth') : Ends big' n' N s depth' r := by
  rw [← hn, ← hM, ← hdepth]
  exact h.imp hbig rfl fun _ h => h

/-- What is made first is not made again. -/
theorem after_after {s' : State} (hnext : s'.nextVar = s.after n M)
    (hheld : s'.held = s.held ∪ M) : s'.after n' N = s.after (n + n') (M ∪ N) := by
  have hparts : (M ∪ N) \ s.held = M \ s.held ∪ N \ s'.held := by
    rw [hheld]
    ext i
    simp only [Finset.mem_union, Finset.mem_sdiff]
    tauto
  have hdisjoint : Disjoint (M \ s.held) (N \ s'.held) := by
    rw [hheld, Finset.disjoint_left]
    simp only [Finset.mem_union, Finset.mem_sdiff]
    tauto
  rw [State.after, hnext, State.after, State.after, hparts, Finset.card_union_of_disjoint hdisjoint]
  omega

theorem after_mono : s.after n M ≤ s.after (n + n') (M ∪ N) := by
  have hcard : (M \ s.held).card ≤ ((M ∪ N) \ s.held).card :=
    Finset.card_le_card (Finset.sdiff_subset_sdiff Finset.subset_union_left subset_rfl)
  simp only [State.after]
  omega

/-- A step and then another. -/
theorem Ends.bind {x : Step α} {f : α → Step β} (hx : Ends big n M s depth (x s))
    (hf : ∀ a s', s'.depth = depth → s'.nextVar < Word.idLimit →
      Ends big' n' N s' depth' (f a s')) :
    Ends (big ∨ big') (n + n') (M ∪ N) s depth' ((x >>= f) s) := by
  refine Limited.bind hx after_mono fun r _ hlt hr => ?_
  obtain ⟨hnext, hheld, hd⟩ := hr
  have hafter : r.2.after n' N = s.after (n + n') (M ∪ N) := after_after hnext hheld
  refine (hf r.1 r.2 hd (hnext ▸ hlt)).imp Iff.rfl hafter fun r' hr' => ?_
  exact ⟨hr'.1.trans hafter, by rw [hr'.2.1, hheld, Finset.union_assoc], hr'.2.2⟩

/-- A step that takes nothing. -/
theorem Ends.free {r : Except Error (α × State)} {a : α} (hr : r = .ok (a, { s with depth }))
    (hs : s.nextVar < Word.idLimit) : Ends False 0 ∅ s depth r := by
  have hafter : s.after 0 ∅ = s.nextVar := by simp [State.after]
  rw [hr]
  exact .done not_false (hafter ▸ hs) ⟨hafter.symm, (Finset.union_empty _).symm, rfl⟩

theorem ends_pure (a : α) (hs : s.nextVar < Word.idLimit) :
    Ends False 0 ∅ s s.depth ((pure a : Step α) s) := .free rfl hs

/-- A step after one that takes nothing. -/
theorem Ends.andThen {x : Step α} {f : α → Step β} (hx : Ends False 0 ∅ s depth (x s))
    (hf : ∀ a s', s'.depth = depth → s'.nextVar < Word.idLimit → Ends big n M s' depth' (f a s')) :
    Ends big n M s depth' ((x >>= f) s) :=
  (hx.bind hf).congr (or_iff_right not_false) (Nat.zero_add n) (Finset.empty_union M) rfl

/-- A step whose result is put into shape. -/
theorem Ends.map {x : Step α} {f : α → β} (hx : Ends big n M s depth (x s)) :
    Ends big n M s depth ((x >>= fun a => pure (f a)) s) :=
  (hx.bind fun a _ hd hlt => hd ▸ ends_pure (f a) hlt).congr (or_iff_left not_false) rfl
    (Finset.union_empty M) rfl

/-- A new variable costs one id. -/
theorem freshVar_ends (hint : String) (ty : Ty) (s : State) :
    Ends False 1 ∅ s s.depth (freshVar hint ty s) := by
  have hafter : s.after 1 ∅ = s.nextVar + 1 := by simp [State.after]
  by_cases h : s.nextVar + 1 < Word.idLimit
  · have hrun : freshVar hint ty s =
        .ok (⟨s.nextVar, hint, ty⟩, { s with nextVar := s.nextVar + 1 }) := by
      rw [freshVar, step_get_bind_eq_ok, step_lift_bind_eq_ok]
      exact ⟨_, Word.nextId_eq_ok.mpr ⟨h, rfl⟩, rfl⟩
    rw [hrun]
    exact .done not_false (hafter ▸ h) ⟨hafter.symm, (Finset.union_empty _).symm, rfl⟩
  · have hrun : freshVar hint ty s = .error (.arithmetic .addOverflow) := by
      rw [freshVar, step_get_bind_eq_error, step_lift_bind_eq_error]
      exact .inl (if_neg h)
    rw [hrun]
    exact .spent (hafter ▸ Nat.le_of_not_lt h)

/-- A first occurrence takes a variable, a later one takes none. -/
theorem createdFor_cases (id : Nat) (hint : String) (ty : Ty) (s : State) :
    (id ∈ s.held ∧ ∃ v, createdFor id hint ty s = .ok (v, s)) ∨
      id ∉ s.held ∧ createdFor id hint ty s = (freshVar hint ty s >>= fun r =>
        .ok (r.1, { r.2 with created := r.2.created.insert id r.1 })) := by
  cases hfind : s.created.find? id with
  | some v =>
      refine .inl ⟨List.mem_toFinset.mpr (Table.mem_keys_iff.mpr ⟨v, hfind⟩), v, ?_⟩
      rw [createdFor, step_get_bind_eq_ok, hfind]
      rfl
  | none =>
      refine .inr ⟨?_, ?_⟩
      · rw [State.held, List.mem_toFinset, Table.mem_keys_iff, hfind]
        rintro ⟨v, hv⟩
        cases hv
      · rw [createdFor, step_get_bind, hfind]
        rfl

theorem after_held {id : Nat} (h : id ∈ s.held) : s.after 0 {id} = s.nextVar := by
  simp [State.after, h]

theorem after_new {id : Nat} (h : id ∉ s.held) : s.after 0 {id} = s.after 1 ∅ := by
  simp [State.after, Finset.sdiff_eq_self_of_disjoint (Finset.disjoint_singleton_left.mpr h)]

theorem held_insert (s : State) (id : Nat) (v : Var) :
    State.held { s with created := s.created.insert id v } = s.held ∪ {id} := by
  ext i
  simp [State.held, Table.mem_keys_insert, or_comm]

/-- Storage for a node costs one id, unless it is held. -/
theorem createdFor_ends (id : Nat) (hint : String) (ty : Ty) (hs : s.nextVar < Word.idLimit) :
    Ends False 0 {id} s s.depth (createdFor id hint ty s) := by
  rcases createdFor_cases id hint ty s with ⟨hmem, v, hrun⟩ | ⟨hnew, hrun⟩
  · have hafter := after_held hmem
    rw [hrun]
    exact .done not_false (hafter ▸ hs) ⟨hafter.symm, by simp [hmem], rfl⟩
  · rw [hrun]
    refine (Limited.map (freshVar_ends hint ty s) fun r hr => ?_).imp Iff.rfl (after_new hnew).symm
      fun _ h => h
    obtain ⟨hnext, hheld, hd⟩ := hr
    rw [Finset.union_empty] at hheld
    exact ⟨hnext.trans (after_new hnew).symm, by rw [held_insert, hheld], hd⟩

/-- Given storage is used as it is. -/
theorem bufferFor_ends (c : Context) (id : Nat) (hint : String) (ty : Ty)
    (hs : s.nextVar < Word.idLimit) :
    Ends False 0 (if c.given.contains id then ∅ else {id}) s s.depth
      (bufferFor c id hint ty s) := by
  unfold bufferFor Table.contains
  cases hfind : c.given.find? id with
  | some v => exact ends_pure v hs
  | none => exact createdFor_ends id hint ty hs

theorem openLoops_ends (k : Nat) (hs : s.nextVar < Word.idLimit) :
    Ends False 0 ∅ s (s.depth + k) (openLoops k s) := .free rfl hs

theorem closeLoops_ends {k : Nat} (hd : s.depth = depth + k) (hs : s.nextVar < Word.idLimit) :
    Ends False 0 ∅ s depth (closeLoops k s) := by
  refine .free (a := ()) ?_ hs
  rw [closeLoops, step_get_bind_eq_ok, if_pos (hd ▸ Nat.le_add_left k depth), hd,
    Nat.add_sub_cancel]
  rfl

end Ends

/-! ### Expanding what makes sense -/

section Expanding

variable {c : Context} {w : Nat}

/-- Arg-reductions have a test. -/
theorem Ends.improved {β : Type} {big : Prop} {n : Nat} {M : Finset Nat} {s : State} {depth : Nat}
    {op : Reduction} {candidate best : Expr} {f : Expr → Step β} (hop : op.isArg = true)
    (hf : ∀ test, Ends big n M s depth (f test s)) :
    Ends big n M s depth (((liftM (improves op candidate best) : Step Expr) >>= f) s) := by
  obtain ⟨test, htest⟩ : ∃ test, improves op candidate best = .ok test := by
    unfold improves
    cases op <;> simp_all [Reduction.isArg, Reduction.better?]
  rw [htest, step_lift_ok_bind]
  exact hf test

/-- The points of a reduction are counted, unless there are too many. -/
theorem product_ends {id : Nat} {n : Node} {shape : List Nat} {axes : List Var}
    {value : Expr} {op : Reduction} {S : List Var} (hn : c.graph.node? id = some n)
    (hc : n.compute = some (.reduce shape axes value op))
    (hwf : (Compute.reduce shape axes value op).WellFormed n.kind id w S) {f : Nat → Piece}
    {s : State} (hs : s.nextVar < Word.idLimit) :
    Ends (c.graph.Overcounts id) 0 ∅ s s.depth
      (((liftM (Word.product shape) : Step Nat) >>= fun count => pure (f count)) s) := by
  by_cases hsmall : shape.prod < Word.limit
  · have hnot : ¬ c.graph.Overcounts id := by
      rintro ⟨shape', axes', value', op', hc', hle⟩
      cases (Graph.compute?_eq_some hn hc).symm.trans hc'
      exact absurd hsmall (Nat.not_lt.mpr hle)
    have hpos : ∀ k ∈ shape, 0 < k := fun k hk => (hwf.extents k hk).1
    rw [Word.product_of_lt hpos hsmall]
    exact (ends_pure (f shape.prod) hs).congr (iff_of_false not_false hnot) rfl rfl rfl
  · have hmany : c.graph.Overcounts id :=
      ⟨shape, axes, value, op, Graph.compute?_eq_some hn hc, Nat.le_of_not_lt hsmall⟩
    cases hcount : Word.product shape with
    | ok count => exact absurd (Word.product_eq hcount ▸ Word.product_lt hcount) hsmall
    | error e =>
        rw [Word.product_eq_error hcount]
        exact .many hmany

/-- Items that end so one by one end so as a list. -/
theorem expandExprs_ends {f : Nat → Step Piece} {es : List Expr}
    (he : ∀ e ∈ es, ∀ s : State, s.nextVar < Word.idLimit →
      Ends (c.graph.Meets c.graph.Overcounts e.nodes) (c.graph.bests e.nodes) (c.made e.nodes) s
        s.depth (expandExpr f e s)) {s : State} (hs : s.nextVar < Word.idLimit) :
    Ends (c.graph.Meets c.graph.Overcounts (Expr.nodesList es)) (c.graph.bests (Expr.nodesList es))
      (c.made (Expr.nodesList es)) s s.depth (expandExprs f es s) := by
  induction es generalizing s with
  | nil => exact (ends_pure ([], []) hs).congr (by simp [Expr.nodesList]) rfl rfl rfl
  | cons e es ih =>
      obtain ⟨he, hes⟩ := List.forall_mem_cons.mp he
      rw [Expr.nodesList, Graph.meets_append, Graph.bests_append, Context.made_append]
      exact (he s hs).bind fun p s' hd hlt => hd ▸ (ih hes hlt).map

section Patterns

variable {f : Nat → Step Piece} {id : Nat} {n : Node} {axes : List Var} {shape : List Nat}
variable {value : Expr} {op : Reduction} {big : Prop} {m : Nat} {M : Finset Nat} {s : State}

/-- A grid ends as its value does, and costs its buffer beside it. -/
theorem expandGrid_ends (hlen : axes.length = shape.length)
    (hv : ∀ s : State, s.nextVar < Word.idLimit → Ends big m M s s.depth (expandExpr f value s))
    (hs : s.nextVar < Word.idLimit) :
    Ends big m ((if c.given.contains id then ∅ else {id}) ∪ M) s s.depth
      (expandGrid c f id n shape axes value s) := by
  refine Ends.congr ((bufferFor_ends c id n.name n.kind.storage hs).bind fun buf s₁ hd₁ hs₁ =>
    (openLoops_ends _ hs₁).andThen fun _ s₂ hd₂ hs₂ => (hv s₂ hs₂).bind fun p s₃ hd₃ hs₃ =>
      (closeLoops_ends (hd₃.trans ?_) hs₃).andThen fun _ s₄ hd₄ hs₄ => hd₄ ▸ ends_pure _ hs₄) ?_ ?_ ?_ rfl
  · rw [hd₂, hd₁, List.length_zip, hlen, Nat.min_self]
  · simp
  · simp
  · simp

/-- A reduction costs its accumulator, and may have too many points to count. -/
theorem expandReduce_ends {t : Scalar} {S : List Var} (hn : c.graph.node? id = some n)
    (hc : n.compute = some (.reduce shape axes value op))
    (hwf : (Compute.reduce shape axes value op).WellFormed n.kind id w S)
    (ht : c.graph.typeOf value = .ok t)
    (hv : ∀ s : State, s.nextVar < Word.idLimit → Ends big m M s s.depth (expandExpr f value s))
    (hs : s.nextVar < Word.idLimit) :
    Ends (big ∨ c.graph.Overcounts id) m ({id} ∪ M) s s.depth
      (expandReduce c f id n shape axes value op s) := by
  have hlen : axes.length = shape.length := hwf.length
  simp only [expandReduce, (Compute.kind_of_reduce hwf.suits).2, Bool.false_eq_true, if_false, ht]
  rw [step_lift_ok_bind]
  refine Ends.congr ((createdFor_ends id n.name (.scalar t) hs).bind fun acc s₁ hd₁ hs₁ =>
    (openLoops_ends _ hs₁).andThen fun _ s₂ hd₂ hs₂ => (hv s₂ hs₂).bind fun p s₃ hd₃ hs₃ =>
      (closeLoops_ends (hd₃.trans ?_) hs₃).andThen fun _ s₄ hd₄ hs₄ => hd₄ ▸ product_ends hn hc hwf hs₄) ?_ ?_ ?_ rfl
  · rw [hd₂, hd₁, List.length_zip, hlen, Nat.min_self]
  · simp
  · simp
  · simp

/-- An arg-reduction takes a second variable. -/
theorem expandArgReduce_ends {t index : Scalar} {extent : Nat} {axis : Var} (hop : op.isArg = true)
    (ht : c.graph.typeOf value = .ok t)
    (hv : ∀ s : State, s.nextVar < Word.idLimit → Ends big m M s s.depth (expandExpr f value s))
    (hs : s.nextVar < Word.idLimit) :
    Ends big (1 + m) ({id} ∪ M) s s.depth
      (expandArgReduce c f id n extent axis value op index s) := by
  simp only [expandArgReduce, ht]
  rw [step_lift_ok_bind]
  refine Ends.congr ((createdFor_ends id (n.name ++ "_idx") (.scalar index) hs).bind
    fun position s₁ hd₁ hs₁ => (freshVar_ends (n.name ++ "_val") (.scalar t) s₁).bind
      fun best s₂ hd₂ hs₂ => (openLoops_ends _ hs₂).andThen fun _ s₃ hd₃ hs₃ => (hv s₃ hs₃).bind
        fun p s₄ hd₄ hs₄ => Ends.improved hop fun test => (closeLoops_ends (hd₄.trans ?_) hs₄).andThen
          fun _ s₅ hd₅ hs₅ => hd₅ ▸ ends_pure _ hs₅) ?_ ?_ ?_ rfl
  · rw [hd₃, hd₂, hd₁]
  · simp
  · simp
  · simp

end Patterns

mutual

/-- **Expanding what is scoped ends** in code, or where a count or an id is out of range. -/
theorem expandExpr_ends (hc : c.Furnished) : ∀ {S e}, c.graph.Scoped w S e →
    ∀ {k}, (∀ i ∈ e.nodes, i < k) → ∀ {s : State}, s.nextVar < Word.idLimit →
    Ends (c.graph.Meets c.graph.Overcounts e.nodes) (c.graph.bests e.nodes) (c.made e.nodes) s
      s.depth (expandExpr (expandNode c k) e s)
  | _, _, .var _, _, _, _, hs => (ends_pure _ hs).congr (by simp [Expr.nodes]) rfl rfl rfl
  | _, _, .const, _, _, _, hs => (ends_pure _ hs).congr (by simp [Expr.nodes]) rfl rfl rfl
  | _, _, .node _ _ hu, _, hk, _, hs => expandNode_ends hc hu (hk _ (List.mem_singleton_self _)) hs
  | _, _, .binary hl hr, _, hk, _, hs => by
      rw [Expr.nodes, List.forall_mem_append] at hk
      rw [Expr.nodes, Graph.meets_append, Graph.bests_append, Context.made_append]
      exact (expandExpr_ends hc hl hk.1 hs).bind fun p s' hd hlt =>
        hd ▸ (expandExpr_ends hc hr hk.2 hlt).map
  | _, _, .unary he, _, hk, _, hs => (expandExpr_ends hc he hk hs).map
  | _, _, .cast he, _, hk, _, hs => (expandExpr_ends hc he hk hs).map
  | _, _, .element _ _ hu hidxs, _, hk, _, hs => by
      rw [Expr.nodes, List.forall_mem_append] at hk
      rw [Expr.nodes, Graph.meets_append, Graph.bests_append, Context.made_append]
      have hlist : ∀ e ∈ _, ∀ s : State, s.nextVar < Word.idLimit → _ := fun e he s hs =>
        expandExpr_ends hc (hidxs e he)
          (fun i hi => hk.2 i (Expr.mem_nodesList.mpr ⟨e, he, hi⟩)) hs
      exact (expandNode_ends hc hu (hk.1 _ (List.mem_singleton_self _)) hs).bind
        fun p s' hd hlt => hd ▸ (expandExprs_ends hlist hlt).map

/-- **How the expansion of a node ends.** -/
theorem expandNode_ends (hc : c.Furnished) : ∀ {S id}, c.graph.Unfolds w S id →
    ∀ {k}, id < k → ∀ {s : State}, s.nextVar < Word.idLimit →
    Ends (c.graph.Meets c.graph.Overcounts [id]) (c.graph.bests [id]) (c.made [id]) s s.depth
      (expandNode c k id s)
  | _, id, .input hn hnone, k + 1, _, s, hs => by
      obtain ⟨v, hv⟩ := hc.given id _ hn hnone
      rw [expandNode, expandDefined_node hn, hnone, hv, Graph.bests_input hn hnone,
        Context.made_input hn hnone, Graph.meets_input hn hnone]
      refine (ends_pure _ hs).congr ?_ rfl rfl rfl
      simp [Graph.Overcounts, Graph.compute?_eq_none hn hnone]
  | _, id, .computed (n := n) (c := .grid shape axes value) hn hd hwf hv, k + 1, hk, s, hs => by
      obtain ⟨t, hkind⟩ := Compute.kind_of_grid hwf.suits
      have hearlier : ∀ i ∈ value.nodes, i < k := fun i hi =>
        Nat.lt_of_lt_of_le (hwf.earlier i hi) (Nat.le_of_lt_succ hk)
      rw [expandNode, expandDefined_node hn, hkind, hd]
      refine (expandGrid_ends hwf.length (fun s hs => expandExpr_ends hc hv hearlier hs) hs).congr
        ?_ ?_ ?_ rfl
      · rw [Graph.meets_computed hn hd]
        simp [Graph.Overcounts, Graph.compute?_eq_some hn hd, Compute.value]
      · rw [Graph.bests_computed hn hd hwf.earlier]
        simp [Compute.isArg, Compute.value]
      · rw [Context.made_computed hn hd hwf.earlier, Table.contains]
        cases hgiven : c.given.find? id <;>
          simp [Context.needs_computed hn hd, hgiven, Compute.isGrid, Compute.value]
  | _, id, .computed (n := n) (c := .reduce shape axes value op) hn hd hwf hv, k + 1, hk, s, hs => by
      obtain ⟨⟨_, hkind⟩, -⟩ := Compute.kind_of_reduce hwf.suits
      obtain ⟨t, ht⟩ := hc.typed _ _ _ hn hd
      have hearlier : ∀ i ∈ value.nodes, i < k := fun i hi =>
        Nat.lt_of_lt_of_le (hwf.earlier i hi) (Nat.le_of_lt_succ hk)
      rw [expandNode, expandDefined_node hn, hkind, hd]
      refine (expandReduce_ends hn hd hwf ht (fun s hs => expandExpr_ends hc hv hearlier hs) hs).congr
        ?_ ?_ ?_ rfl
      · rw [Graph.meets_computed hn hd, or_comm, Compute.value]
      · rw [Graph.bests_computed hn hd hwf.earlier]
        simp [Compute.isArg, Compute.value]
      · simp [Context.made_computed hn hd hwf.earlier, Context.needs_computed hn hd, Compute.isGrid,
          Compute.value]
  | _, id, .computed (n := n) (c := .argReduce extent axis value op index) hn hd hwf hv, k + 1, hk, s,
      hs => by
      obtain ⟨_, hkind⟩ := Compute.kind_of_argReduce hwf.suits
      obtain ⟨t, ht⟩ := hc.typed _ _ _ hn hd
      have hop := Compute.isArg_of_argReduce hwf.suits
      have hearlier : ∀ i ∈ value.nodes, i < k := fun i hi =>
        Nat.lt_of_lt_of_le (hwf.earlier i hi) (Nat.le_of_lt_succ hk)
      rw [expandNode, expandDefined_node hn, hkind, hd]
      refine (expandArgReduce_ends hop ht (fun s hs => expandExpr_ends hc hv hearlier hs) hs).congr
        ?_ ?_ ?_ rfl
      · rw [Graph.meets_computed hn hd]
        simp [Graph.Overcounts, Graph.compute?_eq_some hn hd, Compute.value]
      · rw [Graph.bests_computed hn hd hwf.earlier]
        simp [Compute.isArg, Compute.value]
      · simp [Context.made_computed hn hd hwf.earlier, Context.needs_computed hn hd, Compute.isGrid,
          Compute.value]

end

end Expanding

end Expansion

end TensorLoops
