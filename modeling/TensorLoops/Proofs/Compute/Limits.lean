import Mathlib.Algebra.Order.BigOperators.Group.List
import TensorLoops.Proofs.Compute.Progress
import TensorLoops.Proofs.Compute.Types

/-!
# Proofs — Compute — Limits

When lowering fails.  A task that makes sense takes an id for each parameter, for each best value
that its code keeps, for each reduction once in every output that needs it, and for each grid that
is no parameter (`Task.demand`).  It is lowered, unless these ids run out or some reduction has more
points than a word can count (`lower_limited`).
-/

namespace TensorLoops

open Expansion

namespace Graph

/-- The reductions that are computed for a node. -/
def reductions (g : Graph) (id : Nat) : Finset Nat := ((g.visits id).filter g.isReduction).toFinset

/-- The grids that are computed for nodes. -/
def grids (g : Graph) (is : List Nat) : Finset Nat :=
  ((is.flatMap g.visits).filter g.isGrid).toFinset

variable {g : Graph} {id : Nat} {is : List Nat}

theorem not_isGrid_of_isReduction (h : g.isReduction id = true) : g.isGrid id = false := by
  unfold isReduction at h
  unfold isGrid
  cases hc : g.compute? id with
  | none => rfl
  | some d => simpa [hc] using h

theorem grids_cons : g.grids (id :: is) = g.grids [id] ∪ g.grids is := by
  simp [grids]

end Graph

namespace Expansion

/-- Storage is made for all reductions, and for the grids that have none. -/
theorem Context.made_eq {g : Graph} {given : Storage} {id : Nat} :
    Context.made ⟨g, given⟩ [id] = g.reductions id ∪ g.grids [id] \ given.keys.toFinset := by
  ext k
  simp only [made, Context.needs_iff, Graph.reductions, Graph.grids, List.flatMap_singleton,
    List.mem_toFinset, List.mem_filter, Finset.mem_union, Finset.mem_sdiff, decide_eq_true_eq,
    Table.mem_keys_iff]
  cases given.find? k <;> simp [and_or_left]

/-- Storage is made for the reductions below a node, and for its grids that none is given for. -/
theorem Context.card_made {g : Graph} {given : Storage} {id : Nat} :
    (Context.made ⟨g, given⟩ [id]).card =
      (g.reductions id).card + (g.grids [id] \ given.keys.toFinset).card := by
  rw [made_eq, Finset.card_union_of_disjoint]
  rw [Finset.disjoint_left]
  intro k hk hgrid
  simp only [Graph.reductions, Graph.grids, List.mem_toFinset, List.mem_filter,
    Finset.mem_sdiff] at hk hgrid
  exact Bool.false_ne_true ((Graph.not_isGrid_of_isReduction hk.2).symm.trans hgrid.1.2)

variable {c : Context}

/-- Ids start where the graph and the given storage end, if they are counted at all. -/
theorem firstVar_of_lt {first : Nat}
    (hgiven : ∀ e ∈ c.given.entries, e.2.id < max c.graph.nextVar first)
    (hlt : max c.graph.nextVar first < Word.idLimit) :
    firstVar c first = .ok (max c.graph.nextVar first) := by
  have hfold : ∀ {es : List (Nat × Var)} {m : Nat}, m < Word.idLimit → (∀ e ∈ es, e.2.id < m) →
      es.foldlM (fun m e => return max m (← Word.nextId e.2.id)) m = .ok m := by
    intro es m hm hes
    induction es with
    | nil => rfl
    | cons e es ih =>
        obtain ⟨he, hes⟩ := List.forall_mem_cons.mp hes
        rw [List.foldlM_cons, Word.nextId_eq_ok.mpr ⟨Nat.lt_of_le_of_lt he hm, rfl⟩]
        show es.foldlM _ (max m (e.2.id + 1)) = _
        rw [Nat.max_eq_left he]
        exact ih hes
  exact hfold hlt hgiven

/-- The watch for cycles is never needed. -/
theorem expandAll_ends (hc : c.Furnished) {w id : Nat} {S : List Var}
    (hid : c.graph.Unfolds w S id) {s : State} (hs : s.nextVar < Word.idLimit) :
    Ends (c.graph.Meets c.graph.Overcounts [id]) (c.graph.bests [id]) (c.made [id]) s s.depth
      (expandAll c (.node id) s) := by
  have hnode := expandNode_ends hc hid (Nat.lt_succ_of_lt hid.lt_size) hs
  have hrun : (expandExpr (expandNode c (c.graph.size + 1)) (.node id)).run s =
      expandNode c (c.graph.size + 1) id s := rfl
  rw [expandAll, hrun]
  unfold Ends at hnode ⊢
  generalize expandNode c (c.graph.size + 1) id s = r at hnode ⊢
  cases hnode with
  | done hb hlt h => exact .done hb hlt h
  | many hb => exact .many hb
  | spent hle => exact .spent hle

end Expansion

namespace Task

variable {g : Graph} {w id : Nat} {ids : List Nat} {d d' : Draft}

/-! ### Outputs -/

/-- What a draft has for the outputs to come. -/
structure Draft.Ready (g : Graph) (d : Draft) : Prop where
  furnished : Context.Furnished ⟨g, d.storage⟩
  below     : ∀ e ∈ d.storage.entries, e.2.id < max g.nextVar d.nextVar
  next      : max g.nextVar d.nextVar < Word.idLimit

/-- The next id once the outputs `ids` have been added. -/
def Draft.after (d : Draft) (g : Graph) (ids : List Nat) : Nat :=
  max g.nextVar d.nextVar + (ids.map fun o => g.bests [o] + (g.reductions o).card).sum +
    (g.grids ids \ d.storage.keys.toFinset).card

/-- Adding an output takes the ids that it needs, or fails where they run out. -/
theorem addOutput_limited (hd : d.Ready g) (hid : g.Unfolds w [] id) :
    Limited (g.Meets g.Overcounts [id]) (d.after g [id])
      (fun d' => d'.nextVar = d.after g [id] ∧ d'.storage.keys.toFinset =
        d.storage.keys.toFinset ∪ Context.made ⟨g, d.storage⟩ [id]) (addOutput g d id) := by
  have hfirst : firstVar ⟨g, d.storage⟩ d.nextVar = .ok (max g.nextVar d.nextVar) :=
    firstVar_of_lt hd.below hd.next
  have hrun : addOutput g d id = (expandAll ⟨g, d.storage⟩ (.node id)
      ⟨.empty, max g.nextVar d.nextVar, 0⟩ >>= fun r => .ok (d.add r.1 r.2.supply)) := by
    simp only [addOutput, Graph.expandFrom, hfirst, ok_bind]
    cases expandAll ⟨g, d.storage⟩ (.node id) ⟨.empty, max g.nextVar d.nextVar, 0⟩ <;> rfl
  have hends := expandAll_ends hd.furnished hid (s := ⟨.empty, max g.nextVar d.nextVar, 0⟩) hd.next
  have hheld : State.held ⟨.empty, max g.nextVar d.nextVar, 0⟩ = ∅ := rfl
  have hafter : State.after ⟨.empty, max g.nextVar d.nextVar, 0⟩ (g.bests [id])
      (Context.made ⟨g, d.storage⟩ [id]) = d.after g [id] := by
    rw [State.after, hheld, Finset.sdiff_empty, Context.card_made]
    simp only [Draft.after, List.map_cons, List.map_nil, List.sum_cons, List.sum_nil]
    omega
  rw [hrun]
  refine (Limited.map hends fun r hr => ?_).imp Iff.rfl hafter fun _ h => h
  obtain ⟨hnext, hmade, -⟩ := hr
  refine ⟨hnext.trans hafter, ?_⟩
  rw [hheld, Finset.empty_union] at hmade
  rw [← hmade]
  ext k
  simp [Draft.add, Table.mem_keys_union, State.held, State.supply]

/-- Code is made from ids that the draft did not have. -/
theorem Draft.Ready.addOutput (hd : d.Ready g) (hid : g.Unfolds w [] id)
    (h : addOutput g d id = .ok d') (hnext : d'.nextVar < Word.idLimit) :
    max g.nextVar d'.nextVar = d'.nextVar ∧ d'.Ready g := by
  obtain ⟨next, p, u, ⟨hg, hdraft, -⟩, hcomputes, rfl⟩ := addOutput_eq_ok hid h
  have htidy := hcomputes.tidy (Supply.tidy_empty (Nat.le_refl next))
  have hmax : max g.nextVar u.nextVar = u.nextVar :=
    Nat.max_eq_right (Nat.le_trans hg htidy.start)
  refine ⟨hmax, ⟨hd.furnished.typed, fun i n hn hc => ?_⟩, fun e he => ?_, hmax ▸ hnext⟩
  · have hkey := Table.mem_keys_iff.mpr (hd.furnished.given i n hn hc)
    exact Table.mem_keys_iff.mp (Table.mem_keys_union.mpr (.inl hkey))
  · show e.2.id < max g.nextVar u.nextVar
    rcases Table.mem_entries_union he with he | he
    · have hbefore := hd.below e he
      have hstart := htidy.start
      omega
    · rw [hmax]
      exact (htidy.range e he).2

/-- Grids made for one output are there for the next. -/
theorem Draft.after_cons (hnext : d'.nextVar = d.after g [id])
    (hkeys : d'.storage.keys.toFinset =
      d.storage.keys.toFinset ∪ Context.made ⟨g, d.storage⟩ [id])
    (hmax : max g.nextVar d'.nextVar = d'.nextVar) : d'.after g ids = d.after g (id :: ids) := by
  have hgrid : ∀ k ∈ g.grids ids, k ∉ g.reductions id := by
    intro k hk hred
    simp only [Graph.grids, Graph.reductions, List.mem_toFinset, List.mem_filter] at hk hred
    exact Bool.false_ne_true ((Graph.not_isGrid_of_isReduction hred.2).symm.trans hk.2)
  have hparts : g.grids (id :: ids) \ d.storage.keys.toFinset =
      g.grids [id] \ d.storage.keys.toFinset ∪ g.grids ids \ d'.storage.keys.toFinset := by
    rw [Graph.grids_cons, hkeys, Context.made_eq]
    ext k
    have := hgrid k
    simp only [Finset.mem_union, Finset.mem_sdiff]
    tauto
  have hdisjoint : Disjoint (g.grids [id] \ d.storage.keys.toFinset)
      (g.grids ids \ d'.storage.keys.toFinset) := by
    rw [hkeys, Context.made_eq, Finset.disjoint_left]
    simp only [Finset.mem_union, Finset.mem_sdiff]
    tauto
  rw [Draft.after, hmax, hnext, Draft.after, Draft.after, hparts,
    Finset.card_union_of_disjoint hdisjoint]
  simp only [List.map_cons, List.map_nil, List.sum_cons, List.sum_nil]
  omega

theorem Draft.after_mono : d.after g [id] ≤ d.after g (id :: ids) := by
  have hgrids : g.grids [id] ⊆ g.grids (id :: ids) := by
    have hcons : g.grids (id :: ids) = g.grids [id] ∪ g.grids ids := Graph.grids_cons
    exact hcons ▸ Finset.subset_union_left
  have hcard : (g.grids [id] \ d.storage.keys.toFinset).card ≤
      (g.grids (id :: ids) \ d.storage.keys.toFinset).card :=
    Finset.card_le_card (Finset.sdiff_subset_sdiff hgrids subset_rfl)
  simp only [Draft.after, List.map_cons, List.map_nil, List.sum_cons, List.sum_nil]
  omega

theorem foldlM_limited (hids : ∀ id ∈ ids, g.Unfolds w [] id) (hd : d.Ready g) :
    Limited (g.Meets g.Overcounts ids) (d.after g ids) (fun _ => True)
      (ids.foldlM (addOutput g) d) := by
  induction ids generalizing d with
  | nil =>
      refine .done Graph.not_meets_nil ?_ trivial
      simpa [Draft.after, Graph.grids] using hd.next
  | cons id ids ih =>
      obtain ⟨hid, hids⟩ := List.forall_mem_cons.mp hids
      rw [List.foldlM_cons]
      refine ((addOutput_limited hd hid).bind Draft.after_mono fun d' hrun hlt hd' => ?_).imp
        Graph.meets_cons.symm rfl fun _ h => h
      obtain ⟨hnext, hkeys⟩ := hd'
      obtain ⟨hmax, hready⟩ := hd.addOutput hid hrun (hnext ▸ hlt)
      exact (ih hids hready).imp Iff.rfl (Draft.after_cons hnext hkeys hmax) fun _ h => h

/-! ### Parameters -/

theorem paramFor_limited {n : Node} (hn : g.node? id = some n) :
    Limited False (g.nextVar + 1) (fun r => r.2 = { g with nextVar := g.nextVar + 1 })
      ((paramFor id).result g) := by
  simp only [paramFor, Graph.Update.result_bind, Graph.Update.result_get, Graph.Update.result_lift,
    ok_bind, Graph.node_eq_ok.mpr hn, Graph.freshVar_result]
  by_cases hlt : g.nextVar + 1 < Word.idLimit
  · rw [Word.nextId_eq_ok.mpr ⟨hlt, rfl⟩]
    exact .done not_false hlt rfl
  · have hnext : Word.nextId g.nextVar = .error (.arithmetic .addOverflow) := if_neg hlt
    rw [hnext]
    exact .spent (Nat.le_of_not_lt hlt)

/-- Parameters take one id each. -/
theorem mapM_paramFor_limited (hids : ∀ id ∈ ids, ∃ n, g.node? id = some n)
    (hsome : ids ≠ [] ∨ g.nextVar < Word.idLimit) :
    Limited False (g.nextVar + ids.length) (fun _ => True) ((ids.mapM paramFor).result g) := by
  induction ids generalizing g with
  | nil => exact .done not_false (hsome.resolve_left (fun h => h rfl)) trivial
  | cons id ids ih =>
      obtain ⟨⟨n, hn⟩, hids⟩ := List.forall_mem_cons.mp hids
      rw [List.mapM_cons, Graph.Update.result_bind]
      refine ((paramFor_limited hn).bind ?_ fun r _ hlt hr => ?_).imp (or_self_iff) rfl fun _ h => h
      · simp only [List.length_cons]
        omega
      · have hlen : r.2.nextVar + ids.length = g.nextVar + (id :: ids).length := by
          rw [hr, List.length_cons]
          simp only
          omega
        have hrest := ih (g := r.2) (hr ▸ hids) (.inr (by rw [hr]; exact hlt))
        rw [Graph.Update.result_bind]
        exact (hrest.map fun _ _ => trivial).imp Iff.rfl hlen fun _ h => h

/-- The ids that a task takes. -/
def demand (t : Task) (g : Graph) : Nat :=
  (t.inputs ++ t.outputs).length +
    (t.outputs.map fun o => g.bests [o] + (g.reductions o).card).sum +
    (g.grids t.outputs \ (t.inputs ++ t.outputs).toFinset).card

/-- A task takes an id for each of the best values of an output. -/
theorem bests_le_demand {t : Task} {o : Nat} (ho : o ∈ t.outputs) : g.bests [o] ≤ t.demand g := by
  have hsum : g.bests [o] + (g.reductions o).card ≤
      (t.outputs.map fun o => g.bests [o] + (g.reductions o).card).sum :=
    List.single_le_sum (fun _ _ => Nat.zero_le _) _ (List.mem_map_of_mem ho)
  rw [demand]
  omega

/-- A task that can be computed: if there are ids for its parameters, its outputs make sense on their
own; every input of the graph is an input of it, and values have types. -/
structure Sensible (t : Task) (g : Graph) : Prop where
  nodes    : ∀ id ∈ t.inputs ++ t.outputs, ∃ n, g.node? id = some n
  outputs  : g.nextVar + (t.inputs ++ t.outputs).length < Word.idLimit →
    ∀ id ∈ t.outputs, g.Unfolds g.nextVar [] id
  nonempty : t.outputs ≠ []
  inputs   : ∀ (i : Nat) (n : Node), g.node? i = some n → n.compute = none → i ∈ t.inputs
  typed    : ∀ (i : Nat) (n : Node) (d : Compute), g.node? i = some n → n.compute = some d →
    ∃ s, g.typeOf d.value = .ok s

/-- With its parameters, a task is ready for its outputs. -/
theorem Sensible.ready {t : Task} (ht : t.Sensible g) {params : List Var}
    (hids : params.map (·.id) = List.range' g.nextVar (t.inputs ++ t.outputs).length)
    (hlt : g.nextVar + (t.inputs ++ t.outputs).length < Word.idLimit) :
    Draft.Ready { g with nextVar := g.nextVar + (t.inputs ++ t.outputs).length }
      ⟨Table.ofList ((t.inputs ++ t.outputs).zip params), [], [], 0⟩ := by
  have hlen : (t.inputs ++ t.outputs).length = params.length := by
    simpa using (congrArg List.length hids).symm
  refine ⟨⟨fun i n d hn hd => ?_, fun i n hn hc => ?_⟩, fun e he => ?_, ?_⟩
  · obtain ⟨s, hs⟩ := ht.typed i n d hn hd
    exact ⟨s, Graph.typeOf_mono (g.extends_nextVar _) hs⟩
  · refine Table.mem_keys_iff.mp (Table.mem_keys_ofList.mpr ?_)
    rw [List.map_fst_zip (Nat.le_of_eq hlen)]
    exact List.mem_append_left _ (ht.inputs i n hn hc)
  · have hmem := (List.of_mem_zip (Table.mem_entries_ofList he)).2
    have hid : e.2.id ∈ List.range' g.nextVar (t.inputs ++ t.outputs).length :=
      hids ▸ List.mem_map_of_mem hmem
    have hbound := (List.mem_range'_1.mp hid).2
    show e.2.id < max (g.nextVar + (t.inputs ++ t.outputs).length) 0
    rwa [Nat.max_zero]
  · show max (g.nextVar + (t.inputs ++ t.outputs).length) 0 < Word.idLimit
    rwa [Nat.max_zero]

/-- The ids that all outputs take are those that the task demands. -/
theorem after_start {t : Task} {params : List Var}
    (hlen : (t.inputs ++ t.outputs).length = params.length) :
    Draft.after ⟨Table.ofList ((t.inputs ++ t.outputs).zip params), [], [], 0⟩
      { g with nextVar := g.nextVar + (t.inputs ++ t.outputs).length } t.outputs =
      g.nextVar + t.demand g := by
  have hkeys : (Table.ofList ((t.inputs ++ t.outputs).zip params)).keys.toFinset =
      (t.inputs ++ t.outputs).toFinset := by
    ext k
    rw [List.mem_toFinset, List.mem_toFinset, Table.mem_keys_ofList,
      List.map_fst_zip (Nat.le_of_eq hlen)]
  simp only [Draft.after, hkeys, Graph.bests, Graph.reductions, Graph.grids, Graph.visits_nextVar,
    Nat.max_zero, demand]
  rw [Nat.add_assoc, Nat.add_assoc, Nat.add_assoc]
  rfl

/-- **When a task is lowered.**  It is, unless its ids run out or it reduces over too many points. -/
theorem lower_limited {t : Task} (ht : t.Sensible g) (kind : ProcKind) :
    Limited (g.Meets g.Overcounts t.outputs) (g.nextVar + t.demand g) (fun _ => True)
      ((t.lower kind).result g) := by
  have hsome : t.inputs ++ t.outputs ≠ [] := fun h => ht.nonempty (List.append_eq_nil_iff.mp h).2
  simp only [lower, Graph.Update.result_bind, Graph.Update.result_get, Graph.Update.result_lift,
    Graph.Update.result_pure, ok_bind]
  refine ((mapM_paramFor_limited ht.nodes (.inl hsome)).bind ?_ fun r hr hlt _ => ?_).imp
    (or_iff_right not_false) rfl fun _ h => h
  · simp only [demand]
    omega
  · obtain ⟨hids, -, hg⟩ := Graph.mapM_fresh (R := fun node? id v =>
      ∃ n, node? id = some n ∧ v.ty = n.kind.storage) paramFor_eq_ok
      (Graph.Update.result_eq_ok.mp hr)
    have hlen : (t.inputs ++ t.outputs).length = r.1.length := by
      simpa using (congrArg List.length hids).symm
    have houts : ∀ id ∈ t.outputs, Graph.Unfolds { g with nextVar :=
        g.nextVar + (t.inputs ++ t.outputs).length } g.nextVar [] id := fun id hid =>
      (ht.outputs hlt id hid).mono (g.extends_nextVar _) (Nat.le_refl _) (List.Subset.refl _)
        fun _ => .inl
    have hfold := foldlM_limited houts (ht.ready hids hlt)
    rw [after_start hlen] at hfold
    rw [hg]
    have hdraft := hfold.map (Q := fun _ => True) (f := fun d => (d, r.2)) fun _ _ => trivial
    exact (hg ▸ hdraft).map fun _ _ => trivial

end Task

end TensorLoops
