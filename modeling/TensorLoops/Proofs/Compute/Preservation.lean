import TensorLoops.Proofs.Compute.Storage

/-!
# Proofs — Compute — Preservation

Running the code of a node computes the node.  Code is run where the axes around it and the inputs
hold what they should (`Ready`).  It then leaves the nodes it was made for kept, and beyond that

* every node that was kept stays kept, also if it is computed again on the way: what it is worth
  depends on the axes around the code only, and those do not change (`Outcome.stable`);
* every node for which storage was made on the way and that depends on no axis is kept in the end,
  since loops run at least once (`Outcome.filled`);
* no other cell is written than those of axes, of storage of earlier nodes and of variables taken
  on the way (`Outcome.frame`).

Inside the loops of a node its own storage is neither kept nor touched by the code of its value, so
it can hold a fold over the points visited so far (`Folds.runs`).
-/

namespace TensorLoops

open Expansion Supply

namespace Setting

variable {V : Type} (E : Setting V)

/-- The axes in scope hold their values, and the inputs theirs. -/
structure Ready (S : List Var) (ρ : Env V) (m : Memory V) : Prop where
  axes   : ∀ v ∈ S, v.id < E.bound ∧ m (.scalar v.id) = ρ v.id
  inputs : ∀ (id : Nat) (n : Node), E.graph.node? id = some n → n.compute = none → E.Kept m ρ id

/-- Code for nodes before `b`, inside the axes `S`, may write to variables with this id: other
axes, storage of those nodes, and what is taken on the way. -/
def Touched (S : List Var) (b : Nat) (u u' : Supply) (i : Nat) : Prop :=
  (i < E.bound ∧ i ∉ S.map (·.id)) ∨
  (∃ id n, id < b ∧ E.graph.node? id = some n ∧ n.compute ≠ none ∧ E.Owns id i) ∨
  (u.nextVar ≤ i ∧ i < u'.nextVar)

/-- A node depends on the axes `S` only. -/
abbrev Steady (S : List Var) (id : Nat) : Prop := E.graph.Steady E.interp E.inputs S id

/-- What running code does beside computing the nodes it was made for. -/
structure Outcome (S : List Var) (b : Nat) (u u' : Supply) (ρ : Env V) (m m' : Memory V) :
    Prop where
  stable : ∀ id, E.Steady S id → E.Kept m ρ id → E.Kept m' ρ id
  filled : ∀ id v, u.created.find? id = none → u'.created.find? id = some v → E.Steady [] id →
    E.Kept m' ρ id
  frame  : ∀ p : Place, ¬ E.Touched S b u u' p.id → m' p = m p

variable {E} {S : List Var} {b b' : Nat} {u u₁ u' : Supply} {ρ : Env V} {m m₁ m' : Memory V}

theorem Touched.mono {T : List Var} {v v' : Supply} {i : Nat} (h : E.Touched S b u u' i)
    (hS : T ⊆ S) (hb : b ≤ b') (hu : v.nextVar ≤ u.nextVar) (hu' : u'.nextVar ≤ v'.nextVar) :
    E.Touched T b' v v' i := by
  rcases h with ⟨hlt, hi⟩ | ⟨id, n, hid, h⟩ | ⟨hle, hlt⟩
  · exact .inl ⟨hlt, fun hmem => hi (List.map_subset _ hS hmem)⟩
  · exact .inr (.inl ⟨id, n, Nat.lt_of_lt_of_le hid hb, h⟩)
  · exact .inr (.inr ⟨Nat.le_trans hu hle, Nat.lt_of_lt_of_le hlt hu'⟩)

/-- Axes in scope are not written. -/
theorem not_touched_axis (hE : E.Sound) (hbase : E.base ≤ u.nextVar) {v : Var} (hv : v ∈ S)
    (hlt : v.id < E.bound) : ¬ E.Touched S b u u' v.id := by
  rintro (⟨-, hnot⟩ | ⟨id, n, -, -, -, hown⟩ | ⟨hle, -⟩)
  · exact hnot (List.mem_map_of_mem hv)
  · exact absurd (hE.above hown) (by omega)
  · have := hE.start
    omega

namespace Outcome

theorem refl : E.Outcome S b u u ρ m m :=
  ⟨fun _ _ h => h, fun _ _ hnone hsome => (nomatch hnone.symm.trans hsome), fun _ _ => rfl⟩

/-- Outcomes of code one after the other make one. -/
theorem trans (h : E.Outcome S b u u₁ ρ m m₁) (h' : E.Outcome S b u₁ u' ρ m₁ m') (hu : Grows u u₁)
    (hu' : Grows u₁ u') : E.Outcome S b u u' ρ m m' where
  stable := fun id hs hk => h'.stable id hs (h.stable id hs hk)
  filled := fun id v hnone hsome hs => by
    -- what the first half has filled stays filled in the second
    cases hmid : u₁.created.find? id with
    | none => exact h'.filled id v hmid hsome hs
    | some x => exact h'.stable id (hs.mono (List.nil_subset _)) (h.filled id x hnone hmid hs)
  frame  := fun p hp => by
    have hS := List.Subset.refl S
    have hb := Nat.le_refl b
    rw [h'.frame p fun ht => hp (ht.mono hS hb hu.nextVar (Nat.le_refl _)),
      h.frame p fun ht => hp (ht.mono hS hb (Nat.le_refl _) hu'.nextVar)]

theorem mono (h : E.Outcome S b u u' ρ m m') (hb : b ≤ b') : E.Outcome S b' u u' ρ m m' :=
  ⟨h.stable, h.filled, fun p hp => h.frame p fun ht =>
    hp (ht.mono (List.Subset.refl _) hb (Nat.le_refl _) (Nat.le_refl _))⟩

/-- What was ready before the code is so after it. -/
theorem ready (hE : E.Sound) (h : E.Outcome S b u u' ρ m m') (hbase : E.base ≤ u.nextVar)
    (hm : E.Ready S ρ m) : E.Ready S ρ m' where
  axes   := fun v hv => by
    obtain ⟨hlt, hval⟩ := hm.axes v hv
    have hnot : ¬ E.Touched S b u u' (Place.scalar v.id).id := not_touched_axis hE hbase hv hlt
    exact ⟨hlt, (h.frame _ hnot).trans hval⟩
  inputs := fun id n hn hc => h.stable id (Graph.steady_input hn hc) (hm.inputs id n hn hc)

end Outcome

/-! ### Inside a node -/

section Node

variable (E : Setting V) (S : List Var) (id : Nat) (u u₁ u' : Supply) (ρ : Env V) (m : Memory V)

/-- While the node is computed the id may be written: the node may write it, and it is neither
storage of another node nor an axis in scope. -/
structure Harmless (i : Nat) : Prop where
  written : E.Touched S (id + 1) u u' i
  alone   : ∀ id', id' ≠ id → ¬ E.Owns id' i
  outside : i ∉ S.map (·.id)

/-- What has become of the rest of the memory `m` while the node is computed.  Once a point has
been visited, what the value of the node has made is filled. -/
structure Rest (visited : Prop) (m' : Memory V) : Prop where
  stable : ∀ id', id' ≠ id → E.Steady S id' → E.Kept m ρ id' → E.Kept m' ρ id'
  frame  : ∀ p : Place, ¬ E.Touched S (id + 1) u u' p.id → m' p = m p
  ready  : E.Ready S ρ m'
  filled : visited → ∀ id' v, id' ≠ id → u₁.created.find? id' = none →
    u'.created.find? id' = some v → E.Steady [] id' → E.Kept m' ρ id'

/-- A variable that holds what the node has computed so far: the code of the node's value, which
begins at `u₁`, leaves it alone. -/
structure Own (i : Nat) : Prop extends E.Harmless S id u u' i where
  above  : E.bound ≤ i
  before : i < u₁.nextVar

end Node

variable {id : Nat} {n : Node} {d : Compute} {visited : Prop}

theorem Rest.start (hm : E.Ready S ρ m) : E.Rest S id u u₁ u' ρ m False m :=
  ⟨fun _ _ _ h => h, fun _ _ => rfl, hm, False.elim⟩

theorem Rest.imp {visited' : Prop} (h : E.Rest S id u u₁ u' ρ m visited m')
    (himp : visited' → visited) : E.Rest S id u u₁ u' ρ m visited' m' :=
  { h with filled := fun hvis => h.filled (himp hvis) }

/-- Writing where it does no harm. -/
theorem Rest.of_agree (hc : n.compute ≠ none) (hn : E.graph.node? id = some n)
    (h : E.Rest S id u u₁ u' ρ m visited m₁)
    (hm : ∀ p : Place, ¬ E.Harmless S id u u' p.id → m' p = m₁ p) :
    E.Rest S id u u₁ u' ρ m visited m' := by
  have hkept : ∀ id', id' ≠ id → E.Kept m₁ ρ id' → E.Kept m' ρ id' := fun id' hne hk =>
    hk.of_agree fun p hp => hm p fun hharm => hharm.alone id' hne hp
  refine ⟨fun id' hne hs hk => hkept id' hne (h.stable id' hne hs hk), fun p hp => ?_,
    ⟨fun v hv => ?_, fun id' n' hn' hc' => ?_⟩,
    fun hvis id' v hne hnone hsome hs => hkept id' hne (h.filled hvis id' v hne hnone hsome hs)⟩
  · rw [hm p fun hharm => hp hharm.written, h.frame p hp]
  · obtain ⟨hlt, hval⟩ := h.ready.axes v hv
    refine ⟨hlt, (hm _ fun hharm => ?_).trans hval⟩
    exact hharm.outside (List.mem_map_of_mem hv)
  · refine hkept id' ?_ (h.ready.inputs id' n' hn' hc')
    rintro rfl
    obtain rfl := Option.some.inj (hn.symm.trans hn')
    exact hc hc'

theorem Rest.update (hc : n.compute ≠ none) (hn : E.graph.node? id = some n)
    (h : E.Rest S id u u₁ u' ρ m visited m₁) {i : Nat} (hi : E.Harmless S id u u' i) (x : V) :
    E.Rest S id u u₁ u' ρ m visited (Function.update m₁ (.scalar i) x) := by
  refine h.of_agree hc hn fun p hp => update_of_id_ne (fun hid : p.id = i => ?_) x
  exact hp (hid ▸ hi)

/-- Storage of the node may be written. -/
theorem harmless_of_owns (hE : E.Sound) (hn : E.graph.node? id = some n) (hc : n.compute ≠ none)
    (hm : E.Ready S ρ m) {i : Nat} (hown : E.Owns id i) : E.Harmless S id u u' i where
  written := .inr (.inl ⟨id, n, Nat.lt_succ_self id, hn, hc, hown⟩)
  alone   := fun _ hne hown' => hne (hE.owner hown' hown)
  outside := fun hmem => by
    obtain ⟨v, hv, rfl⟩ := List.mem_map.mp hmem
    exact absurd (hE.above hown) (by have := (hm.axes v hv).1; omega)

theorem own_of_owns (hE : E.Sound) (hn : E.graph.node? id = some n) (hc : n.compute ≠ none)
    (hm : E.Ready S ρ m) {i : Nat} (hown : E.Owns id i) (hlt : i < u₁.nextVar) :
    E.Own S id u u₁ u' i :=
  ⟨harmless_of_owns hE hn hc hm hown, hE.above hown, hlt⟩

/-- A variable taken for the node besides storage. -/
theorem own_of_taken (hE : E.Sound) (hm : E.Ready S ρ m) (htidy : u₁.Tidy E.base) (hu : Grows u u₁)
    (hu' : Grows ⟨u₁.created, u₁.nextVar + 1⟩ u') (hmade : Grows u' E.made) :
    E.Own S id u ⟨u₁.created, u₁.nextVar + 1⟩ u' u₁.nextVar := by
  have hbase := htidy.start
  have hstart := hE.start
  refine ⟨⟨.inr (.inr ⟨hu.nextVar, hu'.nextVar⟩), ?alone, ?outside⟩, by omega, Nat.lt_succ_self _⟩
  case alone =>
    rintro id' - ⟨v, f, hslot, hid⟩
    cases hslot with
    | given hv => exact absurd (hE.early hv) (by omega)
    | made hv => exact (hu'.trans hmade).ne_of_taken htidy hv hid
  case outside =>
    intro hmem
    obtain ⟨v, hv, hid⟩ := List.mem_map.mp hmem
    exact absurd (hm.axes v hv).1 (by omega)

/-- The code of the value does not write to it. -/
theorem Own.not_touched {T : List Var} {i : Nat} (h : E.Own S id u u₁ u' i) :
    ¬ E.Touched T id u₁ u' i := by
  have habove := h.above
  have hbefore := h.before
  rintro (⟨hlt, -⟩ | ⟨id', _, hlt, -, -, howns⟩ | ⟨hle, -⟩)
  · omega
  · exact h.alone id' (Nat.ne_of_lt hlt) howns
  · omega

/-- The axes of the node may be written. -/
theorem harmless_of_axis (hE : E.Sound) {kind : NodeKind} (hwf : d.WellFormed kind id E.bound S)
    {v : Var} (hv : v ∈ d.axes) : E.Harmless S id u u' v.id where
  written := .inl ⟨hwf.below v hv, hwf.fresh v hv⟩
  alone   := fun _ _ hown => absurd (hE.above hown) (by have := hwf.below v hv; omega)
  outside := hwf.fresh v hv

/-- At a point of the loops the value of the node can be computed. -/
theorem Ready.enter (hm : E.Ready S ρ m) {kind : NodeKind} (hwf : d.WellFormed kind id E.bound S)
    {pt : List Int} (hlen : pt.length = d.axes.length)
    (hpt : ∀ a ∈ d.axes.zip pt, m (.scalar a.1.id) = E.interp.counter a.2) :
    E.Ready (d.axes ++ S) (ρ.bind E.interp d.axes pt) m where
  axes   := List.forall_mem_append.mpr ⟨fun v hv => ⟨hwf.below v hv, by
    obtain ⟨i, hi⟩ : ∃ i, (v, i) ∈ d.axes.zip pt := by
      obtain ⟨k, hk, rfl⟩ := List.getElem_of_mem hv
      exact ⟨pt[k], List.mem_iff_getElem.mpr ⟨k, by simp [hlen, hk], by simp⟩⟩
    rw [hpt _ hi, Env.bind_eq_counter hwf.nodup _ hi]⟩,
    fun v hv => ⟨(hm.axes v hv).1, by
      rw [Env.bind_of_notMem fun hmem => ?_, (hm.axes v hv).2]
      obtain ⟨a, ha, hid⟩ := List.mem_map.mp hmem
      exact hwf.fresh a ha (hid ▸ List.mem_map_of_mem hv)⟩⟩
  inputs := fun id' n' hn' hc' =>
    (hm.inputs id' n' hn' hc').congr (S := []) (Graph.steady_input hn' hc') nofun

/-- The loops of a node leave the axes around them alone. -/
theorem bind_eq_of_mem {kind : NodeKind} (hwf : d.WellFormed kind id E.bound S) (pt : List Int) :
    ∀ v ∈ S, ρ v.id = ρ.bind E.interp d.axes pt v.id := by
  intro v hv
  rw [Env.bind_of_notMem fun hmem => ?_]
  obtain ⟨a, ha, hid⟩ := List.mem_map.mp hmem
  exact hwf.fresh a ha (hid ▸ List.mem_map_of_mem hv)

/-- The value of the node has been computed at a point. -/
theorem Rest.inner (hE : E.Sound) {kind : NodeKind} (hwf : d.WellFormed kind id E.bound S)
    (hu : Grows u u₁) (hbase : E.base ≤ u₁.nextVar) (h : E.Rest S id u u₁ u' ρ m visited m₁)
    {pt : List Int} (hm : E.Ready (d.axes ++ S) (ρ.bind E.interp d.axes pt) m₁)
    (ho : E.Outcome (d.axes ++ S) id u₁ u' (ρ.bind E.interp d.axes pt) m₁ m') :
    E.Rest S id u u₁ u' ρ m True m' := by
  have hρ := bind_eq_of_mem (ρ := ρ) hwf pt
  have hm' := ho.ready hE hbase hm
  refine ⟨fun id' hne hs hk => ?stable, fun p hp => ?frame,
    ⟨fun v hv => ?axes, fun id' n' hn' hc' => ?inputs⟩, fun _ id' v _ hnone hsome hs => ?filled⟩
  case stable =>
    -- kept for the axes around the node, hence for those of the loops too, and back
    have hk := (h.stable id' hne hs hk).congr hs hρ
    have hk' := ho.stable id' (hs.mono (List.subset_append_right _ _)) hk
    exact hk'.congr hs fun v hv => (hρ v hv).symm
  case frame =>
    rw [ho.frame p fun ht => hp (ht.mono (List.subset_append_right _ _) (Nat.le_succ id) hu.nextVar
      (Nat.le_refl _)), h.frame p hp]
  case axes =>
    obtain ⟨hlt, hval⟩ := hm'.axes v (List.mem_append_right _ hv)
    exact ⟨hlt, hval.trans (hρ v hv).symm⟩
  case inputs =>
    exact (hm'.inputs id' n' hn' hc').congr (S := []) (Graph.steady_input hn' hc') nofun
  case filled => exact (ho.filled id' v hnone hsome hs).congr hs nofun

/-- The value of the node's definition can be computed by `p`, from `u₁` on. -/
def Computable (E : Setting V) (S : List Var) (id : Nat) (d : Compute) (u₁ u' : Supply)
    (p : Piece) : Prop :=
  ∀ ρ m, E.Ready (d.axes ++ S) ρ m → E.graph.InBounds E.interp E.inputs ρ d.value →
    ∃ m', Runs E.interp p.stmts m m' ∧ E.Outcome (d.axes ++ S) id u₁ u' ρ m m' ∧
      eval E.interp m' p.value = some (E.valueIn ρ d.value)

/-- How a node folds the points of its loops into its variables `own`.  `Acc` says what they hold
once the points of a list have been visited, and `tail` brings in one more point. -/
structure Folds (E : Setting V) (S : List Var) (id : Nat) (d : Compute) (u u₁ u' : Supply)
    (ρ : Env V) (p : Piece) (tail : List Stmt) (own : List Nat)
    (Acc : List (List Int) → Memory V → Prop) : Prop where
  owned : ∀ i ∈ own, E.Own S id u u₁ u' i
  only  : ∀ {done m m'}, (∀ q : Place, q.id ∈ own → m' q = m q) → Acc done m → Acc done m'
  next  : ∀ {done pt m}, Within d.extents pt → Acc done m →
    (∀ v ∈ d.axes, m (.scalar v.id) = ρ.bind E.interp d.axes pt v.id) →
    eval E.interp m p.value = some (E.valueIn (ρ.bind E.interp d.axes pt) d.value) →
    ∃ m', Runs E.interp tail m m' ∧ Acc (done ++ [pt]) m' ∧ ∀ q : Place, q.id ∉ own → m' q = m q

section Loops

variable {p : Piece} {tail : List Stmt} {own : List Nat} {Acc : List (List Int) → Memory V → Prop}

/-- Variables that hold what has been computed are no axes. -/
theorem Folds.axis_notMem (h : E.Folds S id d u u₁ u' ρ p tail own Acc)
    (hwf : d.WellFormed n.kind id E.bound S) {v : Var} (hv : v ∈ d.axes) : v.id ∉ own := fun hmem =>
  Nat.not_lt.mpr (h.owned _ hmem).above (hwf.below v hv)

/-- One point of the loops. -/
theorem Folds.point (h : E.Folds S id d u u₁ u' ρ p tail own Acc) (hE : E.Sound)
    (hn : E.graph.node? id = some n) (hc : n.compute ≠ none)
    (hwf : d.WellFormed n.kind id E.bound S) (hu : Grows u u₁) (hbase : E.base ≤ u₁.nextVar)
    (hvalue : E.Computable S id d u₁ u' p) {done : List (List Int)} {pt : List Int}
    (hrest : E.Rest S id u u₁ u' ρ m visited m₁) (hacc : Acc done m₁) (hpt : Within d.extents pt)
    (haxes : ∀ a ∈ d.axes.zip pt, m₁ (.scalar a.1.id) = E.interp.counter a.2)
    (hbounds : E.graph.InBounds E.interp E.inputs (ρ.bind E.interp d.axes pt) d.value) :
    ∃ m', Runs E.interp (p.stmts ++ tail) m₁ m' ∧ E.Rest S id u u₁ u' ρ m True m' ∧
      Acc (done ++ [pt]) m' ∧ ∀ v ∈ d.axes, m' (.scalar v.id) = m₁ (.scalar v.id) := by
  have hready := hrest.ready.enter hwf (hpt.length_eq.trans hwf.length.symm) haxes
  obtain ⟨m₂, hrun, ho, heval⟩ := hvalue _ _ hready hbounds
  have hready' := ho.ready hE hbase hready
  have hacc₂ : Acc done m₂ := h.only (fun q hq => ho.frame q (h.owned _ hq).not_touched) hacc
  obtain ⟨m', hrun', hacc', hagree⟩ := h.next hpt hacc₂
    (fun v hv => (hready'.axes v (List.mem_append_left _ hv)).2) heval
  have hrest' := (hrest.inner hE hwf hu hbase hready ho).of_agree hc hn
    fun q hq => hagree q fun hmem => hq (h.owned _ hmem).toHarmless
  refine ⟨m', hrun.append hrun', hrest', hacc', fun v hv => ?_⟩
  rw [hagree (.scalar v.id) (h.axis_notMem hwf hv), ho.frame (.scalar v.id)
    (not_touched_axis hE hbase (List.mem_append_left S hv) (hwf.below v hv))]

/-- **The loops of a node** fold in all points. -/
theorem Folds.runs (h : E.Folds S id d u u₁ u' ρ p tail own Acc) (hE : E.Sound)
    (hn : E.graph.node? id = some n) (hc : n.compute = some d)
    (hwf : d.WellFormed n.kind id E.bound S) (hu : Grows u u₁) (hbase : E.base ≤ u₁.nextVar)
    (hvalue : E.Computable S id d u₁ u' p)
    (hbounds : E.graph.NodeInBounds E.interp E.inputs ρ id)
    (hrest : E.Rest S id u u₁ u' ρ m False m₁) (hstart : Acc [] m₁) :
    ∃ m', Runs E.interp (nest (d.axes.zip d.extents) (p.stmts ++ tail)) m₁ m' ∧
      E.Rest S id u u₁ u' ρ m True m' ∧ Acc (points d.extents) m' := by
  have hc' : n.compute ≠ none := hc ▸ Option.some_ne_none _
  have hloops : ∃ m', Runs E.interp (nest (d.axes.zip d.extents) (p.stmts ++ tail)) m₁ m' ∧
      E.Rest S id u u₁ u' ρ m (points d.extents ≠ []) m' ∧ Acc (points d.extents) m' := by
    refine runs_nest hwf.length hwf.nodup (fun k hk => (hwf.extents k hk).2)
      (fun done m' => E.Rest S id u u₁ u' ρ m (done ≠ []) m' ∧ Acc done m')
      ?axis ?point ⟨hrest.imp fun hne => hne rfl, hstart⟩
    case axis =>
      rintro v hv done m₂ x ⟨hrest₂, hacc⟩
      refine ⟨hrest₂.update hc' hn (harmless_of_axis hE hwf hv) x,
        h.only (fun q hq => update_of_id_ne (fun hid : q.id = v.id => ?_) x) hacc⟩
      exact h.axis_notMem hwf hv (hid ▸ hq)
    case point =>
      rintro done pt m₂ hpt ⟨hrest₂, hacc⟩ haxes
      obtain ⟨m', hrun, hrest', hacc', hsame⟩ := h.point hE hn hc' hwf hu hbase hvalue hrest₂ hacc
        hpt haxes (hbounds.value hn hc pt hpt)
      exact ⟨m', hrun, ⟨hrest'.imp fun _ => trivial, hacc'⟩, hsame⟩
  obtain ⟨m', hrun, hrest', hacc⟩ := hloops
  -- extents are positive, so some point has been visited
  have hvisited : points d.extents ≠ [] := points_ne_nil fun k hk => (hwf.extents k hk).1
  exact ⟨m', hrun, hrest'.imp fun _ => hvisited, hacc⟩

end Loops

/-- A node that has been computed. -/
theorem Rest.outcome (h : E.Rest S id u u₁ u' ρ m True m') (hkept : E.Kept m' ρ id)
    (hsame : ∀ id', id' ≠ id → u₁.created.find? id' = u.created.find? id') :
    E.Outcome S (id + 1) u u' ρ m m' := by
  refine ⟨fun id' hs hk => ?_, fun id' v hnone hsome hs => ?_, h.frame⟩
  · by_cases hid : id' = id
    · exact hid ▸ hkept
    · exact h.stable id' hid hs hk
  · by_cases hid : id' = id
    · exact hid ▸ hkept
    · exact h.filled trivial id' v hid ((hsame id' hid).trans hnone) hsome hs

end Setting

end TensorLoops
