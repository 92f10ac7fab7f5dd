import TensorLoops.Proofs.Source.Reading

/-!
# Proofs — Source — WellScoped

A program that was read is well scoped.  The eight functions that read expressions call one
another with a smaller allowance, so what they give is shown together, by induction on the
allowance (`ReadsAt`).  Statements then extend a reading in which every declared name stands for
a node that unfolds on its own (`Reading.Sound`), and what is left at the end is `WellScoped`.
-/

namespace TensorLoops

/-- The id leads to a node, and as long as there are ids for all nodes to one that makes sense on its
own. -/
structure Graph.Closed (g : Graph) (id : Nat) : Prop where
  found   : ∃ n, g.node? id = some n
  unfolds : g.Compact → g.Unfolds g.nextVar [] id

/-- A closed node is closed in a graph that has grown. -/
theorem Graph.Closed.mono {g g' : Graph} {id : Nat} (h : g.Closed id) (hg : g.Extends g')
    (hcompact : g'.Compact → g.Compact) (hnext : g.nextVar ≤ g'.nextVar) : g'.Closed id where
  found   := h.found.imp (hg id)
  unfolds := fun hg' =>
    (h.unfolds (hcompact hg')).mono hg hnext (List.Subset.refl _) fun _ => .inl

namespace Program

/-- The inputs of the program are the nodes that are not computed, and what is bound to a name or
put out can be computed from them.  Every id leads to a node that makes sense where it stands, and
each node is an input or owns an axis. -/
structure WellScoped (p : Program) : Prop where
  inputs   : ∀ id ∈ p.inputs, ∃ n, p.graph.node? id = some n ∧ (p.graph.Compact → n.compute = none)
  computed : ∀ (id : Nat) (n : Node), p.graph.node? id = some n → n.compute = none → id ∈ p.inputs
  bindings : ∀ b ∈ p.bindings, p.graph.Closed b.2
  outputs  : ∀ id ∈ p.outputs, p.graph.Closed id
  settled  : p.graph.Settled []
  size     : p.graph.size ≤ p.graph.axes.length + p.inputs.length

/-- As long as there are ids for all nodes, the inputs are the nodes that are not computed. -/
theorem WellScoped.mem_inputs_iff {p : Program} (hp : p.WellScoped) (hcompact : p.graph.Compact)
    {id : Nat} {n : Node} (hn : p.graph.node? id = some n) : id ∈ p.inputs ↔ n.compute = none := by
  refine ⟨fun hid => ?_, hp.computed id n hn⟩
  obtain ⟨m, hm, hc⟩ := hp.inputs id hid
  obtain rfl := Option.some.inj (hn.symm.trans hm)
  exact hc hcompact

namespace Reader

/-! ### Expressions -/

/-- What the readers of expressions give at allowance `n`. -/
structure ReadsAt (n : Nat) : Prop where
  level     : ∀ scope l, Reads scope (level scope n l) (ScopedIn scope)
  operand   : ∀ scope l, Reads scope (operand scope n l) (ScopedIn scope)
  chain     : ∀ scope l lhs w r e r', Inside w scope r → ScopedIn scope r lhs →
    chain scope n l lhs r = .ok (e, r') → Later r r' ∧ Inside w scope r' ∧ ScopedIn scope r' e
  unary     : ∀ scope, Reads scope (unary scope n) (ScopedIn scope)
  primary   : ∀ scope, Reads scope (primary scope n) (ScopedIn scope)
  named     : ∀ scope name, Reads scope (named scope n name) (ScopedIn scope)
  reduction : ∀ scope name, Reads scope (reduction scope n name) (NodeIn scope)
  body      : ∀ scope list w r b r', Inside w scope r → body scope n list r = .ok (b, r') →
    Later r r' ∧ BodyIn scope r.program.graph.nextVar list r' b

variable {n : Nat} {scope : Scope}

/-- An expression of a level is read in scope. -/
theorem level_reads (hn : ReadsAt n) (l : Level) :
    Reads scope (level scope (n + 1) l) (ScopedIn scope) := by
  intro w r e r' hr h
  obtain ⟨lhs, r₁, l₁, hr₁, hlhs, h⟩ := (hn.operand scope l).peel hr h
  obtain ⟨l₂, hr₂, he⟩ := hn.chain scope l lhs w r₁ e r' hr₁ hlhs h
  exact ⟨l₁.trans l₂, hr₂, he⟩

theorem operand_reads (hn : ReadsAt n) (l : Level) :
    Reads scope (operand scope (n + 1) l) (ScopedIn scope) := by
  unfold operand
  split
  · exact hn.level scope _
  · exact hn.unary scope

/-- A chain is read in scope if what it begins with is. -/
theorem chain_reads (hn : ReadsAt n) {l : Level} {lhs e : Expr} {w : Nat} {r r' : Reading}
    (hr : Inside w scope r) (hlhs : ScopedIn scope r lhs)
    (h : chain scope (n + 1) l lhs r = .ok (e, r')) :
    Later r r' ∧ Inside w scope r' ∧ ScopedIn scope r' e := by
  obtain ⟨t, r₁, l₁, hr₁, -, h⟩ := current_keeps.peel hr h
  match hop : t.bind l.operator? with
  | none =>
      rw [hop] at h
      obtain ⟨rfl, rfl⟩ := Prod.mk.inj (step_pure_eq_ok.mp h)
      exact ⟨l₁, hr₁, hlhs.later l₁⟩
  | some op =>
      rw [hop] at h
      obtain ⟨_, r₂, l₂, hr₂, -, h⟩ := advance_keeps.peel hr₁ h
      obtain ⟨rhs, r₃, l₃, hr₃, hrhs, h⟩ := (hn.operand scope l).peel hr₂ h
      have l₁₃ : Later r r₃ := l₁.trans (l₂.trans l₃)
      have hbin : ScopedIn scope r₃ (.binary op lhs rhs) := fun hcompact =>
        .binary (hlhs.later l₁₃ hcompact) (hrhs hcompact)
      split at h
      · obtain ⟨l₄, hr₄, he⟩ := hn.chain scope l _ w r₃ e r' hr₃ hbin h
        exact ⟨l₁₃.trans l₄, hr₄, he⟩
      · obtain ⟨rfl, rfl⟩ := Prod.mk.inj (step_pure_eq_ok.mp h)
        exact ⟨l₁₃, hr₃, hbin⟩

theorem unary_reads (hn : ReadsAt n) : Reads scope (unary scope (n + 1)) (ScopedIn scope) := by
  intro w r e r' hr h
  obtain ⟨t, r₁, l₁, hr₁, -, h⟩ := current_keeps.peel hr h
  split at h
  · obtain ⟨_, r₂, l₂, hr₂, -, h⟩ := advance_keeps.peel hr₁ h
    obtain ⟨x, r₃, l₃, hr₃, hx, h⟩ := (hn.unary scope).peel hr₂ h
    obtain ⟨rfl, rfl⟩ := Prod.mk.inj (step_pure_eq_ok.mp h)
    exact ⟨l₁.trans (l₂.trans l₃), hr₃, fun hcompact => .unary (hx hcompact)⟩
  · obtain ⟨_, r₂, l₂, hr₂, -, h⟩ := advance_keeps.peel hr₁ h
    obtain ⟨x, r₃, l₃, hr₃, hx, h⟩ := (hn.unary scope).peel hr₂ h
    obtain ⟨rfl, rfl⟩ := Prod.mk.inj (step_pure_eq_ok.mp h)
    exact ⟨l₁.trans (l₂.trans l₃), hr₃, fun hcompact => .unary (hx hcompact)⟩
  · obtain ⟨l₂, hr₂, he⟩ := hn.primary scope w r₁ e r' hr₁ h
    exact ⟨l₁.trans l₂, hr₂, he⟩

/-- The meaning of a call is built from its arguments. -/
theorem call_reads {name : String} {args : List Expr} {r r' : Reading} {e : Expr}
    (hargs : ∀ a ∈ args, ScopedIn scope r a) (h : call name args r = .ok (e, r')) :
    r = r' ∧ ScopedIn scope r' e := by
  unfold call at h
  split at h
  · obtain ⟨rfl, rfl⟩ := Prod.mk.inj (step_pure_eq_ok.mp h)
    exact ⟨rfl, fun hcompact =>
      .binary (hargs _ (by simp) hcompact) (hargs _ (by simp) hcompact)⟩
  · obtain ⟨rfl, rfl⟩ := Prod.mk.inj (step_pure_eq_ok.mp h)
    exact ⟨rfl, fun hcompact =>
      .binary (hargs _ (by simp) hcompact) (hargs _ (by simp) hcompact)⟩
  · cases hs : Scalar.ofName? name with
    | none =>
        rw [hs] at h
        exact nomatch h
    | some s =>
        rw [hs] at h
        obtain ⟨rfl, rfl⟩ := Prod.mk.inj (step_pure_eq_ok.mp h)
        exact ⟨rfl, fun hcompact => .cast (hargs _ (by simp) hcompact)⟩
  · exact nomatch h

theorem primary_reads (hn : ReadsAt n) : Reads scope (primary scope (n + 1)) (ScopedIn scope) := by
  intro w r e r' hr h
  obtain ⟨t, r₁, l₁, hr₁, -, h⟩ := current_keeps.peel hr h
  split at h
  · obtain ⟨_, r₂, l₂, hr₂, -, h⟩ := advance_keeps.peel hr₁ h
    obtain ⟨rfl, rfl⟩ := Prod.mk.inj (step_pure_eq_ok.mp h)
    exact ⟨l₁.trans l₂, hr₂, fun _ => .const⟩
  · obtain ⟨_, r₂, l₂, hr₂, -, h⟩ := advance_keeps.peel hr₁ h
    obtain ⟨rfl, rfl⟩ := Prod.mk.inj (step_pure_eq_ok.mp h)
    exact ⟨l₁.trans l₂, hr₂, fun _ => .const⟩
  · obtain ⟨_, r₂, l₂, hr₂, -, h⟩ := advance_keeps.peel hr₁ h
    obtain ⟨x, r₃, l₃, hr₃, hx, h⟩ := (hn.level scope .disjunction).peel hr₂ h
    obtain ⟨_, r₄, l₄, hr₄, -, h⟩ := expect_keeps.peel hr₃ h
    obtain ⟨rfl, rfl⟩ := Prod.mk.inj (step_pure_eq_ok.mp h)
    exact ⟨l₁.trans (l₂.trans (l₃.trans l₄)), hr₄, hx.later l₄⟩
  · obtain ⟨isRed, r₂, l₂, hr₂, -, h⟩ := atReduction_keeps.peel hr₁ h
    split at h
    · obtain ⟨id, r₃, l₃, hr₃, hid, h⟩ := (hn.reduction scope none).peel hr₂ h
      obtain ⟨rfl, rfl⟩ := Prod.mk.inj (step_pure_eq_ok.mp h)
      exact ⟨l₁.trans (l₂.trans l₃), hr₃, hid.scopedIn⟩
    · obtain ⟨f, r₃, l₃, hr₃, -, h⟩ := following_keeps.peel hr₂ h
      have l₁₃ := l₁.trans (l₂.trans l₃)
      split at h
      · obtain ⟨_, r₄, l₄, hr₄, -, h⟩ := advance_keeps.peel hr₃ h
        obtain ⟨_, r₅, l₅, hr₅, -, h⟩ := expect_keeps.peel hr₄ h
        obtain ⟨args, r₆, l₆, hr₆, hargs, h⟩ :=
          ((hn.level scope .disjunction).commaList n).peel hr₅ h
        obtain ⟨_, r₇, l₇, hr₇, -, h⟩ := expect_keeps.peel hr₆ h
        obtain ⟨rfl, he⟩ := call_reads (fun a ha => (hargs a ha).later l₇) h
        exact ⟨l₁₃.trans (l₄.trans (l₅.trans (l₆.trans l₇))), hr₇, he⟩
      · obtain ⟨_, r₄, l₄, hr₄, -, h⟩ := advance_keeps.peel hr₃ h
        obtain ⟨l₅, hr₅, he⟩ := hn.named scope _ w r₄ e r' hr₄ h
        exact ⟨l₁₃.trans (l₄.trans l₅), hr₅, he⟩
  · exact nomatch h
  · exact (unexpected_ensures (Q := fun _ => False) r₁ e r' hr₁.counts h).2.2.elim

/-- Reading the definition of a declared node changes nothing. -/
theorem onGraph_node_eq_ok {id : Nat} {m : Node} {r r' : Reading}
    (h : onGraph (do Graph.Update.lift ((← get).node id)) r = .ok (m, r')) :
    r = r' ∧ r.program.graph.node? id = some m := by
  obtain ⟨g, hu, rfl⟩ := onGraph_eq_ok h
  simp only [Graph.updates_bind, Graph.updates_get, Graph.updates_lift] at hu
  obtain ⟨_, _, ⟨rfl, rfl⟩, hm, rfl⟩ := hu
  exact ⟨rfl, Graph.node_eq_ok.mp hm⟩

theorem mem_of_lookup {α : Type} {xs : List (String × α)} {name : String} {a : α}
    (h : xs.lookup name = some a) : (name, a) ∈ xs := by
  obtain ⟨xs₁, xs₂, rfl, -⟩ := List.lookup_eq_some_iff.mp h
  simp

theorem named_reads (hn : ReadsAt n) (name : String) :
    Reads scope (named scope (n + 1) name) (ScopedIn scope) := by
  intro w r e r' hr h
  unfold named at h
  match hv : scope.lookup name with
  | some v =>
      rw [hv] at h
      obtain ⟨rfl, rfl⟩ := Prod.mk.inj (step_pure_eq_ok.mp h)
      exact ⟨.refl _, hr, fun _ => .var (List.mem_map.mpr ⟨_, mem_of_lookup hv, rfl⟩)⟩
  | none =>
      rw [hv, step_get_bind_eq_ok] at h
      match hs : r.symbols.lookup name with
      | none =>
          rw [hs] at h
          exact nomatch h
      | some id =>
          rw [hs] at h
          obtain ⟨m, r₁, hm, h⟩ := step_bind_eq_ok.mp h
          obtain ⟨rfl, hnode⟩ := onGraph_node_eq_ok hm
          cases hk : m.kind with
          | scalar s =>
              rw [hk] at h
              obtain ⟨b, r₂, l₂, hr₂, -, h⟩ := atToken_keeps.peel hr h
              split at h
              · exact nomatch h
              · obtain ⟨rfl, rfl⟩ := Prod.mk.inj (step_pure_eq_ok.mp h)
                have hscoped : ScopedIn scope r (.node id) := fun hcompact =>
                  .node hnode hk (hr.unfolds hcompact (mem_of_lookup hs))
                exact ⟨l₂, hr₂, hscoped.later l₂⟩
          | tensor s shape =>
              rw [hk] at h
              obtain ⟨b, r₂, l₂, hr₂, -, h⟩ := atToken_keeps.peel hr h
              split at h
              · obtain ⟨_, r₃, l₃, hr₃, -, h⟩ := advance_keeps.peel hr₂ h
                obtain ⟨idxs, r₄, l₄, hr₄, hidxs, h⟩ :=
                  ((hn.level scope .disjunction).commaList n).peel hr₃ h
                obtain ⟨_, r₅, l₅, hr₅, -, h⟩ := expect_keeps.peel hr₄ h
                obtain ⟨rfl, rfl⟩ := Prod.mk.inj (step_pure_eq_ok.mp h)
                have l₁₅ := l₂.trans (l₃.trans (l₄.trans l₅))
                refine ⟨l₁₅, hr₅, fun hcompact => ?_⟩
                have hid := hr₅.unfolds hcompact (l₁₅.symbols ▸ mem_of_lookup hs)
                exact .element (l₁₅.graph.extended _ _ hnode) hk hid fun e he =>
                  (hidxs e he).later l₅ hcompact
              · exact nomatch h

/-- What comes after the axes of a reduction. -/
theorem reductionBody_reads (hn : ReadsAt n) {name : String} {op : Reduction} {index : Scalar}
    {list : List (String × Nat)} {w id : Nat} {r r' : Reading} (hr : Inside w scope r)
    (hlist : list ≠ [] ∧ ∀ a ∈ list, 0 < a.2 ∧ a.2 < 2 ^ 63)
    (h : (do
      modify fun r : Reading => { r with reductions := r.reductions + 1 }
      let (vars, value) ← body scope n list
      addReduction name op index (list.map Prod.snd) vars value : Reader Nat) r = .ok (id, r')) :
    Later r r' ∧ Inside w scope r' ∧ NodeIn scope r' id := by
  rw [step_modify_bind_eq_ok] at h
  obtain ⟨b, r₁, hbody, h⟩ := step_bind_eq_ok.mp h
  have l₁ : Later r { r with reductions := r.reductions + 1 } :=
    .of_program_eq rfl rfl (List.Subset.refl _)
  obtain ⟨l₂, hb⟩ := hn.body scope list w _ b r₁ (hr.later l₁ hr.settled) hbody
  obtain ⟨l₃, hsettled, hid⟩ :=
    addReduction_reads hlist.1 hlist.2 (fun a ha => (hr.scope a ha).2) hb h
  have hlater := l₁.trans (l₂.trans l₃)
  exact ⟨hlater, hr.later hlater hsettled, hid⟩

/-- A reduction is read as a node in scope. -/
theorem reduction_reads (hn : ReadsAt n) (name : Option String) :
    Reads scope (reduction scope (n + 1) name) (NodeIn scope) := by
  intro w r id r' hr h
  unfold reduction at h
  obtain ⟨word, r₁, l₁, hr₁, -, h⟩ := identifier_keeps.peel hr h
  match hop : Reduction.ofName? word with
  | none =>
      rw [hop] at h
      exact nomatch h
  | some op =>
      rw [hop] at h
      obtain ⟨index, r₂, l₂, hr₂, -, h⟩ := indexType_keeps.peel hr₁ h
      obtain ⟨list, r₃, l₃, hr₃, hlist, h⟩ := axes_ensures.peel hr₂ h
      have l₁₃ := l₁.trans (l₂.trans l₃)
      cases name with
      | none =>
          obtain ⟨name, r₄, l₄, hr₄, -, h⟩ := innerName_keeps.peel hr₃ h
          obtain ⟨l₅, hr₅, hid⟩ := reductionBody_reads hn hr₄ hlist h
          exact ⟨l₁₃.trans (l₄.trans l₅), hr₅, hid⟩
      | some name =>
          obtain ⟨l₄, hr₄, hid⟩ := reductionBody_reads hn hr₃ hlist h
          exact ⟨l₁₃.trans l₄, hr₄, hid⟩

/-- The body of a reduction is read in the scope of its axes. -/
theorem body_reads (hn : ReadsAt n) {list : List (String × Nat)} {w : Nat} {r r' : Reading}
    {b : List Var × Expr} (hr : Inside w scope r) (h : body scope (n + 1) list r = .ok (b, r')) :
    Later r r' ∧ BodyIn scope r.program.graph.nextVar list r' b := by
  obtain ⟨_, r₁, l₁, hr₁, -, h⟩ := expect_keeps.peel hr h
  obtain ⟨vars, r₂, hvars, h⟩ := step_bind_eq_ok.mp h
  obtain ⟨value, r₃, hvalue, h⟩ := step_bind_eq_ok.mp h
  obtain ⟨rfl, rfl⟩ := Prod.mk.inj (step_pure_eq_ok.mp h)
  obtain ⟨g, hu, rfl⟩ := onGraph_eq_ok hvars
  obtain ⟨hids, rfl⟩ := Graph.newAxes_eq_ok hu
  -- the value is read with the new axes in front of the scope, the last one first
  set r₂ : Reading := { r₁ with program := { r₁.program with graph :=
    { r₁.program.graph with nextVar := r₁.program.graph.nextVar + (list.map Prod.fst).length } } }
  have haxes := NewAxes.of_range hids
  have hlen : vars.length = (list.map Prod.fst).length := by
    simpa using congrArg List.length hids
  have l₂ : Later r₁ r₂ :=
    ⟨.of_nodes_eq rfl, Nat.le_add_right _ _, rfl, rfl, rfl, rfl, List.Subset.refl _⟩
  have hnames : (((list.map Prod.fst).zip vars).reverse ++ scope).map Prod.snd =
      vars.reverse ++ scope.map Prod.snd := by
    rw [List.map_append, List.map_reverse, List.map_snd_zip (by omega)]
  have hsub : scope.map Prod.snd ⊆ vars.reverse ++ scope.map Prod.snd :=
    List.subset_append_right _ _
  have hsettled : r₂.program.graph.Settled (scope.map Prod.snd) := hr₁.settled.nextVar l₂.nextVar
  have hr₂ : Inside w (((list.map Prod.fst).zip vars).reverse ++ scope) r₂ := by
    refine { hr₁.later l₂ hsettled with settled := ?settled, scope := fun a ha => ?_ }
    case settled => rw [hnames]; exact hsettled.mono hsub
    rcases List.mem_append.mp ha with ha | ha
    · obtain ⟨hlo, hhi⟩ := haxes.range a.2 (List.of_mem_zip (List.mem_reverse.mp ha)).2
      exact ⟨Nat.le_trans hr₁.start hlo, hhi⟩
    · exact (hr₁.later l₂ hsettled).scope a ha
  obtain ⟨l₃, hr₃, hv⟩ := hn.level _ .disjunction w r₂ value r' hr₂ hvalue
  have hperm : vars.reverse ++ scope.map Prod.snd ⊆ vars ++ scope.map Prod.snd := by
    intro v
    simp
  refine ⟨l₁.trans (l₂.trans l₃), by simpa using hlen, ⟨haxes.nodup, fun v hv => ?_⟩,
    fun hcompact => ?_, ?_⟩
  · have := haxes.range v hv
    exact ⟨Nat.le_trans l₁.nextVar this.1, Nat.lt_of_lt_of_le this.2 l₃.nextVar⟩
  · have hv := hv hcompact
    rw [hnames] at hv
    exact hv.mono (fun _ _ h => h) (Nat.le_refl _) hperm (by intro v; simp +contextual)
  · have hsettled := hr₃.settled
    rw [hnames] at hsettled
    exact hsettled.mono hperm

/-- What reading an expression gives, by induction on the allowance. -/
theorem readsAt : ∀ n, ReadsAt n
  | 0 => ⟨nofun, nofun, nofun, nofun, nofun, nofun, nofun, nofun⟩
  | n + 1 =>
      have hn := readsAt n
      ⟨fun _ => level_reads hn, fun _ => operand_reads hn, fun _ _ _ _ _ _ _ => chain_reads hn,
        fun _ => unary_reads hn, fun _ => primary_reads hn, fun _ => named_reads hn,
        fun _ => reduction_reads hn, fun _ _ _ _ _ _ => body_reads hn⟩

/-! ### Statements -/

end Reader

/-- What holds between two statements. -/
structure Reading.Sound (r : Reading) : Prop where
  counts  : r.Counts
  symbols : ∀ s ∈ r.symbols, r.program.graph.Closed s.2
  program : r.program.WellScoped

namespace Reading.Sound

variable {r r' : Reading}

theorem inside (h : r.Sound) : Reader.Inside r.program.graph.nextVar [] r :=
  ⟨h.counts, Nat.le_refl _, fun hcompact s hs => (h.symbols s hs).unfolds hcompact,
    h.program.settled, nofun⟩

/-- More of the graph, and perhaps more ids, leave what was known of it. -/
theorem closed_later {id : Nat} (h : r.program.graph.Closed id) (hlater : Later r r') :
    r'.program.graph.Closed id :=
  h.mono hlater.graph.extended hlater.graph.compact hlater.nextVar

/-- A reading stays sound as long as the graph is settled. -/
theorem later (h : r.Sound) (hlater : Later r r') (hsettled : r'.program.graph.Settled []) :
    r'.Sound where
  counts  := hlater.counts h.counts
  symbols := fun s hs => closed_later (h.symbols s (hlater.symbols ▸ hs)) hlater
  program := {
    inputs   := fun id hid => by
      obtain ⟨n, hn, hc⟩ := h.program.inputs id (hlater.inputs ▸ hid)
      exact ⟨n, hlater.graph.extended id n hn, fun hcompact => hc (hlater.graph.compact hcompact)⟩
    computed := fun id n hn hc =>
      hlater.inputs ▸ h.program.computed id n (hlater.graph.node?_of_input hn hc) hc
    bindings := fun b hb => closed_later (h.program.bindings b (hlater.bindings ▸ hb)) hlater
    outputs  := fun id hid => closed_later (h.program.outputs id (hlater.outputs ▸ hid)) hlater
    settled  := hsettled
    size     := by
      have hgains := hlater.graph.size_add_le
      have hsize := h.program.size
      rw [hlater.inputs]
      omega }

end Reading.Sound

namespace Reader

/-- The step leads from one statement boundary to another. -/
def Preserves {α : Type} (x : Reader α) : Prop :=
  ∀ r a r', r.Sound → x r = .ok (a, r') → r'.Sound

/-- What leaves the graph alone preserves soundness. -/
theorem Ensures.preserves {α : Type} {x : Reader α} {Q : α → Prop} (hx : Ensures x Q) :
    Preserves x := by
  intro r a r' hr h
  obtain ⟨hlater, hgraph, -⟩ := hx r a r' hr.counts h
  exact hr.later hlater (hgraph ▸ hr.program.settled)

/-- Readers in sequence preserve it if each does. -/
theorem Preserves.bind {α β : Type} {x : Reader α} {f : α → Reader β} (hx : Preserves x)
    (hf : ∀ a, Preserves (f a)) : Preserves (x >>= f) := by
  intro r b r' hr h
  obtain ⟨a, r₁, h₁, h₂⟩ := step_bind_eq_ok.mp h
  exact hf a r₁ b r' (hx r a r₁ hr h₁) h₂

theorem Preserves.commaList {α : Type} {item : Reader α} (h : Preserves item) :
    ∀ n, Preserves (commaList item n)
  | 0     => nofun
  | n + 1 => h.bind fun _ => atToken_keeps.preserves.bind fun b => by
      cases b with
      | false => exact (Ensures.pure (Q := fun _ => True) trivial).preserves
      | true =>
          exact advance_keeps.preserves.bind fun _ => (commaList h n).bind fun _ =>
            (Ensures.pure (Q := fun _ => True) trivial).preserves

/-- A declaration adds one name. -/
theorem declare_eq_ok {name : String} {id : Nat} {r r' : Reading} {u : Unit}
    (h : declare name id r = .ok (u, r')) : r' = { r with symbols := (name, id) :: r.symbols } := by
  rw [declare, step_get_bind_eq_ok] at h
  split at h
  · obtain ⟨_, _, h, -⟩ := step_bind_eq_ok.mp h
    exact absurd h step_throw_ne_ok
  · exact (Prod.mk.inj (Except.ok.inj h)).2.symm

/-- The end of an input: its node is made, declared and listed. -/
def addInput (name : String) (kind : NodeKind) : Reader Unit := do
  let id ← onGraph (Graph.addNode ⟨name, kind, none⟩)
  expect .semicolon
  declare name id
  modify fun r => { r with program := { r.program with inputs := r.program.inputs ++ [id] } }

/-- The end of a binding: its node is declared and listed. -/
def addBinding (name : String) (id : Nat) : Reader Unit := do
  expect .semicolon
  declare name id
  modify fun r =>
    { r with program := { r.program with bindings := r.program.bindings ++ [(name, id)] } }

/-- An input node more.  Until its id is listed the program is not well scoped. -/
theorem addInput_preserves (name : String) (kind : NodeKind) :
    Preserves (addInput name kind) := by
  intro r _ r' hr h
  obtain ⟨id, r₁, hadd, h⟩ := step_bind_eq_ok.mp h
  obtain ⟨_, r₂, hexpect, h⟩ := step_bind_eq_ok.mp h
  obtain ⟨_, r₃, hdeclare, h⟩ := step_bind_eq_ok.mp h
  obtain ⟨-, rfl⟩ := Prod.mk.inj (step_modify_eq_ok.mp h)
  obtain rfl := declare_eq_ok hdeclare
  obtain ⟨g, hu, rfl⟩ := onGraph_eq_ok hadd
  obtain ⟨rfl, rfl⟩ := Graph.addNode_eq_ok hu
  set n : Node := ⟨name, kind, none⟩
  have hcounts : Reading.Counts { r with program := { r.program with
    graph := r.program.graph.push n } } := hr.counts
  obtain ⟨later, hgraph, -⟩ := expect_keeps _ _ _ hcounts hexpect
  have hgraph : r₂.program.graph = r.program.graph.push n := hgraph
  have hnode : r₂.program.graph.Closed (Word.toId r.program.graph.size) := by
    rw [hgraph]
    refine ⟨Graph.exists_node?_push, fun hcompact => ?_⟩
    rw [Graph.toId_size hcompact]
    exact .input (Graph.node_push hcompact) rfl
  have hmono : ∀ {id}, r.program.graph.Closed id → r₂.program.graph.Closed id := by
    intro id h
    rw [hgraph]
    exact h.mono Graph.extends_push (fun hcompact => Nat.le_of_lt (Graph.compact_push.mp hcompact))
      (Nat.le_refl _)
  refine ⟨later.counts hr.counts, ?symbols, ?inputs, ?computed, ?bindings, ?outputs, ?settled, ?size⟩
  case symbols =>
    refine List.forall_mem_cons.mpr ⟨hnode, fun s hs => hmono (hr.symbols s ?_)⟩
    exact later.symbols ▸ hs
  case inputs =>
    intro id hid
    simp only [hgraph]
    rcases List.mem_append.mp hid with hid | hid
    · obtain ⟨m, hm, hc⟩ := hr.program.inputs id (later.inputs ▸ hid)
      exact ⟨m, Graph.extends_push id m hm, fun hcompact =>
        hc (Nat.le_of_lt (Graph.compact_push.mp hcompact))⟩
    · obtain rfl := List.mem_singleton.mp hid
      obtain ⟨m, hm⟩ := Graph.exists_node?_push (g := r.program.graph) (n := n)
      refine ⟨m, hm, fun hcompact => ?_⟩
      rw [Graph.toId_size hcompact, Graph.node_push hcompact] at hm
      exact (Option.some.inj hm) ▸ rfl
  case computed =>
    intro id m hm hc
    simp only [hgraph] at hm
    rcases Graph.of_node_push hm with hm | ⟨hcompact, rfl, -⟩
    · exact List.mem_append_left _ (later.inputs ▸ hr.program.computed id m hm hc)
    · exact List.mem_append_right _ (List.mem_singleton.mpr (Graph.toId_size hcompact).symm)
  case bindings => exact fun b hb => hmono (hr.program.bindings b (later.bindings ▸ hb))
  case outputs => exact fun id hid => hmono (hr.program.outputs id (later.outputs ▸ hid))
  case settled =>
    simp only [hgraph]
    exact hr.program.settled.pushInput rfl
  case size =>
    have hsize := hr.program.size
    have hinputs : r₂.program.inputs = r.program.inputs := later.inputs
    have haxes : n.axes = [] := rfl
    simp only [hgraph, hinputs, Graph.size_push, Graph.axes_push, haxes, List.append_nil,
      List.length_append, List.length_singleton]
    omega

/-- An input statement preserves soundness. -/
theorem inputStatement_preserves : Preserves inputStatement :=
  expect_keeps.preserves.bind fun _ => identifier_keeps.preserves.bind fun name =>
    expect_keeps.preserves.bind fun _ => dataType_keeps.preserves.bind fun s =>
      atToken_keeps.preserves.bind fun b => by
        cases b with
        | false => exact addInput_preserves name (.scalar s)
        | true =>
            exact advance_keeps.preserves.bind fun _ => allowance_keeps.preserves.bind fun n =>
              (commaList_ensures extent_ensures n).preserves.bind fun shape =>
                expect_keeps.preserves.bind fun _ => addInput_preserves name (.tensor s shape)

/-- A grid that is bound is closed. -/
theorem gridBinding_reads (name : String) :
    Reads [] (gridBinding name) fun r id => r.program.graph.Closed id := by
  intro w r id r' hr h
  obtain ⟨_, r₁, l₁, hr₁, -, h⟩ := expect_keeps.peel hr h
  obtain ⟨list, r₂, l₂, hr₂, hlist, h⟩ := axes_ensures.peel hr₁ h
  obtain ⟨n, r₃, l₃, hr₃, -, h⟩ := allowance_keeps.peel hr₂ h
  obtain ⟨⟨vars, value⟩, r₄, hbody, h⟩ := step_bind_eq_ok.mp h
  obtain ⟨l₄, hb⟩ := (readsAt n).body [] list w r₃ _ r₄ hr₃ hbody
  obtain ⟨g, hu, rfl⟩ := onGraph_eq_ok h
  obtain ⟨hlen, rfl, s, -, rfl⟩ := Graph.addGrid_eq_ok hu
  have hS : ∀ v ∈ ([] : Scope).map Prod.snd, v.id < r₃.program.graph.nextVar := by simp
  obtain ⟨l₅, hsettled, hnode⟩ := push_reads name (.tensor s (list.map Prod.snd))
    (.grid (list.map Prod.snd) vars value) hlist.1 rfl hlen.symm (List.forall_mem_map.mpr hlist.2) hS hb
  have hlater := l₁.trans (l₂.trans (l₃.trans (l₄.trans l₅)))
  exact ⟨hlater, hr.later hlater hsettled, Graph.exists_node?_push, fun hcompact =>
    (hnode hcompact).2⟩

/-- A binding more. -/
theorem bind_preserves {x : Reader Nat} (hx : Reads [] x fun r id => r.program.graph.Closed id)
    {name : String} : Preserves (x >>= addBinding name) := by
  intro r _ r' hr h
  obtain ⟨id, r₁, l₁, hr₁, hid, h⟩ := hx.peel hr.inside h
  obtain ⟨_, r₂, l₂, hr₂, -, h⟩ := expect_keeps.peel hr₁ h
  obtain ⟨_, r₃, hdeclare, h⟩ := step_bind_eq_ok.mp h
  obtain ⟨-, rfl⟩ := Prod.mk.inj (step_modify_eq_ok.mp h)
  obtain rfl := declare_eq_ok hdeclare
  have hid := Reading.Sound.closed_later hid l₂
  obtain ⟨hcounts, hsymbols, hprogram⟩ := hr.later (l₁.trans l₂) hr₂.settled
  exact ⟨hcounts, List.forall_mem_cons.mpr ⟨hid, hsymbols⟩, { hprogram with
    bindings := List.forall_mem_append.mpr ⟨hprogram.bindings, List.forall_mem_singleton.mpr hid⟩ }⟩

/-- A binding preserves soundness. -/
theorem letStatement_preserves : Preserves letStatement := by
  refine expect_keeps.preserves.bind fun _ => identifier_keeps.preserves.bind fun name =>
    expect_keeps.preserves.bind fun _ => ?_
  intro r u r' hr h
  rw [step_modify_bind_eq_ok] at h
  have hr : Reading.Sound { r with binding := name, reductions := 0 } :=
    hr.later (.of_program_eq rfl rfl (List.Subset.refl _)) hr.program.settled
  refine (atToken_keeps.preserves.bind fun isGrid => atReduction_keeps.preserves.bind
    fun isReduction => ?_) _ u r' hr h
  match isGrid, isReduction with
  | true, _ => exact bind_preserves (gridBinding_reads name)
  | false, true =>
      refine allowance_keeps.preserves.bind fun n => bind_preserves fun w r id r' hr h => ?_
      obtain ⟨later, hr', hfound, hid⟩ := (readsAt n).reduction [] (some name) w r id r' hr h
      refine ⟨later, hr', hfound, fun hcompact => ?_⟩
      obtain ⟨_, _, -, -, hunfolds⟩ := hid hcompact
      exact hunfolds
  | false, false =>
      exact ((unexpected_ensures (Q := fun _ => False)).bind (R := fun _ => True)
        fun _ h => h.elim).preserves

theorem output_preserves : Preserves output :=
  identifier_keeps.preserves.bind fun name => by
    intro r u r' hr h
    rw [step_get_bind_eq_ok] at h
    match hs : r.symbols.lookup name with
    | none =>
        rw [hs] at h
        exact nomatch h
    | some id =>
        rw [hs] at h
        obtain ⟨-, rfl⟩ := Prod.mk.inj (step_modify_eq_ok.mp h)
        exact { hr with program := { hr.program with
          outputs := List.forall_mem_append.mpr ⟨hr.program.outputs,
            List.forall_mem_singleton.mpr (hr.symbols _ (mem_of_lookup hs))⟩ } }

theorem outputStatement_preserves : Preserves outputStatement :=
  expect_keeps.preserves.bind fun _ => allowance_keeps.preserves.bind fun n =>
    Preserves.bind
      ((output_preserves.commaList n).bind fun _ =>
        (Ensures.pure (Q := fun _ => True) trivial).preserves)
      fun _ => expect_keeps.preserves

/-- **Every statement preserves soundness.** -/
theorem statement_preserves : Preserves statement :=
  current_keeps.preserves.bind fun t => by
    split
    · exact inputStatement_preserves
    · exact letStatement_preserves
    · exact outputStatement_preserves
    · exact (unexpected_ensures (Q := fun _ => False)).preserves

theorem statements_preserves : ∀ n, Preserves (statements n)
  | 0     => nofun
  | n + 1 => current_keeps.preserves.bind fun t => by
      cases t with
      | none => exact (Ensures.pure (Q := fun _ => True) trivial).preserves
      | some _ => exact statement_preserves.bind fun _ => statements_preserves n

end Reader

end Program

/-! ### Texts -/

namespace Lexeme

theorem wordToken_ne_int {cs : List Char} {n : Nat} : wordToken cs ≠ .int n := by
  unfold wordToken
  split <;> nofun

theorem operator_ne_int {cs : List Char} {n : Nat} : (operator cs).1 ≠ some (.int n) := by
  unfold operator
  split <;> nofun

/-- A number that is read as a literal fits its word. -/
theorem number_lt {cs : List Char} {n : Nat} (h : (number cs).1 = some (.int n)) : n < 2 ^ 63 := by
  simp only [number] at h
  cases hf : fraction? (cs.drop (cs.takeWhile Char.isDigit).length) with
  | some places =>
      rw [hf] at h
      cases he : exponent? (cs.drop ((cs.takeWhile Char.isDigit).length + 1 + places.length)) with
      | some e => simp [he] at h
      | none => simp [he] at h
  | none =>
      rw [hf] at h
      cases he : exponent? (cs.drop (cs.takeWhile Char.isDigit).length) with
      | some e => simp [he] at h
      | none =>
          simp only [he] at h
          split at h
          · rename_i hlt
            obtain rfl := Token.int.inj (Option.some.inj h)
            exact hlt
          · exact nomatch h

theorem munch_lt {cs : List Char} {n : Nat} (h : (munch cs).1 = some (.int n)) : n < 2 ^ 63 := by
  unfold munch at h
  split at h
  · exact nomatch h
  · split at h
    · exact absurd (Option.some.inj h) wordToken_ne_int
    · split at h
      · exact number_lt h
      · exact absurd h operator_ne_int

/-- The integers of a text are below `2 ^ 63`. -/
theorem scanFrom_lt {l : Lexeme} {n : Nat} (hn : l.token = some (.int n)) :
    ∀ {k pos cs}, l ∈ scanFrom k pos cs → n < 2 ^ 63
  | 0, _, _, h => absurd h List.not_mem_nil
  | k + 1, pos, cs, h => by
      unfold scanFrom at h
      split at h
      · exact absurd h List.not_mem_nil
      · rcases List.mem_cons.mp h with hl | h
        · rename_i c cs _
          have hc : (munch (c :: cs)).1 = some (.int n) := (congrArg Lexeme.token hl).symm.trans hn
          exact munch_lt hc
        · exact scanFrom_lt hn h

end Lexeme

namespace Program

/-- Nothing has been read of a text. -/
def Reading.start (source : String) : Reading :=
  ⟨Lexeme.scan source, ⟨.empty, [], [], []⟩, [], "", 0⟩

theorem Reading.start_sound (source : String) : (Reading.start source).Sound := by
  refine ⟨fun l hl n hn => Lexeme.scanFrom_lt hn hl, nofun, nofun, fun id n hn => ?_, nofun, nofun,
    fun id n hn => ?_, Nat.zero_le _⟩
  · cases Graph.node?_empty.symm.trans hn
  · cases Graph.node?_empty.symm.trans hn

/-- A program is read by entering its text and reading statements up to the end. -/
theorem parse_eq_ok {source : String} {p : Program} (h : parse source = .ok p) :
    ∃ n r₀ r, Reader.enter (Lexeme.scan source) r₀ = .ok ((), Reading.start source) ∧
      Reader.statements n (Reading.start source) = .ok ((), r) ∧ p = r.program := by
  obtain ⟨⟨_, r⟩, htext, hp⟩ := bind_eq_ok.mp h
  obtain ⟨_, r₁, henter, hread⟩ := step_bind_eq_ok.mp htext
  obtain ⟨n, r₂, hn, hstatements⟩ := step_bind_eq_ok.mp hread
  obtain ⟨-, rfl⟩ := Prod.mk.inj (step_pure_eq_ok.mp hn)
  obtain rfl := Reader.enter_eq_ok henter
  exact ⟨n, _, r, henter, hstatements, (pure_eq_ok.mp hp).symm⟩

/-- **A program that was read is well scoped.** -/
theorem wellScoped_of_parse {source : String} {p : Program} (h : parse source = .ok p) :
    p.WellScoped := by
  obtain ⟨n, _, r, -, hread, rfl⟩ := parse_eq_ok h
  exact (Reader.statements_preserves n _ _ r (Reading.start_sound source) hread).program

/-- A task reads all inputs of its program, and what it writes can be computed from them. -/
theorem task_eq_ok {p : Program} (hp : p.WellScoped) {name : String} {t : Task}
    (h : p.task name = .ok t) : t.inputs = p.inputs ∧ ∀ id ∈ t.outputs, p.graph.Closed id := by
  unfold task at h
  split at h
  · exact nomatch h
  · rename_i b hlast
    obtain rfl := Except.ok.inj h
    exact ⟨rfl, List.forall_mem_singleton.mpr (hp.bindings _ (List.mem_of_getLast? hlast))⟩
  · obtain rfl := Except.ok.inj h
    exact ⟨rfl, hp.outputs⟩

end Program

end TensorLoops
