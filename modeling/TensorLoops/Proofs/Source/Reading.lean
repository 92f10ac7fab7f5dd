import TensorLoops.Proofs.Compute.Unfolding
import TensorLoops.Proofs.Compute.Updates
import TensorLoops.Source.Program

/-!
# Proofs — Source — Reading

Programs are read into well-scoped graphs.  While an expression is read the graph only grows,
and nothing else of what has been read changes (`Later`).  What is read is well scoped
in the axes around it (`Reads`): an axis is found in the scope, a declared name stands for a node
that makes sense anywhere, and an inner reduction opens its axes above every id given out before,
so that they are new.

`WellScoped` collects what a whole program is left with.
-/

namespace TensorLoops

namespace Program

/-! ### Going on in a text -/

/-- Reading has gone on from `r` to `r'` inside a definition. -/
structure Later (r r' : Reading) : Prop where
  graph    : r.program.graph.Gains r'.program.graph
  nextVar  : r.program.graph.nextVar ≤ r'.program.graph.nextVar
  symbols  : r'.symbols = r.symbols
  inputs   : r'.program.inputs = r.program.inputs
  bindings : r'.program.bindings = r.program.bindings
  outputs  : r'.program.outputs = r.program.outputs
  rest     : r'.rest ⊆ r.rest

namespace Later

variable {r r₁ r₂ : Reading}

/-- Only the text has been gone on in. -/
theorem of_program_eq (hprogram : r₁.program = r.program) (hsymbols : r₁.symbols = r.symbols)
    (hrest : r₁.rest ⊆ r.rest) : Later r r₁ :=
  ⟨.of_nodes_eq (by rw [hprogram]), Nat.le_of_eq (by rw [hprogram]), hsymbols, by rw [hprogram],
    by rw [hprogram], by rw [hprogram], hrest⟩

theorem refl (r : Reading) : Later r r := .of_program_eq rfl rfl (List.Subset.refl _)

/-- Later than a later reading is later. -/
theorem trans (h : Later r r₁) (h' : Later r₁ r₂) : Later r r₂ :=
  ⟨h.graph.trans h'.graph, Nat.le_trans h.nextVar h'.nextVar, h'.symbols.trans h.symbols,
    h'.inputs.trans h.inputs, h'.bindings.trans h.bindings, h'.outputs.trans h.outputs,
    fun _ hl => h.rest (h'.rest hl)⟩

end Later

/-- The integers still to be read are below `2 ^ 63`. -/
def Reading.Counts (r : Reading) : Prop :=
  ∀ l ∈ r.rest, ∀ n, l.token = some (.int n) → n < 2 ^ 63

/-- Literals that fit their words still do later on. -/
theorem Later.counts {r r' : Reading} (h : Later r r') (hr : r.Counts) : r'.Counts :=
  fun l hl => hr l (h.rest hl)

namespace Reader

/-- The step goes on in the text and in nothing else, and gives only what `Q` allows. -/
def Ensures {α : Type} (x : Reader α) (Q : α → Prop) : Prop :=
  ∀ r a r', r.Counts → x r = .ok (a, r') →
    Later r r' ∧ r'.program.graph = r.program.graph ∧ Q a

/-- The step goes on in the text. -/
abbrev Keeps {α : Type} (x : Reader α) : Prop := Ensures x fun _ => True

namespace Ensures

variable {α β : Type} {P Q : α → Prop}

/-- What is returned is ensured. -/
theorem pure {a : α} (h : Q a) : Ensures (pure a) Q := by
  intro r b r' _ hr
  obtain ⟨rfl, rfl⟩ := Prod.mk.inj (step_pure_eq_ok.mp hr)
  exact ⟨.refl _, rfl, h⟩

/-- What a reader ensures may be used by the next. -/
theorem bind {x : Reader α} {f : α → Reader β} {R : β → Prop} (hx : Ensures x P)
    (hf : ∀ a, P a → Ensures (f a) R) : Ensures (x >>= f) R := by
  intro r b r' hr h
  obtain ⟨a, r₁, h₁, h₂⟩ := step_bind_eq_ok.mp h
  obtain ⟨hlater, hgraph, ha⟩ := hx r a r₁ hr h₁
  obtain ⟨hlater', hgraph', hb⟩ := hf a ha r₁ b r' (hlater.counts hr) h₂
  exact ⟨hlater.trans hlater', hgraph'.trans hgraph, hb⟩

/-- A reader that fails ensures anything. -/
theorem throw {e : Error} : Ensures (throw e : Reader α) Q :=
  fun _ _ _ _ h => absurd h step_throw_ne_ok

theorem get : Keeps (get : Reader Reading) := by
  intro r a r' _ h
  obtain ⟨-, rfl⟩ := Prod.mk.inj (Except.ok.inj h)
  exact ⟨.refl _, rfl, trivial⟩

/-- A choice ensures what both readers do, each where it is chosen. -/
theorem ite {c : Prop} [Decidable c] {x y : Reader α} (hx : c → Ensures x Q)
    (hy : ¬ c → Ensures y Q) : Ensures (if c then x else y) Q := by
  split
  · exact hx ‹c›
  · exact hy ‹¬ c›

end Ensures

variable {α : Type}

theorem fail_ensures {e : ParseError} {Q : α → Prop} : Ensures (fail e : Reader α) Q := .throw

/-- A literal fits its word. -/
theorem current_ensures : Ensures current fun t => ∀ n, t = some (.int n) → n < 2 ^ 63 := by
  intro r t r' hr h
  rw [current, step_get_bind_eq_ok, step_pure_eq_ok] at h
  obtain ⟨rfl, rfl⟩ := Prod.mk.inj h
  refine ⟨.refl _, rfl, fun n hn => ?_⟩
  obtain ⟨l, hl, hn⟩ := Option.bind_eq_some_iff.mp hn
  exact hr l (List.mem_of_mem_head? hl) n hn

theorem current_keeps : Keeps current := fun r t r' hr h =>
  ⟨(current_ensures r t r' hr h).1, (current_ensures r t r' hr h).2.1, trivial⟩

theorem following_keeps : Keeps following := Ensures.get.bind fun _ _ => .pure trivial

theorem atToken_keeps {t : Token} : Keeps (atToken t) := current_keeps.bind fun _ _ => .pure trivial

theorem unexpected_ensures {t : Wanted} {Q : α → Prop} : Ensures (unexpected t : Reader α) Q :=
  current_keeps.bind fun _ _ => fail_ensures

/-- Entering a lexeme changes nothing but the text left. -/
theorem enter_eq_ok {rest : List Lexeme} {r r' : Reading} {a : Unit}
    (h : enter rest r = .ok (a, r')) : r' = { r with rest } := by
  match rest with
  | ⟨none, _, _⟩ :: _   => exact absurd h step_throw_ne_ok
  | ⟨some _, _, _⟩ :: _ => exact (Prod.mk.inj (step_modify_eq_ok.mp h)).2
  | []                  => exact (Prod.mk.inj (step_modify_eq_ok.mp h)).2

/-- Going on keeps what is known of a reading. -/
theorem advance_keeps : Keeps advance := by
  intro r _ r' _ h
  obtain rfl := enter_eq_ok (step_get_bind_eq_ok.mp h)
  exact ⟨.of_program_eq rfl rfl fun _ => List.mem_of_mem_tail, rfl, trivial⟩

theorem expect_keeps {t : Token} : Keeps (expect t) :=
  atToken_keeps.bind fun _ _ => .ite (fun _ => advance_keeps) fun _ => unexpected_ensures

theorem identifier_keeps : Keeps identifier :=
  current_keeps.bind fun t _ => by
    split
    · exact advance_keeps.bind fun _ _ => .pure trivial
    · exact unexpected_ensures

theorem dataType_keeps : Keeps dataType :=
  identifier_keeps.bind fun name _ => by
    split
    · exact .pure trivial
    · exact fail_ensures

theorem allowance_keeps : Keeps allowance := Ensures.get.bind fun _ _ => .pure trivial

theorem atReduction_keeps : Keeps atReduction :=
  current_keeps.bind fun t _ => by
    split
    · exact .ite (fun _ => following_keeps.bind fun _ _ => .pure trivial) fun _ => .pure trivial
    · exact .pure trivial

theorem innerName_keeps {op : Reduction} : Keeps (innerName op) :=
  Ensures.get.bind fun _ _ => .pure trivial

theorem indexType_keeps {op : Reduction} : Keeps (indexType op) :=
  atToken_keeps.bind fun _ _ =>
    .ite
      (fun _ =>
        have rest : Keeps (do advance; let s ← dataType; expect .gt; return s) :=
          advance_keeps.bind fun _ _ => dataType_keeps.bind fun _ _ => expect_keeps.bind fun _ _ =>
            .pure trivial
        .ite (fun _ => (fail_ensures (Q := fun _ => True)).bind fun _ _ => rest) fun _ => rest)
      fun _ => .pure trivial

/-- The extent of a loop can be counted. -/
theorem extent_ensures : Ensures extent fun n => 0 < n ∧ n < 2 ^ 63 :=
  current_ensures.bind fun t ht => by
    split
    · rename_i n
      exact .ite (fun h => advance_keeps.bind fun _ _ => .pure ⟨h, ht n rfl⟩)
        fun _ => unexpected_ensures
    · exact unexpected_ensures

/-- There is something between commas. -/
theorem commaList_ensures {item : Reader α} {Q : α → Prop} (h : Ensures item Q) :
    ∀ n, Ensures (commaList item n) fun xs => xs ≠ [] ∧ ∀ x ∈ xs, Q x
  | 0     => fail_ensures
  | n + 1 => h.bind fun _ hx => atToken_keeps.bind fun _ _ =>
      .ite
        (fun _ => advance_keeps.bind fun _ _ => (commaList_ensures h n).bind fun _ hxs =>
          .pure ⟨List.cons_ne_nil _ _, List.forall_mem_cons.mpr ⟨hx, hxs.2⟩⟩)
        fun _ => .pure ⟨List.cons_ne_nil _ _, List.forall_mem_singleton.mpr hx⟩

/-- An axis has a positive extent that fits its word. -/
theorem axis_ensures : Ensures axis fun a => 0 < a.2 ∧ a.2 < 2 ^ 63 :=
  identifier_keeps.bind fun _ _ => expect_keeps.bind fun _ _ => extent_ensures.bind fun _ hn =>
    .pure hn

theorem axes_ensures :
    Ensures axes fun as => as ≠ [] ∧ ∀ a ∈ as, 0 < a.2 ∧ a.2 < 2 ^ 63 :=
  expect_keeps.bind fun _ _ => allowance_keeps.bind fun n _ =>
    (commaList_ensures axis_ensures n).bind fun _ has => expect_keeps.bind fun _ _ => .pure has

/-! ### Inside an expression -/

/-- Reading inside the axes `scope`, in a statement before which the ids below `w` were given
out.  Declared names stand for nodes that make sense anywhere, as long as there are ids for all
nodes. -/
structure Inside (w : Nat) (scope : Scope) (r : Reading) : Prop where
  counts  : r.Counts
  start   : w ≤ r.program.graph.nextVar
  symbols : r.program.graph.Compact → ∀ s ∈ r.symbols, r.program.graph.Unfolds w [] s.2
  settled : r.program.graph.Settled (scope.map Prod.snd)
  scope   : ∀ a ∈ scope, w ≤ a.2.id ∧ a.2.id < r.program.graph.nextVar

/-- The expression makes sense in the axes of `scope`, as long as there are ids for all nodes. -/
def ScopedIn (scope : Scope) (r : Reading) (e : Expr) : Prop :=
  r.program.graph.Compact →
    r.program.graph.Scoped r.program.graph.nextVar (scope.map Prod.snd) e

section Inside

variable {w : Nat} {scope : Scope} {r r' : Reading}

/-- Inside an expression a reading stays there as long as its scope is settled. -/
theorem Inside.later (hr : Inside w scope r) (h : Later r r')
    (hsettled : r'.program.graph.Settled (scope.map Prod.snd)) : Inside w scope r' where
  counts  := h.counts hr.counts
  start   := Nat.le_trans hr.start h.nextVar
  symbols := fun hcompact s hs => by
    have hunfolds := hr.symbols (h.graph.compact hcompact) s (h.symbols ▸ hs)
    exact hunfolds.mono h.graph.extended (Nat.le_refl w) (List.Subset.refl []) fun _ => .inl
  scope   := fun a ha => ⟨(hr.scope a ha).1, Nat.lt_of_lt_of_le (hr.scope a ha).2 h.nextVar⟩
  settled := hsettled

/-- An expression stays scoped. -/
theorem ScopedIn.later {e : Expr} (he : ScopedIn scope r e) (h : Later r r') :
    ScopedIn scope r' e := fun hcompact =>
  (he (h.graph.compact hcompact)).mono h.graph.extended h.nextVar (List.Subset.refl _) fun _ => .inl

/-- A declared node makes sense in any scope. -/
theorem Inside.unfolds (hr : Inside w scope r) (hcompact : r.program.graph.Compact) {name : String}
    {id : Nat} (hs : (name, id) ∈ r.symbols) :
    r.program.graph.Unfolds r.program.graph.nextVar (scope.map Prod.snd) id :=
  (hr.symbols hcompact _ hs).mono (fun _ _ h => h) hr.start (List.nil_subset _) fun v hv => by
    obtain ⟨a, ha, rfl⟩ := List.mem_map.mp hv
    exact .inr (hr.scope a ha).1

/-- Take a first step apart from those after it. -/
theorem Ensures.peel {x : Reader α} {P : α → Prop} (hx : Ensures x P) (hr : Inside w scope r)
    {β : Type} {f : α → Reader β} {b : β} (h : (x >>= f) r = .ok (b, r')) :
    ∃ a r₁, Later r r₁ ∧ Inside w scope r₁ ∧ P a ∧ f a r₁ = .ok (b, r') := by
  obtain ⟨a, r₁, h₁, h₂⟩ := step_bind_eq_ok.mp h
  obtain ⟨hlater, hgraph, ha⟩ := hx r a r₁ hr.counts h₁
  exact ⟨a, r₁, hlater, hr.later hlater (hgraph ▸ hr.settled), ha, h₂⟩

end Inside

/-- The step goes on inside the axes; what it gives is as `Q` says. -/
def Reads {α : Type} (scope : Scope) (x : Reader α) (Q : Reading → α → Prop) : Prop :=
  ∀ w r a r', Inside w scope r → x r = .ok (a, r') → Later r r' ∧ Inside w scope r' ∧ Q r' a

namespace Reads

variable {w : Nat} {scope : Scope} {r r' : Reading} {Q : Reading → α → Prop}

/-- A reader comes first in a sequence: it keeps the reading inside, and the rest goes on from
there. -/
theorem peel {x : Reader α} (hx : Reads scope x Q) (hr : Inside w scope r) {β : Type}
    {f : α → Reader β} {b : β} (h : (x >>= f) r = .ok (b, r')) :
    ∃ a r₁, Later r r₁ ∧ Inside w scope r₁ ∧ Q r₁ a ∧ f a r₁ = .ok (b, r') := by
  obtain ⟨a, r₁, h₁, h₂⟩ := step_bind_eq_ok.mp h
  obtain ⟨hlater, hr₁, ha⟩ := hx w r a r₁ hr h₁
  exact ⟨a, r₁, hlater, hr₁, ha, h₂⟩

/-- Expressions with commas between them. -/
theorem commaList {x : Reader Expr} (hx : Reads scope x (ScopedIn scope)) :
    ∀ n, Reads scope (commaList x n) fun r es => ∀ e ∈ es, ScopedIn scope r e
  | 0,     _, _, _,  _,  _,  h => nomatch h
  | n + 1, w, r, es, r', hr, h => by
      obtain ⟨e, r₁, l₁, hr₁, he, h⟩ := hx.peel hr h
      obtain ⟨b, r₂, l₂, hr₂, -, h⟩ := atToken_keeps.peel hr₁ h
      split at h
      · obtain ⟨_, r₃, l₃, hr₃, -, h⟩ := advance_keeps.peel hr₂ h
        obtain ⟨fs, r₄, l₄, hr₄, hfs, h⟩ := (commaList hx n).peel hr₃ h
        obtain ⟨rfl, rfl⟩ := Prod.mk.inj (step_pure_eq_ok.mp h)
        exact ⟨l₁.trans (l₂.trans (l₃.trans l₄)), hr₄,
          List.forall_mem_cons.mpr ⟨he.later (l₂.trans (l₃.trans l₄)), hfs⟩⟩
      · obtain ⟨rfl, rfl⟩ := Prod.mk.inj (step_pure_eq_ok.mp h)
        exact ⟨l₁.trans l₂, hr₂, List.forall_mem_singleton.mpr (he.later l₂)⟩

end Reads

/-! ### Adding to the graph -/

/-- An update of the graph changes the graph only. -/
theorem onGraph_eq_ok {u : Graph.Update α} {a : α} {r r' : Reading}
    (h : onGraph u r = .ok (a, r')) :
    ∃ g, Graph.Updates u r.program.graph a g ∧
      r' = { r with program := { r.program with graph := g } } := by
  rw [onGraph, step_get_bind_eq_ok] at h
  match hu : u.run.run r.program.graph with
  | (.ok b, g) =>
      rw [hu, step_set_bind_eq_ok] at h
      obtain ⟨rfl, rfl⟩ := Prod.mk.inj (step_pure_eq_ok.mp h)
      exact ⟨g, hu, rfl⟩
  | (.error e, g) =>
      rw [hu] at h
      exact absurd h step_throw_ne_ok

/-- A computed node more. -/
theorem later_push {r : Reading} {n : Node} (hn : n.axes ≠ []) :
    Later r { r with program := { r.program with graph := r.program.graph.push n } } where
  graph    := .push hn
  nextVar  := Nat.le_refl _
  symbols  := rfl
  inputs   := rfl
  bindings := rfl
  outputs  := rfl
  rest     := List.Subset.refl _

/-- New axes for a definition: ids in order from `lo` on. -/
structure NewAxes (lo hi : Nat) (vars : List Var) : Prop where
  nodup : (vars.map (·.id)).Nodup
  range : ∀ v ∈ vars, lo ≤ v.id ∧ v.id < hi

/-- Axes with consecutive ids are new. -/
theorem NewAxes.of_range {lo n : Nat} {vars : List Var} (h : vars.map (·.id) = List.range' lo n) :
    NewAxes lo (lo + n) vars := by
  refine ⟨h ▸ List.nodup_range', fun v hv => ?_⟩
  have hmem : v.id ∈ List.range' lo n := h ▸ List.mem_map_of_mem hv
  simpa using hmem

/-- A node over new axes makes sense in the scope around them. -/
theorem unfolds_push {g : Graph} {name : String} {kind : NodeKind} {c : Compute} {S : List Var}
    {lo : Nat} (hcompact : (g.push ⟨name, kind, some c⟩).Compact) (hsuits : c.Suits kind)
    (hlen : c.axes.length = c.extents.length) (hext : ∀ n ∈ c.extents, 0 < n ∧ n < 2 ^ 63)
    (haxes : NewAxes lo g.nextVar c.axes) (hS : ∀ v ∈ S, v.id < lo)
    (hvalue : g.Scoped g.nextVar (c.axes ++ S) c.value) :
    (g.push ⟨name, kind, some c⟩).Unfolds g.nextVar S g.size := by
  refine .computed (Graph.node_push hcompact) rfl ⟨hsuits, hlen, hext, haxes.nodup,
    fun v hv => (haxes.range v hv).2, fun v hv hmem => ?_, fun i hi => (hvalue.unfolds i hi).lt_size⟩
    (hvalue.mono Graph.extends_push (Nat.le_refl _) (List.Subset.refl _) fun _ => .inl)
  obtain ⟨u, hu, hid⟩ := List.mem_map.mp hmem
  have := hS u hu
  have := (haxes.range v hv).1
  omega

/-- The axes of a new node have been in scope for the nodes of its value. -/
theorem settled_push {g : Graph} {name : String} {kind : NodeKind} {c : Compute} {T : List Var}
    (hg : g.Settled (c.axes ++ T))
    (hnode : (g.push ⟨name, kind, some c⟩).Compact →
      (g.push ⟨name, kind, some c⟩).Unfolds g.nextVar T g.size) :
    (g.push ⟨name, kind, some c⟩).Settled T := by
  intro id n hn
  rcases Graph.of_node_push hn with hn | ⟨hcompact, rfl, rfl⟩
  · obtain ⟨S, hS, hsub⟩ := hg id n hn
    refine ⟨S, hS.mono Graph.extends_push (Nat.le_refl _) (List.Subset.refl _) fun _ => .inl, ?_⟩
    intro v hv
    have hv := hsub hv
    simp only [Graph.axes_push, Node.axes, Option.elim_some, List.mem_append] at hv ⊢
    tauto
  · exact ⟨T, hnode hcompact, List.subset_append_left _ _⟩

/-- What a reduction gives: the id of a scalar node that makes sense in the scope, as long as there
are ids for all nodes. -/
structure NodeIn (scope : Scope) (r : Reading) (id : Nat) : Prop where
  found   : ∃ n, r.program.graph.node? id = some n
  unfolds : r.program.graph.Compact → ∃ n s, r.program.graph.node? id = some n ∧
    n.kind = .scalar s ∧ r.program.graph.Unfolds r.program.graph.nextVar (scope.map Prod.snd) id

/-- A node in scope is an expression in scope. -/
theorem NodeIn.scopedIn {scope : Scope} {r : Reading} {id : Nat} (h : NodeIn scope r id) :
    ScopedIn scope r (.node id) := by
  intro hcompact
  obtain ⟨n, s, hn, hk, hu⟩ := h.unfolds hcompact
  exact .node hn hk hu

/-- What a body gives, from a graph with the next id `lo`: new axes for the list, and a value that
makes sense once they are in scope. -/
structure BodyIn (scope : Scope) (lo : Nat) (list : List (String × Nat)) (r : Reading)
    (b : List Var × Expr) : Prop where
  length  : b.1.length = list.length
  axes    : NewAxes lo r.program.graph.nextVar b.1
  value   : r.program.graph.Compact →
    r.program.graph.Scoped r.program.graph.nextVar (b.1 ++ scope.map Prod.snd) b.2
  settled : r.program.graph.Settled (b.1 ++ scope.map Prod.snd)

/-- A reduction is added with its index or without. -/
theorem addReduction_eq_ok {name : String} {op : Reduction} {index : Scalar} {extents : List Nat}
    {vars : List Var} {value : Expr} {id : Nat} {r r' : Reading}
    (h : addReduction name op index extents vars value r = .ok (id, r')) :
    (∃ extent axis, extents = [extent] ∧ vars = [axis] ∧
      onGraph (Graph.addArgReduce name extent axis value op index) r = .ok (id, r')) ∨
    onGraph (Graph.addReduce name extents vars value op) r = .ok (id, r') := by
  unfold addReduction at h
  split at h
  · split at h
    · rename_i extent axis
      exact .inl ⟨extent, axis, rfl, rfl, h⟩
    · exact nomatch h
  · exact .inr h

/-- A node more, over axes that were made for it. -/
theorem push_reads {scope : Scope} {lo : Nat} {list : List (String × Nat)} {r : Reading}
    (name : String) (kind : NodeKind) (c : Compute) (hlist : list ≠ []) (hsuits : c.Suits kind)
    (hlen : c.axes.length = c.extents.length) (hext : ∀ n ∈ c.extents, 0 < n ∧ n < 2 ^ 63)
    (hS : ∀ v ∈ scope.map Prod.snd, v.id < lo) (hb : BodyIn scope lo list r (c.axes, c.value)) :
    let g := r.program.graph.push ⟨name, kind, some c⟩
    Later r { r with program := { r.program with graph := g } } ∧ g.Settled (scope.map Prod.snd) ∧
      (g.Compact → g.node? (Word.toId r.program.graph.size) = some ⟨name, kind, some c⟩ ∧
        g.Unfolds g.nextVar (scope.map Prod.snd) (Word.toId r.program.graph.size)) := by
  have hunfolds (hcompact : (r.program.graph.push ⟨name, kind, some c⟩).Compact) :=
    unfolds_push hcompact hsuits hlen hext hb.axes hS
      (hb.value (Nat.le_of_lt (Graph.compact_push.mp hcompact)))
  have hne : c.axes ≠ [] := by
    rw [← List.length_pos_iff_ne_nil, hb.length, List.length_pos_iff_ne_nil]
    exact hlist
  refine ⟨later_push hne, settled_push hb.settled hunfolds, fun hcompact => ?_⟩
  rw [Graph.toId_size hcompact]
  exact ⟨Graph.node_push hcompact, hunfolds hcompact⟩

/-- **A reduction that is added is in scope**, and the graph is settled after it. -/
theorem addReduction_reads {scope : Scope} {lo : Nat} {list : List (String × Nat)} {name : String}
    {op : Reduction} {index : Scalar} {b : List Var × Expr} {id : Nat} {r r' : Reading}
    (hlist : list ≠ []) (hext : ∀ a ∈ list, 0 < a.2 ∧ a.2 < 2 ^ 63) (hS : ∀ a ∈ scope, a.2.id < lo)
    (hb : BodyIn scope lo list r b)
    (h : addReduction name op index (list.map Prod.snd) b.1 b.2 r = .ok (id, r')) :
    Later r r' ∧ r'.program.graph.Settled (scope.map Prod.snd) ∧ NodeIn scope r' id := by
  have hS : ∀ v ∈ scope.map Prod.snd, v.id < lo := List.forall_mem_map.mpr hS
  have hext : ∀ n ∈ list.map Prod.snd, 0 < n ∧ n < 2 ^ 63 := List.forall_mem_map.mpr hext
  obtain ⟨vars, value⟩ := b
  rcases addReduction_eq_ok h with ⟨extent, axis, hone, hvar, h⟩ | h
  · obtain ⟨g, hu, rfl⟩ := onGraph_eq_ok h
    obtain ⟨hop, rfl, -, rfl⟩ := Graph.addArgReduce_eq_ok hu
    obtain rfl : vars = [axis] := hvar
    rw [hone] at hext
    obtain ⟨hlater, hsettled, hnode⟩ := push_reads name (.scalar index)
      (.argReduce extent axis value op index) hlist hop rfl hext hS hb
    refine ⟨hlater, hsettled, Graph.exists_node?_push, fun hcompact => ?_⟩
    exact ⟨_, index, (hnode hcompact).1, rfl, (hnode hcompact).2⟩
  · obtain ⟨g, hu, rfl⟩ := onGraph_eq_ok h
    obtain ⟨hop, hlen, rfl, s, -, rfl⟩ := Graph.addReduce_eq_ok hu
    obtain ⟨hlater, hsettled, hnode⟩ := push_reads name (.scalar s)
      (.reduce (list.map Prod.snd) vars value op) hlist hop hlen.symm hext hS hb
    refine ⟨hlater, hsettled, Graph.exists_node?_push, fun hcompact => ?_⟩
    exact ⟨_, s, (hnode hcompact).1, rfl, (hnode hcompact).2⟩

end Reader

end Program

end TensorLoops
