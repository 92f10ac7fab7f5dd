import Mathlib.Logic.Relation
import TensorLoops.Proofs.Source.Phrases

/-!
# Proofs — Source — Growth

How the graph grows while a program is read.  `g.Grows g' roots` says that `g'` has been made from
`g` by adding nodes: as long as there are ids for all of them, each is contained, at some depth, in
one of the `roots`; its type is that of its value, and its axes are new.  Reading an expression
grows the graph below the nodes that the expression mentions (`ExprAt.grows`), and a reduction below
its own node (`ReductionAt.grows`).

An axis gets its id before the value is read and its node after it, so a node is added to a graph
that has grown since its axes were made (`Grows.push`).
-/

namespace TensorLoops

open Relation
open Program.Reader (NewAxes)

/-! ### Axes, contained nodes and types -/

/-- The node has the type of its value; a position has the index type. -/
def Compute.Typed (g : Graph) (kind : NodeKind) : Compute → Prop
  | .grid _ _ value              => g.typeOf value = .ok kind.dtype
  | .reduce _ _ value _          => g.typeOf value = .ok kind.dtype
  | .argReduce _ _ value _ index => (∃ s, g.typeOf value = .ok s) ∧ index = kind.dtype

namespace Graph

/-- The value of node `j` mentions node `i`. -/
def Contains (g : Graph) (j i : Nat) : Prop :=
  ∃ n c, g.node? j = some n ∧ n.compute = some c ∧ i ∈ c.value.nodes

/-- As long as there are ids for all nodes, the id leads to a node of this name. -/
def Names (g : Graph) (id : Nat) (name : String) : Prop :=
  g.Compact → ∃ n, g.node? id = some n ∧ n.name = name

variable {g g' : Graph}

/-- A node keeps its name as the graph grows. -/
theorem Names.mono (hg : g.Extends g') (hcompact : g'.Compact → g.Compact) {id : Nat}
    {name : String} (h : g.Names id name) : g'.Names id name := fun hg' => by
  obtain ⟨n, hn, hname⟩ := h (hcompact hg')
  exact ⟨n, hg id n hn, hname⟩

theorem names_push {n : Node} : (g.push n).Names (Word.toId g.size) n.name := fun hcompact => by
  rw [toId_size hcompact]
  exact ⟨n, node_push hcompact, rfl⟩

/-- A node contains what it contained before. -/
theorem Contains.mono (hg : g.Extends g') {i j : Nat} (h : g.Contains j i) : g'.Contains j i := by
  obtain ⟨n, c, hn, hc, hi⟩ := h
  exact ⟨n, c, hg j n hn, hc, hi⟩

theorem reflTransGen_contains_mono (hg : g.Extends g') {i j : Nat}
    (h : ReflTransGen g.Contains j i) : ReflTransGen g'.Contains j i :=
  h.lift id fun _ _ => .mono hg

/-- Elements keep their type. -/
theorem elementType_mono (hg : g.Extends g') {base : Expr} {rank : Nat} {s : Scalar}
    (h : g.elementType base rank = .ok s) : g'.elementType base rank = .ok s := by
  cases base with
  | node id =>
      obtain ⟨n, hn, h⟩ := bind_eq_ok.mp h
      exact bind_eq_ok.mpr ⟨n, node_eq_ok.mpr (hg id n (node_eq_ok.mp hn)), h⟩
  | _ => exact h

/-- An expression keeps its type in a larger graph. -/
theorem typeOf_mono (hg : g.Extends g') :
    ∀ {e : Expr} {s : Scalar}, g.typeOf e = .ok s → g'.typeOf e = .ok s
  | .var _, _, h => h
  | .const _ _, _, h => h
  | .node id, s, h => by
      obtain ⟨n, hn, h⟩ := bind_eq_ok.mp h
      exact bind_eq_ok.mpr ⟨n, node_eq_ok.mpr (hg id n (node_eq_ok.mp hn)), h⟩
  | .binary op lhs rhs, s, h => by
      obtain ⟨s₁, hl, h⟩ := bind_eq_ok.mp h
      obtain ⟨s₂, hr, h⟩ := bind_eq_ok.mp h
      exact bind_eq_ok.mpr ⟨s₁, typeOf_mono hg hl, bind_eq_ok.mpr ⟨s₂, typeOf_mono hg hr, h⟩⟩
  | .unary op e, s, h => by
      obtain ⟨s₁, he, h⟩ := bind_eq_ok.mp h
      exact bind_eq_ok.mpr ⟨s₁, typeOf_mono hg he, h⟩
  | .cast _ _, _, h => h
  | .element _ _, _, h => elementType_mono hg h
  | .call _ _, _, h => h

end Graph

/-- Definitions keep theirs. -/
theorem Compute.Typed.mono {g g' : Graph} (hg : g.Extends g') {kind : NodeKind} {c : Compute}
    (h : c.Typed g kind) : c.Typed g' kind := by
  cases c with
  | grid => exact Graph.typeOf_mono hg h
  | reduce => exact Graph.typeOf_mono hg h
  | argReduce => exact ⟨h.1.imp fun _ => Graph.typeOf_mono hg, h.2⟩

/-- The value of a node has a type. -/
theorem Compute.Typed.exists_typeOf {g : Graph} {kind : NodeKind} {c : Compute}
    (h : c.Typed g kind) : ∃ s, g.typeOf c.value = .ok s := by
  cases c with
  | grid => exact ⟨_, h⟩
  | reduce => exact ⟨_, h⟩
  | argReduce => exact h.1

namespace Program.Reader.NewAxes

variable {lo hi lo' hi' : Nat} {A B : List Var}

theorem mono (h : NewAxes lo hi A) (hlo : lo' ≤ lo) (hhi : hi ≤ hi') : NewAxes lo' hi' A :=
  ⟨h.nodup, fun v hv =>
    ⟨Nat.le_trans hlo (h.range v hv).1, Nat.lt_of_lt_of_le (h.range v hv).2 hhi⟩⟩

/-- Ids of one range, then ids of the next. -/
theorem append {mid : Nat} (hA : NewAxes lo mid A) (hB : NewAxes mid hi B) (hlo : lo ≤ mid)
    (hhi : mid ≤ hi) : NewAxes lo hi (A ++ B) where
  nodup := by
    rw [List.map_append]
    refine hA.nodup.append hB.nodup ?_
    simp only [List.disjoint_left, List.mem_map]
    rintro _ ⟨u, hu, rfl⟩ ⟨v, hv, hid⟩
    exact Nat.ne_of_gt (Nat.lt_of_lt_of_le (hA.range u hu).2 (hB.range v hv).1) hid
  range := by
    have hA := (hA.mono (Nat.le_refl _) hhi).range
    have hB := (hB.mono hlo (Nat.le_refl _)).range
    exact List.forall_mem_append.mpr ⟨hA, hB⟩

theorem perm (h : NewAxes lo hi A) (hperm : B.Perm A) : NewAxes lo hi B :=
  ⟨(hperm.map _).nodup_iff.mpr h.nodup, fun v hv => h.range v (hperm.mem_iff.mp hv)⟩

end Program.Reader.NewAxes

/-! ### Growing -/

namespace Graph

/-- Node `i` is contained in one of the roots, or is one, and has the type of its value. -/
structure Added (g : Graph) (roots : List Nat) (i : Nat) (n : Node) : Prop where
  reached : g.Compact → ∃ j ∈ roots, ReflTransGen g.Contains j i
  typed   : ∀ c, n.compute = some c → c.Typed g n.kind

/-- A node that was added is so for more roots, in a graph that has grown. -/
theorem Added.mono {g g' : Graph} (hg : g.Extends g') (hcompact : g'.Compact → g.Compact)
    {R R' : List Nat} (hR : R ⊆ R') {i : Nat} {n : Node} (h : g.Added R i n) : g'.Added R' i n where
  reached := fun hg' => by
    obtain ⟨j, hj, hji⟩ := h.reached (hcompact hg')
    exact ⟨j, hR hj, reflTransGen_contains_mono hg hji⟩
  typed   := fun c hc => (h.typed c hc).mono hg

/-- `g'` is `g` with nodes below the roots added to it. -/
structure Grows (g g' : Graph) (roots : List Nat) : Prop where
  graph   : g.Extends g'
  compact : g'.Compact → g.Compact
  nextVar : g.nextVar ≤ g'.nextVar
  axes    : ∃ new, g'.axes = g.axes ++ new ∧ NewAxes g.nextVar g'.nextVar new
  added   : ∀ i n, g'.node? i = some n → g.node? i = some n ∨ g'.Added roots i n

namespace Grows

variable {g g₁ g' : Graph} {R R' : List Nat}

theorem refl (g : Graph) (R : List Nat) : g.Grows g R where
  graph   := fun _ _ h => h
  compact := id
  nextVar := Nat.le_refl _
  axes    := ⟨[], (List.append_nil _).symm, List.nodup_nil, nofun⟩
  added   := fun _ _ => .inl

/-- A graph that has grown for some roots has for more. -/
theorem roots (h : g.Grows g' R) (hR : R ⊆ R') : g.Grows g' R' :=
  { h with added := fun i n hn => (h.added i n hn).imp_right (.mono (fun _ _ h => h) id hR) }

/-- A graph that grows twice has grown. -/
theorem trans (h : g.Grows g₁ R) (h' : g₁.Grows g' R) : g.Grows g' R where
  graph   := fun i n hn => h'.graph i n (h.graph i n hn)
  compact := fun hcompact => h.compact (h'.compact hcompact)
  nextVar := Nat.le_trans h.nextVar h'.nextVar
  axes    := by
    obtain ⟨A, hA, hnewA⟩ := h.axes
    obtain ⟨B, hB, hnewB⟩ := h'.axes
    refine ⟨A ++ B, by rw [hB, hA, List.append_assoc], ?_⟩
    exact hnewA.append hnewB h.nextVar h'.nextVar
  added   := by
    intro i n hn
    rcases h'.added i n hn with hn | hadded
    · exact (h.added i n hn).imp_right (.mono h'.graph h'.compact fun _ hj => hj)
    · exact .inr hadded

/-- An input more. -/
theorem pushInput {name : String} {kind : NodeKind} :
    g.Grows (g.push ⟨name, kind, none⟩) [Word.toId g.size] where
  graph   := extends_push
  compact := fun hcompact => Nat.le_of_lt (compact_push.mp hcompact)
  nextVar := Nat.le_refl _
  axes    := ⟨[], axes_push, List.nodup_nil, nofun⟩
  added   := by
    intro i n hn
    rcases of_node_push hn with hn | ⟨hcompact, rfl, rfl⟩
    · exact .inl hn
    · rw [toId_size hcompact]
      exact .inr ⟨fun _ => ⟨_, List.mem_singleton_self _, .refl⟩, nofun⟩

/-- A computed node more, whose axes were made before the nodes of its value. -/
theorem push {k : Nat} {name : String} {kind : NodeKind} {c : Compute}
    (hk : g.nextVar ≤ k) (haxes : NewAxes g.nextVar k c.axes)
    (h : Grows { g with nextVar := k } g₁ c.value.nodes) (htyped : c.Typed g₁ kind) :
    g.Grows (g₁.push ⟨name, kind, some c⟩) [Word.toId g₁.size] where
  graph   := fun i n hn => extends_push i n (h.graph i n hn)
  compact := fun hcompact => h.compact (Nat.le_of_lt (compact_push.mp hcompact))
  nextVar := Nat.le_trans hk h.nextVar
  axes    := by
    obtain ⟨A, hA, hnew⟩ := h.axes
    refine ⟨A ++ c.axes, by rw [axes_push, hA, List.append_assoc]; rfl, ?_⟩
    exact (haxes.append hnew hk h.nextVar).perm List.perm_append_comm
  added   := by
    intro i n hn
    rcases of_node_push hn with hn | ⟨hcompact, rfl, rfl⟩
    · refine (h.added i n hn).imp_right fun ⟨hreached, ht⟩ => ⟨fun hcompact => ?_, fun c hc =>
        (ht c hc).mono extends_push⟩
      obtain ⟨j, hj, hji⟩ := hreached (Nat.le_of_lt (compact_push.mp hcompact))
      -- the new node contains `j`, which contains node `i`
      have hfirst : (g₁.push ⟨name, kind, some c⟩).Contains g₁.size j :=
        ⟨_, c, node_push hcompact, rfl, hj⟩
      have hrest := reflTransGen_contains_mono (extends_push (n := ⟨name, kind, some c⟩)) hji
      rw [toId_size hcompact]
      exact ⟨_, List.mem_singleton_self _, .head hfirst hrest⟩
    · rw [toId_size hcompact]
      refine .inr ⟨fun _ => ⟨_, List.mem_singleton_self _, .refl⟩, fun d hd => ?_⟩
      obtain rfl := Option.some.inj hd
      exact htyped.mono extends_push

end Grows

end Graph

/-! ### Reading grows the graph -/

namespace Program

open Reader Reading

/-- A call mentions the nodes of its arguments. -/
theorem Reader.Calls.nodes_subset {name : String} {args : List Expr} {e : Expr}
    (h : Calls name args e) : Expr.nodesList args ⊆ e.nodes := by
  cases h with
  | max => simp [Expr.nodesList, Expr.max, Expr.nodes]
  | min => simp [Expr.nodesList, Expr.min, Expr.nodes]
  | cast _ => simp [Expr.nodesList, Expr.nodes]

/-- The graph has grown while reading went on. -/
abbrev Reading.Grows (r r' : Reading) (roots : List Nat) : Prop :=
  r.program.graph.Grows r'.program.graph roots

/-- Taking a token leaves the graph as it is. -/
theorem Reading.Takes.grows {t : Token} {r r' : Reading} (h : Takes t r r') (R : List Nat) :
    r.Grows r' R := by
  rw [Reading.Grows, h.program_eq]
  exact .refl _ R

theorem Reading.Skips.grows {r r' : Reading} (h : Skips r r') (R : List Nat) : r.Grows r' R := by
  rw [Reading.Grows, h.program_eq]
  exact .refl _ R

/-- A reduction over new axes. -/
theorem addReduction_grows {name : String} {op : Reduction} {index : Scalar} {extents : List Nat}
    {vars : List Var} {value : Expr} {id k : Nat} {g : Graph} {r r' : Reading}
    (hk : g.nextVar ≤ k) (haxes : NewAxes g.nextVar k vars)
    (hvalue : Graph.Grows { g with nextVar := k } r.program.graph value.nodes)
    (hadd : addReduction name op index extents vars value r = .ok (id, r')) :
    g.Grows r'.program.graph [id] ∧ r'.program.graph.Names id name := by
  rcases addReduction_eq_ok hadd with ⟨extent, axis, -, rfl, h⟩ | h
  · obtain ⟨_, hu, rfl⟩ := onGraph_eq_ok h
    obtain ⟨-, rfl, htype, rfl⟩ := Graph.addArgReduce_eq_ok hu
    exact ⟨.push hk haxes hvalue ⟨htype, rfl⟩, Graph.names_push⟩
  · obtain ⟨_, hu, rfl⟩ := onGraph_eq_ok h
    obtain ⟨-, -, rfl, s, htype, rfl⟩ := Graph.addReduce_eq_ok hu
    exact ⟨.push hk haxes hvalue htype, Graph.names_push⟩

/-- A body makes its axes and then reads its value. -/
def Body (g : Graph) (b : List Var × Expr) (g' : Graph) : Prop :=
  ∃ k, g.nextVar ≤ k ∧ NewAxes g.nextVar k b.1 ∧ Graph.Grows { g with nextVar := k } g' b.2.nodes

mutual

/-- The nodes added for an expression are below those it mentions. -/
theorem ExprAt.grows : ∀ {scope k r e r'}, ExprAt scope k r e r' → r.Grows r' e.nodes
  | _, _, _, _, _, .level hlhs hchain =>
      have ⟨hnodes, hgrows⟩ := hchain.grows
      (hlhs.grows.roots hnodes).trans hgrows
  | _, _, _, _, _, .neg ht he => (ht.grows _).trans he.grows
  | _, _, _, _, _, .not ht he => (ht.grows _).trans he.grows
  | _, _, _, _, _, .int ht => ht.grows _
  | _, _, _, _, _, .real ht => ht.grows _
  | _, _, _, _, _, .paren ht he ht' => ((ht.grows _).trans he.grows).trans (ht'.grows _)
  | _, _, _, _, _, .reduction _ hred => hred.grows.1
  | _, _, _, _, _, .call _ ht ht' hargs ht'' hcall =>
      (((ht.grows _).trans (ht'.grows _)).trans (hargs.grows.roots hcall.nodes_subset)).trans
        (ht''.grows _)
  | _, _, _, _, _, .named _ ht _ hname => (ht.grows _).trans hname.grows

/-- Reading on grows the graph for the whole expression. -/
theorem ChainAt.grows : ∀ {scope l lhs r e r'}, ChainAt scope l lhs r e r' →
    lhs.nodes ⊆ e.nodes ∧ r.Grows r' e.nodes
  | _, _, _, _, _, _, .done _ => ⟨fun _ hi => hi, .refl _ _⟩
  | _, _, _, _, _, _, .more _ _ ht hrhs hchain => by
      obtain ⟨hnodes, hgrows⟩ := hchain.grows
      obtain ⟨hl, hr⟩ := List.append_subset.mp hnodes
      exact ⟨hl, ((ht.grows _).trans (hrhs.grows.roots hr)).trans hgrows⟩
  | _, _, _, _, _, _, .once _ _ ht hrhs =>
      ⟨List.subset_append_left _ _,
        (ht.grows _).trans (hrhs.grows.roots (List.subset_append_right _ _))⟩

theorem ListAt.grows : ∀ {scope r es r'}, ListAt scope r es r' → r.Grows r' (Expr.nodesList es)
  | _, _, _, _, .last he _ => he.grows.roots (List.subset_append_left _ _)
  | _, _, _, _, .cons he ht hes =>
      ((he.grows.roots (List.subset_append_left _ _)).trans (ht.grows _)).trans
        (hes.grows.roots (List.subset_append_right _ _))

theorem NamedAt.grows : ∀ {scope name r e r'}, NamedAt scope name r e r' → r.Grows r' e.nodes
  | _, _, _, _, _, .axis _ => .refl _ _
  | _, _, _, _, _, .scalar _ _ _ _ _ => .refl _ _
  | _, _, _, _, _, .element _ _ _ _ ht hidxs ht' =>
      ((ht.grows _).trans (hidxs.grows.roots (List.subset_append_right _ _))).trans (ht'.grows _)

/-- The nodes added for a reduction are below its own, which has the name asked for. -/
theorem ReductionAt.grows : ∀ {scope name r id r'}, ReductionAt scope name r id r' →
    r.Grows r' [id] ∧ ∀ s, name = some s → r'.program.graph.Names id s
  | _, _, _, _, _, .intro ht _ hindex hlist hbody hadd => by
      obtain ⟨k, hk, haxes, hvalue⟩ := hbody.grows
      obtain ⟨hgrows, hnames⟩ := addReduction_grows hk haxes hvalue hadd
      have hskips := (ht.skips).trans
        ((indexType_skips _ _ _ hindex).trans (axes_skips _ _ _ hlist))
      refine ⟨(hskips.grows _).trans hgrows, fun s hs => ?_⟩
      rwa [hs, Option.getD_some] at hnames

/-- The body of a reduction is read into a graph that has grown for its value. -/
theorem BodyAt.grows : ∀ {scope list r b r'}, BodyAt scope list r b r' →
    Body r.program.graph b r'.program.graph
  | _, _, r, _, _, .intro ht hvars hvalue => by
      have hgrows := hvalue.grows
      obtain ⟨g, hu, rfl⟩ := onGraph_eq_ok hvars
      obtain ⟨hids, rfl⟩ := Graph.newAxes_eq_ok hu
      rw [ht.program_eq] at hids hgrows
      exact ⟨_, Nat.le_add_right _ _, .of_range hids, hgrows⟩

end

end Program

end TensorLoops
