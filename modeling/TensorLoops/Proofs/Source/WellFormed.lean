import TensorLoops.Proofs.Code.Layout
import TensorLoops.Proofs.Source.Declarations
import TensorLoops.Proofs.Source.Series

/-!
# Proofs — Source — WellFormed

Programs that were read are well formed.  Every node of the graph has grown below a declared one
(`Declared.grown`), and a declared node unfolds where nothing is in scope (`WellScoped`).  So every
node unfolds where the axes of the nodes around it are in scope (`Graph.Unfolds.of_reaches`), and
what a node's value may mention follows from its place.
-/

namespace TensorLoops

open Relation
open Program.Reader (NewAxes)

namespace Graph

/-! ### Owners and free variables -/

/-- The variable is an axis of the node. -/
def Owns (g : Graph) (i : Nat) (v : Var) : Prop := ∃ n, g.nodes[i]? = some n ∧ v ∈ n.axes

/-- The variable occurs in the value of the node, or is free in a node that the value mentions,
and is none of the node's axes. -/
inductive FreeIn (g : Graph) (v : Var) : Nat → Prop where
  | value {i n c} : g.node? i = some n → n.compute = some c → v ∉ c.axes → v ∈ c.value.vars →
      FreeIn g v i
  | inner {i j n c} : g.node? i = some n → n.compute = some c → v ∉ c.axes →
      j ∈ c.value.nodes → FreeIn g v j → FreeIn g v i

variable {g : Graph} {w : Nat}

theorem mem_axes {v : Var} : v ∈ g.axes ↔ ∃ i, g.Owns i v := by
  simp only [axes, List.mem_flatMap, Array.mem_toList_iff, Array.mem_iff_getElem?, Owns]
  constructor
  · rintro ⟨n, ⟨i, hn⟩, hv⟩
    exact ⟨i, n, hn, hv⟩
  · rintro ⟨i, n, hn, hv⟩
    exact ⟨n, ⟨i, hn⟩, hv⟩

/-- Axes of different nodes have different ids. -/
theorem owner_unique (hg : (g.axes.map (·.id)).Nodup) {i j : Nat} {v u : Var} (hv : g.Owns i v)
    (hu : g.Owns j u) (hid : v.id = u.id) : i = j := by
  obtain ⟨n, hn, hv⟩ := hv
  obtain ⟨m, hm, hu⟩ := hu
  rw [axes, List.map_flatMap, List.nodup_flatMap] at hg
  have hdisjoint := List.pairwise_iff_getElem.mp hg.2
  rw [← Array.getElem?_toList] at hn hm
  obtain ⟨hi, rfl⟩ := List.getElem?_eq_some_iff.mp hn
  obtain ⟨hj, rfl⟩ := List.getElem?_eq_some_iff.mp hm
  rcases Nat.lt_trichotomy i j with h | h | h
  · exact absurd (hid ▸ List.mem_map_of_mem hu)
      (List.disjoint_left.mp (hdisjoint i j hi hj h) (List.mem_map_of_mem hv))
  · exact h
  · exact absurd (hid ▸ List.mem_map_of_mem hv)
      (List.disjoint_left.mp (hdisjoint j i hj hi h) (List.mem_map_of_mem hu))

/-- The variables of a well-scoped expression are in scope. -/
theorem Scoped.vars_subset : ∀ {S : List Var} {e : Expr}, g.Scoped w S e → e.vars ⊆ S
  | _, _, .var hv => List.cons_subset.mpr ⟨hv, List.nil_subset _⟩
  | _, _, .const => List.nil_subset _
  | _, _, .node _ _ _ => List.nil_subset _
  | _, _, .binary hl hr => List.append_subset.mpr ⟨hl.vars_subset, hr.vars_subset⟩
  | _, _, .unary he => he.vars_subset
  | _, _, .cast he => he.vars_subset
  | _, _, .element _ _ _ hidxs => by
      intro v hv
      obtain ⟨e, he, hv⟩ := Expr.mem_varsList.mp hv
      exact (hidxs e he).vars_subset hv

/-- What a computed node unfolds to. -/
theorem Unfolds.of_compute {S : List Var} {i : Nat} {n : Node} {c : Compute} (h : g.Unfolds w S i)
    (hn : g.node? i = some n) (hc : n.compute = some c) :
    c.WellFormed n.kind i w S ∧ g.Scoped w (c.axes ++ S) c.value := by
  cases h with
  | input hn' hc' =>
      obtain rfl := Option.some.inj (hn.symm.trans hn')
      exact nomatch hc.symm.trans hc'
  | computed hn' hc' hwf hvalue =>
      obtain rfl := Option.some.inj (hn.symm.trans hn')
      obtain rfl := Option.some.inj (hc.symm.trans hc')
      exact ⟨hwf, hvalue⟩

/-- A variable that is free in a node is in scope where the node unfolds. -/
theorem Unfolds.mem_of_freeIn {S : List Var} {i : Nat} {v : Var} (h : g.Unfolds w S i)
    (hv : g.FreeIn v i) : v ∈ S := by
  induction hv generalizing S with
  | value hn hc hnot hv =>
      have hscope := (h.of_compute hn hc).2.vars_subset hv
      exact (List.mem_append.mp hscope).resolve_left hnot
  | inner hn hc hnot hj _ ih =>
      have hscope := ih ((h.of_compute hn hc).2.unfolds _ hj)
      exact (List.mem_append.mp hscope).resolve_left hnot

/-- A node contained in a closed one unfolds where axes of nodes around it are in scope. -/
theorem Unfolds.of_reaches {i j : Nat} (h : ReflTransGen g.Contains j i) (hj : g.Unfolds w [] j) :
    ∃ S, g.Unfolds w S i ∧ ∀ v ∈ S, ∃ k, TransGen g.Contains k i ∧ g.Owns k v := by
  induction h with
  | refl => exact ⟨[], hj, nofun⟩
  | @tail k i _ hki ih =>
      obtain ⟨S, hk, hS⟩ := ih
      obtain ⟨n, c, hn, hc, hi⟩ := id hki
      refine ⟨c.axes ++ S, (hk.of_compute hn hc).2.unfolds i hi, fun v hv => ?_⟩
      rcases List.mem_append.mp hv with hv | hv
      · exact ⟨k, .single hki, n, getElem?_of_node? hn, by simpa [Node.axes, hc] using hv⟩
      · obtain ⟨l, hlk, howns⟩ := hS v hv
        exact ⟨l, .tail hlk hki, howns⟩

end Graph

/-! ### Well-formed programs -/

/-- The definition fits its node: a grid is a tensor of its shape and a reduction is a scalar, with
an axis for each dimension, positive extents and the type of its value. -/
structure Compute.Fits (g : Graph) (kind : NodeKind) (c : Compute) : Prop where
  suits    : c.Suits kind
  axes     : c.axes.length = c.extents.length
  positive : ∀ n ∈ c.extents, 0 < n
  typed    : c.Typed g kind

namespace Graph

/-- Nodes mention earlier nodes; each axis has one owner and its own id; variables are axes of the
node or of a node around it; and definitions fit. -/
structure WellFormed (g : Graph) : Prop where
  earlier  : ∀ i j, g.Contains j i → i < j
  owner    : ∀ v ∈ g.axes, ∃! i, g.Owns i v
  distinct : (g.axes.map (·.id)).Nodup
  below    : ∀ v ∈ g.axes, v.id < g.nextVar
  inScope  : ∀ (i : Nat) (n : Node) (c : Compute), g.node? i = some n → n.compute = some c →
    ∀ v ∈ c.value.vars, v ∈ c.axes ∨ ∃ j, TransGen g.Contains j i ∧ g.Owns j v
  fits     : ∀ (i : Nat) (n : Node) (c : Compute), g.node? i = some n → n.compute = some c →
    c.Fits g n.kind

end Graph

namespace Program

open Lexeme

/-- The graph is well formed and its bound nodes are closed, and the names that the text declares
are distinct and are looked up as they were declared. -/
structure WellFormed (source : List Lexeme) (p : Program) : Prop where
  graph    : p.graph.WellFormed
  closed   : ∀ b ∈ p.bindings, ∀ v, ¬ p.graph.FreeIn v b.2
  inputs   : (introduced .inputWord source).length = p.inputs.length
  bindings : p.bindings.map Prod.fst = introduced .letWord source
  distinct : ((p.declarations source).map Prod.fst).Nodup
  named    : ∀ d ∈ p.declarations source, ∃ n, p.graph.node? d.2 = some n ∧ n.name = d.1
  lookup   : ∀ name id, p.lookup name = some id ↔ (name, id) ∈ p.declarations source

section Grown

variable {source : List Lexeme} {p : Program}

theorem Declared.axes (hp : p.Declared source) : NewAxes 0 p.graph.nextVar p.graph.axes := by
  obtain ⟨new, hnew, haxes⟩ := hp.grown.axes
  rw [hnew]
  exact haxes

theorem Declared.added (hp : p.Declared source) {i : Nat} {n : Node}
    (hn : p.graph.node? i = some n) :
    p.graph.Added ((p.declarations source).map Prod.snd) i n := by
  refine (hp.grown.added i n hn).resolve_left fun hempty => ?_
  cases Graph.node?_empty.symm.trans hempty

/-- Each node is an input or has taken the id of an axis. -/
theorem Declared.size_le (hp : p.Declared source) (hs : p.WellScoped) :
    p.graph.size ≤ p.graph.nextVar + p.inputs.length := by
  have hids : p.graph.axes.map (·.id) ⊆ List.range p.graph.nextVar := by
    intro i hi
    obtain ⟨v, hv, rfl⟩ := List.mem_map.mp hi
    exact List.mem_range.mpr (hp.axes.range v hv).2
  have hle := (List.subperm_of_subset hp.axes.nodup hids).length_le
  rw [List.length_map, List.length_range] at hle
  exact Nat.le_trans hs.size (Nat.add_le_add_right hle _)

theorem WellScoped.unfolds_declared (hs : p.WellScoped) (hcompact : p.graph.Compact) {i : Nat}
    (hi : i ∈ (p.declarations source).map Prod.snd) : p.graph.Unfolds p.graph.nextVar [] i := by
  obtain ⟨d, hd, rfl⟩ := List.mem_map.mp hi
  rcases List.mem_append.mp hd with hd | hd
  · obtain ⟨n, hn, hc⟩ := hs.inputs d.2 (List.of_mem_zip hd).2
    exact .input hn (hc hcompact)
  · exact (hs.bindings d hd).unfolds hcompact

/-- Every node unfolds where axes of nodes around it are in scope. -/
theorem Declared.unfolds (hp : p.Declared source) (hs : p.WellScoped)
    (hcompact : p.graph.Compact) {i : Nat} {n : Node} (hn : p.graph.node? i = some n) :
    ∃ S, p.graph.Unfolds p.graph.nextVar S i ∧
      ∀ v ∈ S, ∃ k, TransGen p.graph.Contains k i ∧ p.graph.Owns k v := by
  obtain ⟨j, hj, hji⟩ := (hp.added hn).reached hcompact
  exact Graph.Unfolds.of_reaches hji (hs.unfolds_declared hcompact hj)

/-- What an id leads to mentions earlier nodes. -/
theorem WellScoped.earlier (hs : p.WellScoped) (i j : Nat) (h : p.graph.Contains j i) : i < j := by
  obtain ⟨n, c, hn, hc, hi⟩ := h
  obtain ⟨S, hj, -⟩ := hs.settled j n hn
  exact (hj.of_compute hn hc).1.earlier i hi

/-- The definition of what an id leads to fits it. -/
theorem Declared.fits (hp : p.Declared source) (hs : p.WellScoped) {i : Nat} {n : Node}
    {c : Compute} (hn : p.graph.node? i = some n) (hc : n.compute = some c) :
    c.Fits p.graph n.kind := by
  obtain ⟨S, hi, -⟩ := hs.settled i n hn
  have hwf := (hi.of_compute hn hc).1
  exact ⟨hwf.suits, hwf.length, fun k hk => (hwf.extents k hk).1, (hp.added hn).typed c hc⟩

/-- **What was declared and is scoped is well-formed.** -/
theorem Declared.wellFormed_graph (hp : p.Declared source) (hs : p.WellScoped)
    (hcompact : p.graph.Compact) : p.graph.WellFormed where
  earlier  := hs.earlier
  owner    := by
    intro v hv
    obtain ⟨i, hi⟩ := Graph.mem_axes.mp hv
    exact ⟨i, hi, fun j hj => Graph.owner_unique hp.axes.nodup hj hi rfl⟩
  distinct := hp.axes.nodup
  below    := fun v hv => (hp.axes.range v hv).2
  inScope  := by
    intro i n c hn hc v hv
    obtain ⟨S, hi, hS⟩ := hp.unfolds hs hcompact hn
    have hscope := (hi.of_compute hn hc).2.vars_subset hv
    exact (List.mem_append.mp hscope).imp_right (hS v)
  fits     := fun i n c => hp.fits hs

end Grown

/-- **Every program with ids for all nodes of its graph is well formed.** -/
theorem wellFormed_of_parse {source : String} {p : Program} (h : parse source = .ok p)
    (hcompact : p.graph.size ≤ Word.idLimit) : p.WellFormed (Lexeme.scan source) := by
  have hp := declared_of_parse h
  have hs := wellScoped_of_parse h
  refine ⟨hp.wellFormed_graph hs hcompact, ?closed, hp.length, hp.bindings, hp.distinct,
    fun d hd => hp.named d hd hcompact, ?lookup⟩
  case closed =>
    intro b hb v hv
    exact absurd (((hs.bindings b hb).unfolds hcompact).mem_of_freeIn hv) List.not_mem_nil
  case lookup => exact fun name id => hp.lookup_iff hcompact

/-- A text in which a sum inside a grid mentions the axis of the grid. -/
def rowMeans : String :=
  "input A: f32[2, 3];
let m = grid[i: 2] => sum[k: 3] => A[i, k] / 3.0;
let best = argmax[i: 2] => m[i];
output m, best;"

theorem wellFormed_of_parse_rowMeans : ∃ p, parse rowMeans = .ok p ∧ p.graph.size ≤ Word.idLimit ∧
    p.lookup "m" = some 2 ∧ p.lookup "m_sum0" = none ∧ p.WellFormed (Lexeme.scan rowMeans) := by
  have hok : (do
      let p ← parse rowMeans
      return decide (p.graph.size ≤ Word.idLimit ∧ p.lookup "m" = some 2 ∧
        p.lookup "m_sum0" = none)) = Except.ok true := by
    decide +kernel
  obtain ⟨p, hp, hok⟩ := bind_eq_ok.mp hok
  obtain ⟨hsize, hm, hsum⟩ := of_decide_eq_true (pure_eq_ok.mp hok)
  exact ⟨p, hp, hsize, hm, hsum, wellFormed_of_parse hp hsize⟩

/-- A program with more inputs than there are ids is not well formed. -/
theorem not_wellFormed_of_inputs :
    ∃ source p,
      source = spell ((List.range (Word.idLimit + 1)).flatMap fun i => inputTokens (numbered i)) ∧
      parse source = .ok p ∧ p.graph.size = Word.idLimit + 1 ∧
      p.lookup (numbered Word.idLimit) = some 0 ∧
      (p.graph.node? 0).map Node.name = some (numbered 0) ∧
      ¬ p.WellFormed (Lexeme.scan source) := by
  have hlookup := lookup_wraps (Nat.lt_succ_self Word.idLimit)
  have hnode := node?_zero_inputsProgram (Nat.succ_pos Word.idLimit)
  refine ⟨_, _, rfl, parse_inputs (Word.idLimit + 1), size_inputsProgram _, hlookup, ?name,
    fun h => ?_⟩
  case name => rw [hnode, Option.map_some]
  obtain ⟨m, hm, hname⟩ := h.named _ ((h.lookup _ _).mp hlookup)
  obtain rfl := Option.some.inj (hnode.symm.trans hm)
  have hzero : 0 = Word.idLimit := numbered_injective hname
  exact absurd hzero (by decide)

end Program

end TensorLoops
