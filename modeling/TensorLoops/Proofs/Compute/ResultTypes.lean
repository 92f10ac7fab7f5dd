import TensorLoops.Proofs.Compute.Calls
import TensorLoops.Proofs.Compute.Values
import TensorLoops.Proofs.Source.WellFormed

/-!
# Proofs — Compute — ResultTypes

The type of what expansion returns.  An accumulator has the type of the values folded into it, a
position its index type and a tensor's storage the type of its elements, so the value of an expanded
expression has the type of the expression.  There is one exception: the result of a mean is a
quotient by an `i32` literal, and so it is an `i32` where the values are of a type that an `i32`
absorbs (`Graph.NarrowMean`).  `Graph.widened` gives means the type of their results; then the type
of the value is the type of the expression in the widened graph (`typeOf_expand`).
-/

namespace TensorLoops

/-! ### Where graphs come from -/

namespace Graph

/-- A graph that was read off a text or built by calls, or by both in turn. -/
inductive Arises : Graph → Prop where
  | empty : Arises .empty
  | parsed {source p} : Program.parse source = .ok p → Arises p.graph
  | call {g} (c : Call) : Arises g → Arises (c.apply g)

/-- What arises is consistent. -/
theorem Arises.consistent {g : Graph} (h : g.Arises) : g.Consistent := by
  induction h with
  | empty =>
      intro i n hn
      cases node?_empty.symm.trans hn
  | parsed hp =>
      intro i n hn d hd
      have hfits := (Program.declared_of_parse hp).fits (Program.wellScoped_of_parse hp) hn hd
      exact ⟨hfits.suits, hfits.axes, hfits.typed⟩
  | call c _ ih => exact ih.after [c]

/-- What comes of calls on what arises, arises. -/
theorem Arises.after {g : Graph} (h : g.Arises) (calls : List Call) : (g.after calls).Arises := by
  induction calls generalizing g with
  | nil => exact h
  | cons c calls ih => exact ih (h.call c)

/-- The variables stored have the type of storage for their nodes. -/
def Stocked (g : Graph) (st : Storage) : Prop :=
  ∀ (id : Nat) (v : Var) (n : Node), st.find? id = some v → g.node? id = some n →
    v.ty = n.kind.storage

end Graph

/-! ### The results of means -/

/-- The node with the type of its result: that of a mean is at least an `i32`. -/
def Node.widened (n : Node) : Node :=
  match n.kind, n.compute with
  | .scalar s, some (.reduce _ _ _ .mean) => { n with kind := .scalar (s.promote .i32) }
  | _,         _                          => n

theorem Scalar.promote_i32_of_ne {s : Scalar} (h : s.promote .i32 ≠ s) : s.promote .i32 = .i32 := by
  revert h
  cases s <;> decide

namespace Graph

variable {g : Graph}

/-- The graph in which nodes have the types of their results. -/
def widened (g : Graph) : Graph := { g with nodes := g.nodes.map Node.widened }

/-- The node is the mean of values of a type that an `i32` absorbs. -/
def NarrowMean (g : Graph) (i : Nat) : Prop :=
  ∃ n s shape axes value, g.node? i = some n ∧ n.kind = .scalar s ∧
    n.compute = some (.reduce shape axes value .mean) ∧ s.promote .i32 ≠ s

@[simp] theorem widened_node {i : Nat} {n : Node} (hn : g.node? i = some n) :
    g.widened.node? i = some n.widened := by
  obtain ⟨hlt, hn⟩ := node?_eq_some.mp hn
  exact node?_eq_some.mpr ⟨hlt, by simp [widened, hn]⟩

/-- What the result of a scalar node is. -/
theorem widened_scalar {n : Node} {s : Scalar} (hk : n.kind = .scalar s) :
    ∃ t, n.widened.kind = .scalar t := by
  unfold Node.widened
  split
  · exact ⟨_, rfl⟩
  · exact ⟨s, hk⟩

theorem widened_tensor {n : Node} {s : Scalar} {shape : List Nat} (hk : n.kind = .tensor s shape) :
    n.widened = n := by
  simp only [Node.widened, hk]

theorem widened_input {n : Node} (hc : n.compute = none) : n.widened = n := by
  unfold Node.widened
  rw [hc]
  split
  · cases ‹_›
  · rfl

/-- A node keeps its type in the widened graph unless it is a narrow mean. -/
theorem widened_of_not_narrowMean {i : Nat} {n : Node} (hn : g.node? i = some n)
    (h : ¬ g.NarrowMean i) : n.widened = n := by
  unfold Node.widened
  split
  · rename_i s shape axes value hk hc
    have hs : s.promote .i32 = s := by
      by_contra hne
      exact h ⟨n, s, shape, axes, value, hn, hk, hc, hne⟩
    rw [hs, ← hk]
  · rfl

/-- The elements of a tensor keep their type in the widened graph. -/
theorem elementType_widened {base : Expr} {rank : Nat} {s : Scalar}
    (h : g.elementType base rank = .ok s) : g.widened.elementType base rank = .ok s := by
  match base with
  | .node id =>
      obtain ⟨n, hnode, h⟩ := bind_eq_ok.mp h
      cases hk : n.kind with
      | tensor s' shape =>
          have hn := widened_node (node_eq_ok.mp hnode)
          rw [widened_tensor hk] at hn
          exact bind_eq_ok.mpr ⟨n, node_eq_ok.mpr hn, h⟩
      | scalar s' =>
          rw [hk] at h
          cases h
  | .var v => exact h
  | .const _ _ | .binary _ _ _ | .unary _ _ | .cast _ _ | .element _ _ | .call _ _ => cases h

/-- An expression keeps its type in the widened graph if no narrow mean is looked at. -/
theorem typeOf_widened : ∀ {e : Expr} {s : Scalar}, g.typeOf e = .ok s →
    (∀ i ∈ e.shown, ¬ g.NarrowMean i) → g.widened.typeOf e = .ok s
  | .var _, _, h, _ | .const _ _, _, h, _ | .cast _ _, _, h, _ | .call _ _, _, h, _ => h
  | .node id, s, h, hi => by
      obtain ⟨n, hnode, h⟩ := bind_eq_ok.mp h
      have hn := widened_node (node_eq_ok.mp hnode)
      have hnarrow := hi id (List.mem_singleton_self id)
      rw [widened_of_not_narrowMean (node_eq_ok.mp hnode) hnarrow] at hn
      exact bind_eq_ok.mpr ⟨n, node_eq_ok.mpr hn, h⟩
  | .binary _ _ _, s, h, hi => by
      obtain ⟨s₁, hl, h⟩ := bind_eq_ok.mp h
      obtain ⟨s₂, hr, h⟩ := bind_eq_ok.mp h
      have hl := typeOf_widened hl fun i hm => hi i (List.mem_append_left _ hm)
      have hr := typeOf_widened hr fun i hm => hi i (List.mem_append_right _ hm)
      exact bind_eq_ok.mpr ⟨s₁, hl, bind_eq_ok.mpr ⟨s₂, hr, h⟩⟩
  | .unary _ e, s, h, hi => by
      obtain ⟨s₁, he, h⟩ := bind_eq_ok.mp h
      exact bind_eq_ok.mpr ⟨s₁, typeOf_widened he hi, h⟩
  | .element _ _, _, h, _ => elementType_widened h

/-- A narrow mean is an `i32` in the widened graph, and none in the graph itself. -/
theorem NarrowMean.typeOf {i : Nat} (h : g.NarrowMean i) {s : Scalar}
    (hs : g.typeOf (.node i) = .ok s) : g.widened.typeOf (.node i) = .ok .i32 ∧ s ≠ .i32 := by
  obtain ⟨n, s', shape, axes, value, hn, hk, hc, hne⟩ := h
  obtain ⟨m, hm, hs⟩ := bind_eq_ok.mp hs
  obtain rfl := Option.some.inj (hn.symm.trans (node_eq_ok.mp hm))
  rw [hk] at hs
  obtain rfl := Except.ok.inj hs
  have hwide : n.widened.kind = .scalar .i32 := by
    simp only [Node.widened, hk, hc, Scalar.promote_i32_of_ne hne]
  refine ⟨bind_eq_ok.mpr ⟨_, node_eq_ok.mpr (widened_node hn), ?_⟩, ?_⟩
  · rw [hwide]
  · rintro rfl
    exact hne rfl

end Graph

/-! ### Storage made -/

namespace Expansion

variable {c : Context} {id : Nat} {n : Node} {hint : String} {ty : Ty} {u u' : Supply} {v : Var}

/-- Storage of the type of its node keeps the stock in order. -/
theorem Creates.stocked (h : Creates id hint ty u v u') (hn : c.graph.node? id = some n)
    (hty : ty = n.kind.storage) (hu : c.graph.Stocked u.created) :
    v.ty = n.kind.storage ∧ c.graph.Stocked u'.created := by
  have hstocked : c.graph.Stocked u'.created := by
    intro i x m hx hm
    rcases h.find?_cases hx with hx | ⟨rfl, rfl⟩
    · exact hu i x m hx hm
    · rw [← Option.some.inj (hn.symm.trans hm)]
      exact hty
  exact ⟨hstocked id v n h.find? hn, hstocked⟩

theorem Allots.stocked (h : Allots c id hint n.kind.storage u v u')
    (hn : c.graph.node? id = some n) (hgiven : c.graph.Stocked c.given)
    (hu : c.graph.Stocked u.created) : v.ty = n.kind.storage ∧ c.graph.Stocked u'.created := by
  cases h with
  | given hv => exact ⟨hgiven id v n hv hn, hu⟩
  | made _ h => exact h.stocked hn rfl hu

/-- Definitions have types, and the storage given suits its nodes. -/
structure Context.Sound (c : Context) : Prop where
  consistent : c.graph.Consistent
  given      : c.graph.Stocked c.given

/-- An accumulator has the type of its node. -/
theorem Context.Sound.kind_of_reduce {shape : List Nat} {axes : List Var} {value : Expr}
    {op : Reduction} {s : Scalar} (hsound : c.Sound) (hn : c.graph.node? id = some n)
    (hc : n.compute = some (.reduce shape axes value op)) (hs : c.graph.typeOf value = .ok s) :
    n.kind = .scalar s := by
  obtain ⟨hsuits, -, htyped⟩ := hsound.consistent id n hn _ hc
  obtain ⟨⟨k, hk⟩, -⟩ := Compute.kind_of_reduce hsuits
  obtain rfl : s = n.kind.dtype := Except.ok.inj (hs.symm.trans htyped)
  rw [hk]
  rfl

/-- A position has the type of its node. -/
theorem Context.Sound.kind_of_argReduce {extent : Nat} {axis : Var} {value : Expr} {op : Reduction}
    {index : Scalar} (hsound : c.Sound) (hn : c.graph.node? id = some n)
    (hc : n.compute = some (.argReduce extent axis value op index)) : n.kind = .scalar index := by
  obtain ⟨hsuits, -, htyped⟩ := hsound.consistent id n hn _ hc
  obtain ⟨k, hk⟩ := Compute.kind_of_argReduce hsuits
  obtain rfl : index = n.kind.dtype := htyped.2
  rw [hk]
  rfl

mutual

theorem Becomes.stocked (hsound : c.Sound) : ∀ {e u v u'}, Becomes c e u v u' →
    c.graph.Stocked u.created → c.graph.Stocked u'.created
  | _, _, _, _, .var, hu => hu
  | _, _, _, _, .const, hu => hu
  | _, _, _, _, .node h, hu => h.stocked hsound hu
  | _, _, _, _, .binary hl hr, hu => hr.stocked hsound (hl.stocked hsound hu)
  | _, _, _, _, .unary h, hu => h.stocked hsound hu
  | _, _, _, _, .cast h, hu => h.stocked hsound hu
  | _, _, _, _, .element hb hs, hu => hs.stocked hsound (hb.stocked hsound hu)
  | _, _, _, _, .call hs, hu => hs.stocked hsound hu

theorem BecomesList.stocked (hsound : c.Sound) : ∀ {es u vs u'}, BecomesList c es u vs u' →
    c.graph.Stocked u.created → c.graph.Stocked u'.created
  | _, _, _, _, .nil, hu => hu
  | _, _, _, _, .cons h hs, hu => hs.stocked hsound (h.stocked hsound hu)

/-- The storage made for nodes suits them. -/
theorem Stands.stocked (hsound : c.Sound) : ∀ {id u v u'}, Stands c id u v u' →
    c.graph.Stocked u.created → c.graph.Stocked u'.created
  | _, _, _, _, .input _ _ _, hu => hu
  | _, _, _, _, .grid hn _ hallots h, hu =>
      h.stocked hsound (hallots.stocked hn hsound.given hu).2
  | _, _, _, _, .reduce hn hc hs hcreates h, hu => by
      have hkind := hsound.kind_of_reduce hn hc hs
      exact h.stocked hsound (hcreates.stocked hn (congrArg NodeKind.storage hkind.symm) hu).2
  | _, _, _, _, .argReduce hn hc hcreates h, hu => by
      have hkind := hsound.kind_of_argReduce hn hc
      exact h.stocked hsound (hcreates.stocked hn (congrArg NodeKind.storage hkind.symm) hu).2

end

/-! ### The types of values -/

/-- The value is as a node of the kind: a scalar of its type, or a tensor variable. -/
def Describes (g : Graph) (v : Expr) : NodeKind → Prop
  | .scalar s       => g.typeOf v = .ok s
  | .tensor s shape => ∃ x : Var, v = .var x ∧ x.ty = .tensor s shape

theorem describes_var {g : Graph} {kind : NodeKind} {x : Var} (h : x.ty = kind.storage) :
    Describes g (.var x) kind := by
  cases kind with
  | scalar s => simp only [Describes, Graph.typeOf, h, NodeKind.storage, Ty.scalar?]
  | tensor s shape => exact ⟨x, rfl, h⟩

/-- The result of a reduction has the type of its accumulator, unless it is a mean. -/
theorem describes_finalize {g : Graph} {op : Reduction} {s : Scalar} {acc : Var} {count : Nat}
    (h : acc.ty = .scalar s) : Describes g (op.finalize (.var acc) count)
      (.scalar (if op = .mean then s.promote .i32 else s)) := by
  have hacc : g.typeOf (.var acc) = .ok s := by simp only [Graph.typeOf, h, Ty.scalar?]
  cases op with
  | mean => exact bind_eq_ok.mpr ⟨s, hacc, rfl⟩
  | _ => exact hacc

/-- **A node stands for a value of the kind of its result.** -/
theorem Stands.describes {e : Expr} (h : Stands c id u e u') (hsound : c.Sound)
    (hu : c.graph.Stocked u.created) :
    ∃ n, c.graph.node? id = some n ∧ Describes c.graph e n.widened.kind := by
  cases h with
  | @input _ n _ _ hn hc hgiven =>
      refine ⟨n, hn, ?_⟩
      rw [Graph.widened_input hc]
      exact describes_var (hsound.given id _ n hgiven hn)
  | @grid _ n _ _ _ _ _ _ _ _ hn hc hallots _ =>
      obtain ⟨s, hk⟩ := Compute.kind_of_grid (hsound.consistent id n hn _ hc).1
      refine ⟨n, hn, ?_⟩
      rw [Graph.widened_tensor hk]
      exact describes_var (hallots.stocked hn hsound.given hu).1
  | @reduce _ n _ _ _ op s _ _ _ _ _ _ hn hc hs hcreates _ =>
      have hk := hsound.kind_of_reduce hn hc hs
      have hacc := (hcreates.stocked hn (congrArg NodeKind.storage hk.symm) hu).1
      -- the accumulator is as announced; what a mean returns is divided by a count, an `i32`
      have hwide : n.widened.kind = .scalar (if op = .mean then s.promote .i32 else s) := by
        cases op <;> simp [Node.widened, hk, hc]
      refine ⟨n, hn, ?_⟩
      rw [hwide]
      exact describes_finalize (hacc.trans (congrArg NodeKind.storage hk))
  | @argReduce _ n _ _ _ _ _ _ _ _ _ _ hn hc hcreates _ =>
      have hk := hsound.kind_of_argReduce hn hc
      have hposition := (hcreates.stocked hn (congrArg NodeKind.storage hk.symm) hu).1
      have hwide : n.widened = n := by simp only [Node.widened, hk, hc]
      refine ⟨n, hn, ?_⟩
      rw [hwide]
      exact describes_var hposition

/-- The elements of a tensor have the type that they have in the graph. -/
theorem Becomes.elementType (hsound : c.Sound) {base b : Expr} (h : Becomes c base u b u')
    (hu : c.graph.Stocked u.created) {rank rank' : Nat} {s : Scalar}
    (hs : c.graph.elementType base rank = .ok s) : c.graph.elementType b rank' = .ok s := by
  cases h with
  | var => exact hs
  | node hstands =>
      obtain ⟨n, hn, hdescribes⟩ := hstands.describes hsound hu
      obtain ⟨m, hm, hs⟩ := bind_eq_ok.mp hs
      obtain rfl := Option.some.inj (hn.symm.trans (Graph.node_eq_ok.mp hm))
      cases hk : n.kind with
      | scalar =>
          rw [hk] at hs
          cases hs
      | tensor s' shape =>
          rw [Graph.widened_tensor hk, hk] at hdescribes
          obtain ⟨x, rfl, hx⟩ := hdescribes
          simp only [hk] at hs
          split at hs
          · obtain rfl := Except.ok.inj hs
            simp only [Graph.elementType, hx, Ty.element?]
          · cases hs
  | _ => cases hs

/-- The type of a value: that of the expression where means have the types of their results. -/
theorem Becomes.typeOf (hsound : c.Sound) : ∀ {e u v u'}, Becomes c e u v u' →
    c.graph.Stocked u.created → ∀ {s}, c.graph.typeOf e = .ok s →
      ∃ t, c.graph.widened.typeOf e = .ok t ∧ c.graph.typeOf v = .ok t
  | _, _, _, _, .var, _, s, h => ⟨s, h, h⟩
  | _, _, _, _, .const, _, s, h => ⟨s, h, h⟩
  | _, _, _, _, .cast _, _, s, h => ⟨s, h, h⟩
  | _, _, _, _, .call _, _, _, h => nomatch h
  | _, _, _, _, .node hstands, hu, s, h => by
      obtain ⟨n, hn, hdescribes⟩ := hstands.describes hsound hu
      obtain ⟨m, hm, h⟩ := bind_eq_ok.mp h
      obtain rfl := Option.some.inj (hn.symm.trans (Graph.node_eq_ok.mp hm))
      cases hk : n.kind with
      | tensor =>
          rw [hk] at h
          cases h
      | scalar s' =>
          obtain ⟨t, ht⟩ := Graph.widened_scalar hk
          rw [ht] at hdescribes
          have hwide := Graph.node_eq_ok.mpr (Graph.widened_node hn)
          exact ⟨t, bind_eq_ok.mpr ⟨_, hwide, by rw [ht]⟩, hdescribes⟩
  | _, _, _, _, .binary hl hr, hu, s, h => by
      obtain ⟨s₁, hs₁, h⟩ := bind_eq_ok.mp h
      obtain ⟨s₂, hs₂, -⟩ := bind_eq_ok.mp h
      obtain ⟨t₁, hl₁, hv₁⟩ := hl.typeOf hsound hu hs₁
      obtain ⟨t₂, hr₂, hv₂⟩ := hr.typeOf hsound (hl.stocked hsound hu) hs₂
      exact ⟨_, bind_eq_ok.mpr ⟨t₁, hl₁, bind_eq_ok.mpr ⟨t₂, hr₂, rfl⟩⟩,
        bind_eq_ok.mpr ⟨t₁, hv₁, bind_eq_ok.mpr ⟨t₂, hv₂, rfl⟩⟩⟩
  | _, _, _, _, .unary he, hu, s, h => by
      obtain ⟨s₁, hs₁, -⟩ := bind_eq_ok.mp h
      obtain ⟨t₁, ht₁, hv₁⟩ := he.typeOf hsound hu hs₁
      exact ⟨_, bind_eq_ok.mpr ⟨t₁, ht₁, rfl⟩, bind_eq_ok.mpr ⟨t₁, hv₁, rfl⟩⟩
  | _, _, _, _, .element hb _, hu, s, h =>
      ⟨s, Graph.elementType_widened h, hb.elementType hsound hu h⟩

end Expansion

namespace Graph

open Expansion

/-- **The type of what expansion returns.**  It is the type that the expression has in the widened
graph, so expansion preserves the type where it looks at no narrow mean; and it does not preserve
the type of a narrow mean. -/
theorem typeOf_expand {g : Graph} {e : Expr} {given : Storage} {x : Expansion} {s : Scalar}
    (hg : g.Arises) (hgiven : g.Stocked given) (hs : g.typeOf e = .ok s)
    (hx : g.expand e given = .ok x) :
    (∃ t, g.widened.typeOf e = .ok t ∧ g.typeOf x.value = .ok t) ∧
    ((∀ i ∈ e.shown, ¬ g.NarrowMean i) → g.typeOf x.value = .ok s) ∧
    (∀ i, e = .node i → g.NarrowMean i → g.typeOf x.value = .ok .i32 ∧ s ≠ .i32) := by
  obtain ⟨next, hbecomes⟩ := becomes_of_expand hx
  have hsound : Context.Sound ⟨g, given⟩ := ⟨hg.consistent, hgiven⟩
  have hempty : g.Stocked Table.empty := by
    intro _ _ _ h
    cases h
  obtain ⟨t, ht, hvalue⟩ := hbecomes.typeOf hsound hempty hs
  refine ⟨⟨t, ht, hvalue⟩, fun hshown => ?_, ?_⟩
  · have hsame := typeOf_widened hs hshown
    rwa [Except.ok.inj (ht.symm.trans hsame)] at hvalue
  · rintro i rfl hnarrow
    obtain ⟨hwide, hne⟩ := hnarrow.typeOf hs
    exact ⟨by rwa [Except.ok.inj (ht.symm.trans hwide)] at hvalue, hne⟩

/-- Calls that make a tensor of bytes, its mean and its sum. -/
def byteSums : List Call :=
  let k : Var := ⟨0, "k", .scalar .i32⟩
  [.tensorInput "x" .i8 [4], .newAxis "k",
    .addReduce "m" [4] [k] (.element (.node 0) [.var k]) .mean,
    .addReduce "s" [4] [k] (.element (.node 0) [.var k]) .sum]

/-- Storage for the bytes. -/
def byteStorage : Storage := .insert .empty 0 ⟨1, "x", .tensor .i8 [4]⟩

/-- Storage for four bytes. -/
theorem stocked_byteStorage {g : Graph}
    (h : (g.node? 0).all fun n => n.kind = .tensor .i8 [4]) : g.Stocked byteStorage := by
  intro id v n hv hn
  by_cases hid : id = 0
  · subst hid
    rw [hn, Option.all_some, decide_eq_true_eq] at h
    rw [byteStorage, Table.find?_insert_self] at hv
    cases hv
    rw [h]
    rfl
  · rw [byteStorage, Table.find?_insert_of_ne _ hid] at hv
    cases hv

/-- The sum of bytes is a byte, and their mean is not. -/
theorem typeOf_expand_byteSums : ∃ x y,
    (empty.after byteSums).Arises ∧ (empty.after byteSums).Stocked byteStorage ∧
    (empty.after byteSums).expand (.node 2) byteStorage = .ok x ∧
    (empty.after byteSums).typeOf (.node 2) = .ok .i8 ∧
    (empty.after byteSums).typeOf x.value = .ok .i8 ∧
    (empty.after byteSums).expand (.node 1) byteStorage = .ok y ∧
    (empty.after byteSums).typeOf (.node 1) = .ok .i8 ∧
    (empty.after byteSums).typeOf y.value = .ok .i32 := by
  have harises : (empty.after byteSums).Arises := Arises.empty.after byteSums
  have hsum : ¬ (empty.after byteSums).NarrowMean 2 := by
    rintro ⟨n, s, shape, axes, value, hn, -, hc, -⟩
    cases hn
    cases hc
  have hmean : (empty.after byteSums).NarrowMean 1 := ⟨_, .i8, _, _, _, rfl, rfl, rfl, by decide⟩
  have hstocked : (empty.after byteSums).Stocked byteStorage := stocked_byteStorage rfl
  obtain ⟨-, hkept, -⟩ := typeOf_expand (e := .node 2) harises hstocked rfl rfl
  obtain ⟨-, -, hwidened⟩ := typeOf_expand (e := .node 1) harises hstocked rfl rfl
  exact ⟨_, _, harises, hstocked, rfl, rfl, hkept (List.forall_mem_singleton.mpr hsum), rfl, rfl,
    (hwidened 1 rfl hmean).1⟩

/-- Expansion does not preserve types: the mean of bytes is announced as a byte and comes out as an
`i32`. -/
theorem expand_mean_of_bytes : ∃ p x,
    Program.parse "input x: i8[4];\nlet m = mean[k: 4] => x[k];" = .ok p ∧
    p.graph.Stocked byteStorage ∧ p.graph.typeOf (.node 1) = .ok .i8 ∧
    p.graph.expand (.node 1) byteStorage = .ok x ∧ p.graph.typeOf x.value = .ok .i32 := by
  have hok : (do
      let p ← Program.parse "input x: i8[4];\nlet m = mean[k: 4] => x[k];"
      let s ← p.graph.typeOf (.node 1)
      let x ← p.graph.expand (.node 1) byteStorage
      let t ← p.graph.typeOf x.value
      return decide (s = .i8 ∧ t = .i32) &&
        (p.graph.node? 0).all fun n => decide (n.kind = .tensor .i8 [4])) = Except.ok true := by
    decide +kernel
  obtain ⟨p, hp, hok⟩ := bind_eq_ok.mp hok
  obtain ⟨s, hs, hok⟩ := bind_eq_ok.mp hok
  obtain ⟨x, hx, hok⟩ := bind_eq_ok.mp hok
  obtain ⟨t, ht, hok⟩ := bind_eq_ok.mp hok
  obtain ⟨htypes, hkind⟩ := (Bool.and_eq_true _ _).mp (pure_eq_ok.mp hok)
  obtain ⟨rfl, rfl⟩ := of_decide_eq_true htypes
  exact ⟨p, x, hp, stocked_byteStorage hkind, hs, hx, ht⟩

end Graph

end TensorLoops
