import TensorLoops.Proofs.Code.Address
import TensorLoops.Proofs.Compute.Denotation
import TensorLoops.Proofs.Compute.Supply

/-!
# Proofs — Compute — Storage

What memory holds of a graph.  In the setting of one expansion a node may have storage that was
given for it and storage that was made for it.  Given storage is to hold the value of the node and
made storage what its accumulator ends with; where both hold what they should, the node is *kept*
(`Setting.Kept`).  Where the nodes of an expression are kept, the code made for it evaluates to the
meaning of the expression (`Expands.eval_value`).
-/

namespace TensorLoops

open Expansion Supply

namespace NodeKind

/-- The points at which a node of this kind has a value. -/
def Admits : NodeKind → List Int → Prop
  | .tensor _ shape, is => Within shape is
  | .scalar _,       is => is = []

/-- The cell for a point, in the variable with the given id. -/
def place : NodeKind → Nat → List Int → Place
  | .tensor _ _, id, is => .element id is
  | .scalar _,   id, _  => .scalar id

theorem place_id {kind : NodeKind} {i : Nat} {is : List Int} : (kind.place i is).id = i := by
  cases kind with
  | _ => rfl

end NodeKind

/-- The setting of an expansion: the graph and the storage given, what is made in the end, where
the ids of storage and those of the expansion begin, and what the graph is to mean. -/
structure Setting (V : Type) where
  context : Context
  made    : Supply
  /-- Axes have ids below this, and storage has not. -/
  bound   : Nat
  /-- Ids from this on are given out by the expansion. -/
  base    : Nat
  interp  : Interp V
  inputs  : Nat → List Int → V

namespace Setting

variable {V : Type} (E : Setting V)

abbrev graph : Graph := E.context.graph

/-- The value of a node. -/
def value (id : Nat) (ρ : Env V) : List Int → V := E.graph.nodeValue E.interp E.inputs id ρ

/-- What the accumulator of a node ends with. -/
def raw (id : Nat) (ρ : Env V) : List Int → V := E.graph.rawValue E.interp E.inputs id ρ

/-- The value of an expression. -/
def valueIn (ρ : Env V) (e : Expr) : V := E.graph.valueIn E.interp E.inputs ρ e

/-- Storage of a node, with what it is to hold. -/
inductive Slot (id : Nat) : Var → (Env V → List Int → V) → Prop where
  | given {v} : E.context.given.find? id = some v → Slot id v (E.value id)
  | made {v} : E.made.created.find? id = some v → Slot id v (E.raw id)

/-- The id is that of storage of the node. -/
def Owns (id i : Nat) : Prop := ∃ v f, E.Slot id v f ∧ v.id = i

/-- All storage of the node holds what it should, the axes having the values `ρ`. -/
def Kept (m : Memory V) (ρ : Env V) (id : Nat) : Prop :=
  ∀ n, E.graph.node? id = some n → ∀ v f, E.Slot id v f → ∀ is, n.kind.Admits is →
    m (n.kind.place v.id is) = f ρ is

/-- Storage has the type of its node and an id of its own.  Only computed nodes get storage made,
and tensors only if they are given none. -/
structure Sound : Prop where
  start    : E.bound ≤ E.base
  typed    : ∀ {id v f n s shape}, E.Slot id v f → E.graph.node? id = some n →
    n.kind = .tensor s shape → v.ty = .tensor s shape
  above    : ∀ {id i}, E.Owns id i → E.bound ≤ i
  owner    : ∀ {id id' i}, E.Owns id i → E.Owns id' i → id = id'
  apart    : ∀ {id v v'}, E.context.given.find? id = some v → E.made.created.find? id = some v' →
    v.id ≠ v'.id
  early    : ∀ {id v}, E.context.given.find? id = some v → v.id < E.base
  computed : ∀ {id v n}, E.made.created.find? id = some v → E.graph.node? id = some n →
    n.compute ≠ none
  single   : ∀ {id v n s shape}, E.made.created.find? id = some v → E.graph.node? id = some n →
    n.kind = .tensor s shape → E.context.given.find? id = none

variable {E} {m m' : Memory V} {ρ ρ' : Env V} {id : Nat}

theorem Owns.given {v : Var} (h : E.context.given.find? id = some v) : E.Owns id v.id :=
  ⟨v, _, .given h, rfl⟩

theorem Owns.made {v : Var} (h : E.made.created.find? id = some v) : E.Owns id v.id :=
  ⟨v, _, .made h, rfl⟩

/-- A node stays kept where its storage is not touched. -/
theorem Kept.of_agree (h : E.Kept m ρ id) (hm : ∀ p : Place, E.Owns id p.id → m' p = m p) :
    E.Kept m' ρ id := by
  intro n hn v f hslot is his
  rw [hm _ (by rw [NodeKind.place_id]; exact ⟨v, f, hslot, rfl⟩)]
  exact h n hn v f hslot is his

/-- Only the axes that a node depends on matter. -/
theorem Kept.congr {S : List Var} (h : E.Kept m ρ id)
    (hsteady : E.graph.Steady E.interp E.inputs S id) (hρ : ∀ v ∈ S, ρ v.id = ρ' v.id) :
    E.Kept m ρ' id := by
  obtain ⟨hvalue, hraw⟩ := hsteady ρ ρ' hρ
  intro n hn v f hslot is his
  rw [h n hn v f hslot is his]
  cases hslot with
  | given _ => exact congrFun hvalue is
  | made _ => exact congrFun hraw is

end Setting

/-! ### Evaluating code -/

section Reductions

variable {V : Type} {I : Interp V} {m : Memory V}

/-- A variable has what its cell holds. -/
theorem eval_var {v : Var} {x : V} (h : m (.scalar v.id) = x) : eval I m (.var v) = some x :=
  congrArg some h

theorem eval_const {value : Literal} {s : Scalar} :
    eval I m (.const value s) = some (I.literal value s) := rfl

/-- Operators are interpreted. -/
theorem eval_binary {op : BinaryOp} {e e' : Expr} {x y : V} (h : eval I m e = some x)
    (h' : eval I m e' = some y) : eval I m (.binary op e e') = some (I.binary op x y) := by
  rw [eval, h, h']
  rfl

/-- An element is read where its variable admits the indices. -/
theorem eval_read {v : Var} {idxs : List Expr} {is : List Int} (h : indices I m idxs = some is)
    (hty : v.ty.Admits is) : eval I m (.element (.var v) idxs) = some (m (.element v.id is)) := by
  obtain ⟨xs, hxs, his⟩ := Option.bind_eq_some_iff.mp h
  rw [eval, hxs]
  simp only [Option.bind_eq_bind, Option.bind_some, his, cell, if_pos hty]
  rfl

/-- Values that read as integers are those integers. -/
theorem map_getD_of_mapM {xs : List V} {is : List Int} (h : xs.mapM I.toInt? = some is) :
    xs.map (fun x => (I.toInt? x).getD 0) = is := by
  have hpairs := mapM_eq_some_iff.mp h
  clear h
  induction hpairs with
  | nil => rfl
  | cons hx _ ih => rw [List.map_cons, hx, ih, Option.getD_some]

/-- The identity of a reduction is what its fold starts from. -/
theorem eval_identity {op : Reduction} {s : Scalar} :
    eval I m (op.identity s) = some (op.start I s) := by
  cases op with
  | _ => rfl

/-- The step of a reduction is that of its fold. -/
theorem eval_combine {op : Reduction} {e e' : Expr} {x y : V} (h : eval I m e = some x)
    (h' : eval I m e' = some y) : eval I m (op.combine e e') = some (op.step I x y) := by
  cases op with
  | _ => exact eval_binary h h'

/-- The end of a reduction is that of its fold. -/
theorem eval_finalize {op : Reduction} {e : Expr} {count : Nat} {x : V} (h : eval I m e = some x) :
    eval I m (op.finalize e count) = some (op.finish I count x) := by
  cases op with
  | mean => exact eval_binary h rfl
  | _ => exact h

/-- The test of an arg-reduction says whether the value is better. -/
theorem eval_better? {op : Reduction} {e e' test : Expr} {x y : V} (h : eval I m e = some x)
    (h' : eval I m e' = some y) (ht : op.better? e e' = some test) :
    ∃ z, eval I m test = some z ∧ I.isTrue z = op.beats I x y := by
  cases op with
  | argmax =>
      obtain rfl := Option.some.inj ht
      exact ⟨I.binary .gt x y, eval_binary h h', rfl⟩
  | argmin =>
      obtain rfl := Option.some.inj ht
      exact ⟨I.binary .lt x y, eval_binary h h', rfl⟩
  | _ => exact nomatch ht

end Reductions

namespace Expansion

variable {V : Type} {E : Setting V} {m : Memory V} {ρ : Env V} {S : List Var} {id : Nat}
  {u u' : Supply} {p : Piece} {n : Node}

/-- The code of a kept scalar evaluates to its value. -/
theorem Computes.eval_scalar (h : Computes E.context E.bound S id u p u') (hK : Grows u' E.made)
    (hn : E.graph.node? id = some n) {s : Scalar} (hk : n.kind = .scalar s)
    (hkept : E.Kept m ρ id) : eval E.interp m p.value = some (E.value id ρ []) := by
  have hcell : ∀ v f, E.Slot id v f → eval E.interp m (.var v) = some (f ρ []) := by
    intro v f hslot
    have := hkept n hn v f hslot [] (by rw [hk]; rfl)
    rw [hk] at this
    exact congrArg some this
  cases h with
  | input _ _ hv => exact hcell _ _ (.given hv)
  | grid hn' hk' =>
      obtain rfl := Option.some.inj (hn.symm.trans hn')
      exact nomatch hk.symm.trans hk'
  | reduce hn' _ hc hwf _ hcount hacc he =>
      -- the accumulator ends with the fold, and the result is made from it at each use
      rw [eval_finalize (hcell _ _ (.made ((he.grows.trans hK).kept _ _ hacc.find?))),
        Setting.value, Graph.nodeValue_computed hn' hc hwf.earlier, Setting.raw,
        Graph.rawValue_computed hn' hc, Word.product_eq hcount]
      rfl
  | argReduce hn' _ hc hwf _ hpos he _ =>
      rw [hcell _ _ (.made (((grows_take _).trans (he.grows.trans hK)).kept _ _ hpos.find?)),
        Setting.value, Graph.nodeValue_computed hn' hc hwf.earlier, Setting.raw,
        Graph.rawValue_computed hn' hc]
      rfl

/-- The code of a kept tensor is a variable that holds its values. -/
theorem Computes.eval_tensor (hE : E.Sound) (h : Computes E.context E.bound S id u p u')
    (hK : Grows u' E.made) (hn : E.graph.node? id = some n) {s : Scalar} {shape : List Nat}
    (hk : n.kind = .tensor s shape) :
    ∃ v, p.value = .var v ∧ v.ty = .tensor s shape ∧
      ∀ {m ρ is}, E.Kept m ρ id → Within shape is → m (.element v.id is) = E.value id ρ is := by
  have hcell : ∀ v f, E.Slot id v f → ∀ {m ρ is}, E.Kept m ρ id → Within shape is →
      m (.element v.id is) = f ρ is := by
    intro v f hslot m ρ is hkept his
    have := hkept n hn v f hslot is (by rw [hk]; exact his)
    rw [hk] at this
    exact this
  cases h with
  | input _ _ hv => exact ⟨_, rfl, hE.typed (.given hv) hn hk, hcell _ _ (.given hv)⟩
  | grid hn' _ hc hwf hbuf he =>
      rcases hbuf.find? with hv | ⟨-, hv⟩
      · exact ⟨_, rfl, hE.typed (.given hv) hn hk, hcell _ _ (.given hv)⟩
      · have hslot := Setting.Slot.made ((he.grows.trans hK).kept _ _ hv)
        refine ⟨_, rfl, hE.typed hslot hn hk, fun {m ρ is} hkept his => ?_⟩
        rw [hcell _ _ hslot hkept his, Setting.value, Graph.nodeValue_computed hn' hc hwf.earlier,
          Setting.raw, Graph.rawValue_computed hn' hc]
        rfl
  | reduce hn' hk' =>
      obtain rfl := Option.some.inj (hn.symm.trans hn')
      exact nomatch hk.symm.trans hk'
  | argReduce hn' hk' =>
      obtain rfl := Option.some.inj (hn.symm.trans hn')
      exact nomatch hk.symm.trans hk'

mutual

/-- **Where the nodes of an expression are kept, its code evaluates to its meaning.** -/
theorem Expands.eval_value (hE : E.Sound) : ∀ {S e u p u'}, Expands E.context E.bound S e u p u' →
    Grows u' E.made → (∀ v ∈ S, m (.scalar v.id) = ρ v.id) → (∀ i ∈ e.nodes, E.Kept m ρ i) →
    E.graph.InBounds E.interp E.inputs ρ e → eval E.interp m p.value = some (E.valueIn ρ e)
  | _, _, _, _, _, .var hv, _, hS, _, _ => congrArg some (hS _ hv)
  | _, _, _, _, _, .const, _, _, _, _ => rfl
  | _, _, _, _, _, .node hn hk hc, hK, _, hkept, _ =>
      hc.eval_scalar hK hn hk (hkept _ (List.mem_singleton.mpr rfl))
  | _, _, _, _, _, .binary hl hr, hK, hS, hkept, .binary hbl hbr =>
      eval_binary
        (hl.eval_value hE (hr.grows.trans hK) hS (fun i hi => hkept i (List.mem_append_left _ hi)) hbl)
        (hr.eval_value hE hK hS (fun i hi => hkept i (List.mem_append_right _ hi)) hbr)
  | _, _, _, _, _, .unary he, hK, hS, hkept, .unary hb => by
      rw [eval, he.eval_value hE hK hS hkept hb]
      rfl
  | _, _, _, _, _, .cast he, hK, hS, hkept, .cast hb => by
      rw [eval, he.eval_value hE hK hS hkept hb]
      rfl
  | _, _, _, _, _, .element hn hk hc hs, hK, hS, hkept, .element hn' hk' _ hbs his hwithin => by
      obtain rfl := Option.some.inj (hn.symm.trans hn')
      obtain ⟨rfl, rfl⟩ := NodeKind.tensor.inj (hk.symm.trans hk')
      obtain ⟨v, hv, hty, hread⟩ := hc.eval_tensor hE (hs.grows.trans hK) hn hk
      have hkept' := hkept _ (List.mem_append_left _ (List.mem_singleton.mpr rfl))
      have hvalues := hs.eval_values hE hK hS (fun i hi => hkept i (List.mem_append_right _ hi)) hbs
      have hindices : indices E.interp m _ = some _ := Option.bind_eq_some_iff.mpr ⟨_, hvalues, his⟩
      rw [hv, eval_read hindices (hty ▸ hwithin), hread hkept' hwithin, Setting.valueIn,
        Graph.valueIn_element, map_getD_of_mapM his]
      rfl

theorem ExpandsList.eval_values (hE : E.Sound) :
    ∀ {S es u ss vs u'}, ExpandsList E.context E.bound S es u ss vs u' → Grows u' E.made →
      (∀ v ∈ S, m (.scalar v.id) = ρ v.id) → (∀ i ∈ Expr.nodesList es, E.Kept m ρ i) →
      (∀ e ∈ es, E.graph.InBounds E.interp E.inputs ρ e) →
      evalList E.interp m vs = some (es.map (E.valueIn ρ))
  | _, _, _, _, _, _, .nil, _, _, _, _ => rfl
  | _, _, _, _, _, _, .cons he hs, hK, hS, hkept, hb => by
      obtain ⟨hbe, hbs⟩ := List.forall_mem_cons.mp hb
      rw [evalList,
        he.eval_value hE (hs.grows.trans hK) hS (fun i hi => hkept i (List.mem_append_left _ hi)) hbe,
        hs.eval_values hE hK hS (fun i hi => hkept i (List.mem_append_right _ hi)) hbs]
      rfl

end

end Expansion

end TensorLoops
