import Mathlib.Algebra.BigOperators.Group.List.Basic
import TensorLoops.Proofs.Compute.Loops
import TensorLoops.Proofs.Compute.Unfolding

/-!
# Proofs — Compute — Denotation

What compute graphs mean.  Under an interpretation of the scalar operations and values for the
inputs, a node has a value at every point of its shape, given the values of the axes around it
(`Graph.nodeValue`): a grid has the value of its definition there, a reduction folds the values at
all points in row-major order, and an arg-reduction keeps the axis value at which the best value so
far was last beaten.  Nodes are computed from earlier ones, so this is a recursion on positions.

`Graph.InBounds` says that every read of a tensor that the meaning of an expression can need has
one index for each dimension and is within the shape, and that grids are stored where they should
be: the counters of their loops are indices that read back as themselves.
-/

namespace TensorLoops

variable {V : Type}

/-! ### Axes -/

/-- The values of axes, by variable id. -/
abbrev Env (V : Type) := Nat → V

/-- The axes stand at a point. -/
def Env.bind (I : Interp V) (ρ : Env V) : List Var → List Int → Env V
  | [],      _  => ρ
  | v :: vs, is => Function.update (ρ.bind I vs is.tail) v.id (I.counter (is.headD 0))

/-! ### Reductions -/

namespace Reduction

/-- What a fold starts from. -/
def start (I : Interp V) (op : Reduction) (s : Scalar) : V :=
  match op with
  | .sum | .mean   => I.literal s.zero s
  | .prod          => I.literal s.one s
  | .max | .argmax => I.literal s.minimum s
  | .min | .argmin => I.literal s.maximum s

/-- One more value. -/
def step (I : Interp V) (op : Reduction) (acc x : V) : V :=
  match op with
  | .sum | .mean   => I.binary .add acc x
  | .prod          => I.binary .mul acc x
  | .max | .argmax => I.binary .max acc x
  | .min | .argmin => I.binary .min acc x

/-- The result of a fold over `count` values.  The count becomes a literal of 64 signed bits. -/
def finish (I : Interp V) (op : Reduction) (count : Nat) (acc : V) : V :=
  match op with
  | .mean => I.binary .div acc (I.literal (.int (Int.bmod count (2 ^ 64))) .i32)
  | _     => acc

/-- Whether a value is better than the best so far. -/
def beats (I : Interp V) (op : Reduction) (x best : V) : Bool :=
  match op with
  | .argmin => I.isTrue (I.binary .lt x best)
  | _       => I.isTrue (I.binary .gt x best)

/-- One more value with its position, beside the best so far and its position. -/
def improve (I : Interp V) (op : Reduction) (best : V × V) (x position : V) : V × V :=
  if op.beats I x best.1 then (x, position) else best

end Reduction

namespace Compute

/-- The fold of a reduction over points. -/
def fold (I : Interp V) (s : Scalar) (value : Env V → V) (ρ : Env V) (axes : List Var)
    (op : Reduction) (pts : List (List Int)) : V :=
  pts.foldl (fun acc pt => op.step I acc (value (ρ.bind I axes pt))) (op.start I s)

/-- The best value among points, and its position. -/
def best (I : Interp V) (s : Scalar) (value : Env V → V) (ρ : Env V) (axis : Var) (op : Reduction)
    (index : Scalar) (pts : List (List Int)) : V × V :=
  pts.foldl (fun best pt =>
    let ρ := ρ.bind I [axis] pt
    op.improve I best (value ρ) (I.cast (.scalar index) (ρ axis.id)))
    (op.start I s, I.literal index.zero index)

/-- What the accumulator of a reduction, or else the node, holds at a point: `value` is the value
of the definition for given axes and `s` its type. -/
def raw (I : Interp V) (s : Scalar) (value : Env V → V) (ρ : Env V) : Compute → List Int → V
  | .grid _ axes _,                  is => value (ρ.bind I axes is)
  | .reduce shape axes _ op,         _  => fold I s value ρ axes op (points shape)
  | .argReduce extent axis _ op index, _ => (best I s value ρ axis op index (points [extent])).2

/-- What the node is worth at a point. -/
def denote (I : Interp V) (s : Scalar) (value : Env V → V) (ρ : Env V) (d : Compute)
    (is : List Int) : V :=
  match d with
  | .reduce shape _ _ op => op.finish I shape.prod (d.raw I s value ρ is)
  | _                    => d.raw I s value ρ is

/-- The counters at which a grid is stored read back as themselves. -/
def Counted (I : Interp V) : Compute → Prop
  | .grid shape _ _ => ∀ k ∈ shape, I.Counts k
  | _               => True

end Compute

/-! ### Expressions and nodes -/

section Values

variable (I : Interp V) (node : Nat → List Int → V) (ρ : Env V)

mutual

/-- The value of an expression, given those of the nodes. -/
def exprValue : Expr → V
  | .var v                   => ρ v.id
  | .const value s           => I.literal value s
  | .node id                 => node id []
  | .binary op lhs rhs       => I.binary op (exprValue lhs) (exprValue rhs)
  | .unary op operand        => I.unary op (exprValue operand)
  | .cast operand ty         => I.cast ty (exprValue operand)
  | .element (.node id) idxs => node id ((exprValues idxs).map fun x => (I.toInt? x).getD 0)
  | .element _ _             => I.blank
  | .call func args          => I.call func (exprValues args)

def exprValues : List Expr → List V
  | []      => []
  | e :: es => exprValue e :: exprValues es

end

end Values

namespace Graph

/-- The type of an expression that has one. -/
def dtypeOf (g : Graph) (e : Expr) : Scalar :=
  match g.typeOf e with
  | .ok s    => s
  | .error _ => .i32

theorem dtypeOf_eq {g : Graph} {e : Expr} {s : Scalar} (h : g.typeOf e = .ok s) : g.dtypeOf e = s := by
  rw [dtypeOf, h]

section Meaning

variable (g : Graph) (I : Interp V) (σ : Nat → List Int → V)

/-- The value of a node at a point, inside axes with the values `ρ`; `σ` gives the inputs. -/
def nodeValue (id : Nat) (ρ : Env V) (is : List Int) : V :=
  match g.node? id with
  | none   => σ id is
  | some n =>
      match n.compute with
      | none   => σ id is
      | some d => d.denote I (g.dtypeOf d.value)
          (fun ρ => exprValue I (fun i is => if i < id then nodeValue i ρ is else I.blank) ρ d.value)
          ρ is
termination_by id

/-- The value of an expression over the graph. -/
def valueIn (ρ : Env V) (e : Expr) : V := exprValue I (fun i => g.nodeValue I σ i ρ) ρ e

/-- What the storage made for a node holds once it has been computed. -/
def rawValue (id : Nat) (ρ : Env V) (is : List Int) : V :=
  match g.node? id with
  | none   => σ id is
  | some n =>
      match n.compute with
      | none   => σ id is
      | some d => d.raw I (g.dtypeOf d.value) (fun ρ => g.valueIn I σ ρ d.value) ρ is

mutual

/-- Every tensor read in the expression has one index for each dimension and is in bounds, and so
have those in the nodes it mentions. -/
inductive InBounds : Env V → Expr → Prop where
  | var {ρ v} : InBounds ρ (.var v)
  | const {ρ value s} : InBounds ρ (.const value s)
  | node {ρ id} : NodeInBounds ρ id → InBounds ρ (.node id)
  | binary {ρ op lhs rhs} : InBounds ρ lhs → InBounds ρ rhs → InBounds ρ (.binary op lhs rhs)
  | unary {ρ op e} : InBounds ρ e → InBounds ρ (.unary op e)
  | cast {ρ e ty} : InBounds ρ e → InBounds ρ (.cast e ty)
  | element {ρ id n s shape idxs is} : g.node? id = some n → n.kind = .tensor s shape →
      NodeInBounds ρ id → (∀ e ∈ idxs, InBounds ρ e) →
      (idxs.map (g.valueIn I σ ρ)).mapM I.toInt? = some is → Within shape is →
      InBounds ρ (.element (.node id) idxs)
  | call {ρ func args} : (∀ e ∈ args, InBounds ρ e) → InBounds ρ (.call func args)

/-- Every tensor read in the definition of the node is in bounds, at every point of its loops, and
what a grid stores goes to the point it is the value at. -/
inductive NodeInBounds : Env V → Nat → Prop where
  | input {ρ id n} : g.node? id = some n → n.compute = none → NodeInBounds ρ id
  | computed {ρ id n d} : g.node? id = some n → n.compute = some d → d.Counted I →
      (∀ is, Within d.extents is → InBounds (ρ.bind I d.axes is) d.value) → NodeInBounds ρ id

end

end Meaning

end Graph

/-! ### Binding axes -/

namespace Env

variable {I : Interp V} {ρ ρ' : Env V}

/-- Other variables keep their values. -/
theorem bind_of_notMem {axes : List Var} {is : List Int} {i : Nat} (h : i ∉ axes.map (·.id)) :
    ρ.bind I axes is i = ρ i := by
  induction axes generalizing is with
  | nil => rfl
  | cons v axes ih =>
      rw [List.map_cons, List.mem_cons, not_or] at h
      rw [bind, Function.update_of_ne h.1]
      exact ih h.2

/-- Bound axes do not depend on what was there before. -/
theorem bind_congr {axes S : List Var} (h : ∀ v ∈ S, ρ v.id = ρ' v.id) (is : List Int) :
    ∀ v ∈ axes ++ S, ρ.bind I axes is v.id = ρ'.bind I axes is v.id := by
  induction axes generalizing is with
  | nil => exact h
  | cons a axes ih =>
      intro v hv
      rw [bind, bind]
      by_cases hid : v.id = a.id
      · rw [hid, Function.update_self, Function.update_self]
      · rw [Function.update_of_ne hid, Function.update_of_ne hid]
        refine ih is.tail v ?_
        rcases List.mem_cons.mp hv with rfl | hv
        · exact absurd rfl hid
        · exact hv

/-- At a point each axis has its index. -/
theorem bind_eq_counter {axes : List Var} {is : List Int} (hnodup : (axes.map (·.id)).Nodup) :
    ∀ a ∈ axes.zip is, ρ.bind I axes is a.1.id = I.counter a.2 := by
  induction axes generalizing is with
  | nil => exact nofun
  | cons v axes ih =>
      obtain ⟨hv, hnodup⟩ := List.nodup_cons.mp hnodup
      cases is with
      | nil => exact nofun
      | cons i is =>
          refine List.forall_mem_cons.mpr ⟨Function.update_self _ _ _, fun a ha => ?_⟩
          have hne : a.1.id ≠ v.id := fun hid =>
            hv (List.mem_map.mpr ⟨a.1, (List.of_mem_zip ha).1, hid⟩)
          rw [bind, Function.update_of_ne hne]
          exact ih hnodup a ha

end Env

/-! ### What values depend on -/

section Congr

variable {I : Interp V} {node node' : Nat → List Int → V} {ρ : Env V}

/-- A list of expressions has the list of their values. -/
theorem exprValues_eq_map {es : List Expr} :
    exprValues I node ρ es = es.map (exprValue I node ρ) := by
  induction es with
  | nil => rfl
  | cons e es ih => rw [exprValues, ih, List.map_cons]

mutual

/-- An expression depends on the nodes it mentions only. -/
theorem exprValue_congr : ∀ {e : Expr}, (∀ i ∈ e.nodes, node i = node' i) →
    exprValue I node ρ e = exprValue I node' ρ e
  | .var _, _ => rfl
  | .const _ _, _ => rfl
  | .node id, h => congrFun (h id (List.mem_singleton.mpr rfl)) []
  | .binary _ _ _, h => by
      rw [exprValue, exprValue, exprValue_congr fun i hi => h i (List.mem_append_left _ hi),
        exprValue_congr fun i hi => h i (List.mem_append_right _ hi)]
  | .unary _ e, h => by rw [exprValue, exprValue, exprValue_congr (e := e) h]
  | .cast e _, h => by rw [exprValue, exprValue, exprValue_congr (e := e) h]
  | .element (.node id) _, h => by
      rw [exprValue, exprValue, h id (List.mem_append_left _ (List.mem_singleton.mpr rfl)),
        exprValues_congr fun i hi => h i (List.mem_append_right _ hi)]
  | .element (.var _) _, _ => rfl
  | .element (.const _ _) _, _ => rfl
  | .element (.binary _ _ _) _, _ => rfl
  | .element (.unary _ _) _, _ => rfl
  | .element (.cast _ _) _, _ => rfl
  | .element (.element _ _) _, _ => rfl
  | .element (.call _ _) _, _ => rfl
  | .call _ _, h => by rw [exprValue, exprValue, exprValues_congr h]

theorem exprValues_congr : ∀ {es : List Expr}, (∀ i ∈ Expr.nodesList es, node i = node' i) →
    exprValues I node ρ es = exprValues I node' ρ es
  | [], _ => rfl
  | _ :: _, h => by
      rw [exprValues, exprValues, exprValue_congr fun i hi => h i (List.mem_append_left _ hi),
        exprValues_congr fun i hi => h i (List.mem_append_right _ hi)]

end

end Congr

namespace Graph

variable {g : Graph} {I : Interp V} {σ : Nat → List Int → V} {w id : Nat} {n : Node}

/-- An element of a node has the value of the node there. -/
theorem valueIn_element {ρ : Env V} {idxs : List Expr} :
    g.valueIn I σ ρ (.element (.node id) idxs) = g.nodeValue I σ id ρ
      ((idxs.map (g.valueIn I σ ρ)).map fun x => (I.toInt? x).getD 0) := by
  rw [valueIn, exprValue, exprValues_eq_map]
  rfl

/-- An input has the value that is given for it. -/
theorem nodeValue_input (hn : g.node? id = some n) (hc : n.compute = none) (ρ : Env V) :
    g.nodeValue I σ id ρ = σ id := by
  funext is
  rw [nodeValue]
  simp only [hn, hc]

/-- A node has the value of its definition, in which the nodes have theirs. -/
theorem nodeValue_computed {d : Compute} (hn : g.node? id = some n) (hc : n.compute = some d)
    (hearlier : ∀ i ∈ d.value.nodes, i < id) (ρ : Env V) :
    g.nodeValue I σ id ρ =
      d.denote I (g.dtypeOf d.value) (fun ρ => g.valueIn I σ ρ d.value) ρ := by
  funext is
  rw [nodeValue]
  simp only [hn, hc]
  congr 1
  funext ρ
  refine exprValue_congr fun i hi => ?_
  funext is
  rw [if_pos (hearlier i hi)]

/-- The storage of a computed node holds the value before it is finished. -/
theorem rawValue_computed {d : Compute} (hn : g.node? id = some n) (hc : n.compute = some d)
    (ρ : Env V) : g.rawValue I σ id ρ =
      d.raw I (g.dtypeOf d.value) (fun ρ => g.valueIn I σ ρ d.value) ρ := by
  funext is
  rw [rawValue]
  simp only [hn, hc]

theorem rawValue_input (hn : g.node? id = some n) (hc : n.compute = none) (ρ : Env V) :
    g.rawValue I σ id ρ = σ id := by
  funext is
  rw [rawValue]
  simp only [hn, hc]

/-- The definition of a node in bounds is in bounds at every point. -/
theorem NodeInBounds.value {d : Compute} {ρ : Env V} (h : g.NodeInBounds I σ ρ id)
    (hn : g.node? id = some n) (hc : n.compute = some d) :
    ∀ is, Within d.extents is → g.InBounds I σ (ρ.bind I d.axes is) d.value := by
  cases h with
  | input hn' hc' =>
      obtain rfl := Option.some.inj (hn.symm.trans hn')
      exact nomatch hc.symm.trans hc'
  | computed hn' hc' _ h =>
      obtain rfl := Option.some.inj (hn.symm.trans hn')
      obtain rfl := Option.some.inj (hc.symm.trans hc')
      exact h

/-- The counters that a grid in bounds is stored at read back as themselves. -/
theorem NodeInBounds.counted {d : Compute} {ρ : Env V} (h : g.NodeInBounds I σ ρ id)
    (hn : g.node? id = some n) (hc : n.compute = some d) : d.Counted I := by
  cases h with
  | input hn' hc' =>
      obtain rfl := Option.some.inj (hn.symm.trans hn')
      cases hc.symm.trans hc'
  | computed hn' hc' hI _ =>
      obtain rfl := Option.some.inj (hn.symm.trans hn')
      obtain rfl := Option.some.inj (hc.symm.trans hc')
      exact hI

end Graph

/-! ### Axes that matter -/

section Points

variable {I : Interp V} {s index : Scalar} {value : Env V → V} {ρ : Env V} {axes : List Var}
  {axis : Var} {op : Reduction} {done : List (List Int)} {pt : List Int}

theorem Compute.fold_append : Compute.fold I s value ρ axes op (done ++ [pt]) =
    op.step I (Compute.fold I s value ρ axes op done) (value (ρ.bind I axes pt)) := by
  rw [fold, List.foldl_append, List.foldl_cons, List.foldl_nil]
  rfl

/-- Looking at one more point for the best value. -/
theorem Compute.best_append : Compute.best I s value ρ axis op index (done ++ [pt]) =
    op.improve I (Compute.best I s value ρ axis op index done) (value (ρ.bind I [axis] pt))
      (I.cast (.scalar index) (ρ.bind I [axis] pt axis.id)) := by
  rw [best, List.foldl_append, List.foldl_cons, List.foldl_nil]
  rfl

end Points

/-- What is computed over axes depends on the value for all their points only. -/
theorem Compute.raw_congr {I : Interp V} {s : Scalar} {value : Env V → V} {ρ ρ' : Env V}
    {d : Compute} (h : ∀ is, value (ρ.bind I d.axes is) = value (ρ'.bind I d.axes is)) :
    d.raw I s value ρ = d.raw I s value ρ' := by
  funext is
  cases d with
  | grid shape axes e => exact h is
  | reduce shape axes e op =>
      have h : ∀ pt, value (ρ.bind I axes pt) = value (ρ'.bind I axes pt) := h
      simp only [raw, fold, h]
  | argReduce extent axis e op index =>
      have h : ∀ pt, value (ρ.bind I [axis] pt) = value (ρ'.bind I [axis] pt) := h
      have haxis : ∀ pt, ρ.bind I [axis] pt axis.id = ρ'.bind I [axis] pt axis.id := fun pt =>
        Env.bind_congr (S := []) nofun pt axis (List.mem_singleton.mpr rfl)
      simp only [raw, best, h, haxis]

/-- What a node is worth depends on the value of its definition inside its axes only. -/
theorem Compute.denote_congr {I : Interp V} {s : Scalar} {value : Env V → V} {ρ ρ' : Env V}
    {d : Compute} (h : ∀ is, value (ρ.bind I d.axes is) = value (ρ'.bind I d.axes is)) :
    d.denote I s value ρ = d.denote I s value ρ' := by
  funext is
  unfold denote
  rw [raw_congr h]

namespace Graph

section Steady

variable (g : Graph) (I : Interp V) (σ : Nat → List Int → V)

/-- What a node is worth, and what its storage holds, depends on the axes `S` only. -/
def Steady (S : List Var) (id : Nat) : Prop :=
  ∀ ρ ρ', (∀ v ∈ S, ρ v.id = ρ' v.id) →
    g.nodeValue I σ id ρ = g.nodeValue I σ id ρ' ∧ g.rawValue I σ id ρ = g.rawValue I σ id ρ'

end Steady

variable {g : Graph} {I : Interp V} {σ : Nat → List Int → V} {w : Nat}

/-- What depends on some axes only depends on more of them only. -/
theorem Steady.mono {S T : List Var} {id : Nat} (h : g.Steady I σ S id) (hST : S ⊆ T) :
    g.Steady I σ T id :=
  fun ρ ρ' hρ => h ρ ρ' fun v hv => hρ v (hST hv)

theorem steady_input {S : List Var} {id : Nat} {n : Node} (hn : g.node? id = some n)
    (hc : n.compute = none) : g.Steady I σ S id := fun ρ ρ' _ => by
  rw [nodeValue_input hn hc, nodeValue_input hn hc, rawValue_input hn hc, rawValue_input hn hc]
  exact ⟨rfl, rfl⟩

mutual

/-- **The value of a scoped expression depends on the axes in scope only.** -/
theorem Scoped.valueIn_congr : ∀ {S e}, g.Scoped w S e → ∀ {ρ ρ' : Env V},
    (∀ v ∈ S, ρ v.id = ρ' v.id) → g.valueIn I σ ρ e = g.valueIn I σ ρ' e
  | _, _, .var hv, _, _, h => h _ hv
  | _, _, .const, _, _, _ => rfl
  | _, _, .node _ _ hu, _, _, h => congrFun (hu.steady _ _ h).1 []
  | _, _, .binary hl hr, ρ, ρ', h => by
      show I.binary _ (g.valueIn I σ ρ _) (g.valueIn I σ ρ _) = _
      rw [hl.valueIn_congr h, hr.valueIn_congr h]
      rfl
  | _, _, .unary he, ρ, ρ', h => by
      show I.unary _ (g.valueIn I σ ρ _) = _
      rw [he.valueIn_congr h]
      rfl
  | _, _, .cast he, ρ, ρ', h => by
      show I.cast _ (g.valueIn I σ ρ _) = _
      rw [he.valueIn_congr h]
      rfl
  | _, _, .element _ _ hu hidxs, ρ, ρ', h => by
      have hmap : List.map (g.valueIn I σ ρ) _ = List.map (g.valueIn I σ ρ') _ :=
        List.map_congr_left fun e he => (hidxs e he).valueIn_congr h
      rw [valueIn_element, valueIn_element, hmap]
      exact congrFun (hu.steady ρ ρ' h).1 _

/-- A node depends on the axes in scope only. -/
theorem Unfolds.steady : ∀ {S id}, g.Unfolds w S id → g.Steady I σ S id
  | _, _, .input hn hc => steady_input hn hc
  | _, _, .computed hn hc hwf hv => fun ρ ρ' h => by
      rw [nodeValue_computed hn hc hwf.earlier, nodeValue_computed hn hc hwf.earlier,
        rawValue_computed hn hc, rawValue_computed hn hc]
      have hvalue := fun is => hv.valueIn_congr (Env.bind_congr (I := I) h is)
      exact ⟨Compute.denote_congr hvalue, Compute.raw_congr hvalue⟩

end

/-! ### The next variable id

What a graph means does not depend on the id that its next variable gets. -/

section NextVar

variable {k : Nat}

theorem typeOf_nextVar : ∀ e : Expr, { g with nextVar := k }.typeOf e = g.typeOf e
  | .var _ | .const _ _ | .node _ | .cast _ _ | .element _ _ | .call _ _ => rfl
  | .binary _ l r => by rw [typeOf, typeOf, typeOf_nextVar l, typeOf_nextVar r]
  | .unary _ e => by rw [typeOf, typeOf, typeOf_nextVar e]

/-- The values of nodes do not depend on the next id. -/
theorem nodeValue_nextVar {id : Nat} {ρ : Env V} {is : List Int} :
    { g with nextVar := k }.nodeValue I σ id ρ is = g.nodeValue I σ id ρ is := by
  induction id using Nat.strongRecOn generalizing ρ is with
  | _ id ih =>
      rw [nodeValue, nodeValue, node?_nextVar]
      cases hn : g.node? id with
      | none => rfl
      | some n =>
          cases hc : n.compute with
          | none => simp only [hc]
          | some d =>
              have hvalue : ∀ ρ i is,
                  (if i < id then { g with nextVar := k }.nodeValue I σ i ρ is else I.blank) =
                    if i < id then g.nodeValue I σ i ρ is else I.blank := by
                intro ρ i is
                by_cases hi : i < id
                · rw [if_pos hi, if_pos hi, ih i hi]
                · rw [if_neg hi, if_neg hi]
              simp only [hc, hvalue, dtypeOf, typeOf_nextVar]

theorem valueIn_nextVar {ρ : Env V} {e : Expr} :
    { g with nextVar := k }.valueIn I σ ρ e = g.valueIn I σ ρ e :=
  exprValue_congr fun _ _ => funext fun _ => nodeValue_nextVar

mutual

/-- Being in bounds does not depend on the next id. -/
theorem InBounds.nextVar : ∀ {ρ e}, g.InBounds I σ ρ e → { g with nextVar := k }.InBounds I σ ρ e
  | _, _, .var => .var
  | _, _, .const => .const
  | _, _, .node h => .node h.nextVar
  | _, _, .binary hl hr => .binary hl.nextVar hr.nextVar
  | _, _, .unary h => .unary h.nextVar
  | _, _, .cast h => .cast h.nextVar
  | _, _, .element hn hk h hs his hwithin =>
      .element hn hk h.nextVar (fun e he => (hs e he).nextVar)
        (by rw [List.map_congr_left fun e _ => valueIn_nextVar]; exact his) hwithin
  | _, _, .call hs => .call fun e he => (hs e he).nextVar

theorem NodeInBounds.nextVar : ∀ {ρ id}, g.NodeInBounds I σ ρ id →
    { g with nextVar := k }.NodeInBounds I σ ρ id
  | _, _, .input hn hc => .input hn hc
  | _, _, .computed hn hc hI h => .computed hn hc hI fun is his => (h is his).nextVar

end

end NextVar

end Graph

end TensorLoops
