import Mathlib.Data.List.Perm.Basic
import Mathlib.Data.List.Nodup
import TensorLoops.Proofs.Compute.Expands
import TensorLoops.Proofs.Table

/-!
# Proofs — Compute — Supply

The storage that an expansion makes.  It only ever grows (`Supply.Grows`): what was made stays,
and what is new has an id that was not given out before.  So the variables made for different
nodes are different (`Supply.Tidy`), and a variable taken for something else, such as the best
value of an arg-reduction, is never one of them (`Grows.ne_of_taken`).
-/

namespace TensorLoops

namespace Expansion

namespace Supply

/-- Nothing made is lost, and what is made has a new id. -/
structure Grows (u u' : Supply) : Prop where
  nextVar : u.nextVar ≤ u'.nextVar
  kept    : ∀ (id : Nat) (v : Var), u.created.find? id = some v → u'.created.find? id = some v
  new     : ∀ (id : Nat) (v : Var), u'.created.find? id = some v →
    u.created.find? id = some v ∨ u.nextVar ≤ v.id ∧ v.id < u'.nextVar

/-- Each node has one variable, with an id from `base` on that is its own. -/
structure Tidy (base : Nat) (u : Supply) : Prop where
  start : base ≤ u.nextVar
  keys  : u.created.keys.Nodup
  range : ∀ e ∈ u.created.entries, base ≤ e.2.id ∧ e.2.id < u.nextVar
  nodup : (u.created.entries.map (·.2.id)).Nodup

namespace Grows

variable {u u₁ u₂ : Supply}

theorem refl (u : Supply) : Grows u u := ⟨Nat.le_refl _, fun _ _ h => h, fun _ _ h => .inl h⟩

/-- A supply that grows twice has grown. -/
theorem trans (h : Grows u u₁) (h' : Grows u₁ u₂) : Grows u u₂ where
  nextVar := Nat.le_trans h.nextVar h'.nextVar
  kept    := fun id v hv => h'.kept id v (h.kept id v hv)
  new     := fun id v hv => by
    rcases h'.new id v hv with hv | hv
    · refine (h.new id v hv).imp_right fun hv => ?_
      have := h'.nextVar
      omega
    · have := h.nextVar
      exact .inr (by omega)

end Grows

/-- Nothing has been made yet. -/
theorem tidy_empty {base next : Nat} (h : base ≤ next) : Tidy base ⟨.empty, next⟩ :=
  ⟨h, List.nodup_nil, nofun, List.nodup_nil⟩

/-- Storage of a tidy supply has one of the ids given out. -/
theorem Tidy.of_find? {base : Nat} {u : Supply} (h : u.Tidy base) {id : Nat} {v : Var}
    (hv : u.created.find? id = some v) : base ≤ v.id ∧ v.id < u.nextVar :=
  h.range (id, v) (Table.mem_of_find? hv)

/-- Variables with one id are made for one node. -/
theorem Tidy.injective {base : Nat} {u : Supply} (h : u.Tidy base) {i j : Nat} {v v' : Var}
    (hv : u.created.find? i = some v) (hv' : u.created.find? j = some v') (hid : v.id = v'.id) :
    i = j :=
  congrArg Prod.fst
    (List.inj_on_of_nodup_map h.nodup (Table.mem_of_find? hv) (Table.mem_of_find? hv') hid)

/-- An id taken for something else than storage is never that of storage. -/
theorem Grows.ne_of_taken {base : Nat} {u u' : Supply} (htidy : u.Tidy base)
    (h : Grows ⟨u.created, u.nextVar + 1⟩ u') {id : Nat} {v : Var}
    (hv : u'.created.find? id = some v) : v.id ≠ u.nextVar := by
  -- storage from before has a smaller id, later storage a greater one
  rcases h.new id v hv with hv | hv
  · exact Nat.ne_of_lt (htidy.of_find? hv).2
  · have := hv.1
    simp only at this
    omega

end Supply

open Supply

variable {c : Context} {w : Nat} {S : List Var} {id : Nat} {hint : String} {ty : Ty} {u u' : Supply}
  {v : Var}

/-! ### One variable more -/

/-- An id more has been given out, for something else than storage. -/
theorem Supply.grows_take (u : Supply) : Grows u ⟨u.created, u.nextVar + 1⟩ :=
  ⟨Nat.le_succ _, fun _ _ h => h, fun _ _ h => .inl h⟩

/-- An id that is given out leaves a supply tidy. -/
theorem Supply.Tidy.take {base : Nat} (h : u.Tidy base) : Tidy base ⟨u.created, u.nextVar + 1⟩ :=
  ⟨Nat.le_succ_of_le h.start, h.keys,
    fun e he => ⟨(h.range e he).1, Nat.lt_succ_of_lt (h.range e he).2⟩, h.nodup⟩

namespace Creates

/-- What is made for a node is found for it. -/
theorem find? (h : Creates id hint ty u v u') : u'.created.find? id = some v := by
  cases h with
  | again hv => exact hv
  | fresh _ => exact Table.find?_insert_self _ _ _

/-- Storage made for one node changes nothing for the others. -/
theorem find?_of_ne (h : Creates id hint ty u v u') {i : Nat} (hi : i ≠ id) :
    u'.created.find? i = u.created.find? i := by
  cases h with
  | again _ => rfl
  | fresh _ => exact Table.find?_insert_of_ne _ hi _

/-- What is stored was stored before or is the new variable. -/
theorem find?_cases (h : Creates id hint ty u v u') {i : Nat} {x : Var}
    (hx : u'.created.find? i = some x) :
    u.created.find? i = some x ∨ i = id ∧ x = ⟨u.nextVar, hint, ty⟩ := by
  cases h with
  | again _ => exact .inl hx
  | fresh _ =>
      by_cases hi : i = id
      · subst hi
        rw [Table.find?_insert_self] at hx
        exact .inr ⟨rfl, (Option.some.inj hx).symm⟩
      · rw [Table.find?_insert_of_ne _ hi] at hx
        exact .inl hx

/-- Making storage lets a supply grow. -/
theorem grows (h : Creates id hint ty u v u') : Grows u u' := by
  cases h with
  | again _ => exact .refl u
  | fresh hnone =>
      refine ⟨Nat.le_succ _, fun i x hx => ?_, fun i x hx => ?_⟩
      · rw [Table.find?_insert_of_ne]
        · exact hx
        · rintro rfl
          exact nomatch hnone.symm.trans hx
      · rcases (Creates.fresh hnone).find?_cases hx with hx | ⟨-, rfl⟩
        · exact .inl hx
        · exact .inr ⟨Nat.le_refl _, Nat.lt_succ_self _⟩

/-- A tidy supply stays tidy when storage is made. -/
theorem tidy {base : Nat} (h : Creates id hint ty u v u') (hu : u.Tidy base) : u'.Tidy base := by
  cases h with
  | again _ => exact hu
  | fresh hnone =>
      have hperm : (u.created.insert id ⟨u.nextVar, hint, ty⟩).entries.Perm
          ((id, ⟨u.nextVar, hint, ty⟩) :: u.created.entries) := Table.place_perm hnone
      refine ⟨Nat.le_succ_of_le hu.start, ?keys, fun e he => ?range, ?nodup⟩
      case keys =>
        refine (hperm.map Prod.fst).nodup_iff.mpr (List.nodup_cons.mpr ⟨fun hmem => ?_, hu.keys⟩)
        obtain ⟨e, he, rfl⟩ := List.mem_map.mp hmem
        exact absurd rfl (bne_iff_ne.mp (List.lookup_eq_none_iff.mp hnone e he))
      case range =>
        rcases List.mem_cons.mp (hperm.mem_iff.mp he) with rfl | he
        · exact ⟨hu.start, Nat.lt_succ_self _⟩
        · exact ⟨(hu.range e he).1, Nat.lt_succ_of_lt (hu.range e he).2⟩
      case nodup =>
        refine (hperm.map (·.2.id)).nodup_iff.mpr (List.nodup_cons.mpr ⟨fun hmem => ?_, hu.nodup⟩)
        obtain ⟨e, he, hid⟩ := List.mem_map.mp hmem
        have := (hu.range e he).2
        simp only at hid
        omega

end Creates

namespace Allots

theorem grows (h : Allots c id hint ty u v u') : Grows u u' := by
  cases h with
  | given _ => exact .refl u
  | made _ h => exact h.grows

theorem tidy {base : Nat} (h : Allots c id hint ty u v u') (hu : u.Tidy base) : u'.Tidy base := by
  cases h with
  | given _ => exact hu
  | made _ h => exact h.tidy hu

/-- A buffer for one node changes nothing for the others. -/
theorem find?_of_ne (h : Allots c id hint ty u v u') {i : Nat} (hi : i ≠ id) :
    u'.created.find? i = u.created.find? i := by
  cases h with
  | given _ => rfl
  | made _ h => exact h.find?_of_ne hi

/-- The storage allotted is the given one, or what is kept as made for the node. -/
theorem find? (h : Allots c id hint ty u v u') :
    c.given.find? id = some v ∨ c.given.find? id = none ∧ u'.created.find? id = some v := by
  cases h with
  | given hv => exact .inl hv
  | made hnone h => exact .inr ⟨hnone, h.find?⟩

end Allots

/-! ### A whole expansion -/

mutual

/-- Expanding an expression lets the supply grow, and so does computing a node. -/
theorem Expands.grows : ∀ {S e u p u'}, Expands c w S e u p u' → Grows u u'
  | _, _, _, _, _, .var _ => .refl _
  | _, _, _, _, _, .const => .refl _
  | _, _, _, _, _, .node _ _ h => h.grows
  | _, _, _, _, _, .binary hl hr => hl.grows.trans hr.grows
  | _, _, _, _, _, .unary h => h.grows
  | _, _, _, _, _, .cast h => h.grows
  | _, _, _, _, _, .element _ _ h hs => h.grows.trans hs.grows

theorem ExpandsList.grows : ∀ {S es u ss vs u'}, ExpandsList c w S es u ss vs u' → Grows u u'
  | _, _, _, _, _, _, .nil => .refl _
  | _, _, _, _, _, _, .cons h hs => h.grows.trans hs.grows

theorem Computes.grows : ∀ {S id u p u'}, Computes c w S id u p u' → Grows u u'
  | _, _, _, _, _, .input _ _ _ => .refl _
  | _, _, _, _, _, .grid _ _ _ _ hbuf h => hbuf.grows.trans h.grows
  | _, _, _, _, _, .reduce _ _ _ _ _ _ hacc h => hacc.grows.trans h.grows
  | _, _, _, _, _, .argReduce _ _ _ _ _ hpos h _ => hpos.grows.trans ((grows_take _).trans h.grows)

end

mutual

/-- Both keep it tidy. -/
theorem Expands.tidy {base : Nat} :
    ∀ {S e u p u'}, Expands c w S e u p u' → u.Tidy base → u'.Tidy base
  | _, _, _, _, _, .var _, hu => hu
  | _, _, _, _, _, .const, hu => hu
  | _, _, _, _, _, .node _ _ h, hu => h.tidy hu
  | _, _, _, _, _, .binary hl hr, hu => hr.tidy (hl.tidy hu)
  | _, _, _, _, _, .unary h, hu => h.tidy hu
  | _, _, _, _, _, .cast h, hu => h.tidy hu
  | _, _, _, _, _, .element _ _ h hs, hu => hs.tidy (h.tidy hu)

theorem ExpandsList.tidy {base : Nat} :
    ∀ {S es u ss vs u'}, ExpandsList c w S es u ss vs u' → u.Tidy base → u'.Tidy base
  | _, _, _, _, _, _, .nil, hu => hu
  | _, _, _, _, _, _, .cons h hs, hu => hs.tidy (h.tidy hu)

theorem Computes.tidy {base : Nat} :
    ∀ {S id u p u'}, Computes c w S id u p u' → u.Tidy base → u'.Tidy base
  | _, _, _, _, _, .input _ _ _, hu => hu
  | _, _, _, _, _, .grid _ _ _ _ hbuf h, hu => h.tidy (hbuf.tidy hu)
  | _, _, _, _, _, .reduce _ _ _ _ _ _ hacc h, hu => h.tidy (hacc.tidy hu)
  | _, _, _, _, _, .argReduce _ _ _ _ _ hpos h _, hu => h.tidy (hpos.tidy hu).take

end

/-! ### Which nodes storage is made for -/

/-- Storage is made for computed nodes only.  For a tensor it has the tensor's type and is made
only if none is given. -/
def Supply.Serves (c : Context) (u : Supply) : Prop :=
  ∀ (id : Nat) (v : Var) (n : Node), u.created.find? id = some v → c.graph.node? id = some n →
    n.compute ≠ none ∧ ∀ (s : Scalar) (shape : List Nat), n.kind = .tensor s shape →
      v.ty = .tensor s shape ∧ c.given.find? id = none

/-- Storage is made for computed nodes, and for tensors only where none is given. -/
theorem Creates.serves {n : Node} (h : Creates id hint ty u v u') (hn : c.graph.node? id = some n)
    (hc : n.compute ≠ none) (hk : ∀ (s : Scalar) (shape : List Nat), n.kind = .tensor s shape →
      ty = .tensor s shape ∧ c.given.find? id = none) (hu : u.Serves c) : u'.Serves c := by
  cases h with
  | again _ => exact hu
  | fresh _ =>
      intro i x n' hx hn'
      by_cases hi : i = id
      · subst hi
        obtain rfl := Option.some.inj (hn.symm.trans hn')
        rw [Table.find?_insert_self] at hx
        obtain rfl := Option.some.inj hx
        exact ⟨hc, hk⟩
      · rw [Table.find?_insert_of_ne _ hi] at hx
        exact hu i x n' hx hn'

/-- A buffer is made for a computed node, where none is given. -/
theorem Allots.serves {n : Node} (h : Allots c id hint n.kind.storage u v u')
    (hn : c.graph.node? id = some n) (hc : n.compute ≠ none) (hu : u.Serves c) : u'.Serves c := by
  cases h with
  | given _ => exact hu
  | made hnone h =>
      refine h.serves hn hc (fun s shape hk => ⟨?_, hnone⟩) hu
      rw [hk, NodeKind.storage]

/-- A scalar may have storage both given and made. -/
theorem Creates.serves_scalar {n : Node} {s : Scalar} (h : Creates id hint ty u v u')
    (hn : c.graph.node? id = some n) (hk : n.kind = .scalar s) (hc : n.compute ≠ none)
    (hu : u.Serves c) : u'.Serves c :=
  h.serves hn hc (fun _ _ hk' => nomatch hk.symm.trans hk') hu

mutual

/-- An expansion makes storage for computed nodes only. -/
theorem Expands.serves : ∀ {S e u p u'}, Expands c w S e u p u' → u.Serves c → u'.Serves c
  | _, _, _, _, _, .var _, hu => hu
  | _, _, _, _, _, .const, hu => hu
  | _, _, _, _, _, .node _ _ h, hu => h.serves hu
  | _, _, _, _, _, .binary hl hr, hu => hr.serves (hl.serves hu)
  | _, _, _, _, _, .unary h, hu => h.serves hu
  | _, _, _, _, _, .cast h, hu => h.serves hu
  | _, _, _, _, _, .element _ _ h hs, hu => hs.serves (h.serves hu)

theorem ExpandsList.serves :
    ∀ {S es u ss vs u'}, ExpandsList c w S es u ss vs u' → u.Serves c → u'.Serves c
  | _, _, _, _, _, _, .nil, hu => hu
  | _, _, _, _, _, _, .cons h hs, hu => hs.serves (h.serves hu)

theorem Computes.serves : ∀ {S id u p u'}, Computes c w S id u p u' → u.Serves c → u'.Serves c
  | _, _, _, _, _, .input _ _ _, hu => hu
  | _, _, _, _, _, .grid hn _ hc _ hbuf h, hu => h.serves (hbuf.serves hn (hc ▸ Option.some_ne_none _) hu)
  | _, _, _, _, _, .reduce hn hk hc _ _ _ hacc h, hu =>
      h.serves (hacc.serves_scalar hn hk (hc ▸ Option.some_ne_none _) hu)
  | _, _, _, _, _, .argReduce hn hk hc _ _ hpos h _, hu =>
      h.serves (u := ⟨_, _⟩) (hpos.serves_scalar hn hk (hc ▸ Option.some_ne_none _) hu)

end

end Expansion

end TensorLoops
