import TensorLoops.Proofs.Compute.Identifiers
import TensorLoops.Proofs.Compute.Reached
import TensorLoops.Proofs.Source.Spending

/-!
# Proofs — Compute — Types

The types of the variables in lowered code.  Storage for a tensor has the tensor's type, and
storage for a scalar is a scalar (`Graph.Housed`).  Axes and the best values of arg-reductions are
scalars, so the tensors that a procedure mentions are among its parameters and locals
(`Lowered.scalar_or_mem`), and their extents are those of nodes.
-/

namespace TensorLoops

open Relation

/-- A variable of the type can store what a node of the kind holds. -/
def NodeKind.Houses : NodeKind → Ty → Prop
  | .tensor s shape, ty => ty = .tensor s shape
  | .scalar _,       ty => ∃ s, ty = .scalar s

/-- A node is housed by storage of its own type. -/
theorem NodeKind.houses_storage (kind : NodeKind) : kind.Houses kind.storage := by
  cases kind with
  | tensor s shape => exact rfl
  | scalar s => exact ⟨s, rfl⟩

/-- What is stored is a node of the graph, in a variable that can store it. -/
def Graph.Housed (g : Graph) (st : Storage) : Prop :=
  ∀ (id : Nat) (v : Var), st.find? id = some v → ∃ n, g.node? id = some n ∧ n.kind.Houses v.ty

namespace Expansion

open Supply Stmt

variable {c : Context} {w id : Nat} {hint : String} {ty : Ty} {u u' : Supply} {v : Var} {n : Node}

/-! ### Storage -/

/-- Storage that can house its node keeps all nodes housed. -/
theorem Creates.housed (h : Creates id hint ty u v u') (hn : c.graph.node? id = some n)
    (hty : n.kind.Houses ty) (hu : c.graph.Housed u.created) : c.graph.Housed u'.created := by
  intro i x hx
  rcases h.find?_cases hx with hx | ⟨rfl, rfl⟩
  · exact hu i x hx
  · exact ⟨n, hn, hty⟩

theorem Allots.housed (h : Allots c id hint n.kind.storage u v u')
    (hn : c.graph.node? id = some n) (hu : c.graph.Housed u.created) :
    c.graph.Housed u'.created := by
  cases h with
  | given _ => exact hu
  | made _ h => exact h.housed hn n.kind.houses_storage hu

/-- Any scalar variable can store a scalar. -/
theorem Creates.housed_scalar {k s : Scalar} (h : Creates id hint (.scalar s) u v u')
    (hn : c.graph.node? id = some n) (hk : n.kind = .scalar k) (hu : c.graph.Housed u.created) :
    c.graph.Housed u'.created := by
  refine h.housed hn ?_ hu
  rw [hk]
  exact ⟨s, rfl⟩

mutual

theorem Expands.housed : ∀ {S e u p u'}, Expands c w S e u p u' → c.graph.Housed u.created →
    c.graph.Housed u'.created
  | _, _, _, _, _, .var _, hu => hu
  | _, _, _, _, _, .const, hu => hu
  | _, _, _, _, _, .node _ _ h, hu => h.housed hu
  | _, _, _, _, _, .binary hl hr, hu => hr.housed (hl.housed hu)
  | _, _, _, _, _, .unary h, hu => h.housed hu
  | _, _, _, _, _, .cast h, hu => h.housed hu
  | _, _, _, _, _, .element _ _ h hs, hu => hs.housed (h.housed hu)

theorem ExpandsList.housed : ∀ {S es u ss vs u'}, ExpandsList c w S es u ss vs u' →
    c.graph.Housed u.created → c.graph.Housed u'.created
  | _, _, _, _, _, _, .nil, hu => hu
  | _, _, _, _, _, _, .cons h hs, hu => hs.housed (h.housed hu)

theorem Computes.housed : ∀ {S id u p u'}, Computes c w S id u p u' → c.graph.Housed u.created →
    c.graph.Housed u'.created
  | _, _, _, _, _, .input _ _ _, hu => hu
  | _, _, _, _, _, .grid hn _ _ _ hbuf h, hu => h.housed (hbuf.housed hn hu)
  | _, _, _, _, _, .reduce hn hk _ _ _ _ hacc h, hu => h.housed (hacc.housed_scalar hn hk hu)
  | _, _, _, _, _, .argReduce hn hk _ _ _ hpos h _, hu =>
      h.housed (u := ⟨_, _⟩) (hpos.housed_scalar hn hk hu)

end

/-! ### Declared variables -/

/-- The variables are scalars. -/
def Scalars (vs : List Var) : Prop := ∀ v ∈ vs, ∃ s, v.ty = .scalar s

theorem scalars_append {vs ws : List Var} : Scalars (vs ++ ws) ↔ Scalars vs ∧ Scalars ws :=
  List.forall_mem_append

mutual

/-- Code declares scalars only. -/
theorem Expands.declared_scalars : ∀ {S e u p u'}, Expands c w S e u p u' →
    Scalars (allDeclaredList p.stmts)
  | _, _, _, _, _, .var _ => nofun
  | _, _, _, _, _, .const => nofun
  | _, _, _, _, _, .node _ _ h => h.declared_scalars
  | _, _, _, _, _, .binary hl hr => by
      rw [allDeclaredList_append, scalars_append]
      exact ⟨hl.declared_scalars, hr.declared_scalars⟩
  | _, _, _, _, _, .unary h => h.declared_scalars
  | _, _, _, _, _, .cast h => h.declared_scalars
  | _, _, _, _, _, .element _ _ h hs => by
      rw [allDeclaredList_append, scalars_append]
      exact ⟨h.declared_scalars, hs.declared_scalars⟩

theorem ExpandsList.declared_scalars : ∀ {S es u ss vs u'}, ExpandsList c w S es u ss vs u' →
    Scalars (allDeclaredList ss)
  | _, _, _, _, _, _, .nil => nofun
  | _, _, _, _, _, _, .cons h hs => by
      rw [allDeclaredList_append, scalars_append]
      exact ⟨h.declared_scalars, hs.declared_scalars⟩

/-- Code declares nothing but best values. -/
theorem Computes.declared_scalars : ∀ {S id u p u'}, Computes c w S id u p u' →
    Scalars (allDeclaredList p.stmts)
  | _, _, _, _, _, .input _ _ _ => nofun
  | _, _, _, _, _, .grid _ _ _ _ _ h => by
      rw [allDeclaredList_gridStmts]
      exact h.declared_scalars
  | _, _, _, _, _, .reduce _ _ _ _ _ _ _ h => by
      rw [allDeclaredList_writeBack, allDeclaredList_reduceStmts]
      exact h.declared_scalars
  | _, _, _, _, _, .argReduce _ _ _ _ _ _ h _ => by
      rw [allDeclaredList_writeBack, allDeclaredList_argReduceStmts]
      exact List.forall_mem_cons.mpr ⟨⟨_, rfl⟩, h.declared_scalars⟩

end

end Expansion

/-! ### Drafts -/

/-- The node has a definition. -/
def Graph.Computed (g : Graph) (id : Nat) : Prop :=
  ∃ n d, g.node? id = some n ∧ n.compute = some d

namespace Task

open Expansion Supply Stmt

variable {g : Graph} {w : Nat} {ids : List Nat} {d d' : Draft}

/-- What is stored after one more output: what was, and the computed nodes that it meets. -/
theorem Draft.mem_keys_add {id next k : Nat} {p : Piece} {u : Supply}
    (hc : Computes ⟨g, d.storage⟩ w [] id ⟨.empty, next⟩ p u) :
    k ∈ (d.add p u).storage.keys ↔
      k ∈ d.storage.keys ∨ g.Meets (fun i => i = k ∧ g.Computed i) [id] := by
  have hempty : k ∉ (Table.empty : Storage).keys := List.not_mem_nil
  rw [Draft.add, Table.mem_keys_union, hc.mem_keys, or_iff_right hempty]
  constructor
  · rintro (hk | hk)
    · exact .inl hk
    · refine .inr (hk.imp fun i => ?_)
      rintro ⟨rfl, n, e, hn, he, -⟩
      exact ⟨rfl, n, e, hn, he⟩
  · rintro (hk | hk)
    · exact .inl hk
    · by_cases hstored : k ∈ d.storage.keys
      · exact .inl hstored
      · refine .inr (hk.imp fun i => ?_)
        rintro ⟨rfl, n, e, hn, he⟩
        refine ⟨rfl, n, e, hn, he, fun _ => ?_⟩
        cases hfind : d.storage.find? i with
        | none => rfl
        | some v => exact absurd (Table.mem_keys_iff.mpr ⟨v, hfind⟩) hstored

/-- After a draft there is storage for the computed nodes that its outputs reach. -/
theorem Drafts.mem_keys {k : Nat} (h : Drafts g w ids d d') :
    k ∈ d'.storage.keys ↔
      k ∈ d.storage.keys ∨ g.Meets (fun i => i = k ∧ g.Computed i) ids := by
  induction h with
  | nil => simp
  | cons _ _ _ hc _ ih =>
      rw [ih, Draft.mem_keys_add hc, or_assoc]
      exact or_congr_right Graph.meets_cons.symm

/-- The storage of the draft can store what it is for, and its statements declare scalars. -/
structure Draft.Typed (g : Graph) (d : Draft) : Prop where
  storage  : g.Housed d.storage
  declared : Scalars (allDeclaredList d.stmts)

/-- A typed draft is so with one more output. -/
theorem Draft.Typed.add {id next : Nat} {p : Piece} {u : Supply} (hd : d.Typed g)
    (hc : Computes ⟨g, d.storage⟩ w [] id ⟨.empty, next⟩ p u) : (d.add p u).Typed g where
  storage  := by
    intro i v hv
    have hmade : g.Housed u.created := hc.housed nofun
    have htidy : u.Tidy next := hc.tidy (tidy_empty (Nat.le_refl next))
    rcases Table.mem_of_find?_union hv with hv | hv
    · exact hd.storage i v hv
    · exact hmade i v (Table.find?_of_mem htidy.keys hv)
  declared := by
    simp only [Draft.add, allDeclaredList_append, allDeclaredList, allDeclared_ofList,
      List.append_nil]
    exact scalars_append.mpr ⟨hd.declared, hc.declared_scalars⟩

theorem Drafts.typed (h : Drafts g w ids d d') (hd : d.Typed g) : d'.Typed g := by
  induction h with
  | nil => exact hd
  | cons _ _ _ hc _ ih => exact ih (hd.add hc)

/-- Locals are made for nodes that the outputs meet. -/
theorem Drafts.mem_locals (h : Drafts g w ids d d') {v : Var} (hv : v ∈ d'.locals) :
    v ∈ d.locals ∨
      ∃ i n, g.Meets (· = i) ids ∧ g.node? i = some n ∧ n.kind.Houses v.ty := by
  induction h with
  | nil => exact .inl hv
  | cons _ _ _ hc _ ih =>
      rcases ih hv with hv | ⟨i, n, hi, hn, hty⟩
      · rcases List.mem_append.mp hv with hv | hv
        · exact .inl hv
        · obtain ⟨⟨i, _⟩, hentry, rfl⟩ := List.mem_map.mp hv
          have htidy := hc.tidy (tidy_empty (Nat.le_refl _))
          have hfind := Table.find?_of_mem htidy.keys hentry
          obtain ⟨n, hn, hty⟩ := hc.housed nofun i _ hfind
          have hmet := (hc.mem_keys.mp (Table.mem_keys_iff.mpr ⟨_, hfind⟩)).resolve_left
            List.not_mem_nil
          exact .inr ⟨i, n, Graph.meets_cons.mpr (.inl (hmet.imp fun _ h => h.1)), hn, hty⟩
      · exact .inr ⟨i, n, Graph.meets_cons.mpr (.inr hi), hn, hty⟩

/-! ### Tasks -/

namespace Lowered

variable {t : Task} {params : List Var} {v : Var}

/-- Parameters house their nodes. -/
theorem housed_params (h : t.Lowered g params d) :
    g.Housed (Table.ofList ((t.inputs ++ t.outputs).zip params)) := by
  intro i v hv
  obtain ⟨n, hn, hty⟩ := List.forall₂_zip h.fits (Table.mem_of_find?_ofList hv)
  exact ⟨n, hn, hty ▸ n.kind.houses_storage⟩

/-- A lowered task has typed locals and declarations. -/
theorem typed (h : t.Lowered g params d) : d.Typed g := by
  obtain ⟨hstorage, hdeclared⟩ := h.drafts.typed ⟨h.housed_params, nofun⟩
  exact ⟨hstorage, hdeclared⟩

/-- What a lowered task mentions is a scalar, a parameter or a local. -/
theorem scalar_or_mem (h : t.Lowered g params d) (haxes : ∀ v ∈ g.axes, v.ty = .scalar .i32)
    (hv : v ∈ params ++ d.locals ++ varsList d.stmts) :
    (∃ s, v.ty = .scalar s) ∨ v ∈ params ++ d.locals := by
  rcases List.mem_append.mp hv with hv | hv
  · exact .inr hv
  · have hknown := h.accounted.stmts hv
    simp only [Draft.made, List.mem_append] at hknown
    rcases hknown with (hv | hv) | hv | hv
    · exact .inl ⟨.i32, haxes v hv⟩
    · exact .inr (List.mem_append_left _ hv)
    · exact .inr (List.mem_append_right _ hv)
    · exact .inl (h.typed.declared v hv)

/-- Parameters and locals are made for inputs and for nodes that the outputs meet. -/
theorem exists_node (h : t.Lowered g params d) (hv : v ∈ params ++ d.locals) :
    ∃ i n, (i ∈ t.inputs ∨ g.Meets (· = i) t.outputs) ∧ g.node? i = some n ∧
      n.kind.Houses v.ty := by
  rcases List.mem_append.mp hv with hv | hv
  · obtain ⟨i, hi, n, hn, hty⟩ := exists_of_forall₂ h.fits hv
    refine ⟨i, n, (List.mem_append.mp hi).imp_right fun hi => ?_, hn, hty ▸ n.kind.houses_storage⟩
    exact ⟨i, hi, i, .refl, rfl⟩
  · obtain ⟨i, n, hi, hn, hty⟩ := (h.drafts.mem_locals hv).resolve_left List.not_mem_nil
    exact ⟨i, n, .inr hi, hn, hty⟩

/-- Every input and output has a parameter that fits it. -/
theorem exists_param {i : Nat} (h : t.Lowered g params d) (hi : i ∈ t.inputs ++ t.outputs) :
    ∃ v ∈ params, Fits g i v := by
  obtain ⟨k, hk⟩ := List.getElem?_of_mem hi
  obtain ⟨v, hv, hfits⟩ := forall₂_getElem? h.fits hk
  exact ⟨v, List.mem_of_getElem? hv, hfits⟩

/-- Every tensor that is an input or is met by the outputs has a parameter or a local of its
type. -/
theorem exists_var (h : t.Lowered g params d) (haxes : ∀ v ∈ g.axes, v.ty = .scalar .i32)
    (hinputs : ∀ i n, g.node? i = some n → n.compute = none → i ∈ t.inputs)
    {i : Nat} {n : Node} {s : Scalar} {shape : List Nat} (hn : g.node? i = some n)
    (hk : n.kind = .tensor s shape) (hi : i ∈ t.inputs ∨ g.Meets (· = i) t.outputs) :
    ∃ v ∈ params ++ d.locals, v.ty = .tensor s shape := by
  have hinput : i ∈ t.inputs → ∃ v ∈ params ++ d.locals, v.ty = .tensor s shape := by
    intro hi
    obtain ⟨v, hv, n', hn', hty⟩ := h.exists_param (List.mem_append_left _ hi)
    obtain rfl := Option.some.inj (hn.symm.trans hn')
    exact ⟨v, List.mem_append_left _ hv, by rw [hty, hk, NodeKind.storage]⟩
  rcases hi with hi | hi
  · exact hinput hi
  · cases hc : n.compute with
    | none => exact hinput (hinputs i n hn hc)
    | some e =>
        -- a computed node that is met ends up in the storage of the draft
        have hmet : g.Meets (fun j => j = i ∧ g.Computed j) t.outputs :=
          hi.imp fun j hj => ⟨hj, n, e, hj ▸ hn, hc⟩
        obtain ⟨v, hv⟩ := Table.mem_keys_iff.mp (h.drafts.mem_keys.mpr (.inr hmet))
        obtain ⟨n', hn', hty⟩ := h.typed.storage i v hv
        obtain rfl := Option.some.inj (hn.symm.trans hn')
        rw [hk] at hty
        have hmem := h.accounted.given i v hv
        simp only [List.mem_append] at hmem ⊢
        rcases hmem with (hv | hv) | hv
        · cases (haxes v hv).symm.trans hty
        · exact ⟨v, .inl hv, hty⟩
        · exact ⟨v, .inr hv, hty⟩

end Lowered

end Task

/-- The tensors of a program that was read have elements. -/
theorem Program.positive_of_parse {source : String} {p : Program} (hp : parse source = .ok p)
    {i : Nat} {n : Node} (hn : p.graph.node? i = some n) : n.kind.Positive := by
  cases hc : n.compute with
  | none => exact (spends_of_parse hp).2.2 i n hn hc
  | some d =>
      obtain ⟨hsuits, -, hpositive, -⟩ :=
        (declared_of_parse hp).fits (wellScoped_of_parse hp) hn hc
      cases hk : n.kind with
      | scalar s => trivial
      | tensor s shape =>
          rw [hk] at hsuits
          cases d with
          | grid shape' axes value =>
              obtain rfl : shape = shape' := hsuits
              exact hpositive
          | reduce => exact hsuits.elim
          | argReduce => exact hsuits.elim

end TensorLoops
