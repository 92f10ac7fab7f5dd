import TensorLoops.Proofs.Code.Scoping
import TensorLoops.Proofs.Compute.Drafts

/-!
# Proofs — Compute — Closed

Lowered procedures are closed and well scoped.  Code for a piece of the graph is put at a `Site`:
the axes around it, all storage and nothing else of the ids still to be given out are known there.
What an expansion makes fits its site (`Fits`), by induction over how it was made: the axes of a
node are new where it stands, its storage is in scope everywhere, and the best value of an
arg-reduction has an id that nothing else has.
-/

namespace TensorLoops

open Stmt

namespace Expansion

open Supply

/-! ### Loops -/

/-- Loops are well-scoped around code that is so inside them, if their axes are new. -/
theorem wellScoped_nest {scope : List Var} {taken : List Nat} {axes : List Var} {shape : List Nat}
    {ss : List Stmt} (hlen : axes.length = shape.length) (hnodup : (axes.map (·.id)).Nodup)
    (hfresh : ∀ v ∈ axes, v.id ∉ taken)
    (h : WellScopedList (axes ++ scope) (axes.map (·.id) ++ taken) ss) :
    WellScopedList scope taken (nest (axes.zip shape) ss) := by
  induction axes generalizing scope taken shape with
  | nil => exact h
  | cons v axes ih =>
      obtain ⟨n, shape, rfl⟩ := List.exists_cons_of_length_eq_add_one hlen.symm
      obtain ⟨hv, hnodup⟩ := List.nodup_cons.mp hnodup
      obtain ⟨hvt, hfresh⟩ := List.forall_mem_cons.mp hfresh
      refine ⟨⟨hvt, .const, wellScoped_ofList (ih (by simpa using hlen) hnodup ?_ (h.mono ?_ ?_))⟩,
        trivial⟩
      · intro u hu hmem
        rcases List.mem_cons.mp hmem with hid | hmem
        · exact hv (List.mem_map.mpr ⟨u, hu, hid⟩)
        · exact hfresh u hu hmem
      · intro u
        simp only [List.mem_append, List.mem_cons]
        tauto
      · intro i
        simp only [List.map_cons, List.mem_append, List.mem_cons]
        tauto

theorem introducedList_nest {loops : List (Var × Nat)} {ss : List Stmt} :
    introducedList (nest loops ss) ⊆ introducedList ss := by
  cases loops with
  | nil => exact List.Subset.refl _
  | cons l loops => exact List.nil_subset _

/-! ### Where code is put -/

variable {c : Context} {w : Nat} {K : Supply}

/-- Code inside the axes `S` is put where `scope` is in scope and `taken` is taken.  `K` is what
the whole expansion will have made. -/
structure Site (c : Context) (w : Nat) (K : Supply) (S : List Var) (u : Supply) (scope : List Var)
    (taken : List Nat) : Prop where
  axes    : S ⊆ scope
  given   : ∀ (id : Nat) (v : Var), c.given.find? id = some v → v ∈ scope
  created : ∀ (id : Nat) (v : Var), K.created.find? id = some v → v ∈ scope
  bound   : ∀ i ∈ taken, i ∈ S.map (·.id) ∨ w ≤ i
  fresh   : ∀ i ∈ taken, i < u.nextVar ∨ K.nextVar ≤ i ∨
    ∃ (id : Nat) (v : Var), K.created.find? id = some v ∧ v.id = i
  tidy    : u.Tidy w

/-- The piece fits where it is put, and takes ids from `u` on. -/
structure FitsAt (u u' : Supply) (scope : List Var) (taken : List Nat) (p : Piece) : Prop where
  stmts      : WellScopedList scope taken p.stmts
  value      : p.value.Closed scope
  introduced : ∀ i ∈ introducedList p.stmts, u.nextVar ≤ i ∧ i < u'.nextVar

namespace Site

variable {S scope : List Var} {taken : List Nat} {u u' : Supply}

/-- Behind code that has taken ids from `u` to `u'`. -/
theorem later (h : Site c w K S u scope taken) (hg : Grows u u') (ht : u'.Tidy w) {is : List Nat}
    (his : ∀ i ∈ is, u.nextVar ≤ i ∧ i < u'.nextVar) : Site c w K S u' scope (is ++ taken) where
  axes    := h.axes
  given   := h.given
  created := h.created
  bound   := List.forall_mem_append.mpr
    ⟨fun i hi => .inr (Nat.le_trans h.tidy.start (his i hi).1), h.bound⟩
  fresh   := List.forall_mem_append.mpr
    ⟨fun i hi => .inl (his i hi).2,
      fun i hi => (h.fresh i hi).imp_left fun hlt => Nat.lt_of_lt_of_le hlt hg.nextVar⟩
  tidy    := ht

/-- Storage has been found or made. -/
theorem allot (h : Site c w K S u scope taken) (hg : Grows u u') (ht : u'.Tidy w) :
    Site c w K S u' scope taken :=
  show Site c w K S u' scope ([] ++ taken) from h.later hg ht nofun

theorem widen (h : Site c w K S u scope taken) {scope' : List Var} (hs : scope ⊆ scope') :
    Site c w K S u scope' taken :=
  { h with
    axes    := fun _ hv => hs (h.axes hv)
    given   := fun id v hv => hs (h.given id v hv)
    created := fun id v hv => hs (h.created id v hv) }

/-- Inside the loops of a node. -/
theorem enter (h : Site c w K S u scope taken) {axes : List Var} (hbelow : ∀ v ∈ axes, v.id < w) :
    Site c w K (axes ++ S) u (axes ++ scope) (axes.map (·.id) ++ taken) where
  axes    := append_subset_append h.axes
  given   := fun id v hv => List.mem_append_right _ (h.given id v hv)
  created := fun id v hv => List.mem_append_right _ (h.created id v hv)
  bound   := by
    rw [List.map_append]
    exact List.forall_mem_append.mpr ⟨fun i hi => .inl (List.mem_append_left _ hi),
      fun i hi => (h.bound i hi).imp_left (List.mem_append_right _)⟩
  fresh   := List.forall_mem_append.mpr ⟨fun i hi => by
    obtain ⟨v, hv, rfl⟩ := List.mem_map.mp hi
    exact .inl (Nat.lt_of_lt_of_le (hbelow v hv) h.tidy.start), h.fresh⟩
  tidy    := h.tidy

/-- The axes of a node are new where it stands. -/
theorem axes_fresh (h : Site c w K S u scope taken) {d : Compute} {kind : NodeKind} {id : Nat}
    (hwf : d.WellFormed kind id w S) : ∀ v ∈ d.axes, v.id ∉ taken := by
  intro v hv hmem
  rcases h.bound _ hmem with hS | hle
  · exact hwf.fresh v hv hS
  · exact absurd (hwf.below v hv) (by omega)

/-- An id that is taken for something else than storage is free. -/
theorem next_free (h : Site c w K S u scope taken) (hK : Grows ⟨u.created, u.nextVar + 1⟩ K) :
    u.nextVar ∉ taken := by
  intro hmem
  have hnext := hK.nextVar
  rcases h.fresh _ hmem with hlt | hle | ⟨id, v, hv, hid⟩
  · omega
  · simp only at hnext
    omega
  · exact hK.ne_of_taken h.tidy hv hid

end Site

/-! ### What an expansion makes -/

variable {S scope : List Var} {taken : List Nat} {u u' : Supply}

/-- Code that fits behind other code fits together with it. -/
theorem FitsAt.append {u₁ : Supply} {ss ts : List Stmt} {x y z : Expr}
    (hs : FitsAt u u₁ scope taken ⟨ss, x⟩)
    (ht : FitsAt u₁ u' scope (introducedList ss ++ taken) ⟨ts, y⟩) (h : Grows u u₁)
    (h' : Grows u₁ u') (hz : z.Closed scope) : FitsAt u u' scope taken ⟨ss ++ ts, z⟩ := by
  refine ⟨hs.stmts.append ht.stmts, hz, fun i hi => ?_⟩
  have hle := h.nextVar
  have hle' := h'.nextVar
  rw [introducedList_append] at hi
  rcases List.mem_append.mp hi with hi | hi
  · have := hs.introduced i hi
    omega
  · have := ht.introduced i hi
    omega

/-- A result written back to given storage. -/
theorem FitsAt.writeBack {id : Nat} {ss : List Stmt} {x : Expr}
    (hgiven : ∀ v, c.given.find? id = some v → v ∈ scope) (h : FitsAt u u' scope taken ⟨ss, x⟩) :
    FitsAt u u' scope taken ⟨writeBack c id x ss, x⟩ := by
  unfold Expansion.writeBack
  split
  · rename_i v hv
    refine ⟨h.stmts.append ⟨⟨hgiven v hv, h.value⟩, trivial⟩, h.value, fun i hi => ?_⟩
    rw [introducedList_append] at hi
    exact h.introduced i (by simpa [introducedList, Stmt.introduced] using hi)
  · exact h

theorem closed_finalize {op : Reduction} {e : Expr} {count : Nat} (h : e.Closed scope) :
    (op.finalize e count).Closed scope := by
  unfold Reduction.finalize
  split
  · exact h.binary .const
  · exact h

theorem closed_combine {op : Reduction} {e e' : Expr} (h : e.Closed scope) (h' : e'.Closed scope) :
    (op.combine e e').Closed scope := by
  cases op with
  | _ => exact h.binary h'

theorem closed_better? {op : Reduction} {e e' test : Expr} (h : e.Closed scope)
    (h' : e'.Closed scope) (ht : op.better? e e' = some test) : test.Closed scope := by
  cases op with
  | argmax | argmin =>
      obtain rfl := Option.some.inj ht
      exact h.binary h'
  | _ => exact nomatch ht

theorem FitsAt.mono {u₁ : Supply} {p : Piece} (h : FitsAt u₁ u' scope taken p) (hu : Grows u u₁) :
    FitsAt u u' scope taken p :=
  ⟨h.stmts, h.value, fun i hi =>
    ⟨Nat.le_trans hu.nextVar (h.introduced i hi).1, (h.introduced i hi).2⟩⟩

/-- The loops of a grid fit around a value that fits in them. -/
theorem gridStmts_fitsAt {shape : List Nat} {axes : List Var} {value : Expr} {kind : NodeKind}
    {id : Nat} {buf : Var} {p : Piece} (h : Site c w K S u scope taken)
    (hwf : (Compute.grid shape axes value).WellFormed kind id w S) (hbuf : buf ∈ scope)
    (hp : FitsAt u u' (axes ++ scope) (axes.map (·.id) ++ taken) p) :
    FitsAt u u' scope taken ⟨gridStmts shape axes buf p, .var buf⟩ := by
  refine ⟨?_, .var hbuf, fun i hi => ?_⟩
  · refine wellScoped_nest hwf.length hwf.nodup (h.axes_fresh hwf)
      (hp.stmts.append ⟨⟨List.mem_append_right _ hbuf, ?_, hp.value⟩, trivial⟩)
    exact List.forall_mem_map.mpr fun v hv => .var (List.mem_append_left _ hv)
  · have hi := introducedList_nest hi
    rw [introducedList_append] at hi
    exact hp.introduced i (by simpa [introducedList, introduced] using hi)

theorem reduceStmts_fitsAt {shape : List Nat} {axes : List Var} {value : Expr} {op : Reduction}
    {s : Scalar} {kind : NodeKind} {id count : Nat} {acc : Var} {p : Piece}
    (h : Site c w K S u scope taken)
    (hwf : (Compute.reduce shape axes value op).WellFormed kind id w S) (hacc : acc ∈ scope)
    (hp : FitsAt u u' (axes ++ scope) (axes.map (·.id) ++ taken) p) :
    FitsAt u u' scope taken ⟨reduceStmts shape axes op s acc p, op.finalize (.var acc) count⟩ := by
  have hacc' : acc ∈ axes ++ scope := List.mem_append_right _ hacc
  refine ⟨⟨⟨hacc, .const⟩, ?_⟩, closed_finalize (.var hacc), fun i hi => ?_⟩
  · exact wellScoped_nest hwf.length hwf.nodup (h.axes_fresh hwf)
      (hp.stmts.append ⟨⟨hacc', closed_combine (.var hacc') hp.value⟩, trivial⟩)
  · have hi := introducedList_nest hi
    rw [introducedList_append] at hi
    exact hp.introduced i (by simpa [introducedList, introduced] using hi)

/-- The best value is in scope in the loop, but not in what follows it. -/
theorem argReduceStmts_fitsAt {extent : Nat} {axis : Var} {value test : Expr} {op : Reduction}
    {s index : Scalar} {kind : NodeKind} {id : Nat} {hint : String} {position : Var} {p : Piece}
    (h : Site c w K S u scope taken)
    (hwf : (Compute.argReduce extent axis value op index).WellFormed kind id w S)
    (hg : Grows ⟨u.created, u.nextVar + 1⟩ u') (hK : Grows u' K) (hpos : position ∈ scope)
    (hp : ∀ {scope taken}, Site c w K (axis :: S) ⟨u.created, u.nextVar + 1⟩ scope taken →
      FitsAt ⟨u.created, u.nextVar + 1⟩ u' scope taken p)
    (htest : op.better? p.value (.var ⟨u.nextVar, hint, .scalar s⟩) = some test) :
    FitsAt u u' scope taken ⟨argReduceStmts extent axis op s index ⟨u.nextVar, hint, .scalar s⟩
      position test p, .var position⟩ := by
  have hbelow : ∀ v ∈ [axis], v.id < w := hwf.below
  have hnext : u.nextVar < u'.nextVar := hg.nextVar
  have hfree : u.nextVar ∉ taken := h.next_free (hg.trans hK)
  -- the best value is declared before the loop, under an id that nothing has
  have hsite : Site c w K S ⟨u.created, u.nextVar + 1⟩ (⟨u.nextVar, hint, .scalar s⟩ :: scope)
      ([u.nextVar] ++ taken) :=
    (h.later (grows_take u) h.tidy.take (List.forall_mem_singleton.mpr
      ⟨Nat.le_refl _, Nat.lt_succ_self _⟩)).widen (List.subset_cons_self _ _)
  have hp := hp (hsite.enter hbelow)
  have hbest : (Expr.var ⟨u.nextVar, hint, .scalar s⟩).Closed
      ([axis] ++ ⟨u.nextVar, hint, .scalar s⟩ :: scope) := .var (by simp)
  refine ⟨⟨⟨hfree, fun e he => ?init⟩, ⟨List.mem_cons_of_mem _ hpos, .const⟩, ?loop⟩, .var hpos,
    ?taken⟩
  case init =>
    obtain rfl := Option.some.inj he
    exact .const
  case loop =>
    show WellScopedList _ _ (nest ([axis].zip [extent]) _)
    refine wellScoped_nest rfl hwf.nodup (hsite.axes_fresh hwf)
      (hp.stmts.append ⟨⟨closed_better? hp.value hbest htest, ?_, trivial⟩, trivial⟩)
    exact ⟨⟨by simp, hp.value⟩, ⟨by simp [hpos], (Expr.Closed.var (by simp)).cast⟩, trivial⟩
  case taken =>
    intro i hi
    obtain rfl : i = u.nextVar := by
      simpa [argReduceStmts, nest, introducedList, introduced] using hi
    exact ⟨Nat.le_refl _, hnext⟩

mutual

/-- **Expanded code fits**: what is expanded at a site is well-scoped there. -/
theorem Expands.fitsAt : ∀ {S e u p u'}, Expands c w S e u p u' → Grows u' K →
    ∀ {scope taken}, Site c w K S u scope taken → FitsAt u u' scope taken p
  | _, _, _, _, _, .var hv, _, _, _, h => ⟨trivial, .var (h.axes hv), nofun⟩
  | _, _, _, _, _, .const, _, _, _, _ => ⟨trivial, .const, nofun⟩
  | _, _, _, _, _, .node _ _ hc, hK, _, _, h => hc.fitsAt hK h
  | _, _, _, _, _, .binary hl hr, hK, _, _, h => by
      have hp := hl.fitsAt (hr.grows.trans hK) h
      have hq := hr.fitsAt hK (h.later hl.grows (hl.tidy h.tidy) hp.introduced)
      exact hp.append hq hl.grows hr.grows (hp.value.binary hq.value)
  | _, _, _, _, _, .unary he, hK, _, _, h => by
      have hp := he.fitsAt hK h
      exact ⟨hp.stmts, hp.value.unary, hp.introduced⟩
  | _, _, _, _, _, .cast he, hK, _, _, h => by
      have hp := he.fitsAt hK h
      exact ⟨hp.stmts, hp.value.cast, hp.introduced⟩
  | _, _, _, _, _, .element _ _ hc hs, hK, _, _, h => by
      have hp := hc.fitsAt (hs.grows.trans hK) h
      obtain ⟨hss, hvs, hintro⟩ :=
        hs.fitsAt hK (h.later hc.grows (hc.tidy h.tidy) hp.introduced)
      exact hp.append ⟨hss, hp.value, hintro⟩ hc.grows hs.grows (hp.value.element hvs)

theorem ExpandsList.fitsAt : ∀ {S es u ss vs u'}, ExpandsList c w S es u ss vs u' → Grows u' K →
    ∀ {scope taken}, Site c w K S u scope taken → WellScopedList scope taken ss ∧
      (∀ v ∈ vs, v.Closed scope) ∧ ∀ i ∈ introducedList ss, u.nextVar ≤ i ∧ i < u'.nextVar
  | _, _, _, _, _, _, .nil, _, _, _, _ => ⟨trivial, nofun, nofun⟩
  | _, _, _, _, _, _, .cons he hs, hK, _, _, h => by
      have hp := he.fitsAt (hs.grows.trans hK) h
      obtain ⟨hss, hvs, hintro⟩ :=
        hs.fitsAt hK (h.later he.grows (he.tidy h.tidy) hp.introduced)
      have := hp.append ⟨hss, hp.value, hintro⟩ he.grows hs.grows hp.value
      exact ⟨this.stmts, List.forall_mem_cons.mpr ⟨hp.value, hvs⟩, this.introduced⟩

/-- **The code of a node fits every site at which the node makes sense.** -/
theorem Computes.fitsAt : ∀ {S id u p u'}, Computes c w S id u p u' → Grows u' K →
    ∀ {scope taken}, Site c w K S u scope taken → FitsAt u u' scope taken p
  | _, _, _, _, _, .input _ _ hv, _, _, _, h => ⟨trivial, .var (h.given _ _ hv), nofun⟩
  | _, _, _, _, _, .grid _ _ _ hwf hbuf he, hK, _, _, h => by
      have hsite := h.allot hbuf.grows (hbuf.tidy h.tidy)
      refine (gridStmts_fitsAt hsite hwf ?_ (he.fitsAt hK (hsite.enter hwf.below))).mono hbuf.grows
      rcases hbuf.find? with hv | ⟨-, hv⟩
      · exact h.given _ _ hv
      · exact h.created _ _ ((he.grows.trans hK).kept _ _ hv)
  | _, _, _, _, _, .reduce _ _ _ hwf _ _ hacc he, hK, _, _, h => by
      have hsite := h.allot hacc.grows (hacc.tidy h.tidy)
      have hmem := h.created _ _ ((he.grows.trans hK).kept _ _ hacc.find?)
      exact ((reduceStmts_fitsAt hsite hwf hmem (he.fitsAt hK (hsite.enter hwf.below))).writeBack
        (h.given _)).mono hacc.grows
  | _, _, _, _, _, .argReduce _ _ _ hwf _ hpos he htest, hK, _, _, h => by
      have hsite := h.allot hpos.grows (hpos.tidy h.tidy)
      have hmem := h.created _ _ (((grows_take _).trans (he.grows.trans hK)).kept _ _ hpos.find?)
      exact ((argReduceStmts_fitsAt hsite hwf he.grows hK hmem (fun h => he.fitsAt hK h)
        htest).writeBack (h.given _)).mono hpos.grows

end

end Expansion

/-! ### Whole tasks -/

namespace Task

open Expansion

variable {g : Graph} {w : Nat}

/-- Locals are added for each output, under ids that are new. -/
theorem Drafts.locals {ids : List Nat} {d d' : Draft} (h : Drafts g w ids d d') :
    d.nextVar ≤ d'.nextVar ∧ ∃ new, d'.locals = d.locals ++ new ∧ (new.map (·.id)).Nodup ∧
      ∀ v ∈ new, g.nextVar ≤ v.id ∧ d.nextVar ≤ v.id ∧ v.id < d'.nextVar := by
  induction h with
  | nil => exact ⟨Nat.le_refl _, [], (List.append_nil _).symm, List.nodup_nil, nofun⟩
  | @cons id ids d next p u d' hg hd _ hc _ ih =>
      obtain ⟨hle, new, hnew, hnodup, hrange⟩ := ih
      have htidy := hc.tidy (Supply.tidy_empty (Nat.le_refl next))
      have hmade : ∀ v ∈ u.created.entries.map Prod.snd, next ≤ v.id ∧ v.id < u.nextVar :=
        List.forall_mem_map.mpr htidy.range
      have hnext : next ≤ u.nextVar := htidy.start
      have hle : u.nextVar ≤ d'.nextVar := hle
      have hlater : ∀ v ∈ new, u.nextVar ≤ v.id := fun v hv => (hrange v hv).2.1
      refine ⟨by omega, u.created.entries.map Prod.snd ++ new, ?_, ?_, ?_⟩
      · rw [hnew, Draft.add, List.append_assoc]
      · rw [List.map_append, List.map_map, List.nodup_append]
        refine ⟨htidy.nodup, hnodup, fun i hi j hj hij => ?_⟩
        obtain ⟨e, he, rfl⟩ := List.mem_map.mp hi
        obtain ⟨v, hv, rfl⟩ := List.mem_map.mp hj
        have := (htidy.range e he).2
        have := hlater v hv
        simp only [Function.comp_apply] at hij
        omega
      · refine List.forall_mem_append.mpr ⟨fun v hv => ?_, fun v hv => ?_⟩
        · have := hmade v hv
          omega
        · have := hrange v hv
          have := hlater v hv
          omega

/-- Nothing but storage is known of the ids from a draft on. -/
structure Draft.Fits (w : Nat) (d : Draft) (scope : List Var) (taken : List Nat) : Prop where
  storage    : ∀ (id : Nat) (v : Var), d.storage.find? id = some v → v ∈ scope
  locals     : ∀ v ∈ d.locals, v.id < d.nextVar
  stmts      : WellScopedList scope taken d.stmts
  introduced : ∀ i ∈ introducedList d.stmts, w ≤ i ∧ i < d.nextVar

/-- The code of one more output stands behind that of the others. -/
theorem Draft.Fits.site {d : Draft} {scope : List Var} {taken : List Nat} {next : Nat} {u : Supply}
    (hd : d.Fits w scope taken) (hw : w ≤ next) (hnext : d.nextVar ≤ next)
    (hmade : ∀ e ∈ u.created.entries, e.2 ∈ scope)
    (htaken : ∀ i ∈ taken, w ≤ i ∧ (i < next ∨ u.nextVar ≤ i ∨
      ∃ (id : Nat) (v : Var), u.created.find? id = some v ∧ v.id = i)) :
    Site ⟨g, d.storage⟩ w u [] ⟨.empty, next⟩ scope (introducedList d.stmts ++ taken) where
  axes    := List.nil_subset _
  given   := hd.storage
  created := fun _ _ hv => hmade _ (Table.mem_of_find? hv)
  bound   := List.forall_mem_append.mpr
    ⟨fun i hi => .inr (hd.introduced i hi).1, fun i hi => .inr (htaken i hi).1⟩
  fresh   := List.forall_mem_append.mpr
    ⟨fun i hi => .inl (Nat.lt_of_lt_of_le (hd.introduced i hi).2 hnext), fun i hi => (htaken i hi).2⟩
  tidy    := Supply.tidy_empty hw

theorem Draft.Fits.add {d : Draft} {scope : List Var} {taken : List Nat} {next : Nat} {u : Supply}
    {p : Piece} (hd : d.Fits w scope taken) (hw : w ≤ next) (hnext : d.nextVar ≤ next)
    (hmade : ∀ e ∈ u.created.entries, e.2 ∈ scope) (htidy : u.Tidy next)
    (hp : FitsAt ⟨.empty, next⟩ u scope (introducedList d.stmts ++ taken) p) :
    (d.add p u).Fits w scope taken := by
  have hle : d.nextVar ≤ u.nextVar := Nat.le_trans hnext htidy.start
  refine ⟨fun i v hv => ?storage, ?locals, hd.stmts.append ⟨wellScoped_ofList hp.stmts, trivial⟩,
    fun i hi => ?introduced⟩
  case storage =>
    rcases Table.mem_of_find?_union hv with hv | hv
    · exact hd.storage i v hv
    · exact hmade _ hv
  case locals =>
    exact List.forall_mem_append.mpr ⟨fun v hv => Nat.lt_of_lt_of_le (hd.locals v hv) hle,
      List.forall_mem_map.mpr fun e he => (htidy.range e he).2⟩
  case introduced =>
    rw [Draft.add, introducedList_append, introducedList, introduced_ofList] at hi
    rcases List.mem_append.mp hi with hi | hi
    · obtain ⟨hi, hlt⟩ := hd.introduced i hi
      exact ⟨hi, Nat.lt_of_lt_of_le hlt hle⟩
    · obtain ⟨hi, hlt⟩ := hp.introduced i (by simpa [introducedList] using hi)
      exact ⟨Nat.le_trans hw hi, hlt⟩

/-- The statements of all outputs are well scoped where all parameters and locals are in scope. -/
theorem Drafts.fits {ids : List Nat} {d d' : Draft} (h : Drafts g w ids d d') (hw : w ≤ g.nextVar)
    {scope : List Var} {taken : List Nat} (hscope : d'.locals ⊆ scope)
    (htaken : ∀ i ∈ taken, w ≤ i ∧ (i < g.nextVar ∨ i ∈ d'.locals.map (·.id)))
    (hd : d.Fits w scope taken) : d'.Fits w scope taken := by
  induction h with
  | nil => exact hd
  | @cons id ids d next p u d' hg hnext _ hc hrest ih =>
      have hw' := Nat.le_trans hw hg
      have htidy := hc.tidy (Supply.tidy_empty (Nat.le_refl next))
      obtain ⟨-, new, hnew, -, hrange⟩ := hrest.locals
      have hmade : ∀ e ∈ u.created.entries, e.2 ∈ scope := fun e he => by
        refine hscope (hnew ▸ List.mem_append_left _ (List.mem_append_right _ ?_))
        exact List.mem_map_of_mem he
      -- a local is known before this output, made for it, or made later
      have htaken' : ∀ i ∈ taken, w ≤ i ∧ (i < next ∨ u.nextVar ≤ i ∨
          ∃ (id : Nat) (v : Var), u.created.find? id = some v ∧ v.id = i) := by
        intro i hi
        refine ⟨(htaken i hi).1, ?_⟩
        rcases (htaken i hi).2 with hlt | hmem
        · exact .inl (Nat.lt_of_lt_of_le hlt hg)
        · obtain ⟨v, hv, rfl⟩ := List.mem_map.mp hmem
          rw [hnew, Draft.add, List.append_assoc, List.mem_append, List.mem_append] at hv
          rcases hv with hv | hv | hv
          · exact .inl (Nat.lt_of_lt_of_le (hd.locals v hv) hnext)
          · obtain ⟨e, he, rfl⟩ := List.mem_map.mp hv
            exact .inr (.inr ⟨e.1, e.2, Table.find?_of_mem htidy.keys he, rfl⟩)
          · exact .inr (.inl (hrange v hv).2.1)
      have hp := hc.fitsAt (.refl u) (hd.site hw' hnext hmade htaken')
      exact ih hscope htaken (hd.add hw' hnext hmade htidy hp)

/-- Parameters and locals have different ids. -/
theorem Lowered.nodup {t : Task} {params : List Var} {d : Draft} (h : t.Lowered g params d) :
    ((params ++ d.locals).map (·.id)).Nodup := by
  obtain ⟨-, new, hnew, hnodup, hrange⟩ := h.drafts.locals
  rw [List.nil_append] at hnew
  rw [hnew, List.map_append, h.ids, List.nodup_append]
  refine ⟨List.nodup_range', hnodup, fun i hi j hj => ?_⟩
  obtain ⟨v, hv, rfl⟩ := List.mem_map.mp hj
  have hlt : i < g.nextVar + (t.inputs ++ t.outputs).length := (List.mem_range'_1.mp hi).2
  have hle := (hrange v hv).1
  simp only at hle
  omega

/-- The code of a lowered task is well-scoped inside its parameters and locals. -/
theorem Lowered.wellScoped {t : Task} {params : List Var} {d : Draft} (h : t.Lowered g params d) :
    (ofList d.stmts).WellScoped (params ++ d.locals) ((params ++ d.locals).map (·.id)) := by
  obtain ⟨-, new, hnew, -, hrange⟩ := h.drafts.locals
  rw [List.nil_append] at hnew
  refine wellScoped_ofList (h.drafts.fits (Nat.le_add_right _ _) (List.subset_append_right _ _) ?_
    ⟨fun id v hv => ?_, nofun, trivial, nofun⟩).stmts
  · rw [List.map_append, h.ids]
    refine List.forall_mem_append.mpr ⟨fun i hi => ?_, fun i hi => ⟨?_, .inr hi⟩⟩
    · have := List.mem_range'_1.mp hi
      exact ⟨this.1, .inl this.2⟩
    · obtain ⟨v, hv, rfl⟩ := List.mem_map.mp hi
      exact Nat.le_trans (Nat.le_add_right _ _) (hrange v (hnew ▸ hv)).1
  · exact List.mem_append_left _ (List.of_mem_zip (Table.mem_of_find?_ofList hv)).2

end Task

/-- **Lowered procedures are closed and well scoped.**  No node is left in an expression of the
body, variables are mentioned only where they are in scope, nothing introduces an id that is taken,
and parameters and locals differ from one another. -/
theorem lowerSource_wellScoped {source name : String} {kind : ProcKind} {f : Procedure}
    (h : lowerSource source name kind = .ok f) :
    f.body.WellScoped (f.params ++ f.locals) ((f.params ++ f.locals).map (·.id)) ∧
      ((f.params ++ f.locals).map (·.id)).Nodup := by
  obtain ⟨p, t, params, d, -, -, -, hlowered, rfl⟩ := lowerSource_eq_ok h
  exact ⟨hlowered.wellScoped, hlowered.nodup⟩

/-- A text with a reduction inside a grid, an arg-reduction and a node that two outputs use. -/
def gridAndBest : String :=
  "input A: f32[2, 3];
let r = grid[i: 2] => sum[k: 3] => A[i, k];
let b = argmax<i64>[i: 2] => r[i];
output r, b;"

/-- An arg-reduction inside a grid, whose best value is declared in the loop. -/
theorem lowerSource_wellScoped_gridAndBest : ∃ f, lowerSource gridAndBest "best" .host = .ok f ∧
    f.body.WellScoped (f.params ++ f.locals) ((f.params ++ f.locals).map (·.id)) ∧
      ((f.params ++ f.locals).map (·.id)).Nodup := by
  have hok : (lowerSource gridAndBest "best" .host).isOk = true := by decide +kernel
  match h : lowerSource gridAndBest "best" .host with
  | .ok f => exact ⟨f, rfl, lowerSource_wellScoped h⟩
  | .error e =>
      rw [h] at hok
      exact nomatch hok

end TensorLoops
