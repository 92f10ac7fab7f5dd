import TensorLoops.Proofs.Compute.Preservation

/-!
# Proofs — Compute — Execution

The code of every node computes it (`Computes.yields`).  A grid stores the value at one point after
the other, a reduction folds the values into its accumulator, and an arg-reduction keeps the best
value and its position; each is an instance of `Folds.runs` with what the node's own variables hold
after some points.  Expressions compute their nodes one after the other, and what was computed
first stays (`Yields.append`).
-/

namespace TensorLoops

open Expansion Supply

namespace Setting

variable {V : Type} {E : Setting V} {S : List Var} {id : Nat} {n : Node} {u u₁ u' : Supply}
  {ρ : Env V} {m : Memory V}

/-! ### Grids -/

/-- Axes that stand at a point are read as that point, where the counters of their loops read back
as themselves. -/
theorem indices_axes {I : Interp V} {axes : List Var} {shape : List Nat} {pt : List Int}
    (hlen : axes.length = shape.length) (hpt : Within shape pt) (hI : ∀ k ∈ shape, I.Counts k)
    (h : ∀ a ∈ axes.zip pt, m (.scalar a.1.id) = I.counter a.2) :
    indices I m (axes.map .var) = some pt := by
  induction axes generalizing shape pt with
  | nil =>
      obtain rfl := List.length_eq_zero_iff.mp hlen.symm
      obtain rfl := List.length_eq_zero_iff.mp hpt.length_eq
      rfl
  | cons v axes ih =>
      obtain ⟨k, shape, rfl⟩ := List.exists_cons_of_length_eq_add_one hlen.symm
      obtain ⟨i, pt, rfl⟩ := List.exists_cons_of_length_eq_add_one hpt.length_eq
      obtain ⟨⟨h₀, hlt⟩, hpt⟩ := hpt
      obtain ⟨hv, h⟩ := List.forall_mem_cons.mp h
      obtain ⟨hk, hI⟩ := List.forall_mem_cons.mp hI
      have hi : I.toInt? (I.counter i) = some i := by
        obtain ⟨j, rfl⟩ := Int.eq_ofNat_of_zero_le h₀
        exact hk j (Int.ofNat_lt.mp hlt)
      rw [List.map_cons, indices_cons]
      exact ⟨_, _, _, congrArg some hv, hi, ih (by simpa using hlen) hpt hI h, rfl⟩

/-- Whatever storage a grid has is its buffer. -/
theorem slot_grid (hE : E.Sound) {shape : List Nat} {axes : List Var} {value : Expr} {s : Scalar}
    {buf : Var} (hn : E.graph.node? id = some n) (hk : n.kind = .tensor s shape)
    (hc : n.compute = some (.grid shape axes value)) (hearlier : ∀ i ∈ value.nodes, i < id)
    (hbuf : Allots E.context id n.name n.kind.storage u buf u₁) (hfinal : Grows u₁ E.made) :
    ∀ v f, E.Slot id v f → v = buf ∧ f ρ = E.value id ρ := by
  intro v f hslot
  cases hslot with
  | given hv =>
      rcases hbuf.find? with hv' | ⟨hnone, -⟩
      · exact ⟨Option.some.inj (hv.symm.trans hv'), rfl⟩
      · exact nomatch hnone.symm.trans hv
  | made hv =>
      have hnone := hE.single hv hn hk
      rcases hbuf.find? with hv' | ⟨-, hv'⟩
      · exact nomatch hnone.symm.trans hv'
      · refine ⟨Option.some.inj (hv.symm.trans (hfinal.kept _ _ hv')), ?_⟩
        exact (Graph.rawValue_computed hn hc ρ).trans
          (Graph.nodeValue_computed hn hc hearlier ρ).symm

/-- The buffer of a grid is storage of its own, of the grid's type. -/
theorem owns_buffer (hE : E.Sound) {s : Scalar} {shape : List Nat} {hint : String} {ty : Ty}
    {buf : Var} (hn : E.graph.node? id = some n) (hk : n.kind = .tensor s shape)
    (hbuf : Allots E.context id hint ty u buf u₁) (htidy : u₁.Tidy E.base)
    (hfinal : Grows u₁ E.made) :
    E.Owns id buf.id ∧ buf.id < u₁.nextVar ∧ buf.ty = .tensor s shape := by
  rcases hbuf.find? with hv | ⟨-, hv⟩
  · exact ⟨.given hv, Nat.lt_of_lt_of_le (hE.early hv) htidy.start, hE.typed (.given hv) hn hk⟩
  · have hv' := hfinal.kept _ _ hv
    exact ⟨.made hv', (htidy.of_find? hv).2, hE.typed (.made hv') hn hk⟩

/-- The buffer of a grid holds the values at the points visited. -/
theorem grid_folds {shape : List Nat} {axes : List Var} {value : Expr} {kind : NodeKind} {s : Scalar}
    {buf : Var} {p : Piece} (hwf : (Compute.grid shape axes value).WellFormed kind id E.bound S)
    (hworth : ∀ is, E.value id ρ is = E.valueIn (ρ.bind E.interp axes is) value)
    (hcounts : ∀ k ∈ shape, E.interp.Counts k) (hty : buf.ty = .tensor s shape)
    (hown : E.Own S id u u₁ u' buf.id) :
    E.Folds S id (.grid shape axes value) u u₁ u' ρ p [.store buf (axes.map .var) p.value] [buf.id]
      fun done m => ∀ is ∈ done, m (.element buf.id is) = E.value id ρ is := by
  refine ⟨List.forall_mem_singleton.mpr hown,
    fun hagree h is his => (hagree _ (List.mem_singleton.mpr rfl)).trans (h is his), ?_⟩
  intro done pt m hpt hdone haxes heval
  have hidx : indices E.interp m (axes.map .var) = some pt :=
    indices_axes hwf.length hpt hcounts fun a ha =>
      (haxes a.1 (List.of_mem_zip ha).1).trans (Env.bind_eq_counter hwf.nodup a ha)
  have hadm : buf.ty.Admits pt := hty ▸ hpt
  refine ⟨_, .store heval hidx hadm, fun is his => ?_, fun q hq =>
    update_of_id_ne (fun hid => hq (List.mem_singleton.mpr hid)) _⟩
  by_cases heq : is = pt
  · rw [heq, Function.update_self, hworth]
    rfl
  · rw [Function.update_of_ne fun h => heq (Place.element.inj h).2]
    exact hdone is ((List.mem_append.mp his).resolve_right fun h => heq (List.mem_singleton.mp h))

/-- **A grid.** -/
theorem grid_runs (hE : E.Sound) {shape : List Nat} {axes : List Var} {value : Expr} {s : Scalar}
    {buf : Var} {p : Piece} (hn : E.graph.node? id = some n) (hk : n.kind = .tensor s shape)
    (hc : n.compute = some (.grid shape axes value))
    (hwf : (Compute.grid shape axes value).WellFormed n.kind id E.bound S)
    (hbuf : Allots E.context id n.name n.kind.storage u buf u₁) (htidy : u.Tidy E.base)
    (hfinal : Grows u₁ E.made) (hvalue : E.Computable S id (.grid shape axes value) u₁ u' p)
    (hready : E.Ready S ρ m) (hbounds : E.graph.NodeInBounds E.interp E.inputs ρ id) :
    ∃ m', Runs E.interp (gridStmts shape axes buf p) m m' ∧ E.Outcome S (id + 1) u u' ρ m m' ∧
      E.Kept m' ρ id := by
  have htidy₁ := hbuf.tidy htidy
  obtain ⟨howns, hlt, hty⟩ := owns_buffer hE hn hk hbuf htidy₁ hfinal
  have hown : E.Own S id u u₁ u' buf.id := own_of_owns hE hn (hc ▸ Option.some_ne_none _) hready howns hlt
  have hworth : ∀ is, E.value id ρ is = E.valueIn (ρ.bind E.interp axes is) value :=
    congrFun (Graph.nodeValue_computed hn hc hwf.earlier ρ)
  obtain ⟨m', hrun, hrest, hacc⟩ := (grid_folds hwf hworth (hbounds.counted hn hc) hty hown).runs hE
    hn hc hwf hbuf.grows htidy₁.start hvalue hbounds (.start hready) nofun
  have hkept : E.Kept m' ρ id := by
    intro n' hn' v f hv is his
    obtain rfl := Option.some.inj (hn.symm.trans hn')
    obtain ⟨rfl, hf⟩ := slot_grid hE hn hk hc hwf.earlier hbuf hfinal v f hv
    rw [hk] at his ⊢
    rw [hf]
    exact hacc is (mem_points.mpr his)
  exact ⟨m', hrun, hrest.outcome hkept fun _ hne => hbuf.find?_of_ne hne, hkept⟩

/-! ### Reductions -/

/-- The accumulator of a node is storage of its own. -/
theorem own_created (hE : E.Sound) {hint : String} {ty : Ty} {acc : Var}
    (hn : E.graph.node? id = some n) (hc : n.compute ≠ none) (hacc : Creates id hint ty u acc u₁)
    (htidy : u.Tidy E.base) (hfinal : Grows u₁ E.made) (hready : E.Ready S ρ m) :
    E.Own S id u u₁ u' acc.id :=
  own_of_owns hE hn hc hready (.made (hfinal.kept _ _ hacc.find?))
    ((hacc.tidy htidy).of_find? hacc.find?).2

/-- **The end of a reduction.**  The accumulator holds what it should, and given storage gets the
result. -/
theorem writeBack_runs (hE : E.Sound) {k : Scalar} {acc : Var} {result : Expr} {ss : List Stmt}
    {m₂ : Memory V} (hn : E.graph.node? id = some n) (hk : n.kind = .scalar k)
    (hc : n.compute ≠ none) (hready : E.Ready S ρ m) (hacc : E.made.created.find? id = some acc)
    (hrun : Runs E.interp ss m m₂) (hrest : E.Rest S id u u₁ u' ρ m True m₂)
    (hraw : m₂ (.scalar acc.id) = E.raw id ρ [])
    (hresult : eval E.interp m₂ result = some (E.value id ρ [])) :
    ∃ m', Runs E.interp (writeBack E.context id result ss) m m' ∧
      E.Rest S id u u₁ u' ρ m True m' ∧ E.Kept m' ρ id := by
  unfold writeBack
  cases hgiven : E.context.given.find? id with
  | none =>
      refine ⟨m₂, hrun, hrest, fun n' hn' v f hslot is his => ?_⟩
      obtain rfl := Option.some.inj (hn.symm.trans hn')
      rw [hk] at his ⊢
      obtain rfl : is = [] := his
      cases hslot with
      | given hv => exact nomatch hgiven.symm.trans hv
      | made hv =>
          obtain rfl := Option.some.inj (hacc.symm.trans hv)
          exact hraw
  | some v =>
      have hharm : E.Harmless S id u u' v.id := harmless_of_owns hE hn hc hready (.given hgiven)
      refine ⟨_, hrun.append (.assign hresult), hrest.update hc hn hharm _,
        fun n' hn' v' f hslot is his => ?_⟩
      obtain rfl := Option.some.inj (hn.symm.trans hn')
      rw [hk] at his ⊢
      obtain rfl : is = [] := his
      cases hslot with
      | given hv =>
          obtain rfl := Option.some.inj (hgiven.symm.trans hv)
          exact Function.update_self _ _ _
      | made hv =>
          -- the accumulator is another variable and keeps what it holds
          obtain rfl := Option.some.inj (hacc.symm.trans hv)
          have hne : (Place.scalar acc.id).id ≠ (Place.scalar v.id).id := (hE.apart hgiven hacc).symm
          exact (update_of_id_ne hne _).trans hraw

/-- The accumulator of a reduction holds the fold over the points visited. -/
theorem reduce_folds {shape : List Nat} {axes : List Var} {value : Expr} {op : Reduction}
    {s : Scalar} {acc : Var} {p : Piece} (hown : E.Own S id u u₁ u' acc.id) :
    E.Folds S id (.reduce shape axes value op) u u₁ u' ρ p
      [.assign acc (op.combine (.var acc) p.value)] [acc.id] fun done m => m (.scalar acc.id) =
        Compute.fold E.interp s (fun ρ => E.valueIn ρ value) ρ axes op done := by
  refine ⟨List.forall_mem_singleton.mpr hown,
    fun hagree h => (hagree _ (List.mem_singleton.mpr rfl)).trans h, ?_⟩
  intro done pt m _ hdone _ heval
  refine ⟨_, .assign (eval_combine (eval_var hdone) heval), ?_, fun q hq =>
    update_of_id_ne (fun hid => hq (List.mem_singleton.mpr hid)) _⟩
  exact (Function.update_self _ _ _).trans Compute.fold_append.symm

/-- **A reduction.** -/
theorem reduce_runs (hE : E.Sound) {shape : List Nat} {axes : List Var} {value : Expr}
    {op : Reduction} {k s : Scalar} {count : Nat} {hint : String} {ty : Ty} {acc : Var} {p : Piece}
    (hn : E.graph.node? id = some n) (hk : n.kind = .scalar k)
    (hc : n.compute = some (.reduce shape axes value op))
    (hwf : (Compute.reduce shape axes value op).WellFormed n.kind id E.bound S)
    (hs : E.graph.typeOf value = .ok s) (hcount : Word.product shape = .ok count)
    (hacc : Creates id hint ty u acc u₁) (htidy : u.Tidy E.base) (hfinal : Grows u₁ E.made)
    (hvalue : E.Computable S id (.reduce shape axes value op) u₁ u' p) (hready : E.Ready S ρ m)
    (hbounds : E.graph.NodeInBounds E.interp E.inputs ρ id) :
    ∃ m', Runs E.interp (writeBack E.context id (op.finalize (.var acc) count)
        (reduceStmts shape axes op s acc p)) m m' ∧ E.Outcome S (id + 1) u u' ρ m m' ∧
      E.Kept m' ρ id := by
  have hc' : n.compute ≠ none := hc ▸ Option.some_ne_none _
  have hown : E.Own S id u u₁ u' acc.id := own_created hE hn hc' hacc htidy hfinal hready
  have hinit : E.Rest S id u u₁ u' ρ m False
      (Function.update m (.scalar acc.id) (op.start E.interp s)) :=
    (Rest.start hready).update hc' hn hown.toHarmless _
  obtain ⟨m₂, hrun, hrest, hfold⟩ := (reduce_folds hown).runs hE hn hc hwf hacc.grows
    (hacc.tidy htidy).start hvalue hbounds hinit (Function.update_self _ _ _)
  have hraw : m₂ (.scalar acc.id) = E.raw id ρ [] := by
    obtain rfl := Graph.dtypeOf_eq hs
    exact hfold.trans (congrFun (Graph.rawValue_computed hn hc ρ) []).symm
  have hresult : eval E.interp m₂ (op.finalize (.var acc) count) = some (E.value id ρ []) := by
    rw [eval_finalize (eval_var hraw), Setting.value, Graph.nodeValue_computed hn hc hwf.earlier,
      raw, Graph.rawValue_computed hn hc, Word.product_eq hcount]
    rfl
  obtain ⟨m', hrun', hrest', hkept⟩ := writeBack_runs hE hn hk hc' hready
    (hfinal.kept _ _ hacc.find?) (.cons (.assign eval_identity) hrun) hrest hraw hresult
  exact ⟨m', hrun', hrest'.outcome hkept fun _ hne => hacc.find?_of_ne hne, hkept⟩

/-! ### Arg-reductions -/

/-- The test of an arg-reduction: one more point beside the best value and its position. -/
theorem improve_runs {I : Interp V} {op : Reduction} (index : Scalar) {axis best position : Var}
    {test : Expr} {p : Piece} {x i : V} {b : V × V} (hne : best.id ≠ position.id)
    (haxis : axis.id ≠ best.id) (htest : op.better? p.value (.var best) = some test)
    (hb : m (.scalar best.id) = b.1 ∧ m (.scalar position.id) = b.2)
    (hx : eval I m p.value = some x) (hi : m (.scalar axis.id) = i) :
    ∃ m', Runs I [.cond test (.seq [.assign best p.value,
        .assign position (.cast (.var axis) (.scalar index))]) none] m m' ∧
      (m' (.scalar best.id) = (op.improve I b x (I.cast (.scalar index) i)).1 ∧
        m' (.scalar position.id) = (op.improve I b x (I.cast (.scalar index) i)).2) ∧
      ∀ q : Place, q.id ∉ [best.id, position.id] → m' q = m q := by
  obtain ⟨z, hz, hbeats⟩ := eval_better? hx (eval_var hb.1) htest
  unfold Reduction.improve
  cases hbetter : op.beats I x b.1 with
  | false => exact ⟨m, .cond_false hz (hbeats.trans hbetter), hb, fun _ _ => rfl⟩
  | true =>
      -- the axis is read when the best value has been written already
      have hcast : eval I (Function.update m (.scalar best.id) x)
          (.cast (.var axis) (.scalar index)) = some (I.cast (.scalar index) i) := by
        have hi' : Function.update m (.scalar best.id) x (.scalar axis.id) = i := by
          rw [Function.update_of_ne fun h => haxis (Place.scalar.inj h), hi]
        rw [eval, eval_var hi']
        rfl
      refine ⟨_, .cond_true hz (hbeats.trans hbetter) (.seq (.cons (.assign hx) (.assign hcast))),
        ⟨?_, Function.update_self _ _ _⟩, fun q hq => ?_⟩
      · rw [Function.update_of_ne fun h => hne (Place.scalar.inj h), Function.update_self]
        rfl
      · rw [Function.update_of_ne, Function.update_of_ne]
        · rintro rfl
          exact hq (List.mem_cons_self ..)
        · rintro rfl
          exact hq (List.mem_cons_of_mem _ (List.mem_singleton.mpr rfl))

/-- The variables of an arg-reduction hold the best of the points visited. -/
theorem argReduce_folds {extent : Nat} {axis best position : Var} {value test : Expr}
    {op : Reduction} {kind : NodeKind} {s index : Scalar} {p : Piece}
    (hwf : (Compute.argReduce extent axis value op index).WellFormed kind id E.bound S)
    (hbest : E.Own S id u u₁ u' best.id) (hposition : E.Own S id u u₁ u' position.id)
    (hne : best.id ≠ position.id) (htest : op.better? p.value (.var best) = some test) :
    E.Folds S id (.argReduce extent axis value op index) u u₁ u' ρ p
      [.cond test (.seq [.assign best p.value,
        .assign position (.cast (.var axis) (.scalar index))]) none] [best.id, position.id]
      fun done m =>
        let b := Compute.best E.interp s (fun ρ => E.valueIn ρ value) ρ axis op index done
        m (.scalar best.id) = b.1 ∧ m (.scalar position.id) = b.2 := by
  have hmem : axis ∈ [axis] := List.mem_singleton.mpr rfl
  have haxis : axis.id ≠ best.id :=
    Nat.ne_of_lt (Nat.lt_of_lt_of_le (hwf.below axis hmem) hbest.above)
  refine ⟨List.forall_mem_cons.mpr ⟨hbest, List.forall_mem_singleton.mpr hposition⟩, ?_, ?_⟩
  · intro done m m' hagree h
    rw [hagree _ (List.mem_cons_self ..),
      hagree _ (List.mem_cons_of_mem _ (List.mem_singleton.mpr rfl))]
    exact h
  · intro done pt m _ hdone haxes heval
    obtain ⟨m', hrun, hb, hagree⟩ := improve_runs index hne haxis htest hdone heval (haxes axis hmem)
    refine ⟨m', hrun, ?_, hagree⟩
    rw [Compute.best_append]
    exact hb

/-- **An arg-reduction.** -/
theorem argReduce_runs (hE : E.Sound) {extent : Nat} {axis : Var} {value test : Expr}
    {op : Reduction} {k s index : Scalar} {hint best : String} {ty : Ty} {position : Var} {p : Piece}
    (hn : E.graph.node? id = some n) (hk : n.kind = .scalar k)
    (hc : n.compute = some (.argReduce extent axis value op index))
    (hwf : (Compute.argReduce extent axis value op index).WellFormed n.kind id E.bound S)
    (hs : E.graph.typeOf value = .ok s) (hpos : Creates id hint ty u position u₁)
    (htidy : u.Tidy E.base) (hu' : Grows ⟨u₁.created, u₁.nextVar + 1⟩ u') (hmade : Grows u' E.made)
    (htest : op.better? p.value (.var ⟨u₁.nextVar, best, .scalar s⟩) = some test)
    (hvalue : E.Computable S id (.argReduce extent axis value op index)
      ⟨u₁.created, u₁.nextVar + 1⟩ u' p)
    (hready : E.Ready S ρ m) (hbounds : E.graph.NodeInBounds E.interp E.inputs ρ id) :
    ∃ m', Runs E.interp (writeBack E.context id (.var position) (argReduceStmts extent axis op s
        index ⟨u₁.nextVar, best, .scalar s⟩ position test p)) m m' ∧
      E.Outcome S (id + 1) u u' ρ m m' ∧ E.Kept m' ρ id := by
  have hc' : n.compute ≠ none := hc ▸ Option.some_ne_none _
  have htidy₁ := hpos.tidy htidy
  have hfinal : Grows u₁ E.made := (grows_take u₁).trans (hu'.trans hmade)
  have hlt : position.id < u₁.nextVar := (htidy₁.of_find? hpos.find?).2
  have hbest : E.Own S id u ⟨u₁.created, u₁.nextVar + 1⟩ u' u₁.nextVar :=
    own_of_taken hE hready htidy₁ hpos.grows hu' hmade
  have hposition : E.Own S id u ⟨u₁.created, u₁.nextVar + 1⟩ u' position.id :=
    own_of_owns hE hn hc' hready (.made (hfinal.kept _ _ hpos.find?)) (Nat.lt_succ_of_lt hlt)
  have hne : u₁.nextVar ≠ position.id := Nat.ne_of_gt hlt
  have hinit : E.Rest S id u ⟨u₁.created, u₁.nextVar + 1⟩ u' ρ m False
      (Function.update (Function.update m (.scalar u₁.nextVar) (op.start E.interp s))
        (.scalar position.id) (E.interp.literal index.zero index)) :=
    ((Rest.start hready).update hc' hn hbest.toHarmless _).update hc' hn hposition.toHarmless _
  have hstart : Function.update (Function.update m (.scalar u₁.nextVar) (op.start E.interp s))
      (.scalar position.id) (E.interp.literal index.zero index) (.scalar u₁.nextVar) =
        op.start E.interp s := by
    rw [Function.update_of_ne fun h => hne (Place.scalar.inj h), Function.update_self]
  have hfolds := argReduce_folds (s := s) (ρ := ρ) hwf hbest hposition hne htest
  obtain ⟨m₂, hrun, hrest, -, hfound⟩ := hfolds.runs hE hn hc hwf
    (hpos.grows.trans (grows_take u₁)) htidy₁.take.start hvalue hbounds hinit
    ⟨hstart, Function.update_self _ _ _⟩
  have hraw : m₂ (.scalar position.id) = E.raw id ρ [] := by
    obtain rfl := Graph.dtypeOf_eq hs
    exact hfound.trans (congrFun (Graph.rawValue_computed hn hc ρ) []).symm
  have hresult : eval E.interp m₂ (.var position) = some (E.value id ρ []) := by
    rw [eval_var hraw, Setting.value, Graph.nodeValue_computed hn hc hwf.earlier, raw,
      Graph.rawValue_computed hn hc]
    rfl
  have hrun' := Runs.cons (.declare (v := ⟨u₁.nextVar, best, .scalar s⟩) eval_identity)
    (.cons (.assign (v := position) eval_const) hrun)
  obtain ⟨m', hrun', hrest', hkept⟩ := writeBack_runs hE hn hk hc' hready
    (hfinal.kept _ _ hpos.find?) hrun' hrest hraw hresult
  exact ⟨m', hrun', hrest'.outcome hkept fun _ hne => hpos.find?_of_ne hne, hkept⟩

/-! ### Expressions -/

/-- Wherever the statements can be run they compute the nodes `ids`. -/
def Yields (E : Setting V) (S : List Var) (b : Nat) (u u' : Supply) (ρ : Env V) (ids : List Nat)
    (ss : List Stmt) : Prop :=
  ∀ m, E.Ready S ρ m → ∃ m', Runs E.interp ss m m' ∧ E.Outcome S b u u' ρ m m' ∧
    ∀ i ∈ ids, E.Kept m' ρ i

namespace Yields

variable {b b' : Nat} {ids ids' : List Nat} {ss ts : List Stmt}

theorem nil : E.Yields S b u u ρ [] [] := fun m _ => ⟨m, .nil, .refl, nofun⟩

theorem mono (h : E.Yields S b u u' ρ ids ss) (hb : b ≤ b') : E.Yields S b' u u' ρ ids ss := by
  intro m hm
  obtain ⟨m', hrun, ho, hkept⟩ := h m hm
  exact ⟨m', hrun, ho.mono hb, hkept⟩

/-- What was computed first stays while the rest is computed. -/
theorem append (hE : E.Sound) (h : E.Yields S b u u₁ ρ ids ss) (h' : E.Yields S b u₁ u' ρ ids' ts)
    (hbase : E.base ≤ u.nextVar) (hu : Grows u u₁) (hu' : Grows u₁ u')
    (hsteady : ∀ i ∈ ids, E.Steady S i) : E.Yields S b u u' ρ (ids ++ ids') (ss ++ ts) := by
  intro m hm
  obtain ⟨m₁, hrun, ho, hkept⟩ := h m hm
  obtain ⟨m', hrun', ho', hkept'⟩ := h' m₁ (ho.ready hE hbase hm)
  refine ⟨m', hrun.append hrun', ho.trans ho' hu hu', List.forall_mem_append.mpr ⟨?_, hkept'⟩⟩
  intro i hi
  exact ho'.stable i (hsteady i hi) (hkept i hi)

end Yields

/-- Once its nodes are computed, the value of a definition is at hand. -/
theorem computable_of_yields (hE : E.Sound) {d : Compute} {p : Piece}
    (he : Expands E.context E.bound (d.axes ++ S) d.value u₁ p u') (hmade : Grows u' E.made)
    (hbase : E.base ≤ u₁.nextVar)
    (h : ∀ ρ, E.graph.InBounds E.interp E.inputs ρ d.value →
      E.Yields (d.axes ++ S) id u₁ u' ρ d.value.nodes p.stmts) :
    E.Computable S id d u₁ u' p := by
  intro ρ m hm hbounds
  obtain ⟨m', hrun, ho, hkept⟩ := h ρ hbounds m hm
  have haxes := (ho.ready hE hbase hm).axes
  exact ⟨m', hrun, ho, he.eval_value hE hmade (fun v hv => (haxes v hv).2) hkept hbounds⟩

end Setting

namespace Expansion

open Setting

variable {V : Type} {E : Setting V}

mutual

/-- **The code of an expression computes its nodes.** -/
theorem Expands.yields (hE : E.Sound) : ∀ {S e u p u'}, Expands E.context E.bound S e u p u' →
    Grows u' E.made → u.Tidy E.base → ∀ {b ρ}, (∀ i ∈ e.nodes, i < b) →
    E.graph.InBounds E.interp E.inputs ρ e → E.Yields S b u u' ρ e.nodes p.stmts
  | _, _, _, _, _, .var _, _, _, _, _, _, _ => .nil
  | _, _, _, _, _, .const, _, _, _, _, _, _ => .nil
  | _, _, _, _, _, .node _ _ h, hK, hu, _, _, hb, .node hbounds =>
      (h.yields hE hK hu hbounds).mono (hb _ (List.mem_singleton.mpr rfl))
  | _, _, _, _, _, .binary hl hr, hK, hu, _, _, hb, .binary hbl hbr =>
      .append hE
        (hl.yields hE (hr.grows.trans hK) hu (fun i hi => hb i (List.mem_append_left _ hi)) hbl)
        (hr.yields hE hK (hl.tidy hu) (fun i hi => hb i (List.mem_append_right _ hi)) hbr)
        hu.start hl.grows hr.grows fun i hi => (hl.scoped.unfolds i hi).steady
  | _, _, _, _, _, .unary h, hK, hu, _, _, hb, .unary hbounds => h.yields hE hK hu hb hbounds
  | _, _, _, _, _, .cast h, hK, hu, _, _, hb, .cast hbounds => h.yields hE hK hu hb hbounds
  | _, _, _, _, _, .element _ _ h hs, hK, hu, _, _, hb, .element _ _ hbounds hbs _ _ =>
      .append hE
        ((h.yields hE (hs.grows.trans hK) hu hbounds).mono
          (hb _ (List.mem_append_left _ (List.mem_singleton.mpr rfl))))
        (hs.yields hE hK (h.tidy hu) (fun i hi => hb i (List.mem_append_right _ hi)) hbs)
        hu.start h.grows hs.grows
        fun i hi => by
          obtain rfl := List.mem_singleton.mp hi
          exact h.unfolds.steady

theorem ExpandsList.yields (hE : E.Sound) :
    ∀ {S es u ss vs u'}, ExpandsList E.context E.bound S es u ss vs u' → Grows u' E.made →
      u.Tidy E.base → ∀ {b ρ}, (∀ i ∈ Expr.nodesList es, i < b) →
      (∀ e ∈ es, E.graph.InBounds E.interp E.inputs ρ e) →
      E.Yields S b u u' ρ (Expr.nodesList es) ss
  | _, _, _, _, _, _, .nil, _, _, _, _, _, _ => .nil
  | _, _, _, _, _, _, .cons h hs, hK, hu, _, _, hb, hbounds =>
      .append hE
        (h.yields hE (hs.grows.trans hK) hu (fun i hi => hb i (List.mem_append_left _ hi))
          (List.forall_mem_cons.mp hbounds).1)
        (hs.yields hE hK (h.tidy hu) (fun i hi => hb i (List.mem_append_right _ hi))
          (List.forall_mem_cons.mp hbounds).2)
        hu.start h.grows hs.grows fun i hi => (h.scoped.unfolds i hi).steady

/-- **The code of a node computes it.** -/
theorem Computes.yields (hE : E.Sound) : ∀ {S id u p u'}, Computes E.context E.bound S id u p u' →
    Grows u' E.made → u.Tidy E.base → ∀ {ρ}, E.graph.NodeInBounds E.interp E.inputs ρ id →
    E.Yields S (id + 1) u u' ρ [id] p.stmts
  | _, id, _, _, _, .input hn hc _, _, _, _, _ => fun m hm =>
      ⟨m, .nil, .refl, List.forall_mem_singleton.mpr (hm.inputs id _ hn hc)⟩
  | _, _, _, _, _, .grid hn hk hc hwf hbuf he, hK, hu, _, hbounds => fun m hm => by
      have hu₁ := hbuf.tidy hu
      obtain ⟨m', hrun, ho, hkept⟩ := grid_runs hE hn hk hc hwf hbuf hu (he.grows.trans hK)
        (computable_of_yields hE he hK hu₁.start fun _ hb => he.yields hE hK hu₁ hwf.earlier hb) hm
        hbounds
      exact ⟨m', hrun, ho, List.forall_mem_singleton.mpr hkept⟩
  | _, _, _, _, _, .reduce hn hk hc hwf hs hcount hacc he, hK, hu, _, hbounds => fun m hm => by
      have hu₁ := hacc.tidy hu
      obtain ⟨m', hrun, ho, hkept⟩ := reduce_runs hE hn hk hc hwf hs hcount hacc hu
        (he.grows.trans hK)
        (computable_of_yields hE he hK hu₁.start fun _ hb => he.yields hE hK hu₁ hwf.earlier hb) hm
        hbounds
      exact ⟨m', hrun, ho, List.forall_mem_singleton.mpr hkept⟩
  | _, _, _, _, _, .argReduce hn hk hc hwf hs hpos he htest, hK, hu, _, hbounds => fun m hm => by
      have hu₁ := (hpos.tidy hu).take
      obtain ⟨m', hrun, ho, hkept⟩ := argReduce_runs hE hn hk hc hwf hs hpos hu he.grows hK htest
        (computable_of_yields hE he hK hu₁.start fun _ hb => he.yields hE hK hu₁ hwf.earlier hb) hm
        hbounds
      exact ⟨m', hrun, ho, List.forall_mem_singleton.mpr hkept⟩

end

end Expansion

end TensorLoops
