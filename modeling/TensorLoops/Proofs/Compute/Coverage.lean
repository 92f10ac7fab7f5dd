import TensorLoops.Proofs.Code.Effects
import TensorLoops.Proofs.Compute.Execution
import TensorLoops.Proofs.Compute.Reached
import TensorLoops.Proofs.Source.WellFormed

/-!
# Proofs — Compute — Coverage

A grid stores each of its elements once, in row-major order.  The code for its value may run through
any number of grids and reductions, with loops and storage of their own, inside the loops of the
grid.  Whatever they are, they set only their own axes, their own storage and new variables
(`Computes.confined`), so that neither the buffer nor the axes of the grid are touched by anything
but the grid itself; then the writes to the buffer follow the points of the nest
(`execList_gridStmts`).

Nothing is asked of the storage but that ids are told apart: a run that ends is looked at from
outside, whatever the values are.
-/

namespace TensorLoops

/-- The points of a shape come in lexicographic order, each once. -/
theorem points_pairwise : ∀ shape : List Nat, (points shape).Pairwise (· < ·)
  | []      => List.pairwise_singleton _ _
  | n :: ns => by
      rw [points, List.pairwise_flatMap]
      refine ⟨fun i _ => ?_, ?_⟩
      · rw [List.pairwise_map]
        exact (points_pairwise ns).imp fun h => .cons h
      · refine List.pairwise_lt_range.imp fun hlt => ?_
        intro is his js hjs
        obtain ⟨is', -, rfl⟩ := List.mem_map.mp his
        obtain ⟨js', -, rfl⟩ := List.mem_map.mp hjs
        exact .rel (Int.ofNat_lt.mpr hlt)

namespace Expansion

open Stmt Supply

/-! ### Loops in a run that ends -/

/-- **A nest of loops in a run that ends**, by an invariant of the points visited. -/
theorem execList_nest {V : Type} {I : Interp V} {axes : List Var} {extents : List Nat}
    {body : List Stmt} {s s' : Machine V} (hlen : axes.length = extents.length)
    (hnodup : (axes.map (·.id)).Nodup) (hext : ∀ n ∈ extents, n < 2 ^ 63)
    (Q : List (List Int) → Machine V → Prop) (hgoing : ∀ done s, Q done s → s.result = none)
    (haxis : ∀ v ∈ axes, ∀ done s i, Q done s → Q done (s.begin I v.id i))
    (hbody : ∀ done pt s s', Within extents pt → Q done s →
      (∀ a ∈ axes.zip pt, s.memory (.scalar a.1.id) = I.counter a.2) →
      execList I body s = some s' → Q (done ++ [pt]) s' ∧
        ∀ v ∈ axes, s'.memory (.scalar v.id) = s.memory (.scalar v.id))
    (h : Q [] s) (hrun : execList I (nest (axes.zip extents) body) s = some s') :
    Q (points extents) s' := by
  induction axes generalizing extents Q s s' with
  | nil =>
      obtain rfl := List.length_eq_zero_iff.mp hlen.symm
      exact (hbody [] [] s s' trivial h (by simp) hrun).1
  | cons v axes ih =>
      obtain ⟨n, ns, rfl⟩ := List.exists_cons_of_length_eq_add_one hlen.symm
      obtain ⟨hv, hnodup⟩ := List.nodup_cons.mp hnodup
      obtain ⟨hn, hext⟩ := List.forall_mem_cons.mp hext
      obtain ⟨hvaxis, haxis⟩ := List.forall_mem_cons.mp haxis
      refine exec_loop (fun m => count_ofSize hn) (fun i => Q (outerPoints i ns))
        (fun i => hgoing _) (fun i s s' hi hQ hrun => ?_) h (execList_singleton.symm.trans hrun)
      -- the inner loops run with the outer axis fixed, behind the points of earlier iterations
      have inner : Q (outerPoints i ns ++ (points ns).map (Int.ofNat i :: ·)) s' ∧
          s'.memory (.scalar v.id) = I.counter i := by
        refine ih (Nat.succ.inj hlen) hnodup hext
          (fun done s => Q (outerPoints i ns ++ done.map (Int.ofNat i :: ·)) s ∧
            s.memory (.scalar v.id) = I.counter i) (fun done s hs => hgoing _ s hs.1) ?axis ?body
          ?start (exec_ofList.symm.trans hrun)
        case axis =>
          rintro u hu done s j ⟨hQ, hval⟩
          refine ⟨haxis u hu _ s j hQ, ?_⟩
          have hne : v.id ≠ u.id := fun heq => hv (List.mem_map.mpr ⟨u, hu, heq.symm⟩)
          exact (update_of_id_ne (p := .scalar v.id) (q := .scalar u.id) hne _).trans hval
        case body =>
          rintro done pt s s' hpt ⟨hQ, hval⟩ hzip hrun
          have hpt' : Within (n :: ns) (Int.ofNat i :: pt) :=
            ⟨⟨Int.natCast_nonneg i, Int.ofNat_lt.mpr hi⟩, hpt⟩
          obtain ⟨hQ', hkeep⟩ := hbody _ (Int.ofNat i :: pt) s s' hpt' hQ
            (List.forall_mem_cons.mpr ⟨hval, hzip⟩) hrun
          obtain ⟨hkeepv, hkeep⟩ := List.forall_mem_cons.mp hkeep
          refine ⟨⟨?_, hkeepv.trans hval⟩, hkeep⟩
          rw [List.map_append, ← List.append_assoc]
          exact hQ'
        case start =>
          refine ⟨?_, Function.update_self _ _ _⟩
          rw [List.map_nil, List.append_nil]
          exact hvaxis _ s i hQ
      rw [outerPoints_succ]
      exact inner.1

/-! ### What code for a value sets -/

/-- Code for nodes below `b` may set what `K` holds of: axes that are not in scope, storage of these
nodes, and variables that are new. -/
structure Permits (c : Context) (b : Nat) (S : List Var) (u : Supply) (K : Nat → Prop) : Prop where
  axes  : ∀ v ∈ c.graph.axes, v.id ∉ S.map (·.id) → K v.id
  given : ∀ (i : Nat) (v : Var), i < b → c.given.find? i = some v → K v.id
  made  : ∀ (i : Nat) (v : Var), i < b → u.created.find? i = some v → K v.id
  fresh : ∀ k, u.nextVar ≤ k → K k

section Confined

variable {c : Context} {b w id : Nat} {S : List Var} {u u₁ u' : Supply} {K : Nat → Prop} {n : Node}
  {d : Compute} {hint : String} {ty : Ty} {v : Var}

namespace Permits

theorem grows (h : Permits c b S u K) (hu : Grows u u₁) : Permits c b S u₁ K where
  axes  := h.axes
  given := h.given
  made  := fun i v hi hv => (hu.new i v hv).elim (h.made i v hi) fun hnew => h.fresh _ hnew.1
  fresh := fun k hk => h.fresh k (Nat.le_trans hu.nextVar hk)

theorem inside (axes : List Var) (h : Permits c b S u K) : Permits c b (axes ++ S) u K := by
  refine ⟨fun v hv hS => h.axes v hv fun hmem => hS ?_, h.given, h.made, h.fresh⟩
  rw [List.map_append]
  exact List.mem_append_right _ hmem

theorem axis (h : Permits c b S u K) (hn : c.graph.node? id = some n) (hc : n.compute = some d)
    (hwf : d.WellFormed n.kind id w S) : ∀ v ∈ d.axes, K v.id := by
  intro v hv
  refine h.axes v (Graph.mem_axes.mpr ⟨id, n, Graph.getElem?_of_node? hn, ?_⟩) (hwf.fresh v hv)
  rwa [Node.axes, hc]

theorem creates (h : Permits c b S u K) (hid : id < b) (hv : Creates id hint ty u v u₁) : K v.id :=
  (h.grows hv.grows).made id v hid hv.find?

theorem allots (h : Permits c b S u K) (hid : id < b) (hv : Allots c id hint ty u v u₁) :
    K v.id := by
  rcases hv.find? with hfind | ⟨-, hfind⟩
  · exact h.given id v hid hfind
  · exact (h.grows hv.grows).made id v hid hfind

end Permits

/-- Loops set their axes and what their body sets. -/
theorem confinedList_nest {loops : List (Var × Nat)} {ss : List Stmt}
    (hloops : ∀ l ∈ loops, K l.1.id) (hss : ConfinedList K ss) : ConfinedList K (nest loops ss) := by
  induction loops with
  | nil => exact hss
  | cons l loops ih =>
      obtain ⟨hl, hloops⟩ := List.forall_mem_cons.mp hloops
      exact ⟨⟨hl, confined_ofList.mpr (ih hloops)⟩, trivial⟩

/-- Writing a result back sets storage of the node. -/
theorem confinedList_writeBack {value : Expr} {ss : List Stmt}
    (hgiven : ∀ v, c.given.find? id = some v → K v.id) (hss : ConfinedList K ss) :
    ConfinedList K (writeBack c id value ss) := by
  unfold writeBack
  split
  · rename_i v hv
    exact confinedList_append.mpr ⟨hss, hgiven v hv, trivial⟩
  · exact hss

mutual

/-- **Code for an expression sets what is permitted**, and so does code for a node. -/
theorem Expands.confined : ∀ {S e u p u'}, Expands c w S e u p u' → (∀ i ∈ e.nodes, i < b) →
    Permits c b S u K → ConfinedList K p.stmts
  | _, _, _, _, _, .var _, _, _ => trivial
  | _, _, _, _, _, .const, _, _ => trivial
  | _, _, _, _, _, .node _ _ h, hb, hK => h.confined (hb _ (List.mem_singleton_self _)) hK
  | _, _, _, _, _, .binary hl hr, hb, hK => by
      obtain ⟨hbl, hbr⟩ := List.forall_mem_append.mp hb
      exact confinedList_append.mpr ⟨hl.confined hbl hK, hr.confined hbr (hK.grows hl.grows)⟩
  | _, _, _, _, _, .unary h, hb, hK => h.confined hb hK
  | _, _, _, _, _, .cast h, hb, hK => h.confined hb hK
  | _, _, _, _, _, .element _ _ h hs, hb, hK => by
      obtain ⟨hbase, hidxs⟩ := List.forall_mem_append.mp hb
      exact confinedList_append.mpr ⟨h.confined (hbase _ (List.mem_singleton_self _)) hK,
        hs.confined hidxs (hK.grows h.grows)⟩

theorem ExpandsList.confined : ∀ {S es u ss vs u'}, ExpandsList c w S es u ss vs u' →
    (∀ i ∈ Expr.nodesList es, i < b) → Permits c b S u K → ConfinedList K ss
  | _, _, _, _, _, _, .nil, _, _ => trivial
  | _, _, _, _, _, _, .cons h hs, hb, hK => by
      obtain ⟨he, hes⟩ := List.forall_mem_append.mp hb
      exact confinedList_append.mpr ⟨h.confined he hK, hs.confined hes (hK.grows h.grows)⟩

/-- **Code for a node sets what it is permitted to.** -/
theorem Computes.confined : ∀ {S id u p u'}, Computes c w S id u p u' → id < b →
    Permits c b S u K → ConfinedList K p.stmts
  | _, _, _, _, _, .input _ _ _, _, _ => trivial
  | _, _, _, _, _, .grid hn _ hc hwf hbuf h, hid, hK => by
      have haxes := hK.axis hn hc hwf
      have hearlier := fun i hi => Nat.lt_trans (hwf.earlier i hi) hid
      have hvalue := h.confined hearlier ((hK.grows hbuf.grows).inside _)
      refine confinedList_nest (fun l hl => haxes _ (List.of_mem_zip hl).1) ?_
      exact confinedList_append.mpr ⟨hvalue, hK.allots hid hbuf, trivial⟩
  | _, _, _, _, _, .reduce hn _ hc hwf _ _ hacc h, hid, hK => by
      have haxes := hK.axis hn hc hwf
      have hearlier := fun i hi => Nat.lt_trans (hwf.earlier i hi) hid
      have hvalue := h.confined hearlier ((hK.grows hacc.grows).inside _)
      have hown := hK.creates hid hacc
      refine confinedList_writeBack (fun v => hK.given _ v hid) ⟨hown, ?_⟩
      refine confinedList_nest (fun l hl => haxes _ (List.of_mem_zip hl).1) ?_
      exact confinedList_append.mpr ⟨hvalue, hown, trivial⟩
  | _, _, _, _, _, .argReduce hn _ hc hwf _ hpos h _, hid, hK => by
      have haxes := hK.axis hn hc hwf
      have hearlier := fun i hi => Nat.lt_trans (hwf.earlier i hi) hid
      -- the best value is no storage, but a new variable
      have hK₁ := hK.grows hpos.grows
      have hvalue := h.confined hearlier ((hK₁.grows (grows_take _)).inside [_])
      have hown := hK.creates hid hpos
      have hbest := hK₁.fresh _ (Nat.le_refl _)
      refine confinedList_writeBack (fun v => hK.given _ v hid) ?_
      refine confinedList_append.mpr ⟨⟨hbest, hown, trivial⟩, ?_⟩
      refine confinedList_nest (by simpa using haxes _ (List.mem_singleton_self _)) ?_
      exact confinedList_append.mpr ⟨hvalue, ⟨⟨hbest, hown, trivial⟩, trivial⟩, trivial⟩

end

end Confined

/-! ### The stores of a grid -/

section Grid

variable {V : Type} {I : Interp V} {shape : List Nat} {axes : List Var} {buf : Var} {p : Piece}
  {s s' : Machine V}

/-- A store at the axes is one at the point that they hold. -/
theorem exec_store_axes {value : Expr} {pt : List Int} (hlen : axes.length = shape.length)
    (hwithin : Within shape pt) (hI : ∀ k ∈ shape, I.Counts k)
    (hpt : ∀ a ∈ axes.zip pt, s.memory (.scalar a.1.id) = I.counter a.2)
    (h : exec I (.store buf (axes.map .var) value) s = some s') :
    ∃ x, s' = (s.log (.value x)).write (.element buf.id pt) x := by
  obtain ⟨x, -, h⟩ := Option.bind_eq_some_iff.mp h
  obtain ⟨q, hq, h⟩ := Option.bind_eq_some_iff.mp h
  obtain rfl := Option.some.inj h
  obtain ⟨is, his, hq⟩ := Option.bind_eq_some_iff.mp hq
  obtain rfl := Option.some.inj ((Setting.indices_axes hlen hwithin hI hpt).symm.trans his)
  simp only [cell] at hq
  split at hq
  · obtain rfl := Option.some.inj hq
    exact ⟨x, rfl⟩
  · cases hq

/-- Ids other than the buffer's and those of the axes. -/
def Others (buf : Var) (axes : List Var) (k : Nat) : Prop := k ≠ buf.id ∧ k ∉ axes.map (·.id)

/-- **The stores of a grid.**  If the value sets neither the buffer nor the axes, the buffer is
written at the points of the shape in order, and nowhere else. -/
theorem execList_gridStmts (hlen : axes.length = shape.length) (hnodup : (axes.map (·.id)).Nodup)
    (hext : ∀ n ∈ shape, n < 2 ^ 63) (hI : ∀ k ∈ shape, I.Counts k)
    (hbuf : buf.id ∉ axes.map (·.id)) (hvalue : ConfinedList (Others buf axes) p.stmts)
    (hs : s.result = none) (hrun : execList I (gridStmts shape axes buf p) s = some s') :
    writesTo buf.id s'.trace = writesTo buf.id s.trace ++ (points shape).map (.element buf.id) := by
  refine (execList_nest hlen hnodup hext (fun done t => t.result = none ∧
    writesTo buf.id t.trace = writesTo buf.id s.trace ++ done.map (.element buf.id))
    (fun _ _ h => h.1) ?axis ?body ?start hrun).2
  case start => exact ⟨hs, (List.append_nil _).symm⟩
  case axis =>
    rintro v hv done t i ⟨ht, hwrites⟩
    have hother : ¬ (v.id = buf.id) := fun h => hbuf (List.mem_map.mpr ⟨v, hv, h⟩)
    have hbegin := ActsWithin.begin (K := (· = v.id)) rfl I i t
    exact ⟨ht, (hbegin.writes buf.id (Ne.symm hother)).trans hwrites⟩
  case body =>
    rintro done pt t t' hpt ⟨ht, hwrites⟩ hzip hrun
    -- first the value is computed, past the buffer and the axes, and then it is stored
    obtain ⟨t₁, ht₁, hrun⟩ := execList_append_eq_some hvalue ht hrun
    have hacts := execList_actsWithin hvalue ht₁
    have haxis : ∀ v ∈ axes, t₁.memory (.scalar v.id) = t.memory (.scalar v.id) :=
      fun v hv => hacts.memory _ fun h => h.2 (List.mem_map_of_mem hv)
    have hzip₁ : ∀ a ∈ axes.zip pt, t₁.memory (.scalar a.1.id) = I.counter a.2 :=
      fun a ha => (haxis a.1 (List.of_mem_zip ha).1).trans (hzip a ha)
    obtain ⟨x, rfl⟩ := exec_store_axes hlen hpt hI hzip₁ (execList_singleton.symm.trans hrun)
    refine ⟨⟨hacts.result.trans ht, ?_⟩, fun v hv => ?_⟩
    · rw [Machine.write, Machine.log, writesTo_append, writesTo_append,
        hacts.writes buf.id (fun h => h.1 rfl), hwrites, List.map_append, ← List.append_assoc]
      simp [writesTo, Place.id]
    · have hne : v.id ≠ buf.id := fun h => hbuf (List.mem_map.mpr ⟨v, hv, h⟩)
      exact (update_of_id_ne (p := .scalar v.id) (q := .element buf.id pt) hne x).trans (haxis v hv)

end Grid

/-! ### Grids of a graph that was read -/

/-- Storage that can be told apart: each variable has an id of its own, which is no axis's, and ids
from `next` on are new. -/
structure Context.Apart (c : Context) (next : Nat) : Prop where
  distinct : (c.given.entries.map (·.2.id)).Nodup
  free     : ∀ e ∈ c.given.entries, e.2.id ∉ c.graph.axes.map (·.id)
  below    : ∀ e ∈ c.given.entries, e.2.id < next
  axes     : ∀ v ∈ c.graph.axes, v.id < next

section Apart

variable {c : Context} {next id : Nat} {hint : String} {ty : Ty} {buf : Var} {u : Supply}
  {axes S : List Var}

/-- What a node is allotted is given for it, or new. -/
theorem Context.Apart.allots (hbuf : Allots c id hint ty ⟨.empty, next⟩ buf u) :
    c.given.find? id = some buf ∨ next ≤ buf.id ∧ buf.id < u.nextVar := by
  refine hbuf.find?.imp_right fun h => ?_
  exact (hbuf.tidy (tidy_empty (Nat.le_refl next))).of_find? h.2

/-- The buffer of a node is no axis. -/
theorem Context.Apart.notMem_axes (hc : c.Apart next)
    (hbuf : Allots c id hint ty ⟨.empty, next⟩ buf u) : buf.id ∉ c.graph.axes.map (·.id) := by
  rcases allots hbuf with hfind | hnew
  · exact hc.free (id, buf) (Table.mem_of_find? hfind)
  · intro hmem
    obtain ⟨v, hv, hid⟩ := List.mem_map.mp hmem
    have := hc.axes v hv
    omega

/-- The value of a grid is permitted to set all but the buffer and the axes of the grid. -/
theorem Context.Apart.permits (hc : c.Apart next)
    (hbuf : Allots c id hint ty ⟨.empty, next⟩ buf u) (haxes : axes ⊆ c.graph.axes) :
    Permits c id (axes ++ S) u (Others buf axes) := by
  have hmem : ∀ {k}, k ∈ axes.map (·.id) → k ∈ c.graph.axes.map (·.id) := by
    intro k hk
    obtain ⟨v, hv, rfl⟩ := List.mem_map.mp hk
    exact List.mem_map_of_mem (haxes hv)
  have hgrows := hbuf.grows.nextVar
  refine ⟨?axes, ?given, ?made, ?fresh⟩
  case axes =>
    intro v hv hS
    refine ⟨fun h => hc.notMem_axes hbuf (h ▸ List.mem_map_of_mem hv), fun h => hS ?_⟩
    rw [List.map_append]
    exact List.mem_append_left _ h
  case given =>
    intro i v hi hv
    have hentry := Table.mem_of_find? hv
    refine ⟨fun hid => ?_, fun h => hc.free _ hentry (hmem h)⟩
    rcases allots hbuf with hfind | hnew
    · -- a variable given for two nodes would have its id twice
      have heq := List.inj_on_of_nodup_map hc.distinct hentry (Table.mem_of_find? hfind) hid
      exact absurd (congrArg Prod.fst heq) (Nat.ne_of_lt hi)
    · have := hc.below _ hentry
      simp only at this
      omega
  case made =>
    -- the expansion has begun with the grid, so nothing else is made yet
    intro i v hi hv
    rw [hbuf.find?_of_ne (Nat.ne_of_lt hi)] at hv
    cases hv
  case fresh =>
    intro k hk
    refine ⟨?_, fun h => ?_⟩
    · rcases allots hbuf with hfind | hnew
      · have := hc.below _ (Table.mem_of_find? hfind)
        simp only at this hgrows
        omega
      · omega
    · obtain ⟨v, hv, rfl⟩ := List.mem_map.mp (hmem h)
      have := hc.axes v hv
      simp only at hgrows
      omega

end Apart

end Expansion

open Expansion

/-- What expanding a node that makes sense has made. -/
theorem Graph.expand_node_eq_ok {g : Graph} {w id : Nat} {S : List Var} (hid : g.Unfolds w S id)
    {given : Storage} {x : Expansion} (h : g.expand (.node id) given = .ok x) :
    ∃ next p u, (g.nextVar ≤ next ∧ ∀ e ∈ given.entries, e.2.id < next) ∧
      Computes ⟨g, given⟩ w S id ⟨.empty, next⟩ p u ∧
      x = ⟨.ofList p.stmts, p.value, u.created, u.nextVar⟩ := by
  obtain ⟨next, hnext, h⟩ := bind_eq_ok.mp h
  obtain ⟨⟨p, s⟩, hall, h⟩ := bind_eq_ok.mp h
  obtain rfl := pure_eq_ok.mp h
  obtain ⟨f, hf, hexpand⟩ := expandAll_eq_ok hall
  obtain ⟨f', hf', hdefined⟩ := hf.defined hexpand
  obtain ⟨hle, -, hgiven⟩ := firstVar_eq_ok hnext
  exact ⟨next, p, s.supply, ⟨hle, hgiven⟩, expandDefined_eq_ok hid hf' hdefined, rfl⟩

namespace Program

/-- **A grid writes every coordinate exactly once.**  Take a grid of a graph that was read and any
storage whose variables have ids of their own that are no axes of the graph.  In a run of its code
that ends, whatever the values are as long as the counters of its loops read back as themselves, the
cells of its buffer that are written are those at the coordinates of the shape, one after the other
in row-major order, and no others. -/
theorem grid_stores_once {source : String} {p : Program} (hp : parse source = .ok p) {id : Nat}
    {n : Node} {shape : List Nat} {axes : List Var} {value : Expr}
    (hn : p.graph.node? id = some n) (hc : n.compute = some (.grid shape axes value))
    {given : Storage} (hdistinct : (given.entries.map (·.2.id)).Nodup)
    (hfree : ∀ e ∈ given.entries, e.2.id ∉ p.graph.axes.map (·.id)) {x : Expansion}
    (hx : p.graph.expand (.node id) given = .ok x) {V : Type} {I : Interp V}
    (hI : ∀ k ∈ shape, I.Counts k) {m : Memory V} {s : Machine V}
    (hrun : exec I x.stmt ⟨m, [], none⟩ = some s) :
    ∃ buf, x.value = .var buf ∧
      (given.find? id = some buf ∨ given.find? id = none ∧ x.created.find? id = some buf) ∧
      writesTo buf.id s.trace = (points shape).map (.element buf.id) ∧
      (∀ is, is ∈ points shape ↔ Within shape is) ∧ (points shape).Pairwise (· < ·) := by
  obtain ⟨S, hunfolds, -⟩ := (wellScoped_of_parse hp).settled id n hn
  obtain ⟨next, q, u, ⟨hnext, hbelow⟩, hcomputes, rfl⟩ := Graph.expand_node_eq_ok hunfolds hx
  have hbounds := (declared_of_parse hp).axes.range
  have hapart : Context.Apart ⟨p.graph, given⟩ next :=
    ⟨hdistinct, hfree, hbelow, fun v hv => Nat.lt_of_lt_of_le (hbounds v hv).2 hnext⟩
  cases hcomputes with
  | input hn' hc' _ =>
      obtain rfl := Option.some.inj (hn.symm.trans hn')
      cases hc.symm.trans hc'
  | reduce hn' _ hc' _ _ _ _ _ =>
      obtain rfl := Option.some.inj (hn.symm.trans hn')
      cases hc.symm.trans hc'
  | argReduce hn' _ hc' _ _ _ _ _ =>
      obtain rfl := Option.some.inj (hn.symm.trans hn')
      cases hc.symm.trans hc'
  | @grid _ _ _ _ _ _ _ _ buf u₁ q _ hn' _ hc' hwf hbuf h =>
      obtain rfl := Option.some.inj (hn.symm.trans hn')
      cases hc.symm.trans hc'
      have haxes : axes ⊆ p.graph.axes := by
        intro v hv
        refine Graph.mem_axes.mpr ⟨id, n, Graph.getElem?_of_node? hn, ?_⟩
        rwa [Node.axes, hc]
      have hconfined := h.confined hwf.earlier (hapart.permits hbuf haxes)
      have hnotAxis : buf.id ∉ axes.map (·.id) := by
        intro hmem
        obtain ⟨v, hv, hid⟩ := List.mem_map.mp hmem
        exact hapart.notMem_axes hbuf (List.mem_map.mpr ⟨v, haxes hv, hid⟩)
      have hstores := execList_gridStmts hwf.length hwf.nodup (fun n hn => (hwf.extents n hn).2) hI
        hnotAxis hconfined rfl (exec_ofList.symm.trans hrun)
      refine ⟨buf, rfl, ?_, hstores, fun _ => mem_points, points_pairwise shape⟩
      exact hbuf.find?.imp_right (And.imp_right (h.grows.kept id buf))

/-- Storage for the input and for the grid of means. -/
def meansStorage : Storage :=
  .ofList [(0, ⟨10, "A", .tensor .f32 [2, 3]⟩), (2, ⟨11, "m", .tensor .f32 [2]⟩)]

/-- Each mean is stored once, though the sums run through loops of their own in between. -/
theorem grid_stores_once_rowMeans : ∃ p x s, parse rowMeans = .ok p ∧
    p.graph.expand (.node 2) meansStorage = .ok x ∧
    exec .integers x.stmt ⟨fun _ => 1, [], none⟩ = some s ∧
    writesTo 11 s.trace = [.element 11 [0], .element 11 [1]] := by
  have hok : (do
      let p ← parse rowMeans
      let x ← p.graph.expand (.node 2) meansStorage
      return decide (((p.graph.node? 2).bind (·.compute)).map (fun d => (d.isGrid, d.extents)) =
          some (true, [2])) &&
        (meansStorage.entries.all fun e => decide (e.2.id ∉ p.graph.axes.map (·.id))) &&
        (exec .integers x.stmt (⟨fun _ => 1, [], none⟩ : Machine Int)).isSome) =
      Except.ok true := by
    decide +kernel
  obtain ⟨p, hp, hok⟩ := bind_eq_ok.mp hok
  obtain ⟨x, hx, hok⟩ := bind_eq_ok.mp hok
  obtain ⟨hok, hsome⟩ := (Bool.and_eq_true _ _).mp (pure_eq_ok.mp hok)
  obtain ⟨hgrid, hfree⟩ := (Bool.and_eq_true _ _).mp hok
  obtain ⟨s, hrun⟩ := Option.isSome_iff_exists.mp hsome
  obtain ⟨d, hd, hshape⟩ := Option.map_eq_some_iff.mp (of_decide_eq_true hgrid)
  obtain ⟨n, hn, hc⟩ := Option.bind_eq_some_iff.mp hd
  cases d with
  | grid shape axes value =>
      obtain rfl : shape = [2] := congrArg Prod.snd hshape
      have hfree' : ∀ e ∈ meansStorage.entries, e.2.id ∉ p.graph.axes.map (·.id) :=
        fun e he => of_decide_eq_true (List.all_eq_true.mp hfree e he)
      obtain ⟨buf, -, hbuf, hwrites, -⟩ := grid_stores_once hp hn hc (by decide) hfree' hx
        (fun k _ => Interp.counts_integers k) hrun
      have hfind : meansStorage.find? 2 = some ⟨11, "m", .tensor .f32 [2]⟩ := rfl
      rw [hfind] at hbuf
      rcases hbuf with hbuf | ⟨hnone, -⟩
      · obtain rfl := Option.some.inj hbuf
        exact ⟨p, x, s, hp, hx, hrun, hwrites⟩
      · cases hnone
  | _ => cases hshape

end Program

end TensorLoops
