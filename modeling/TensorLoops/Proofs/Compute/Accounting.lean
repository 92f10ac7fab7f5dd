import TensorLoops.Proofs.Compute.Demand
import TensorLoops.Proofs.Compute.Values
import TensorLoops.Proofs.Source.WellFormed

/-!
# Proofs — Compute — Accounting

The storage that one expansion makes, over any graph.  A node is computed as often as it is come to,
but storage for it is made once, and by three rules: a grid has some only if none is given, a
reduction always, and an arg-reduction takes another variable on each visit.  `Accrues c T k u u'`
keeps the books from `u` to `u'`: storage is made for the nodes `T`, of the types that they call
for and with ids of its own, and `k` more ids are given out.  Entries add up along an expansion
(`Accrues.trans`), so that of a whole one they are read off the graph (`expand_accounts`).
-/

namespace TensorLoops

open Relation

namespace Graph

/-- The least id above those of the graph and of the given storage. -/
def firstFree (g : Graph) (given : Storage) : Nat :=
  given.entries.foldl (fun m e => max m (e.2.id + 1)) g.nextVar

/-- The definition of a node calls for storage of the type. -/
def CallsFor (g : Graph) (n : Node) (ty : Ty) : Compute → Prop
  | .grid _ _ _              => ty = n.kind.storage
  | .reduce _ _ value _      => ∃ s, g.typeOf value = .ok s ∧ ty = .scalar s
  | .argReduce _ _ _ _ index => ty = .scalar index

/-- Storage is for computed nodes, and of the types that they call for. -/
def Accommodates (g : Graph) (st : Storage) : Prop :=
  ∀ (id : Nat) (v : Var), st.find? id = some v →
    ∃ n d, g.node? id = some n ∧ n.compute = some d ∧ g.CallsFor n v.ty d

end Graph

namespace Expansion

/-- The first id given out is above those of the graph and of the given storage. -/
theorem firstVar_eq_foldl {c : Context} {first next : Nat} (h : firstVar c first = .ok next) :
    next = c.given.entries.foldl (fun m e => max m (e.2.id + 1)) (max c.graph.nextVar first) := by
  unfold firstVar at h
  generalize c.given.entries = es, max c.graph.nextVar first = m at h ⊢
  induction es generalizing m with
  | nil => exact (pure_eq_ok.mp h).symm
  | cons e es ih =>
      obtain ⟨m₁, hm₁, h⟩ := bind_eq_ok.mp h
      obtain ⟨k, hk, hm₁⟩ := bind_eq_ok.mp hm₁
      obtain rfl := pure_eq_ok.mp hm₁
      obtain ⟨-, rfl⟩ := Word.nextId_eq_ok.mp hk
      exact ih _ h

/-! ### Keeping the books -/

/-- Storage is made for the nodes `T`, and `k` ids are given out besides. -/
structure Accrues (c : Context) (T : Nat → Prop) (k : Nat) (u u' : Supply) : Prop where
  keys  : ∀ i, i ∈ u'.created.keys ↔ i ∈ u.created.keys ∨ T i
  tidy  : ∀ base, u.Tidy base → u'.Tidy base
  typed : c.graph.Accommodates u.created → c.graph.Accommodates u'.created
  count : u'.nextVar + u.created.size = u.nextVar + u'.created.size + k

variable {c : Context} {T T' : Nat → Prop} {k k' id : Nat} {n : Node} {d : Compute}
  {hint : String} {ty : Ty} {u u₁ u' : Supply} {v : Var}

namespace Accrues

theorem refl (c : Context) (u : Supply) : Accrues c (fun _ => False) 0 u u :=
  ⟨by simp, fun _ h => h, fun h => h, rfl⟩

/-- What two steps make and give out adds up. -/
theorem trans (h : Accrues c T k u u₁) (h' : Accrues c T' k' u₁ u') :
    Accrues c (fun i => T i ∨ T' i) (k + k') u u' where
  keys  := fun i => by rw [h'.keys, h.keys, or_assoc]
  tidy  := fun base hu => h'.tidy base (h.tidy base hu)
  typed := fun hu => h'.typed (h.typed hu)
  count := by
    have hcount := h.count
    have hcount' := h'.count
    omega

theorem congr (h : Accrues c T k u u') (hT : ∀ i, T i ↔ T' i) (hk : k = k') :
    Accrues c T' k' u u' :=
  ⟨fun i => by rw [h.keys, hT], h.tidy, h.typed, hk ▸ h.count⟩

/-- An id is given out for something else than storage. -/
theorem take (c : Context) (u : Supply) :
    Accrues c (fun _ => False) 1 u ⟨u.created, u.nextVar + 1⟩ :=
  ⟨by simp, fun _ h => h.take, fun h => h, Nat.add_right_comm ..⟩

end Accrues

/-- A variable made for a node has the type that the node calls for. -/
theorem Creates.accommodates (h : Creates id hint ty u v u') (hn : c.graph.node? id = some n)
    (hc : n.compute = some d) (hty : c.graph.CallsFor n ty d) (hu : c.graph.Accommodates u.created) :
    c.graph.Accommodates u'.created := by
  intro i x hx
  rcases h.find?_cases hx with hx | ⟨rfl, rfl⟩
  · exact hu i x hx
  · exact ⟨n, d, hn, hc, hty⟩

/-- Making a variable gives out one id, and finding one gives out none. -/
theorem Creates.count (h : Creates id hint ty u v u') :
    u'.nextVar + u.created.size = u.nextVar + u'.created.size := by
  cases h with
  | again _ => rfl
  | fresh hnone =>
      have hsize := (Table.place_perm (a := (⟨u.nextVar, hint, ty⟩ : Var)) hnone).length_eq
      simp only [Table.size, Table.insert, hsize, List.length_cons]
      omega

/-- The variable of a node is made on the first visit, and found on later ones. -/
theorem Creates.accrues (h : Creates id hint ty u v u') (hn : c.graph.node? id = some n)
    (hc : n.compute = some d) (hty : c.graph.CallsFor n ty d) : Accrues c (· = id) 0 u u' :=
  ⟨fun _ => h.mem_keys, fun _ => h.tidy, h.accommodates hn hc hty, h.count⟩

theorem Allots.accrues (h : Allots c id hint ty u v u') (hn : c.graph.node? id = some n)
    (hc : n.compute = some d) (hty : c.graph.CallsFor n ty d) :
    Accrues c (fun i => i = id ∧ c.given.find? id = none) 0 u u' := by
  cases h with
  | given hv => exact (Accrues.refl c u).congr (by simp [hv]) rfl
  | made hnone h => exact (h.accrues hn hc hty).congr (by simp [hnone]) rfl

/-! ### A whole expansion -/

/-- Code for the given nodes needs storage for the node. -/
def Context.Wants (c : Context) (is : List Nat) (i : Nat) : Prop :=
  c.graph.Meets (fun j => j = i ∧ c.Needs j) is

theorem Context.wants_computed (hn : c.graph.node? id = some n) (hc : n.compute = some d)
    {i : Nat} : c.Wants [id] i ↔ (i = id ∧ c.Needs id) ∨ c.Wants d.value.nodes i := by
  rw [Wants, Wants, Graph.meets_computed hn hc]
  exact or_congr_left (and_congr_left' eq_comm)

/-- The books of a computed node: its own storage, and then that of its value. -/
theorem Accrues.computed (hg : ∀ i j, c.graph.Contains j i → i < j)
    (hn : c.graph.node? id = some n) (hc : n.compute = some d)
    (hown : Accrues c (fun i => i = id ∧ c.Needs id) (if d.isArg then 1 else 0) u u₁)
    (hvalue : Accrues c (c.Wants d.value.nodes) (c.graph.bests d.value.nodes) u₁ u') :
    Accrues c (c.Wants [id]) (c.graph.bests [id]) u u' := by
  have hbests := Graph.bests_computed hn hc fun i hi => hg i id ⟨n, d, hn, hc, hi⟩
  exact (hown.trans hvalue).congr (fun _ => (Context.wants_computed hn hc).symm) hbests.symm

mutual

/-- **The books of an expression.**  Storage is made for the nodes that it wants, and an id is given
out for every best value. -/
theorem Becomes.accrues (hg : ∀ i j, c.graph.Contains j i → i < j) : ∀ {e u v u'},
    Becomes c e u v u' → Accrues c (c.Wants e.nodes) (c.graph.bests e.nodes) u u'
  | _, _, _, _, .var => (Accrues.refl _ _).congr (by simp [Context.Wants, Expr.nodes]) rfl
  | _, _, _, _, .const => (Accrues.refl _ _).congr (by simp [Context.Wants, Expr.nodes]) rfl
  | _, _, _, _, .node h => h.accrues hg
  | _, _, _, _, .binary hl hr =>
      ((hl.accrues hg).trans (hr.accrues hg)).congr (fun _ => Graph.meets_append.symm)
        Graph.bests_append.symm
  | _, _, _, _, .unary h => h.accrues hg
  | _, _, _, _, .cast h => h.accrues hg
  | _, _, _, _, .element hb hs =>
      ((hb.accrues hg).trans (hs.accrues hg)).congr (fun _ => Graph.meets_append.symm)
        Graph.bests_append.symm
  | _, _, _, _, .call hs => hs.accrues hg

theorem BecomesList.accrues (hg : ∀ i j, c.graph.Contains j i → i < j) : ∀ {es u vs u'},
    BecomesList c es u vs u' →
      Accrues c (c.Wants (Expr.nodesList es)) (c.graph.bests (Expr.nodesList es)) u u'
  | _, _, _, _, .nil => (Accrues.refl _ _).congr (by simp [Context.Wants, Expr.nodesList]) rfl
  | _, _, _, _, .cons h hs =>
      ((h.accrues hg).trans (hs.accrues hg)).congr (fun _ => Graph.meets_append.symm)
        Graph.bests_append.symm

/-- The books of a node. -/
theorem Stands.accrues (hg : ∀ i j, c.graph.Contains j i → i < j) : ∀ {id u v u'},
    Stands c id u v u' → Accrues c (c.Wants [id]) (c.graph.bests [id]) u u'
  | _, _, _, _, .input hn hc _ => by
      refine (Accrues.refl _ _).congr (fun i => ?_) (Graph.bests_input hn hc).symm
      simp [Context.Wants, Graph.meets_input hn hc, Context.needs_input hn hc]
  | _, _, _, _, .grid hn hc hbuf h => by
      refine .computed hg hn hc ?_ (h.accrues hg)
      refine (hbuf.accrues hn hc rfl).congr (fun i => ?_) rfl
      simp [Context.needs_computed hn hc, Compute.isGrid]
  | _, _, _, _, .reduce hn hc hs hacc h => by
      refine .computed hg hn hc ?_ (h.accrues hg)
      refine (hacc.accrues hn hc ⟨_, hs, rfl⟩).congr (fun i => ?_) rfl
      simp [Context.needs_computed hn hc, Compute.isGrid]
  | _, _, _, _, .argReduce hn hc hpos h => by
      -- the best value takes an id at each visit, though its node is stored once
      refine .computed hg hn hc ?_ (h.accrues hg)
      refine ((hpos.accrues hn hc rfl).trans (.take _ _)).congr (fun i => ?_) rfl
      simp [Context.needs_computed hn hc, Compute.isGrid]

end

end Expansion

namespace Graph

open Expansion

/-- **The storage of one expansion.**  Where nodes mention earlier ones, an expansion makes storage
for exactly the reductions that can be reached from the expression and the grids among those nodes
that have none.  The variables have ids of their own from the first free one on and are of the
types that the nodes call for.  Besides them an id is given out for each visit to an
arg-reduction. -/
theorem expand_accounts {g : Graph} {e : Expr} {given : Storage} {x : Expansion}
    (hg : ∀ i j, g.Contains j i → i < j) (hx : g.expand e given = .ok x) :
    (∀ i, i ∈ x.created.keys ↔ (∃ j ∈ e.nodes, ReflTransGen g.Contains j i) ∧
      (g.isReduction i ∨ g.isGrid i ∧ given.find? i = none)) ∧
    x.created.keys.Nodup ∧ (x.created.entries.map (·.2.id)).Nodup ∧
    (∀ m ∈ x.created.entries, g.firstFree given ≤ m.2.id ∧ m.2.id < x.nextVar) ∧
    (∀ i v, x.created.find? i = some v →
      ∃ n d, g.node? i = some n ∧ n.compute = some d ∧ g.CallsFor n v.ty d) ∧
    x.nextVar = g.firstFree given + x.created.size + g.bests e.nodes := by
  obtain ⟨next, hnext, hbecomes⟩ := becomes_from_firstVar hx
  have hbase : next = g.firstFree given := by
    rw [firstVar_eq_foldl hnext, Nat.max_eq_left (Nat.zero_le _)]
    rfl
  subst hbase
  -- the books are opened with no storage, at the first free id
  have hbooks := hbecomes.accrues hg
  have htidy := hbooks.tidy (g.firstFree given) (Supply.tidy_empty (Nat.le_refl _))
  refine ⟨fun i => ?keys, htidy.keys, htidy.nodup, htidy.range, ?typed, ?count⟩
  case keys =>
    have hnone : i ∉ (Table.empty : Storage).keys := List.not_mem_nil
    rw [hbooks.keys i, or_iff_right hnone, Context.Wants, Meets]
    constructor
    · rintro ⟨j, hj, _, hreach, rfl, hneeds⟩
      exact ⟨⟨j, hj, hreach⟩, Context.needs_iff.mp hneeds⟩
    · rintro ⟨⟨j, hj, hreach⟩, hneeds⟩
      exact ⟨j, hj, i, hreach, rfl, Context.needs_iff.mpr hneeds⟩
  case typed =>
    have hempty : g.Accommodates Table.empty := by
      intro i v hv
      cases hv
    exact hbooks.typed hempty
  case count => exact hbooks.count

/-- Storage for the input alone, with an id well above those of the graph. -/
def inputAtNine : Storage := .ofList [(0, ⟨9, "A", .tensor .f32 [2, 3]⟩)]

/-- The best row is computed twice, each time with a best value of its own, and kept once. -/
theorem expand_accounts_rowMeans : ∃ p x, Program.parse Program.rowMeans = .ok p ∧
    p.graph.expand (.binary .add (.node 3) (.node 3)) inputAtNine = .ok x ∧
    (∀ i, i ∈ x.created.keys ↔ i = 1 ∨ i = 2 ∨ i = 3) ∧
    (∀ m ∈ x.created.entries, 10 ≤ m.2.id ∧ m.2.id < x.nextVar) ∧
    x.nextVar = 10 + 3 + p.graph.bests [3, 3] := by
  have hok : (do
      let p ← Program.parse Program.rowMeans
      let x ← p.graph.expand (.binary .add (.node 3) (.node 3)) inputAtNine
      return decide (x.created.keys = [1, 2, 3] ∧ p.graph.firstFree inputAtNine = 10)) =
        Except.ok true := by
    decide +kernel
  obtain ⟨p, hp, hok⟩ := bind_eq_ok.mp hok
  obtain ⟨x, hx, hok⟩ := bind_eq_ok.mp hok
  obtain ⟨hkeys, hfree⟩ := of_decide_eq_true (pure_eq_ok.mp hok)
  obtain ⟨-, -, -, hrange, -, hcount⟩ := expand_accounts (Program.wellScoped_of_parse hp).earlier hx
  have hsize : x.created.size = 3 := by
    rw [Table.size, ← List.length_map (f := Prod.fst)]
    exact congrArg List.length hkeys
  rw [hfree] at hrange hcount
  refine ⟨p, x, hp, hx, fun i => ?_, hrange, ?_⟩
  · rw [hkeys]
    simp
  · rw [hcount, hsize]
    rfl

end Graph

end TensorLoops
