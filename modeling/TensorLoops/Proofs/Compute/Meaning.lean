import TensorLoops.Proofs.Compute.Drafts
import TensorLoops.Proofs.Compute.Execution

/-!
# Proofs — Compute — Meaning

Lowering preserves meaning.  The outputs of a task are computed one after another, and storage made
for one is given to the next.  Made storage takes the place of what was given for a node, so the
parameter of an output may stop being storage of it before its turn has come.  It then holds the
value already, since a node for which storage was made has been computed, and nothing writes to it
any more (`Draft.Awaits`).
-/

namespace TensorLoops

open Expansion Supply

/-- The variable holds what the node is to be worth, at every point at which it has a value. -/
def Graph.Stores {V : Type} (g : Graph) (m : Memory V) (id : Nat) (v : Var) (f : List Int → V) :
    Prop :=
  ∀ n, g.node? id = some n → ∀ is, n.kind.Admits is → m (n.kind.place v.id is) = f is

namespace Task

/-! ### One output -/

/-- The storage of a draft has the types of its nodes, and no two nodes share it. -/
structure Draft.Sound (g : Graph) (w : Nat) (d : Draft) : Prop where
  typed : ∀ {id v n s shape}, d.storage.find? id = some v → g.node? id = some n →
    n.kind = .tensor s shape → v.ty = .tensor s shape
  above : ∀ {id v}, d.storage.find? id = some v → w ≤ v.id
  owner : ∀ {i j v v'}, d.storage.find? i = some v → d.storage.find? j = some v' → v.id = v'.id →
    i = j

section Output

variable {V : Type} (g : Graph) (w : Nat) (I : Interp V) (σ : Nat → List Int → V)

/-- The setting in which one more output is computed. -/
def Draft.setting (d : Draft) (next : Nat) (u : Supply) : Setting V :=
  ⟨⟨g, d.storage⟩, u, w, next, I, σ⟩

variable {g w I σ} {d : Draft} {id next : Nat} {p : Piece} {u : Supply}

/-- The setting of one more output is sound. -/
theorem Draft.Sound.setting (hd : d.Sound g w) (hw : w ≤ next)
    (hgiven : ∀ e ∈ d.storage.entries, e.2.id < next)
    (hc : Computes ⟨g, d.storage⟩ w [] id ⟨.empty, next⟩ p u) :
    (d.setting g w I σ next u).Sound := by
  have hserves : u.Serves ⟨g, d.storage⟩ := hc.serves fun _ _ _ h => nomatch h
  have htidy : u.Tidy next := hc.tidy (tidy_empty (Nat.le_refl next))
  have hlt : ∀ {id v}, d.storage.find? id = some v → v.id < next := fun hv =>
    hgiven _ (Table.mem_of_find? hv)
  exact {
    start    := hw
    typed    := fun hslot hn hk => by
      cases hslot with
      | given hv => exact hd.typed hv hn hk
      | made hv => exact ((hserves _ _ _ hv hn).2 _ _ hk).1
    above    := by
      rintro id i ⟨v, f, hslot, rfl⟩
      cases hslot with
      | given hv => exact hd.above hv
      | made hv => exact Nat.le_trans hw (htidy.of_find? hv).1
    owner    := by
      rintro id id' i ⟨v, f, hslot, rfl⟩ ⟨v', f', hslot', hid⟩
      cases hslot with
      | given hv =>
          cases hslot' with
          | given hv' => exact hd.owner hv hv' hid.symm
          | made hv' => exact absurd (hlt hv) (by have := (htidy.of_find? hv').1; omega)
      | made hv =>
          cases hslot' with
          | given hv' => exact absurd (hlt hv') (by have := (htidy.of_find? hv).1; omega)
          | made hv' => exact htidy.injective hv hv' hid.symm
    apart    := fun hv hv' => Nat.ne_of_lt (Nat.lt_of_lt_of_le (hlt hv) (htidy.of_find? hv').1)
    early    := hlt
    computed := fun hv hn => (hserves _ _ _ hv hn).1
    single   := fun hv hn hk => ((hserves _ _ _ hv hn).2 _ _ hk).2 }

/-- What a draft knows after one more output is storage in the setting of that output. -/
theorem Draft.slot_of_add (htidy : u.Tidy next) {i : Nat} {v : Var}
    (hv : (d.add p u).storage.find? i = some v) : ∃ f, (d.setting g w I σ next u).Slot i v f := by
  rcases Table.mem_of_find?_union hv with hv | hv
  · exact ⟨_, .given hv⟩
  · exact ⟨_, .made (Table.find?_of_mem htidy.keys hv)⟩

/-- A draft stays sound with one more output. -/
theorem Draft.sound_add (hE : (d.setting g w I σ next u).Sound) (htidy : u.Tidy next) :
    (d.add p u).Sound g w where
  typed := fun hv hn hk => by
    obtain ⟨f, hslot⟩ := Draft.slot_of_add htidy hv
    exact hE.typed hslot hn hk
  above := fun hv => by
    obtain ⟨f, hslot⟩ := Draft.slot_of_add htidy hv
    exact hE.above ⟨_, f, hslot, rfl⟩
  owner := fun hv hv' hid => by
    obtain ⟨f, hslot⟩ := Draft.slot_of_add htidy hv
    obtain ⟨f', hslot'⟩ := Draft.slot_of_add htidy hv'
    exact hE.owner ⟨_, f, hslot, rfl⟩ ⟨_, f', hslot', hid.symm⟩

/-! ### What memory holds between outputs -/

variable (g I σ) (ρ : Env V)

/-- The storage known for inputs holds them. -/
def Draft.Loads (d : Draft) (m : Memory V) : Prop :=
  ∀ i n v, g.node? i = some n → n.compute = none → d.storage.find? i = some v →
    g.Stores m i v (σ i)

/-- Variable `v` will hold the value of node `i` once the outputs `ids` are computed.  It is storage
of the node, and the node is still to come or held; or it holds the value and has been replaced. -/
def Draft.Awaits (d : Draft) (m : Memory V) (ids : List Nat) (i : Nat) (v : Var) : Prop :=
  (d.storage.find? i = some v ∧ (i ∈ ids ∨ g.Stores m i v (g.nodeValue I σ i ρ))) ∨
  (g.Stores m i v (g.nodeValue I σ i ρ) ∧ ∀ k x, d.storage.find? k = some x → x.id ≠ v.id)

/-- No computed node has storage with this id. -/
def Draft.Spares (d : Draft) (i : Nat) : Prop :=
  ∀ k n v, g.node? k = some n → n.compute ≠ none → d.storage.find? k = some v → v.id ≠ i

variable {g I σ ρ} {m m' : Memory V}

/-- Where the inputs are held, an output can be computed. -/
theorem Draft.Loads.ready (h : d.Loads g σ m) (hE : (d.setting g w I σ next u).Sound) :
    (d.setting g w I σ next u).Ready [] ρ m := by
  refine ⟨nofun, fun i n hn hc n' hn' v f hslot is his => ?_⟩
  obtain rfl := Option.some.inj (hn.symm.trans hn')
  cases hslot with
  | given hv =>
      rw [Setting.value, Graph.nodeValue_input hn hc]
      exact h i n v hn hc hv n hn is his
  | made hv => exact absurd hc (hE.computed hv hn)

/-- Inputs stay where they are. -/
theorem Draft.loads_add (hready : (d.setting g w I σ next u).Ready [] ρ m')
    (hE : (d.setting g w I σ next u).Sound) (htidy : u.Tidy next) :
    (d.add p u).Loads g σ m' := by
  intro i n v hn hc hv n' hn' is his
  obtain rfl := Option.some.inj (hn.symm.trans hn')
  rcases Table.mem_of_find?_union hv with hv | hv
  · rw [hready.inputs i n hn hc n hn v _ (.given hv) is his, Setting.value]
    exact congrFun (Graph.nodeValue_input hn hc ρ) is
  · exact absurd hc (hE.computed (Table.find?_of_mem htidy.keys hv) hn)

/-- Storage from before the output was given for the node. -/
theorem Draft.find?_of_owns (htidy : u.Tidy next) {k i : Nat}
    (h : (d.setting g w I σ next u).Owns k i) (hi : i < next) :
    ∃ v, d.storage.find? k = some v ∧ v.id = i := by
  obtain ⟨v, f, hslot, hid⟩ := h
  cases hslot with
  | given hv => exact ⟨v, hv, hid⟩
  | made hv => exact absurd (htidy.of_find? hv).1 (by omega)

theorem Draft.Spares.add (htidy : u.Tidy next) {i : Nat} (h : d.Spares g i) (hi : i < next) :
    (d.add p u).Spares g i := by
  intro k n v hn hc hv
  rcases Table.mem_of_find?_union hv with hv | hv
  · exact h k n v hn hc hv
  · have := (htidy.range _ hv).1
    simp only at this
    omega

/-- Computing an output leaves spared variables alone. -/
theorem Draft.Spares.frame {q : Place} (h : d.Spares g q.id) (htidy : u.Tidy next) {b : Nat}
    (ho : (d.setting g w I σ next u).Outcome [] b ⟨.empty, next⟩ u ρ m m') (hq : w ≤ q.id)
    (hlt : q.id < next) : m' q = m q := by
  refine ho.frame q ?_
  rintro (⟨hbound, -⟩ | ⟨k, n, -, hn, hc, hown⟩ | ⟨hle, -⟩)
  · exact absurd hq (Nat.not_le.mpr hbound)
  · obtain ⟨v, hv, hid⟩ := Draft.find?_of_owns htidy hown hlt
    exact h k n v hn hc hv hid
  · exact absurd hlt (Nat.not_lt.mpr hle)

section Parameter

variable {i : Nat} {v : Var}

theorem Draft.stores_of_kept (hgiven : d.storage.find? i = some v)
    (h : (d.setting g w I σ next u).Kept m ρ i) : g.Stores m i v (g.nodeValue I σ i ρ) :=
  fun n hn is his => h n hn v _ (.given hgiven) is his

/-- The converse, where no other storage is made for it. -/
theorem Draft.kept_of_stores (hgiven : d.storage.find? i = some v)
    (hnone : u.created.find? i = none) (h : g.Stores m i v (g.nodeValue I σ i ρ)) :
    (d.setting g w I σ next u).Kept m ρ i := by
  intro n hn x f hslot is his
  cases hslot with
  | given hx =>
      obtain rfl := Option.some.inj (hgiven.symm.trans hx)
      exact h n hn is his
  | made hx => exact nomatch hnone.symm.trans hx

/-- Where storage is made for a node, what was given for it is storage of nothing any more. -/
theorem Draft.replaced (hE : (d.setting g w I σ next u).Sound) (htidy : u.Tidy next) {x : Var}
    (hgiven : d.storage.find? i = some v) (hcreated : u.created.find? i = some x) :
    ∀ k y, (d.add p u).storage.find? k = some y → y.id ≠ v.id := by
  intro k y hy hid
  rcases Table.mem_of_find?_union hy with hy' | hy'
  · obtain rfl : k = i := hE.owner (.given hy') ⟨v, _, .given hgiven, hid.symm⟩
    have hx : (d.add p u).storage.find? k = some x := by
      refine Table.find?_union (fun z hz => ?_) (.inr (Table.mem_of_find? hcreated))
      exact Option.some.inj ((Table.find?_of_mem htidy.keys hz).symm.trans hcreated)
    obtain rfl := Option.some.inj (hx.symm.trans hy)
    exact hE.apart hgiven hcreated hid.symm
  · have hlt : v.id < next := hE.early hgiven
    have hle : next ≤ y.id := (htidy.range _ hy').1
    omega

/-- **A variable that awaits a value still does after one more output.** -/
theorem Draft.Awaits.add (hE : (d.setting g w I σ next u).Sound) (htidy : u.Tidy next) {b : Nat}
    (ho : (d.setting g w I σ next u).Outcome [] b ⟨.empty, next⟩ u ρ m m')
    (hkept : (d.setting g w I σ next u).Kept m' ρ id) {ids : List Nat}
    (hsteady : g.Steady I σ [] i) (hv : w ≤ v.id) (hlt : v.id < next)
    (h : d.Awaits g I σ ρ m (id :: ids) i v) : (d.add p u).Awaits g I σ ρ m' ids i v := by
  rcases h with ⟨hgiven, hnow⟩ | ⟨hstores, hfree⟩
  · cases hcreated : u.created.find? i with
    | some x =>
        -- storage was made for the node, so it has been computed
        exact .inr ⟨Draft.stores_of_kept hgiven (ho.filled i x rfl hcreated hsteady),
          Draft.replaced hE htidy hgiven hcreated⟩
    | none =>
        refine .inl ⟨Table.find?_union (fun z hz => ?_) (.inl hgiven), ?_⟩
        · exact nomatch hcreated.symm.trans (Table.find?_of_mem htidy.keys hz)
        · rcases hnow with hmem | hheld
          · rcases List.mem_cons.mp hmem with rfl | hmem
            · exact .inr (Draft.stores_of_kept hgiven hkept)
            · exact .inl hmem
          · exact .inr (Draft.stores_of_kept hgiven
              (ho.stable i hsteady (Draft.kept_of_stores hgiven hcreated hheld)))
  · refine .inr ⟨fun n hn is his => ?_, fun k x hx => ?_⟩
    · have hspares : d.Spares g (n.kind.place v.id is).id := fun k _ x _ _ hx => by
        rw [NodeKind.place_id]
        exact hfree k x hx
      rw [hspares.frame htidy ho (by rwa [NodeKind.place_id]) (by rwa [NodeKind.place_id])]
      exact hstores n hn is his
    · rcases Table.mem_of_find?_union hx with hx | hx
      · exact hfree k x hx
      · have hle : next ≤ x.id := (htidy.range _ hx).1
        omega

end Parameter

/-! ### All outputs -/

/-- **Computing the outputs.**  Whatever awaits a value gets it, and spared variables keep theirs. -/
theorem Drafts.runs {ids : List Nat} {d' : Draft} (h : Drafts g w ids d d') (hw : w ≤ g.nextVar)
    (hd : d.Sound g w) (hm : d.Loads g σ m) (hbounds : ∀ i ∈ ids, g.NodeInBounds I σ ρ i) :
    ∃ ss m', d'.stmts = d.stmts ++ ss ∧ Runs I ss m m' ∧
      (∀ i v, g.Steady I σ [] i → w ≤ v.id → v.id < g.nextVar → d.Awaits g I σ ρ m ids i v →
        g.Stores m' i v (g.nodeValue I σ i ρ)) ∧
      ∀ q : Place, w ≤ q.id → q.id < g.nextVar → d.Spares g q.id → m' q = m q := by
  induction h generalizing m with
  | nil =>
      refine ⟨[], m, (List.append_nil _).symm, .nil, fun i v _ _ _ h => ?_, fun _ _ _ _ => rfl⟩
      rcases h with ⟨-, hmem | hstores⟩ | ⟨hstores, -⟩
      · exact absurd hmem List.not_mem_nil
      · exact hstores
      · exact hstores
  | @cons id ids d next p u d' hg _ hgiven hc _ ih =>
      obtain ⟨hid, hbounds⟩ := List.forall_mem_cons.mp hbounds
      have hnext : w ≤ next := Nat.le_trans hw hg
      have hE := hd.setting (I := I) (σ := σ) hnext hgiven hc
      have htidy : u.Tidy next := hc.tidy (tidy_empty (Nat.le_refl next))
      have hready := hm.ready (ρ := ρ) hE
      obtain ⟨m₁, hrun, ho, hkept⟩ :=
        hc.yields hE (.refl u) (tidy_empty (Nat.le_refl next)) hid m hready
      have hready₁ := ho.ready hE (Nat.le_refl next) hready
      obtain ⟨ss, m', hstmts, hrun', hawaits, hspares⟩ :=
        ih (Draft.sound_add hE htidy) (Draft.loads_add hready₁ hE htidy) hbounds
      refine ⟨.ofList p.stmts :: ss, m', ?_, hrun.ofList.append hrun', fun i v hs hv hlt h => ?_,
        fun q hq hlt h => ?_⟩
      · rw [hstmts, Draft.add, List.append_assoc, List.singleton_append]
      · exact hawaits i v hs hv hlt (h.add hE htidy ho (hkept id (List.mem_singleton.mpr rfl)) hs hv
          (Nat.lt_of_lt_of_le hlt hg))
      · have hlt' := Nat.lt_of_lt_of_le hlt hg
        rw [hspares q hq hlt (h.add htidy hlt'), h.frame htidy ho hq hlt']

end Output

/-! ### Parameters -/

namespace Lowered

variable {t : Task} {g : Graph} {params : List Var} {d : Draft} {i : Nat} {v : Var}

theorem length_params (h : t.Lowered g params d) :
    params.length = t.inputs.length + t.outputs.length := by
  rw [← h.fits.length_eq, List.length_append]

theorem length_outputs (h : t.Lowered g params d) :
    t.outputs.length = (params.drop t.inputs.length).length := by
  rw [List.length_drop, h.length_params, Nat.add_sub_cancel_left]

/-- The parameters of the inputs come before those of the outputs. -/
theorem zip_eq (h : t.Lowered g params d) : (t.inputs ++ t.outputs).zip params =
    t.inputs.zip (params.take t.inputs.length) ++ t.outputs.zip (params.drop t.inputs.length) := by
  have hlen : t.inputs.length ≤ params.length := h.length_params ▸ Nat.le_add_right _ _
  conv_lhs => rw [← List.take_append_drop t.inputs.length params]
  exact List.zip_append (by rw [List.length_take, Nat.min_eq_left hlen])

theorem range (h : t.Lowered g params d) (hv : v ∈ params) :
    g.nextVar ≤ v.id ∧ v.id < g.nextVar + (t.inputs ++ t.outputs).length := by
  have hmem : v.id ∈ params.map (·.id) := List.mem_map_of_mem hv
  rw [h.ids] at hmem
  exact List.mem_range'_1.mp hmem

theorem owner (h : t.Lowered g params d) {j : Nat} {v' : Var}
    (hv : (i, v) ∈ (t.inputs ++ t.outputs).zip params)
    (hv' : (j, v') ∈ (t.inputs ++ t.outputs).zip params) (hid : v.id = v'.id) : i = j := by
  have hsnd : ((t.inputs ++ t.outputs).zip params).map Prod.snd = params :=
    List.map_snd_zip (Nat.le_of_eq h.fits.length_eq.symm)
  have hnodup : (((t.inputs ++ t.outputs).zip params).map (Var.id ∘ Prod.snd)).Nodup := by
    rw [← List.map_map, hsnd, h.ids]
    exact List.nodup_range'
  exact congrArg Prod.fst (List.inj_on_of_nodup_map hnodup hv hv' hid)

/-- In the beginning the storage of a draft is its parameters. -/
theorem sound (h : t.Lowered g params d) :
    Draft.Sound { g with nextVar := g.nextVar + (t.inputs ++ t.outputs).length } g.nextVar
      ⟨Table.ofList ((t.inputs ++ t.outputs).zip params), [], [], 0⟩ where
  typed := fun hv hn hk => by
    obtain ⟨n, hn', hty⟩ := List.forall₂_zip h.fits (Table.mem_of_find?_ofList hv)
    obtain rfl := Option.some.inj (hn.symm.trans hn')
    rw [hty, hk, NodeKind.storage]
  above := fun hv => (h.range (List.of_mem_zip (Table.mem_of_find?_ofList hv)).2).1
  owner := fun hv hv' => h.owner (Table.mem_of_find?_ofList hv) (Table.mem_of_find?_ofList hv')

/-- Distinct outputs that are no inputs get the parameters that stand for them. -/
theorem find?_output (h : t.Lowered g params d) (hnodup : t.outputs.Nodup)
    (hdisjoint : ∀ i ∈ t.outputs, i ∉ t.inputs)
    (hv : (i, v) ∈ t.outputs.zip (params.drop t.inputs.length)) :
    (Table.ofList ((t.inputs ++ t.outputs).zip params)).find? i = some v := by
  have hfst : (t.outputs.zip (params.drop t.inputs.length)).map Prod.fst = t.outputs :=
    List.map_fst_zip h.length_outputs.le
  rw [h.zip_eq]
  refine Table.find?_ofList (fun x hx => ?_) (List.mem_append_right _ hv)
  rcases List.mem_append.mp hx with hx | hx
  · exact absurd (List.of_mem_zip hx).1 (hdisjoint i (List.of_mem_zip hv).1)
  · exact congrArg Prod.snd (List.inj_on_of_nodup_map (hfst ▸ hnodup) hx hv rfl)

variable {V : Type} {I : Interp V} {σ : Nat → List Int → V} {ρ : Env V} {m : Memory V}

/-- A parameter of an input is storage of no computed node. -/
theorem spares_input (h : t.Lowered g params d)
    (hin : ∀ i n, g.node? i = some n → (i ∈ t.inputs ↔ n.compute = none))
    (hv : v ∈ params.take t.inputs.length) :
    Draft.Spares { g with nextVar := g.nextVar + (t.inputs ++ t.outputs).length }
      ⟨Table.ofList ((t.inputs ++ t.outputs).zip params), [], [], 0⟩ v.id := by
  intro k n x hn hc hx hid
  have hlen : (params.take t.inputs.length).length ≤ t.inputs.length := List.length_take_le _ _
  rw [← List.map_snd_zip hlen] at hv
  obtain ⟨⟨i, v'⟩, hmem, rfl⟩ := List.mem_map.mp hv
  have hall : (i, v') ∈ (t.inputs ++ t.outputs).zip params := by
    rw [h.zip_eq]
    exact List.mem_append_left _ hmem
  obtain rfl := h.owner (Table.mem_of_find?_ofList hx) hall hid
  exact hc ((hin k n hn).mp (List.of_mem_zip hmem).1)

/-- **A lowered task computes its outputs** and leaves its inputs alone. -/
theorem runs (h : t.Lowered g params d)
    (hin : ∀ i n, g.node? i = some n → (i ∈ t.inputs ↔ n.compute = none))
    (hunfolds : ∀ i ∈ t.outputs, g.Unfolds g.nextVar [] i) (hnodup : t.outputs.Nodup)
    (hdisjoint : ∀ i ∈ t.outputs, i ∉ t.inputs)
    (hm : List.Forall₂ (fun i v => g.Stores m i v (σ i)) t.inputs (params.take t.inputs.length))
    (hbounds : ∀ i ∈ t.outputs, g.NodeInBounds I σ ρ i) :
    ∃ m', Runs I [.ofList d.stmts] m m' ∧
      List.Forall₂ (fun i v => g.Stores m' i v (g.nodeValue I σ i ρ)) t.outputs
        (params.drop t.inputs.length) ∧
      ∀ v ∈ params.take t.inputs.length, ∀ q : Place, q.id = v.id → m' q = m q := by
  have hloads : Draft.Loads { g with nextVar := g.nextVar + (t.inputs ++ t.outputs).length } σ
      ⟨Table.ofList ((t.inputs ++ t.outputs).zip params), [], [], 0⟩ m := by
    intro i n v hn hc hv
    have hmem := Table.mem_of_find?_ofList hv
    rw [h.zip_eq] at hmem
    rcases List.mem_append.mp hmem with hmem | hmem
    · exact List.forall₂_zip hm hmem
    · -- outputs that are no inputs are computed
      exact absurd ((hin i n hn).mpr hc) (hdisjoint i (List.of_mem_zip hmem).1)
  obtain ⟨ss, m', hstmts, hrun, hawaits, hspares⟩ :=
    h.drafts.runs (Nat.le_add_right _ _) h.sound hloads fun i hi => (hbounds i hi).nextVar
  refine ⟨m', ?body, List.forall₂_iff_zip.mpr ⟨h.length_outputs, fun {i v} hv => ?output⟩,
    fun v hv q hq => ?input⟩
  case body =>
    rw [hstmts]
    exact hrun.ofList
  case output =>
    -- the graph of the drafts differs from `g` in its next variable id only
    have hi := (List.of_mem_zip hv).1
    obtain ⟨hle, hlt⟩ := h.range (List.mem_of_mem_drop (List.of_mem_zip hv).2)
    have hunfolds' := (hunfolds i hi).mono
      (g.extends_nextVar (g.nextVar + (t.inputs ++ t.outputs).length)) (Nat.le_refl _)
      (List.Subset.refl _) fun _ => .inl
    have hstores := hawaits i v hunfolds'.steady hle hlt
      (.inl ⟨h.find?_output hnodup hdisjoint hv, .inl hi⟩)
    exact fun n hn is his => (hstores n hn is his).trans Graph.nodeValue_nextVar
  case input =>
    obtain ⟨hle, hlt⟩ := h.range (List.mem_of_mem_take hv)
    exact hspares q (hq ▸ hle) (hq ▸ hlt) (hq ▸ h.spares_input hin hv)

end Lowered

end Task

/-! ### Checking bounds

Whether reads are in bounds can be tried at every point. -/

namespace Graph

variable {V : Type} (g : Graph) (I : Interp V) (σ : Nat → List Int → V)

/-- Whether the expressions give indices within the shape. -/
def readsWithin (ρ : Env V) (shape : List Nat) (idxs : List Expr) : Bool :=
  match (idxs.map (g.valueIn I σ ρ)).mapM I.toInt? with
  | some is => decide (Within shape is)
  | none    => false

mutual

/-- Whether all reads in an expression are in bounds, given those in the nodes. -/
def checkExpr (node : Nat → Bool) (ρ : Env V) : Expr → Bool
  | .var _                   => true
  | .const _ _               => true
  | .node id                 => node id
  | .binary _ lhs rhs        => checkExpr node ρ lhs && checkExpr node ρ rhs
  | .unary _ operand         => checkExpr node ρ operand
  | .cast operand _          => checkExpr node ρ operand
  | .element (.node id) idxs =>
      match (g.node? id).map Node.kind with
      | some (.tensor _ shape) => node id && checkExprs node ρ idxs && g.readsWithin I σ ρ shape idxs
      | _                      => false
  | .element _ _             => false
  | .call _ args             => checkExprs node ρ args

def checkExprs (node : Nat → Bool) (ρ : Env V) : List Expr → Bool
  | []      => true
  | e :: es => checkExpr node ρ e && checkExprs node ρ es

end

/-- Whether all reads in the definition of a node are in bounds. -/
def checkNode (id : Nat) (ρ : Env V) : Bool :=
  match g.node? id with
  | none   => false
  | some n =>
      match n.compute with
      | none   => true
      | some d => (points d.extents).all fun is =>
          g.checkExpr I σ (fun i => if i < id then checkNode i (ρ.bind I d.axes is) else false)
            (ρ.bind I d.axes is) d.value
termination_by id

variable {g I σ}

theorem within_of_readsWithin {ρ : Env V} {shape : List Nat} {idxs : List Expr}
    (h : g.readsWithin I σ ρ shape idxs = true) :
    ∃ is, (idxs.map (g.valueIn I σ ρ)).mapM I.toInt? = some is ∧ Within shape is := by
  unfold readsWithin at h
  split at h
  · exact ⟨_, by assumption, of_decide_eq_true h⟩
  · cases h

mutual

theorem inBounds_of_checkExpr {node : Nat → Bool} {ρ : Env V}
    (hnode : ∀ i, node i = true → g.NodeInBounds I σ ρ i) :
    ∀ e : Expr, g.checkExpr I σ node ρ e = true → g.InBounds I σ ρ e
  | .var _, _ => .var
  | .const _ _, _ => .const
  | .node id, h => .node (hnode id h)
  | .binary _ l r, h => by
      obtain ⟨hl, hr⟩ := Bool.and_eq_true_iff.mp h
      exact .binary (inBounds_of_checkExpr hnode l hl) (inBounds_of_checkExpr hnode r hr)
  | .unary _ e, h => .unary (inBounds_of_checkExpr hnode e h)
  | .cast e _, h => .cast (inBounds_of_checkExpr hnode e h)
  | .element (.node id) idxs, h => by
      rw [checkExpr] at h
      split at h
      · rename_i s shape hkind
        obtain ⟨n, hn, hk⟩ := Option.map_eq_some_iff.mp hkind
        obtain ⟨h, hreads⟩ := Bool.and_eq_true_iff.mp h
        obtain ⟨hid, hidxs⟩ := Bool.and_eq_true_iff.mp h
        obtain ⟨is, his, hwithin⟩ := within_of_readsWithin hreads
        exact .element hn hk (hnode id hid) (inBounds_of_checkExprs hnode idxs hidxs) his hwithin
      · exact nomatch h
  | .call _ args, h => .call (inBounds_of_checkExprs hnode args h)

theorem inBounds_of_checkExprs {node : Nat → Bool} {ρ : Env V}
    (hnode : ∀ i, node i = true → g.NodeInBounds I σ ρ i) :
    ∀ es : List Expr, g.checkExprs I σ node ρ es = true → ∀ e ∈ es, g.InBounds I σ ρ e
  | [], _ => nofun
  | e :: es, h => by
      obtain ⟨he, hes⟩ := Bool.and_eq_true_iff.mp h
      exact List.forall_mem_cons.mpr
        ⟨inBounds_of_checkExpr hnode e he, inBounds_of_checkExprs hnode es hes⟩

end

/-- What passes the check is in bounds, where every counter reads back as itself. -/
theorem nodeInBounds_of_checkNode (hI : ∀ k, I.Counts k) {id : Nat} {ρ : Env V}
    (h : g.checkNode I σ id ρ = true) : g.NodeInBounds I σ ρ id := by
  induction id using Nat.strongRecOn generalizing ρ with
  | _ id ih =>
      rw [checkNode] at h
      cases hn : g.node? id with
      | none =>
          simp only [hn] at h
          exact nomatch h
      | some n =>
          cases hc : n.compute with
          | none => exact .input hn hc
          | some d =>
              simp only [hn, hc] at h
              have hcounted : d.Counted I := by
                cases d with
                | grid => exact fun k _ => hI k
                | _ => trivial
              refine .computed hn hc hcounted fun is his => ?_
              refine inBounds_of_checkExpr (fun i hi => ?_) _
                (List.all_eq_true.mp h is (mem_points.mpr his))
              by_cases hlt : i < id
              · exact ih i hlt (by rwa [if_pos hlt] at hi)
              · rw [if_neg hlt] at hi
                exact nomatch hi

end Graph

/-- **Lowering preserves meaning.**  Where the parameters of the inputs hold them and every read of
a tensor is in bounds, the lowered procedure runs to an end at which the parameter of every output
holds what its node is worth, at every point, and the inputs are as before.  What outputs and locals
held at first does not matter, nor does the interpretation of scalar operations, as long as the
counters that grids are stored at read back as themselves. -/
theorem lowerSource_meaning {V : Type} (I : Interp V) {source name : String} {kind : ProcKind}
    {p : Program} {t : Task} {f : Procedure} (hp : Program.parse source = .ok p)
    (ht : p.task name = .ok t) (hf : lowerSource source name kind = .ok f)
    (hnodup : t.outputs.Nodup) (hdisjoint : ∀ i ∈ t.outputs, i ∉ t.inputs)
    (σ : Nat → List Int → V) (ρ : Env V) (m : Memory V)
    (hm : List.Forall₂ (fun i v => p.graph.Stores m i v (σ i)) t.inputs
      (f.params.take t.inputs.length))
    (hbounds : ∀ i ∈ t.outputs, p.graph.NodeInBounds I σ ρ i) :
    ∃ s, f.run I m = some s ∧
      List.Forall₂ (fun i v => p.graph.Stores s.memory i v (p.graph.nodeValue I σ i ρ)) t.outputs
        (f.params.drop t.inputs.length) ∧
      ∀ v ∈ f.params.take t.inputs.length, ∀ q : Place, q.id = v.id → s.memory q = m q := by
  obtain ⟨p', t', params, d, hp', ht', hcompact, hlowered, rfl⟩ := lowerSource_eq_ok hf
  obtain rfl := Except.ok.inj (hp.symm.trans hp')
  obtain rfl := Except.ok.inj (ht.symm.trans ht')
  have hscoped := Program.wellScoped_of_parse hp
  obtain ⟨hinputs, hclosed⟩ := Program.task_eq_ok hscoped ht
  have hin : ∀ i n, p.graph.node? i = some n → (i ∈ t.inputs ↔ n.compute = none) := by
    intro i n hn
    rw [hinputs]
    exact hscoped.mem_inputs_iff hcompact hn
  have hunfolds : ∀ i ∈ t.outputs, p.graph.Unfolds p.graph.nextVar [] i :=
    fun i hi => (hclosed i hi).unfolds hcompact
  obtain ⟨m', hrun, houtputs, hunchanged⟩ :=
    hlowered.runs hin hunfolds hnodup hdisjoint hm hbounds
  obtain ⟨trace, hexec⟩ := hrun []
  exact ⟨⟨m', trace, none⟩, execList_singleton.symm.trans hexec, houtputs, hunchanged⟩

/-- A text in which one output is computed on the way to another. -/
def scaledBySum : String :=
  "input A: i32[2];
let s = sum[i: 2] => A[i];
let r = grid[i: 2] => A[i] * s;
output r, s;"

/-- Every cell holds one more than the sum of its indices. -/
def risingCells : Memory Int
  | .scalar _     => 1
  | .element _ is => is.sum + 1

/-- A grid scaled by a sum, with both as outputs, run on rising inputs. -/
theorem lowerSource_meaning_scaledBySum : ∃ p t f s, Program.parse scaledBySum = .ok p ∧
    p.task "scale" = .ok t ∧ lowerSource scaledBySum "scale" .host = .ok f ∧ t.outputs = [2, 1] ∧
    f.run Interp.integers risingCells = some s ∧
    List.Forall₂ (fun i v => p.graph.Stores s.memory i v
      (p.graph.nodeValue Interp.integers (fun _ is => is.sum + 1) i fun _ => 0))
      t.outputs (f.params.drop t.inputs.length) := by
  have hok : (do
      let p ← Program.parse scaledBySum
      let t ← p.task "scale"
      let f ← lowerSource scaledBySum "scale" .host
      return decide (t.outputs = [2, 1] ∧ t.outputs.Nodup ∧ (∀ i ∈ t.outputs, i ∉ t.inputs) ∧
        t.inputs.length = (f.params.take t.inputs.length).length ∧
        ∀ i ∈ t.outputs, p.graph.checkNode Interp.integers (fun _ is => is.sum + 1) i
          (fun _ => 0) = true)) = Except.ok true := by
    decide +kernel
  obtain ⟨p, hp, hok⟩ := bind_eq_ok.mp hok
  obtain ⟨t, ht, hok⟩ := bind_eq_ok.mp hok
  obtain ⟨f, hf, hok⟩ := bind_eq_ok.mp hok
  obtain ⟨houts, hnodup, hdisjoint, hlen, hcheck⟩ := of_decide_eq_true (pure_eq_ok.mp hok)
  have hstores : ∀ i v, p.graph.Stores risingCells i v fun is => is.sum + 1 := by
    intro i v n _ is his
    cases hk : n.kind with
    | tensor s shape => rfl
    | scalar s =>
        rw [hk] at his
        obtain rfl : is = [] := his
        rfl
  obtain ⟨s, hrun, houtputs, -⟩ := lowerSource_meaning Interp.integers hp ht hf hnodup hdisjoint
    (fun _ is => is.sum + 1) (fun _ => 0) risingCells
    (List.forall₂_iff_zip.mpr ⟨hlen, fun _ => hstores _ _⟩)
    fun i hi => Graph.nodeInBounds_of_checkNode Interp.counts_integers (hcheck i hi)
  exact ⟨p, t, f, s, hp, ht, hf, houts, hrun, houtputs⟩

end TensorLoops
