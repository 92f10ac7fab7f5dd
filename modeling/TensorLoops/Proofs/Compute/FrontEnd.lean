import TensorLoops.Proofs.Compute.Limits
import TensorLoops.Proofs.Compute.Ranks
import TensorLoops.Proofs.Source.Failure

/-!
# Proofs — Compute — FrontEnd

When a text cannot be turned into flat code.  Reading, lowering and flattening fail over what is
wrong with the text, or where a number is out of range.  Numbers come from two places: ids are
counted, and the points of tensors and reductions are multiplied up.  So the second kind of failure
can be told from the graph (`flatSource_overflows_iff`), and a text that stays within the limits
never meets it.
-/

namespace TensorLoops

open Relation

/-- Read a program, lower its task and lay out its tensors in one dimension. -/
def flatSource (source name : String) (kind : ProcKind) : Except Error Procedure := do
  let f ← lowerSource source name kind
  f.flatten

/-- A failure that is not the fault of the front end itself: no allowance has run out and no node is
computed from itself.  Numbers out of range are sums and products. -/
structure Error.Regular (e : Error) : Prop where
  allowance : e ≠ .parse .nesting
  acyclic   : ∀ id, e ≠ .graph (.cyclic id)
  overflow  : ∀ a, e = .arithmetic a → a = .addOverflow ∨ a = .mulOverflow

theorem Error.Regular.addOverflow : (Error.arithmetic .addOverflow).Regular :=
  ⟨nofun, nofun, fun _ h => .inl (Error.arithmetic.inj h).symm⟩

theorem Error.Regular.mulOverflow : (Error.arithmetic .mulOverflow).Regular :=
  ⟨nofun, nofun, fun _ h => .inr (Error.arithmetic.inj h).symm⟩

/-- The number of elements of a tensor, or of points that a reduction runs over. -/
def Node.points (n : Node) : Nat :=
  match n.compute with
  | some d => d.extents.prod
  | none   => n.kind.storage.count

namespace Graph

/-- A node with more points than a word can count. -/
def Overflows (g : Graph) (id : Nat) : Prop := ∃ n, g.node? id = some n ∧ Word.limit ≤ n.points

/-- A tensor with more elements than a word can count. -/
def Oversized (g : Graph) (id : Nat) : Prop :=
  ∃ n s shape, g.node? id = some n ∧ n.kind = .tensor s shape ∧ Word.limit ≤ shape.prod

variable {g : Graph} {T T' : Nat → Prop} {is : List Nat} {id : Nat}

theorem not_overcounts_input {n : Node} (hn : g.node? id = some n) (hc : n.compute = none) :
    ¬ g.Overcounts id := by
  rintro ⟨shape, axes, value, op, hreduce, -⟩
  exact nomatch (compute?_eq_none hn hc).symm.trans hreduce

/-- A reduction over too many points has too many points. -/
theorem Overcounts.overflows (h : g.Overcounts id) : g.Overflows id := by
  obtain ⟨shape, axes, value, op, hreduce, hlarge⟩ := h
  obtain ⟨n, hn, hc⟩ := Option.bind_eq_some_iff.mp hreduce
  refine ⟨n, hn, ?_⟩
  rwa [Node.points, hc]

/-- Nothing is met beyond an input. -/
theorem meets_inputs (h : ∀ i ∈ is, ∃ n, g.node? i = some n ∧ n.compute = none) :
    g.Meets T is ↔ ∃ i ∈ is, T i := by
  constructor
  · rintro ⟨i, hi, hk⟩
    obtain ⟨n, hn, hc⟩ := h i hi
    exact ⟨i, hi, (meets_input hn hc).mp ⟨i, List.mem_singleton_self i, hk⟩⟩
  · rintro ⟨i, hi, hT⟩
    exact ⟨i, hi, i, .refl, hT⟩

theorem meets_or : g.Meets (fun k => T k ∨ T' k) is ↔ g.Meets T is ∨ g.Meets T' is := by
  simp only [Meets, and_or_left, exists_or]

end Graph

/-! ### Programs that were read -/

namespace Program

variable {source name : String} {p : Program} {t : Task} {id : Nat}

/-- The task of a program that was read can be computed. -/
theorem sensible_of_parse (hp : parse source = .ok p) (ht : p.task name = .ok t) :
    t.Sensible p.graph := by
  have hscoped := wellScoped_of_parse hp
  obtain ⟨hinputs, houts⟩ := task_eq_ok hscoped ht
  refine ⟨fun id hid => ?_, fun hlt id hid => (houts id hid).unfolds ?_, outputs_ne_nil ht,
    fun i n hn hc => ?_, fun i n d hn hd => ?_⟩
  · rcases List.mem_append.mp hid with hid | hid
    · obtain ⟨n, hn, -⟩ := hscoped.inputs id (hinputs ▸ hid)
      exact ⟨n, hn⟩
    · exact (houts id hid).found
  · have hsize := (declared_of_parse hp).size_le hscoped
    rw [List.length_append, hinputs] at hlt
    exact Nat.le_trans hsize (by omega)
  · exact hinputs ▸ hscoped.computed i n hn hc
  · exact (((declared_of_parse hp).added hn).typed d hd).exists_typeOf

/-- The inputs of a task are not computed. -/
theorem WellScoped.inputs_of_task (hs : p.WellScoped) (hcompact : p.graph.Compact)
    (ht : p.task name = .ok t) : ∀ i ∈ t.inputs, ∃ n, p.graph.node? i = some n ∧ n.compute = none := by
  rw [(task_eq_ok hs ht).1]
  intro i hi
  obtain ⟨n, hn, hc⟩ := hs.inputs i hi
  exact ⟨n, hn, hc hcompact⟩

theorem task_eq_error {e : Error} (h : p.task name = .error e) : e = .parse .noComputation := by
  rw [task] at h
  split at h
  · exact (Except.error.inj h).symm
  · exact nomatch h
  · exact nomatch h

/-- The points of a node are the elements of a tensor or are counted for a reduction.  Those of an
arg-reduction are below its extent, which is a word. -/
theorem overflows_iff (hp : parse source = .ok p) :
    p.graph.Overflows id ↔ p.graph.Overcounts id ∨ p.graph.Oversized id := by
  constructor
  · rintro ⟨n, hn, hlarge⟩
    rw [Node.points] at hlarge
    cases hc : n.compute with
    | none =>
        rw [hc] at hlarge
        cases hk : n.kind with
        | scalar s =>
            rw [hk] at hlarge
            exact absurd hlarge (Nat.not_le.mpr Word.one_lt_limit)
        | tensor s shape =>
            rw [hk] at hlarge
            exact .inr ⟨n, s, shape, hn, hk, hlarge⟩
    | some d =>
        rw [hc] at hlarge
        obtain ⟨S, hunfolds, -⟩ := (wellScoped_of_parse hp).settled id n hn
        have hwf := (hunfolds.of_compute hn hc).1
        cases d with
        | grid shape axes value =>
            obtain ⟨s, hk⟩ := Compute.kind_of_grid hwf.suits
            exact .inr ⟨n, s, shape, hn, hk, hlarge⟩
        | reduce shape axes value op =>
            exact .inl ⟨shape, axes, value, op, Graph.compute?_eq_some hn hc, hlarge⟩
        | argReduce extent axis value op index =>
            have hextent := (hwf.extents extent (List.mem_singleton_self extent)).2
            have hprod : [extent].prod = extent := List.prod_singleton
            have hword : 2 ^ 63 ≤ Word.limit := by decide
            exact absurd (hprod ▸ hlarge) (Nat.not_le.mpr (Nat.lt_of_lt_of_le hextent hword))
  · rintro (h | ⟨n, s, shape, hn, hk, hlarge⟩)
    · exact h.overflows
    · refine ⟨n, hn, ?_⟩
      rw [Node.points]
      cases hc : n.compute with
      | none =>
          rw [hk]
          exact hlarge
      | some d =>
          have hsuits := ((declared_of_parse hp).fits (wellScoped_of_parse hp) hn hc).suits
          rw [hk] at hsuits
          cases d with
          | grid shape' axes value =>
              obtain rfl : shape = shape' := hsuits
              exact hlarge
          | reduce => exact hsuits.elim
          | argReduce => exact hsuits.elim

end Program

/-! ### Lowering -/

section Lowering

variable {source name : String} {kind : ProcKind} {p : Program} {t : Task}

theorem lowerSource_of_parse (hp : Program.parse source = .ok p) (ht : p.task name = .ok t) :
    lowerSource source name kind = (t.lower kind).result p.graph >>= fun r => .ok r.1 := by
  rw [lowerSource, hp, ok_bind, ht, ok_bind, Graph.Update.result]
  match (t.lower kind).run.run p.graph with
  | (.ok f, g)    => rfl
  | (.error e, g) => rfl

/-- Lowering a text that was read ends in a result, or where a count or an id is out of range. -/
theorem lowerSource_limited (hp : Program.parse source = .ok p) (ht : p.task name = .ok t) :
    Limited (p.graph.Meets p.graph.Overcounts t.outputs) (p.graph.nextVar + t.demand p.graph)
      (fun _ => True) (lowerSource source name kind) := by
  rw [lowerSource_of_parse hp ht]
  exact (Task.lower_limited (Program.sensible_of_parse hp ht) kind).map fun _ _ => trivial

end Lowering

/-! ### Flattening -/

namespace Task

variable {source name : String} {p : Program} {t : Task} {params : List Var} {d : Draft}

/-- A variable with too many elements is there for a tensor that has them. -/
theorem Lowered.exists_count_iff (h : t.Lowered p.graph params d) (hcompact : p.graph.Compact)
    (hp : Program.parse source = .ok p) (ht : p.task name = .ok t) :
    (∃ v ∈ params ++ d.locals, Word.limit ≤ v.ty.count) ↔
      p.graph.Meets p.graph.Oversized (t.inputs ++ t.outputs) := by
  have hscoped := Program.wellScoped_of_parse hp
  rw [Graph.meets_append, Graph.meets_inputs (hscoped.inputs_of_task hcompact ht)]
  constructor
  · rintro ⟨v, hv, hcount⟩
    obtain ⟨i, n, hi, hn, hty⟩ := h.exists_node hv
    cases hk : n.kind with
    | scalar s =>
        rw [hk] at hty
        obtain ⟨s, hty⟩ := hty
        rw [hty] at hcount
        exact absurd hcount (Nat.not_le.mpr Word.one_lt_limit)
    | tensor s shape =>
        rw [hk] at hty
        have hlarge : Word.limit ≤ shape.prod := by
          rwa [show v.ty = .tensor s shape from hty, Ty.count] at hcount
        have hnode : p.graph.Oversized i := ⟨n, s, shape, hn, hk, hlarge⟩
        refine hi.imp (fun hi => ⟨i, hi, hnode⟩) fun hi => hi.imp ?_
        rintro _ rfl
        exact hnode
  · intro hmet
    have hnode : ∃ i, (i ∈ t.inputs ∨ p.graph.Meets (· = i) t.outputs) ∧ p.graph.Oversized i := by
      rcases hmet with ⟨i, hi, hT⟩ | ⟨o, ho, i, hi, hT⟩
      · exact ⟨i, .inl hi, hT⟩
      · exact ⟨i, .inr ⟨o, ho, i, hi, rfl⟩, hT⟩
    obtain ⟨i, hi, n, s, shape, hn, hk, hlarge⟩ := hnode
    obtain ⟨v, hv, hty⟩ := h.exists_var (Program.spends_of_parse hp).2.1
      (Program.sensible_of_parse hp ht).inputs hn hk hi
    refine ⟨v, hv, ?_⟩
    rwa [hty]

end Task

section Flattening

variable {source name : String} {kind : ProcKind} {p : Program} {t : Task} {f : Procedure}

/-- **When lowered code is flattened.**  If a tensor is too large, the multiplication of its extents
overflows; otherwise nothing fails but the layout of an access. -/
theorem flatten_of_lowerSource (hp : Program.parse source = .ok p) (ht : p.task name = .ok t)
    (h : lowerSource source name kind = .ok f) :
    (p.graph.Meets p.graph.Oversized (t.inputs ++ t.outputs) →
        f.flatten = .error (.arithmetic .mulOverflow)) ∧
      (¬ p.graph.Meets p.graph.Oversized (t.inputs ++ t.outputs) →
        ∀ e, f.flatten = .error e → ∃ l, e = .layout l) := by
  obtain ⟨p', t', params, d, hp', ht', hcompact, hlowered, rfl⟩ := lowerSource_eq_ok h
  obtain rfl := Except.ok.inj (hp.symm.trans hp')
  obtain rfl := Except.ok.inj (ht.symm.trans ht')
  rw [← hlowered.exists_count_iff hcompact hp ht]
  refine ⟨?_, fun hsmall e he => ?_⟩
  · rintro ⟨v, hv, hcount⟩
    exact Procedure.flatten_overflows hv hcount
  · refine (Procedure.flatten_settles fun v hv => lowerSource_sized h hv ?_).error he
    rw [Procedure.vars, Stmt.vars_ofList] at hv
    rcases hlowered.scalar_or_mem (Program.spends_of_parse hp).2.1 hv with ⟨s, hty⟩ | hv
    · rw [hty]
      exact Word.one_lt_limit
    · exact Nat.not_le.mp fun hcount => hsmall ⟨v, hv, hcount⟩

/-- Where a text is lowered, what has too many points is reduced for an output, or is a tensor. -/
theorem meets_overflows_iff (hp : Program.parse source = .ok p) (ht : p.task name = .ok t)
    (h : lowerSource source name kind = .ok f) :
    p.graph.Meets p.graph.Overflows (t.inputs ++ t.outputs) ↔
      p.graph.Meets p.graph.Overcounts t.outputs ∨
        p.graph.Meets p.graph.Oversized (t.inputs ++ t.outputs) := by
  obtain ⟨p', _, _, _, hp', -, hcompact, -, -⟩ := lowerSource_eq_ok h
  obtain rfl := Except.ok.inj (hp.symm.trans hp')
  have hinputs := (Program.wellScoped_of_parse hp).inputs_of_task hcompact ht
  -- what is reduced is not an input
  have hreduced : p.graph.Meets p.graph.Overcounts (t.inputs ++ t.outputs) ↔
      p.graph.Meets p.graph.Overcounts t.outputs := by
    rw [Graph.meets_append, or_iff_right]
    rw [Graph.meets_inputs hinputs]
    rintro ⟨i, hi, hover⟩
    obtain ⟨n, hn, hc⟩ := hinputs i hi
    exact Graph.not_overcounts_input hn hc hover
  rw [← hreduced, ← Graph.meets_or]
  simp only [Graph.Meets, Program.overflows_iff hp]

/-- In a program that was read and has a task, numbers are out of range if the ids of the task run
out or a node that it takes in or meets has too many points. -/
theorem flatSource_arithmetic_iff (hp : Program.parse source = .ok p) (ht : p.task name = .ok t) :
    (∃ a, flatSource source name kind = .error (.arithmetic a)) ↔
      Word.idLimit ≤ p.graph.nextVar + t.demand p.graph ∨
        p.graph.Meets p.graph.Overflows (t.inputs ++ t.outputs) := by
  have hlimited : Limited _ _ _ (lowerSource source name kind) := lowerSource_limited hp ht
  rw [flatSource]
  cases h : lowerSource source name kind with
  | error e =>
      rw [h] at hlimited
      cases hlimited with
      | many hmany =>
          refine iff_of_true ⟨_, rfl⟩ (.inr (Graph.meets_append.mpr (.inr ?_)))
          exact hmany.imp fun _ => Graph.Overcounts.overflows
      | spent hspent => exact iff_of_true ⟨_, rfl⟩ (.inl hspent)
  | ok f =>
      rw [h] at hlimited
      obtain ⟨hlarge, hsmall⟩ := flatten_of_lowerSource hp ht h
      cases hlimited with
      | done hfew hids _ =>
          rw [or_iff_right (Nat.not_le.mpr hids), meets_overflows_iff hp ht h, or_iff_right hfew,
            ok_bind]
          refine ⟨?_, fun hmet => ⟨_, hlarge hmet⟩⟩
          rintro ⟨a, ha⟩
          by_contra hnot
          obtain ⟨l, hl⟩ := hsmall hnot _ ha
          cases hl

/-- Whatever stage fails, it fails regularly. -/
theorem flatSource_eq_error {e : Error} (h : flatSource source name kind = .error e) :
    e.Regular := by
  rcases bind_eq_error.mp h with hlower | ⟨f, hf, h⟩
  · rcases bind_eq_error.mp hlower with h | ⟨p, hp, h⟩
    · cases Program.parse_faults h with
      | lexical => exact ⟨nofun, nofun, nofun⟩
      | parse hne => exact ⟨fun h => hne (Error.parse.inj h), nofun, nofun⟩
      | graph hne => exact ⟨nofun, fun id h => hne id (Error.graph.inj h), nofun⟩
      | ids _ => exact .addOverflow
    · rcases bind_eq_error.mp h with h | ⟨t, ht, -⟩
      · obtain rfl := Program.task_eq_error h
        exact ⟨nofun, nofun, nofun⟩
      · have hlimited : Limited _ _ _ (lowerSource source name kind) := lowerSource_limited hp ht
        rw [hlower] at hlimited
        cases hlimited with
        | many _ => exact .mulOverflow
        | spent _ => exact .addOverflow
  · obtain ⟨p, t, _, _, hp, ht, -, -⟩ := lowerSource_eq_ok hf
    obtain ⟨hlarge, hsmall⟩ := flatten_of_lowerSource hp ht hf
    by_cases hmet : p.graph.Meets p.graph.Oversized (t.inputs ++ t.outputs)
    · obtain rfl := Except.error.inj (h.symm.trans (hlarge hmet))
      exact .mulOverflow
    · obtain ⟨l, rfl⟩ := hsmall hmet e h
      exact ⟨nofun, nofun, nofun⟩

end Flattening

/-- **When a number is out of range.**  Reading, lowering and flattening a text ends in an arithmetic
failure if and only if its axes use up the ids, or it has a task and the variables of the task use
them up, or an input, or a tensor or a reduction that the outputs are computed from, has more points
than a word can count.  Axes use up the ids only in a text with as many colons.  Every failure is
regular, so no number but a sum or a product is ever out of range and no index is. -/
theorem flatSource_overflows_iff (source name : String) (kind : ProcKind) :
    ((∃ a, flatSource source name kind = .error (.arithmetic a)) ↔
      Program.parse source = .error (.arithmetic .addOverflow) ∨
      ∃ p t, Program.parse source = .ok p ∧ p.task name = .ok t ∧
        (Word.idLimit ≤ p.graph.nextVar + t.demand p.graph ∨
          p.graph.Meets p.graph.Overflows (t.inputs ++ t.outputs))) ∧
    (Program.parse source = .error (.arithmetic .addOverflow) →
      Word.idLimit ≤ Lexeme.colons (Lexeme.scan source)) ∧
    ∀ e, flatSource source name kind = .error e → e.Regular := by
  refine ⟨⟨?_, ?_⟩, fun h => ?_, fun e => flatSource_eq_error⟩
  · rintro ⟨a, h⟩
    cases hp : Program.parse source with
    | error e =>
        have he : flatSource source name kind = .error e := by
          rw [flatSource, lowerSource, hp]
          rfl
        obtain rfl := Except.error.inj (he.symm.trans h)
        cases Program.parse_faults hp with
        | ids _ => exact .inl rfl
    | ok p =>
        cases ht : p.task name with
        | error e =>
            have he : flatSource source name kind = .error e := by
              rw [flatSource, lowerSource, hp, ok_bind, ht]
              rfl
            obtain rfl := Program.task_eq_error ht
            exact nomatch he.symm.trans h
        | ok t => exact .inr ⟨p, t, rfl, ht, (flatSource_arithmetic_iff hp ht).mp ⟨a, h⟩⟩
  · rintro (hp | ⟨p, t, hp, ht, hlimit⟩)
    · refine ⟨.addOverflow, ?_⟩
      rw [flatSource, lowerSource, hp]
      rfl
    · exact (flatSource_arithmetic_iff hp ht).mpr hlimit
  · cases Program.parse_faults h with
    | ids hcolons => exact hcolons

/-- A sum over more points than a word can count. -/
def wideSum : String := "let s = sum[i: 4294967296, j: 4294967296] => 1;"

/-- The product of two extents is no word, so the sum is not counted. -/
theorem flatSource_wideSum :
    flatSource wideSum "main" .host = .error (.arithmetic .mulOverflow) := by
  have hfails : (match flatSource wideSum "main" .host with
      | .ok _    => false
      | .error e => decide (e = .arithmetic .mulOverflow)) = true := by
    decide +kernel
  split at hfails
  · exact nomatch hfails
  · rename_i e he
    rw [he, of_decide_eq_true hfails]

end TensorLoops
