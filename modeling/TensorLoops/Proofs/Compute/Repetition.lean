import TensorLoops.Proofs.Compute.Calls
import TensorLoops.Proofs.Compute.Completion
import TensorLoops.Proofs.Compute.Lockstep

/-!
# Proofs — Compute — Repetition

Lowering a task twice.  Lowering leaves the nodes of the graph as they are and takes an id for each
parameter, whether or not it succeeds (`lower_after`); so a second run starts as the first did, only
from a higher counter.  Then everything in it is moved up alike (`lower_mirrors`): the second
procedure is the first one with its new ids shifted, and a failure is the same failure.
-/

namespace TensorLoops

namespace Graph.Update

variable {α β : Type} {g : Graph}

variable {u : Update α} {f : α → Update β}

/-- After a part that succeeds, the graph is that of the rest. -/
theorem after_bind_of_updates {a : α} {g₁ : Graph} (h : Updates u g a g₁) :
    (u >>= f).after g = (f a).after g₁ := by
  unfold after
  rw [ExceptT.run_bind, StateT.run_bind, h]
  rfl

theorem after_bind_of_error {e : Error} {g₁ : Graph} (h : u.run.run g = (.error e, g₁)) :
    (u >>= f).after g = g₁ := by
  unfold after
  rw [ExceptT.run_bind, StateT.run_bind, h]
  rfl

theorem result_of_run {r : Except Error α} {g₁ : Graph} (h : u.run.run g = (r, g₁)) :
    u.result g = r.map (·, g₁) := by
  unfold result
  rw [h]
  cases r <;> rfl

/-- What only looks at the graph does not matter for where an update leaves it. -/
theorem after_bind_of_looks (hf : ∀ a, Looks (f a)) : (u >>= f).after g = u.after g := by
  rcases hrun : u.run.run g with ⟨e | a, g₁⟩
  · rw [after_bind_of_error hrun, after, hrun]
  · rw [after_bind_of_updates hrun, hf a g₁, after, hrun]

end Graph.Update

namespace Task

open Expansion Graph.Update

variable {g : Graph} {w k : Nat}

/-! ### Parameters -/

/-- A parameter takes the next id, and the name and type of its node. -/
theorem paramFor_result {id : Nat} : (paramFor id).result g = g.node id >>= fun n =>
    Word.nextId g.nextVar >>= fun next =>
      .ok (⟨g.nextVar, n.name, n.kind.storage⟩, { g with nextVar := next }) := by
  simp only [paramFor, result_bind, result_get, result_lift, ok_bind, Graph.freshVar_result]
  cases g.node id <;> rfl

/-- On a graph with ids further up, a parameter is the shifted one. -/
theorem paramFor_mirrors (hw : w ≤ g.nextVar) (id : Nat) :
    Mirrors (Prod.map (Var.shift w k) (Graph.raise · k)) ((paramFor id).result g)
      ((paramFor id).result (g.raise k)) := by
  rw [paramFor_result, paramFor_result]
  have hnode : (g.raise k).node id = g.node id := rfl
  rw [hnode]
  cases g.node id with
  | error e => exact .error e
  | ok n =>
      refine (Mirrors.nextId k g.nextVar).bind fun next _ => .inl ?_
      simp only [Except.map, Prod.map, Var.shift_of_le hw]
      rfl

theorem params_mirrors (ids : List Nat) (hw : w ≤ g.nextVar) :
    Mirrors (Prod.map (List.map (Var.shift w k)) (Graph.raise · k)) ((ids.mapM paramFor).result g)
      ((ids.mapM paramFor).result (g.raise k)) := by
  induction ids generalizing g with
  | nil => exact .ok _
  | cons id ids ih =>
      simp only [List.mapM_cons, result_bind]
      refine (paramFor_mirrors hw id).bind fun r hr => ?_
      obtain ⟨-, -, hnext⟩ := paramFor_eq_ok (result_eq_ok.mp hr)
      refine (ih ?_).bind fun _ _ => .ok _
      rw [hnext]
      exact Nat.le_succ_of_le hw

theorem paramFor_careful {id : Nat} : Careful (paramFor id) :=
  looks_get.bind fun _ => looks_lift.bind fun _ => Graph.freshVar_careful

/-- Ids are taken for parameters as far as the nodes are there and ids are left. -/
theorem params_after (ids : List Nat) (g : Graph) : ∃ m,
    (ids.mapM paramFor).after g = g.raise m ∧
      ((∀ id ∈ ids, ∃ n, g.node? id = some n) → m = ids.length ∨
        (ids.mapM paramFor).result g = .error (.arithmetic .addOverflow) ∧
          Word.idLimit ≤ g.nextVar + ids.length) := by
  induction ids generalizing g with
  | nil => exact ⟨0, rfl, fun _ => .inl rfl⟩
  | cons id ids ih =>
      rcases hrun : (paramFor id).run.run g with ⟨e | v, g₁⟩
      · -- no id has been taken; as the node is there, none was left
        refine ⟨0, ?_, fun hids => .inr ?_⟩
        · rw [List.mapM_cons, after_bind_of_error hrun]
          exact paramFor_careful g e g₁ hrun
        · obtain ⟨⟨n, hn⟩, -⟩ := List.forall_mem_cons.mp hids
          have hresult := result_eq_error.mpr ⟨g₁, hrun⟩
          rw [List.mapM_cons, result_bind, hresult]
          rw [paramFor_result, Graph.node_eq_ok.mpr hn, ok_bind, Word.nextId] at hresult
          split at hresult
          · cases hresult
          · obtain rfl := Except.error.inj hresult
            refine ⟨rfl, ?_⟩
            rw [List.length_cons]
            omega
      · -- one id has been taken, and the others are taken from the graph so raised
        obtain ⟨-, -, hg₁⟩ := paramFor_eq_ok hrun
        obtain rfl : g₁ = g.raise 1 := hg₁
        obtain ⟨m, hafter, hm⟩ := ih (g.raise 1)
        refine ⟨1 + m, ?_, fun hids => ?_⟩
        · rw [List.mapM_cons, after_bind_of_updates hrun,
            after_bind_of_looks (fun _ => looks_pure), hafter]
          simp only [Graph.raise, Nat.add_assoc]
        · obtain ⟨-, hids⟩ := List.forall_mem_cons.mp hids
          rw [List.length_cons, Nat.add_comm ids.length]
          refine (hm hids).imp (congrArg (1 + ·)) fun hspent => ⟨?_, ?_⟩
          · rw [List.mapM_cons, result_bind, result_eq_ok.mpr hrun, ok_bind, result_bind, hspent.1]
            rfl
          · rw [← Nat.add_assoc]
            exact hspent.2

/-! ### Outputs -/

/-- A draft with room for `k` ids at `w`. -/
def Draft.shift (w k : Nat) (d : Draft) : Draft :=
  ⟨d.storage.map (Var.shift w k), d.locals.map (Var.shift w k),
    Stmt.renameList (Var.shift w k) d.stmts, d.nextVar + k⟩

theorem addOutput_mirrors (hg : g.VarsBelow w) {d : Draft} {next : Nat}
    (hw : w ≤ max g.nextVar d.nextVar)
    (hnext : max (g.nextVar + k) next = max g.nextVar d.nextVar + k) (id : Nat) :
    Mirrors (Draft.shift w k) (addOutput g d id)
      (addOutput (g.raise k) { d.shift w k with nextVar := next } id) := by
  have hid : ∀ v ∈ (Expr.node id).vars, v.id < w := by simp [Expr.vars]
  refine (Graph.expandFrom_mirrors hg hw hnext hid d.storage).bind fun x _ => .inl ?_
  have hlocals : (x.created.map (Var.shift w k)).entries.map Prod.snd =
      (x.created.entries.map Prod.snd).map (Var.shift w k) := by
    rw [Table.map, List.map_map, List.map_map]
    rfl
  refine congrArg Except.ok ?_
  simp only [Draft.shift, Expansion.shift, Table.map_union, Stmt.renameList_append, List.map_append,
    hlocals]
  rfl

/-- **The outputs from a higher counter.**  What is made of the last draft must not look at its
counter, which starts from nothing in both runs. -/
theorem foldlM_mirrors {α β : Type} {φ : α → β} {F : Draft → Except Error α}
    {F' : Draft → Except Error β} (hg : g.VarsBelow w) (hw : w ≤ g.nextVar)
    (hF : ∀ d next, Mirrors φ (F d) (F' { Draft.shift w k d with nextVar := next })) (ids : List Nat)
    {d : Draft} {next : Nat}
    (hnext : max (g.nextVar + k) next = max g.nextVar d.nextVar + k) :
    Mirrors φ (ids.foldlM (addOutput g) d >>= F)
      (ids.foldlM (addOutput (g.raise k)) { d.shift w k with nextVar := next } >>= F') := by
  induction ids generalizing d next with
  | nil => exact hF d next
  | cons id ids ih =>
      rw [List.foldlM_cons, List.foldlM_cons, bind_assoc, bind_assoc]
      refine (addOutput_mirrors hg (Nat.le_trans hw (Nat.le_max_left _ _)) hnext id).bind
        fun d' _ => ?_
      exact ih (Nat.add_max_add_right _ _ _)

/-! ### Whole tasks -/

/-- Lowering takes the parameters first, and then drafts the outputs. -/
theorem lower_result {t : Task} {kind : ProcKind} : (t.lower kind).result g =
    ((t.inputs ++ t.outputs).mapM paramFor).result g >>= fun r =>
      t.outputs.foldlM (addOutput r.2) ⟨.ofList ((t.inputs ++ t.outputs).zip r.1), [], [], 0⟩ >>=
        fun d => .ok (⟨t.name, kind, r.1, d.locals, .ofList d.stmts, .void⟩, r.2) := by
  simp only [lower, params, result_bind, result_get, result_lift, result_pure, ok_bind]
  cases ((t.inputs ++ t.outputs).mapM paramFor).result g with
  | error e => rfl
  | ok r =>
      simp only [ok_bind]
      cases t.outputs.foldlM (addOutput r.2)
        ⟨.ofList ((t.inputs ++ t.outputs).zip r.1), [], [], 0⟩ <;> rfl

/-- **Lowering from a higher counter** gives the same procedure up to the shift. -/
theorem lower_mirrors (hg : g.VarsBelow w) (hw : w ≤ g.nextVar) (t : Task) (kind : ProcKind) :
    Mirrors (Prod.map (Procedure.rename (Var.shift w k)) (Graph.raise · k))
      ((t.lower kind).result g) ((t.lower kind).result (g.raise k)) := by
  rw [lower_result, lower_result]
  refine (params_mirrors (t.inputs ++ t.outputs) hw).bind fun r hr => ?_
  obtain ⟨vs, g₁⟩ := r
  obtain ⟨-, -, rfl⟩ := Graph.mapM_fresh (R := fun node? id v =>
    ∃ n, node? id = some n ∧ v.ty = n.kind.storage) paramFor_eq_ok (result_eq_ok.mp hr)
  have hstorage : Table.ofList ((t.inputs ++ t.outputs).zip (vs.map (Var.shift w k))) =
      (Table.ofList ((t.inputs ++ t.outputs).zip vs)).map (Var.shift w k) := by
    rw [Table.map_ofList, List.zip_map_right]
    rfl
  have hraised : (g.raise (t.inputs ++ t.outputs).length).VarsBelow w := hg
  simp only [Prod.map]
  rw [hstorage]
  refine foldlM_mirrors (d := ⟨_, [], [], 0⟩) hraised (Nat.le_add_right_of_le hw)
    (fun d next => .inl ?_) t.outputs ?_
  · simp only [Except.map, Prod.map, Procedure.rename, Draft.shift, Stmt.rename_ofList]
  · simp only [Nat.max_zero]

/-- The graph after a lowering: only ids are taken. -/
theorem lower_after (t : Task) (kind : ProcKind) (g : Graph) : ∃ m,
    (t.lower kind).after g = g.raise m ∧
      ((∀ id ∈ t.inputs ++ t.outputs, ∃ n, g.node? id = some n) →
        m = (t.inputs ++ t.outputs).length ∨
          (t.lower kind).result g = .error (.arithmetic .addOverflow) ∧
            Word.idLimit ≤ g.nextVar + (t.inputs ++ t.outputs).length) := by
  obtain ⟨m, hafter, hm⟩ := params_after (t.inputs ++ t.outputs) g
  refine ⟨m, ?_, fun hids => (hm hids).imp_right fun hspent => ⟨?_, hspent.2⟩⟩
  · refine Eq.trans ?_ hafter
    exact after_bind_of_looks fun _ =>
      looks_get.bind_looks fun _ => looks_lift.bind_looks fun _ => looks_pure
  · rw [lower_result, hspent.1]
    rfl

end Task

namespace Program

open Graph.Update

/-- The variables of a graph that was read have ids below its counter. -/
theorem varsBelow_of_parse {source : String} {p : Program} (hp : parse source = .ok p) {w : Nat}
    (hw : p.graph.nextVar ≤ w) : p.graph.VarsBelow w := by
  intro id n d hn hc
  obtain ⟨S, hid, hS⟩ := (wellScoped_of_parse hp).settled id n hn
  obtain ⟨hwf, hvalue⟩ := hid.of_compute hn hc
  have haxes : ∀ v ∈ d.axes, v.id < w := fun v hv => Nat.lt_of_lt_of_le (hwf.below v hv) hw
  refine ⟨haxes, fun v hv => ?_⟩
  rcases List.mem_append.mp (hvalue.vars_subset hv) with hv | hv
  · exact haxes v hv
  · exact Nat.lt_of_lt_of_le ((declared_of_parse hp).axes.range v (hS hv)).2 hw

/-- **Lowering a task is repeatable.**  Take a program that was read, its graph with any number of
further ids given out, and lower a task twice.  The first run leaves the nodes as they are and, if
all nodes of the task exist, takes one id for each parameter, unless there are not so many.  If
neither run is out of ids, both fail by the same error or both succeed, and then the second
procedure is the first with the ids that were new to it moved up. -/
theorem lower_repeatable {source : String} {p : Program} (hp : parse source = .ok p) {w : Nat}
    (hw : p.graph.nextVar ≤ w) (t : Task) (kind : ProcKind) {r₁ r₂ : Except Error Procedure}
    {g₁ g₂ : Graph} (h₁ : (t.lower kind).run.run { p.graph with nextVar := w } = (r₁, g₁))
    (h₂ : (t.lower kind).run.run g₁ = (r₂, g₂)) :
    g₁.nodes = p.graph.nodes ∧
    ((∀ id ∈ t.inputs ++ t.outputs, ∃ n, p.graph.node? id = some n) →
      g₁.nextVar = w + (t.inputs ++ t.outputs).length ∨
        r₁ = .error (.arithmetic .addOverflow) ∧
          Word.idLimit ≤ w + (t.inputs ++ t.outputs).length) ∧
    (r₁ ≠ .error (.arithmetic .addOverflow) → r₂ ≠ .error (.arithmetic .addOverflow) →
      (∃ f, r₁ = .ok f ∧
        r₂ = .ok (f.rename (Var.shift w (t.inputs ++ t.outputs).length))) ∨
      ∃ e, r₁ = .error e ∧ r₂ = .error e) := by
  obtain ⟨m, hafter, hm⟩ := Task.lower_after t kind { p.graph with nextVar := w }
  obtain rfl : g₁ = Graph.raise { p.graph with nextVar := w } m := by
    rw [← hafter, after, h₁]
  have hspent : ∀ {e}, (t.lower kind).result { p.graph with nextVar := w } = .error e →
      r₁ = .error e := by
    intro e h
    obtain ⟨_, h⟩ := result_eq_error.mp h
    exact congrArg Prod.fst (h₁.symm.trans h)
  refine ⟨rfl, fun hids => (hm hids).imp (congrArg (w + ·)) fun h => ⟨hspent h.1, h.2⟩, ?_⟩
  intro hr₁ hr₂
  have hbelow : Graph.VarsBelow { p.graph with nextVar := w } w := varsBelow_of_parse hp hw
  have hmirrors := Task.lower_mirrors (k := m) hbelow (Nat.le_refl w) t kind
  rw [result_of_run h₁, result_of_run h₂] at hmirrors
  obtain rfl := hmirrors.fst.resolve_right hr₂
  cases r₁ with
  | error e => exact .inr ⟨e, rfl, rfl⟩
  | ok f =>
      -- a procedure was made, so all parameters were, and the second run is that much higher
      have hlength : m = (t.inputs ++ t.outputs).length := by
        obtain ⟨_, _, -, -, hfits, -⟩ := Task.lower_eq_foldlM h₁
        refine (hm fun id hid => ?_).resolve_right fun h => hr₁ (hspent h.1)
        obtain ⟨_, -, n, hn, -⟩ := exists_of_forall₂ hfits.flip hid
        exact ⟨n, hn⟩
      exact .inl ⟨f, rfl, by rw [← hlength]; rfl⟩

/-- The second time, `rowMeans` is lowered with ids that are three higher. -/
theorem lower_repeatable_rowMeans : ∃ p t f g, parse rowMeans = .ok p ∧ p.task "means" = .ok t ∧
    (t.lower .kernel).run.run p.graph = (.ok f, g) ∧ g.nextVar = p.graph.nextVar + 3 ∧
    ((t.lower .kernel).run.run g).1 = .ok (f.rename (Var.shift p.graph.nextVar 3)) := by
  have hok : (do
      let p ← parse rowMeans
      let t ← p.task "means"
      let first := (t.lower .kernel).run.run p.graph
      let _ ← first.1
      let _ ← ((t.lower .kernel).run.run first.2).1
      return decide ((t.inputs ++ t.outputs).length = 3) &&
        (t.inputs ++ t.outputs).all fun id => (p.graph.node? id).isSome) = Except.ok true := by
    decide +kernel
  obtain ⟨p, hp, hok⟩ := bind_eq_ok.mp hok
  obtain ⟨t, ht, hok⟩ := bind_eq_ok.mp hok
  obtain ⟨f, hf, hok⟩ := bind_eq_ok.mp hok
  obtain ⟨f', hf', hok⟩ := bind_eq_ok.mp hok
  obtain ⟨hlength, hnodes⟩ := (Bool.and_eq_true _ _).mp (pure_eq_ok.mp hok)
  obtain ⟨-, hnext, hagain⟩ := lower_repeatable hp (Nat.le_refl _) t .kernel rfl rfl
  have hids : ∀ id ∈ t.inputs ++ t.outputs, ∃ n, p.graph.node? id = some n :=
    fun id hid => Option.isSome_iff_exists.mp (List.all_eq_true.mp hnodes id hid)
  rw [of_decide_eq_true hlength] at hnext hagain
  refine ⟨p, t, f, _, hp, ht, Prod.ext hf rfl, ?_, ?_⟩
  · refine (hnext hids).resolve_right fun h => ?_
    cases hf.symm.trans h.1
  · have hfirst := hagain (fun h => by cases hf.symm.trans h)
    rcases hfirst (fun h => by cases hf'.symm.trans h) with ⟨f₁, hf₁, h⟩ | ⟨e, he, -⟩
    · obtain rfl := Except.ok.inj (hf.symm.trans hf₁)
      exact h
    · cases hf.symm.trans he

end Program

end TensorLoops
