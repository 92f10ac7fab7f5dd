import TensorLoops.Compute.Lowering
import TensorLoops.Proofs.Compute.Supply
import TensorLoops.Proofs.Source.WellFormed

/-!
# Proofs — Compute — Drafts

What lowering a task has done.  Every input and output gets a parameter with a new id, and then
the outputs are computed one after another (`Drafts`), each with the storage known so far and with
ids that nothing known has.  `lowerSource_eq_ok` says so of a whole text.
-/

namespace TensorLoops

namespace Expansion

variable {c : Context}

/-- Ids are given out above all that are in use. -/
theorem firstVar_eq_ok {first next : Nat} (h : firstVar c first = .ok next) :
    c.graph.nextVar ≤ next ∧ first ≤ next ∧ ∀ e ∈ c.given.entries, e.2.id < next := by
  have step : ∀ {es : List (Nat × Var)} {m : Nat},
      es.foldlM (fun m e => return max m (← Word.nextId e.2.id)) m = .ok next →
      m ≤ next ∧ ∀ e ∈ es, e.2.id < next := by
    intro es
    induction es with
    | nil =>
        intro m h
        obtain rfl := pure_eq_ok.mp h
        exact ⟨Nat.le_refl _, nofun⟩
    | cons e es ih =>
        intro m h
        obtain ⟨m₁, hm₁, h⟩ := bind_eq_ok.mp h
        obtain ⟨next', hnext, hm₁⟩ := bind_eq_ok.mp hm₁
        obtain rfl := pure_eq_ok.mp hm₁
        obtain ⟨-, rfl⟩ := Word.nextId_eq_ok.mp hnext
        obtain ⟨hle, hes⟩ := ih h
        exact ⟨by omega, List.forall_mem_cons.mpr ⟨by omega, hes⟩⟩
  obtain ⟨hle, hgiven⟩ := step h
  exact ⟨by omega, by omega, hgiven⟩

theorem expandAll_eq_ok {e : Expr} {s : State} {r : Piece × State} (h : expandAll c e s = .ok r) :
    ∃ f, Expander c f ∧ expandExpr f e s = .ok r := by
  unfold expandAll at h
  split at h
  · exact ⟨_, .watched _ _, h⟩
  · exact ⟨_, .plain _, h⟩

end Expansion

namespace Task

open Expansion

/-- The draft after one more output. -/
def Draft.add (d : Draft) (p : Piece) (u : Supply) : Draft :=
  ⟨d.storage.union u.created, d.locals ++ u.created.entries.map Prod.snd,
    d.stmts ++ [.ofList p.stmts], u.nextVar⟩

/-- The outputs are computed one after another, each with the storage known before it and with
new ids from there on. -/
inductive Drafts (g : Graph) (w : Nat) : List Nat → Draft → Draft → Prop where
  | nil {d} : Drafts g w [] d d
  | cons {id ids d next p u d'} : g.nextVar ≤ next → d.nextVar ≤ next →
      (∀ e ∈ d.storage.entries, e.2.id < next) →
      Computes ⟨g, d.storage⟩ w [] id ⟨.empty, next⟩ p u → Drafts g w ids (d.add p u) d' →
      Drafts g w (id :: ids) d d'

/-- Adding an output computes its node, from an id that is not in use. -/
theorem addOutput_eq_ok {g : Graph} {w id : Nat} {S : List Var} (hid : g.Unfolds w S id)
    {d d' : Draft} (h : addOutput g d id = .ok d') :
    ∃ next p u, (g.nextVar ≤ next ∧ d.nextVar ≤ next ∧ ∀ e ∈ d.storage.entries, e.2.id < next) ∧
      Computes ⟨g, d.storage⟩ w S id ⟨.empty, next⟩ p u ∧ d' = d.add p u := by
  obtain ⟨x, hx, h⟩ := bind_eq_ok.mp h
  obtain rfl := pure_eq_ok.mp h
  obtain ⟨next, hnext, h⟩ := bind_eq_ok.mp hx
  obtain ⟨⟨p, s⟩, hall, h⟩ := bind_eq_ok.mp h
  obtain rfl := pure_eq_ok.mp h
  obtain ⟨f, hf, hexpand⟩ := expandAll_eq_ok hall
  obtain ⟨f', hf', hdefined⟩ := hf.defined hexpand
  exact ⟨next, p, s.supply, firstVar_eq_ok hnext, expandDefined_eq_ok hid hf' hdefined, rfl⟩

/-- Outputs are added one after the other. -/
theorem drafts_of_foldlM {g : Graph} {w : Nat} {ids : List Nat}
    (hids : ∀ id ∈ ids, g.Unfolds w [] id) {d d' : Draft}
    (h : ids.foldlM (addOutput g) d = .ok d') : Drafts g w ids d d' := by
  induction ids generalizing d with
  | nil =>
      obtain rfl := pure_eq_ok.mp h
      exact .nil
  | cons id ids ih =>
      obtain ⟨hid, hids⟩ := List.forall_mem_cons.mp hids
      obtain ⟨d₁, hadd, h⟩ := bind_eq_ok.mp h
      obtain ⟨next, p, u, ⟨hg, hd, hgiven⟩, hcomputes, rfl⟩ := addOutput_eq_ok hid hadd
      exact .cons hg hd hgiven hcomputes (ih hids h)

/-! ### Parameters -/

/-- Storage that fits a node. -/
def Fits (g : Graph) (id : Nat) (v : Var) : Prop :=
  ∃ n, g.node? id = some n ∧ v.ty = n.kind.storage

theorem paramFor_eq_ok {g g' : Graph} {id : Nat} {v : Var}
    (h : Graph.Updates (paramFor id) g v g') :
    v.id = g.nextVar ∧ Fits g id v ∧ g' = { g with nextVar := g.nextVar + 1 } := by
  simp only [paramFor, Graph.updates_bind, Graph.updates_get, Graph.updates_lift,
    Graph.node_eq_ok] at h
  obtain ⟨_, _, ⟨rfl, rfl⟩, n, _, ⟨hn, rfl⟩, h⟩ := h
  obtain ⟨rfl, rfl⟩ := Graph.freshVar_eq_ok h
  exact ⟨rfl, ⟨n, hn, rfl⟩, rfl⟩

/-- Where parameters have been made, the ids were enough for them. -/
theorem mapM_paramFor_lt {g g' : Graph} {ids : List Nat} {vs : List Var} (hids : ids ≠ [])
    (h : Graph.Updates (ids.mapM paramFor) g vs g') : g'.nextVar < Word.idLimit := by
  induction ids generalizing g vs with
  | nil => exact absurd rfl hids
  | cons id ids ih =>
      simp only [List.mapM_cons, Graph.updates_bind, Graph.updates_pure] at h
      obtain ⟨v, g₁, hv, us, _, hus, rfl, rfl⟩ := h
      cases ids with
      | cons id' ids => exact ih (List.cons_ne_nil _ _) hus
      | nil =>
          rw [List.mapM_nil] at hus
          obtain ⟨-, rfl⟩ := Graph.updates_pure.mp hus
          simp only [paramFor, Graph.updates_bind, Graph.updates_get, Graph.updates_lift] at hv
          obtain ⟨_, _, ⟨rfl, rfl⟩, n, _, ⟨-, rfl⟩, hv⟩ := hv
          exact Graph.freshVar_lt hv

/-- What is known of a lowered task. -/
structure Lowered (t : Task) (g : Graph) (params : List Var) (d : Draft) : Prop where
  ids    : params.map (·.id) = List.range' g.nextVar (t.inputs ++ t.outputs).length
  fits   : List.Forall₂ (Fits g) (t.inputs ++ t.outputs) params
  drafts : Drafts { g with nextVar := g.nextVar + (t.inputs ++ t.outputs).length } g.nextVar t.outputs
    ⟨Table.ofList ((t.inputs ++ t.outputs).zip params), [], [], 0⟩ d

/-- Parameters are made for all inputs and outputs, and then the outputs are added in order. -/
theorem lower_eq_foldlM {t : Task} {kind : ProcKind} {g g' : Graph} {f : Procedure}
    (h : Graph.Updates (t.lower kind) g f g') :
    ∃ params d, (t.inputs ++ t.outputs ≠ [] →
        g.nextVar + (t.inputs ++ t.outputs).length < Word.idLimit) ∧
      params.map (·.id) = List.range' g.nextVar (t.inputs ++ t.outputs).length ∧
      List.Forall₂ (Fits g) (t.inputs ++ t.outputs) params ∧
      t.outputs.foldlM (addOutput { g with nextVar := g.nextVar + (t.inputs ++ t.outputs).length })
        ⟨Table.ofList ((t.inputs ++ t.outputs).zip params), [], [], 0⟩ = .ok d ∧
      f = ⟨t.name, kind, params, d.locals, .ofList d.stmts, .void⟩ := by
  simp only [lower, Graph.updates_bind, Graph.updates_get, Graph.updates_lift,
    Graph.updates_pure] at h
  obtain ⟨params, _, hparams, _, _, ⟨rfl, rfl⟩, d, _, ⟨hfold, rfl⟩, rfl, rfl⟩ := h
  obtain ⟨hids, hfits, rfl⟩ := Graph.mapM_fresh (R := fun node? id v =>
    ∃ n, node? id = some n ∧ v.ty = n.kind.storage) paramFor_eq_ok hparams
  exact ⟨params, d, fun hne => mapM_paramFor_lt hne hparams, hids, hfits, hfold, rfl⟩

/-- **What a task is lowered to**: its parameters, and a draft of its outputs. -/
theorem lower_eq_ok {t : Task} {kind : ProcKind} {g g' : Graph} {f : Procedure}
    (houts : ∀ id ∈ t.outputs, g.Unfolds g.nextVar [] id)
    (h : Graph.Updates (t.lower kind) g f g') :
    ∃ params d, t.Lowered g params d ∧
      f = ⟨t.name, kind, params, d.locals, .ofList d.stmts, .void⟩ := by
  obtain ⟨params, d, -, hids, hfits, hfold, rfl⟩ := lower_eq_foldlM h
  refine ⟨params, d, ⟨hids, hfits, drafts_of_foldlM (fun id hid => ?_) hfold⟩, rfl⟩
  exact (houts id hid).mono (g.extends_nextVar _) (Nat.le_refl _) (List.Subset.refl _) fun _ => .inl

end Task

/-- A task has something to write. -/
theorem Program.outputs_ne_nil {p : Program} {name : String} {t : Task}
    (h : p.task name = .ok t) : t.outputs ≠ [] := by
  unfold task at h
  split at h
  · cases h
  · obtain rfl := Except.ok.inj h
    exact List.cons_ne_nil _ _
  · rename_i hnone hlast
    obtain rfl := Except.ok.inj h
    intro hnil
    cases hbindings : p.bindings.getLast? with
    | none => exact hnone hnil hbindings
    | some b => exact hlast b.1 b.2 hnil hbindings

/-- Every input of a program takes the id of a parameter and every other node that of an axis, so
where the program is lowered there are ids for all nodes. -/
theorem Program.compact_of_lower {source name : String} {p : Program} {t : Task} {kind : ProcKind}
    {g : Graph} {f : Procedure} (hp : parse source = .ok p) (ht : p.task name = .ok t)
    (h : Graph.Updates (t.lower kind) p.graph f g) : p.graph.Compact := by
  obtain ⟨hinputs, -⟩ := task_eq_ok (wellScoped_of_parse hp) ht
  obtain ⟨_, _, hlt, -⟩ := Task.lower_eq_foldlM h
  have hids := hlt (List.append_ne_nil_of_right_ne_nil _ (outputs_ne_nil ht))
  have hsize := (declared_of_parse hp).size_le (wellScoped_of_parse hp)
  rw [List.length_append, hinputs] at hids
  exact Nat.le_trans hsize (by omega)

theorem lowerSource_eq_ok {source name : String} {kind : ProcKind} {f : Procedure}
    (h : lowerSource source name kind = .ok f) :
    ∃ p t params d, Program.parse source = .ok p ∧ p.task name = .ok t ∧ p.graph.Compact ∧
      t.Lowered p.graph params d ∧ f = ⟨t.name, kind, params, d.locals, .ofList d.stmts, .void⟩ := by
  obtain ⟨p, hp, h⟩ := bind_eq_ok.mp h
  obtain ⟨t, ht, h⟩ := bind_eq_ok.mp h
  have hcompact := Program.compact_of_lower hp ht (Prod.ext h rfl)
  obtain ⟨-, houts⟩ := Program.task_eq_ok (Program.wellScoped_of_parse hp) ht
  obtain ⟨params, d, hlowered, hf⟩ :=
    Task.lower_eq_ok (fun id hid => (houts id hid).unfolds hcompact) (Prod.ext h rfl)
  exact ⟨p, t, params, d, hp, ht, hcompact, hlowered, hf⟩

end TensorLoops
