import TensorLoops.Proofs.Compute.Closed
import TensorLoops.Proofs.Source.WellFormed

/-!
# Proofs — Compute — Identifiers

Ids are given out once.  What an expansion makes, as storage or as a variable declared on the way,
takes the ids from the next one on in order, each for one variable (`Supply.Makes`), and its code
mentions nothing but axes of the graph, storage that was given and what was made (`Accounts`).  So
the axes, the parameters, the locals and the declared variables of a lowered task all have ids of
their own, and an id stands for one variable throughout the procedure (`lower_consistent`).

Any node of a graph that was read may be an output here, also one that stands inside another and
mentions its axes.
-/

namespace TensorLoops

open Program.Reader (NewAxes)

/-! ### Variables of statements -/

namespace Stmt

mutual

/-- The variables declared in a statement, at any depth. -/
def allDeclared : Stmt → List Var
  | .seq ss        => allDeclaredList ss
  | .declare v _   => [v]
  | .loop _ _ body => body.allDeclared
  | .cond _ yes no => yes.allDeclared ++ allDeclaredOption no
  | _              => []

def allDeclaredList : List Stmt → List Var
  | []      => []
  | s :: ss => s.allDeclared ++ allDeclaredList ss

def allDeclaredOption : Option Stmt → List Var
  | none   => []
  | some s => s.allDeclared

end

variable {ss ts : List Stmt}

@[simp] theorem allDeclaredList_append :
    allDeclaredList (ss ++ ts) = allDeclaredList ss ++ allDeclaredList ts := by
  induction ss with
  | nil => rfl
  | cons s ss ih => simp [allDeclaredList, ih]

/-- What a list declares does not depend on how it is made one statement. -/
@[simp] theorem allDeclared_ofList : (ofList ss).allDeclared = allDeclaredList ss := by
  unfold ofList
  split
  · simp [allDeclaredList]
  · rfl

@[simp] theorem varsList_append : varsList (ss ++ ts) = varsList ss ++ varsList ts := by
  induction ss with
  | nil => rfl
  | cons s ss ih => simp [varsList, ih]

@[simp] theorem vars_ofList : (ofList ss).vars = varsList ss := by
  unfold ofList
  split
  · simp [varsList]
  · rfl

end Stmt

namespace Expansion

open Stmt

/-- Loops declare nothing, their variables apart. -/
@[simp] theorem allDeclaredList_nest {loops : List (Var × Nat)} {ss : List Stmt} :
    allDeclaredList (nest loops ss) = allDeclaredList ss := by
  induction loops with
  | nil => rfl
  | cons l loops ih => simp [nest, allDeclaredList, allDeclared, ih]

/-- The variables of loops are those of the loops and of what is in them. -/
theorem varsList_nest {loops : List (Var × Nat)} {ss : List Stmt} :
    varsList (nest loops ss) = loops.map Prod.fst ++ varsList ss := by
  induction loops with
  | nil => rfl
  | cons l loops ih =>
      have hextent : (Expr.ofSize l.2).vars = [] := rfl
      simp [nest, varsList, Stmt.vars, hextent, ih]

/-! ### What is made -/

namespace Supply

/-- The storage made so far. -/
def vars (u : Supply) : List Var := u.created.entries.map Prod.snd

/-- What is made from `u` to `u'`, as storage or as declared variables `ds`, takes the ids from the
next one on in order. -/
def Makes (u : Supply) (ds : List Var) (u' : Supply) : Prop :=
  ∃ new : List Var, new.map (·.id) = List.range' u.nextVar new.length ∧
    u'.nextVar = u.nextVar + new.length ∧ (u'.vars ++ ds).Perm (u.vars ++ new)

namespace Makes

variable {u u₁ u' : Supply} {ds es : List Var}

theorem refl (u : Supply) : Makes u [] u := ⟨[], rfl, rfl, .refl _⟩

/-- What is made in two parts is made. -/
theorem trans (h : Makes u ds u₁) (h' : Makes u₁ es u') : Makes u (ds ++ es) u' := by
  obtain ⟨new, hids, hnext, hperm⟩ := h
  obtain ⟨new', hids', hnext', hperm'⟩ := h'
  refine ⟨new ++ new', ?ids, ?next, ?perm⟩
  case ids =>
    rw [List.map_append, hids, hids', hnext, List.length_append, List.range'_append_1]
  case next => rw [hnext', hnext, List.length_append, Nat.add_assoc]
  case perm =>
    calc (u'.vars ++ (ds ++ es)).Perm (u'.vars ++ (es ++ ds)) := List.perm_append_comm.append_left _
      _ = (u'.vars ++ es) ++ ds := (List.append_assoc ..).symm
      List.Perm _ ((u₁.vars ++ new') ++ ds) := hperm'.append_right ds
      _ = u₁.vars ++ (new' ++ ds) := List.append_assoc ..
      List.Perm _ (u₁.vars ++ (ds ++ new')) := List.perm_append_comm.append_left _
      _ = (u₁.vars ++ ds) ++ new' := (List.append_assoc ..).symm
      List.Perm _ ((u.vars ++ new) ++ new') := hperm.append_right new'
      _ = u.vars ++ (new ++ new') := List.append_assoc ..

/-- What has been made before is not lost. -/
theorem subset (h : Makes u ds u') : u.vars ⊆ u'.vars ++ ds := by
  obtain ⟨new, -, -, hperm⟩ := h
  exact fun v hv => hperm.mem_iff.mpr (List.mem_append_left _ hv)

/-- A variable that is declared. -/
theorem take {v : Var} (hv : v.id = u.nextVar) : Makes u [v] ⟨u.created, u.nextVar + 1⟩ :=
  ⟨[v], by simp [hv], rfl, .refl _⟩

/-- From an empty supply on, what is made has ids of its own. -/
theorem newAxes {next : Nat} (h : Makes ⟨.empty, next⟩ ds u') :
    next ≤ u'.nextVar ∧ NewAxes next u'.nextVar (u'.vars ++ ds) := by
  obtain ⟨new, hids, hnext, hperm⟩ := h
  rw [hnext]
  exact ⟨Nat.le_add_right _ _, (NewAxes.of_range hids).perm hperm⟩

end Makes

end Supply

open Supply

section Made

variable {c : Context} {id : Nat} {hint : String} {ty : Ty} {u u' : Supply} {v : Var}
  {base : List Var}

theorem mem_vars_of_find? (h : u.created.find? id = some v) : v ∈ u.vars :=
  List.mem_map_of_mem (f := Prod.snd) (Table.mem_of_find? h)

/-- Storage that is made takes the next id. -/
theorem Creates.makes (h : Creates id hint ty u v u') : Makes u [] u' := by
  cases h with
  | again _ => exact .refl u
  | fresh hnone =>
      refine ⟨[⟨u.nextVar, hint, ty⟩], rfl, rfl, ?_⟩
      rw [List.append_nil]
      exact ((Table.place_perm hnone).map Prod.snd).trans (List.perm_append_singleton _ _).symm

theorem Allots.makes (h : Allots c id hint ty u v u') : Makes u [] u' := by
  cases h with
  | given _ => exact .refl u
  | made _ h => exact h.makes

theorem Allots.mem (hgiven : ∀ (id : Nat) (v : Var), c.given.find? id = some v → v ∈ base)
    (h : Allots c id hint ty u v u') : v ∈ base ++ u'.vars := by
  rcases h.find? with hv | ⟨-, hv⟩
  · exact List.mem_append_left _ (hgiven id v hv)
  · exact List.mem_append_right _ (mem_vars_of_find? hv)

end Made

/-! ### What code mentions -/

/-- The variables known behind statements: those of `base`, and what was made as storage or
declared. -/
def known (base : List Var) (u : Supply) (ss : List Stmt) : List Var :=
  base ++ (u.vars ++ allDeclaredList ss)

/-- The statements account for the ids taken from `u` to `u'`.  They and the values after them
mention known variables only. -/
structure Accounts (base : List Var) (u : Supply) (ss : List Stmt) (es : List Expr) (u' : Supply) :
    Prop where
  makes  : Makes u (allDeclaredList ss) u'
  stmts  : varsList ss ⊆ known base u' ss
  values : ∀ e ∈ es, e.Closed (known base u' ss)

namespace Accounts

variable {base : List Var} {u u₁ u' : Supply} {ss ts : List Stmt} {es fs : List Expr}

theorem value {e : Expr} (h : Accounts base u ss [e] u') : e.Closed (known base u' ss) :=
  h.values e (List.mem_singleton_self e)

/-- What is given or was made before is known. -/
theorem mem_known {v : Var} (h : Accounts base u ss es u') (hv : v ∈ base ++ u.vars) :
    v ∈ known base u' ss := by
  rcases List.mem_append.mp hv with hv | hv
  · exact List.mem_append_left _ hv
  · exact List.mem_append_right _ (h.makes.subset hv)

theorem nil (hes : ∀ e ∈ es, e.Closed base) : Accounts base u [] es u :=
  ⟨.refl u, List.nil_subset _, fun e he => (hes e he).mono (List.subset_append_left _ _)⟩

/-- What is known stays known behind more statements. -/
theorem known_subset (h : Makes u₁ (allDeclaredList ts) u') :
    known base u₁ ss ⊆ known base u' (ss ++ ts) := by
  intro v hv
  have hkept : v ∈ u₁.vars → v ∈ u'.vars ++ allDeclaredList ts := fun hv => h.subset hv
  simp only [known, allDeclaredList_append, List.mem_append] at hv hkept ⊢
  tauto

/-- Statements that account for their ids do so one after the other. -/
theorem append (hs : Accounts base u ss es u₁) (ht : Accounts base u₁ ts fs u') :
    Accounts base u (ss ++ ts) (es ++ fs) u' := by
  have hleft : known base u₁ ss ⊆ known base u' (ss ++ ts) := known_subset ht.makes
  have hright : known base u' ts ⊆ known base u' (ss ++ ts) := by
    intro v hv
    simp only [known, allDeclaredList_append, List.mem_append] at hv ⊢
    tauto
  refine ⟨?makes, ?stmts, ?values⟩
  case makes =>
    rw [allDeclaredList_append]
    exact hs.makes.trans ht.makes
  case stmts =>
    rw [varsList_append]
    exact List.append_subset.mpr ⟨fun v hv => hleft (hs.stmts hv), fun v hv => hright (ht.stmts hv)⟩
  case values =>
    exact List.forall_mem_append.mpr
      ⟨fun e he => (hs.values e he).mono hleft, fun e he => (ht.values e he).mono hright⟩

/-- The values are put together. -/
theorem combine {e : Expr} (h : Accounts base u ss es u')
    (he : ∀ {scope}, (∀ e ∈ es, e.Closed scope) → e.Closed scope) : Accounts base u ss [e] u' :=
  ⟨h.makes, h.stmts, List.forall_mem_singleton.mpr (he h.values)⟩

end Accounts

/-! ### Code for nodes -/

section Code

variable {c : Context} {scope axes : List Var} {p : Piece} {shape : List Nat} {op : Reduction}
  {s index : Scalar} {id extent : Nat} {buf acc axis best position : Var} {test result : Expr}
  {ss : List Stmt}

theorem varsList_nest_subset (hloops : axes ⊆ scope) (hss : varsList ss ⊆ scope) :
    varsList (nest (axes.zip shape) ss) ⊆ scope := by
  rw [varsList_nest]
  refine List.append_subset.mpr ⟨fun v hv => ?_, hss⟩
  obtain ⟨l, hl, rfl⟩ := List.mem_map.mp hv
  exact hloops (List.of_mem_zip hl).1

/-- The loops of a grid mention its buffer, its axes and what its value does. -/
theorem varsList_gridStmts_subset (hbuf : buf ∈ scope) (haxes : axes ⊆ scope)
    (hss : varsList p.stmts ⊆ scope) (hvalue : p.value.Closed scope) :
    varsList (gridStmts shape axes buf p) ⊆ scope := by
  have hindices : Expr.varsList (axes.map .var) ⊆ scope :=
    Expr.Closed.varsList_subset (List.forall_mem_map.mpr fun v hv => .var (haxes hv))
  refine varsList_nest_subset haxes ?_
  simp only [varsList_append, varsList, Stmt.vars, List.append_nil, List.append_subset,
    List.cons_subset]
  exact ⟨hss, hbuf, hindices, hvalue.vars⟩

/-- The loops of a reduction mention its accumulator in place of a buffer. -/
theorem varsList_reduceStmts_subset (hacc : acc ∈ scope) (haxes : axes ⊆ scope)
    (hss : varsList p.stmts ⊆ scope) (hvalue : p.value.Closed scope) :
    varsList (reduceStmts shape axes op s acc p) ⊆ scope := by
  have hstart : (op.identity s).Closed scope := .const
  have hstep : (op.combine (.var acc) p.value).Closed scope := closed_combine (.var hacc) hvalue
  have hloops : varsList (nest (axes.zip shape)
      (p.stmts ++ [.assign acc (op.combine (.var acc) p.value)])) ⊆ scope := by
    refine varsList_nest_subset haxes ?_
    simp only [varsList_append, varsList, Stmt.vars, List.append_nil, List.append_subset,
      List.cons_subset]
    exact ⟨hss, hacc, hstep.vars⟩
  simp only [reduceStmts, varsList, Stmt.vars, List.append_subset, List.cons_subset]
  exact ⟨⟨hacc, hstart.vars⟩, hloops⟩

/-- The loops of an arg-reduction mention the best value and its position. -/
theorem varsList_argReduceStmts_subset (hbest : best ∈ scope) (hpos : position ∈ scope)
    (haxis : axis ∈ scope) (hss : varsList p.stmts ⊆ scope) (hvalue : p.value.Closed scope)
    (htest : test.Closed scope) :
    varsList (argReduceStmts extent axis op s index best position test p) ⊆ scope := by
  have hstart : (op.identity s).Closed scope := .const
  have hloops : varsList (nest ([axis].zip [extent]) (p.stmts ++ [.cond test (.seq
      [.assign best p.value, .assign position (.cast (.var axis) (.scalar index))]) none])) ⊆
      scope := by
    refine varsList_nest_subset (List.cons_subset.mpr ⟨haxis, List.nil_subset _⟩) ?_
    simp only [varsList_append, varsList, varsOption, Stmt.vars, Expr.vars, List.append_nil,
      List.append_subset, List.cons_subset]
    exact ⟨hss, htest.vars, ⟨hbest, hvalue.vars⟩, hpos, haxis, List.nil_subset _⟩
  simp only [argReduceStmts, varsList_append, varsList, Stmt.vars, Expr.vars, Option.elim_some,
    List.append_nil, List.append_subset, List.cons_subset]
  exact ⟨⟨⟨hbest, hstart.vars⟩, hpos, List.nil_subset _⟩, hloops⟩

@[simp] theorem allDeclaredList_gridStmts :
    allDeclaredList (gridStmts shape axes buf p) = allDeclaredList p.stmts := by
  simp [gridStmts, allDeclaredList, allDeclared]

@[simp] theorem allDeclaredList_reduceStmts :
    allDeclaredList (reduceStmts shape axes op s acc p) = allDeclaredList p.stmts := by
  simp [reduceStmts, allDeclaredList, allDeclared]

/-- An arg-reduction declares its best value as well. -/
@[simp] theorem allDeclaredList_argReduceStmts :
    allDeclaredList (argReduceStmts extent axis op s index best position test p) =
      best :: allDeclaredList p.stmts := by
  simp [argReduceStmts, allDeclaredList, allDeclaredOption, allDeclared]

@[simp] theorem allDeclaredList_writeBack :
    allDeclaredList (writeBack c id result ss) = allDeclaredList ss := by
  unfold writeBack
  split
  · simp [allDeclaredList, allDeclared]
  · rfl

/-- A result written back to given storage. -/
theorem Accounts.writeBack {base : List Var} {u u' : Supply}
    (hgiven : ∀ (id : Nat) (v : Var), c.given.find? id = some v → v ∈ base)
    (h : Accounts base u ss [result] u') :
    Accounts base u (Expansion.writeBack c id result ss) [result] u' := by
  have hknown : known base u' (Expansion.writeBack c id result ss) = known base u' ss := by
    rw [known, allDeclaredList_writeBack, known]
  refine ⟨by simpa using h.makes, ?stmts, hknown ▸ h.values⟩
  rw [hknown]
  unfold Expansion.writeBack
  split
  · rename_i v hv
    have hmem : v ∈ known base u' ss := List.mem_append_left _ (hgiven id v hv)
    simp only [varsList_append, varsList, Stmt.vars, List.append_nil, List.append_subset,
      List.cons_subset]
    exact ⟨h.stmts, hmem, h.value.vars⟩
  · exact h.stmts

end Code

/-! ### Expansions -/

section Expansions

variable {c : Context} {w : Nat} {base : List Var}

section Nodes

variable {u u₁ u' : Supply} {p : Piece} {axes : List Var}

/-- The loops of a grid account for its buffer and the ids of its value. -/
theorem gridStmts_accounts {shape : List Nat} {buf : Var} (hmakes : Makes u [] u₁)
    (hbuf : buf ∈ base ++ u₁.vars) (haxes : axes ⊆ base)
    (hp : Accounts base u₁ p.stmts [p.value] u') :
    Accounts base u (gridStmts shape axes buf p) [.var buf] u' := by
  have hbuf := hp.mem_known hbuf
  have haxes : axes ⊆ known base u' p.stmts := fun v hv => List.mem_append_left _ (haxes hv)
  have hknown : known base u' (gridStmts shape axes buf p) = known base u' p.stmts := by
    rw [known, allDeclaredList_gridStmts, known]
  refine ⟨by simpa using hmakes.trans hp.makes, ?stmts, ?values⟩
  case stmts => exact hknown ▸ varsList_gridStmts_subset hbuf haxes hp.stmts hp.value
  case values => exact hknown ▸ List.forall_mem_singleton.mpr (.var hbuf)

/-- The loops of a reduction account for its accumulator and the ids of its value. -/
theorem reduceStmts_accounts {shape : List Nat} {op : Reduction} {s : Scalar} {count : Nat}
    {acc : Var} (hmakes : Makes u [] u₁) (hacc : acc ∈ u₁.vars) (haxes : axes ⊆ base)
    (hp : Accounts base u₁ p.stmts [p.value] u') :
    Accounts base u (reduceStmts shape axes op s acc p) [op.finalize (.var acc) count] u' := by
  have hacc := hp.mem_known (List.mem_append_right _ hacc)
  have haxes : axes ⊆ known base u' p.stmts := fun v hv => List.mem_append_left _ (haxes hv)
  have hknown : known base u' (reduceStmts shape axes op s acc p) = known base u' p.stmts := by
    rw [known, allDeclaredList_reduceStmts, known]
  refine ⟨by simpa using hmakes.trans hp.makes, ?stmts, ?values⟩
  case stmts => exact hknown ▸ varsList_reduceStmts_subset hacc haxes hp.stmts hp.value
  case values => exact hknown ▸ List.forall_mem_singleton.mpr (closed_finalize (.var hacc))

/-- The best value takes an id of its own. -/
theorem argReduceStmts_accounts {extent : Nat} {axis best position : Var} {op : Reduction}
    {s index : Scalar} {test : Expr} (hmakes : Makes u [] u₁) (hpos : position ∈ u₁.vars)
    (hbest : best.id = u₁.nextVar) (haxis : axis ∈ base)
    (hp : Accounts base ⟨u₁.created, u₁.nextVar + 1⟩ p.stmts [p.value] u')
    (htest : op.better? p.value (.var best) = some test) :
    Accounts base u (argReduceStmts extent axis op s index best position test p) [.var position]
      u' := by
  let stmts := argReduceStmts extent axis op s index best position test p
  have hmore : known base u' p.stmts ⊆ known base u' stmts := by
    intro v hv
    simp only [stmts, known, allDeclaredList_argReduceStmts, List.mem_append, List.mem_cons] at hv ⊢
    tauto
  have hpos := hmore (hp.mem_known (List.mem_append_right _ hpos))
  have hbest' : best ∈ known base u' stmts := by simp [stmts, known]
  have haxis : axis ∈ known base u' stmts := List.mem_append_left _ haxis
  have hvalue := hp.value.mono hmore
  have htest := closed_better? hvalue (.var hbest') htest
  refine ⟨?makes, ?stmts, List.forall_mem_singleton.mpr (.var hpos)⟩
  case makes => simpa using hmakes.trans ((Makes.take hbest).trans hp.makes)
  case stmts =>
    exact varsList_argReduceStmts_subset hbest' hpos haxis (fun v hv => hmore (hp.stmts hv)) hvalue
      htest

end Nodes

/-- The axes of a node are axes of the graph. -/
theorem axes_subset {id : Nat} {n : Node} {d : Compute} (hn : c.graph.node? id = some n)
    (hd : n.compute = some d) : d.axes ⊆ c.graph.axes :=
  fun _ hv => Graph.mem_axes.mpr
    ⟨id, n, Graph.getElem?_of_node? hn, by simpa [Node.axes, hd] using hv⟩

/-- Axes of the graph and given storage are among the variables. -/
structure Covers (c : Context) (base : List Var) : Prop where
  axes  : c.graph.axes ⊆ base
  given : ∀ (id : Nat) (v : Var), c.given.find? id = some v → v ∈ base

mutual

/-- **Code for an expression accounts for the ids that it takes**, and so does code for a node. -/
theorem Expands.accounts (hb : Covers c base) : ∀ {S e u p u'}, Expands c w S e u p u' →
    S ⊆ c.graph.axes → Accounts base u p.stmts [p.value] u'
  | _, _, _, _, _, .var hv, hS => .nil (List.forall_mem_singleton.mpr (.var (hb.axes (hS hv))))
  | _, _, _, _, _, .const, _ => .nil (List.forall_mem_singleton.mpr .const)
  | _, _, _, _, _, .node _ _ h, hS => h.accounts hb hS
  | _, _, _, _, _, .binary hl hr, hS =>
      ((hl.accounts hb hS).append (hr.accounts hb hS)).combine fun h => by
        simp only [List.singleton_append, List.forall_mem_cons] at h
        exact h.1.binary h.2.1
  | _, _, _, _, _, .unary h, hS =>
      (h.accounts hb hS).combine fun h => (h _ List.mem_cons_self).unary
  | _, _, _, _, _, .cast h, hS =>
      (h.accounts hb hS).combine fun h => (h _ List.mem_cons_self).cast
  | _, _, _, _, _, .element _ _ h hs, hS =>
      ((h.accounts hb hS).append (hs.accounts hb hS)).combine fun h => by
        obtain ⟨hbase, hidxs⟩ := List.forall_mem_cons.mp h
        exact hbase.element hidxs

theorem ExpandsList.accounts (hb : Covers c base) : ∀ {S es u ss vs u'},
    ExpandsList c w S es u ss vs u' → S ⊆ c.graph.axes → Accounts base u ss vs u'
  | _, _, _, _, _, _, .nil, _ => .nil nofun
  | _, _, _, _, _, _, .cons h hs, hS => (h.accounts hb hS).append (hs.accounts hb hS)

/-- **The code of a node accounts for the ids it takes**, wherever axes of the graph are in
scope. -/
theorem Computes.accounts (hb : Covers c base) : ∀ {S id u p u'}, Computes c w S id u p u' →
    S ⊆ c.graph.axes → Accounts base u p.stmts [p.value] u'
  | _, _, _, _, _, .input _ _ hv, _ =>
      .nil (List.forall_mem_singleton.mpr (.var (hb.given _ _ hv)))
  | _, _, _, _, _, .grid hn _ hd _ hbuf he, hS => by
      have hin := axes_subset hn hd
      have hp := he.accounts hb (List.append_subset.mpr ⟨hin, hS⟩)
      exact gridStmts_accounts hbuf.makes (hbuf.mem hb.given) (fun v hv => hb.axes (hin hv)) hp
  | _, _, _, _, _, .reduce hn _ hd _ _ _ hacc he, hS => by
      have hin := axes_subset hn hd
      have hp := he.accounts hb (List.append_subset.mpr ⟨hin, hS⟩)
      exact (reduceStmts_accounts hacc.makes (mem_vars_of_find? hacc.find?)
        (fun v hv => hb.axes (hin hv)) hp).writeBack hb.given
  | _, _, _, _, _, .argReduce hn _ hd _ _ hpos he htest, hS => by
      have hin := axes_subset hn hd
      have hp := he.accounts hb (List.append_subset.mpr ⟨hin, hS⟩)
      exact (argReduceStmts_accounts hpos.makes (mem_vars_of_find? hpos.find?) rfl
        (hb.axes (hin (List.mem_singleton_self _))) hp htest).writeBack hb.given

end

end Expansions

end Expansion

/-! ### Tasks -/

theorem Consistent.of_nodup {vs ws : List Var} (h : (vs.map (·.id)).Nodup) (hws : ws ⊆ vs) :
    Consistent ws :=
  fun _ hv _ hw hid => List.inj_on_of_nodup_map h (hws hv) (hws hw) hid

namespace Task

open Expansion Stmt

/-- The variables made for a draft: the locals, and those declared in its statements. -/
def Draft.made (d : Draft) : List Var := d.locals ++ allDeclaredList d.stmts

/-- The variables made have ids of their own, from `lo` on.  Storage and statements know nothing
but these and the variables of `base`. -/
structure Draft.Accounted (base : List Var) (lo : Nat) (d : Draft) : Prop where
  made  : NewAxes lo d.nextVar d.made
  given : ∀ (id : Nat) (v : Var), d.storage.find? id = some v → v ∈ base ++ d.locals
  stmts : varsList d.stmts ⊆ base ++ d.made

section Drafts

variable {g : Graph} {base : List Var} {w lo : Nat}

/-- One more output adds its storage and what its code declares. -/
theorem made_add {d : Draft} {p : Piece} {u : Supply} :
    (d.add p u).made.Perm (d.made ++ (u.vars ++ allDeclaredList p.stmts)) := by
  simp only [Draft.made, Draft.add, allDeclaredList_append, allDeclaredList, allDeclared_ofList,
    List.append_nil, List.append_assoc]
  exact (List.perm_append_comm_assoc ..).append_left _

/-- One more output takes new ids. -/
theorem Draft.Accounted.add {d : Draft} {S : List Var} {id next : Nat} {p : Piece} {u : Supply}
    (hd : d.Accounted base lo) (hg : g.axes ⊆ base) (hlo : lo ≤ next) (hnext : d.nextVar ≤ next)
    (hS : S ⊆ g.axes) (h : Computes ⟨g, d.storage⟩ w S id ⟨.empty, next⟩ p u) :
    (d.add p u).Accounted base lo := by
  have hcovers : Covers ⟨g, d.storage⟩ (base ++ d.locals) :=
    ⟨fun v hv => List.mem_append_left _ (hg hv), hd.given⟩
  have hp := h.accounts hcovers hS
  obtain ⟨hle, hnew⟩ := hp.makes.newAxes
  have hmem : ∀ {v}, v ∈ (d.add p u).made ↔ v ∈ d.made ++ (u.vars ++ allDeclaredList p.stmts) :=
    made_add.mem_iff
  refine ⟨?made, ?given, ?stmts⟩
  case made => exact ((hd.made.mono (Nat.le_refl _) hnext).append hnew hlo hle).perm made_add
  case given =>
    intro id v hv
    rw [Draft.add, ← List.append_assoc]
    rcases Table.mem_of_find?_union hv with hv | hv
    · exact List.mem_append_left _ (hd.given id v hv)
    · exact List.mem_append_right _ (List.mem_map_of_mem hv)
  case stmts =>
    have hstmts : varsList (d.add p u).stmts = varsList d.stmts ++ varsList p.stmts := by
      simp [Draft.add, varsList]
    rw [hstmts]
    refine List.append_subset.mpr ⟨fun v hv => ?_, fun v hv => ?_⟩
    · have hv := hd.stmts hv
      simp only [List.mem_append, hmem] at hv ⊢
      tauto
    · have hlocals : v ∈ d.locals → v ∈ d.made := List.mem_append_left _
      have hv := hp.stmts hv
      simp only [known, List.mem_append, hmem] at hv ⊢
      tauto

/-- Outputs that are added one after the other keep a draft accounted for. -/
theorem Draft.Accounted.foldlM {ids : List Nat} {d d' : Draft} (hg : g.axes ⊆ base)
    (hids : ∀ id ∈ ids, ∃ S, g.Unfolds w S id ∧ S ⊆ g.axes) (hd : d.Accounted base g.nextVar)
    (h : ids.foldlM (addOutput g) d = .ok d') : d'.Accounted base g.nextVar := by
  induction ids generalizing d with
  | nil =>
      obtain rfl := pure_eq_ok.mp h
      exact hd
  | cons id ids ih =>
      obtain ⟨⟨S, hid, hS⟩, hids⟩ := List.forall_mem_cons.mp hids
      obtain ⟨d₁, hadd, h⟩ := bind_eq_ok.mp h
      obtain ⟨next, p, u, ⟨hlo, hnext, -⟩, hcomputes, rfl⟩ := addOutput_eq_ok hid hadd
      exact ih hids (hd.add hg hlo hnext hS hcomputes) h

/-- A draft without code is accounted for. -/
theorem Draft.Accounted.start {ids : List Nat} {axes params : List Var} :
    Draft.Accounted (axes ++ params) lo ⟨Table.ofList (ids.zip params), [], [], 0⟩ := by
  refine ⟨⟨List.nodup_nil, nofun⟩, fun id v hv => ?_, List.nil_subset _⟩
  have hv := (List.of_mem_zip (Table.mem_of_find?_ofList hv)).2
  simp [hv]

theorem Drafts.accounted {ids : List Nat} {d d' : Draft} (h : Drafts g w ids d d')
    (hg : g.axes ⊆ base) (hd : d.Accounted base g.nextVar) : d'.Accounted base g.nextVar := by
  induction h with
  | nil => exact hd
  | cons hlo hnext _ hcomputes _ ih =>
      exact ih (hd.add hg hlo hnext (List.nil_subset _) hcomputes)

/-- A lowered task mentions axes of the graph, its parameters and what it makes. -/
theorem Lowered.accounted {t : Task} {params : List Var} {d : Draft} (h : t.Lowered g params d) :
    d.Accounted (g.axes ++ params) (g.nextVar + (t.inputs ++ t.outputs).length) :=
  h.drafts.accounted (List.subset_append_left g.axes params) .start

/-- No id is used twice, neither among what was made nor among what was there before. -/
theorem Draft.Accounted.nodup {d : Draft} (hd : d.Accounted base lo) (hbase : NewAxes 0 lo base) :
    ((base ++ d.made).map (·.id)).Nodup := by
  -- without outputs the draft has no ids, and its bound is below `lo`
  have hmade := hd.made.mono (Nat.le_refl _) (Nat.le_max_left d.nextVar lo)
  exact (hbase.append hmade (Nat.zero_le _) (Nat.le_max_right _ _)).nodup

/-- A parameter fits a node that there is. -/
theorem node_of_fits {ids : List Nat} {params : List Var} (h : List.Forall₂ (Fits g) ids params) :
    ∀ id ∈ ids, ∃ n, g.node? id = some n := by
  induction h with
  | nil => exact nofun
  | cons hfits _ ih => exact List.forall_mem_cons.mpr ⟨hfits.imp fun _ h => h.1, ih⟩

end Drafts

/-- Any node can be an output: its code has only axes of the graph in scope. -/
theorem unfolds_in_axes {source : String} {p : Program} (hp : Program.parse source = .ok p)
    {id next : Nat} {n : Node} (hn : p.graph.node? id = some n) :
    ∃ S, Graph.Unfolds { p.graph with nextVar := next } p.graph.nextVar S id ∧
      S ⊆ p.graph.axes := by
  obtain ⟨S, hS, hsub⟩ := (Program.wellScoped_of_parse hp).settled id n hn
  refine ⟨S, ?_, hsub⟩
  exact hS.mono (p.graph.extends_nextVar _) (Nat.le_refl _) (List.Subset.refl _) fun _ => .inl

/-- **Ids are never used again.**  In a procedure made from a graph that was read, for any inputs
and outputs, the axes of the graph, the parameters, the locals and the variables declared in the
body have ids of their own.  The procedure mentions no other variables, so an id stands for one
variable throughout. -/
theorem lower_consistent {source : String} {p : Program} (hp : Program.parse source = .ok p)
    {t : Task} {kind : ProcKind} {f : Procedure}
    (h : ((t.lower kind).run.run p.graph).1 = .ok f) :
    Consistent f.vars ∧
      f.vars ⊆ p.graph.axes ++ f.params ++ (f.locals ++ f.body.allDeclared) ∧
      ((p.graph.axes ++ f.params ++ (f.locals ++ f.body.allDeclared)).map (·.id)).Nodup := by
  obtain ⟨params, d, -, hids, hfits, hfold, rfl⟩ := lower_eq_foldlM (Prod.ext h rfl)
  let g : Graph := { p.graph with nextVar := p.graph.nextVar + (t.inputs ++ t.outputs).length }
  have houts : ∀ id ∈ t.outputs, ∃ S, g.Unfolds p.graph.nextVar S id ∧ S ⊆ g.axes := by
    intro id hid
    obtain ⟨n, hn⟩ := node_of_fits hfits id (List.mem_append_right _ hid)
    exact unfolds_in_axes hp hn
  have hd : d.Accounted (g.axes ++ params) g.nextVar :=
    Draft.Accounted.start.foldlM (List.subset_append_left g.axes params) houts hfold
  have hbase := (Program.declared_of_parse hp).axes.append (.of_range hids) (Nat.zero_le _)
    (Nat.le_add_right _ _)
  have hnodup := hd.nodup hbase
  have hvars : params ++ d.locals ++ varsList d.stmts ⊆ p.graph.axes ++ params ++ d.made := by
    refine List.append_subset.mpr ⟨fun v hv => ?_, hd.stmts⟩
    simp only [Draft.made, List.mem_append] at hv ⊢
    tauto
  simp only [Procedure.vars, vars_ofList, allDeclared_ofList]
  exact ⟨.of_nodup hnodup hvars, hvars, hnodup⟩

/-- A position found twice, with the sum inside a grid, which mentions the axis of the grid, as an
output between. -/
def bestTwice : Task := ⟨"bestTwice", [0, 0], [3, 1, 3]⟩

/-- An arg-reduction that is lowered twice declares two best values, with ids of their own. -/
theorem lower_consistent_bestTwice : ∃ p f, Program.parse Program.rowMeans = .ok p ∧
    ((bestTwice.lower .kernel).run.run p.graph).1 = .ok f ∧ f.params.length = 5 ∧
    f.locals.length = 6 ∧ f.body.allDeclared.length = 2 ∧ Consistent f.vars := by
  have hok : (do
      let p ← Program.parse Program.rowMeans
      let f ← ((bestTwice.lower .kernel).run.run p.graph).1
      return decide (f.params.length = 5 ∧ f.locals.length = 6 ∧
        f.body.allDeclared.length = 2)) = Except.ok true := by
    decide +kernel
  obtain ⟨p, hp, hok⟩ := bind_eq_ok.mp hok
  obtain ⟨f, hf, hok⟩ := bind_eq_ok.mp hok
  obtain ⟨hparams, hlocals, hdeclared⟩ := of_decide_eq_true (pure_eq_ok.mp hok)
  exact ⟨p, f, hp, hf, hparams, hlocals, hdeclared, (lower_consistent hp hf).1⟩

end Task

end TensorLoops
