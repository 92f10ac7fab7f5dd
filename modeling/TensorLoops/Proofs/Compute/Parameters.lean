import TensorLoops.Proofs.Compute.Identifiers
import TensorLoops.Proofs.Compute.Meaning
import TensorLoops.Proofs.Compute.Reached

/-!
# Proofs — Compute — Parameters

Which parameters of a procedure are written and which are read.  Code for a node writes to the
storage given for every computed node that is met on the way (`Computes.mem_writes`) and reads what
is given for inputs and tensors (`Computes.mem_reads`).  There is a parameter for every entry of the
lists of inputs and outputs, but one storage for every node, that of its last entry.  So the
parameter of an entry is written if the node is computed and not listed again, and the parameter of
an input is read if the input is not listed again as an output (`lowerSource_params`).
-/

namespace TensorLoops

open Relation

/-! ### Writes and reads of statements -/

namespace Stmt

mutual

/-- The variables that are assigned or stored to, at any depth. -/
def writes : Stmt → List Var
  | .seq ss         => writesList ss
  | .declare _ _    => []
  | .assign v _     => [v]
  | .store buf _ _  => [buf]
  | .loop _ _ body  => body.writes
  | .cond _ yes no  => yes.writes ++ writesOption no
  | .eval _         => []
  | .ret _          => []
  | .asm a          => Expr.varsList (a.outputs.map AsmOperand.value)

def writesList : List Stmt → List Var
  | []      => []
  | s :: ss => s.writes ++ writesList ss

def writesOption : Option Stmt → List Var
  | none   => []
  | some s => s.writes

end

mutual

/-- The variables in the expressions of a statement, at any depth. -/
def reads : Stmt → List Var
  | .seq ss              => readsList ss
  | .declare _ init      => init.elim [] Expr.vars
  | .assign _ value      => value.vars
  | .store _ idxs val    => Expr.varsList idxs ++ val.vars
  | .loop _ extent body  => extent.vars ++ body.reads
  | .cond test yes no    => test.vars ++ yes.reads ++ readsOption no
  | .eval e              => e.vars
  | .ret e               => e.vars
  | .asm a               => Expr.varsList (a.inputs.map AsmOperand.value)

def readsList : List Stmt → List Var
  | []      => []
  | s :: ss => s.reads ++ readsList ss

def readsOption : Option Stmt → List Var
  | none   => []
  | some s => s.reads

end

variable {ss ts : List Stmt}

@[simp] theorem writesList_append : writesList (ss ++ ts) = writesList ss ++ writesList ts := by
  induction ss with
  | nil => rfl
  | cons s ss ih => simp [writesList, ih]

@[simp] theorem readsList_append : readsList (ss ++ ts) = readsList ss ++ readsList ts := by
  induction ss with
  | nil => rfl
  | cons s ss ih => simp [readsList, ih]

/-- What a list writes does not depend on how it is made one statement. -/
@[simp] theorem writes_ofList : (ofList ss).writes = writesList ss := by
  unfold ofList
  split
  · simp [writesList]
  · rfl

@[simp] theorem reads_ofList : (ofList ss).reads = readsList ss := by
  unfold ofList
  split
  · simp [readsList]
  · rfl

end Stmt

namespace Expansion

open Stmt Supply

/-- Loops write what is written in them. -/
@[simp] theorem writesList_nest {loops : List (Var × Nat)} {ss : List Stmt} :
    writesList (nest loops ss) = writesList ss := by
  induction loops with
  | nil => rfl
  | cons l loops ih => simp [nest, writesList, writes, ih]

/-- Extents are literals, so loops read what is read in them. -/
@[simp] theorem readsList_nest {loops : List (Var × Nat)} {ss : List Stmt} :
    readsList (nest loops ss) = readsList ss := by
  induction loops with
  | nil => rfl
  | cons l loops ih =>
      have hextent : (Expr.ofSize l.2).vars = [] := rfl
      simp [nest, readsList, reads, hextent, ih]

/-! ### Code for nodes -/

section Code

variable {c : Context} {axes : List Var} {p : Piece} {shape : List Nat} {op : Reduction}
  {s index : Scalar} {id extent count : Nat} {v buf acc axis best position : Var}
  {test result : Expr} {ss : List Stmt}

theorem mem_writes_gridStmts :
    v ∈ writesList (gridStmts shape axes buf p) ↔ v ∈ writesList p.stmts ∨ v = buf := by
  simp [gridStmts, writesList, writes]

/-- A reduction writes its accumulator. -/
theorem mem_writes_reduceStmts :
    v ∈ writesList (reduceStmts shape axes op s acc p) ↔ v ∈ writesList p.stmts ∨ v = acc := by
  simp only [reduceStmts, writesList, writes, writesList_nest, writesList_append, List.append_nil,
    List.mem_append, List.mem_singleton]
  tauto

/-- An arg-reduction writes the best value and its position. -/
theorem mem_writes_argReduceStmts :
    v ∈ writesList (argReduceStmts extent axis op s index best position test p) ↔
      v ∈ writesList p.stmts ∨ v = best ∨ v = position := by
  simp only [argReduceStmts, writesList, writesOption, writes, writesList_nest, writesList_append,
    List.append_nil, List.nil_append, List.mem_append, List.mem_singleton]
  tauto

/-- The result is written to the storage given for the node. -/
theorem mem_writes_writeBack : v ∈ writesList (writeBack c id result ss) ↔
    v ∈ writesList ss ∨ c.given.find? id = some v := by
  unfold writeBack
  split
  · rename_i x hx
    simp [hx, writesList, writes, eq_comm]
  · rename_i hnone
    simp [hnone]

theorem vars_finalize : (op.finalize (.var acc) count).vars = [acc] := by
  cases op <;> rfl

theorem vars_identity : (op.identity s).vars = [] := by
  cases op <;> rfl

/-- The step of a reduction reads the accumulator and the value. -/
theorem mem_vars_combine {e : Expr} :
    v ∈ (op.combine (.var acc) e).vars ↔ v = acc ∨ v ∈ e.vars := by
  cases op <;> simp [Reduction.combine, Expr.add, Expr.mul, Expr.max, Expr.min, Expr.vars]

/-- The test of an arg-reduction reads the value and the best so far. -/
theorem mem_vars_better? {e : Expr} (h : op.better? e (.var best) = some test) :
    v ∈ test.vars ↔ v ∈ e.vars ∨ v = best := by
  unfold Reduction.better? at h
  split at h <;> cases h <;> simp [Expr.gt, Expr.lt, Expr.vars]

theorem varsList_map_var : Expr.varsList (axes.map .var) = axes := by
  induction axes with
  | nil => rfl
  | cons v axes ih => simp [Expr.varsList, Expr.vars, ih]

/-- What is read by code for a value: in its statements, or by the value that they make
available. -/
def Piece.Reads (p : Piece) (v : Var) : Prop := v ∈ readsList p.stmts ∨ v ∈ p.value.vars

theorem mem_reads_gridStmts (hv : v ∉ axes) :
    v ∈ readsList (gridStmts shape axes buf p) ↔ p.Reads v := by
  simp [gridStmts, readsList, reads, varsList_map_var, hv, Piece.Reads]

theorem mem_reads_reduceStmts (hv : v ≠ acc) :
    v ∈ readsList (reduceStmts shape axes op s acc p) ↔ p.Reads v := by
  simp [reduceStmts, readsList, reads, vars_identity, mem_vars_combine, hv, Piece.Reads]

/-- An arg-reduction also reads its best value and its axis. -/
theorem mem_reads_argReduceStmts (hbest : v ≠ best) (haxis : v ≠ axis)
    (htest : op.better? p.value (.var best) = some test) :
    v ∈ readsList (argReduceStmts extent axis op s index best position test p) ↔ p.Reads v := by
  simp [argReduceStmts, readsList, readsOption, reads, vars_identity, mem_vars_better? htest, hbest,
    haxis, Expr.vars, Piece.Reads]

/-- Writing back reads the result only. -/
theorem mem_reads_writeBack (hv : v ∉ result.vars) :
    v ∈ readsList (writeBack c id result ss) ↔ v ∈ readsList ss := by
  unfold writeBack
  split
  · simp [readsList, reads, hv]
  · rfl

end Code

/-! ### Whole expansions -/

/-- Code for the node writes to `v`, the storage given for it. -/
def Context.Fills (c : Context) (v : Var) (id : Nat) : Prop :=
  (∃ n, c.graph.node? id = some n ∧ n.compute ≠ none) ∧ c.given.find? id = some v

/-- The node is read from `v`, the storage given for it: it is an input or a grid. -/
def Context.Loads (c : Context) (v : Var) (id : Nat) : Prop :=
  (∃ n, c.graph.node? id = some n ∧ ∀ d, n.compute = some d → d.isGrid) ∧
    c.given.find? id = some v

section Expansions

variable {c : Context} {w base : Nat} {v : Var} {id : Nat} {n : Node} {d : Compute}

theorem Context.fills_input (hn : c.graph.node? id = some n) (hc : n.compute = none) :
    ¬ c.Fills v id := by
  rintro ⟨⟨n', hn', hne⟩, -⟩
  obtain rfl := Option.some.inj (hn.symm.trans hn')
  exact hne hc

/-- A computed node is written to the storage given for it. -/
theorem Context.fills_computed (hn : c.graph.node? id = some n) (hc : n.compute = some d) :
    c.Fills v id ↔ c.given.find? id = some v :=
  ⟨fun h => h.2, fun h => ⟨⟨n, hn, by simp [hc]⟩, h⟩⟩

theorem Context.loads_input (hn : c.graph.node? id = some n) (hc : n.compute = none) :
    c.Loads v id ↔ c.given.find? id = some v :=
  ⟨fun h => h.2, fun h => ⟨⟨n, hn, by simp [hc]⟩, h⟩⟩

/-- A grid is read from its buffer, and a reduction from its accumulator. -/
theorem Context.loads_computed (hn : c.graph.node? id = some n) (hc : n.compute = some d) :
    c.Loads v id ↔ d.isGrid ∧ c.given.find? id = some v := by
  constructor
  · rintro ⟨⟨n', hn', hgrid⟩, h⟩
    obtain rfl := Option.some.inj (hn.symm.trans hn')
    exact ⟨hgrid d hc, h⟩
  · rintro ⟨hgrid, h⟩
    refine ⟨⟨n, hn, fun d' hc' => ?_⟩, h⟩
    obtain rfl := Option.some.inj (hc.symm.trans hc')
    exact hgrid

/-- Axes have ids below those of parameters. -/
theorem ne_axis {kind : NodeKind} {S : List Var} (h : d.WellFormed kind id w S) (hw : w ≤ v.id) :
    ∀ x ∈ d.axes, v ≠ x := by
  rintro x hx rfl
  exact absurd (h.below v hx) (Nat.not_lt.mpr hw)

/-- Storage made by an expansion is none of the variables from before. -/
theorem Creates.ne {hint : String} {ty : Ty} {u u' : Supply} {x : Var}
    (h : Creates id hint ty u x u') (hu : u.Tidy base) (hv : v.id < base) : v ≠ x := by
  rintro rfl
  exact absurd ((h.tidy hu).of_find? h.find?).1 (by omega)

theorem ne_of_taken {hint : String} {ty : Ty} {u : Supply} (hu : u.Tidy base) (hv : v.id < base) :
    v ≠ ⟨u.nextVar, hint, ty⟩ := by
  rintro rfl
  exact absurd hu.start (Nat.not_le.mpr hv)

/-- A buffer is an earlier variable if it was given. -/
theorem Allots.eq_iff {hint : String} {ty : Ty} {u u' : Supply} {x : Var}
    (h : Allots c id hint ty u x u') (hu : u.Tidy base) (hv : v.id < base) :
    v = x ↔ c.given.find? id = some v := by
  cases h with
  | given hx => simp [hx, eq_comm]
  | made hnone h => simp [hnone, h.ne hu hv]

mutual

/-- **What code for an expression writes**: the storage given for the computed nodes that it
reaches. -/
theorem Expands.mem_writes (hv : v.id < base) :
    ∀ {S e u p u'}, Expands c w S e u p u' → u.Tidy base →
      (v ∈ writesList p.stmts ↔ c.graph.Meets (c.Fills v) e.nodes)
  | _, _, _, _, _, .var _, _ => by simp [writesList, Expr.nodes]
  | _, _, _, _, _, .const, _ => by simp [writesList, Expr.nodes]
  | _, _, _, _, _, .node _ _ h, hu => h.mem_writes hv hu
  | _, _, _, _, _, .binary hl hr, hu => by
      rw [writesList_append, List.mem_append, hl.mem_writes hv hu, hr.mem_writes hv (hl.tidy hu),
        Expr.nodes, Graph.meets_append]
  | _, _, _, _, _, .unary h, hu => h.mem_writes hv hu
  | _, _, _, _, _, .cast h, hu => h.mem_writes hv hu
  | _, _, _, _, _, .element _ _ h hs, hu => by
      rw [writesList_append, List.mem_append, h.mem_writes hv hu, hs.mem_writes hv (h.tidy hu),
        Expr.nodes, Graph.meets_append, Expr.nodes]

theorem ExpandsList.mem_writes (hv : v.id < base) :
    ∀ {S es u ss vs u'}, ExpandsList c w S es u ss vs u' → u.Tidy base →
      (v ∈ writesList ss ↔ c.graph.Meets (c.Fills v) (Expr.nodesList es))
  | _, _, _, _, _, _, .nil, _ => by simp [writesList, Expr.nodesList]
  | _, _, _, _, _, _, .cons h hs, hu => by
      rw [writesList_append, List.mem_append, h.mem_writes hv hu, hs.mem_writes hv (h.tidy hu),
        Expr.nodesList, Graph.meets_append]

/-- **Writes to given storage.**  Of the variables from before, code for a node writes to those
given for the computed nodes that it meets. -/
theorem Computes.mem_writes (hv : v.id < base) :
    ∀ {S id u p u'}, Computes c w S id u p u' → u.Tidy base →
      (v ∈ writesList p.stmts ↔ c.graph.Meets (c.Fills v) [id])
  | _, _, _, _, _, .input hn hc _, _ => by
      rw [Graph.meets_input hn hc]
      simp [writesList, Context.fills_input hn hc]
  | _, _, _, _, _, .grid hn _ hc _ hbuf h, hu => by
      rw [mem_writes_gridStmts, h.mem_writes hv (hbuf.tidy hu), hbuf.eq_iff hu hv,
        Graph.meets_computed hn hc, Context.fills_computed hn hc, or_comm, Compute.value]
  | _, _, _, _, _, .reduce hn _ hc _ _ _ hacc h, hu => by
      rw [mem_writes_writeBack, mem_writes_reduceStmts, h.mem_writes hv (hacc.tidy hu),
        or_iff_left (hacc.ne hu hv), Graph.meets_computed hn hc, Context.fills_computed hn hc,
        or_comm, Compute.value]
  | _, _, _, _, _, .argReduce hn _ hc _ _ hpos h _, hu => by
      rw [mem_writes_writeBack, mem_writes_argReduceStmts, h.mem_writes hv (hpos.tidy hu).take,
        or_iff_left (not_or.mpr ⟨ne_of_taken (hpos.tidy hu) hv, hpos.ne hu hv⟩), Graph.meets_computed hn hc,
        Context.fills_computed hn hc, or_comm, Compute.value]

end

mutual

/-- **What code for an expression reads**: the storage given for the inputs and grids that it
reaches. -/
theorem Expands.reads_iff (hw : w ≤ v.id) (hv : v.id < base) :
    ∀ {S e u p u'}, Expands c w S e u p u' → (∀ x ∈ S, x.id < w) → u.Tidy base →
      (p.Reads v ↔ c.graph.Meets (c.Loads v) e.nodes)
  | _, _, _, _, _, .var (v := x) hx, hS, _ => by
      have hne : v ≠ x := by
        rintro rfl
        exact absurd (hS v hx) (Nat.not_lt.mpr hw)
      simp [Piece.Reads, readsList, Expr.vars, Expr.nodes, hne]
  | _, _, _, _, _, .const, _, _ => by simp [Piece.Reads, readsList, Expr.vars, Expr.nodes]
  | _, _, _, _, _, .node _ _ h, hS, hu => by
      obtain ⟨hstmts, hvalue⟩ := h.mem_reads hw hv hS hu
      rw [Expr.nodes, Graph.meets_singleton, ← hstmts, ← hvalue, or_comm, Piece.Reads]
  | _, _, _, _, _, .binary hl hr, hS, hu => by
      have hl' := hl.reads_iff hw hv hS hu
      have hr' := hr.reads_iff hw hv hS (hl.tidy hu)
      rw [Expr.nodes, Graph.meets_append, ← hl', ← hr']
      simp only [Piece.Reads, readsList_append, Expr.vars, List.mem_append]
      exact or_or_or_comm
  | _, _, _, _, _, .unary h, hS, hu => h.reads_iff hw hv hS hu
  | _, _, _, _, _, .cast h, hS, hu => h.reads_iff hw hv hS hu
  | _, _, _, _, _, .element _ _ h hs, hS, hu => by
      obtain ⟨hstmts, hvalue⟩ := h.mem_reads hw hv hS hu
      have hs' := hs.reads_iff hw hv hS (h.tidy hu)
      rw [Expr.nodes, Graph.meets_append, Expr.nodes, Graph.meets_singleton, ← hstmts, ← hvalue,
        ← hs']
      simp only [Piece.Reads, readsList_append, Expr.vars, List.mem_append]
      exact or_or_or_comm.trans (or_congr_left or_comm)

theorem ExpandsList.reads_iff (hw : w ≤ v.id) (hv : v.id < base) :
    ∀ {S es u ss vs u'}, ExpandsList c w S es u ss vs u' → (∀ x ∈ S, x.id < w) → u.Tidy base →
      (v ∈ readsList ss ∨ v ∈ Expr.varsList vs ↔ c.graph.Meets (c.Loads v) (Expr.nodesList es))
  | _, _, _, _, _, _, .nil, _, _ => by simp [readsList, Expr.varsList, Expr.nodesList]
  | _, _, _, _, _, _, .cons h hs, hS, hu => by
      have h' := h.reads_iff hw hv hS hu
      have hs' := hs.reads_iff hw hv hS (h.tidy hu)
      rw [Expr.nodesList, Graph.meets_append, ← h', ← hs']
      simp only [Piece.Reads, readsList_append, Expr.varsList, List.mem_append]
      exact or_or_or_comm

/-- **Reads of given storage.**  Of the variables from before, other than axes, code for a node
reads those given for the inputs and grids below it. -/
theorem Computes.mem_reads (hw : w ≤ v.id) (hv : v.id < base) :
    ∀ {S id u p u'}, Computes c w S id u p u' → (∀ x ∈ S, x.id < w) → u.Tidy base →
      (v ∈ readsList p.stmts ↔ ∃ k, TransGen c.graph.Contains id k ∧ c.Loads v k) ∧
        (v ∈ p.value.vars ↔ c.Loads v id)
  | _, _, _, _, _, .input hn hc hx, _, _ => by
      refine ⟨?_, ?_⟩
      · simp [readsList, Graph.not_transGen_input hn hc]
      · simp [Context.loads_input hn hc, Expr.vars, hx, eq_comm]
  | _, _, _, _, _, .grid hn _ hc hwf hbuf h, hS, hu => by
      have hbelow := List.forall_mem_append.mpr ⟨hwf.below, hS⟩
      have haxes := fun hmem => ne_axis hwf hw v hmem rfl
      refine ⟨(mem_reads_gridStmts haxes).trans ?_, ?_⟩
      · rw [h.reads_iff hw hv hbelow (hbuf.tidy hu)]
        exact Graph.meets_value hn hc
      · rw [Context.loads_computed hn hc, ← hbuf.eq_iff hu hv]
        simp [Expr.vars, Compute.isGrid]
  | _, _, _, _, _, .reduce hn _ hc hwf _ _ hacc h, hS, hu => by
      have hbelow := List.forall_mem_append.mpr ⟨hwf.below, hS⟩
      have hne := hacc.ne hu hv
      refine ⟨?_, ?_⟩
      · rw [mem_reads_writeBack (by simpa [vars_finalize] using hne), mem_reads_reduceStmts hne,
          h.reads_iff hw hv hbelow (hacc.tidy hu)]
        exact Graph.meets_value hn hc
      · rw [Context.loads_computed hn hc]
        simp [vars_finalize, hne, Compute.isGrid]
  | _, _, _, _, _, .argReduce hn _ hc hwf _ hpos h htest, hS, hu => by
      have hbelow := List.forall_mem_append.mpr ⟨hwf.below, hS⟩
      have haxis := ne_axis hwf hw _ (List.mem_singleton_self _)
      have hne := hpos.ne hu hv
      refine ⟨?_, ?_⟩
      · rw [mem_reads_writeBack (by simpa [Expr.vars] using hne),
          mem_reads_argReduceStmts (ne_of_taken (hpos.tidy hu) hv) haxis htest,
          h.reads_iff hw hv hbelow (hpos.tidy hu).take]
        exact Graph.meets_value hn hc
      · rw [Context.loads_computed hn hc]
        simp [Expr.vars, hne, Compute.isGrid]

end

end Expansions

end Expansion

/-! ### Tasks -/

namespace Task

open Expansion Stmt Supply

section Drafts

variable {g : Graph} {w base : Nat} {v : Var} {d d' : Draft} {ids : List Nat}

/-- A variable from before is the storage of a node as long as none is made for it. -/
theorem Draft.find?_add {p : Piece} {u : Supply} (hu : u.Tidy base) (hv : v.id < base) {k : Nat} :
    (d.add p u).storage.find? k = some v ↔ d.storage.find? k = some v ∧ k ∉ u.created.keys := by
  by_cases hk : k ∈ u.created.keys
  · obtain ⟨x, hx⟩ := Table.mem_keys_iff.mp hk
    have hfind : (d.add p u).storage.find? k = some x := by
      refine Table.find?_union (fun y hy => ?_) (.inr (Table.mem_of_find? hx))
      exact Option.some.inj ((Table.find?_of_mem hu.keys hy).symm.trans hx)
    have hne : x ≠ v := by
      rintro rfl
      exact absurd (hu.of_find? hx).1 (Nat.not_le.mpr hv)
    simp [hfind, hne, hk]
  · rw [Draft.add, Table.find?_union_of_notMem hk]
    simp [hk]

/-- Drafts write the storage given for the computed nodes that the outputs reach. -/
theorem Drafts.mem_writes (hbase : base ≤ g.nextVar) (hv : v.id < base) (h : Drafts g w ids d d') :
    v ∈ writesList d'.stmts ↔
      v ∈ writesList d.stmts ∨ g.Meets (Context.Fills ⟨g, d.storage⟩ v) ids := by
  induction h with
  | nil => simp
  | @cons id ids d next p u d' hg _ _ hc _ ih =>
      have hempty := tidy_empty (Nat.le_trans hbase hg)
      have hstmts : v ∈ writesList (d.add p u).stmts ↔
          v ∈ writesList d.stmts ∨ g.Meets (Context.Fills ⟨g, d.storage⟩ v) [id] := by
        rw [← hc.mem_writes hv hempty]
        simp [Draft.add, writesList]
      have hfills : ∀ k, Context.Fills ⟨g, (d.add p u).storage⟩ v k ↔
          Context.Fills ⟨g, d.storage⟩ v k ∧ k ∉ u.created.keys := fun k => by
        rw [Context.Fills, Context.Fills, Draft.find?_add (hc.tidy hempty) hv, and_assoc]
      rw [ih, hstmts, or_assoc]
      refine or_congr_right (Iff.trans ⟨?_, ?_⟩ Graph.meets_cons.symm)
      · exact fun h => h.imp_right (.imp fun k hk => ((hfills k).mp hk).1)
      · rintro (h | ⟨i, hi, k, hk, hT⟩)
        · exact .inl h
        · -- a node that has got other storage was met before
          by_cases hmade : k ∈ u.created.keys
          · obtain ⟨o, ho, j, hj, rfl, -⟩ :=
              (hc.mem_keys.mp hmade).resolve_left List.not_mem_nil
            exact .inl ⟨o, ho, j, hj, hT⟩
          · exact .inr ⟨i, hi, k, hk, (hfills k).mpr ⟨hT, hmade⟩⟩

/-- Drafts read the storage of the inputs and grids below the outputs. -/
theorem Drafts.mem_reads (hbase : base ≤ g.nextVar) (hw : w ≤ v.id) (hv : v.id < base)
    (h : Drafts g w ids d d') :
    v ∈ readsList d'.stmts ↔ v ∈ readsList d.stmts ∨
      ∃ o ∈ ids, ∃ k, TransGen g.Contains o k ∧ Context.Loads ⟨g, d.storage⟩ v k := by
  induction h with
  | nil => simp
  | @cons id ids d next p u d' hg _ _ hc _ ih =>
      have hempty := tidy_empty (Nat.le_trans hbase hg)
      have hstmts : v ∈ readsList (d.add p u).stmts ↔ v ∈ readsList d.stmts ∨
          ∃ k, TransGen g.Contains id k ∧ Context.Loads ⟨g, d.storage⟩ v k := by
        rw [← (hc.mem_reads hw hv (fun _ hx => absurd hx List.not_mem_nil) hempty).1]
        simp [Draft.add, readsList]
      -- inputs and grids keep the storage they have
      have hloads : ∀ k, Context.Loads ⟨g, (d.add p u).storage⟩ v k ↔
          Context.Loads ⟨g, d.storage⟩ v k := fun k => by
        rw [Context.Loads, Context.Loads, Draft.find?_add (hc.tidy hempty) hv, ← and_assoc]
        refine and_iff_left_of_imp ?_
        rintro ⟨⟨n, hn, hgrid⟩, hfind⟩ hmade
        obtain ⟨i, -, j, -, rfl, n', e, hn', hc', hnone⟩ :=
          (hc.mem_keys.mp hmade).resolve_left List.not_mem_nil
        obtain rfl := Option.some.inj (hn.symm.trans hn')
        cases hfind.symm.trans (hnone (hgrid e hc'))
      simp only [ih, hstmts, hloads, List.mem_cons, exists_eq_or_imp, or_assoc]

end Drafts

section Entries

variable {t : Task} {g : Graph} {params : List Var} {d : Draft} {j id : Nat} {v : Var}

theorem Lowered.map_fst_zip (h : t.Lowered g params d) :
    ((t.inputs ++ t.outputs).zip params).map Prod.fst = t.inputs ++ t.outputs :=
  List.map_fst_zip (Nat.le_of_eq h.fits.length_eq)

/-- **The last entry counts.**  The parameter of an entry is the storage of its node unless the node
is listed again. -/
theorem Lowered.find?_iff (h : t.Lowered g params d)
    (hid : (t.inputs ++ t.outputs)[j]? = some id) (hv : params[j]? = some v) {k : Nat} :
    (Table.ofList ((t.inputs ++ t.outputs).zip params)).find? k = some v ↔
      k = id ∧ id ∉ (t.inputs ++ t.outputs).drop (j + 1) := by
  have hj : ((t.inputs ++ t.outputs).zip params)[j]? = some (id, v) :=
    List.getElem?_zip_eq_some.mpr ⟨hid, hv⟩
  rw [Table.find?_ofList_iff]
  constructor
  · rintro ⟨us, vs, heq, hvs⟩
    have hlast : ((t.inputs ++ t.outputs).zip params)[us.length]? = some (k, v) := by
      rw [heq, List.getElem?_append_right (Nat.le_refl _)]
      simp
    have hnodup : (params.map (·.id)).Nodup := h.ids ▸ List.nodup_range'
    have hlt : j < params.length := (List.getElem?_eq_some_iff.mp hv).1
    have hpos : j = us.length :=
      (List.getElem?_inj hlt hnodup.of_map).mp
        (hv.trans (List.getElem?_zip_eq_some.mp hlast).2.symm)
    subst hpos
    obtain ⟨rfl, -⟩ := Prod.mk.inj (Option.some.inj (hlast.symm.trans hj))
    refine ⟨rfl, ?_⟩
    rw [← h.map_fst_zip, ← List.map_drop, heq]
    simpa using hvs
  · rintro ⟨rfl, hnot⟩
    obtain ⟨hlt, heq⟩ := List.getElem?_eq_some_iff.mp hj
    refine ⟨((t.inputs ++ t.outputs).zip params).take j,
      ((t.inputs ++ t.outputs).zip params).drop (j + 1), ?_, ?_⟩
    · rw [← heq, ← List.drop_eq_getElem_cons hlt, List.take_append_drop]
    · rwa [List.map_drop, h.map_fst_zip]

/-- What is written to and read from the parameter of an entry. -/
theorem Lowered.param (h : t.Lowered g params d)
    (hin : ∀ i n, g.node? i = some n → (i ∈ t.inputs ↔ n.compute = none))
    (hid : (t.inputs ++ t.outputs)[j]? = some id) (hv : params[j]? = some v) :
    (v ∈ writesList d.stmts ↔ id ∉ t.inputs ∧ id ∉ (t.inputs ++ t.outputs).drop (j + 1)) ∧
    (id ∈ t.inputs → (v ∈ readsList d.stmts ↔ id ∉ (t.inputs ++ t.outputs).drop (j + 1) ∧
      ∃ o ∈ t.outputs, TransGen g.Contains o id)) := by
  obtain ⟨hw, hlt⟩ := h.range (List.mem_of_getElem? hv)
  obtain ⟨n, hn⟩ := node_of_fits h.fits id (List.mem_of_getElem? hid)
  have hfind := fun {k : Nat} => h.find?_iff hid hv (k := k)
  refine ⟨?_, fun hinput => ?_⟩
  · rw [h.drafts.mem_writes (Nat.le_refl _) hlt]
    simp only [writesList, List.not_mem_nil, false_or]
    constructor
    · rintro ⟨o, ho, k, hk, ⟨n', hn', hc⟩, hstorage⟩
      obtain ⟨rfl, hnot⟩ := hfind.mp hstorage
      exact ⟨fun hinput => hc ((hin k n' hn').mp hinput), hnot⟩
    · rintro ⟨hinput, hnot⟩
      have hout : id ∈ t.outputs :=
        (List.mem_append.mp (List.mem_of_getElem? hid)).resolve_left hinput
      exact ⟨id, hout, id, .refl, ⟨n, hn, fun hc => hinput ((hin id n hn).mpr hc)⟩,
        hfind.mpr ⟨rfl, hnot⟩⟩
  · rw [h.drafts.mem_reads (Nat.le_refl _) hw hlt]
    simp only [readsList, List.not_mem_nil, false_or]
    constructor
    · rintro ⟨o, ho, k, hk, -, hstorage⟩
      obtain ⟨rfl, hnot⟩ := hfind.mp hstorage
      exact ⟨hnot, o, ho, hk⟩
    · rintro ⟨hnot, o, ho, hk⟩
      have hc : n.compute = none := (hin id n hn).mp hinput
      exact ⟨o, ho, id, hk, (Context.loads_input hn hc).mpr (hfind.mpr ⟨rfl, hnot⟩)⟩

end Entries

end Task

/-! ### Texts -/

/-- No member of a list without duplicates comes again. -/
theorem nodup_iff_notMem_drop {l : List Nat} :
    l.Nodup ↔ ∀ (j a : Nat), l[j]? = some a → a ∉ l.drop (j + 1) := by
  induction l with
  | nil => simp
  | cons b l ih =>
      rw [List.nodup_cons, ih]
      constructor
      · rintro ⟨hb, hl⟩ j a hj
        cases j with
        | zero => rwa [← Option.some.inj hj]
        | succ j => exact hl j a hj
      · exact fun h => ⟨h 0 b rfl, fun j a hj => h (j + 1) a hj⟩

/-- A member of a list has a last position in it. -/
theorem exists_last_position {l : List Nat} {a : Nat} (h : a ∈ l) :
    ∃ j, l[j]? = some a ∧ a ∉ l.drop (j + 1) := by
  induction l with
  | nil => exact absurd h List.not_mem_nil
  | cons b l ih =>
      by_cases hl : a ∈ l
      · obtain ⟨j, hj, hlast⟩ := ih hl
        exact ⟨j + 1, hj, hlast⟩
      · obtain rfl := (List.mem_cons.mp h).resolve_right hl
        exact ⟨0, rfl, hl⟩

namespace Task

variable {t : Task} {g : Graph} {params : List Var} {d : Draft}

/-- The parameter of an output entry. -/
theorem Lowered.outputParam (h : t.Lowered g params d)
    (hin : ∀ i n, g.node? i = some n → (i ∈ t.inputs ↔ n.compute = none)) {j id : Nat}
    (hid : t.outputs[j]? = some id) :
    ∃ v, (t.inputs ++ t.outputs)[t.inputs.length + j]? = some id ∧
      params[t.inputs.length + j]? = some v ∧
      (v ∈ Stmt.writesList d.stmts ↔ id ∉ t.inputs ∧ id ∉ t.outputs.drop (j + 1)) ∧
      (id ∈ t.inputs → (v ∈ Stmt.readsList d.stmts ↔ id ∉ t.outputs.drop (j + 1) ∧
        ∃ o ∈ t.outputs, TransGen g.Contains o id)) := by
  have hid' : (t.inputs ++ t.outputs)[t.inputs.length + j]? = some id := by
    rw [List.getElem?_append_right (Nat.le_add_right _ _), Nat.add_sub_cancel_left, hid]
  have hlt : t.inputs.length + j < params.length := by
    rw [h.length_params]
    exact Nat.add_lt_add_left (List.getElem?_eq_some_iff.mp hid).1 _
  have hdrop : (t.inputs ++ t.outputs).drop (t.inputs.length + j + 1) = t.outputs.drop (j + 1) := by
    rw [Nat.add_assoc, List.drop_append, List.drop_eq_nil_of_le (Nat.le_add_right _ _),
      List.nil_append, Nat.add_sub_cancel_left]
  have hv := List.getElem?_eq_getElem hlt
  exact ⟨_, hid', hv, hdrop ▸ h.param hin hid' hv⟩

/-- All outputs are written if and only if they are different from each other and from the
inputs. -/
theorem Lowered.outputs_written_iff (h : t.Lowered g params d)
    (hin : ∀ i n, g.node? i = some n → (i ∈ t.inputs ↔ n.compute = none)) :
    (∀ v ∈ params.drop t.inputs.length, v ∈ Stmt.writesList d.stmts) ↔
      t.outputs.Nodup ∧ ∀ o ∈ t.outputs, o ∉ t.inputs := by
  constructor
  · intro hall
    have hwritten : ∀ (j o : Nat), t.outputs[j]? = some o →
        o ∉ t.inputs ∧ o ∉ t.outputs.drop (j + 1) := by
      intro j o ho
      obtain ⟨v, -, hv, hwrites, -⟩ := h.outputParam hin ho
      rw [← List.getElem?_drop] at hv
      exact hwrites.mp (hall v (List.mem_of_getElem? hv))
    refine ⟨nodup_iff_notMem_drop.mpr fun j o ho => (hwritten j o ho).2, fun o ho => ?_⟩
    obtain ⟨j, hj⟩ := List.getElem?_of_mem ho
    exact (hwritten j o hj).1
  · rintro ⟨hnodup, hdisjoint⟩ v hv
    obtain ⟨j, hj⟩ := List.getElem?_of_mem hv
    have hlt : j < t.outputs.length := h.length_outputs ▸ (List.getElem?_eq_some_iff.mp hj).1
    have ho := List.getElem?_eq_getElem hlt
    obtain ⟨v', -, hv', hwrites, -⟩ := h.outputParam hin ho
    rw [← List.getElem?_drop, hj] at hv'
    obtain rfl := Option.some.inj hv'
    exact hwrites.mpr ⟨hdisjoint _ (List.mem_of_getElem? ho), nodup_iff_notMem_drop.mp hnodup j _ ho⟩

/-- Inputs are read from parameters of inputs if and only if none that is read is an output. -/
theorem Lowered.inputs_read_iff (h : t.Lowered g params d)
    (hin : ∀ i n, g.node? i = some n → (i ∈ t.inputs ↔ n.compute = none)) :
    (∀ (j id : Nat) (v : Var), (t.inputs ++ t.outputs)[j]? = some id → params[j]? = some v →
        id ∈ t.inputs → v ∈ Stmt.readsList d.stmts → j < t.inputs.length) ↔
      ∀ id ∈ t.outputs, id ∈ t.inputs → ∀ o ∈ t.outputs, ¬ TransGen g.Contains o id := by
  constructor
  · intro hown id hout hinput o ho hreached
    obtain ⟨j, hj, hlast⟩ := exists_last_position hout
    obtain ⟨v, hid, hv, -, hreads⟩ := h.outputParam hin hj
    have hread := (hreads hinput).mpr ⟨hlast, o, ho, hreached⟩
    exact absurd (hown _ id v hid hv hinput hread) (Nat.not_lt.mpr (Nat.le_add_right _ _))
  · intro hnone j id v hj hv hinput hread
    obtain ⟨-, o, ho, hreached⟩ := ((h.param hin hj hv).2 hinput).mp hread
    by_contra hlt
    refine hnone id ?_ hinput o ho hreached
    rw [List.getElem?_append_right (Nat.not_lt.mp hlt)] at hj
    exact List.mem_of_getElem? hj

end Task

/-- **Parameters of a procedure made from a text.**  There is one for each entry of the inputs and
outputs.  All those of outputs are written if and only if the outputs are different from each other
and from the inputs.  The parameter of an input entry is read if and only if the input is not listed
again and an output is computed from it, and reads of inputs go to no other parameters if and only
if no input that is read is an output. -/
theorem lowerSource_params_iff {source name : String} {kind : ProcKind} {f : Procedure}
    (h : lowerSource source name kind = .ok f) :
    ∃ p t, Program.parse source = .ok p ∧ p.task name = .ok t ∧
      f.params.length = t.inputs.length + t.outputs.length ∧
      ((∀ v ∈ f.params.drop t.inputs.length, v ∈ f.body.writes) ↔
        t.outputs.Nodup ∧ ∀ o ∈ t.outputs, o ∉ t.inputs) ∧
      (∀ (j id : Nat) (v : Var), t.inputs[j]? = some id → f.params[j]? = some v →
        (v ∈ f.body.reads ↔ id ∉ (t.inputs ++ t.outputs).drop (j + 1) ∧
          ∃ o ∈ t.outputs, TransGen p.graph.Contains o id)) ∧
      ((∀ (j id : Nat) (v : Var), (t.inputs ++ t.outputs)[j]? = some id → f.params[j]? = some v →
          id ∈ t.inputs → v ∈ f.body.reads → j < t.inputs.length) ↔
        ∀ id ∈ t.outputs, id ∈ t.inputs → ∀ o ∈ t.outputs, ¬ TransGen p.graph.Contains o id) := by
  obtain ⟨p, t, params, d, hp, ht, hcompact, hlowered, rfl⟩ := lowerSource_eq_ok h
  have hscoped := Program.wellScoped_of_parse hp
  have hinputs := (Program.task_eq_ok hscoped ht).1
  have hin : ∀ i n, p.graph.node? i = some n → (i ∈ t.inputs ↔ n.compute = none) := by
    intro i n hn
    rw [hinputs]
    exact hscoped.mem_inputs_iff hcompact hn
  simp only [Stmt.writes_ofList, Stmt.reads_ofList]
  refine ⟨p, t, hp, ht, hlowered.length_params, hlowered.outputs_written_iff hin,
    fun j id v hj hv => ?_, hlowered.inputs_read_iff hin⟩
  have hj' : (t.inputs ++ t.outputs)[j]? = some id := by
    rw [List.getElem?_append_left (List.getElem?_eq_some_iff.mp hj).1, hj]
  exact (hlowered.param hin hj' hv).2 (List.mem_of_getElem? hj)

/-- Both outputs are written, a grid and an arg-reduction. -/
theorem lowerSource_params_iff_gridAndBest : ∃ f, lowerSource gridAndBest "best" .host = .ok f ∧
    f.params.length = 3 ∧ ∀ v ∈ f.params.drop 1, v ∈ f.body.writes := by
  have hok : (do
      let p ← Program.parse gridAndBest
      let t ← p.task "best"
      let f ← lowerSource gridAndBest "best" .host
      return decide (t.inputs = [0] ∧ t.outputs = [2, 3] ∧ f.params.length = 3)) =
      Except.ok true := by
    decide +kernel
  obtain ⟨p, hp, hok⟩ := bind_eq_ok.mp hok
  obtain ⟨t, ht, hok⟩ := bind_eq_ok.mp hok
  obtain ⟨f, hf, hok⟩ := bind_eq_ok.mp hok
  obtain ⟨hinputs, houtputs, hlength⟩ := of_decide_eq_true (pure_eq_ok.mp hok)
  obtain ⟨p', t', hp', ht', -, hwritten, -⟩ := lowerSource_params_iff hf
  obtain rfl := Except.ok.inj (hp.symm.trans hp')
  obtain rfl := Except.ok.inj (ht.symm.trans ht')
  rw [hinputs, houtputs] at hwritten
  exact ⟨f, hf, hlength, hwritten.mpr (by decide)⟩

/-- An input that is an output too, and that another output is computed from. -/
def echoedInput : String :=
  "input x: f32;
let s = sum[k: 4] => x;
output x, s;"

/-- The parameter that stands for the input as an output is never written.  It is read in place of
the one that stands for the input. -/
theorem lowerSource_params_echoed : ∃ f, lowerSource echoedInput "main" .host = .ok f ∧
    ∃ x y s, f.params = [x, y, s] ∧ y ∉ f.body.writes ∧ x ∉ f.body.reads ∧ y ∈ f.body.reads := by
  have hok : (do
      let f ← lowerSource echoedInput "main" .host
      return decide (f.params.length = 3 ∧ (∀ x ∈ f.params[0]?, x ∉ f.body.reads) ∧
        ∀ y ∈ f.params[1]?, y ∉ f.body.writes ∧ y ∈ f.body.reads)) = Except.ok true := by
    decide +kernel
  obtain ⟨f, hf, hok⟩ := bind_eq_ok.mp hok
  obtain ⟨hlen, hx, hy⟩ := of_decide_eq_true (pure_eq_ok.mp hok)
  obtain ⟨x, y, s, hparams⟩ := List.length_eq_three.mp hlen
  rw [hparams] at hx hy
  exact ⟨f, hf, x, y, s, hparams, (hy y rfl).1, hx x rfl, (hy y rfl).2⟩

end TensorLoops
