import TensorLoops.Proofs.Code.NormalForm
import TensorLoops.Proofs.Compute.Types

/-!
# Proofs — Compute — Ranks

How many indices the accesses of lowered code have.  A store is made for a grid with one index for
each dimension; every other access is an access of some node's value, with the storage of the node
in its place.  So the accesses of the code suit their variables where those of the values met
suit their nodes (`Computes.misfits_iff`).

Type inference looks at an access unless it stands in the operand of a cast or among indices
(`Expr.unchecked`).  The others have the number of indices that their tensors take, and whether
lowered code can be flattened depends on the unchecked ones alone (`lowerSource_flatten_iff`).
-/

namespace TensorLoops

open Relation

/-! ### Accesses of code and of values -/

/-- A tensor variable is accessed by as many indices as it has dimensions. -/
def Access.Exact (a : Access) : Prop :=
  ∃ v s shape, a.base = .var v ∧ v.ty = .tensor s shape ∧ a.rank = shape.length

section Tensor

variable {v : Var} {s : Scalar} {shape : List Nat} {rank : Nat}

/-- An access to a tensor is exact with one index for each dimension. -/
theorem Access.exact_var (hty : v.ty = .tensor s shape) :
    (Access.mk (.var v) rank).Exact ↔ rank = shape.length := by
  constructor
  · rintro ⟨_, s', shape', hbase, hty', hrank⟩
    obtain rfl := Expr.var.inj hbase
    obtain ⟨-, rfl⟩ := Ty.tensor.inj (hty.symm.trans hty')
    exact hrank
  · exact fun h => ⟨v, s, shape, rfl, hty, h⟩

theorem Access.suits_tensor (hty : v.ty = .tensor s shape) :
    (Access.mk (.var v) rank).Suits ↔ rank = shape.length := by
  rw [Access.suits_var, hty, Ty.Takes]

end Tensor

/-- The accesses that the type of an expression does not depend on: those in operands of casts and
among indices. -/
def Expr.unchecked : Expr → List Access
  | .var _            => []
  | .const _ _        => []
  | .node _           => []
  | .binary _ lhs rhs => lhs.unchecked ++ rhs.unchecked
  | .unary _ operand  => operand.unchecked
  | .cast operand _   => operand.accesses
  | .element _ idxs   => accessesList idxs
  | .call _ args      => accessesList args

namespace Graph

variable {g : Graph} {w id : Nat} {n : Node} {s : Scalar} {shape : List Nat} {rank : Nat}

/-- A tensor node is accessed by as many indices as it has dimensions. -/
def Ranked (g : Graph) (a : Access) : Prop :=
  ∃ id n s shape, a.base = .node id ∧ g.node? id = some n ∧ n.kind = .tensor s shape ∧
    a.rank = shape.length

/-- Some access of the node's value does not have the rank of its tensor. -/
def Misranks (g : Graph) (id : Nat) : Prop :=
  ∃ n d, g.node? id = some n ∧ n.compute = some d ∧ ∃ a ∈ d.value.accesses, ¬ g.Ranked a

/-- So it is ranked, by the node. -/
theorem ranked_node (hn : g.node? id = some n) (hk : n.kind = .tensor s shape) :
    g.Ranked ⟨.node id, rank⟩ ↔ rank = shape.length := by
  constructor
  · rintro ⟨_, n', s', shape', hbase, hn', hk', hrank⟩
    obtain rfl := Expr.node.inj hbase
    obtain rfl := Option.some.inj (hn.symm.trans hn')
    obtain ⟨-, rfl⟩ := NodeKind.tensor.inj (hk.symm.trans hk')
    exact hrank
  · exact fun h => ⟨id, n, s, shape, rfl, hn, hk, h⟩

/-- Inputs access nothing. -/
theorem misranks_input (hn : g.node? id = some n) (hc : n.compute = none) : ¬ g.Misranks id := by
  rintro ⟨n', d, hn', hd, -⟩
  obtain rfl := Option.some.inj (hn.symm.trans hn')
  exact nomatch hc.symm.trans hd

/-- A computed node has a wrong rank if an access in its definition has. -/
theorem misranks_computed {d : Compute} (hn : g.node? id = some n) (hc : n.compute = some d) :
    g.Misranks id ↔ ∃ a ∈ d.value.accesses, ¬ g.Ranked a := by
  constructor
  · rintro ⟨n', d', hn', hd, h⟩
    obtain rfl := Option.some.inj (hn.symm.trans hn')
    obtain rfl := Option.some.inj (hc.symm.trans hd)
    exact h
  · exact fun h => ⟨n, d, hn, hc, h⟩

/-- What type inference looks at has the rank of its tensor. -/
theorem ranked_of_typeOf {S : List Var} : ∀ {e : Expr} {s : Scalar}, g.Scoped w S e →
    g.typeOf e = .ok s → ((∀ a ∈ e.accesses, g.Ranked a) ↔ ∀ a ∈ e.unchecked, g.Ranked a)
  | _, _, .var _, _ => Iff.rfl
  | _, _, .const, _ => Iff.rfl
  | _, _, .node _ _ _, _ => Iff.rfl
  | _, _, .binary hl hr, h => by
      obtain ⟨s₁, hs₁, h⟩ := bind_eq_ok.mp h
      obtain ⟨s₂, hs₂, -⟩ := bind_eq_ok.mp h
      rw [Expr.accesses, Expr.unchecked, List.forall_mem_append, List.forall_mem_append,
        ranked_of_typeOf hl hs₁, ranked_of_typeOf hr hs₂]
  | _, _, .unary he, h => by
      obtain ⟨s₁, hs₁, -⟩ := bind_eq_ok.mp h
      rw [Expr.accesses, Expr.unchecked]
      exact ranked_of_typeOf he hs₁
  | _, _, .cast _, _ => Iff.rfl
  | .element (.node id) idxs, _, .element hn hk _ _, h => by
      have hrank : g.Ranked ⟨.node id, idxs.length⟩ := by
        obtain ⟨n', hn', h⟩ := bind_eq_ok.mp h
        obtain rfl := Option.some.inj (hn.symm.trans (node_eq_ok.mp hn'))
        rw [hk] at h
        simp only at h
        split at h
        · rename_i hlength
          exact (ranked_node hn hk).mpr hlength.symm
        · exact nomatch h
      rw [Expr.accesses, Expr.unchecked, List.forall_mem_cons, and_iff_right hrank]
      rfl

end Graph

namespace Expansion

open Supply Stmt

/-! ### Accesses in code for nodes -/

/-- Loops access what is accessed in them. -/
@[simp] theorem accessesList_nest {loops : List (Var × Nat)} {ss : List Stmt} :
    accessesList (nest loops ss) = accessesList ss := by
  induction loops with
  | nil => rfl
  | cons l loops ih =>
      have hextent : (Expr.ofSize l.2).accesses = [] := rfl
      simp [nest, accessesList, accesses, hextent, ih]

/-- The accesses of code and of the value it makes available. -/
def Piece.accesses (p : Piece) : List Access := accessesList p.stmts ++ p.value.accesses

section Code

variable {c : Context} {axes : List Var} {p : Piece} {shape : List Nat} {op : Reduction}
  {s index : Scalar} {id extent count : Nat} {a : Access} {buf acc axis best position : Var}
  {test result : Expr} {ss : List Stmt}

theorem accesses_identity : (op.identity s).accesses = [] := by
  cases op <;> rfl

theorem accesses_finalize : (op.finalize (.var acc) count).accesses = [] := by
  cases op <;> rfl

theorem accesses_combine {e : Expr} : (op.combine (.var acc) e).accesses = e.accesses := by
  cases op <;> rfl

/-- The test of an arg-reduction accesses what the value does. -/
theorem accesses_better? {e : Expr} (h : op.better? e (.var best) = some test) :
    test.accesses = e.accesses := by
  unfold Reduction.better? at h
  split at h <;> cases h <;> simp [Expr.gt, Expr.lt, Expr.accesses]

theorem accessesList_map_var : Expr.accessesList (axes.map .var) = [] := by
  induction axes with
  | nil => rfl
  | cons v axes ih => simp [Expr.accessesList, Expr.accesses, ih]

/-- A grid accesses its buffer at its axes. -/
theorem mem_accesses_gridStmts : a ∈ accessesList (gridStmts shape axes buf p) ↔
    a ∈ p.accesses ∨ a = ⟨.var buf, axes.length⟩ := by
  simp only [gridStmts, accessesList_nest, accessesList_append, accessesList, accesses,
    accessesList_map_var, List.length_map, List.nil_append, List.append_nil, List.mem_append,
    List.mem_cons, Piece.accesses]
  rw [or_assoc, or_comm (a := a = _)]

/-- A reduction accesses what its value does. -/
theorem mem_accesses_reduceStmts :
    a ∈ accessesList (reduceStmts shape axes op s acc p) ↔ a ∈ p.accesses := by
  simp [reduceStmts, accessesList, accesses, accesses_identity, accesses_combine, Piece.accesses]

theorem mem_accesses_argReduceStmts (htest : op.better? p.value (.var best) = some test) :
    a ∈ accessesList (argReduceStmts extent axis op s index best position test p) ↔
      a ∈ p.accesses := by
  simp [argReduceStmts, accessesList, accessesOption, accesses, accesses_identity,
    accesses_better? htest, Expr.accesses, Piece.accesses]

/-- Writing back accesses nothing more. -/
theorem accessesList_writeBack (hresult : result.accesses = []) :
    accessesList (writeBack c id result ss) = accessesList ss := by
  unfold writeBack
  split
  · simp [accessesList, accesses, hresult]
  · rfl

end Code

/-! ### Accesses in whole expansions -/

section Expansions

variable {c : Context} {w : Nat}

/-- The value of a node is a variable, or comes from one. -/
theorem Computes.accesses_value {S : List Var} {id : Nat} {u u' : Supply} {p : Piece}
    (h : Computes c w S id u p u') : p.value.accesses = [] := by
  cases h with
  | input => rfl
  | grid => rfl
  | reduce => exact accesses_finalize
  | argReduce => rfl

/-- A tensor is read from a variable of its type. -/
theorem Computes.value_tensor {S : List Var} {id : Nat} {u u' : Supply} {p : Piece}
    (hgiven : c.graph.Housed c.given) (hu : c.graph.Housed u.created) (h : Computes c w S id u p u')
    {n : Node} {s : Scalar} {shape : List Nat} (hn : c.graph.node? id = some n)
    (hk : n.kind = .tensor s shape) : ∃ v, p.value = .var v ∧ v.ty = .tensor s shape := by
  have hhoused : ∀ {st : Storage} {v : Var}, c.graph.Housed st → st.find? id = some v →
      v.ty = .tensor s shape := by
    intro st v hst hv
    obtain ⟨n', hn', hty⟩ := hst id v hv
    obtain rfl := Option.some.inj (hn.symm.trans hn')
    rwa [hk] at hty
  cases h with
  | input _ _ hv => exact ⟨_, rfl, hhoused hgiven hv⟩
  | grid hn' _ _ _ hbuf _ =>
      refine ⟨_, rfl, ?_⟩
      rcases hbuf.find? with hv | ⟨-, hv⟩
      · exact hhoused hgiven hv
      · exact hhoused (hbuf.housed hn' hu) hv
  | reduce hn' hk' =>
      obtain rfl := Option.some.inj (hn.symm.trans hn')
      exact nomatch hk.symm.trans hk'
  | argReduce hn' hk' =>
      obtain rfl := Option.some.inj (hn.symm.trans hn')
      exact nomatch hk.symm.trans hk'

theorem ExpandsList.length_eq {S : List Var} {es vs : List Expr} {u u' : Supply} {ss : List Stmt}
    (h : ExpandsList c w S es u ss vs u') : vs.length = es.length := by
  induction es generalizing u ss vs with
  | nil =>
      cases h
      rfl
  | cons e es ih =>
      cases h with
      | cons _ hs => rw [List.length_cons, ih hs, List.length_cons]

variable {Q : Access → Prop}

/-- Some access is not as `Q` wants it. -/
def Misfits (Q : Access → Prop) (as : List Access) : Prop := ∃ a ∈ as, ¬ Q a

@[simp] theorem misfits_nil : ¬ Misfits Q [] := fun ⟨_, h, _⟩ => List.not_mem_nil h

/-- Something misfits in one part or the other. -/
@[simp] theorem misfits_append {as bs : List Access} :
    Misfits Q (as ++ bs) ↔ Misfits Q as ∨ Misfits Q bs := by
  simp only [Misfits, List.mem_append, or_and_right, exists_or]

@[simp] theorem misfits_cons {a : Access} {as : List Access} :
    Misfits Q (a :: as) ↔ ¬ Q a ∨ Misfits Q as := by
  simp [Misfits]

/-- On tensor variables `Q` asks for the right number of indices. -/
def AsksForRank (Q : Access → Prop) : Prop :=
  ∀ {v : Var} {s : Scalar} {shape : List Nat} {rank : Nat}, v.ty = .tensor s shape →
    (Q ⟨.var v, rank⟩ ↔ rank = shape.length)

mutual

/-- **Accesses misfit where the expression or a node has a wrong rank.** -/
theorem Expands.misfits_iff (hQ : AsksForRank Q) (hgiven : c.graph.Housed c.given) :
    ∀ {S e u p u'}, Expands c w S e u p u' → c.graph.Housed u.created →
      (Misfits Q p.accesses ↔
        Misfits c.graph.Ranked e.accesses ∨ c.graph.Meets c.graph.Misranks e.nodes)
  | _, _, _, _, _, .var _, _ => by simp [Piece.accesses, accessesList, Expr.accesses, Expr.nodes]
  | _, _, _, _, _, .const, _ => by simp [Piece.accesses, accessesList, Expr.accesses, Expr.nodes]
  | _, _, _, _, _, .node _ _ h, hu => by
      rw [Piece.accesses, h.accesses_value, List.append_nil, h.misfits_iff hQ hgiven hu]
      simp [Expr.accesses, Expr.nodes]
  | _, _, _, _, _, .binary hl hr, hu => by
      have ihl := hl.misfits_iff hQ hgiven hu
      have ihr := hr.misfits_iff hQ hgiven (hl.housed hu)
      simp only [Piece.accesses, accessesList_append, Expr.accesses, Expr.nodes, misfits_append,
        Graph.meets_append] at ihl ihr ⊢
      rw [or_or_or_comm, ihl, ihr, or_or_or_comm]
  | _, _, _, _, _, .unary h, hu => h.misfits_iff hQ hgiven hu
  | _, _, _, _, _, .cast h, hu => h.misfits_iff hQ hgiven hu
  | _, _, _, _, _, .element hn hk h hs, hu => by
      have ih := h.misfits_iff hQ hgiven hu
      have ihs := hs.misfits_iff hQ hgiven (h.housed hu)
      obtain ⟨v, hv, hty⟩ := h.value_tensor hgiven hu hn hk
      simp only [Piece.accesses, accessesList_append, Expr.accesses, Expr.nodes, misfits_append,
        misfits_cons, Graph.meets_append, hv, hs.length_eq, hQ hty, Graph.ranked_node hn hk,
        List.nil_append] at ih ihs ⊢
      rw [or_or_or_comm, ih, ihs, or_comm (b := ¬ _ = _), or_or_or_comm]

theorem ExpandsList.misfits_iff (hQ : AsksForRank Q) (hgiven : c.graph.Housed c.given) :
    ∀ {S es u ss vs u'}, ExpandsList c w S es u ss vs u' → c.graph.Housed u.created →
      (Misfits Q (accessesList ss ++ Expr.accessesList vs) ↔
        Misfits c.graph.Ranked (Expr.accessesList es) ∨
          c.graph.Meets c.graph.Misranks (Expr.nodesList es))
  | _, _, _, _, _, _, .nil, _ => by simp [accessesList, Expr.accessesList, Expr.nodesList]
  | _, _, _, _, _, _, .cons h hs, hu => by
      have ih := h.misfits_iff hQ hgiven hu
      have ihs := hs.misfits_iff hQ hgiven (h.housed hu)
      simp only [Piece.accesses, accessesList_append, Expr.accessesList, Expr.nodesList,
        misfits_append, Graph.meets_append] at ih ihs ⊢
      rw [or_or_or_comm, ih, ihs, or_or_or_comm]

/-- **Code for a node has the misfits of the values it meets.** -/
theorem Computes.misfits_iff (hQ : AsksForRank Q) (hgiven : c.graph.Housed c.given) :
    ∀ {S id u p u'}, Computes c w S id u p u' → c.graph.Housed u.created →
      (Misfits Q (accessesList p.stmts) ↔ c.graph.Meets c.graph.Misranks [id])
  | _, _, _, _, _, .input hn hc _, _ => by
      rw [Graph.meets_input hn hc]
      exact iff_of_false misfits_nil (Graph.misranks_input hn hc)
  | _, _, _, _, _, .grid hn hk hc hwf hbuf h, hu => by
      obtain ⟨_, hv, hty⟩ := (Computes.grid hn hk hc hwf hbuf h).value_tensor hgiven hu hn hk
      obtain rfl := Expr.var.inj hv
      rw [Graph.meets_computed hn hc, Graph.misranks_computed hn hc]
      refine Iff.trans ?_ (h.misfits_iff hQ hgiven (hbuf.housed hn hu))
      -- the store has an index for each dimension
      have hstore := (hQ hty).mpr hwf.length
      simp only [Misfits, mem_accesses_gridStmts, or_and_right, exists_or, exists_eq_left]
      exact or_iff_left fun h => h hstore
  | _, _, _, _, _, .reduce hn hk hc _ _ _ hacc h, hu => by
      rw [Graph.meets_computed hn hc, Graph.misranks_computed hn hc]
      refine Iff.trans ?_ (h.misfits_iff hQ hgiven (hacc.housed_scalar hn hk hu))
      rw [accessesList_writeBack accesses_finalize]
      simp only [Misfits, mem_accesses_reduceStmts]
  | _, _, _, _, _, .argReduce hn hk hc _ _ hpos h htest, hu => by
      rw [Graph.meets_computed hn hc, Graph.misranks_computed hn hc]
      refine Iff.trans ?_ (h.misfits_iff (u := ⟨_, _⟩) hQ hgiven (hpos.housed_scalar hn hk hu))
      rw [accessesList_writeBack rfl]
      simp only [Misfits, mem_accesses_argReduceStmts htest]

end

end Expansions

end Expansion

/-! ### Procedures -/

namespace Task

open Expansion Stmt

/-- Those of a draft misfit where the outputs reach a node of a wrong rank. -/
theorem Drafts.misfits_iff {Q : Access → Prop} (hQ : AsksForRank Q) {g : Graph} {w : Nat}
    {ids : List Nat} {d d' : Draft} (h : Drafts g w ids d d') (hd : d.Typed g) :
    Misfits Q (accessesList d'.stmts) ↔
      Misfits Q (accessesList d.stmts) ∨ g.Meets g.Misranks ids := by
  induction h with
  | nil => simp
  | cons _ _ _ hc _ ih =>
      have hcode := hc.misfits_iff hQ hd.storage nofun
      rw [ih (hd.add hc), Draft.add, accessesList_append, misfits_append, accessesList,
        accesses_ofList, accessesList, List.append_nil, hcode, or_assoc]
      exact or_congr_right Graph.meets_cons.symm

/-- The accesses of a lowered task are as asked for where those of the values met are. -/
theorem Lowered.accesses_iff {Q : Access → Prop} (hQ : AsksForRank Q) {t : Task} {g : Graph}
    {params : List Var} {d : Draft} (h : t.Lowered g params d) :
    (∀ a ∈ accessesList d.stmts, Q a) ↔ ¬ g.Meets g.Misranks t.outputs := by
  have hiff : Misfits Q (accessesList d.stmts) ↔ g.Meets g.Misranks t.outputs :=
    (h.drafts.misfits_iff hQ ⟨h.housed_params, nofun⟩).trans (or_iff_right misfits_nil)
  rw [← hiff]
  simp [Misfits]

end Task

/-- The accesses without a check, in the nodes that the given ones are computed from, have the
ranks of their tensors. -/
def Graph.RanksUnchecked (g : Graph) (ids : List Nat) : Prop :=
  ∀ o ∈ ids, ∀ (i : Nat) (n : Node) (d : Compute), ReflTransGen g.Contains o i →
    g.node? i = some n → n.compute = some d → ∀ a ∈ d.value.unchecked, g.Ranked a

/-- In a program that was read, the other accesses have been checked. -/
theorem Program.ranksUnchecked_iff {source : String} {p : Program} (hp : parse source = .ok p)
    {ids : List Nat} : p.graph.RanksUnchecked ids ↔ ¬ p.graph.Meets p.graph.Misranks ids := by
  have hnode : ∀ {i : Nat} {n : Node} {d : Compute}, p.graph.node? i = some n →
      n.compute = some d → ((∀ a ∈ d.value.accesses, p.graph.Ranked a) ↔
        ∀ a ∈ d.value.unchecked, p.graph.Ranked a) := by
    intro i n d hn hd
    obtain ⟨S, hi, -⟩ := (wellScoped_of_parse hp).settled i n hn
    have hscoped := (hi.of_compute hn hd).2
    obtain ⟨s, htype⟩ := (((declared_of_parse hp).added hn).typed d hd).exists_typeOf
    exact Graph.ranked_of_typeOf hscoped htype
  constructor
  · rintro h ⟨o, ho, i, hi, n, d, hn, hd, a, ha, hranked⟩
    exact hranked ((hnode hn hd).mpr (h o ho i n d hi hn hd) a ha)
  · intro h o ho i n d hi hn hd
    refine (hnode hn hd).mp fun a ha => ?_
    by_contra hranked
    exact h ⟨o, ho, i, hi, n, d, hn, hd, a, ha, hranked⟩

/-- The sizes of the variables of a lowered source are found if they are words. -/
theorem lowerSource_sized {source name : String} {kind : ProcKind} {f : Procedure}
    (h : lowerSource source name kind = .ok f) {v : Var} (hv : v ∈ f.vars)
    (hcount : v.ty.count < Word.limit) : v.Sized := by
  obtain ⟨p, t, params, d, hp, ht, -, hlowered, rfl⟩ := lowerSource_eq_ok h
  have haxes := (Program.spends_of_parse hp).2.1
  rw [Procedure.vars, Stmt.vars_ofList] at hv
  rcases hlowered.scalar_or_mem haxes hv with ⟨s, hty⟩ | hv
  · exact .of_scalar hty
  · obtain ⟨i, n, -, hn, hty⟩ := hlowered.exists_node hv
    have hpos := Program.positive_of_parse hp hn
    cases hk : n.kind with
    | scalar s =>
        rw [hk] at hty
        obtain ⟨s, hty⟩ := hty
        exact .of_scalar hty
    | tensor s shape =>
        rw [hk] at hty hpos
        exact .of_tensor hty hpos hcount

/-- **When lowered code can be flattened.**  Where the numbers of elements are words, it is if and
only if every access that type inference has not looked at, in what the outputs are computed from,
has the rank of its tensor.  Then every access in the code is on a tensor variable and has its rank;
otherwise flattening fails over a layout. -/
theorem lowerSource_flatten_iff {source name : String} {kind : ProcKind} {f : Procedure}
    (h : lowerSource source name kind = .ok f) (hcount : ∀ v ∈ f.vars, v.ty.count < Word.limit) :
    ∃ p t, Program.parse source = .ok p ∧ p.task name = .ok t ∧
      ((∃ f', f.flatten = .ok f') ↔ p.graph.RanksUnchecked t.outputs) ∧
      ((∀ a ∈ f.body.accesses, a.Exact) ↔ p.graph.RanksUnchecked t.outputs) ∧
      ∀ e, f.flatten = .error e → ∃ l, e = .layout l := by
  have hsized : ∀ v ∈ f.vars, v.Sized := fun v hv => lowerSource_sized h hv (hcount v hv)
  have hsettles := Procedure.flatten_settles hsized
  obtain ⟨p, t, params, d, hp, ht, -, hlowered, rfl⟩ := lowerSource_eq_ok h
  rw [Stmt.accesses_ofList] at hsettles
  refine ⟨p, t, hp, ht, ?_, ?_, fun e he => ?_⟩
  · rw [hsettles.ok_iff, hlowered.accesses_iff Access.suits_tensor, Program.ranksUnchecked_iff hp]
  · rw [Stmt.accesses_ofList, hlowered.accesses_iff Access.exact_var, Program.ranksUnchecked_iff hp]
  · exact hsettles.error he

/-- An access in a cast, and one among the indices of another. -/
def gathered : String :=
  "input A: f32[2, 3];
input at: i32[2];
let y = grid[i: 2] => f32(A[at[i], 2]) + sum[k: 3] => A[i, k];"

/-- Elements that are gathered by elements of another tensor, all with as many indices as
dimensions. -/
theorem lowerSource_flatten_iff_gathered : ∃ f p t, lowerSource gathered "gather" .host = .ok f ∧
    (∀ v ∈ f.vars, v.ty.count < Word.limit) ∧ Program.parse gathered = .ok p ∧
    p.task "gather" = .ok t ∧ p.graph.RanksUnchecked t.outputs ∧
    ∀ a ∈ f.body.accesses, a.Exact := by
  have hok : (do
      let f ← lowerSource gathered "gather" .host
      let _ ← f.flatten
      return decide (∀ v ∈ f.vars, v.ty.count < Word.limit)) = Except.ok true := by
    decide +kernel
  obtain ⟨f, hf, hok⟩ := bind_eq_ok.mp hok
  obtain ⟨f', hf', hok⟩ := bind_eq_ok.mp hok
  have hcount := of_decide_eq_true (pure_eq_ok.mp hok)
  obtain ⟨p, t, hp, ht, hflatten, hexact, -⟩ := lowerSource_flatten_iff hf hcount
  have hranks := hflatten.mp ⟨f', hf'⟩
  exact ⟨f, p, t, hf, hcount, hp, ht, hranks, hexact.mpr hranks⟩

/-- A row of a matrix in a cast. -/
def rowInCast : String :=
  "input A: f32[2, 2];
let y = grid[i: 2] => f32(A[i]);"

/-- A row under a cast is lowered, and then not flattened. -/
theorem lowerSource_flatten_rowInCast : ∃ f, lowerSource rowInCast "main" .host = .ok f ∧
    (∀ v ∈ f.vars, v.ty.count < Word.limit) ∧
    f.flatten = .error (.layout (.rank [2, 2] "A" 1)) := by
  have hok : (do
      let f ← lowerSource rowInCast "main" .host
      return match f.flatten with
        | .ok _    => false
        | .error e => decide ((∀ v ∈ f.vars, v.ty.count < Word.limit) ∧
            e = .layout (.rank [2, 2] "A" 1))) = Except.ok true := by
    decide +kernel
  obtain ⟨f, hf, hok⟩ := bind_eq_ok.mp hok
  have hok := pure_eq_ok.mp hok
  split at hok
  · cases hok
  · rename_i e he
    obtain ⟨hcount, rfl⟩ := of_decide_eq_true hok
    exact ⟨f, hf, hcount, he⟩

end TensorLoops
