import TensorLoops.Proofs.Code.NormalForm

/-!
# Proofs — Code — Idempotence

Flattening what is flat.  Code is flat if every access in it has the one index that its variable
takes and every variable that no loop counts is laid out in one dimension already.  Flattening gives
flat code (`Stmt.flat_of_flatten`), because its accesses and variables are those that were there,
laid out; and it leaves exactly the flat code as it is (`Stmt.flatten_eq_self_iff`).  So flattening
a second time succeeds and changes nothing, whatever the first time went through
(`flatten_idempotent`).
-/

namespace TensorLoops

/-! ### Flat accesses and variables -/

/-- The variable is laid out in one dimension, and the number of its elements is found. -/
def Var.Flat (v : Var) : Prop := v.linear = v ∧ v.ty.Counted

/-- The access has one index, as many as its variable takes. -/
def Access.Flat (a : Access) : Prop := a.rank = 1 ∧ a.Suits

/-- The variable is flat, unless a loop counts it. -/
def Mention.Flat : Mention → Prop
  | counter _ => True
  | use v     => v.Flat

/-- A tensor laid out in one dimension has as many elements as before. -/
theorem Ty.Counted.linear {ty : Ty} (h : ty.Counted) : ty.linear.Counted := by
  cases ty with
  | tensor s shape =>
      have hcount : Word.product shape = .ok shape.prod := Word.product_eq_ok.mpr ⟨h, rfl⟩
      have hlt : [shape.prod].prod < Word.limit := by simpa using Word.product_lt hcount
      intro k
      cases k with
      | zero => exact Word.one_lt_limit
      | succ k => simpa using hlt
  | _ => trivial

/-- A variable laid out in one dimension is flat. -/
theorem Var.flat_linear {v : Var} (h : v.ty.Counted) : v.linear.Flat := by
  refine ⟨?_, h.linear⟩
  obtain ⟨id, hint, ty⟩ := v
  cases ty <;> simp [linear, Ty.linear]

theorem Var.Flat.flatten {v : Var} (h : v.Flat) : v.flatten = .ok v :=
  flatten_eq_ok.mpr ⟨h.2, h.1.symm⟩

/-- An access that suits its variable is flat once both are laid out in one dimension. -/
theorem Access.flat_linear {a : Access} (h : a.Suits) : a.linear.Flat := by
  refine ⟨a.linear_rank, ?_⟩
  obtain ⟨_, rank⟩ := a
  obtain ⟨v, rfl, htakes⟩ := h
  refine suits_var.mpr ?_
  obtain ⟨id, hint, ty⟩ := v
  cases ty with
  | tensor s shape => rfl
  | pointer base => rfl
  | _ => exact htakes.elim

/-- The one index of a flat access is its address. -/
theorem Access.Flat.flatIndex {base : Expr} {idxs : List Expr}
    (h : (Access.mk base idxs.length).Flat) : flatIndex base idxs = .ok idxs := by
  obtain ⟨hrank, v, rfl, htakes⟩ := h
  obtain ⟨i, rfl⟩ := List.length_eq_one_iff.mp hrank
  obtain ⟨id, hint, ty⟩ := v
  cases ty with
  | tensor s shape =>
      obtain ⟨n, rfl⟩ := List.length_eq_one_iff.mp htakes.symm
      rfl
  | pointer base => rfl
  | _ => exact htakes.elim

theorem Mention.flat_linear {o : Mention} (h : o.Counted) : o.linear.Flat := by
  cases o with
  | counter v => trivial
  | use v => exact v.flat_linear h

theorem Mention.forall_flat_use {vs : List Var} :
    (∀ o ∈ vs.map use, o.Flat) ↔ ∀ v ∈ vs, v.Flat :=
  List.forall_mem_map

/-! ### Flat code stays as it is -/

namespace Expr

mutual

/-- Expressions of flat accesses to flat variables are flattened to themselves. -/
theorem flatten_of_flat : ∀ {e : Expr}, (∀ a ∈ e.accesses, a.Flat) → (∀ v ∈ e.vars, v.Flat) →
    e.flatten = .ok e
  | .var v, _, hv => by
      rw [flatten, (hv v (List.mem_singleton_self v)).flatten]
      rfl
  | .const _ _, _, _ => rfl
  | .node _, _, _ => rfl
  | .binary _ lhs rhs, ha, hv => by
      rw [accesses, List.forall_mem_append] at ha
      rw [vars, List.forall_mem_append] at hv
      rw [flatten, flatten_of_flat ha.1 hv.1, flatten_of_flat ha.2 hv.2]
      rfl
  | .unary _ e, ha, hv => by
      rw [flatten, flatten_of_flat (e := e) ha hv]
      rfl
  | .cast e _, ha, hv => by
      rw [flatten, flatten_of_flat (e := e) ha hv]
      rfl
  | .element base idxs, ha, hv => by
      rw [accesses, List.forall_mem_cons, List.forall_mem_append] at ha
      rw [vars, List.forall_mem_append] at hv
      rw [flatten, flattenList_of_flat ha.2.2 hv.2, ok_bind, ha.1.flatIndex, ok_bind,
        flatten_of_flat ha.2.1 hv.1]
      rfl
  | .call _ args, ha, hv => by
      rw [flatten, flattenList_of_flat ha hv]
      rfl

theorem flattenList_of_flat : ∀ {es : List Expr}, (∀ a ∈ accessesList es, a.Flat) →
    (∀ v ∈ varsList es, v.Flat) → flattenList es = .ok es
  | [], _, _ => rfl
  | e :: es, ha, hv => by
      rw [accessesList, List.forall_mem_append] at ha
      rw [varsList, List.forall_mem_append] at hv
      rw [flattenList, flatten_of_flat ha.1 hv.1, flattenList_of_flat ha.2 hv.2]
      rfl

end

end Expr

namespace Asm

/-- The operands of an inline instruction stay as they are if they are flat. -/
theorem operands_of_flat {os : List AsmOperand}
    (ha : ∀ a ∈ Expr.accessesList (os.map (·.value)), a.Flat)
    (hv : ∀ v ∈ Expr.varsList (os.map (·.value)), v.Flat) :
    (os.mapM fun o => do
      let value ← o.value.flatten
      return { o with value } : Except Error (List AsmOperand)) = .ok os := by
  induction os with
  | nil => rfl
  | cons o os ih =>
      rw [List.map_cons, Expr.accessesList, List.forall_mem_append] at ha
      rw [List.map_cons, Expr.varsList, List.forall_mem_append] at hv
      rw [List.mapM_cons, Expr.flatten_of_flat ha.1 hv.1, ih ha.2 hv.2]
      rfl

/-- An inline instruction of flat operands is flattened to itself. -/
theorem flatten_of_flat {a : Asm} (ha : ∀ x ∈ a.accesses, x.Flat) (hv : ∀ v ∈ a.vars, v.Flat) :
    a.flatten = .ok a := by
  rw [accesses, List.forall_mem_append] at ha
  rw [vars_eq_append, List.forall_mem_append] at hv
  simp only [flatten, operands_of_flat ha.1 hv.1, operands_of_flat ha.2 hv.2]
  rfl

end Asm

namespace Stmt

mutual

/-- Flat statements stay as they are, by induction on the statement. -/
theorem flatten_of_flat : ∀ {s : Stmt}, (∀ a ∈ s.accesses, a.Flat) → (∀ o ∈ s.mentions, o.Flat) →
    s.flatten = .ok s
  | .seq ss, ha, ho => by
      rw [flatten, flattenList_of_flat ha ho]
      rfl
  | .declare v none, _, ho => by
      have hv : v.Flat := ho _ List.mem_cons_self
      rw [flatten, hv.flatten]
      rfl
  | .declare v (some init), ha, ho => by
      obtain ⟨hv, ho⟩ := List.forall_mem_cons.mp ho
      rw [flatten, Var.Flat.flatten hv, Expr.flatten_of_flat ha (Mention.forall_flat_use.mp ho)]
      rfl
  | .assign v value, ha, ho => by
      obtain ⟨hv, ho⟩ := List.forall_mem_cons.mp ho
      rw [flatten, Var.Flat.flatten hv, Expr.flatten_of_flat ha (Mention.forall_flat_use.mp ho)]
      rfl
  | .store buf idxs value, ha, ho => by
      rw [accesses, List.forall_mem_cons, List.forall_mem_append] at ha
      rw [mentions, List.forall_mem_cons, Mention.forall_flat_use, List.forall_mem_append] at ho
      rw [flatten, Expr.flattenList_of_flat ha.2.1 ho.2.1, ok_bind, ha.1.flatIndex, ok_bind,
        Var.Flat.flatten ho.1, Expr.flatten_of_flat ha.2.2 ho.2.2]
      rfl
  | .loop v extent body, ha, ho => by
      rw [accesses, List.forall_mem_append] at ha
      rw [mentions, List.forall_mem_cons, List.forall_mem_append, Mention.forall_flat_use] at ho
      rw [flatten, Expr.flatten_of_flat ha.1 ho.2.1, flatten_of_flat ha.2 ho.2.2]
      rfl
  | .cond test yes no, ha, ho => by
      rw [accesses, List.forall_mem_append, List.forall_mem_append] at ha
      rw [mentions, List.forall_mem_append, List.forall_mem_append, Mention.forall_flat_use] at ho
      rw [flatten, Expr.flatten_of_flat ha.1.1 ho.1.1, flatten_of_flat ha.1.2 ho.1.2,
        flattenOption_of_flat ha.2 ho.2]
      rfl
  | .eval e, ha, ho => by
      rw [flatten, Expr.flatten_of_flat ha (Mention.forall_flat_use.mp ho)]
      rfl
  | .ret e, ha, ho => by
      rw [flatten, Expr.flatten_of_flat ha (Mention.forall_flat_use.mp ho)]
      rfl
  | .asm a, ha, ho => by
      rw [flatten, Asm.flatten_of_flat ha (Mention.forall_flat_use.mp ho)]
      rfl

/-- Flat statements are flattened to themselves, in lists as well. -/
theorem flattenList_of_flat : ∀ {ss : List Stmt}, (∀ a ∈ accessesList ss, a.Flat) →
    (∀ o ∈ mentionsList ss, o.Flat) → flattenList ss = .ok ss
  | [], _, _ => rfl
  | s :: ss, ha, ho => by
      rw [accessesList, List.forall_mem_append] at ha
      rw [mentionsList, List.forall_mem_append] at ho
      rw [flattenList, flatten_of_flat ha.1 ho.1, flattenList_of_flat ha.2 ho.2]
      rfl

theorem flattenOption_of_flat : ∀ {s : Option Stmt}, (∀ a ∈ accessesOption s, a.Flat) →
    (∀ o ∈ mentionsOption s, o.Flat) → flattenOption s = .ok s
  | none, _, _ => rfl
  | some s, ha, ho => by
      rw [flattenOption, flatten_of_flat (s := s) ha ho]
      rfl

end

/-- Every access has one index and every variable that no loop counts has one dimension. -/
structure Flat (s : Stmt) : Prop where
  accesses : ∀ a ∈ s.accesses, a.Flat
  vars     : ∀ v, .use v ∈ s.mentions → v.Flat

/-- A statement is flat if its accesses and its mentions of variables are. -/
theorem flat_iff {s : Stmt} :
    s.Flat ↔ (∀ a ∈ s.accesses, a.Flat) ∧ ∀ o ∈ s.mentions, o.Flat := by
  constructor
  · rintro ⟨ha, hv⟩
    refine ⟨ha, fun o ho => ?_⟩
    cases o with
    | counter v => trivial
    | use v => exact hv v ho
  · exact fun h => ⟨h.1, fun v hv => h.2 _ hv⟩

/-- **Flattening gives flat code.** -/
theorem flat_of_flatten {s t : Stmt} (h : s.flatten = .ok t) : t.Flat := by
  have hflattens := s.flatten_flattens
  obtain ⟨hsuits, hcounted⟩ := hflattens.ok_iff.mp ⟨t, h⟩
  obtain ⟨haccesses, hmentions⟩ := hflattens.result h
  rw [flat_iff, haccesses, hmentions]
  exact ⟨List.forall_mem_map.mpr fun a ha => Access.flat_linear (hsuits a ha),
    List.forall_mem_map.mpr fun o ho => Mention.flat_linear (hcounted o ho)⟩

/-- The statements that are flattened to themselves are the flat ones. -/
theorem flatten_eq_self_iff {s : Stmt} : s.flatten = .ok s ↔ s.Flat := by
  constructor
  · exact flat_of_flatten
  · intro h
    obtain ⟨ha, ho⟩ := flat_iff.mp h
    exact flatten_of_flat ha ho

end Stmt

/-! ### Procedures -/

/-- The parameters and locals have one dimension, and the body is flat. -/
structure Procedure.Flat (p : Procedure) : Prop where
  params : ∀ v ∈ p.params, v.Flat
  locals : ∀ v ∈ p.locals, v.Flat
  body   : p.body.Flat

namespace Procedure

/-- A procedure is flattened when its parameters, its locals and its body are. -/
theorem flatten_eq_ok {p q : Procedure} : p.flatten = .ok q ↔ ∃ params locals body,
    p.params.mapM Var.flatten = .ok params ∧ p.locals.mapM Var.flatten = .ok locals ∧
      p.body.flatten = .ok body ∧ q = { p with params, locals, body } := by
  simp only [flatten, bind_eq_ok, pure_eq_ok]
  constructor
  · rintro ⟨params, hparams, locals, hlocals, body, hbody, rfl⟩
    exact ⟨params, locals, body, hparams, hlocals, hbody, rfl⟩
  · rintro ⟨params, locals, body, hparams, hlocals, hbody, rfl⟩
    exact ⟨params, hparams, locals, hlocals, body, hbody, rfl⟩

/-- Flattened variables are flat. -/
theorem flat_vars_of_mapM {vs ws : List Var} (h : vs.mapM Var.flatten = .ok ws) :
    ∀ w ∈ ws, w.Flat := by
  have hflattens := Var.mapM_flatten_flattens vs
  obtain ⟨-, hcounted⟩ := hflattens.ok_iff.mp ⟨ws, h⟩
  rw [hflattens.result h]
  exact List.forall_mem_map.mpr fun v hv => v.flat_linear (hcounted v hv)

theorem flat_of_flatten {p q : Procedure} (h : p.flatten = .ok q) : q.Flat := by
  obtain ⟨params, locals, body, hparams, hlocals, hbody, rfl⟩ := flatten_eq_ok.mp h
  exact ⟨flat_vars_of_mapM hparams, flat_vars_of_mapM hlocals, Stmt.flat_of_flatten hbody⟩

theorem mapM_flatten_of_flat {vs : List Var} (h : ∀ v ∈ vs, v.Flat) :
    vs.mapM Var.flatten = .ok vs :=
  mapM_eq_ok_iff.mpr (List.forall₂_same.mpr fun v hv => (h v hv).flatten)

/-- The procedures that are flattened to themselves are the flat ones. -/
theorem flatten_eq_self_iff {p : Procedure} : p.flatten = .ok p ↔ p.Flat := by
  constructor
  · exact flat_of_flatten
  · intro h
    exact flatten_eq_ok.mpr ⟨p.params, p.locals, p.body, mapM_flatten_of_flat h.params,
      mapM_flatten_of_flat h.locals, Stmt.flatten_eq_self_iff.mpr h.body, rfl⟩

end Procedure

/-- **Flattening is idempotent.**  What flattening gives, for a procedure or for a statement, is
flat, and flattening it again gives it back; flat code is all that flattening gives back. -/
theorem flatten_idempotent :
    (∀ p q : Procedure, p.flatten = .ok q → q.flatten = .ok q ∧ q.Flat) ∧
    (∀ s t : Stmt, s.flatten = .ok t → t.flatten = .ok t ∧ t.Flat) ∧
    (∀ p : Procedure, p.flatten = .ok p ↔ p.Flat) ∧ ∀ s : Stmt, s.flatten = .ok s ↔ s.Flat := by
  refine ⟨fun p q h => ?_, fun s t h => ?_, fun _ => Procedure.flatten_eq_self_iff,
    fun _ => Stmt.flatten_eq_self_iff⟩
  · have hflat := Procedure.flat_of_flatten h
    exact ⟨Procedure.flatten_eq_self_iff.mpr hflat, hflat⟩
  · have hflat := Stmt.flat_of_flatten h
    exact ⟨Stmt.flatten_eq_self_iff.mpr hflat, hflat⟩

/-- `t[] = t[] + A[p[r[i]], i]` in a loop over `i`: a single element, rows found by a pointer
through a list, and an access inside an index. -/
def Procedure.tally : Procedure :=
  let t : Var := ⟨0, "t", .tensor .f32 []⟩
  let a : Var := ⟨1, "A", .tensor .f32 [4, 3]⟩
  let p : Var := ⟨2, "p", .pointer (.scalar .i32)⟩
  let r : Var := ⟨3, "r", .tensor .i32 [3]⟩
  let i : Var := ⟨4, "i", .scalar .i32⟩
  ⟨"tally", .host, [t, a, p], [r],
    .loop i (.int 3) (.store t [] (.add (.element (.var t) [])
      (.element (.var a) [.element (.var p) [.element (.var r) [.var i]], .var i]))), .void⟩

/-- Flattening `Procedure.tally` changes its parameters; flattening the outcome changes nothing. -/
theorem flatten_idempotent_tally : ∃ q t, Procedure.tally.flatten = .ok q ∧
    Procedure.tally.body.flatten = .ok t ∧ q.params ≠ Procedure.tally.params ∧
    (q.flatten = .ok q ∧ q.Flat) ∧ t.flatten = .ok t ∧ t.Flat := by
  obtain ⟨hprocedure, hstmt, -⟩ := flatten_idempotent
  obtain ⟨q, hq, hchanged⟩ : ∃ q, Procedure.tally.flatten = .ok q ∧
      q.params ≠ Procedure.tally.params := ⟨_, rfl, by decide⟩
  obtain ⟨t, ht⟩ : ∃ t, Procedure.tally.body.flatten = .ok t := ⟨_, rfl⟩
  exact ⟨q, t, hq, ht, hchanged, hprocedure _ _ hq, hstmt _ _ ht⟩

end TensorLoops
