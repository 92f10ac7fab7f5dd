import TensorLoops.Code.Stmt
import TensorLoops.Proofs.Compute.Unfolding

/-!
# Proofs — Code — Scoping

Where variables of a body may be mentioned.  A statement stands among variables that are in scope
and ids that are taken: a variable is mentioned only where it is in scope, and a loop or a
declaration introduces only an id that is not taken.  A loop's axis is in scope in its body, a
declared variable in the statements after its declaration in the same block.  Its id stays taken
longer than that, also outside a sequence that stands inside another one, so nothing depends on
whether an inner sequence counts as a block of its own.
-/

namespace TensorLoops

/-- Every variable is in scope, and no node of a graph is left. -/
structure Expr.Closed (scope : List Var) (e : Expr) : Prop where
  vars  : e.vars ⊆ scope
  nodes : e.nodes = []

namespace Stmt

/-- The variables that a statement brings into scope for those after it in its block. -/
def declared : Stmt → List Var
  | .declare v _ => [v]
  | _            => []

mutual

/-- The ids that are taken once a statement has been met. -/
def introduced : Stmt → List Nat
  | .seq ss      => introducedList ss
  | .declare v _ => [v.id]
  | _            => []

def introducedList : List Stmt → List Nat
  | []      => []
  | s :: ss => s.introduced ++ introducedList ss

end

mutual

/-- The statement mentions variables in `scope` only and introduces no id that is `taken`. -/
def WellScoped (scope : List Var) (taken : List Nat) : Stmt → Prop
  | .seq ss               => WellScopedList scope taken ss
  | .declare v init       => v.id ∉ taken ∧ ∀ e ∈ init, e.Closed scope
  | .assign v value       => v ∈ scope ∧ value.Closed scope
  | .store buf idxs value => buf ∈ scope ∧ (∀ e ∈ idxs, e.Closed scope) ∧ value.Closed scope
  | .loop v extent body   =>
      v.id ∉ taken ∧ extent.Closed scope ∧ body.WellScoped (v :: scope) (v.id :: taken)
  | .cond test yes no     =>
      test.Closed scope ∧ yes.WellScoped scope taken ∧ WellScopedOption scope taken no
  | .eval e               => e.Closed scope
  | .ret e                => e.Closed scope
  | .asm a                => ∀ o ∈ a.outputs ++ a.inputs, o.value.Closed scope

/-- The statements of a block, each after those before it. -/
def WellScopedList (scope : List Var) (taken : List Nat) : List Stmt → Prop
  | []      => True
  | s :: ss => s.WellScoped scope taken ∧
      WellScopedList (s.declared ++ scope) (s.introduced ++ taken) ss

def WellScopedOption (scope : List Var) (taken : List Nat) : Option Stmt → Prop
  | none   => True
  | some s => s.WellScoped scope taken

end

end Stmt

/-! ### Closed expressions -/

namespace Expr.Closed

variable {scope scope' : List Var} {e e' : Expr}

/-- An expression that is closed in a scope is closed in every larger one. -/
theorem mono (h : e.Closed scope) (hs : scope ⊆ scope') : e.Closed scope' :=
  ⟨fun _ hv => hs (h.vars hv), h.nodes⟩

theorem var {v : Var} (h : v ∈ scope) : (Expr.var v).Closed scope :=
  ⟨List.cons_subset.mpr ⟨h, List.nil_subset _⟩, rfl⟩

theorem const {value : Literal} {s : Scalar} : (Expr.const value s).Closed scope :=
  ⟨List.nil_subset _, rfl⟩

/-- Operators keep expressions closed. -/
theorem binary {op : BinaryOp} (h : e.Closed scope) (h' : e'.Closed scope) :
    (Expr.binary op e e').Closed scope :=
  ⟨List.append_subset.mpr ⟨h.vars, h'.vars⟩, by rw [Expr.nodes, h.nodes, h'.nodes, List.append_nil]⟩

theorem unary {op : UnaryOp} (h : e.Closed scope) : (Expr.unary op e).Closed scope :=
  ⟨h.vars, h.nodes⟩

theorem cast {ty : Ty} (h : e.Closed scope) : (Expr.cast e ty).Closed scope := ⟨h.vars, h.nodes⟩

/-- The variables of closed expressions are in scope. -/
theorem varsList_subset {es : List Expr} (h : ∀ e ∈ es, e.Closed scope) :
    Expr.varsList es ⊆ scope := by
  induction es with
  | nil => exact List.nil_subset _
  | cons e es ih =>
      obtain ⟨he, hes⟩ := List.forall_mem_cons.mp h
      exact List.append_subset.mpr ⟨he.vars, ih hes⟩

/-- Closed expressions mention no node. -/
theorem nodesList_eq_nil {es : List Expr} (h : ∀ e ∈ es, e.Closed scope) : Expr.nodesList es = [] :=
  List.eq_nil_iff_forall_not_mem.mpr fun i hi => by
    obtain ⟨e, he, hi⟩ := Expr.mem_nodesList.mp hi
    rw [(h e he).nodes] at hi
    exact List.not_mem_nil hi

/-- An access is closed if its base and its indices are. -/
theorem element {es : List Expr} (h : e.Closed scope) (hs : ∀ i ∈ es, i.Closed scope) :
    (Expr.element e es).Closed scope :=
  ⟨List.append_subset.mpr ⟨h.vars, varsList_subset hs⟩, by
    rw [Expr.nodes, h.nodes, nodesList_eq_nil hs, List.append_nil]⟩

end Expr.Closed

/-! ### Putting statements together -/

namespace Stmt

variable {scope scope' : List Var} {taken taken' : List Nat}

/-- What statements introduce is introduced by one part or the other. -/
theorem introducedList_append {ss ts : List Stmt} :
    introducedList (ss ++ ts) = introducedList ss ++ introducedList ts := by
  induction ss with
  | nil => rfl
  | cons s ss ih => rw [List.cons_append, introducedList, introducedList, ih, List.append_assoc]

mutual

/-- A statement fits where more is in scope and less is taken. -/
theorem WellScoped.mono : ∀ {s : Stmt} {scope scope' : List Var} {taken taken' : List Nat},
    scope ⊆ scope' → taken' ⊆ taken → s.WellScoped scope taken → s.WellScoped scope' taken'
  | .seq _, _, _, _, _, hs, ht, h => WellScopedList.mono hs ht h
  | .declare _ _, _, _, _, _, hs, ht, h => ⟨fun hv => h.1 (ht hv), fun e he => (h.2 e he).mono hs⟩
  | .assign _ _, _, _, _, _, hs, _, h => ⟨hs h.1, h.2.mono hs⟩
  | .store _ _ _, _, _, _, _, hs, _, h =>
      ⟨hs h.1, fun e he => (h.2.1 e he).mono hs, h.2.2.mono hs⟩
  | .loop _ _ _, _, _, _, _, hs, ht, h => ⟨fun hv => h.1 (ht hv), h.2.1.mono hs,
      WellScoped.mono (List.cons_subset_cons _ hs) (List.cons_subset_cons _ ht) h.2.2⟩
  | .cond _ _ none, _, _, _, _, hs, ht, h => ⟨h.1.mono hs, WellScoped.mono hs ht h.2.1, trivial⟩
  | .cond _ _ (some _), _, _, _, _, hs, ht, h =>
      ⟨h.1.mono hs, WellScoped.mono hs ht h.2.1, WellScoped.mono hs ht h.2.2⟩
  | .eval _, _, _, _, _, hs, _, h => Expr.Closed.mono h hs
  | .ret _, _, _, _, _, hs, _, h => Expr.Closed.mono h hs
  | .asm _, _, _, _, _, hs, _, h => fun o ho => (h o ho).mono hs

/-- More in scope and fewer ids taken keep statements well-scoped. -/
theorem WellScopedList.mono :
    ∀ {ss : List Stmt} {scope scope' : List Var} {taken taken' : List Nat}, scope ⊆ scope' →
      taken' ⊆ taken → WellScopedList scope taken ss → WellScopedList scope' taken' ss
  | [], _, _, _, _, _, _, _ => trivial
  | _ :: _, _, _, _, _, hs, ht, h => ⟨WellScoped.mono hs ht h.1,
      WellScopedList.mono (append_subset_append hs) (append_subset_append ht) h.2⟩

end

/-- Blocks one after the other. -/
theorem WellScopedList.append {ss ts : List Stmt} (hs : WellScopedList scope taken ss)
    (ht : WellScopedList scope (introducedList ss ++ taken) ts) :
    WellScopedList scope taken (ss ++ ts) := by
  induction ss generalizing scope taken with
  | nil => exact ht
  | cons s ss ih =>
      refine ⟨hs.1, ih hs.2 (ht.mono (List.subset_append_right _ _) fun i hi => ?_)⟩
      simp only [introducedList, List.mem_append] at hi ⊢
      tauto

/-- Being well-scoped does not depend on how a list is made one statement. -/
theorem wellScoped_ofList {ss : List Stmt} (h : WellScopedList scope taken ss) :
    (ofList ss).WellScoped scope taken := by
  unfold ofList
  split
  · exact h.1
  · exact h

theorem introduced_ofList {ss : List Stmt} : (ofList ss).introduced = introducedList ss := by
  unfold ofList
  split
  · rw [introducedList, introducedList, List.append_nil]
  · rfl

end Stmt

end TensorLoops
