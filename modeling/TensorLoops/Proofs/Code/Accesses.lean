import TensorLoops.Proofs.Code.Layout

/-!
# Proofs — Code — Accesses

What flattening looks at.  `accesses` lists what is indexed in code, at any depth, with the number
of indices, and an access suits its variable if there are as many as its type takes
(`Access.Suits`).  A variable is laid out in one dimension if the number of its elements is found
(`Var.Sized`), and too many elements of a parameter or a local are in the way
(`Procedure.flatten_overflows`).
-/

namespace TensorLoops

/-- What is read or written at indices, and how many there are. -/
structure Access where
  base : Expr
  rank : Nat
deriving Repr

/-- Elements of the type are found by so many indices. -/
def Ty.Takes : Ty → Nat → Prop
  | .tensor _ shape, rank => rank = shape.length
  | .pointer _,      rank => rank = 1
  | _,               _    => False

/-- A variable is accessed by as many indices as its type takes. -/
def Access.Suits (a : Access) : Prop := ∃ v, a.base = .var v ∧ v.ty.Takes a.rank

/-- The number of elements of the variable is a word. -/
def Var.Sized (v : Var) : Prop := ∃ w, v.flatten = .ok w

namespace Expr

mutual

/-- The accesses in an expression, at any depth. -/
def accesses : Expr → List Access
  | .var _             => []
  | .const _ _         => []
  | .node _            => []
  | .binary _ lhs rhs  => lhs.accesses ++ rhs.accesses
  | .unary _ operand   => operand.accesses
  | .cast operand _    => operand.accesses
  | .element base idxs => ⟨base, idxs.length⟩ :: (base.accesses ++ accessesList idxs)
  | .call _ args       => accessesList args

def accessesList : List Expr → List Access
  | []      => []
  | e :: es => e.accesses ++ accessesList es

end

end Expr

def Asm.accesses (a : Asm) : List Access :=
  Expr.accessesList (a.outputs.map AsmOperand.value) ++
    Expr.accessesList (a.inputs.map AsmOperand.value)

namespace Stmt

mutual

/-- The accesses in a statement, at any depth. -/
def accesses : Stmt → List Access
  | .seq ss              => accessesList ss
  | .declare _ init      => init.elim [] Expr.accesses
  | .assign _ value      => value.accesses
  | .store buf idxs val  => ⟨.var buf, idxs.length⟩ :: (Expr.accessesList idxs ++ val.accesses)
  | .loop _ extent body  => extent.accesses ++ body.accesses
  | .cond test yes no    => test.accesses ++ yes.accesses ++ accessesOption no
  | .eval e              => e.accesses
  | .ret e               => e.accesses
  | .asm a               => a.accesses

def accessesList : List Stmt → List Access
  | []      => []
  | s :: ss => s.accesses ++ accessesList ss

def accessesOption : Option Stmt → List Access
  | none   => []
  | some s => s.accesses

end

end Stmt

/-- An access to a variable suits it if its type takes that many indices. -/
theorem Access.suits_var {v : Var} {rank : Nat} :
    (Access.mk (.var v) rank).Suits ↔ v.ty.Takes rank :=
  ⟨fun ⟨_, hbase, hrank⟩ => by rwa [Expr.var.inj hbase], fun h => ⟨v, rfl, h⟩⟩

namespace Stmt

variable {ss ts : List Stmt}

@[simp] theorem accessesList_append :
    accessesList (ss ++ ts) = accessesList ss ++ accessesList ts := by
  induction ss with
  | nil => rfl
  | cons s ss ih => simp [accessesList, ih]

/-- The accesses of a list of statements do not depend on how it is made one statement. -/
@[simp] theorem accesses_ofList : (ofList ss).accesses = accessesList ss := by
  unfold ofList
  split
  · simp [accessesList]
  · rfl

end Stmt

/-- The number of elements of the type. -/
def Ty.count : Ty → Nat
  | .tensor _ shape => shape.prod
  | _               => 1

theorem Var.Sized.of_scalar {v : Var} {s : Scalar} (hty : v.ty = .scalar s) : v.Sized :=
  ⟨v, by rw [Var.flatten, hty]⟩

/-- The number of elements of a tensor without empty dimensions is found if it is a word. -/
theorem Var.Sized.of_tensor {v : Var} {s : Scalar} {shape : List Nat}
    (hty : v.ty = .tensor s shape) (hpos : ∀ k ∈ shape, 0 < k) (h : v.ty.count < Word.limit) :
    v.Sized := by
  rw [hty, Ty.count] at h
  exact ⟨_, by rw [Var.flatten, hty]; simp only [Word.product_of_lt hpos h]; rfl⟩

/-- The number of elements of a sized variable is a word. -/
theorem Var.Sized.count_lt {v : Var} (h : v.Sized) : v.ty.count < Word.limit := by
  obtain ⟨w, h⟩ := h
  rw [Var.flatten] at h
  cases hty : v.ty with
  | tensor s shape =>
      rw [hty] at h
      obtain ⟨size, hsize, -⟩ := bind_eq_ok.mp h
      rw [Ty.count, ← Word.product_eq hsize]
      exact Word.product_lt hsize
  | _ => exact Word.one_lt_limit

/-- Flattening a variable fails by an overflow only. -/
theorem Var.flatten_eq_error {v : Var} {e : Error} (h : v.flatten = .error e) :
    e = .arithmetic .mulOverflow := by
  rw [Var.flatten] at h
  split at h
  · rcases bind_eq_error.mp h with h | ⟨_, -, h⟩
    · exact Word.product_eq_error h
    · exact nomatch h
  · exact nomatch h

/-- One variable with too many elements makes the flattening of a list of them overflow. -/
theorem mapM_flatten_overflows {vs : List Var} {v : Var} (hv : v ∈ vs)
    (hcount : Word.limit ≤ v.ty.count) :
    vs.mapM Var.flatten = .error (.arithmetic .mulOverflow) := by
  cases h : vs.mapM Var.flatten with
  | ok ws =>
      obtain ⟨k, hk⟩ := List.getElem?_of_mem hv
      obtain ⟨w, -, hw⟩ := forall₂_getElem? (mapM_eq_ok_iff.mp h) hk
      exact absurd (Var.Sized.count_lt ⟨w, hw⟩) (Nat.not_lt.mpr hcount)
  | error e =>
      obtain ⟨_, -, h⟩ := mapM_eq_error h
      rw [Var.flatten_eq_error h]

/-- A parameter or a local with too many elements is in the way of flattening. -/
theorem Procedure.flatten_overflows {p : Procedure} {v : Var} (hv : v ∈ p.params ++ p.locals)
    (hcount : Word.limit ≤ v.ty.count) : p.flatten = .error (.arithmetic .mulOverflow) := by
  rw [Procedure.flatten]
  cases hparams : p.params.mapM Var.flatten with
  | error e =>
      obtain ⟨_, -, h⟩ := mapM_eq_error hparams
      rw [Var.flatten_eq_error h]
      rfl
  | ok ws =>
      have hlocal : v ∈ p.locals := by
        refine (List.mem_append.mp hv).resolve_left fun hv => ?_
        cases hparams.symm.trans (mapM_flatten_overflows hv hcount)
      rw [mapM_flatten_overflows hlocal hcount]
      rfl

end TensorLoops
