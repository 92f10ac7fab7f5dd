import TensorLoops.Proofs.Device.Protocol

/-!
# Proofs — Device — SourceSizes

Which constant source sizes a copy is made with.  A size is checked as a signed word.  A signed
literal is one, and so is an unsigned literal below `2 ^ 63`; these are refused unless they are
within the copy size.  An unsigned literal of `2 ^ 63` or more is no signed word, is taken for a
size that is not known yet, and passes (`copy_constant_iff`).
-/

namespace TensorLoops

/-- An integer literal of 64 bits, signed or unsigned, and its value. -/
inductive Literal.IsWord : Literal → Int → Prop where
  | signed {i : Int} : -2 ^ 63 ≤ i → i < 2 ^ 63 → IsWord (.int i) i
  | unsigned {n : Nat} : n < 2 ^ 64 → IsWord (.nat n) n

/-- A literal of a word is an integer below `2 ^ 63` only. -/
theorem Literal.IsWord.toInt? {value : Literal} {n : Int} (h : value.IsWord n) :
    value.toInt? = if n < 2 ^ 63 then some n else none := by
  cases h with
  | signed _ hlt => exact (if_pos hlt).symm
  | @unsigned n _ =>
      show (if n < 2 ^ 63 then some (n : Int) else none) = _
      by_cases hn : n < 2 ^ 63
      · rw [if_pos hn, if_pos (by omega)]
      · rw [if_neg hn, if_neg (by omega)]

namespace Catalogue

variable {c : Catalogue}

/-- Every function of the built-in catalogue is found in this one. -/
def HoldsBuiltins (c : Catalogue) : Prop :=
  ∃ b, builtins = .ok b ∧ ∀ name p, b.get? name = some p → c.get? name = some p

theorem HoldsBuiltins.get? (h : c.HoldsBuiltins) {p : Procedure} (hp : p ∈ Device.functions) :
    c.get? p.name = some p := by
  obtain ⟨b, hb, hfound⟩ := h
  obtain rfl : builtIn = b := Except.ok.inj (builtins_eq.symm.trans hb)
  exact hfound _ _ (get?_builtIn hp)

section Copy

variable {size prefetch : Nat} {level : CacheLevel} {v : CopyVariant} {sourceSize : Option Expr}

/-- A legal copy is made, unless its source size is a constant outside the copy. -/
theorem copy_of_within (hc : c.HoldsBuiltins) (hv : CopyVariant.make size level prefetch = .ok v)
    (hsize : ∀ n, sourceSize.bind Expr.constInt? = some n → 0 ≤ n ∧ n ≤ size) (dst src : Expr) :
    c.copy dst src size sourceSize level prefetch =
      .ok (.call v.funcName [dst, src, sourceSize.getD (.ofSize size)]) := by
  have hmem := Device.mem_functions_of_copy (CopyVariant.mem_all_of_make hv)
  exact copy_eq_ok.mpr ⟨v, hv, hsize, call_eq_ok.mpr ⟨rfl, _, hc.get? hmem, rfl⟩⟩

/-- A literal size outside the copy is refused. -/
theorem copy_of_outside (hv : CopyVariant.make size level prefetch = .ok v) {n : Int}
    (hn : sourceSize.bind Expr.constInt? = some n) (houtside : n < 0 ∨ (size : Int) < n)
    (dst src : Expr) : c.copy dst src size sourceSize level prefetch =
      .error (.instruction (.sourceSize size n)) := by
  unfold copy
  rw [hv, ok_bind, hn]
  dsimp only
  rw [if_pos houtside]
  rfl

end Copy

/-- **Constant source sizes are checked as signed words.**  Let a catalogue hold the built-in
functions, a copy be legal and its source size be an integer literal of 64 bits, signed or unsigned.
The copy is made exactly if the size is within `0` and the copy size, or is `2 ^ 63` or more; it is
then the call with that size.  Every other size is refused as an illegal parameter. -/
theorem copy_constant_iff (hc : c.HoldsBuiltins) {size prefetch : Nat} {level : CacheLevel}
    {v : CopyVariant} (hv : CopyVariant.make size level prefetch = .ok v) {value : Literal}
    {n : Int} (hvalue : value.IsWord n) (dtype : Scalar) (dst src : Expr) :
    ((∃ e, c.copy dst src size (some (.const value dtype)) level prefetch = .ok e) ↔
      0 ≤ n ∧ n ≤ size ∨ 2 ^ 63 ≤ n) ∧
    (∀ e, c.copy dst src size (some (.const value dtype)) level prefetch = .ok e →
      e = .call v.funcName [dst, src, .const value dtype]) ∧
    ∀ e, c.copy dst src size (some (.const value dtype)) level prefetch = .error e →
      e = .instruction (.sourceSize size n) ∧ e.kind = .parameter := by
  have hconst : (some (Expr.const value dtype)).bind Expr.constInt? =
      if n < 2 ^ 63 then some n else none := hvalue.toInt?
  have hsmall : size ≤ 16 := by
    obtain ⟨hsize, -⟩ := CopyVariant.make_eq_ok.mp hv
    simp only [CopyVariant.sizes, List.mem_cons, List.not_mem_nil, or_false] at hsize
    omega
  by_cases hpass : 0 ≤ n ∧ n ≤ size ∨ 2 ^ 63 ≤ n
  · have hwithin : ∀ m, (some (Expr.const value dtype)).bind Expr.constInt? = some m →
        0 ≤ m ∧ m ≤ size := by
      intro m hm
      rw [hconst] at hm
      split at hm
      · cases hm
        omega
      · cases hm
    rw [copy_of_within hc hv hwithin]
    exact ⟨iff_of_true ⟨_, rfl⟩ hpass, fun e he => (Except.ok.inj he).symm, fun e he => by cases he⟩
  · have hn : n < 2 ^ 63 := by omega
    rw [if_pos hn] at hconst
    rw [copy_of_outside hv hconst (by omega)]
    refine ⟨iff_of_false (by rintro ⟨e, he⟩; cases he) hpass, fun e he => (by cases he), ?_⟩
    intro e he
    cases he
    exact ⟨rfl, rfl⟩

theorem holdsBuiltins_builtIn : builtIn.HoldsBuiltins := ⟨builtIn, builtins_eq, fun _ _ h => h⟩

/-- The largest size that is accepted, and the next one. -/
theorem copy_constant_iff_sixteen : builtIn.HoldsBuiltins ∧
    CopyVariant.make 16 .global 128 = .ok ⟨16, .global, 128⟩ ∧
    (Literal.nat 16).IsWord 16 ∧ (Literal.int 17).IsWord 17 ∧
    (∃ e, builtIn.copy (.int 0) (.int 1) 16 (some (.const (.nat 16) .u64)) .global 128 = .ok e) ∧
    ¬ ∃ e, builtIn.copy (.int 0) (.int 1) 16 (some (.const (.int 17) .i32)) .global 128 =
      .ok e := by
  have hfit : (Literal.nat 16).IsWord 16 := .unsigned (by decide)
  have hlarge : (Literal.int 17).IsWord 17 := .signed (by decide) (by decide)
  have hv : CopyVariant.make 16 .global 128 = .ok ⟨16, .global, 128⟩ := rfl
  obtain ⟨haccepts, -⟩ :=
    copy_constant_iff holdsBuiltins_builtIn hv hfit .u64 (.int 0) (.int 1)
  obtain ⟨hrefuses, -⟩ :=
    copy_constant_iff holdsBuiltins_builtIn hv hlarge .i32 (.int 0) (.int 1)
  exact ⟨holdsBuiltins_builtIn, hv, hfit, hlarge, haccepts.mpr (by decide),
    fun h => absurd (hrefuses.mp h) (by decide)⟩

/-- An unsigned size beyond every signed word is accepted, though it is larger than the copy. -/
theorem copy_beyond_words : ∃ c : Catalogue, c.HoldsBuiltins ∧
    (∃ v, CopyVariant.make 16 .always 0 = .ok v) ∧
    (Literal.nat (2 ^ 63)).IsWord (2 ^ 63) ∧ ¬ ((2 : Int) ^ 63 ≤ (16 : Nat)) ∧
    c.copy (.int 0) (.int 1) 16 (some (.const (.nat (2 ^ 63)) .u64)) .always 0 =
      .ok (.call "cuda_cp_async_size_16_ca" [.int 0, .int 1, .const (.nat (2 ^ 63)) .u64]) := by
  have hv : CopyVariant.make 16 .always 0 = .ok ⟨16, .always, 0⟩ := rfl
  have hunknown : (some (Expr.const (.nat (2 ^ 63)) .u64)).bind Expr.constInt? = none := rfl
  refine ⟨builtIn, holdsBuiltins_builtIn, ⟨_, hv⟩, .unsigned (by decide), by decide, ?_⟩
  refine copy_of_within holdsBuiltins_builtIn hv (fun n hn => ?_) (.int 0) (.int 1)
  cases hunknown.symm.trans hn

end Catalogue

end TensorLoops
