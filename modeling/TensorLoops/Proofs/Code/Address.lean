import Mathlib.Algebra.BigOperators.Group.List.Basic
import Mathlib.Tactic.Linarith
import Mathlib.Tactic.Ring
import TensorLoops.Code.RowMajor
import TensorLoops.Proofs.Checked
import TensorLoops.Proofs.Code.Machine

/-!
# Proofs — Code — Address

Row-major addresses.  `address shape is` counts the points of a shape in front of `is`, the last
index varying fastest.  Points of one shape have addresses below its size (`address_lt`) and no
two the same (`address_injective`).

The address that `rowMajor` writes down is folded from the left and multiplies by extents that
have been read as signed numbers.  Where integers are exact it comes to the same number
(`toInt?_rowMajor`): an extent of `2 ^ 63` or more can only follow dimensions with one point in
all, whose address is zero.
-/

namespace TensorLoops

/-- The number of points of a shape before the one at the given indices. -/
def address : List Nat → List Int → Int
  | _ :: ns, i :: is => i * (ns.prod : Nat) + address ns is
  | _,       _       => 0

/-- A point of a shape has one index for each dimension. -/
theorem Within.length_eq : ∀ {ns : List Nat} {is : List Int}, Within ns is → is.length = ns.length
  | [],     [],     _ => rfl
  | _ :: _, _ :: _, h => congrArg (· + 1) (Within.length_eq h.2)

theorem address_nonneg : ∀ {ns : List Nat} {is : List Int}, Within ns is → 0 ≤ address ns is
  | [],     [],     _ => Int.le_refl 0
  | _ :: _, _ :: _, h => Int.add_nonneg (Int.mul_nonneg h.1.1 (by omega)) (address_nonneg h.2)

/-- The address of a point is below the size of its shape. -/
theorem address_lt : ∀ {ns : List Nat} {is : List Int}, Within ns is → address ns is < ns.prod
  | [],      [],      _ => by simp [address]
  | n :: ns, i :: is, ⟨hi, hrest⟩ => by
      have hrest := address_lt hrest
      have hfirst : (i + 1) * (ns.prod : Nat) ≤ n * (ns.prod : Nat) :=
        Int.mul_le_mul_of_nonneg_right (by omega) (by omega)
      rw [List.prod_cons, Nat.cast_mul, address]
      linarith

/-- Points of one shape with the same address are the same point. -/
theorem address_injective : ∀ {ns : List Nat} {is js : List Int},
    Within ns is → Within ns js → address ns is = address ns js → is = js
  | [],      [],      [],      _,  _,  _ => rfl
  | n :: ns, i :: is, j :: js, hi, hj, h => by
      -- the remaining indices are the remainder of the address by the remaining size
      have hdiv : ∀ {k : Int} {ks : List Int}, Within ns ks →
          (k * (ns.prod : Nat) + address ns ks) / (ns.prod : Nat) = k := by
        intro k ks hk
        have hpos : (0 : Int) < (ns.prod : Nat) := Int.lt_of_le_of_lt (address_nonneg hk) (address_lt hk)
        rw [Int.add_comm, Int.add_mul_ediv_right _ _ (by omega),
          Int.ediv_eq_zero_of_lt (address_nonneg hk) (address_lt hk), Int.zero_add]
      have hij : i = j := by rw [← hdiv hi.2 (k := i), ← hdiv hj.2 (k := j)]; exact congrArg (· / _) h
      subst hij
      rw [address_injective hi.2 hj.2 (by simpa [address] using h)]

/-! ### Exact integers -/

/-- Integer literals, sums and products are exact. -/
structure Interp.Exact {V : Type} (I : Interp V) : Prop where
  literal : ∀ i, I.toInt? (I.literal (.int i) .i32) = some i
  add : ∀ {x y i j}, I.toInt? x = some i → I.toInt? y = some j →
    I.toInt? (I.binary .add x y) = some (i + j)
  mul : ∀ {x y i j}, I.toInt? x = some i → I.toInt? y = some j →
    I.toInt? (I.binary .mul x y) = some (i * j)

/-- Integers are exact. -/
theorem Interp.integers_exact : Interp.integers.Exact where
  literal _ := rfl
  add hx hy := by rw [← Option.some.inj hx, ← Option.some.inj hy]; rfl
  mul hx hy := by rw [← Option.some.inj hx, ← Option.some.inj hy]; rfl

/-- An extent read as a signed number is itself, or follows an address that is zero. -/
theorem mul_wrapped {a : Int} {p n : Nat} (h₀ : 0 ≤ a) (h₁ : a < p) (h : p * n < Word.limit) :
    a * Int.bmod n (2 ^ 64) = a * n := by
  by_cases hn : n < 2 ^ 63
  · rw [Int.bmod_eq_of_le (by omega) (by omega)]
  · -- two points or more in front would make the product too large
    have hp : p ≤ 1 := by
      by_contra hp
      have : 2 * n ≤ p * n := Nat.mul_le_mul_right n (by omega)
      rw [Word.limit, Nat.pow_eq] at h
      omega
    have ha : a = 0 := by omega
    simp [ha]

variable {V : Type} {I : Interp V} {m : Memory V}

theorem evalList_cons {e : Expr} {es : List Expr} {xs : List V} :
    evalList I m (e :: es) = some xs ↔
      ∃ x ys, eval I m e = some x ∧ evalList I m es = some ys ∧ xs = x :: ys := by
  simp only [evalList, Option.bind_eq_bind, Option.bind_eq_some_iff, Option.pure_def,
    Option.some.injEq]
  exact ⟨fun ⟨x, hx, ys, hys, h⟩ => ⟨x, ys, hx, hys, h.symm⟩,
    fun ⟨x, ys, hx, hys, h⟩ => ⟨x, hx, ys, hys, h.symm⟩⟩

/-- Index expressions come to integers when each of them does. -/
theorem indices_cons {e : Expr} {es : List Expr} {is : List Int} :
    indices I m (e :: es) = some is ↔
      ∃ x i js, eval I m e = some x ∧ I.toInt? x = some i ∧ indices I m es = some js ∧
        is = i :: js := by
  simp only [indices, Option.bind_eq_bind, Option.bind_eq_some_iff, evalList_cons]
  constructor
  · rintro ⟨xs, ⟨x, ys, hx, hys, rfl⟩, h⟩
    obtain ⟨i, js, hi, hjs, rfl⟩ := List.forall₂_cons_left_iff.mp (mapM_eq_some_iff.mp h)
    exact ⟨x, i, js, hx, hi, ⟨ys, hys, mapM_eq_some_iff.mpr hjs⟩, rfl⟩
  · rintro ⟨x, i, js, hx, hi, ⟨ys, hys, hjs⟩, rfl⟩
    exact ⟨x :: ys, ⟨x, ys, hx, hys, rfl⟩,
      mapM_eq_some_iff.mpr (.cons hi (mapM_eq_some_iff.mp hjs))⟩

theorem indices_nil : indices I m [] = some [] := by simp [indices, evalList]

/-- A single index expression comes to an integer when its value reads as one. -/
theorem indices_singleton {e : Expr} {i : Int} :
    indices I m [e] = some [i] ↔ ∃ x, eval I m e = some x ∧ I.toInt? x = some i := by
  simp [indices_cons, indices_nil]

/-- Folding further dimensions into an address: `acc` comes to an address `a` among `p` points,
and the whole to the address in all dimensions. -/
theorem toInt?_fold (hI : I.Exact) {ns : List Nat} {es : List Expr} {is : List Int} {acc : Expr}
    {x : V} {a : Int} {p size : Nat} (hacc : eval I m acc = some x) (hx : I.toInt? x = some a)
    (h₀ : 0 ≤ a) (h₁ : a < p) (hsize : ns.foldlM Word.mul p = .ok size)
    (hes : indices I m es = some is) (hin : Within ns is) :
    ∃ y, eval I m ((es.zip ns).foldl (fun acc q => (acc.mul (.ofSize q.2)).add q.1) acc) = some y ∧
      I.toInt? y = some (a * (ns.prod : Nat) + address ns is) := by
  induction es generalizing ns is acc x a p with
  | nil =>
      rw [indices_nil] at hes
      obtain rfl := Option.some.inj hes
      match ns, hin with
      | [], _ => exact ⟨x, hacc, by simp [address, hx]⟩
  | cons e es ih =>
      obtain ⟨z, i, js, hz, hi, hjs, rfl⟩ := indices_cons.mp hes
      match ns, hin with
      | n :: ns, ⟨hin, hrest⟩ =>
          rw [List.foldlM_cons, bind_eq_ok] at hsize
          obtain ⟨q, hq, hsize⟩ := hsize
          obtain ⟨hlim, rfl⟩ := Word.mul_eq_ok.mp hq
          have hnew : eval I m ((acc.mul (.ofSize n)).add e) =
              some (I.binary .add (I.binary .mul x (I.literal (.int (Int.bmod n (2 ^ 64))) .i32)) z) := by
            simp [Expr.add, Expr.mul, Expr.ofSize, Expr.int, eval, hacc, hz]
          have hint := hI.add (hI.mul hx (hI.literal (Int.bmod n (2 ^ 64)))) hi
          rw [mul_wrapped h₀ h₁ hlim] at hint
          have hlt : a * n + i < ((p * n : Nat) : Int) := by
            have : (a + 1) * n ≤ p * n := Int.mul_le_mul_of_nonneg_right (by omega) (by omega)
            rw [Nat.cast_mul]
            linarith
          obtain ⟨y, hy, hint⟩ := ih hnew hint
            (Int.add_nonneg (Int.mul_nonneg h₀ (by omega)) hin.1) hlt hsize hjs hrest
          refine ⟨y, hy, ?_⟩
          rw [hint, List.prod_cons, Nat.cast_mul, address]
          congr 1
          ring

/-- **The address written down is the address.**  Index expressions that come to a point of a
shape whose size is a word are joined to an expression that comes to the point's address. -/
theorem toInt?_rowMajor (hI : I.Exact) {ns : List Nat} {es : List Expr} {is : List Int} {size : Nat}
    (hsize : Word.product ns = .ok size) (hes : indices I m es = some is) (hin : Within ns is) :
    ∃ y, eval I m (rowMajor ns es) = some y ∧ I.toInt? y = some (address ns is) := by
  match es, ns, hin with
  | [], ns, hin =>
      rw [indices_nil] at hes
      obtain rfl := Option.some.inj hes
      match ns, hin with
      | [], _ => exact ⟨_, rfl, hI.literal 0⟩
  | e :: es, ns, hin =>
      obtain ⟨x, i, js, hx, hi, hjs, rfl⟩ := indices_cons.mp hes
      match ns, hin with
      | n :: ns, ⟨hin, hrest⟩ =>
          rw [Word.product, List.foldlM_cons, bind_eq_ok] at hsize
          obtain ⟨q, hq, hsize⟩ := hsize
          obtain ⟨-, rfl⟩ := Word.mul_eq_ok.mp hq
          exact toInt?_fold hI hx hi hin.1 (by omega) hsize hjs hrest

end TensorLoops
