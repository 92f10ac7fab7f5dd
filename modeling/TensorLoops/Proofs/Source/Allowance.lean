import TensorLoops.Proofs.Source.Phrases

/-!
# Proofs — Source — Allowance

The allowance of a reader is never used up.  Between two tokens an expression goes down through at
most thirteen readers (`height`), and every other step takes a token, so an allowance of sixteen
for each lexeme left is enough to return the phrase that stands at the front of the text
(`ExprAt.read`).  With `returnsPhrases` this makes reading an expression the same as finding a
phrase (`expression_eq_ok`).
-/

namespace TensorLoops

namespace Program

open Reader Reading

namespace Reader

/-- The reader of expressions of a level, or of operands of the tightest one. -/
def readAt (scope : Scope) (n : Nat) : Option Level → Reader Expr
  | some l => level scope n l
  | none   => unary scope n

/-- How many readers of expressions stand one above another at a level. -/
def height : Option Level → Nat
  | none              => 3
  | some .product     => 5
  | some .sum         => 7
  | some .comparison  => 9
  | some .conjunction => 11
  | some .disjunction => 13

theorem height_some (l : Level) : height (some l) = height l.tighter + 2 := by
  cases l with
  | _ => rfl

/-- No level is higher than the loosest. -/
theorem height_le (k : Option Level) : height k ≤ 13 := by
  cases k with
  | none => decide
  | some l =>
      cases l with
      | _ => decide

variable {scope : Scope} {n : Nat} {r r' : Reading}

/-- A token that stands there is gone past. -/
theorem advance_of_takes {t : Token} (h : Takes t r r') : advance r = .ok ((), r') :=
  (advance_eq_ok h.token?_eq).mpr h

/-- A token that is expected and stands there is taken. -/
theorem expect_of_takes {t : Token} (h : Takes t r r') : expect t r = .ok ((), r') :=
  expect_eq_ok.mpr h

/-- Without a sign in front, an operand is a primary expression. -/
theorem unary_eq_primary (hminus : r.token? ≠ some .minus) (hbang : r.token? ≠ some .bang) :
    unary scope (n + 1) r = primary scope n r := by
  rw [unary, current_bind]
  cases ht : r.token? with
  | none => rfl
  | some t =>
      rw [ht] at hminus hbang
      cases t with
      | minus => exact absurd rfl hminus
      | bang => exact absurd rfl hbang
      | _ => rfl

/-- A primary expression is an operand of the tightest level. -/
theorem readAt_of_primary {t : Token} {e : Expr} (ht : r.token? = some t) (hminus : t ≠ .minus)
    (hbang : t ≠ .bang) (hn : 16 * r.rest.length + height none ≤ n)
    (h : ∀ m, 16 * r.rest.length + 1 ≤ m → primary scope (m + 1) r = .ok (e, r')) :
    readAt scope n none r = .ok (e, r') := by
  rw [height] at hn
  obtain ⟨m, rfl⟩ : ∃ m, n = m + 2 := ⟨n - 2, by omega⟩
  rw [readAt, unary_eq_primary (by simpa [ht] using hminus) (by simpa [ht] using hbang)]
  exact h m (by omega)

/-- The operand of a level is an expression of the next tighter one. -/
theorem operand_of_readAt {l : Level} {e : Expr} (h : readAt scope n l.tighter r = .ok (e, r')) :
    operand scope (n + 1) l r = .ok (e, r') := by
  unfold operand
  cases ht : l.tighter with
  | none =>
      rw [ht] at h
      exact h
  | some t =>
      rw [ht] at h
      exact h

/-- A step is done when its parts are. -/
theorem bind_ok {α β : Type} {x : Reader α} {f : α → Reader β} {a : α} {r₁ : Reading}
    {b : β × Reading} (hx : x r = .ok (a, r₁)) (hf : f a r₁ = .ok b) : (x >>= f) r = .ok b :=
  step_bind_eq_ok.mpr ⟨a, r₁, hx, hf⟩

/-- A reduction is read when its body is. -/
theorem reduction_of_body {name : Option String} {word : String} {op : Reduction}
    {index : Scalar} {list : List (String × Nat)} {b : List Var × Expr} {id : Nat}
    {r₁ r₂ r₃ r₄ : Reading} (ht : Takes (.ident word) r r₁)
    (hop : Reduction.ofName? word = some op) (hindex : indexType op r₁ = .ok (index, r₂))
    (hlist : axes r₂ = .ok (list, r₃))
    (hbody : body scope n list { r₃ with reductions := r₃.reductions + 1 } = .ok (b, r₄))
    (hadd : addReduction (name.getD (r₃.innerName op)) op index (list.map Prod.snd) b.1 b.2 r₄ =
      .ok (id, r')) : reduction scope (n + 1) name r = .ok (id, r') := by
  refine bind_ok (identifier_eq_ok.mpr ht) ?_
  rw [hop]
  refine bind_ok hindex (bind_ok hlist ?_)
  have hrest : (do
      modify fun r : Reading => { r with reductions := r.reductions + 1 }
      let b ← body scope n list
      addReduction (name.getD (r₃.innerName op)) op index (list.map Prod.snd) b.1 b.2 :
        Reader Nat) r₃ = .ok (id, r') := by
    rw [step_modify_bind_eq_ok]
    exact bind_ok hbody hadd
  cases name with
  | none => exact hrest
  | some name => exact hrest

end Reader

mutual

/-- **A phrase is read on an allowance for its lexemes**, 16 for each and the height of its level. 
By induction on the phrase, for all kinds of phrases at once. -/
theorem ExprAt.read : ∀ {scope k r e r'}, ExprAt scope k r e r' →
    ∀ {n}, 16 * r.rest.length + height k ≤ n → readAt scope n k r = .ok (e, r')
  | scope, some l, r, e, r', .level h hc, n, hn => by
      rw [height_some] at hn
      obtain ⟨m, rfl⟩ : ∃ m, n = m + 2 := ⟨n - 2, by omega⟩
      have hlt := h.length_lt
      exact bind_ok (operand_of_readAt (h.read (n := m) (by omega))) (hc.read (by omega))
  | scope, _, r, _, r', .neg ht h, n, hn => by
      obtain ⟨m, rfl⟩ : ∃ m, n = m + 1 := ⟨n - 1, by rw [height] at hn; omega⟩
      have hlt := ht.length_lt
      rw [height] at hn
      rw [readAt, unary, current_bind, ht.token?_eq]
      exact bind_ok (advance_of_takes ht) (bind_ok (h.read (n := m) (by rw [height]; omega)) rfl)
  | scope, _, r, _, r', .not ht h, n, hn => by
      obtain ⟨m, rfl⟩ : ∃ m, n = m + 1 := ⟨n - 1, by rw [height] at hn; omega⟩
      have hlt := ht.length_lt
      rw [height] at hn
      rw [readAt, unary, current_bind, ht.token?_eq]
      exact bind_ok (advance_of_takes ht) (bind_ok (h.read (n := m) (by rw [height]; omega)) rfl)
  | scope, _, r, _, r', .int ht, n, hn => by
      refine readAt_of_primary ht.token?_eq nofun nofun hn fun m hm => ?_
      rw [primary, current_bind, ht.token?_eq]
      exact bind_ok (advance_of_takes ht) rfl
  | scope, _, r, _, r', .real ht, n, hn => by
      refine readAt_of_primary ht.token?_eq nofun nofun hn fun m hm => ?_
      rw [primary, current_bind, ht.token?_eq]
      exact bind_ok (advance_of_takes ht) rfl
  | scope, _, r, _, r', .paren ht h ht', n, hn => by
      refine readAt_of_primary ht.token?_eq nofun nofun hn fun m hm => ?_
      have hlt := ht.length_lt
      rw [primary, current_bind, ht.token?_eq]
      exact bind_ok (advance_of_takes ht) (bind_ok (h.read (n := m) (by rw [height]; omega))
        (bind_ok (expect_of_takes ht') rfl))
  | scope, _, r, _, r', .reduction hred h, n, hn => by
      obtain ⟨word, ht⟩ := h.token?_eq
      refine readAt_of_primary ht nofun nofun hn fun m hm => ?_
      rw [primary, current_bind, ht]
      simp only
      rw [atReduction_bind, hred, if_pos rfl]
      exact bind_ok (h.read (by omega)) rfl
  | scope, _, r, _, r', .call hred ht ht₁ h ht₂ hcall, n, hn => by
      refine readAt_of_primary ht.token?_eq nofun nofun hn fun m hm => ?_
      have hlt := ht.length_lt
      have hlt₁ := ht₁.length_lt
      rw [primary, current_bind, ht.token?_eq]
      simp only
      rw [atReduction_bind, hred, if_neg nofun, following_bind, ht.following?_eq, ht₁.token?_eq,
        beq_self_eq_true, if_pos rfl]
      exact bind_ok (advance_of_takes ht) (bind_ok (expect_of_takes ht₁)
        (bind_ok (h.read (by omega) (by omega)) (bind_ok (expect_of_takes ht₂)
          (call_eq_ok.mpr ⟨hcall, rfl⟩))))
  | scope, _, r, _, r', .named hred ht hparen h, n, hn => by
      refine readAt_of_primary ht.token?_eq nofun nofun hn fun m hm => ?_
      have hlt := ht.length_lt
      rw [primary, current_bind, ht.token?_eq]
      simp only
      rw [atReduction_bind, hred, if_neg nofun, following_bind, ht.following?_eq,
        if_neg (by simpa using hparen)]
      exact bind_ok (advance_of_takes ht) (h.read (by omega))

theorem ChainAt.read : ∀ {scope l lhs r e r'}, ChainAt scope l lhs r e r' →
    ∀ {n}, 16 * r.rest.length + 1 ≤ n → chain scope n l lhs r = .ok (e, r')
  | scope, l, lhs, r, _, _, .done hop, n, hn => by
      obtain ⟨m, rfl⟩ : ∃ m, n = m + 1 := ⟨n - 1, by omega⟩
      rw [chain, current_bind, hop]
      rfl
  | scope, l, lhs, r, e, r', .more hop hrep ht h hc, n, hn => by
      obtain ⟨m, rfl⟩ : ∃ m, n = m + 2 := ⟨n - 2, by have := ht.length_lt; omega⟩
      have hlt := ht.length_lt
      have hlt' := h.length_lt
      have hle := height_le l.tighter
      rw [chain, current_bind, ht.token?_eq, Option.bind_some, hop]
      have hrhs := operand_of_readAt (h.read (n := m) (by omega))
      refine bind_ok (advance_of_takes ht) (bind_ok hrhs ?_)
      rw [hrep, if_pos rfl]
      exact hc.read (by omega)
  | scope, l, lhs, r, _, r', .once hop hrep ht h, n, hn => by
      obtain ⟨m, rfl⟩ : ∃ m, n = m + 2 := ⟨n - 2, by have := ht.length_lt; omega⟩
      have hlt := ht.length_lt
      have hle := height_le l.tighter
      rw [chain, current_bind, ht.token?_eq, Option.bind_some, hop]
      have hrhs := operand_of_readAt (h.read (n := m) (by omega))
      refine bind_ok (advance_of_takes ht) (bind_ok hrhs ?_)
      rw [hrep, if_neg nofun]
      rfl

theorem ListAt.read : ∀ {scope r es r'}, ListAt scope r es r' → ∀ {n m},
    16 * r.rest.length + 13 ≤ n → r.rest.length ≤ m →
    commaList (level scope n .disjunction) m r = .ok (es, r')
  | scope, r, _, r', .last h hcomma, n, m, hn, hm => by
      obtain ⟨m, rfl⟩ : ∃ m', m = m' + 1 := ⟨m - 1, by have := h.length_lt; omega⟩
      refine bind_ok (h.read hn) ?_
      rw [atToken_bind, if_neg (by simpa using hcomma)]
      rfl
  | scope, r, _, r', .cons h ht hs, n, m, hn, hm => by
      have hlt := h.length_lt
      have hlt' := ht.length_lt
      obtain ⟨m, rfl⟩ : ∃ m', m = m' + 1 := ⟨m - 1, by omega⟩
      refine bind_ok (h.read hn) ?_
      rw [atToken_bind, ht.token?_eq, beq_self_eq_true, if_pos rfl]
      exact bind_ok (advance_of_takes ht) (bind_ok (hs.read (by omega) (by omega)) rfl)

theorem NamedAt.read : ∀ {scope name r e r'}, NamedAt scope name r e r' →
    ∀ {n}, 16 * r.rest.length + 1 ≤ n → named scope n name r = .ok (e, r')
  | scope, name, r, _, _, .axis hv, n, hn => by
      obtain ⟨m, rfl⟩ : ∃ m, n = m + 1 := ⟨n - 1, by omega⟩
      unfold named
      rw [hv]
      rfl
  | scope, name, r, _, _, .scalar hv hs hnode hk hopen, n, hn => by
      obtain ⟨m, rfl⟩ : ∃ m, n = m + 1 := ⟨n - 1, by omega⟩
      unfold named
      rw [hv, step_get_bind_eq_ok, hs]
      simp only
      rw [onGraph_node_bind hnode, hk]
      simp only
      rw [atToken_bind, if_neg (by simpa using hopen)]
      rfl
  | scope, name, r, _, r', .element hv hs hnode hk ht h ht', n, hn => by
      obtain ⟨m, rfl⟩ : ∃ m, n = m + 1 := ⟨n - 1, by omega⟩
      have hlt := ht.length_lt
      unfold named
      rw [hv, step_get_bind_eq_ok, hs]
      simp only
      rw [onGraph_node_bind hnode, hk]
      simp only
      rw [atToken_bind, ht.token?_eq, beq_self_eq_true, if_pos rfl]
      exact bind_ok (advance_of_takes ht) (bind_ok (h.read (by omega) (by omega))
        (bind_ok (expect_of_takes ht') rfl))

theorem ReductionAt.read : ∀ {scope name r id r'}, ReductionAt scope name r id r' →
    ∀ {n}, 16 * r.rest.length + 1 ≤ n → reduction scope n name r = .ok (id, r')
  | scope, name, r, id, r', .intro ht hop hindex hlist hbody hadd, n, hn => by
      obtain ⟨m, rfl⟩ : ∃ m, n = m + 1 := ⟨n - 1, by omega⟩
      have hlt := ht.length_lt
      have hle := (indexType_skips _ _ _ hindex).passes.length_le
      have hle' := (axes_skips _ _ _ hlist).passes.length_le
      exact reduction_of_body ht hop hindex hlist (hbody.read (by simp only; omega)) hadd

theorem BodyAt.read : ∀ {scope list r b r'}, BodyAt scope list r b r' →
    ∀ {n}, 16 * r.rest.length + 1 ≤ n → body scope n list r = .ok (b, r')
  | scope, list, r, _, r', .intro ht hvars h, n, hn => by
      obtain ⟨m, rfl⟩ : ∃ m, n = m + 1 := ⟨n - 1, by omega⟩
      have hlt := ht.length_lt
      have hle := (onGraph_passes hvars).length_le
      exact bind_ok (expect_of_takes ht) (bind_ok hvars
        (bind_ok (h.read (n := m) (by rw [height]; omega)) rfl))

end

namespace Reader

/-- **Reading an expression gives what stands at the front of the text.** -/
theorem expression_eq_ok {scope : Scope} {r r' : Reading} {e : Expr} :
    expression scope r = .ok (e, r') ↔ ExprAt scope (some .disjunction) r e r' := by
  constructor
  · intro h
    exact (returnsPhrases _).level (n := 16 * (r.rest.length + 1)) h
  · intro h
    exact h.read (n := 16 * (r.rest.length + 1)) (by rw [height]; omega)

end Reader

end Program

end TensorLoops
