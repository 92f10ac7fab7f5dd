import TensorLoops.Proofs.Source.Taking

/-!
# Proofs — Source — Phrases

How a text is read, without an allowance.  `ExprAt scope k r e r'` says that the expression `e`
stands at the front of `r`, where the axes of `scope` are in scope, and that `r'` is what follows
it; `k` is the level of the expression, or `none` for an operand of the tightest one.  There is one
relation for each kind of phrase and one rule for each way of reading it, so that statements about
what is read are shown by one induction over the phrase and never look into the readers.

What the readers return is a phrase (`returnsPhrases`).  The converse is the matter of `Allowance`.
-/

namespace TensorLoops

namespace Program

open Reader Reading

/-! ### Phrases -/

mutual

/-- An expression of a level, or, for `none`, an operand of the tightest one. -/
inductive ExprAt : Scope → Option Level → Reading → Expr → Reading → Prop where
  | level {scope l r lhs r₁ e r'} : ExprAt scope l.tighter r lhs r₁ →
      ChainAt scope l lhs r₁ e r' → ExprAt scope (some l) r e r'
  | neg {scope r r₁ e r'} : Takes .minus r r₁ → ExprAt scope none r₁ e r' →
      ExprAt scope none r (.unary .neg e) r'
  | not {scope r r₁ e r'} : Takes .bang r r₁ → ExprAt scope none r₁ e r' →
      ExprAt scope none r (.unary .not e) r'
  | int {scope n r r'} : Takes (.int n) r r' → ExprAt scope none r (.int n) r'
  | real {scope x r r'} : Takes (.real x) r r' → ExprAt scope none r (.real x) r'
  | paren {scope r r₁ e r₂ r'} : Takes .lparen r r₁ → ExprAt scope (some .disjunction) r₁ e r₂ →
      Takes .rparen r₂ r' → ExprAt scope none r e r'
  | reduction {scope r id r'} : r.startsReduction = true → ReductionAt scope none r id r' →
      ExprAt scope none r (.node id) r'
  | call {scope name r r₁ r₂ args r₃ r' e} : r.startsReduction = false →
      Takes (.ident name) r r₁ → Takes .lparen r₁ r₂ → ListAt scope r₂ args r₃ →
      Takes .rparen r₃ r' → Calls name args e → ExprAt scope none r e r'
  | named {scope name r r₁ e r'} : r.startsReduction = false → Takes (.ident name) r r₁ →
      r₁.token? ≠ some .lparen → NamedAt scope name r₁ e r' → ExprAt scope none r e r'

/-- What follows the first operand `lhs` of a level. -/
inductive ChainAt : Scope → Level → Expr → Reading → Expr → Reading → Prop where
  | done {scope l lhs r} : r.token?.bind l.operator? = none → ChainAt scope l lhs r lhs r
  | more {scope l lhs t op r r₁ rhs r₂ e r'} : l.operator? t = some op → l.repeats = true →
      Takes t r r₁ → ExprAt scope l.tighter r₁ rhs r₂ →
      ChainAt scope l (.binary op lhs rhs) r₂ e r' → ChainAt scope l lhs r e r'
  | once {scope l lhs t op r r₁ rhs r'} : l.operator? t = some op → l.repeats = false →
      Takes t r r₁ → ExprAt scope l.tighter r₁ rhs r' →
      ChainAt scope l lhs r (.binary op lhs rhs) r'

/-- Expressions with commas between them. -/
inductive ListAt : Scope → Reading → List Expr → Reading → Prop where
  | last {scope r e r'} : ExprAt scope (some .disjunction) r e r' → r'.token? ≠ some .comma →
      ListAt scope r [e] r'
  | cons {scope r e r₁ r₂ es r'} : ExprAt scope (some .disjunction) r e r₁ → Takes .comma r₁ r₂ →
      ListAt scope r₂ es r' → ListAt scope r (e :: es) r'

/-- What a name that has been taken stands for. -/
inductive NamedAt : Scope → String → Reading → Expr → Reading → Prop where
  | axis {scope name r v} : scope.lookup name = some v → NamedAt scope name r (.var v) r
  | scalar {scope name r id n s} : scope.lookup name = none → r.symbols.lookup name = some id →
      r.program.graph.node? id = some n → n.kind = .scalar s → r.token? ≠ some .lbracket →
      NamedAt scope name r (.node id) r
  | element {scope name r id n s shape r₁ idxs r₂ r'} : scope.lookup name = none →
      r.symbols.lookup name = some id → r.program.graph.node? id = some n →
      n.kind = .tensor s shape → Takes .lbracket r r₁ → ListAt scope r₁ idxs r₂ →
      Takes .rbracket r₂ r' → NamedAt scope name r (.element (.node id) idxs) r'

/-- A reduction, under its own name or numbered within the binding. -/
inductive ReductionAt : Scope → Option String → Reading → Nat → Reading → Prop where
  | intro {scope name r word r₁ op index r₂ list r₃ b r₄ id r'} : Takes (.ident word) r r₁ →
      Reduction.ofName? word = some op → indexType op r₁ = .ok (index, r₂) →
      axes r₂ = .ok (list, r₃) →
      BodyAt scope list { r₃ with reductions := r₃.reductions + 1 } b r₄ →
      addReduction (name.getD (r₃.innerName op)) op index (list.map Prod.snd) b.1 b.2 r₄ =
        .ok (id, r') →
      ReductionAt scope name r id r'

/-- A value behind an arrow, over new axes. -/
inductive BodyAt : Scope → List (String × Nat) → Reading → List Var × Expr → Reading → Prop where
  | intro {scope list r r₁ vars r₂ value r'} : Takes .arrow r r₁ →
      onGraph (Graph.newAxes (list.map Prod.fst)) r₁ = .ok (vars, r₂) →
      ExprAt (((list.map Prod.fst).zip vars).reverse ++ scope) (some .disjunction) r₂ value r' →
      BodyAt scope list r (vars, value) r'

end

/-! ### What the readers return -/

namespace Reader

/-- At allowance `n` the readers return phrases only. -/
structure ReturnsPhrases (n : Nat) : Prop where
  level     : ∀ {scope l r e r'}, level scope n l r = .ok (e, r') → ExprAt scope (some l) r e r'
  operand   : ∀ {scope l r e r'}, operand scope n l r = .ok (e, r') → ExprAt scope l.tighter r e r'
  chain     : ∀ {scope l lhs r e r'}, chain scope n l lhs r = .ok (e, r') →
    ChainAt scope l lhs r e r'
  unary     : ∀ {scope r e r'}, unary scope n r = .ok (e, r') → ExprAt scope none r e r'
  primary   : ∀ {scope r e r'}, primary scope n r = .ok (e, r') → ExprAt scope none r e r'
  named     : ∀ {scope name r e r'}, named scope n name r = .ok (e, r') →
    NamedAt scope name r e r'
  reduction : ∀ {scope name r id r'}, reduction scope n name r = .ok (id, r') →
    ReductionAt scope name r id r'
  body      : ∀ {scope list r b r'}, body scope n list r = .ok (b, r') → BodyAt scope list r b r'

variable {n : Nat} {scope : Scope} {r r' : Reading} {e : Expr}

/-- A list that was read is one. -/
theorem listAt_of_commaList {x : Reader Expr}
    (hx : ∀ {r e r'}, x r = .ok (e, r') → ExprAt scope (some .disjunction) r e r') :
    ∀ {m r es r'}, commaList x m r = .ok (es, r') → ListAt scope r es r'
  | 0, _, _, _, h => nomatch h
  | m + 1, r, es, r', h => by
      obtain ⟨e, r₁, he, ⟨hlast, rfl, rfl⟩ | ⟨r₂, es', hcomma, hes, rfl⟩⟩ := commaList_succ_eq_ok h
      · exact .last (hx he) hlast
      · exact .cons (hx he) hcomma (listAt_of_commaList hx hes)

/-- A chain of operands that was read is one. -/
theorem chainAt_of_chain (hn : ReturnsPhrases n) {l : Level} {lhs : Expr}
    (h : chain scope (n + 1) l lhs r = .ok (e, r')) : ChainAt scope l lhs r e r' := by
  rw [chain, current_bind] at h
  cases hop : r.token?.bind l.operator? with
  | none =>
      rw [hop] at h
      obtain ⟨rfl, rfl⟩ := Prod.mk.inj (step_pure_eq_ok.mp h)
      exact .done hop
  | some op =>
      rw [hop] at h
      obtain ⟨t, ht, hop⟩ := Option.bind_eq_some_iff.mp hop
      obtain ⟨_, r₁, hadvance, h⟩ := step_bind_eq_ok.mp h
      obtain ⟨rhs, r₂, hrhs, h⟩ := step_bind_eq_ok.mp h
      have htakes := (advance_eq_ok ht).mp hadvance
      cases hrep : l.repeats with
      | true =>
          rw [hrep, if_pos rfl] at h
          exact .more hop hrep htakes (hn.operand hrhs) (hn.chain h)
      | false =>
          rw [hrep, if_neg Bool.false_ne_true] at h
          obtain ⟨rfl, rfl⟩ := Prod.mk.inj (step_pure_eq_ok.mp h)
          exact .once hop hrep htakes (hn.operand hrhs)

/-- An operand that was read is an expression, with its sign. -/
theorem exprAt_of_unary (hn : ReturnsPhrases n) (h : unary scope (n + 1) r = .ok (e, r')) :
    ExprAt scope none r e r' := by
  rw [unary, current_bind] at h
  cases ht : r.token? with
  | none =>
      rw [ht] at h
      exact hn.primary h
  | some t =>
      rw [ht] at h
      cases t with
      | minus =>
          obtain ⟨_, r₁, hadvance, h⟩ := step_bind_eq_ok.mp h
          obtain ⟨x, r₂, hx, h⟩ := step_bind_eq_ok.mp h
          obtain ⟨rfl, rfl⟩ := Prod.mk.inj (step_pure_eq_ok.mp h)
          exact .neg ((advance_eq_ok ht).mp hadvance) (hn.unary hx)
      | bang =>
          obtain ⟨_, r₁, hadvance, h⟩ := step_bind_eq_ok.mp h
          obtain ⟨x, r₂, hx, h⟩ := step_bind_eq_ok.mp h
          obtain ⟨rfl, rfl⟩ := Prod.mk.inj (step_pure_eq_ok.mp h)
          exact .not ((advance_eq_ok ht).mp hadvance) (hn.unary hx)
      | _ => exact hn.primary h

/-- An identifier is a reduction, a call or a name. -/
theorem exprAt_of_ident (hn : ReturnsPhrases n) {name : String} (ht : r.token? = some (.ident name))
    (h : (do
      if ← atReduction then return .node (← reduction scope n none)
      else if (← following) == some .lparen then
        advance
        expect .lparen
        let args ← commaList (level scope n .disjunction) n
        expect .rparen
        call name args
      else
        advance
        named scope n name : Reader Expr) r = .ok (e, r')) : ExprAt scope none r e r' := by
  rw [atReduction_bind] at h
  cases hred : r.startsReduction with
  | true =>
      rw [hred, if_pos rfl] at h
      obtain ⟨id, r₁, hid, h⟩ := step_bind_eq_ok.mp h
      obtain ⟨rfl, rfl⟩ := Prod.mk.inj (step_pure_eq_ok.mp h)
      exact .reduction hred (hn.reduction hid)
  | false =>
      rw [hred, if_neg Bool.false_ne_true, following_bind] at h
      by_cases hparen : r.following? = some .lparen
      · rw [hparen, beq_self_eq_true, if_pos rfl] at h
        obtain ⟨_, r₁, hadvance, h⟩ := step_bind_eq_ok.mp h
        obtain ⟨_, r₂, hopen, h⟩ := step_bind_eq_ok.mp h
        obtain ⟨args, r₃, hargs, h⟩ := step_bind_eq_ok.mp h
        obtain ⟨_, r₄, hclose, h⟩ := step_bind_eq_ok.mp h
        obtain ⟨hcall, rfl⟩ := call_eq_ok.mp h
        exact .call hred ((advance_eq_ok ht).mp hadvance) (expect_eq_ok.mp hopen)
          (listAt_of_commaList hn.level hargs) (expect_eq_ok.mp hclose) hcall
      · rw [if_neg (by simpa using hparen)] at h
        obtain ⟨_, r₁, hadvance, h⟩ := step_bind_eq_ok.mp h
        have htakes := (advance_eq_ok ht).mp hadvance
        exact .named hred htakes (htakes.following?_eq ▸ hparen) (hn.named h)

/-- A primary expression that was read is a phrase. -/
theorem exprAt_of_primary (hn : ReturnsPhrases n) (h : primary scope (n + 1) r = .ok (e, r')) :
    ExprAt scope none r e r' := by
  rw [primary, current_bind] at h
  cases ht : r.token? with
  | none =>
      rw [ht] at h
      exact nomatch h
  | some t =>
      rw [ht] at h
      cases t with
      | int i =>
          obtain ⟨_, r₁, hadvance, h⟩ := step_bind_eq_ok.mp h
          obtain ⟨rfl, rfl⟩ := Prod.mk.inj (step_pure_eq_ok.mp h)
          exact .int ((advance_eq_ok ht).mp hadvance)
      | real x =>
          obtain ⟨_, r₁, hadvance, h⟩ := step_bind_eq_ok.mp h
          obtain ⟨rfl, rfl⟩ := Prod.mk.inj (step_pure_eq_ok.mp h)
          exact .real ((advance_eq_ok ht).mp hadvance)
      | lparen =>
          obtain ⟨_, r₁, hadvance, h⟩ := step_bind_eq_ok.mp h
          obtain ⟨x, r₂, hx, h⟩ := step_bind_eq_ok.mp h
          obtain ⟨_, r₃, hclose, h⟩ := step_bind_eq_ok.mp h
          obtain ⟨rfl, rfl⟩ := Prod.mk.inj (step_pure_eq_ok.mp h)
          exact .paren ((advance_eq_ok ht).mp hadvance) (hn.level hx) (expect_eq_ok.mp hclose)
      | ident name => exact exprAt_of_ident hn ht h
      | _ => exact nomatch h

/-- What was read behind a name is a phrase of that name. -/
theorem namedAt_of_named (hn : ReturnsPhrases n) {name : String}
    (h : named scope (n + 1) name r = .ok (e, r')) : NamedAt scope name r e r' := by
  unfold named at h
  cases hv : scope.lookup name with
  | some v =>
      rw [hv] at h
      obtain ⟨rfl, rfl⟩ := Prod.mk.inj (step_pure_eq_ok.mp h)
      exact .axis hv
  | none =>
      rw [hv, step_get_bind_eq_ok] at h
      cases hs : r.symbols.lookup name with
      | none =>
          rw [hs] at h
          cases h
      | some id =>
          rw [hs] at h
          obtain ⟨m, r₁, hm, h⟩ := step_bind_eq_ok.mp h
          obtain ⟨rfl, hnode⟩ := onGraph_node_eq_ok hm
          by_cases hopen : r.token? = some .lbracket
          · cases hk : m.kind with
            | scalar s =>
                rw [hk] at h
                simp only at h
                rw [atToken_bind, hopen] at h
                cases h
            | tensor s shape =>
                rw [hk] at h
                simp only at h
                rw [atToken_bind, hopen, beq_self_eq_true, if_pos rfl] at h
                obtain ⟨_, r₂, hadvance, h⟩ := step_bind_eq_ok.mp h
                obtain ⟨idxs, r₃, hidxs, h⟩ := step_bind_eq_ok.mp h
                obtain ⟨_, r₄, hclose, h⟩ := step_bind_eq_ok.mp h
                obtain ⟨rfl, rfl⟩ := Prod.mk.inj (step_pure_eq_ok.mp h)
                exact .element hv hs hnode hk ((advance_eq_ok hopen).mp hadvance)
                  (listAt_of_commaList hn.level hidxs) (expect_eq_ok.mp hclose)
          · cases hk : m.kind with
            | scalar s =>
                rw [hk] at h
                simp only at h
                rw [atToken_bind, if_neg (by simpa using hopen)] at h
                obtain ⟨rfl, rfl⟩ := Prod.mk.inj (step_pure_eq_ok.mp h)
                exact .scalar hv hs hnode hk hopen
            | tensor s shape =>
                rw [hk] at h
                simp only at h
                rw [atToken_bind, if_neg (by simpa using hopen)] at h
                cases h

/-- A reduction that was read is one. -/
theorem reductionAt_of_reduction (hn : ReturnsPhrases n) {name : Option String} {id : Nat}
    (h : reduction scope (n + 1) name r = .ok (id, r')) : ReductionAt scope name r id r' := by
  obtain ⟨word, r₁, hword, h⟩ := step_bind_eq_ok.mp h
  cases hop : Reduction.ofName? word with
  | none =>
      rw [hop] at h
      exact nomatch h
  | some op =>
      rw [hop] at h
      obtain ⟨index, r₂, hindex, h⟩ := step_bind_eq_ok.mp h
      obtain ⟨list, r₃, hlist, h⟩ := step_bind_eq_ok.mp h
      -- a given name and a numbered one lead to the same steps
      have h : (do
          modify fun r : Reading => { r with reductions := r.reductions + 1 }
          let b ← body scope n list
          addReduction (name.getD (r₃.innerName op)) op index (list.map Prod.snd) b.1 b.2 :
            Reader Nat) r₃ = .ok (id, r') := by
        cases name with
        | none => exact h
        | some name => exact h
      rw [step_modify_bind_eq_ok] at h
      obtain ⟨b, r₄, hbody, h⟩ := step_bind_eq_ok.mp h
      exact .intro (identifier_eq_ok.mp hword) hop hindex hlist (hn.body hbody) h

theorem bodyAt_of_body (hn : ReturnsPhrases n) {list : List (String × Nat)} {b : List Var × Expr}
    (h : body scope (n + 1) list r = .ok (b, r')) : BodyAt scope list r b r' := by
  obtain ⟨_, r₁, harrow, h⟩ := step_bind_eq_ok.mp h
  obtain ⟨vars, r₂, hvars, h⟩ := step_bind_eq_ok.mp h
  obtain ⟨value, r₃, hvalue, h⟩ := step_bind_eq_ok.mp h
  obtain ⟨rfl, rfl⟩ := Prod.mk.inj (step_pure_eq_ok.mp h)
  exact .intro (expect_eq_ok.mp harrow) hvars (hn.level hvalue)

/-- **What the readers return are phrases**, by induction on the allowance. -/
theorem returnsPhrases : ∀ n, ReturnsPhrases n
  | 0 => ⟨nofun, nofun, nofun, nofun, nofun, nofun, nofun, nofun⟩
  | n + 1 => by
      have hn := returnsPhrases n
      refine ⟨fun h => ?level, fun {scope l r e r'} h => ?operand, chainAt_of_chain hn,
        exprAt_of_unary hn, exprAt_of_primary hn, namedAt_of_named hn, reductionAt_of_reduction hn,
        bodyAt_of_body hn⟩
      case level =>
        obtain ⟨lhs, r₁, hlhs, h⟩ := step_bind_eq_ok.mp h
        exact .level (hn.operand hlhs) (hn.chain h)
      case operand =>
        unfold operand at h
        cases ht : l.tighter with
        | none =>
            rw [ht] at h
            exact hn.unary h
        | some t =>
            rw [ht] at h
            exact hn.level h

end Reader

/-! ### What a phrase takes up -/

/-- No operator is a keyword of declarations. -/
theorem not_declaring_of_operator? {l : Level} {t : Token} {op : BinaryOp}
    (h : l.operator? t = some op) : ¬ Declaring (some t) := by
  rintro (ht | ht)
  · obtain rfl := Option.some.inj ht
    cases l with
    | _ => exact nomatch h
  · obtain rfl := Option.some.inj ht
    cases l with
    | _ => exact nomatch h

mutual

/-- **A phrase passes over no keyword of declarations.** -/
theorem ExprAt.passes : ∀ {scope k r e r'}, ExprAt scope k r e r' → Passes r r'
  | _, _, _, _, _, .level h hc => h.passes.trans hc.passes
  | _, _, _, _, _, .neg ht h => (ht.passes).trans h.passes
  | _, _, _, _, _, .not ht h => (ht.passes).trans h.passes
  | _, _, _, _, _, .int ht => ht.passes
  | _, _, _, _, _, .real ht => ht.passes
  | _, _, _, _, _, .paren ht h ht' =>
      (ht.passes).trans (h.passes.trans (ht'.passes))
  | _, _, _, _, _, .reduction _ h => h.passes
  | _, _, _, _, _, .call _ ht ht₁ h ht₂ _ => (ht.passes).trans
      ((ht₁.passes).trans (h.passes.trans (ht₂.passes)))
  | _, _, _, _, _, .named _ ht _ h => (ht.passes).trans h.passes

theorem ChainAt.passes : ∀ {scope l lhs r e r'}, ChainAt scope l lhs r e r' → Passes r r'
  | _, _, _, _, _, _, .done _ => .of_rest_eq rfl
  | _, _, _, _, _, _, .more hop _ ht h hc =>
      (ht.passes (not_declaring_of_operator? hop)).trans (h.passes.trans hc.passes)
  | _, _, _, _, _, _, .once hop _ ht h =>
      (ht.passes (not_declaring_of_operator? hop)).trans h.passes

theorem ListAt.passes : ∀ {scope r es r'}, ListAt scope r es r' → Passes r r'
  | _, _, _, _, .last h _ => h.passes
  | _, _, _, _, .cons h ht hs => h.passes.trans ((ht.passes).trans hs.passes)

theorem NamedAt.passes : ∀ {scope name r e r'}, NamedAt scope name r e r' → Passes r r'
  | _, _, _, _, _, .axis _ => .of_rest_eq rfl
  | _, _, _, _, _, .scalar _ _ _ _ _ => .of_rest_eq rfl
  | _, _, _, _, _, .element _ _ _ _ ht h ht' =>
      (ht.passes).trans (h.passes.trans (ht'.passes))

theorem ReductionAt.passes : ∀ {scope name r id r'}, ReductionAt scope name r id r' → Passes r r'
  | _, _, _, _, _, .intro ht _ hindex hlist hbody hadd =>
      (ht.passes).trans ((indexType_skips _ _ _ hindex).passes.trans
        ((axes_skips _ _ _ hlist).passes.trans ((Passes.of_rest_eq rfl).trans
          (hbody.passes.trans (addReduction_passes hadd)))))

theorem BodyAt.passes : ∀ {scope list r b r'}, BodyAt scope list r b r' → Passes r r'
  | _, _, _, _, _, .intro ht hvars h =>
      (ht.passes).trans ((onGraph_passes hvars).trans h.passes)

end

/-- An expression takes up some of the text. -/
theorem ExprAt.length_lt : ∀ {scope k r e r'}, ExprAt scope k r e r' →
    r'.rest.length < r.rest.length
  | _, _, _, _, _, .level h hc => Nat.lt_of_le_of_lt hc.passes.length_le h.length_lt
  | _, _, _, _, _, .neg ht h => Nat.lt_trans h.length_lt ht.length_lt
  | _, _, _, _, _, .not ht h => Nat.lt_trans h.length_lt ht.length_lt
  | _, _, _, _, _, .int ht => ht.length_lt
  | _, _, _, _, _, .real ht => ht.length_lt
  | _, _, _, _, _, .paren ht h ht' =>
      Nat.lt_trans ht'.length_lt (Nat.lt_trans h.length_lt ht.length_lt)
  | _, _, _, _, _, .reduction _ (.intro ht _ hindex hlist hbody hadd) => by
      have hindex := (indexType_skips _ _ _ hindex).passes.length_le
      have hlist := (axes_skips _ _ _ hlist).passes.length_le
      have hbody := hbody.passes.length_le
      have hadd := (addReduction_passes hadd).length_le
      have ht := ht.length_lt
      simp only at hbody
      omega
  | _, _, _, _, _, .call _ ht ht₁ h ht₂ _ => by
      have ht := ht.length_lt
      have ht₁ := ht₁.length_lt
      have h := h.passes.length_le
      have ht₂ := ht₂.length_lt
      omega
  | _, _, _, _, _, .named _ ht _ h => Nat.lt_of_le_of_lt h.passes.length_le ht.length_lt

/-- A reduction begins with its word. -/
theorem ReductionAt.token?_eq {scope : Scope} {name : Option String} {r r' : Reading} {id : Nat}
    (h : ReductionAt scope name r id r') : ∃ word, r.token? = some (.ident word) := by
  cases h with
  | intro ht _ _ _ _ _ => exact ⟨_, ht.token?_eq⟩

end Program

end TensorLoops
