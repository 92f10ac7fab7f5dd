import TensorLoops.Proofs.Source.Allowance
import TensorLoops.Proofs.Source.Spending

/-!
# Proofs — Source — Failure

What reading fails over.  A text that is not read has something wrong with it, or with the graph
that it describes, or it takes more ids than there are (`Faults`).  Ids are paid for with colons, so
they run out only in a text with as many colons.  The allowance of the readers is never what they
fail over: the argument of `Allowance` for texts that are read holds up to the place of a fault in
those that are not (`faultsOnly`).
-/

namespace TensorLoops

/-- Something wrong with a text or with the graph that it describes, or ids that run out where no
more than `w` are taken. -/
inductive Faults (w : Nat) : Error → Prop where
  | lexical {position} : Faults w (.lexical position)
  | parse {e} : e ≠ .nesting → Faults w (.parse e)
  | graph {e} : (∀ id, e ≠ .cyclic id) → Faults w (.graph e)
  | ids : Word.idLimit ≤ w → Faults w (.arithmetic .addOverflow)

/-- Where ids run out, they do so for more of them. -/
theorem Faults.mono {w w' : Nat} {e : Error} (hw : w ≤ w') (h : Faults w e) : Faults w' e := by
  cases h with
  | lexical => exact .lexical
  | parse h => exact .parse h
  | graph h => exact .graph h
  | ids h => exact .ids (Nat.le_trans h hw)

/-! ### Graphs -/

namespace Graph

/-- Something wrong with a graph, or ids that run out where no more than `w` are taken. -/
inductive Faults (w : Nat) : Error → Prop where
  | graph {e} : (∀ id, e ≠ .cyclic id) → Faults w (.graph e)
  | ids : Word.idLimit ≤ w → Faults w (.arithmetic .addOverflow)

theorem Faults.mono {w w' : Nat} {e : Error} (hw : w ≤ w') (h : Faults w e) : Faults w' e := by
  cases h with
  | graph h => exact .graph h
  | ids h => exact .ids (Nat.le_trans h hw)

/-- The fault of a graph is one of the text that describes it. -/
theorem Faults.ofText {w : Nat} {e : Error} (h : Faults w e) : TensorLoops.Faults w e := by
  cases h with
  | graph h => exact .graph h
  | ids h => exact .ids h

variable {g : Graph} {w : Nat}

/-- A node that there is not is a fault of the graph. -/
theorem node_faults {id : Nat} {e : Error} (h : g.node id = .error e) : Faults w e := by
  unfold node at h
  split at h
  · exact nomatch h
  · exact Except.error.inj h ▸ .graph nofun

/-- Elements of what is no tensor are a fault of the graph. -/
theorem elementType_faults {base : Expr} {rank : Nat} {e : Error}
    (h : g.elementType base rank = .error e) : Faults w e := by
  unfold elementType at h
  split at h
  · rcases bind_eq_error.mp h with h | ⟨n, -, h⟩
    · exact node_faults h
    · split at h
      · split at h
        · exact nomatch h
        · exact Except.error.inj h ▸ .graph nofun
      · exact Except.error.inj h ▸ .graph nofun
  · split at h
    · exact nomatch h
    · exact Except.error.inj h ▸ .graph nofun
  · exact Except.error.inj h ▸ .graph nofun

/-- Type inference fails over faults of the graph only. -/
theorem typeOf_faults : ∀ {e : Expr} {err : Error}, g.typeOf e = .error err → Faults w err
  | .var v, err, h => by
      unfold typeOf at h
      split at h
      · exact nomatch h
      · exact Except.error.inj h ▸ .graph nofun
  | .const _ _, _, h => nomatch h
  | .node id, err, h => by
      rcases bind_eq_error.mp h with h | ⟨n, -, h⟩
      · exact node_faults h
      · split at h
        · exact nomatch h
        · exact Except.error.inj h ▸ .graph nofun
  | .binary _ lhs rhs, err, h => by
      rcases bind_eq_error.mp h with h | ⟨s, -, h⟩
      · exact typeOf_faults h
      · rcases bind_eq_error.mp h with h | ⟨t, -, h⟩
        · exact typeOf_faults h
        · exact nomatch h
  | .unary _ e, err, h => by
      rcases bind_eq_error.mp h with h | ⟨s, -, h⟩
      · exact typeOf_faults h
      · exact nomatch h
  | .cast _ ty, err, h => by
      unfold typeOf at h
      split at h
      · exact nomatch h
      · exact Except.error.inj h ▸ .graph nofun
  | .element base idxs, err, h => elementType_faults h
  | .call _ _, err, h => Except.error.inj h ▸ .graph nofun

/-- The update fails over a fault. -/
def Update.Faulty {α : Type} (w : Nat) (u : Update α) (g : Graph) : Prop :=
  ∀ e, u.result g = .error e → Faults w e

namespace Update.Faulty

variable {α β : Type}

theorem pure {a : α} : Faulty w (pure a) g :=
  fun _ (h : Except.ok (a, g) = .error _) => nomatch h

/-- An update fails over faults only if its parts do. -/
theorem bind {u : Update α} {f : α → Update β} (hu : u.Faulty w g)
    (hf : ∀ a g', Updates u g a g' → (f a).Faulty w g') : (u >>= f).Faulty w g := by
  intro e h
  rw [result_bind] at h
  rcases bind_eq_error.mp h with h | ⟨⟨a, g'⟩, hr, h⟩
  · exact hu e h
  · exact hf a g' (result_eq_ok.mp hr) e h

theorem get : (get : Update Graph).Faulty w g :=
  fun _ (h : Except.ok (g, g) = .error _) => nomatch h

/-- What is thrown is a fault, if it is no cycle. -/
theorem thrown {e : GraphError} (he : ∀ id, e ≠ .cyclic id) :
    (throw (.graph e) : Update α).Faulty w g :=
  fun _ h => Except.error.inj h ▸ .graph he

/-- A computation without a graph that fails over faults only does so as an update. -/
theorem lift {x : Except Error α} (hx : ∀ e, x = .error e → Faults w e) :
    (Update.lift x).Faulty w g := by
  intro e h
  rw [result_lift] at h
  rcases bind_eq_error.mp h with h | ⟨a, -, h⟩
  · exact hx e h
  · exact nomatch h

/-- A check before the rest of an update. -/
theorem check {c : Prop} [Decidable c] {e : GraphError} {f : PUnit → Update β}
    (he : ∀ id, e ≠ .cyclic id) (hf : ∀ x g', (f x).Faulty w g') :
    (if c then throw (.graph e) >>= f else f ⟨⟩).Faulty w g := by
  split
  · exact (thrown he).bind fun x g' _ => hf x g'
  · exact hf ⟨⟩ g

end Update.Faulty

theorem addNode_faulty {n : Node} : (addNode n).Faulty w g :=
  fun _ (h : Except.ok (Word.toId g.size, g.push n) = .error _) => nomatch h

theorem inferType_faulty {value : Expr} : (inferType value).Faulty w g :=
  .bind .get fun _ _ _ => .lift fun _ => typeOf_faults

theorem checkAxes_faulty {shape : List Nat} {axes : List Var} :
    (checkAxes shape axes).Faulty w g := by
  unfold checkAxes
  split
  · exact .pure
  · exact .thrown nofun

/-- Adding a grid fails over faults only. -/
theorem addGrid_faulty {name : String} {shape : List Nat} {axes : List Var} {value : Expr} :
    (addGrid name shape axes value).Faulty w g :=
  checkAxes_faulty.bind fun _ _ _ => inferType_faulty.bind fun _ _ _ => addNode_faulty

theorem addReduce_faulty {name : String} {shape : List Nat} {axes : List Var} {value : Expr}
    {op : Reduction} : (addReduce name shape axes value op).Faulty w g := by
  unfold addReduce
  refine .check nofun fun _ _ => ?_
  exact checkAxes_faulty.bind fun _ _ _ => inferType_faulty.bind fun _ _ _ => addNode_faulty

theorem addArgReduce_faulty {name : String} {extent : Nat} {axis : Var} {value : Expr}
    {op : Reduction} {index : Scalar} :
    (addArgReduce name extent axis value op index).Faulty w g := by
  unfold addArgReduce
  refine .check nofun fun _ _ => .check nofun fun _ _ => ?_
  exact (inferType_faulty.bind fun _ _ _ => .pure).bind fun _ _ _ => addNode_faulty

/-- New axes fail when there is no id left for one of them. -/
theorem newAxes_faulty {hints : List String} :
    (newAxes hints).Faulty (g.nextVar + hints.length) g := by
  unfold newAxes
  induction hints generalizing g with
  | nil => exact .pure
  | cons hint hints ih =>
      rw [List.mapM_cons]
      refine .bind (fun e h => ?_) fun v g' hv => .bind (fun e h => ?_) fun _ _ _ => .pure
      · rw [newAxis, freshVar_result] at h
        rcases bind_eq_error.mp h with h | ⟨_, -, h⟩
        · unfold Word.nextId at h
          split at h
          · exact nomatch h
          · refine Except.error.inj h ▸ .ids ?_
            rw [List.length_cons]
            omega
        · exact nomatch h
      · obtain ⟨-, rfl⟩ := freshVar_eq_ok hv
        refine (ih e h).mono ?_
        rw [List.length_cons]
        simp only
        omega

end Graph

namespace Program

open Reader Reading Lexeme

/-! ### Readers of tokens -/

/-- Past skipped lexemes a reading is worth no more, and is no longer. -/
theorem Reading.Skips.next {r r' : Reading} (h : Skips r r') :
    r'.worth ≤ r.worth ∧ r'.rest.length ≤ r.rest.length :=
  ⟨h.spends.worth, h.passes.length_le⟩

namespace Reader

/-- From `r` on, the step fails over a fault. -/
def Faulty {α : Type} (w : Nat) (x : Reader α) (r : Reading) : Prop :=
  ∀ e, x r = .error e → Faults w e

namespace Faulty

variable {α β : Type} {w w' : Nat} {r : Reading}

/-- What fails over faults does so for more ids. -/
theorem mono {x : Reader α} (h : Faulty w x r) (hw : w ≤ w') : Faulty w' x r :=
  fun e he => (h e he).mono hw

theorem pure {a : α} : Faulty w (pure a) r :=
  fun _ (h : Except.ok (a, r) = .error _) => nomatch h

/-- A reader fails over faults only if its parts do, each from where the one before it ended. -/
theorem bind {x : Reader α} {f : α → Reader β} (hx : Faulty w x r)
    (hf : ∀ a r₁, x r = .ok (a, r₁) → Faulty w (f a) r₁) : Faulty w (x >>= f) r := by
  intro e h
  rcases step_bind_eq_error.mp h with h | ⟨a, r₁, ha, h⟩
  · exact hx e h
  · exact hf a r₁ ha e h

/-- A complaint is a fault, unless it is that the allowance has run out. -/
theorem failed {e : ParseError} (he : e ≠ .nesting) : Faulty w (fail e : Reader α) r :=
  fun _ h => Except.error.inj h ▸ .parse he

theorem unexpected {t : Wanted} : Faulty w (unexpected t : Reader α) r :=
  fun _ h => Except.error.inj h ▸ .parse nofun

/-- Looking at the current token fails over nothing. -/
theorem current {f : Option Token → Reader α} (h : Faulty w (f r.token?) r) :
    Faulty w (current >>= f) r := h

theorem modified {h : Reading → Reading} : Faulty w (modify h) r :=
  fun _ (he : Except.ok (PUnit.unit, h r) = .error _) => nomatch he

theorem modify {h : Reading → Reading} {f : PUnit → Reader α} (hf : Faulty w (f ⟨⟩) (h r)) :
    Faulty w (modify h >>= f) r := hf

theorem get {f : Reading → Reader α} (h : Faulty w (f r) r) : Faulty w (get >>= f) r := h

theorem allowance {f : Nat → Reader α} (h : Faulty w (f (16 * (r.rest.length + 1))) r) :
    Faulty w (allowance >>= f) r := h

theorem innerName {op : Reduction} {f : String → Reader α} (h : ∀ name, Faulty w (f name) r) :
    Faulty w (innerName op >>= f) r := h _

theorem following {f : Option Token → Reader α} (h : Faulty w (f r.following?) r) :
    Faulty w (following >>= f) r := h

theorem atReduction {f : Bool → Reader α} (h : Faulty w (f r.startsReduction) r) :
    Faulty w (atReduction >>= f) r := by
  intro e he
  rw [atReduction_bind] at he
  exact h e he

theorem atToken {t : Token} {f : Bool → Reader α} (h : Faulty w (f (r.token? == some t)) r) :
    Faulty w (atToken t >>= f) r := h

/-- A choice of readers fails over faults only if both do. -/
theorem ite {c : Prop} [Decidable c] {x y : Reader α} (hx : c → Faulty w x r)
    (hy : ¬ c → Faulty w y r) : Faulty w (if c then x else y) r := by
  split
  · exact hx ‹c›
  · exact hy ‹¬ c›

/-- A reader fails over the faults of its update. -/
theorem onGraph {u : Graph.Update α} (hu : u.Faulty w r.program.graph) :
    Faulty w (onGraph u) r := by
  intro e h
  refine (hu e ?_).ofText
  unfold Graph.Update.result
  rw [Reader.onGraph, step_get_bind_eq_error] at h
  rcases hrun : u.run.run r.program.graph with ⟨e' | a, g⟩
  · rw [hrun] at h
    exact congrArg _ (Except.error.inj h)
  · rw [hrun] at h
    cases h

end Faulty

variable {w : Nat} {r : Reading}

/-- A lexeme that spells no token is a fault. -/
theorem enter_faulty {rest : List Lexeme} : Faulty w (enter rest) r := by
  intro e h
  match rest with
  | ⟨none, _, _⟩ :: _   => exact Except.error.inj h ▸ .lexical
  | ⟨some _, _, _⟩ :: _ => exact nomatch h
  | []                  => exact nomatch h

theorem advance_faulty : Faulty w advance r :=
  fun e h => (enter_faulty : Faulty w (enter r.rest.tail) r) e h

theorem expect_faulty {t : Token} : Faulty w (expect t) r :=
  Faulty.ite (fun _ => advance_faulty) fun _ => .unexpected

theorem identifier_faulty : Faulty w identifier r := by
  refine .current ?_
  split
  · exact advance_faulty.bind fun _ _ _ => .pure
  · exact .unexpected

/-- An extent that is not positive is a fault. -/
theorem extent_faulty : Faulty w extent r := by
  refine .current ?_
  split
  · exact .ite (fun _ => advance_faulty.bind fun _ _ _ => .pure) fun _ => .unexpected
  · exact .unexpected

/-- A type that is not known is a fault. -/
theorem dataType_faulty : Faulty w dataType r := by
  refine identifier_faulty.bind fun name _ _ => ?_
  split
  · exact .pure
  · exact .failed nofun

/-- A list between commas, in an allowance of more than the lexemes left. -/
theorem commaList_faulty {α : Type} {x : Reader α} {k : Nat}
    (hx : ∀ {r}, r.rest.length ≤ k → Faulty r.worth x r)
    (hnext : ∀ {r a r'}, x r = .ok (a, r') →
      r'.worth ≤ r.worth ∧ r'.rest.length ≤ r.rest.length) :
    ∀ {n r}, r.rest.length ≤ k → r.rest.length < n → Faulty r.worth (commaList x n) r
  | n + 1, r, hk, hn => by
      refine (hx hk).bind fun a r₁ ha => ?_
      obtain ⟨hworth, hlen⟩ := hnext ha
      by_cases hcomma : r₁.token? = some .comma
      · have hmore : Faulty r.worth (do
            advance
            return a :: (← commaList x n)) r₁ := by
          refine advance_faulty.bind fun _ r₂ hadvance => ?_
          have ht := (advance_eq_ok hcomma).mp hadvance
          have hlt := ht.length_lt
          refine ((commaList_faulty hx hnext (by omega) (by omega)).mono ?_).bind fun _ _ _ => .pure
          exact Nat.le_trans ht.spends.worth hworth
        intro e h
        rw [atToken_bind, hcomma, beq_self_eq_true, if_pos rfl] at h
        exact hmore e h
      · intro e h
        rw [atToken_bind, if_neg (by simpa using hcomma)] at h
        exact nomatch h

/-- Axes cost ids, which the text is worth. -/
theorem axes_faulty : Faulty r.worth axes r := by
  refine expect_faulty.bind fun _ r₁ hopen => ?_
  have hle := (expect_eq_ok.mp hopen).spends.worth
  refine .allowance (Faulty.bind (.mono (commaList_faulty (k := r₁.rest.length) ?_ ?_
    (Nat.le_refl _) ?_) hle) fun _ _ _ => expect_faulty.bind fun _ _ _ => .pure)
  · exact fun _ => identifier_faulty.bind fun _ _ _ => expect_faulty.bind fun _ _ _ =>
      extent_faulty.bind fun _ _ _ => .pure
  · exact fun h => ((identifier_skips.bind fun _ => SkipsOver.bind expect_skips fun _ =>
      extent_skips.bind fun _ => pure_skips) _ _ _ h).next
  · omega

/-- An index type is read without ids. -/
theorem indexType_faulty {op : Reduction} : Faulty w (indexType op) r := by
  refine .atToken (.ite (fun _ => ?_) fun _ => .pure)
  have hrest : ∀ r', Faulty w (do
      advance
      let s ← dataType
      expect .gt
      return s) r' := fun _ =>
    advance_faulty.bind fun _ _ _ => dataType_faulty.bind fun _ _ _ =>
      expect_faulty.bind fun _ _ _ => .pure
  cases op.isArg with
  | true => exact hrest r
  | false => exact Faulty.bind (.failed nofun) fun _ r' _ => hrest r'

/-- Adding a reduction that was read fails over faults only. -/
theorem addReduction_faulty {name : String} {op : Reduction} {index : Scalar} {extents : List Nat}
    {axes : List Var} {value : Expr} :
    Faulty w (addReduction name op index extents axes value) r := by
  unfold addReduction
  split
  · split
    · exact .onGraph Graph.addArgReduce_faulty
    · exact .failed nofun
  · exact .onGraph Graph.addReduce_faulty

/-- A call with the wrong arguments is a fault. -/
theorem call_faulty {name : String} {args : List Expr} : Faulty w (call name args) r := by
  unfold call
  split
  · exact .pure
  · exact .pure
  · split
    · exact .pure
    · exact .failed nofun
  · exact .failed nofun

/-! ### Readers of expressions -/

/-- At allowance `n` the readers fail over faults only, where it is enough for the text left. -/
structure FaultsOnly (n : Nat) : Prop where
  level     : ∀ {scope l r}, 16 * r.rest.length + height (some l) ≤ n →
    Faulty r.worth (level scope n l) r
  operand   : ∀ {scope l r}, 16 * r.rest.length + height l.tighter + 1 ≤ n →
    Faulty r.worth (operand scope n l) r
  chain     : ∀ {scope l lhs r}, 16 * r.rest.length + 1 ≤ n → Faulty r.worth (chain scope n l lhs) r
  unary     : ∀ {scope r}, 16 * r.rest.length + height none ≤ n → Faulty r.worth (unary scope n) r
  primary   : ∀ {scope r}, 16 * r.rest.length + 2 ≤ n → Faulty r.worth (primary scope n) r
  named     : ∀ {scope name r}, 16 * r.rest.length + 1 ≤ n → Faulty r.worth (named scope n name) r
  reduction : ∀ {scope name r}, 16 * r.rest.length + 1 ≤ n →
    Faulty r.worth (reduction scope n name) r
  body      : ∀ {scope list r}, 16 * r.rest.length + 1 ≤ n →
    Faulty (r.worth + list.length) (body scope n list) r

variable {n : Nat} {scope : Scope}

/-- Expressions between commas. -/
theorem FaultsOnly.list (hn : FaultsOnly n) (hr : 16 * r.rest.length + 13 ≤ n) :
    Faulty r.worth (commaList (Reader.level scope n .disjunction) n) r := by
  refine commaList_faulty (k := r.rest.length) (fun hle => hn.level ?_) (fun h => ?_)
    (Nat.le_refl _) (by omega)
  · rw [height]
    omega
  · have hphrase := (returnsPhrases n).level h
    exact ⟨hphrase.spends.worth, hphrase.passes.length_le⟩

/-- Operands are read on what is left of the allowance, so that it does not run out. -/
theorem operand_faulty (hn : FaultsOnly n) {l : Level}
    (hr : 16 * r.rest.length + height l.tighter + 1 ≤ n + 1) :
    Faulty r.worth (operand scope (n + 1) l) r := by
  unfold operand
  cases ht : l.tighter with
  | none =>
      rw [ht] at hr
      exact hn.unary (by omega)
  | some t =>
      rw [ht] at hr
      exact hn.level (by omega)

theorem level_faulty (hn : FaultsOnly n) {l : Level}
    (hr : 16 * r.rest.length + height (some l) ≤ n + 1) :
    Faulty r.worth (level scope (n + 1) l) r := by
  rw [height_some] at hr
  refine (hn.operand (by omega)).bind fun lhs r₁ hlhs => ?_
  have hphrase := (returnsPhrases n).operand hlhs
  have hlt := hphrase.length_lt
  exact (hn.chain (by omega)).mono hphrase.spends.worth

/-- What follows an operand is read on what is left, since an operator has been taken. -/
theorem chain_faulty (hn : FaultsOnly n) {l : Level} {lhs : Expr}
    (hr : 16 * r.rest.length + 1 ≤ n + 1) : Faulty r.worth (chain scope (n + 1) l lhs) r := by
  refine .current ?_
  cases hop : r.token?.bind l.operator? with
  | none => exact .pure
  | some op =>
      obtain ⟨t, ht, -⟩ := Option.bind_eq_some_iff.mp hop
      refine advance_faulty.bind fun _ r₁ hadvance => ?_
      have htakes := (advance_eq_ok ht).mp hadvance
      have hlt := htakes.length_lt
      have hle := height_le l.tighter
      refine ((hn.operand (by omega)).mono htakes.spends.worth).bind fun rhs r₂ hrhs => ?_
      have hphrase := (returnsPhrases n).operand hrhs
      have hlt' := hphrase.length_lt
      refine .ite (fun _ => (hn.chain (by omega)).mono ?_) fun _ => .pure
      exact (htakes.spends.trans hphrase.spends).worth

/-- A sign has been taken before its operand is read. -/
theorem unary_faulty (hn : FaultsOnly n) (hr : 16 * r.rest.length + height none ≤ n + 1) :
    Faulty r.worth (unary scope (n + 1)) r := by
  rw [height] at hr
  -- behind a sign there is one lexeme less
  have hsign : ∀ {t : Token} {op : UnaryOp}, r.token? = some t → Faulty r.worth (do
      advance
      return Expr.unary op (← Reader.unary scope n)) r := by
    intro t op ht
    refine advance_faulty.bind fun _ r₁ hadvance => ?_
    have htakes := (advance_eq_ok ht).mp hadvance
    have hlt := htakes.length_lt
    have hunary : Faulty r₁.worth (Reader.unary scope n) r₁ := hn.unary (by rw [height]; omega)
    exact (hunary.mono htakes.spends.worth).bind fun _ _ _ => .pure
  refine .current ?_
  split
  · exact hsign ‹_›
  · exact hsign ‹_›
  · exact hn.primary (by omega)

/-- A bracket has been taken before what stands in it is read. -/
theorem primary_faulty (hn : FaultsOnly n) (hr : 16 * r.rest.length + 2 ≤ n + 1) :
    Faulty r.worth (primary scope (n + 1)) r := by
  refine .current ?_
  split
  · exact advance_faulty.bind fun _ _ _ => .pure
  · exact advance_faulty.bind fun _ _ _ => .pure
  · refine advance_faulty.bind fun _ r₁ hadvance => ?_
    have htakes := (advance_eq_ok ‹_›).mp hadvance
    have hlt := htakes.length_lt
    have hlevel : Faulty r₁.worth (Reader.level scope n .disjunction) r₁ :=
      hn.level (by rw [height]; omega)
    exact (hlevel.mono htakes.spends.worth).bind fun _ _ _ => expect_faulty.bind fun _ _ _ => .pure
  · rename_i name ht
    refine .atReduction (.ite (fun _ => ?_) fun _ => .following (.ite (fun _ => ?_) fun _ => ?_))
    · exact (hn.reduction (by omega)).bind fun _ _ _ => .pure
    · refine advance_faulty.bind fun _ r₁ hadvance => expect_faulty.bind fun _ r₂ hopen => ?_
      have htakes := (advance_eq_ok ht).mp hadvance
      have htakes' := expect_eq_ok.mp hopen
      have hlt := htakes.length_lt
      have hlt' := htakes'.length_lt
      refine ((hn.list (by omega)).mono (htakes.spends.trans htakes'.spends).worth).bind
        fun _ _ _ => expect_faulty.bind fun _ _ _ => call_faulty
    · refine advance_faulty.bind fun _ r₁ hadvance => ?_
      have htakes := (advance_eq_ok ht).mp hadvance
      have hlt := htakes.length_lt
      exact (hn.named (by omega)).mono htakes.spends.worth
  · exact .failed (by simp)
  · exact .unexpected

theorem named_faulty (hn : FaultsOnly n) {name : String} (hr : 16 * r.rest.length + 1 ≤ n + 1) :
    Faulty r.worth (named scope (n + 1) name) r := by
  unfold named
  cases scope.lookup name with
  | some v => exact .pure
  | none =>
      refine .get ?_
      cases r.symbols.lookup name with
      | none => exact .failed nofun
      | some id =>
          have hnode : Graph.Update.Faulty r.worth
              (do Graph.Update.lift ((← get).node id)) r.program.graph :=
            .bind .get fun _ _ _ => .lift fun _ => Graph.node_faults
          refine (Faulty.onGraph hnode).bind fun m r₁ hm => ?_
          obtain ⟨rfl, -⟩ := onGraph_node_eq_ok hm
          cases m.kind with
          | scalar s => exact .atToken (.ite (fun _ => .failed nofun) fun _ => .pure)
          | tensor s shape =>
              refine .atToken (.ite (fun hopen => ?_) fun _ => .failed nofun)
              refine advance_faulty.bind fun _ r₂ hadvance => ?_
              have htakes := (advance_eq_ok (by simpa using hopen)).mp hadvance
              have hlt := htakes.length_lt
              exact ((hn.list (by omega)).mono htakes.spends.worth).bind
                fun _ _ _ => expect_faulty.bind fun _ _ _ => .pure

/-- The body of a reduction is read on the ids of its axes. -/
theorem body_faulty (hn : FaultsOnly n) {list : List (String × Nat)}
    (hr : 16 * r.rest.length + 1 ≤ n + 1) :
    Faulty (r.worth + list.length) (body scope (n + 1) list) r := by
  refine expect_faulty.bind fun _ r₁ harrow => ?_
  have htakes := expect_eq_ok.mp harrow
  have hlt := htakes.length_lt
  have hworth := htakes.spends.worth
  have hvars : Faulty (r.worth + list.length) (onGraph (Graph.newAxes (list.map Prod.fst))) r₁ := by
    refine (Faulty.onGraph Graph.newAxes_faulty).mono ?_
    rw [List.length_map]
    simp only [Reading.worth] at hworth ⊢
    omega
  refine hvars.bind fun vars r₂ hvars => ?_
  have hle := (onGraph_passes hvars).length_le
  have hspends := (newAxes_spends hvars).2.worth
  rw [List.length_map] at hspends
  have hlevel : ∀ scope, Faulty r₂.worth (Reader.level scope n .disjunction) r₂ :=
    fun scope => hn.level (by rw [height]; omega)
  exact ((hlevel _).mono (by omega)).bind fun _ _ _ => .pure

/-- A reduction has axes that the text is worth. -/
theorem reduction_faulty (hn : FaultsOnly n) {name : Option String}
    (hr : 16 * r.rest.length + 1 ≤ n + 1) : Faulty r.worth (reduction scope (n + 1) name) r := by
  refine identifier_faulty.bind fun word r₁ hword => ?_
  have htakes := identifier_eq_ok.mp hword
  have hlt := htakes.length_lt
  cases Reduction.ofName? word with
  | none => exact .failed nofun
  | some op =>
      refine indexType_faulty.bind fun index r₂ hindex => ?_
      have hindex := indexType_skips _ _ _ hindex
      have hworth := (htakes.spends.trans hindex.spends).worth
      refine (axes_faulty.mono hworth).bind fun list r₃ hlist => ?_
      have hskips := axes_skips _ _ _ hlist
      have hcolons := axes_colons hlist
      have hle := hindex.passes.length_le
      have hle' := hskips.passes.length_le
      -- the colons of the axes are worth as many ids as the body takes at once
      have hcredit : r₃.worth + list.length ≤ r.worth := by
        rw [Reading.worth, hskips.program_eq]
        simp only [Reading.worth] at hworth ⊢
        omega
      have hbody : Faulty r.worth (Reader.body scope n list)
          { r₃ with reductions := r₃.reductions + 1 } := (hn.body (by simp only; omega)).mono hcredit
      have hrest : ∀ name, Faulty r.worth (do
          modify fun r : Reading => { r with reductions := r.reductions + 1 }
          let b ← Reader.body scope n list
          addReduction name op index (list.map Prod.snd) b.1 b.2 : Reader Nat) r₃ := fun name =>
        .modify (hbody.bind fun _ _ _ => addReduction_faulty)
      cases name with
      | some name => exact hrest name
      | none => exact .innerName hrest

/-- **The readers fail over faults only**, by induction on the allowance. -/
theorem faultsOnly : ∀ n, FaultsOnly n
  | 0 => by
      refine ⟨fun {_ l _} h => ?_, fun h => ?_, fun h => ?_, fun h => ?_, fun h => ?_, fun h => ?_,
        fun h => ?_, fun h => ?_⟩
      · rw [height_some] at h
        omega
      · omega
      · omega
      · rw [height] at h
        omega
      all_goals omega
  | n + 1 => by
      have hn := faultsOnly n
      exact ⟨level_faulty hn, operand_faulty hn, chain_faulty hn, unary_faulty hn, primary_faulty hn,
        named_faulty hn, reduction_faulty hn, body_faulty hn⟩

/-! ### Readers of statements -/

/-- A name that is declared already is a fault. -/
theorem declare_faulty {name : String} {id : Nat} : Faulty w (declare name id) r := by
  intro e h
  rw [declare, step_get_bind_eq_error] at h
  split at h
  · exact Except.error.inj h ▸ .parse (by simp)
  · cases h

/-- The end of a declaration. -/
theorem declaration_faulty {name : String} {id : Nat} {f : Reading → Reading} :
    Faulty w (do expect .semicolon; declare name id; modify f : Reader Unit) r :=
  expect_faulty.bind fun _ _ _ => declare_faulty.bind fun _ _ _ => .modified

/-- An input statement fails over faults only. -/
theorem inputStatement_faulty : Faulty r.worth inputStatement r := by
  refine expect_faulty.bind fun _ r₁ hword => identifier_faulty.bind fun name r₂ hname =>
    expect_faulty.bind fun _ r₃ hcolon => dataType_faulty.bind fun s r₄ htype => ?_
  have hhead := (((expect_eq_ok.mp hword).spends.trans (identifier_eq_ok.mp hname).spends).trans
    (expect_eq_ok.mp hcolon).spends).trans (dataType_skips _ _ _ htype).spends
  refine .atToken (.ite (fun hopen => ?_) fun _ =>
    Faulty.bind (.onGraph Graph.addNode_faulty) fun _ _ _ => declaration_faulty)
  refine advance_faulty.bind fun _ r₅ hadvance => .allowance ?_
  have htakes := (advance_eq_ok (by simpa using hopen)).mp hadvance
  have hextents : Faulty r₅.worth (commaList extent (16 * (r₅.rest.length + 1))) r₅ :=
    commaList_faulty (k := r₅.rest.length) (fun _ => extent_faulty)
      (fun h => (extent_skips _ _ _ h).next) (Nat.le_refl _) (by omega)
  exact (hextents.mono (hhead.trans htakes.spends).worth).bind fun _ _ _ =>
    expect_faulty.bind fun _ _ _ => Faulty.bind (.onGraph Graph.addNode_faulty) fun _ _ _ =>
      declaration_faulty

theorem gridBinding_faulty {name : String} : Faulty r.worth (gridBinding name) r := by
  refine expect_faulty.bind fun _ r₁ hword => ?_
  have hworth := (expect_eq_ok.mp hword).spends.worth
  refine (axes_faulty.mono hworth).bind fun list r₂ hlist => .allowance ?_
  have hskips := axes_skips _ _ _ hlist
  have hcolons := axes_colons hlist
  have hcredit : r₂.worth + list.length ≤ r.worth := by
    rw [Reading.worth, hskips.program_eq]
    simp only [Reading.worth] at hworth ⊢
    omega
  exact (((faultsOnly _).body (by omega)).mono hcredit).bind fun _ _ _ =>
    .onGraph Graph.addGrid_faulty

/-- A binding fails over faults only, whether it binds a grid, a reduction or a value. -/
theorem letStatement_faulty : Faulty r.worth letStatement r := by
  refine expect_faulty.bind fun _ r₁ hword => identifier_faulty.bind fun name r₂ hname =>
    expect_faulty.bind fun _ r₃ hequals => .modify (.atToken (.atReduction ?_))
  have hhead := ((expect_eq_ok.mp hword).spends.trans (identifier_eq_ok.mp hname).spends).trans
    (expect_eq_ok.mp hequals).spends
  have hgrid : Faulty r.worth (gridBinding name) { r₃ with binding := name, reductions := 0 } :=
    gridBinding_faulty.mono hhead.worth
  refine .ite (fun _ => hgrid.bind fun _ _ _ => declaration_faulty) fun _ => .ite (fun _ => ?_)
    fun _ => Faulty.bind .unexpected fun _ _ _ => declaration_faulty
  refine .allowance ?_
  have hred : Faulty r.worth (reduction [] (16 * (r₃.rest.length + 1)) (some name))
      { r₃ with binding := name, reductions := 0 } :=
    ((faultsOnly _).reduction (by simp only; omega)).mono hhead.worth
  exact hred.bind fun _ _ _ => declaration_faulty

theorem output_faulty : Faulty w output r := by
  refine identifier_faulty.bind fun name r₁ _ => .get ?_
  split
  · exact .failed (by simp)
  · exact .modified

theorem outputStatement_faulty : Faulty r.worth outputStatement r := by
  refine expect_faulty.bind fun _ r₁ hword => .allowance ?_
  have houtputs : Faulty r₁.worth (commaList output (16 * (r₁.rest.length + 1))) r₁ := by
    refine commaList_faulty (k := r₁.rest.length) (fun _ => output_faulty) (fun h => ?_)
      (Nat.le_refl _) (by omega)
    have hspends := (output_lists h).spends
    exact ⟨hspends.worth, hspends.rest.length_le⟩
  refine Faulty.bind ?_ fun _ _ _ => expect_faulty
  exact (houtputs.mono (expect_eq_ok.mp hword).spends.worth).bind fun _ _ _ => .pure

/-- **A statement fails over faults only**, of whichever kind it is. -/
theorem statement_faulty : Faulty r.worth statement r := by
  refine .current ?_
  split
  · exact inputStatement_faulty
  · exact letStatement_faulty
  · exact outputStatement_faulty
  · exact .unexpected

/-- Statements up to the end, by induction on their number. -/
theorem statements_faulty : ∀ {n : Nat} {r : Reading}, r.Sound → r.rest.length < n →
    Faulty r.worth (statements n) r
  | n + 1, r, hr, hn => by
      refine .current ?_
      cases r.token? with
      | none => exact .pure
      | some t =>
          refine statement_faulty.bind fun _ r₁ h => ?_
          have hr₁ := statement_preserves _ _ _ hr h
          obtain ⟨_, r₂, hword, hspends⟩ := statement_spends hr h
          have hshorter := Nat.lt_of_le_of_lt hspends.rest.length_le hword.length_lt
          exact (statements_faulty hr₁ (by omega)).mono (hword.spends.trans hspends).worth

end Reader

/-- **What a text that is not read fails over**: a fault in it, or a lack of ids for its colons. -/
theorem parse_faults {source : String} {e : Error} (h : parse source = .error e) :
    Faults (colons (Lexeme.scan source)) e := by
  rcases bind_eq_error.mp h with h | ⟨_, -, h⟩
  · rcases step_bind_eq_error.mp h with h | ⟨_, r₁, henter, h⟩
    · exact enter_faulty e h
    · obtain rfl := enter_eq_ok henter
      refine (statements_faulty (start_sound source) ?_ e h).mono ?_
      · exact Nat.lt_of_lt_of_le (Nat.lt_succ_self _) (Nat.le_mul_of_pos_left _ (by decide))
      · simp [Reading.worth, Reading.start, Graph.empty]
  · cases h

end Program

end TensorLoops
