import TensorLoops.Proofs.Source.WellScoped

/-!
# Proofs — Source — Taking

How the readers go over the text.  A reader takes the current token and stands at the next one
(`Reading.Takes`), and what it passes over on its way to the end of what it reads is never the
word that introduces a declaration (`Reading.Passes`).  The readers that look at a token or take
one are described by equations, so that what they do is found by rewriting.
-/

namespace TensorLoops

namespace Program

open Reader

/-! ### Taking tokens -/

namespace Reading

/-- The current token; `none` at the end. -/
def token? (r : Reading) : Option Token := r.rest.head?.bind (·.token)

/-- The token after the current one. -/
def following? (r : Reading) : Option Token := r.rest.tail.head?.bind (·.token)

/-- The current token is a reduction followed by its axes or its index type. -/
def startsReduction (r : Reading) : Bool :=
  match r.token? with
  | some (.ident name) =>
      (Reduction.ofName? name).isSome &&
        (r.following? == some .lbracket || r.following? == some .lt)
  | _ => false

/-- The name of an inner reduction. -/
def innerName (r : Reading) (op : Reduction) : String :=
  r.binding ++ "_" ++ op.name ++ toString r.reductions

/-- The token `t` is the current one and `r'` stands behind it, at another token or at the end. -/
structure Takes (t : Token) (r r' : Reading) : Prop where
  token : ∃ l, l.token = some t ∧ r.rest = l :: r'.rest
  next  : ∀ l ∈ r'.rest.head?, l.token ≠ none
  same  : r' = { r with rest := r'.rest }

namespace Takes

variable {t : Token} {r r' : Reading}

/-- A token that is taken stood there. -/
theorem token?_eq (h : Takes t r r') : r.token? = some t := by
  obtain ⟨l, hl, hrest⟩ := h.token
  simp [token?, hrest, hl]

/-- What followed it stands there now. -/
theorem following?_eq (h : Takes t r r') : r.following? = r'.token? := by
  obtain ⟨l, -, hrest⟩ := h.token
  simp [token?, following?, hrest]

/-- Less text is left. -/
theorem length_lt (h : Takes t r r') : r'.rest.length < r.rest.length := by
  obtain ⟨l, -, hrest⟩ := h.token
  simp [hrest]

/-- The program is the same. -/
theorem program_eq (h : Takes t r r') : r'.program = r.program := by rw [h.same]

theorem symbols_eq (h : Takes t r r') : r'.symbols = r.symbols := by rw [h.same]

end Takes

end Reading

open Reading

namespace Reader

variable {α : Type} {t : Token} {r r' : Reading}

theorem current_bind {f : Option Token → Reader α} : (current >>= f) r = f r.token? r := rfl

theorem following_bind {f : Option Token → Reader α} : (following >>= f) r = f r.following? r := rfl

theorem atToken_bind {f : Bool → Reader α} :
    (atToken t >>= f) r = f (r.token? == some t) r := rfl

/-- Asking for a reduction looks at no more than two tokens, and changes nothing. -/
theorem atReduction_bind {f : Bool → Reader α} :
    (atReduction >>= f) r = f r.startsReduction r := by
  have h : atReduction r = .ok (r.startsReduction, r) := by
    rw [atReduction, current_bind, startsReduction]
    cases r.token? with
    | none => rfl
    | some t =>
        cases t with
        | ident name =>
            simp only
            cases (Reduction.ofName? name).isSome with
            | true => rfl
            | false => rfl
        | _ => rfl
  exact congrArg (· >>= fun p => f p.1 p.2) h

theorem unexpected_ne_ok {w : Wanted} {x : α × Reading} : unexpected w r ≠ .ok x := nofun

/-- Entering a lexeme succeeds only if it spells a token. -/
theorem token_ne_none_of_enter {u : Unit} {rest : List Lexeme} (h : enter rest r = .ok (u, r')) :
    ∀ l ∈ rest.head?, l.token ≠ none := by
  intro l hl hnone
  obtain ⟨ls, rfl⟩ := List.head?_eq_some_iff.mp hl
  obtain ⟨token, start, stop⟩ := l
  obtain rfl : token = none := hnone
  exact step_throw_ne_ok h

/-- Going on takes the current token, whatever it is. -/
theorem advance_eq_ok {u : Unit} (ht : r.token? = some t) :
    advance r = .ok (u, r') ↔ Takes t r r' := by
  obtain ⟨l, hl, hlt⟩ := Option.bind_eq_some_iff.mp ht
  obtain ⟨ls, hrest⟩ : ∃ ls, r.rest = l :: ls := List.head?_eq_some_iff.mp hl
  have hadvance : advance r = enter ls r := by
    show enter r.rest.tail r = enter ls r
    rw [hrest, List.tail_cons]
  rw [hadvance]
  constructor
  · intro h
    have hnext := token_ne_none_of_enter h
    obtain rfl := enter_eq_ok h
    exact ⟨⟨l, hlt, hrest⟩, hnext, rfl⟩
  · rintro ⟨⟨l', -, hrest'⟩, hnext, hsame⟩
    obtain ⟨-, rfl⟩ := List.cons.inj (hrest.symm.trans hrest')
    rw [hsame]
    match hls : r'.rest with
    | [] => rfl
    | ⟨some _, _, _⟩ :: _ => rfl
    | ⟨none, _, _⟩ :: _ => exact absurd rfl (hnext _ (by rw [hls]; rfl))

/-- Expecting a token takes it. -/
theorem expect_eq_ok {u : Unit} : expect t r = .ok (u, r') ↔ Takes t r r' := by
  rw [expect, atToken_bind]
  by_cases ht : r.token? = some t
  · rw [ht, beq_self_eq_true, if_pos rfl]
    exact advance_eq_ok ht
  · rw [if_neg (by simpa using ht)]
    exact iff_of_false unexpected_ne_ok fun h => ht h.token?_eq

/-- Reading a name takes it. -/
theorem identifier_eq_ok {name : String} :
    identifier r = .ok (name, r') ↔ Takes (.ident name) r r' := by
  rw [identifier, current_bind]
  cases ht : r.token? with
  | none => exact iff_of_false unexpected_ne_ok fun h => nomatch ht.symm.trans h.token?_eq
  | some t =>
      cases t with
      | ident word =>
          simp only
          rw [step_bind_eq_ok]
          constructor
          · rintro ⟨_, r₁, h, hp⟩
            obtain ⟨rfl, rfl⟩ := Prod.mk.inj (step_pure_eq_ok.mp hp)
            exact (advance_eq_ok ht).mp h
          · intro h
            obtain rfl : word = name := by simpa using ht.symm.trans h.token?_eq
            exact ⟨(), r', (advance_eq_ok ht).mpr h, rfl⟩
      | _ => exact iff_of_false unexpected_ne_ok fun h => nomatch ht.symm.trans h.token?_eq

/-- What a call means. -/
inductive Calls : String → List Expr → Expr → Prop where
  | max {lhs rhs} : Calls "max" [lhs, rhs] (lhs.max rhs)
  | min {lhs rhs} : Calls "min" [lhs, rhs] (lhs.min rhs)
  | cast {name arg s} : Scalar.ofName? name = some s → Calls name [arg] (.cast arg (.scalar s))

/-- A call is read without text, and is what it calls. -/
theorem call_eq_ok {name : String} {args : List Expr} {e : Expr} :
    call name args r = .ok (e, r') ↔ Calls name args e ∧ r' = r := by
  constructor
  · intro h
    unfold call at h
    split at h
    · obtain ⟨rfl, rfl⟩ := Prod.mk.inj (step_pure_eq_ok.mp h)
      exact ⟨.max, rfl⟩
    · obtain ⟨rfl, rfl⟩ := Prod.mk.inj (step_pure_eq_ok.mp h)
      exact ⟨.min, rfl⟩
    · cases hs : Scalar.ofName? name with
      | none =>
          rw [hs] at h
          exact nomatch h
      | some s =>
          rw [hs] at h
          obtain ⟨rfl, rfl⟩ := Prod.mk.inj (step_pure_eq_ok.mp h)
          exact ⟨.cast hs, rfl⟩
    · exact nomatch h
  · rintro ⟨h, rfl⟩
    cases h with
    | max => rfl
    | min => rfl
    | cast hs =>
        simp only [call, hs]
        rfl

/-- An update that succeeds is done to the graph alone. -/
theorem onGraph_of_updates {u : Graph.Update α} {a : α} {g : Graph}
    (h : Graph.Updates u r.program.graph a g) :
    onGraph u r = .ok (a, { r with program := { r.program with graph := g } }) := by
  have hrun : u.run.run r.program.graph = (.ok a, g) := h
  rw [onGraph, step_get_bind_eq_ok, hrun]
  rfl

/-- Looking a node up changes nothing. -/
theorem onGraph_node_bind {id : Nat} {m : Node} {f : Node → Reader α}
    (hm : r.program.graph.node? id = some m) :
    (onGraph (do Graph.Update.lift ((← get).node id)) >>= f) r = f m r := by
  have hu : Graph.Updates (do Graph.Update.lift ((← get).node id)) r.program.graph m
      r.program.graph := by
    simp only [Graph.updates_bind, Graph.updates_get, Graph.updates_lift, Graph.node_eq_ok]
    exact ⟨_, _, ⟨rfl, rfl⟩, hm, rfl⟩
  exact congrArg (· >>= fun p => f p.1 p.2) (onGraph_of_updates hu)

end Reader

/-! ### Passing over text -/

/-- The token introduces the declaration of a name. -/
def Declaring (t : Option Token) : Prop := t = some .inputWord ∨ t = some .letWord

/-- Lexemes have been passed over on the way from `r` to `r'`, but no declaration. -/
def Reading.Passes (r r' : Reading) : Prop :=
  ∃ ls, r.rest = ls ++ r'.rest ∧ ∀ l ∈ ls, ¬ Declaring l.token

namespace Reading.Passes

variable {r r₁ r' : Reading}

/-- Staying where one is passes over nothing. -/
theorem of_rest_eq (h : r'.rest = r.rest) : Passes r r' := ⟨[], h.symm, nofun⟩

/-- Text is passed over in parts. -/
theorem trans (h : Passes r r₁) (h' : Passes r₁ r') : Passes r r' := by
  obtain ⟨ls, hls, hplain⟩ := h
  obtain ⟨ls', hls', hplain'⟩ := h'
  refine ⟨ls ++ ls', ?_, List.forall_mem_append.mpr ⟨hplain, hplain'⟩⟩
  rw [hls, hls', List.append_assoc]

/-- No more text is left than before. -/
theorem length_le (h : Passes r r') : r'.rest.length ≤ r.rest.length := by
  obtain ⟨ls, hls, -⟩ := h
  simp [hls]

end Reading.Passes

/-- Taking a token that declares nothing passes over it. -/
theorem Reading.Takes.passes {t : Token} {r r' : Reading} (h : Takes t r r')
    (ht : ¬ Declaring (some t) := by simp [Declaring]) : Passes r r' := by
  obtain ⟨l, hl, hrest⟩ := h.token
  exact ⟨[l], hrest, List.forall_mem_singleton.mpr (hl ▸ ht)⟩

/-- Nothing but the place in the text has changed, and no declaration has been passed over. -/
structure Reading.Skips (r r' : Reading) : Prop where
  passes : Passes r r'
  same   : r' = { r with rest := r'.rest }

namespace Reading.Skips

variable {r r₁ r' : Reading}

theorem refl (r : Reading) : Skips r r := ⟨.of_rest_eq rfl, rfl⟩

/-- Skipping twice is skipping. -/
theorem trans (h : Skips r r₁) (h' : Skips r₁ r') : Skips r r' :=
  ⟨h.passes.trans h'.passes, by rw [h'.same, h.same]⟩

theorem program_eq (h : Skips r r') : r'.program = r.program := by rw [h.same]

theorem symbols_eq (h : Skips r r') : r'.symbols = r.symbols := by rw [h.same]

end Reading.Skips

/-- Taking a token that declares nothing skips it. -/
theorem Reading.Takes.skips {t : Token} {r r' : Reading} (h : Takes t r r')
    (ht : ¬ Declaring (some t) := by simp [Declaring]) : Skips r r' := ⟨h.passes ht, h.same⟩

namespace Reader

/-- The step goes on in the text and does nothing else. -/
def SkipsOver {α : Type} (x : Reader α) : Prop := ∀ r a r', x r = .ok (a, r') → Skips r r'

variable {α β : Type}

/-- Readers in sequence skip if each does. -/
theorem SkipsOver.bind {x : Reader α} {f : α → Reader β} (hx : SkipsOver x)
    (hf : ∀ a, SkipsOver (f a)) : SkipsOver (x >>= f) := by
  intro r b r' h
  obtain ⟨a, r₁, h₁, h₂⟩ := step_bind_eq_ok.mp h
  exact (hx r a r₁ h₁).trans (hf a r₁ b r' h₂)

theorem pure_skips {a : α} : SkipsOver (pure a) := by
  intro r b r' h
  obtain ⟨-, rfl⟩ := Prod.mk.inj (step_pure_eq_ok.mp h)
  exact .refl _

theorem allowance_skips : SkipsOver allowance := by
  intro r n r' h
  obtain ⟨-, rfl⟩ := Prod.mk.inj (step_pure_eq_ok.mp h)
  exact .refl _

/-- Expecting a token that declares nothing skips it. -/
theorem expect_skips {t : Token} (ht : ¬ Declaring (some t) := by simp [Declaring]) :
    SkipsOver (expect t) :=
  fun _ _ _ h => (expect_eq_ok.mp h).skips ht

/-- Reading a name skips it. -/
theorem identifier_skips : SkipsOver identifier :=
  fun _ _ _ h => (identifier_eq_ok.mp h).skips

theorem dataType_skips : SkipsOver dataType := by
  refine identifier_skips.bind fun name => ?_
  cases Scalar.ofName? name with
  | none => exact nofun
  | some s => exact pure_skips

/-- Reading an extent skips it. -/
theorem extent_skips : SkipsOver extent := by
  intro r n r' h
  rw [extent, current_bind] at h
  cases ht : r.token? with
  | none =>
      rw [ht] at h
      exact nomatch h
  | some t =>
      rw [ht] at h
      cases t with
      | int i =>
          simp only at h
          split at h
          · obtain ⟨_, r₁, hadvance, h⟩ := step_bind_eq_ok.mp h
            obtain ⟨-, rfl⟩ := Prod.mk.inj (step_pure_eq_ok.mp h)
            exact ((advance_eq_ok ht).mp hadvance).skips
          · exact nomatch h
      | _ => exact nomatch h

/-- A list between commas is an item, and more of the list behind a comma. -/
theorem commaList_succ_eq_ok {x : Reader α} {n : Nat} {as : List α}
    (h : commaList x (n + 1) r = .ok (as, r')) :
    ∃ a r₁, x r = .ok (a, r₁) ∧
      (r₁.token? ≠ some .comma ∧ as = [a] ∧ r' = r₁ ∨
        ∃ r₂ as', Takes .comma r₁ r₂ ∧ commaList x n r₂ = .ok (as', r') ∧ as = a :: as') := by
  obtain ⟨a, r₁, ha, h⟩ := step_bind_eq_ok.mp h
  refine ⟨a, r₁, ha, ?_⟩
  rw [atToken_bind] at h
  by_cases hcomma : r₁.token? = some .comma
  · rw [hcomma, beq_self_eq_true, if_pos rfl] at h
    obtain ⟨_, r₂, hadvance, h⟩ := step_bind_eq_ok.mp h
    obtain ⟨as', r₃, hrest, h⟩ := step_bind_eq_ok.mp h
    obtain ⟨rfl, rfl⟩ := Prod.mk.inj (step_pure_eq_ok.mp h)
    exact .inr ⟨r₂, as', (advance_eq_ok hcomma).mp hadvance, hrest, rfl⟩
  · rw [if_neg (by simpa using hcomma)] at h
    obtain ⟨rfl, rfl⟩ := Prod.mk.inj (step_pure_eq_ok.mp h)
    exact .inl ⟨hcomma, rfl, rfl⟩

/-- A list between commas relates what its items do. -/
theorem commaList_relates {R : Reading → Reading → Prop} {x : Reader α}
    (htrans : ∀ r r₁ r', R r r₁ → R r₁ r' → R r r') (hskips : ∀ r r', Skips r r' → R r r')
    (hx : ∀ r a r', x r = .ok (a, r') → R r r') :
    ∀ n r as r', commaList x n r = .ok (as, r') → R r r'
  | 0, _, _, _, h => nomatch h
  | n + 1, r, as, r', h => by
      obtain ⟨a, r₁, ha, ⟨-, -, rfl⟩ | ⟨r₂, as', hcomma, hrest, -⟩⟩ := commaList_succ_eq_ok h
      · exact hx _ _ _ ha
      · refine htrans r r₁ _ (hx _ _ _ ha) (htrans r₁ r₂ _ (hskips _ _ hcomma.skips) ?_)
        exact commaList_relates htrans hskips hx n _ _ _ hrest

theorem commaList_skips {x : Reader α} (hx : SkipsOver x) (n : Nat) : SkipsOver (commaList x n) :=
  commaList_relates (fun _ _ _ => .trans) (fun _ _ => id) hx n

theorem axes_skips : SkipsOver axes := by
  refine SkipsOver.bind expect_skips fun _ => allowance_skips.bind fun n => ?_
  refine (commaList_skips ?axis n).bind fun _ =>
    SkipsOver.bind expect_skips fun _ => pure_skips
  exact identifier_skips.bind fun _ => SkipsOver.bind expect_skips fun _ =>
    extent_skips.bind fun _ => pure_skips

theorem indexType_skips {op : Reduction} : SkipsOver (indexType op) := by
  intro r s r' h
  rw [indexType, atToken_bind] at h
  by_cases hlt : r.token? = some .lt
  · rw [hlt, beq_self_eq_true, if_pos rfl] at h
    cases harg : op.isArg with
    | false =>
        rw [harg] at h
        exact nomatch h
    | true =>
        rw [harg] at h
        obtain ⟨_, r₁, hadvance, h⟩ := step_bind_eq_ok.mp h
        refine (((advance_eq_ok hlt).mp hadvance).skips).trans ?_
        exact dataType_skips.bind (fun _ => SkipsOver.bind expect_skips fun _ => pure_skips)
          r₁ s r' h
  · rw [if_neg (by simpa using hlt)] at h
    exact pure_skips r s r' h

/-- An update of the graph passes over nothing. -/
theorem onGraph_passes {u : Graph.Update α} {a : α} {r r' : Reading}
    (h : onGraph u r = .ok (a, r')) : Passes r r' := by
  obtain ⟨g, -, rfl⟩ := onGraph_eq_ok h
  exact .of_rest_eq rfl

theorem addReduction_passes {name : String} {op : Reduction} {index : Scalar} {extents : List Nat}
    {vars : List Var} {value : Expr} {id : Nat} {r r' : Reading}
    (h : addReduction name op index extents vars value r = .ok (id, r')) : Passes r r' := by
  rcases addReduction_eq_ok h with ⟨_, _, -, -, h⟩ | h
  · exact onGraph_passes h
  · exact onGraph_passes h

end Reader

end Program

end TensorLoops
