import TensorLoops.Proofs.Source.Declarations

/-!
# Proofs — Source — Spending

What reading uses up.  Every axis is written with a colon behind it, so the ids given out while a
text is read are paid for with the colons that have been passed: the ids given out and the colons
still to come are together never more than before (`Reading.Spends`).  A body makes its axes after
they have been written, and is read on the credit of their number.

The same walk over the phrases says what is put into the graph: axes count in `i32`, and the
extents of an input are positive.
-/

namespace TensorLoops

/-- The number of colons in a text. -/
def Lexeme.colons (ls : List Lexeme) : Nat := ls.countP (·.token == some .colon)

namespace Program

open Reader Reading Lexeme

/-! ### Ids and colons -/

/-- The ids given out and the colons still to come. -/
def Reading.worth (r : Reading) : Nat := r.program.graph.nextVar + colons r.rest

/-- Reading has gone on from `r` to `r'` on a credit of `k` ids. -/
structure Reading.Spends (k : Nat) (r r' : Reading) : Prop where
  rest   : r'.rest <:+ r.rest
  worth  : r'.worth ≤ r.worth + k
  axes   : ∀ v ∈ r'.program.graph.axes, v ∈ r.program.graph.axes ∨ v.ty = .scalar .i32
  inputs : ∀ (i : Nat) (n : Node), r'.program.graph.node? i = some n → n.compute = none →
    r.program.graph.node? i = some n ∨ n.kind.Positive

namespace Reading.Spends

variable {k m : Nat} {r r₁ r' : Reading}

/-- Text that is passed over costs no id while the graph stays as it is. -/
theorem of_graph (hgraph : r'.program.graph = r.program.graph) (h : r'.rest <:+ r.rest) :
    Spends 0 r r' where
  rest   := h
  worth  := by
    rw [Reading.worth, hgraph]
    exact Nat.add_le_add_left h.sublist.countP_le _
  axes   := fun v hv => .inl (hgraph ▸ hv)
  inputs := fun i n hn _ => .inl (hgraph ▸ hn)

theorem refl (r : Reading) : Spends 0 r r := .of_graph rfl (List.suffix_refl _)

/-- Costs add up. -/
theorem trans (h : Spends k r r₁) (h' : Spends m r₁ r') : Spends (k + m) r r' where
  rest   := h'.rest.trans h.rest
  worth  := by
    have := h.worth
    have := h'.worth
    omega
  axes   := by
    intro v hv
    rcases h'.axes v hv with hv | hty
    · exact h.axes v hv
    · exact .inr hty
  inputs := by
    intro i n hn hc
    rcases h'.inputs i n hn hc with hn | hpos
    · exact h.inputs i n hn hc
    · exact .inr hpos

/-- A credit is paid back with colons that have been passed before. -/
theorem repay (h : Spends 0 r r₁) (hworth : r₁.worth + k ≤ r.worth) (h' : Spends k r₁ r') :
    Spends 0 r r' := by
  obtain ⟨hrest, -, haxes, hinputs⟩ := h.trans h'
  exact ⟨hrest, Nat.le_trans h'.worth hworth, haxes, hinputs⟩

end Reading.Spends

/-- What is left behind passed text is its end. -/
theorem Reading.Passes.suffix {r r' : Reading} (h : Passes r r') : r'.rest <:+ r.rest := by
  obtain ⟨ls, hrest, -⟩ := h
  exact ⟨ls, hrest.symm⟩

theorem Reading.Passes.colons_le {r r' : Reading} (h : Passes r r') :
    colons r'.rest ≤ colons r.rest := h.suffix.sublist.countP_le

theorem Reading.Skips.spends {r r' : Reading} (h : Skips r r') : Spends 0 r r' :=
  .of_graph (congrArg Program.graph h.program_eq) h.passes.suffix

theorem Reading.Takes.spends {t : Token} {r r' : Reading} (h : Takes t r r') : Spends 0 r r' := by
  obtain ⟨l, -, hrest⟩ := h.token
  exact .of_graph (congrArg Program.graph h.program_eq) ⟨[l], hrest.symm⟩

/-- A colon taken is one fewer to come. -/
theorem colons_of_takes {r r' : Reading} (h : Takes .colon r r') :
    colons r'.rest + 1 = colons r.rest := by
  obtain ⟨l, hl, hrest⟩ := h.token
  rw [hrest, colons, colons, List.countP_cons_of_pos (by simp [hl])]

/-- An axis is read behind a colon of its own. -/
theorem axis_colons {r r' : Reading} {a : String × Nat} (h : axis r = .ok (a, r')) :
    colons r'.rest + 1 ≤ colons r.rest := by
  obtain ⟨name, r₁, hname, h⟩ := step_bind_eq_ok.mp h
  obtain ⟨_, r₂, hcolon, h⟩ := step_bind_eq_ok.mp h
  obtain ⟨n, r₃, hextent, h⟩ := step_bind_eq_ok.mp h
  obtain ⟨-, rfl⟩ := Prod.mk.inj (step_pure_eq_ok.mp h)
  have hname := (identifier_skips _ _ _ hname).passes.colons_le
  have hcolon := colons_of_takes (expect_eq_ok.mp hcolon)
  have hextent := (extent_skips _ _ _ hextent).passes.colons_le
  omega

/-- A list of items that each take a colon takes as many as it has items. -/
theorem commaList_colons {α : Type} {x : Reader α} (hx : SkipsOver x)
    (hcolon : ∀ {r a r'}, x r = .ok (a, r') → colons r'.rest + 1 ≤ colons r.rest) :
    ∀ {n r as r'}, commaList x n r = .ok (as, r') → colons r'.rest + as.length ≤ colons r.rest
  | 0, _, _, _, h => nomatch h
  | n + 1, r, as, r', h => by
      obtain ⟨a, r₁, ha, ⟨-, rfl, rfl⟩ | ⟨r₂, as', hcomma, hrest, rfl⟩⟩ := commaList_succ_eq_ok h
      · exact hcolon ha
      · have ha := hcolon ha
        have hcomma := hcomma.passes.colons_le
        have hrest := commaList_colons hx hcolon hrest
        rw [List.length_cons]
        omega

/-- **Axes have a colon each.** -/
theorem axes_colons {r r' : Reading} {list : List (String × Nat)} (h : axes r = .ok (list, r')) :
    colons r'.rest + list.length ≤ colons r.rest := by
  obtain ⟨_, r₁, hopen, h⟩ := step_bind_eq_ok.mp h
  obtain ⟨n, r₂, hn, h⟩ := step_bind_eq_ok.mp h
  obtain ⟨_, r₃, hlist, h⟩ := step_bind_eq_ok.mp h
  obtain ⟨_, r₄, hclose, h⟩ := step_bind_eq_ok.mp h
  obtain ⟨rfl, rfl⟩ := Prod.mk.inj (step_pure_eq_ok.mp h)
  have hopen := ((expect_eq_ok.mp hopen).passes).colons_le
  have hn := (allowance_skips _ _ _ hn).passes.colons_le
  have hlist := commaList_colons (identifier_skips.bind fun _ => SkipsOver.bind expect_skips
    fun _ => extent_skips.bind fun _ => pure_skips) axis_colons hlist
  have hclose := ((expect_eq_ok.mp hclose).passes).colons_le
  omega

/-- What follows the axes may be read on the credit of their number. -/
theorem axes_repay {r r₁ r' : Reading} {list : List (String × Nat)} (hlist : axes r = .ok (list, r₁))
    (h : Spends list.length r₁ r') : Spends 0 r r' := by
  have hskips := axes_skips _ _ _ hlist
  have hcolons := axes_colons hlist
  refine .repay hskips.spends ?_ h
  rw [Reading.worth, Reading.worth, hskips.program_eq]
  omega

/-! ### Phrases -/

/-- A node more, over axes that have been made for it. -/
theorem spends_push {r : Reading} {name : String} {kind : NodeKind} {c : Compute}
    (haxes : ∀ v ∈ c.axes, v.ty = .scalar .i32) :
    Spends 0 r { r with program :=
      { r.program with graph := r.program.graph.push ⟨name, kind, some c⟩ } } where
  rest   := List.suffix_refl _
  worth  := Nat.le_refl _
  axes   := by
    intro v hv
    rw [Graph.axes_push] at hv
    exact (List.mem_append.mp hv).imp_right (haxes v)
  inputs := by
    intro i n hn hc
    rcases Graph.of_node_push hn with hn | ⟨-, -, rfl⟩
    · exact .inl hn
    · exact nomatch hc

/-- Adding a reduction costs no id over those of its axes. -/
theorem addReduction_spends {name : String} {op : Reduction} {index : Scalar} {extents : List Nat}
    {vars : List Var} {value : Expr} {id : Nat} {r r' : Reading}
    (hvars : ∀ v ∈ vars, v.ty = .scalar .i32)
    (h : addReduction name op index extents vars value r = .ok (id, r')) : Spends 0 r r' := by
  rcases addReduction_eq_ok h with ⟨extent, axis, -, rfl, hadd⟩ | hadd
  · obtain ⟨_, hu, rfl⟩ := onGraph_eq_ok hadd
    obtain ⟨-, rfl, -, rfl⟩ := Graph.addArgReduce_eq_ok hu
    exact spends_push hvars
  · obtain ⟨_, hu, rfl⟩ := onGraph_eq_ok hadd
    obtain ⟨-, -, rfl, s, -, rfl⟩ := Graph.addReduce_eq_ok hu
    exact spends_push hvars

/-- New axes count in `i32`, and there is one id for each of them. -/
theorem newAxes_spends {hints : List String} {vars : List Var} {r r' : Reading}
    (h : onGraph (Graph.newAxes hints) r = .ok (vars, r')) :
    (∀ v ∈ vars, v.ty = .scalar .i32) ∧ Spends hints.length r r' := by
  obtain ⟨g, hu, rfl⟩ := onGraph_eq_ok h
  obtain ⟨-, htypes, rfl⟩ := Graph.mapM_fresh (R := fun _ _ v => v.ty = .scalar .i32) (fun h => by
    obtain ⟨rfl, rfl⟩ := Graph.freshVar_eq_ok h
    exact ⟨rfl, rfl, rfl⟩) hu
  refine ⟨fun v hv => ?_, List.suffix_refl _, ?_, fun v hv => .inl hv, fun i n hn _ => .inl hn⟩
  · obtain ⟨_, -, hty⟩ := exists_of_forall₂ htypes hv
    exact hty
  · simp only [Reading.worth]
    omega

mutual

/-- **No phrase costs more ids than its colons.**  By induction on the phrase, for all kinds of
phrases at once. -/
theorem ExprAt.spends : ∀ {scope k r e r'}, ExprAt scope k r e r' → Spends 0 r r'
  | _, _, _, _, _, .level hlhs hchain => hlhs.spends.trans hchain.spends
  | _, _, _, _, _, .neg ht he => ht.spends.trans he.spends
  | _, _, _, _, _, .not ht he => ht.spends.trans he.spends
  | _, _, _, _, _, .int ht => ht.spends
  | _, _, _, _, _, .real ht => ht.spends
  | _, _, _, _, _, .paren ht he ht' => (ht.spends.trans he.spends).trans ht'.spends
  | _, _, _, _, _, .reduction _ hred => hred.spends
  | _, _, _, _, _, .call _ ht ht' hargs ht'' _ =>
      ((ht.spends.trans ht'.spends).trans hargs.spends).trans ht''.spends
  | _, _, _, _, _, .named _ ht _ hname => ht.spends.trans hname.spends

theorem ChainAt.spends : ∀ {scope l lhs r e r'}, ChainAt scope l lhs r e r' → Spends 0 r r'
  | _, _, _, _, _, _, .done _ => .refl _
  | _, _, _, _, _, _, .more _ _ ht hrhs hchain =>
      (ht.spends.trans hrhs.spends).trans hchain.spends
  | _, _, _, _, _, _, .once _ _ ht hrhs => ht.spends.trans hrhs.spends

theorem ListAt.spends : ∀ {scope r es r'}, ListAt scope r es r' → Spends 0 r r'
  | _, _, _, _, .last he _ => he.spends
  | _, _, _, _, .cons he ht hes => (he.spends.trans ht.spends).trans hes.spends

theorem NamedAt.spends : ∀ {scope name r e r'}, NamedAt scope name r e r' → Spends 0 r r'
  | _, _, _, _, _, .axis _ => .refl _
  | _, _, _, _, _, .scalar _ _ _ _ _ => .refl _
  | _, _, _, _, _, .element _ _ _ _ ht hidxs ht' =>
      (ht.spends.trans hidxs.spends).trans ht'.spends

/-- The colons of the axes pay for the credit of the body. -/
theorem ReductionAt.spends : ∀ {scope name r id r'}, ReductionAt scope name r id r' →
    Spends 0 r r'
  | _, _, _, _, _, .intro ht _ hindex hlist hbody hadd => by
      obtain ⟨hvars, hbody⟩ := hbody.spends
      have hfirst := ht.spends.trans (indexType_skips _ _ _ hindex).spends
      have hrest := hbody.trans (addReduction_spends hvars hadd)
      exact hfirst.trans (axes_repay hlist ⟨hrest.rest, hrest.worth, hrest.axes, hrest.inputs⟩)

/-- The body of a reduction costs an id for each axis, whose colons are before it. -/
theorem BodyAt.spends : ∀ {scope list r b r'}, BodyAt scope list r b r' →
    (∀ v ∈ b.1, v.ty = .scalar .i32) ∧ Spends list.length r r'
  | _, list, _, _, _, .intro ht hvars hvalue => by
      obtain ⟨hty, hvars⟩ := newAxes_spends hvars
      rw [List.length_map] at hvars
      refine ⟨hty, ?_⟩
      have h := (ht.spends.trans hvars).trans hvalue.spends
      rwa [Nat.zero_add] at h

end

/-! ### Statements -/

section Statements

variable {name : String} {r r' : Reading} {u : Unit}

/-- The end of a declaration. -/
theorem declaration_spends {id : Nat} {f : Reading → Reading}
    (h : (do expect .semicolon; declare name id; modify f : Reader Unit) r = .ok (u, r'))
    (hf : ∀ r, (f r).program.graph = r.program.graph ∧ (f r).rest = r.rest) : Spends 0 r r' := by
  obtain ⟨r₁, hsemi, -, rfl⟩ := declaration_eq_ok h
  obtain ⟨hgraph, hrest⟩ := hf { r₁ with symbols := (name, id) :: r₁.symbols }
  exact hsemi.spends.trans (.of_graph hgraph ⟨[], hrest⟩)

/-- An input costs no id. -/
theorem addInput_spends {kind : NodeKind} (h : addInput name kind r = .ok (u, r'))
    (hkind : kind.Positive) : Spends 0 r r' := by
  obtain ⟨id, r₁, hadd, h⟩ := step_bind_eq_ok.mp h
  refine Spends.trans (m := 0) ?_ (declaration_spends h fun _ => ⟨rfl, rfl⟩)
  obtain ⟨g, hu, rfl⟩ := onGraph_eq_ok hadd
  obtain ⟨rfl, rfl⟩ := Graph.addNode_eq_ok hu
  refine ⟨List.suffix_refl _, Nat.le_refl _, fun v hv => ?_, fun i n hn hc => ?_⟩
  · rw [Graph.axes_push, Node.axes] at hv
    exact .inl (by simpa using hv)
  · rcases Graph.of_node_push hn with hn | ⟨-, -, rfl⟩
    · exact .inl hn
    · exact .inr hkind

theorem inputStatement_spends (hr : r.Sound) (h : inputStatement r = .ok (u, r')) :
    ∃ r₁, Takes .inputWord r r₁ ∧ Spends 0 r₁ r' := by
  obtain ⟨name, kind, r₁, r₂, r₃, hword, hname, hskips, hkind, h⟩ := inputStatement_eq_ok hr h
  exact ⟨r₁, hword, (hname.spends.trans hskips.spends).trans (addInput_spends h hkind)⟩

/-- A grid that is bound costs no more ids than its colons. -/
theorem gridBinding_spends {id : Nat} (h : gridBinding name r = .ok (id, r')) : Spends 0 r r' := by
  obtain ⟨list, vars, value, r₁, r₂, r₃, hword, hlist, hbody, h⟩ := gridBinding_eq_ok h
  obtain ⟨hvars, hbody⟩ := hbody.spends
  have hadd : Spends 0 r₃ r' := by
    obtain ⟨g, hu, rfl⟩ := onGraph_eq_ok h
    obtain ⟨-, rfl, s, -, rfl⟩ := Graph.addGrid_eq_ok hu
    exact spends_push hvars
  exact hword.spends.trans (axes_repay hlist (hbody.trans hadd))

/-- A binding costs no more ids than its colons. -/
theorem letStatement_spends (hr : r.Sound) (h : letStatement r = .ok (u, r')) :
    ∃ r₁, Takes .letWord r r₁ ∧ Spends 0 r₁ r' := by
  obtain ⟨name, id, r₁, r₂, r₃, r₄, hword, hname, hequals, -, hbinding, h⟩ :=
    letStatement_eq_ok hr h
  have hbegun : Spends 0 r₃ { r₃ with binding := name, reductions := 0 } :=
    .of_graph rfl (List.suffix_refl _)
  have hbound : Spends 0 { r₃ with binding := name, reductions := 0 } r₄ := by
    rcases hbinding with hgrid | ⟨n, hreduction⟩
    · exact gridBinding_spends hgrid
    · exact ((returnsPhrases n).reduction hreduction).spends
  have hhead := (hname.spends.trans hequals.spends).trans (hbegun.trans hbound)
  exact ⟨r₁, hword, hhead.trans (declaration_spends h fun _ => ⟨rfl, rfl⟩)⟩

theorem Lists.spends (h : Lists r r') : Spends 0 r r' := .of_graph h.graph h.passes.suffix

theorem outputStatement_spends (h : outputStatement r = .ok (u, r')) :
    ∃ r₁, Takes .outputWord r r₁ ∧ Spends 0 r₁ r' := by
  obtain ⟨r₁, r₂, hword, hlists, hsemi⟩ := outputStatement_eq_ok h
  exact ⟨r₁, hword, hlists.spends.trans hsemi.spends⟩

/-- A statement takes its first word and spends nothing after it. -/
theorem statement_spends (hr : r.Sound) (h : statement r = .ok (u, r')) :
    ∃ t r₁, Takes t r r₁ ∧ Spends 0 r₁ r' := by
  rcases statement_eq_ok h with h | h | h
  · exact ⟨_, inputStatement_spends hr h⟩
  · exact ⟨_, letStatement_spends hr h⟩
  · exact ⟨_, outputStatement_spends h⟩

/-- **A text costs no more ids than it has colons.** -/
theorem statements_spends {n : Nat} (hr : r.Sound) (h : statements n r = .ok (u, r')) :
    Spends 0 r r' := by
  refine (statements_keep (P := Spends 0 r) (fun hsound hspends h => ?_) hr (.refl _) h).1
  obtain ⟨_, _, hword, hrest⟩ := statement_spends hsound h
  exact hspends.trans (hword.spends.trans hrest)

end Statements

/-- **What a program that was read is made of**: axes that count in `i32`, no more of them than the
text has colons, and inputs with positive extents. -/
theorem spends_of_parse {source : String} {p : Program} (h : parse source = .ok p) :
    p.graph.nextVar ≤ colons (Lexeme.scan source) ∧
      (∀ v ∈ p.graph.axes, v.ty = .scalar .i32) ∧
      ∀ (i : Nat) (n : Node), p.graph.node? i = some n → n.compute = none → n.kind.Positive := by
  obtain ⟨n, _, r, -, hread, rfl⟩ := parse_eq_ok h
  have hspends : Spends 0 (Reading.start source) r := statements_spends (start_sound source) hread
  refine ⟨?_, fun v hv => ?_, fun i n hn hc => ?_⟩
  · have hworth := hspends.worth
    simp only [Reading.worth, Reading.start, Graph.empty] at hworth
    omega
  · refine (hspends.axes v hv).resolve_left ?_
    exact List.not_mem_nil
  · refine (hspends.inputs i n hn hc).resolve_left fun hempty => ?_
    cases Graph.node?_empty.symm.trans hempty

end Program

end TensorLoops
