import Mathlib.Data.List.Perm.Basic
import TensorLoops.Proofs.Source.Growth

/-!
# Proofs — Source — Declarations

What the statements of a program declare.  A statement is an input, a binding or a list of outputs,
and `StatementAt` says once what each of them does to a reading.  From that follows what is known
between two statements (`Reading.Declared`): the whole graph has grown below the declared nodes,
the declared names are distinct and are the names of their nodes, and they are the names that
stand behind `input` and `let` in the text that has been read.
-/

namespace TensorLoops

/-- The name that a lexeme spells. -/
def Lexeme.name? (l : Lexeme) : Option String :=
  match l.token with
  | some (.ident name) => some name
  | _                  => none

/-- The names that stand behind the word `w`, in order. -/
def Lexeme.introduced (w : Token) : List Lexeme → List String
  | []      => []
  | l :: ls => (if l.token = some w then ls.head?.bind name? else none).toList ++ introduced w ls

/-- A tensor of this kind has elements. -/
def NodeKind.Positive : NodeKind → Prop
  | .tensor _ shape => ∀ k ∈ shape, 0 < k
  | .scalar _       => True

namespace Program

open Reader Reading Lexeme

/-! ### Names in the text -/

section Introduced

variable {w w' : Token} {name : String} {r r₁ r' : Reading}

/-- Lexemes without the keyword introduce nothing by it. -/
theorem introduced_append {ls rest : List Lexeme} (h : ∀ l ∈ ls, l.token ≠ some w) :
    introduced w (ls ++ rest) = introduced w rest := by
  induction ls with
  | nil => rfl
  | cons l ls ih =>
      have hl : l.token ≠ some w := h l List.mem_cons_self
      have hls := ih fun l' hl' => h l' (List.mem_cons_of_mem l hl')
      simp [introduced, hl, hls]

theorem Reading.Passes.introduced_eq (h : Passes r r') (hw : Declaring (some w)) :
    introduced w r.rest = introduced w r'.rest := by
  obtain ⟨ls, hrest, hls⟩ := h
  rw [hrest, introduced_append fun l hl hlw => hls l hl (hlw ▸ hw)]

/-- A word with a name behind it introduces the name, and no other word does. -/
theorem introduced_of_takes (hword : Takes w r r₁) (hname : Takes (.ident name) r₁ r')
    (hw' : Declaring (some w')) :
    introduced w' r.rest = (if w = w' then [name] else []) ++ introduced w' r'.rest := by
  rw [← hname.passes.introduced_eq hw']
  obtain ⟨l, hl, hrest⟩ := hword.token
  obtain ⟨l', hl', hrest'⟩ := hname.token
  have hnamed : l'.name? = some name := by simp [Lexeme.name?, hl']
  rw [hrest, introduced, hl, hrest']
  by_cases h : w = w'
  · simp [h, hnamed]
  · simp [h]

end Introduced

/-! ### What a statement does -/

/-- The word `w` declares `name`, for the node `id`. -/
structure Declares (w : Token) (name : String) (id : Nat) (r r' : Reading) : Prop where
  text    : ∃ r₁ r₂, Takes w r r₁ ∧ Takes (.ident name) r₁ r₂ ∧ Passes r₂ r'
  next    : ∀ l ∈ r'.rest.head?, l.token ≠ none
  fresh   : r.symbols.lookup name = none
  symbols : r'.symbols = (name, id) :: r.symbols
  grows   : r.Grows r' [id]
  node    : r'.program.graph.Names id name

/-- A statement has been read. -/
inductive StatementAt (r r' : Reading) : Prop where
  | input {name id} : Declares .inputWord name id r r' →
      r'.program.inputs = r.program.inputs ++ [id] →
      r'.program.bindings = r.program.bindings → StatementAt r r'
  | binding {name id} : Declares .letWord name id r r' →
      r'.program.inputs = r.program.inputs →
      r'.program.bindings = r.program.bindings ++ [(name, id)] → StatementAt r r'
  | output : Passes r r' → (∀ l ∈ r'.rest.head?, l.token ≠ none) → r'.symbols = r.symbols →
      r'.program.graph = r.program.graph → r'.program.inputs = r.program.inputs →
      r'.program.bindings = r.program.bindings → StatementAt r r'

section Statements

variable {w : Token} {name : String} {id : Nat} {r r₁ r₂ r₃ r' : Reading} {u : Unit}

theorem lookup_eq_none_of_declare (h : declare name id r = .ok (u, r')) :
    r.symbols.lookup name = none := by
  rw [declare, step_get_bind_eq_ok] at h
  cases hname : r.symbols.lookup name with
  | none => rfl
  | some i =>
      rw [hname] at h
      cases h

/-- The end of a declaration. -/
theorem declaration_eq_ok {f : Reading → Reading}
    (h : (do expect .semicolon; declare name id; modify f : Reader Unit) r = .ok (u, r')) :
    ∃ r₁, Takes .semicolon r r₁ ∧ r₁.symbols.lookup name = none ∧
      r' = f { r₁ with symbols := (name, id) :: r₁.symbols } := by
  obtain ⟨_, r₁, hexpect, h⟩ := step_bind_eq_ok.mp h
  obtain ⟨_, r₂, hdeclare, h⟩ := step_bind_eq_ok.mp h
  obtain ⟨-, rfl⟩ := Prod.mk.inj (step_modify_eq_ok.mp h)
  refine ⟨r₁, expect_eq_ok.mp hexpect, lookup_eq_none_of_declare hdeclare, ?_⟩
  rw [declare_eq_ok hdeclare]

/-- A name that was declared once its node had been made. -/
theorem declares_of_takes {r₄ : Reading} (hword : Takes w r r₁) (hname : Takes (.ident name) r₁ r₂)
    (hpasses : Passes r₂ r₃) (hsymbols : r₃.symbols = r₂.symbols) (hgrows : r₂.Grows r₃ [id])
    (hnode : r₃.program.graph.Names id name)
    (hsemi : Takes .semicolon r₃ r₄) (hfresh : r₄.symbols.lookup name = none)
    (hrest : r'.rest = r₄.rest) (hsym : r'.symbols = (name, id) :: r₄.symbols)
    (hgraph : r'.program.graph = r₄.program.graph) : Declares w name id r r' := by
  have hsame : r₄.symbols = r.symbols := by
    rw [hsemi.symbols_eq, hsymbols, hname.symbols_eq, hword.symbols_eq]
  have hgraph : r'.program.graph = r₃.program.graph := by rw [hgraph, hsemi.program_eq]
  refine ⟨⟨r₁, r₂, hword, hname, ?text⟩, ?next, hsame ▸ hfresh, hsame ▸ hsym, ?grows, ?node⟩
  case text => exact hpasses.trans ((hsemi.passes).trans (.of_rest_eq hrest))
  case next => exact hrest ▸ hsemi.next
  case grows =>
    rw [Reading.Grows, hgraph]
    exact ((hword.grows _).trans (hname.grows _)).trans hgrows
  case node => rwa [hgraph]

/-- An input is a name with a type, and a tensor has positive extents. -/
theorem inputStatement_eq_ok (hr : r.Sound) (h : inputStatement r = .ok (u, r')) :
    ∃ name kind r₁ r₂ r₃, Takes .inputWord r r₁ ∧ Takes (.ident name) r₁ r₂ ∧ Skips r₂ r₃ ∧
      kind.Positive ∧ addInput name kind r₃ = .ok (u, r') := by
  obtain ⟨_, r₁, hword, h⟩ := step_bind_eq_ok.mp h
  obtain ⟨name, r₂, hname, h⟩ := step_bind_eq_ok.mp h
  obtain ⟨_, r₃, hcolon, h⟩ := step_bind_eq_ok.mp h
  obtain ⟨s, r₄, htype, h⟩ := step_bind_eq_ok.mp h
  have hr₄ : r₄.Sound := dataType_keeps.preserves _ _ _ (expect_keeps.preserves _ _ _
    (identifier_keeps.preserves _ _ _ (expect_keeps.preserves _ _ _ hr hword) hname) hcolon) htype
  have hword := expect_eq_ok.mp hword
  have hname := identifier_eq_ok.mp hname
  have hskips : Skips r₂ r₄ := ((expect_eq_ok.mp hcolon).skips).trans (dataType_skips _ _ _ htype)
  rw [atToken_bind] at h
  by_cases hshape : r₄.token? = some .lbracket
  · rw [hshape, beq_self_eq_true] at h
    obtain ⟨_, r₅, hadvance, h⟩ := step_bind_eq_ok.mp h
    obtain ⟨n, r₆, hn, h⟩ := step_bind_eq_ok.mp h
    obtain ⟨shape, r₇, hextents, h⟩ := step_bind_eq_ok.mp h
    obtain ⟨_, r₈, hclose, h⟩ := step_bind_eq_ok.mp h
    have hr₆ := allowance_keeps.preserves _ _ _ (advance_keeps.preserves _ _ _ hr₄ hadvance) hn
    have hpositive := (commaList_ensures extent_ensures n _ _ _ hr₆.counts hextents).2.2.2
    have hrest : Skips r₄ r₈ := (((advance_eq_ok hshape).mp hadvance).skips).trans
      ((allowance_skips _ _ _ hn).trans ((commaList_skips extent_skips n _ _ _ hextents).trans
        ((expect_eq_ok.mp hclose).skips)))
    exact ⟨name, .tensor s shape, r₁, r₂, r₈, hword, hname, hskips.trans hrest,
      fun k hk => (hpositive k hk).1, h⟩
  · rw [show (r₄.token? == some .lbracket) = false by simpa using hshape] at h
    exact ⟨name, .scalar s, r₁, r₂, r₄, hword, hname, hskips, trivial, h⟩

/-- What an input statement does. -/
theorem inputStatement_statementAt (hr : r.Sound) (h : inputStatement r = .ok (u, r')) :
    StatementAt r r' := by
  obtain ⟨name, kind, r₁, r₂, r₃, hword, hname, hskips, -, h⟩ := inputStatement_eq_ok hr h
  obtain ⟨id, r₄, hadd, h⟩ := step_bind_eq_ok.mp h
  obtain ⟨r₅, hsemi, hfresh, rfl⟩ := declaration_eq_ok h
  have hpasses := hskips.passes.trans (onGraph_passes hadd)
  obtain ⟨g, hu, rfl⟩ := onGraph_eq_ok hadd
  obtain ⟨rfl, rfl⟩ := Graph.addNode_eq_ok hu
  have hprogram : r₃.program = r.program := by
    rw [hskips.program_eq, hname.program_eq, hword.program_eq]
  refine .input (declares_of_takes hword hname hpasses ?symbols ((hskips.grows _).trans .pushInput)
    Graph.names_push hsemi hfresh rfl rfl rfl) ?inputs ?bindings
  case symbols => exact hskips.symbols_eq
  case inputs => simp [hsemi.program_eq, hprogram]
  case bindings => simp [hsemi.program_eq, hprogram]

/-- The node `id` has been made under `name`, inside a declaration. -/
structure Makes (name : String) (r : Reading) (id : Nat) (r' : Reading) : Prop where
  passes : Passes r r'
  grows  : r.Grows r' [id]
  node   : r'.program.graph.Names id name
  later  : Later r r'

/-- A grid is its axes and a body over them. -/
theorem gridBinding_eq_ok (h : gridBinding name r = .ok (id, r')) :
    ∃ list vars value r₁ r₂ r₃, Takes .gridWord r r₁ ∧ axes r₁ = .ok (list, r₂) ∧
      BodyAt [] list r₂ (vars, value) r₃ ∧
      onGraph (Graph.addGrid name (list.map Prod.snd) vars value) r₃ = .ok (id, r') := by
  obtain ⟨_, r₁, hword, h⟩ := step_bind_eq_ok.mp h
  obtain ⟨list, r₂, hlist, h⟩ := step_bind_eq_ok.mp h
  obtain ⟨n, _, hn, hread⟩ := step_bind_eq_ok.mp h
  obtain ⟨-, rfl⟩ := Prod.mk.inj (step_pure_eq_ok.mp hn)
  obtain ⟨⟨vars, value⟩, r₃, hbody, hadd⟩ := step_bind_eq_ok.mp hread
  exact ⟨list, vars, value, r₁, _, r₃, expect_eq_ok.mp hword, hlist,
    (returnsPhrases n).body hbody, hadd⟩

/-- A grid that is bound makes a node of that name. -/
theorem gridBinding_makes (hr : r.Sound) (h : gridBinding name r = .ok (id, r')) :
    Makes name r id r' := by
  have hlater := ((gridBinding_reads name) _ _ _ _ hr.inside h).1
  obtain ⟨list, vars, value, r₁, r₂, r₃, hword, hlist, hbody, h⟩ := gridBinding_eq_ok h
  have hskips : Skips r r₂ := hword.skips.trans (axes_skips _ _ _ hlist)
  obtain ⟨k, hk, haxes, hvalue⟩ := hbody.grows
  have hadd := onGraph_passes h
  obtain ⟨g, hu, rfl⟩ := onGraph_eq_ok h
  obtain ⟨-, rfl, s, htype, rfl⟩ := Graph.addGrid_eq_ok hu
  exact ⟨hskips.passes.trans (hbody.passes.trans hadd),
    (hskips.grows _).trans (.push hk haxes hvalue htype), Graph.names_push, hlater⟩

theorem reduction_makes {n : Nat} (hr : r.Sound)
    (h : reduction [] n (some name) r = .ok (id, r')) : Makes name r id r' := by
  have hlater := ((readsAt n).reduction [] (some name) _ _ _ _ hr.inside h).1
  have hred := (returnsPhrases n).reduction h
  obtain ⟨hgrows, hnames⟩ := hred.grows
  exact ⟨hred.passes, hgrows, hnames name rfl, hlater⟩

/-- A binding is a name with a grid or a reduction. -/
theorem letStatement_eq_ok (hr : r.Sound) (h : letStatement r = .ok (u, r')) :
    ∃ name id r₁ r₂ r₃ r₄, Takes .letWord r r₁ ∧ Takes (.ident name) r₁ r₂ ∧
      Takes .equals r₂ r₃ ∧ Reading.Sound { r₃ with binding := name, reductions := 0 } ∧
      (gridBinding name { r₃ with binding := name, reductions := 0 } = .ok (id, r₄) ∨
        ∃ n, reduction [] n (some name) { r₃ with binding := name, reductions := 0 } =
          .ok (id, r₄)) ∧
      addBinding name id r₄ = .ok (u, r') := by
  obtain ⟨_, r₁, hword, h⟩ := step_bind_eq_ok.mp h
  obtain ⟨name, r₂, hname, h⟩ := step_bind_eq_ok.mp h
  obtain ⟨_, r₃, hequals, h⟩ := step_bind_eq_ok.mp h
  rw [step_modify_bind_eq_ok, atToken_bind, atReduction_bind] at h
  set r₄ : Reading := { r₃ with binding := name, reductions := 0 }
  have hr₄ : r₄.Sound := by
    have hr₃ := expect_keeps.preserves _ _ _ (identifier_keeps.preserves _ _ _
      (expect_keeps.preserves _ _ _ hr hword) hname) hequals
    exact hr₃.later (.of_program_eq rfl rfl (List.Subset.refl _)) hr₃.program.settled
  have hword := expect_eq_ok.mp hword
  have hname := identifier_eq_ok.mp hname
  have hequals := expect_eq_ok.mp hequals
  cases hgrid : r₄.token? == some .gridWord with
  | true =>
      rw [hgrid] at h
      obtain ⟨id, r₅, hbinding, h⟩ := step_bind_eq_ok.mp h
      exact ⟨name, id, r₁, r₂, r₃, r₅, hword, hname, hequals, hr₄, .inl hbinding, h⟩
  | false =>
      rw [hgrid] at h
      cases hred : r₄.startsReduction with
      | true =>
          rw [hred] at h
          obtain ⟨n, _, hn, h⟩ := step_bind_eq_ok.mp h
          obtain ⟨-, rfl⟩ := Prod.mk.inj (step_pure_eq_ok.mp hn)
          obtain ⟨id, r₅, hreduction, h⟩ := step_bind_eq_ok.mp h
          exact ⟨name, id, r₁, r₂, r₃, r₅, hword, hname, hequals, hr₄, .inr ⟨n, hreduction⟩, h⟩
      | false =>
          rw [hred] at h
          cases h

/-- What a binding does. -/
theorem letStatement_statementAt (hr : r.Sound) (h : letStatement r = .ok (u, r')) :
    StatementAt r r' := by
  obtain ⟨name, id, r₁, r₂, r₃, r₄, hword, hname, hequals, hr₄, hbinding, h⟩ :=
    letStatement_eq_ok hr h
  have hskips : Skips r₂ r₃ := hequals.skips
  have hmakes : Makes name { r₃ with binding := name, reductions := 0 } id r₄ := by
    rcases hbinding with hgrid | ⟨n, hreduction⟩
    · exact gridBinding_makes hr₄ hgrid
    · exact reduction_makes hr₄ hreduction
  obtain ⟨r₅, hsemi, hfresh, rfl⟩ := declaration_eq_ok h
  have hprogram : r₃.program = r.program := by
    rw [hskips.program_eq, hname.program_eq, hword.program_eq]
  refine .binding (declares_of_takes hword hname (hskips.passes.trans hmakes.passes) ?symbols
    ((hskips.grows _).trans hmakes.grows) hmakes.node hsemi hfresh rfl rfl rfl) ?inputs ?bindings
  case symbols => exact hmakes.later.symbols.trans hskips.symbols_eq
  case inputs => simp [hsemi.program_eq, hmakes.later.inputs, hprogram]
  case bindings => simp [hsemi.program_eq, hmakes.later.bindings, hprogram]

/-- Only the list of outputs has changed. -/
structure Lists (r r' : Reading) : Prop where
  passes   : Passes r r'
  symbols  : r'.symbols = r.symbols
  graph    : r'.program.graph = r.program.graph
  inputs   : r'.program.inputs = r.program.inputs
  bindings : r'.program.bindings = r.program.bindings

theorem Lists.trans (h : Lists r r₁) (h' : Lists r₁ r') : Lists r r' :=
  ⟨h.passes.trans h'.passes, h'.symbols.trans h.symbols, h'.graph.trans h.graph,
    h'.inputs.trans h.inputs, h'.bindings.trans h.bindings⟩

theorem Reading.Skips.lists (h : Skips r r') : Lists r r' := by
  have hprogram := h.program_eq
  exact ⟨h.passes, h.symbols_eq, by rw [hprogram], by rw [hprogram],
    by rw [hprogram]⟩

/-- An output puts one node to the end of the list. -/
theorem output_lists (h : output r = .ok (u, r')) : Lists r r' := by
  obtain ⟨name, r₁, hname, h⟩ := step_bind_eq_ok.mp h
  rw [step_get_bind_eq_ok] at h
  cases hs : r₁.symbols.lookup name with
  | none =>
      rw [hs] at h
      exact nomatch h
  | some id =>
      rw [hs] at h
      obtain ⟨-, rfl⟩ := Prod.mk.inj (step_modify_eq_ok.mp h)
      exact (identifier_skips _ _ _ hname).lists.trans ⟨.of_rest_eq rfl, rfl, rfl, rfl, rfl⟩

/-- The parts of an output statement. -/
theorem outputStatement_eq_ok (h : outputStatement r = .ok (u, r')) :
    ∃ r₁ r₂, Takes .outputWord r r₁ ∧ Lists r₁ r₂ ∧ Takes .semicolon r₂ r' := by
  obtain ⟨_, r₁, hword, h⟩ := step_bind_eq_ok.mp h
  obtain ⟨n, r₂, hn, h⟩ := step_bind_eq_ok.mp h
  obtain ⟨_, r₃, hdiscard, hexpect⟩ := step_bind_eq_ok.mp h
  obtain ⟨_, _, hlist, hpure⟩ := step_bind_eq_ok (f := fun _ => pure PUnit.unit) |>.mp hdiscard
  obtain ⟨-, rfl⟩ := Prod.mk.inj (step_pure_eq_ok.mp hpure)
  have hmiddle : Lists r₂ r₃ := commaList_relates (R := Lists) (fun _ _ _ => .trans)
    (fun _ _ h => h.lists) (fun _ _ _ => output_lists) n _ _ _ hlist
  exact ⟨r₁, r₃, expect_eq_ok.mp hword, (allowance_skips _ _ _ hn).lists.trans hmiddle,
    expect_eq_ok.mp hexpect⟩

theorem outputStatement_statementAt (h : outputStatement r = .ok (u, r')) : StatementAt r r' := by
  obtain ⟨r₁, r₂, hword, hlists, hsemi⟩ := outputStatement_eq_ok h
  have h : Lists r r' := (hword.skips.lists.trans hlists).trans hsemi.skips.lists
  exact .output h.passes hsemi.next h.symbols h.graph h.inputs h.bindings

/-- The first word of a statement says of which kind it is. -/
theorem statement_eq_ok (h : statement r = .ok (u, r')) : inputStatement r = .ok (u, r') ∨
    letStatement r = .ok (u, r') ∨ outputStatement r = .ok (u, r') := by
  rw [statement, current_bind] at h
  cases ht : r.token? with
  | none =>
      rw [ht] at h
      cases h
  | some t =>
      rw [ht] at h
      cases t with
      | inputWord => exact .inl h
      | letWord => exact .inr (.inl h)
      | outputWord => exact .inr (.inr h)
      | _ => cases h

/-- **What a statement does**, of whichever kind it is. -/
theorem statement_statementAt (hr : r.Sound) (h : statement r = .ok (u, r')) :
    StatementAt r r' := by
  rcases statement_eq_ok h with h | h | h
  · exact inputStatement_statementAt hr h
  · exact letStatement_statementAt hr h
  · exact outputStatement_statementAt h

end Statements

/-! ### Between two statements -/

/-- What the statements up to `r` have declared, in a text that reads `source`.  The names behind
`input` that are passed are `names`. -/
structure Reading.Declared (source : List Lexeme) (names : List String) (r : Reading) : Prop where
  next     : ∀ l ∈ r.rest.head?, l.token ≠ none
  grown    : Graph.empty.Grows r.program.graph (r.symbols.map Prod.snd)
  distinct : (r.symbols.map Prod.fst).Nodup
  named    : ∀ s ∈ r.symbols, r.program.graph.Names s.2 s.1
  length   : names.length = r.program.inputs.length
  symbols  : r.symbols.Perm (names.zip r.program.inputs ++ r.program.bindings)
  inputs   : names ++ introduced .inputWord r.rest = introduced .inputWord source
  bindings : r.program.bindings.map Prod.fst ++ introduced .letWord r.rest =
    introduced .letWord source

section Declared

variable {source : List Lexeme} {names : List String} {w : Token} {name : String} {id : Nat}
  {r r' : Reading}

theorem Declares.introduced_eq (h : Declares w name id r r') {w' : Token}
    (hw' : Declaring (some w')) :
    introduced w' r.rest = (if w = w' then [name] else []) ++ introduced w' r'.rest := by
  obtain ⟨r₁, r₂, hword, hname, hpasses⟩ := h.text
  rw [introduced_of_takes hword hname hw', hpasses.introduced_eq hw']

theorem Reading.Declared.grown_of_declares (hr : r.Declared source names)
    (h : Declares w name id r r') :
    Graph.empty.Grows r'.program.graph (r'.symbols.map Prod.snd) := by
  rw [h.symbols]
  exact (hr.grown.roots (List.subset_cons_self _ _)).trans
    (h.grows.roots (List.cons_subset_cons _ (List.nil_subset _)))

theorem Reading.Declared.distinct_of_declares (hr : r.Declared source names)
    (h : Declares w name id r r') : (r'.symbols.map Prod.fst).Nodup := by
  rw [h.symbols, List.map_cons, List.nodup_cons]
  refine ⟨fun hmem => ?_, hr.distinct⟩
  obtain ⟨s, hs, rfl⟩ := List.mem_map.mp hmem
  have hne := List.lookup_eq_none_iff.mp h.fresh s hs
  simp at hne

theorem Reading.Declared.named_of_declares (hr : r.Declared source names)
    (h : Declares w name id r r') :
    ∀ s ∈ r'.symbols, r'.program.graph.Names s.2 s.1 := by
  rw [h.symbols]
  refine List.forall_mem_cons.mpr ⟨h.node, fun s hs => ?_⟩
  exact (hr.named s hs).mono h.grows.graph h.grows.compact

/-- A statement declares what stands in the text. -/
theorem Reading.Declared.statement (hr : r.Declared source names) (h : StatementAt r r') :
    ∃ names', r'.Declared source names' := by
  cases h with
  | @input name id h hinputs hbindings =>
      refine ⟨names ++ [name], h.next, hr.grown_of_declares h, hr.distinct_of_declares h,
        hr.named_of_declares h, ?length, ?symbols, ?inputs, ?bindings⟩
      case length => simp [hinputs, hr.length]
      case symbols =>
        rw [h.symbols, hinputs, hbindings, List.zip_append hr.length, List.append_assoc]
        exact (hr.symbols.cons _).trans List.perm_middle.symm
      case inputs =>
        rw [List.append_assoc, ← hr.inputs, h.introduced_eq (.inl rfl), if_pos rfl]
      case bindings =>
        rw [hbindings, ← hr.bindings, h.introduced_eq (.inr rfl), if_neg nofun, List.nil_append]
  | @binding name id h hinputs hbindings =>
      refine ⟨names, h.next, hr.grown_of_declares h, hr.distinct_of_declares h,
        hr.named_of_declares h, ?length, ?symbols, ?inputs, ?bindings⟩
      case length => rw [hinputs, hr.length]
      case symbols =>
        rw [h.symbols, hinputs, hbindings, ← List.append_assoc]
        exact (hr.symbols.cons _).trans (List.perm_append_singleton _ _).symm
      case inputs =>
        rw [← hr.inputs, h.introduced_eq (.inl rfl), if_neg nofun, List.nil_append]
      case bindings =>
        rw [hbindings, ← hr.bindings, h.introduced_eq (.inr rfl), if_pos rfl, List.map_append,
          List.append_assoc, List.map_singleton]
  | output hpasses hnext hsymbols hgraph hinputs hbindings =>
      refine ⟨names, hnext, ?_, ?_, ?_, ?_, ?_, ?_, ?_⟩
      · rw [hsymbols, hgraph]; exact hr.grown
      · rw [hsymbols]; exact hr.distinct
      · rw [hsymbols, hgraph]; exact hr.named
      · rw [hinputs]; exact hr.length
      · rw [hsymbols, hinputs, hbindings]; exact hr.symbols
      · rw [← hpasses.introduced_eq (.inl rfl)]; exact hr.inputs
      · rw [hbindings, ← hpasses.introduced_eq (.inr rfl)]; exact hr.bindings

end Declared

/-- What every statement keeps holds at the end of the text, by induction on their number. -/
theorem statements_keep {P : Reading → Prop}
    (hstep : ∀ {r r' u}, r.Sound → P r → statement r = .ok (u, r') → P r') :
    ∀ {n r r' u}, r.Sound → P r → statements n r = .ok (u, r') → P r' ∧ r'.token? = none
  | 0, _, _, _, _, _, h => nomatch h
  | n + 1, r, r', u, hsound, hr, h => by
      rw [statements, current_bind] at h
      cases ht : r.token? with
      | none =>
          rw [ht] at h
          obtain ⟨-, rfl⟩ := Prod.mk.inj (step_pure_eq_ok.mp h)
          exact ⟨hr, ht⟩
      | some t =>
          rw [ht] at h
          obtain ⟨_, r₁, hstatement, hrest⟩ := step_bind_eq_ok.mp h
          exact statements_keep hstep (statement_preserves _ _ _ hsound hstatement)
            (hstep hsound hr hstatement) hrest

/-! ### Whole programs -/

/-- The declared names with their nodes: inputs take the names behind `input` in the text. -/
def declarations (source : List Lexeme) (p : Program) : List (String × Nat) :=
  (introduced .inputWord source).zip p.inputs ++ p.bindings

/-- The program declares what stands in the text. -/
structure Declared (source : List Lexeme) (p : Program) : Prop where
  length   : (introduced .inputWord source).length = p.inputs.length
  bindings : p.bindings.map Prod.fst = introduced .letWord source
  distinct : ((p.declarations source).map Prod.fst).Nodup
  named    : ∀ d ∈ p.declarations source, p.graph.Names d.2 d.1
  grown    : Graph.empty.Grows p.graph ((p.declarations source).map Prod.snd)

/-- At the end of the text, all of it has been declared. -/
theorem Reading.Declared.program {source : List Lexeme} {names : List String} {r : Reading}
    (h : r.Declared source names) (hend : r.token? = none) : r.program.Declared source := by
  -- the text has been read to its end
  have hrest : r.rest = [] := by
    cases hrest : r.rest with
    | nil => rfl
    | cons l ls =>
        have hl : l.token = none := by simpa [token?, hrest] using hend
        exact absurd hl (h.next l (by simp [hrest]))
  obtain ⟨-, hgrown, hdistinct, hnamed, hlength, hperm, hinputs, hbindings⟩ := h
  have hnames : names = introduced .inputWord source := by simpa [hrest, introduced] using hinputs
  subst hnames
  refine ⟨hlength, by simpa [hrest, introduced] using hbindings, ?_, ?_, ?_⟩
  · exact (hperm.map _).nodup_iff.mp hdistinct
  · exact fun d hd => hnamed d (hperm.mem_iff.mpr hd)
  · exact hgrown.roots (hperm.map _).subset

/-- At the start nothing has. -/
theorem Reading.start_declared {source : String}
    (h : ∀ l ∈ (Lexeme.scan source).head?, l.token ≠ none) :
    (Reading.start source).Declared (Lexeme.scan source) [] where
  next     := h
  grown    := .refl _ _
  distinct := List.nodup_nil
  named    := nofun
  length   := rfl
  symbols  := .refl _
  inputs   := rfl
  bindings := rfl

/-- A program that was read declares what stands in its text. -/
theorem declared_of_parse {source : String} {p : Program} (h : parse source = .ok p) :
    p.Declared (Lexeme.scan source) := by
  obtain ⟨n, _, r, henter, hread, rfl⟩ := parse_eq_ok h
  have hstart := start_declared (token_ne_none_of_enter henter)
  obtain ⟨⟨names, hdeclared⟩, hend⟩ :=
    statements_keep (P := fun r => ∃ names, r.Declared (Lexeme.scan source) names)
      (fun hsound ⟨_, hr⟩ h => hr.statement (statement_statementAt hsound h))
      (start_sound source) ⟨[], hstart⟩ hread
  exact hdeclared.program hend

section Lookup

variable {source : List Lexeme} {p : Program} {name : String} {id : Nat}

/-- A node is declared if some declaration of the text made it. -/
theorem isDeclared_iff (hp : p.Declared source) :
    p.isDeclared id = true ↔ ∃ name, (name, id) ∈ p.declarations source := by
  have hsnd : (p.declarations source).map Prod.snd = p.inputs ++ p.bindings.map Prod.snd := by
    rw [declarations, List.map_append, List.map_snd_zip (Nat.le_of_eq hp.length.symm)]
  have hmem : id ∈ (p.declarations source).map Prod.snd ↔ p.isDeclared id = true := by
    rw [hsnd]
    simp [isDeclared]
  rw [← hmem, List.mem_map]
  constructor
  · rintro ⟨⟨name, _⟩, hd, rfl⟩
    exact ⟨name, hd⟩
  · rintro ⟨name, hd⟩
    exact ⟨_, hd, rfl⟩

/-- As long as there are ids for all nodes, what is looked up under a name is what was declared
under it. -/
theorem Declared.lookup_iff (hp : p.Declared source) (hcompact : p.graph.Compact) :
    p.lookup name = some id ↔ (name, id) ∈ p.declarations source := by
  have hfound : ∀ {id}, p.lookup name = some id → (name, id) ∈ p.declarations source := by
    intro id h
    obtain ⟨i, hi, rfl⟩ := Option.map_eq_some_iff.mp h
    have hlt : i < Word.idLimit :=
      Nat.lt_of_lt_of_le (List.mem_range.mp (List.mem_of_find?_eq_some hi)) hcompact
    have htest := List.find?_some hi
    obtain ⟨hdeclared, hname⟩ := Bool.and_eq_true_iff.mp htest
    rw [show Word.toId i = i from Nat.mod_eq_of_lt hlt] at hdeclared ⊢
    obtain ⟨name', hd⟩ := (isDeclared_iff hp).mp hdeclared
    obtain ⟨n, hn, rfl⟩ := hp.named _ hd hcompact
    simp only [Graph.getElem?_of_node? hn, Option.any_some, beq_iff_eq] at hname
    exact hname ▸ hd
  refine ⟨hfound, fun hd => ?_⟩
  obtain ⟨n, hn, hname⟩ := hp.named _ hd hcompact
  -- the search finds some node of the name, and the name was declared only once
  cases hlookup : p.lookup name with
  | none =>
      have hnot := List.find?_eq_none.mp (Option.map_eq_none_iff.mp hlookup) id
        (List.mem_range.mpr (Graph.lt_size_of_node? hn))
      have hid : Word.toId id = id := Nat.mod_eq_of_lt (Graph.node?_eq_some.mp hn).1
      simp [hid, (isDeclared_iff hp).mpr ⟨name, hd⟩, Graph.getElem?_of_node? hn, hname] at hnot
  | some id' =>
      have heq := List.inj_on_of_nodup_map hp.distinct (hfound hlookup) hd rfl
      exact congrArg some (Prod.mk.inj heq).2

end Lookup

end Program

end TensorLoops
