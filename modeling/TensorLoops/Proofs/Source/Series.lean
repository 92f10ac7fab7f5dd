import TensorLoops.Proofs.Code.Naming
import TensorLoops.Proofs.Source.RoundTrip
import TensorLoops.Proofs.Source.WellScoped

/-!
# Proofs — Source — Series

Texts of any length.  The statements of a series declare the names `x0`, `x1` and so on.  If each of
them leads from one program to the next, the text of the first `n` is read and gives the program at
place `n` (`parse_series`).

There are two series.  In the first all names are inputs (`parse_inputs`).  An input makes a node
and takes no variable, so nothing bounds their number, and the one behind the first `2 ^ 32` is
looked up under the id of the first (`lookup_wraps`).  In the second one input is followed by
reductions, each of which mentions the name before it twice (`parse_doublings`).
-/

namespace TensorLoops

namespace Program

open Lexeme Reader Reading

/-! ### Numbered names -/

def numbered (i : Nat) : String := "x" ++ toString i

/-- A numbered name is a letter and the digits of its number. -/
theorem toList_numbered (i : Nat) : (numbered i).toList = 'x' :: Nat.toDigits 10 i := by
  rw [numbered, String.toList_append, toList_toString]
  rfl

theorem numbered_injective : Function.Injective numbered := by
  intro i j hij
  have hlists := congrArg String.toList hij
  rw [toList_numbered, toList_numbered] at hlists
  exact toDigits_injective (List.cons.inj hlists).2

/-- The lexer reads a numbered name as a name. -/
theorem isName_numbered (i : Nat) : IsName (numbered i) := by
  refine ⟨⟨'x', _, toList_numbered i, by decide, ?_⟩, fun hmem => ?_⟩
  · exact List.all_eq_true.mpr fun c hc => isWordPart_of_isDigit (isDigit_of_mem hc)
  · have hhead : ∀ word ∈ keywords, word.toList.head? ≠ some 'x' := by decide
    exact hhead _ hmem (by rw [toList_numbered]; rfl)

/-- The first `n` numbered names, the last one first, for the nodes in order. -/
def numberedSymbols (n : Nat) : List (String × Nat) :=
  (List.range n).reverse.map fun i => (numbered i, Word.toId i)

theorem numberedSymbols_succ (n : Nat) :
    numberedSymbols (n + 1) = (numbered n, Word.toId n) :: numberedSymbols n := by
  simp [numberedSymbols, List.range_succ]

theorem lookup_numberedSymbols (n : Nat) : (numberedSymbols n).lookup (numbered n) = none := by
  refine List.lookup_eq_none_iff.mpr fun s hs => bne_iff_ne.mpr fun hname => ?_
  obtain ⟨i, hi, rfl⟩ := List.mem_map.mp hs
  rw [List.mem_reverse, List.mem_range] at hi
  exact absurd (numbered_injective hname) (by omega)

/-! ### Series of statements -/

section Series

variable {r r' : Reading} {P : Nat → Program} {ts : Nat → List Token} {n i : Nat}

/-- The program `p` has been read, and the first `i` numbered names are declared. -/
structure Standing (p : Program) (i : Nat) (r : Reading) : Prop where
  program : r.program = p
  symbols : r.symbols = numberedSymbols i

/-- The tokens are those of a statement that leads from the program `p` to `p'` and declares the
numbered name `i`. -/
def Leads (ts : List Token) (i : Nat) (p p' : Program) : Prop :=
  ∀ r r', Standing p i r → TakesAll ts r r' →
    ∃ r₁, statement r = .ok ((), r₁) ∧ r₁.rest = r'.rest ∧ Standing p' (i + 1) r₁

/-- A token can be taken wherever the same text is left. -/
theorem Reading.Takes.onto {t : Token} {s : Reading} (h : Takes t r r') (hs : s.rest = r.rest) :
    Takes t s { s with rest := r'.rest } :=
  ⟨hs ▸ h.token, h.next, rfl⟩

/-- Tokens are taken alike wherever the same text is left. -/
theorem TakesAll.onto {ts : List Token} {s : Reading} (h : TakesAll ts r r')
    (hs : s.rest = r.rest) : TakesAll ts s { s with rest := r'.rest } := by
  induction h generalizing s with
  | nil =>
      rw [← hs]
      exact .nil
  | cons ht _ ih => exact .cons (ht.onto hs) (ih rfl)

/-- A statement begins with a token. -/
theorem token?_of_statement {u : Unit} (h : statement r = .ok (u, r')) : r.token?.isSome := by
  cases ht : r.token? with
  | some _ => rfl
  | none =>
      rw [statement, current_bind, ht] at h
      exact absurd h unexpected_ne_ok

/-- The statements from `i` on are read one after another up to the end. -/
theorem Standing.run (hstep : ∀ j < n, Leads (ts j) j (P j) (P (j + 1))) (hne : ∀ j, ts j ≠ [])
    {k : Nat} (hk : i + k = n) (h : Standing (P i) i r)
    (hrest : r.rest.map (·.token) = ((List.range' i k).flatMap ts).map some) {m : Nat}
    (hm : r.rest.length < m) :
    ∃ r₁, statements m r = .ok ((), r₁) ∧ Standing (P n) n r₁ := by
  -- On the number of statements left; the allowance exceeds the lexemes left, and each statement
  -- takes at least one of them.
  obtain ⟨m, rfl⟩ : ∃ m', m = m' + 1 := ⟨m - 1, by omega⟩
  induction k generalizing i r m with
  | zero =>
      obtain rfl : i = n := hk
      have hend : r.token? = none := by
        rw [Reading.token?, List.map_eq_nil_iff.mp hrest]
        rfl
      refine ⟨r, ?_, h⟩
      rw [statements, current_bind, hend]
      rfl
  | succ k ih =>
      rw [List.range'_succ, List.flatMap_cons, List.map_append] at hrest
      obtain ⟨ls, rest, hsplit, hls, hrest⟩ := List.map_eq_append_iff.mp hrest
      have hnext : ∀ l ∈ rest.head?, l.token ≠ none := by
        intro l hl
        obtain ⟨t, -, ht⟩ :=
          List.mem_map.mp (hrest ▸ List.mem_map_of_mem (List.mem_of_mem_head? hl))
        simp [← ht]
      obtain ⟨r₁, hstatement, hrest₁, h₁⟩ :=
        hstep i (by omega) r _ h (.of_rest hls hnext hsplit)
      have hpos : 0 < ls.length := by
        have hlength := congrArg List.length hls
        rw [List.length_map, List.length_map] at hlength
        rw [hlength]
        exact List.length_pos_iff.mpr (hne i)
      have hlength : r.rest.length = ls.length + r₁.rest.length := by
        rw [hsplit, hrest₁, List.length_append]
      obtain ⟨m, rfl⟩ : ∃ m', m = m' + 1 := ⟨m - 1, by omega⟩
      obtain ⟨r₂, hstatements, h₂⟩ :=
        ih (i := i + 1) (by omega) h₁ (hrest₁ ▸ hrest) m (by omega)
      obtain ⟨t, ht⟩ := Option.isSome_iff_exists.mp (token?_of_statement hstatement)
      refine ⟨r₂, ?_, h₂⟩
      rw [statements, current_bind, ht]
      exact bind_ok hstatement hstatements

/-- **The text of the first `n` statements of a series gives its program at place `n`.** -/
theorem parse_series (hstart : P 0 = ⟨.empty, [], [], []⟩) (hne : ∀ i, ts i ≠ [])
    (hspelled : ∀ i, ∀ t ∈ ts i, t.Spellable)
    (hstep : ∀ i < n, Leads (ts i) i (P i) (P (i + 1))) :
    parse (spell ((List.range n).flatMap ts)) = .ok (P n) := by
  set source := spell ((List.range n).flatMap ts) with hsource
  have hrest : (scan source).map (·.token) = ((List.range n).flatMap ts).map some := by
    refine tokens_spell fun t ht => ?_
    obtain ⟨i, -, ht⟩ := List.mem_flatMap.mp ht
    exact hspelled i t ht
  have hstanding : Standing (P 0) 0 (Reading.start source) := ⟨hstart.symm, rfl⟩
  rw [List.range_eq_range'] at hrest
  obtain ⟨r, hstatements, h⟩ := Standing.run hstep hne (Nat.zero_add n) hstanding hrest
    (m := 16 * ((scan source).length + 1)) (by show (scan source).length < _; omega)
  have henter := enter_of_spelled hrest ⟨[], ⟨.empty, [], [], []⟩, [], "", 0⟩
  have hread : onText (do statements (← allowance)) source = .ok ((), r) :=
    bind_ok henter (bind_ok rfl hstatements)
  rw [parse, hread]
  exact congrArg Except.ok h.program

end Series

/-! ### Inputs -/

/-- The tokens of `input name: i32;`. -/
def inputTokens (name : String) : List Token :=
  [.inputWord, .ident name, .colon, .ident "i32", .semicolon]

theorem spellable_inputTokens {name : String} (hname : IsName name) :
    ∀ t ∈ inputTokens name, t.Spellable := by
  have hi32 : IsName "i32" := ⟨⟨'i', ['3', '2'], rfl, by decide, by decide⟩, by decide⟩
  simp [inputTokens, Token.Spellable, hname, hi32]

section Statements

variable {name : String} {r r' : Reading}

/-- The program with the name as one more input. -/
def withInput (p : Program) (name : String) : Program :=
  { p with
    graph  := p.graph.push ⟨name, .scalar .i32, none⟩
    inputs := p.inputs ++ [Word.toId p.graph.size] }

theorem declare_of_fresh {id : Nat} (h : r.symbols.lookup name = none) :
    declare name id r = .ok ((), { r with symbols := (name, id) :: r.symbols }) := by
  rw [declare, step_get_bind_eq_ok, h]
  rfl

/-- A new name becomes an input. -/
theorem addInput_of_takes (h : Takes .semicolon r r') (hfresh : r.symbols.lookup name = none) :
    addInput name (.scalar .i32) r = .ok ((), { r' with
      program := r.program.withInput name
      symbols := (name, Word.toId r.program.graph.size) :: r.symbols }) := by
  have hadd : onGraph (Graph.addNode ⟨name, .scalar .i32, none⟩) r =
      .ok (Word.toId r.program.graph.size, { r with
        program := { r.program with graph := r.program.graph.push ⟨name, .scalar .i32, none⟩ } }) :=
    rfl
  refine bind_ok hadd (bind_ok (expect_of_takes (h.onto rfl)) (bind_ok (declare_of_fresh hfresh) ?_))
  rw [h.same]
  rfl

/-- The declaration of a new name is a statement. -/
theorem statement_of_inputTokens (h : TakesAll (inputTokens name) r r')
    (hfresh : r.symbols.lookup name = none) :
    statement r = .ok ((), { r' with
      program := r.program.withInput name
      symbols := (name, Word.toId r.program.graph.size) :: r.symbols }) := by
  obtain ⟨r₁, hword, h⟩ := h.of_cons
  obtain ⟨r₂, hname, h⟩ := h.of_cons
  obtain ⟨r₃, hcolon, h⟩ := h.of_cons
  obtain ⟨r₄, htype, h⟩ := h.of_cons
  have hsemicolon := h.of_one
  have hprogram : r₄.program = r.program := by
    rw [htype.program_eq, hcolon.program_eq, hname.program_eq, hword.program_eq]
  have hsymbols : r₄.symbols = r.symbols := by
    rw [htype.symbols_eq, hcolon.symbols_eq, hname.symbols_eq, hword.symbols_eq]
  have hinput := addInput_of_takes hsemicolon (hsymbols ▸ hfresh)
  rw [hprogram, hsymbols] at hinput
  have hi32 : dataType r₃ = .ok (.i32, r₄) := bind_ok (identifier_eq_ok.mpr htype) rfl
  rw [statement, current_bind, hword.token?_eq]
  refine bind_ok (expect_of_takes hword) (bind_ok (identifier_eq_ok.mpr hname)
    (bind_ok (expect_of_takes hcolon) (bind_ok hi32 ?_)))
  rw [atToken_bind, hsemicolon.token?_eq]
  exact hinput

/-- One more input statement leads to one more input. -/
theorem leads_input {p : Program} {i : Nat} (hsize : p.graph.size = i) :
    Leads (inputTokens (numbered i)) i p (p.withInput (numbered i)) := by
  intro r r' h htakes
  have hfresh : r.symbols.lookup (numbered i) = none := h.symbols ▸ lookup_numberedSymbols i
  refine ⟨_, statement_of_inputTokens htakes hfresh, rfl, ?_, ?_⟩
  · rw [h.program]
  · rw [numberedSymbols_succ, h.program, h.symbols, hsize]

end Statements

/-- The program with the first `n` numbered names as inputs. -/
def inputsProgram (n : Nat) : Program :=
  ⟨⟨((List.range n).map fun i => ⟨numbered i, .scalar .i32, none⟩).toArray, 0⟩,
    (List.range n).map Word.toId, [], []⟩

theorem size_inputsProgram (n : Nat) : (inputsProgram n).graph.size = n := by
  simp [inputsProgram, Graph.size]

theorem inputsProgram_succ (n : Nat) :
    inputsProgram (n + 1) = (inputsProgram n).withInput (numbered n) := by
  simp [withInput, inputsProgram, Graph.push, Graph.size, List.range_succ]

/-- **Any number of inputs is read.** -/
theorem parse_inputs (n : Nat) :
    parse (spell ((List.range n).flatMap fun i => inputTokens (numbered i))) =
      .ok (inputsProgram n) := by
  refine parse_series rfl (fun i => List.cons_ne_nil _ _)
    (fun i => spellable_inputTokens (isName_numbered i)) fun i _ => ?_
  rw [inputsProgram_succ]
  exact leads_input (size_inputsProgram i)

theorem nodes_inputsProgram {n i : Nat} (hi : i < n) :
    (inputsProgram n).graph.nodes[i]? = some ⟨numbered i, .scalar .i32, none⟩ := by
  simp [inputsProgram, hi]

/-- The name at position `i` is looked up as `i` modulo the number of ids. -/
theorem lookup_inputsProgram {n i : Nat} (hi : i < n) :
    (inputsProgram n).lookup (numbered i) = some (Word.toId i) := by
  have hsize : i ∈ List.range (inputsProgram n).graph.size := by
    rwa [size_inputsProgram, List.mem_range]
  rw [lookup, Option.map_eq_some_iff]
  refine ⟨i, List.find?_range_eq_some.mpr ⟨?found, hsize, fun j hj => ?first⟩, rfl⟩
  case found =>
    have hdeclared : Word.toId i ∈ (inputsProgram n).inputs :=
      List.mem_map_of_mem (List.mem_range.mpr hi)
    simp [isDeclared, hdeclared, nodes_inputsProgram hi]
  case first =>
    have hname : numbered j ≠ numbered i := fun h => by
      have := numbered_injective h
      omega
    simp [nodes_inputsProgram (Nat.lt_trans hj hi), hname]

/-- Behind as many inputs as there are ids, the next one has the id of the first. -/
theorem lookup_wraps {n : Nat} (hn : Word.idLimit < n) :
    (inputsProgram n).lookup (numbered Word.idLimit) = some 0 := by
  have hfound := lookup_inputsProgram hn
  rwa [Word.toId, Nat.mod_self] at hfound

theorem node?_zero_inputsProgram {n : Nat} (hn : 0 < n) :
    (inputsProgram n).graph.node? 0 = some ⟨numbered 0, .scalar .i32, none⟩ := by
  rw [Graph.node?, if_pos (by decide), nodes_inputsProgram hn]

/-! ### Doublings -/

/-- The tokens of `let name = argmax[k: 2] => other + other;`. -/
def doublingTokens (name other : String) : List Token :=
  [.letWord, .ident name, .equals, .ident "argmax", .lbracket, .ident "k", .colon, .int 2,
    .rbracket, .arrow, .ident other, .plus, .ident other, .semicolon]

example : spell (doublingTokens "y" "x") = "let y = argmax [ k : 2 ] => x + x ; " := by decide

theorem spellable_doublingTokens {name other : String} (hname : IsName name)
    (hother : IsName other) : ∀ t ∈ doublingTokens name other, t.Spellable := by
  have hargmax : IsName "argmax" :=
    ⟨⟨'a', ['r', 'g', 'm', 'a', 'x'], rfl, by decide, by decide⟩, by decide⟩
  have hk : IsName "k" := ⟨⟨'k', [], rfl, by decide, by decide⟩, by decide⟩
  simp [doublingTokens, Token.Spellable, hname, hother, hargmax, hk]

/-- The node of such a binding: its axis has the id `v`, and `other` is the node `j`. -/
def doublingNode (name : String) (v j : Nat) : Node :=
  ⟨name, .scalar .i32,
    some (.argReduce 2 ⟨v, "k", .scalar .i32⟩ (.binary .add (.node j) (.node j)) .argmax .i32)⟩

/-- The program with such a binding. -/
def withDoubling (p : Program) (name : String) (j : Nat) : Program :=
  { p with
    graph    := ⟨p.graph.nodes.push (doublingNode name p.graph.nextVar j), p.graph.nextVar + 1⟩
    bindings := p.bindings ++ [(name, Word.toId p.graph.size)] }

section Doubling

variable {name other : String} {r r' : Reading} {j : Nat} {n : Node}

/-- A positive literal is an extent. -/
theorem extent_of_takes {k : Nat} (hk : 0 < k) (h : Takes (.int k) r r') :
    extent r = .ok (k, r') := by
  rw [extent, current_bind, h.token?_eq]
  simp only
  rw [if_pos hk]
  exact bind_ok (advance_of_takes h) rfl

/-- One axis in its brackets is read as such. -/
theorem axes_of_takesAll {k : Nat} (hk : 0 < k)
    (h : TakesAll [.lbracket, .ident name, .colon, .int k, .rbracket] r r') :
    axes r = .ok ([(name, k)], r') := by
  obtain ⟨r₁, hopen, h⟩ := h.of_cons
  obtain ⟨r₂, hname, h⟩ := h.of_cons
  obtain ⟨r₃, hcolon, h⟩ := h.of_cons
  obtain ⟨r₄, hextent, h⟩ := h.of_cons
  have hclose := h.of_one
  have haxis : axis r₁ = .ok ((name, k), r₄) := bind_ok (identifier_eq_ok.mpr hname)
    (bind_ok (expect_of_takes hcolon) (bind_ok (extent_of_takes hk hextent) rfl))
  have hlist (m : Nat) : commaList axis (m + 1) r₁ = .ok ([(name, k)], r₄) := by
    refine bind_ok haxis ?_
    rw [atToken_bind, hclose.token?_eq]
    rfl
  exact bind_ok (expect_of_takes hopen) (bind_ok rfl (bind_ok (hlist _)
    (bind_ok (expect_of_takes hclose) rfl)))

/-- The name of a scalar stands for it where no bracket follows. -/
theorem exprAt_scalar {scope : Scope} (hscope : scope.lookup other = none)
    (hother : r.symbols.lookup other = some j) (hnode : r.program.graph.node? j = some n)
    (hkind : n.kind = .scalar .i32) (h : Takes (.ident other) r r')
    (hnext : ∀ t ∈ [Token.lparen, .lbracket, .lt], r'.token? ≠ some t) :
    ExprAt scope none r (.node j) r' := by
  obtain ⟨hparen, hbracket, hlt⟩ : r'.token? ≠ some .lparen ∧ r'.token? ≠ some .lbracket ∧
      r'.token? ≠ some .lt := by simpa using hnext
  have hred : r.startsReduction = false := by
    rw [Reading.startsReduction, h.token?_eq, h.following?_eq]
    simp [hbracket, hlt]
  refine .named hred h hparen (.scalar hscope ?_ ?_ hkind hbracket)
  · rwa [h.symbols_eq]
  · rwa [h.program_eq]

/-- The sum of a scalar with itself stands in front of a semicolon. -/
theorem exprAt_double {scope : Scope} (hscope : scope.lookup other = none)
    (hother : r.symbols.lookup other = some j) (hnode : r.program.graph.node? j = some n)
    (hkind : n.kind = .scalar .i32) (hend : r'.token? = some .semicolon)
    (h : TakesAll [.ident other, .plus, .ident other] r r') :
    ExprAt scope (some .disjunction) r (.binary .add (.node j) (.node j)) r' := by
  obtain ⟨r₁, hfirst, h⟩ := h.of_cons
  obtain ⟨r₂, hplus, h⟩ := h.of_cons
  have hsecond := h.of_one
  have hlast : Followed 0 r' := by
    intro t ht
    obtain rfl := Option.some.inj (hend.symm.trans ht)
    exact Nat.le_refl 0
  have hlhs : ExprAt scope none r (.node j) r₁ :=
    exprAt_scalar hscope hother hnode hkind hfirst (by simp [hplus.token?_eq])
  have hrhs : ExprAt scope none r₂ (.node j) r' := by
    refine exprAt_scalar hscope ?_ ?_ hkind hsecond (by simp [hend])
    · rwa [hplus.symbols_eq, hfirst.symbols_eq]
    · rwa [hplus.program_eq, hfirst.program_eq]
  have hlhs : ExprAt scope (some .product) r (.node j) r₁ :=
    (StandsBefore.one hlhs).exprAt (followed_of_takes hplus (Nat.le_refl 4)) (by decide)
  have hrhs : ExprAt scope (some .product) r₂ (.node j) r' :=
    (StandsBefore.one hrhs).exprAt hlast (by decide)
  have hsum : ExprAt scope (some .sum) r (.binary .add (.node j) (.node j)) r' :=
    (StandsBefore.more (l := .sum) (t := .plus) (by decide) rfl (.one hlhs) hplus hrhs).exprAt
      hlast (by decide)
  have hcomparison : ExprAt scope (some .comparison) r _ r' :=
    (StandsBefore.one hsum).exprAt hlast (by decide)
  have hconjunction : ExprAt scope (some .conjunction) r _ r' :=
    (StandsBefore.one hcomparison).exprAt hlast (by decide)
  exact (StandsBefore.one hconjunction).exprAt hlast (by decide)

/-- An axis takes the next id, if there is one left. -/
theorem updates_newAxes_one {g : Graph} (hint : String) (hids : g.nextVar + 1 < Word.idLimit) :
    Graph.Updates (Graph.newAxes [hint]) g [⟨g.nextVar, hint, .scalar .i32⟩]
      { g with nextVar := g.nextVar + 1 } := by
  have hnext : Word.nextId g.nextVar = .ok (g.nextVar + 1) := if_pos hids
  have hfresh : Graph.Updates (Graph.newAxis hint) g ⟨g.nextVar, hint, .scalar .i32⟩
      { g with nextVar := g.nextVar + 1 } := by
    rw [← Graph.Update.result_eq_ok, Graph.newAxis, Graph.freshVar_result, hnext]
    rfl
  rw [Graph.newAxes, List.mapM_cons, List.mapM_nil]
  exact Graph.updates_bind.mpr ⟨_, _, hfresh, Graph.updates_bind.mpr ⟨_, _, rfl, rfl⟩⟩

/-- A scalar doubled is of its own type. -/
theorem typeOf_double {g : Graph} (hnode : g.node? j = some n) (hkind : n.kind = .scalar .i32) :
    g.typeOf (.binary .add (.node j) (.node j)) = .ok .i32 := by
  have hscalar : g.typeOf (.node j) = .ok .i32 := by
    rw [Graph.typeOf, Graph.node, hnode]
    simp only [ok_bind, hkind]
  rw [Graph.typeOf, hscalar]
  rfl

/-- A doubling is added as a node. -/
theorem updates_doubling {g : Graph} {v : Nat} (hnode : g.node? j = some n)
    (hkind : n.kind = .scalar .i32) :
    Graph.Updates (Graph.addArgReduce name 2 ⟨v, "k", .scalar .i32⟩
      (.binary .add (.node j) (.node j)) .argmax .i32) g (Word.toId g.size)
      (g.push (doublingNode name v j)) := by
  have htype : Graph.Updates (Graph.inferType (.binary .add (.node j) (.node j))) g .i32 g :=
    Graph.updates_bind.mpr ⟨g, g, rfl, Graph.updates_lift.mpr ⟨typeOf_double hnode hkind, rfl⟩⟩
  have hdiscard : Graph.Updates (discard (Graph.inferType (.binary .add (.node j) (.node j)))) g ()
      g := Graph.updates_bind.mpr ⟨_, _, htype, rfl⟩
  exact Graph.updates_bind.mpr ⟨_, _, hdiscard, rfl⟩

/-- The reduction of such a binding. -/
theorem reductionAt_double
    (h : TakesAll [.ident "argmax", .lbracket, .ident "k", .colon, .int 2, .rbracket, .arrow,
      .ident other, .plus, .ident other] r r')
    (hend : r'.token? = some .semicolon) (hk : other ≠ "k")
    (hother : r.symbols.lookup other = some j) (hnode : r.program.graph.node? j = some n)
    (hkind : n.kind = .scalar .i32) (hids : r.program.graph.nextVar + 1 < Word.idLimit) :
    ReductionAt [] (some name) r (Word.toId r.program.graph.size) { r with
      rest       := r'.rest
      program    := { r.program with graph :=
        ⟨r.program.graph.nodes.push (doublingNode name r.program.graph.nextVar j),
          r.program.graph.nextVar + 1⟩ }
      reductions := r.reductions + 1 } := by
  obtain ⟨r₁, hargmax, h⟩ := h.of_cons
  have h : TakesAll ([.lbracket, .ident "k", .colon, .int 2, .rbracket] ++ [.arrow, .ident other,
    .plus, .ident other]) r₁ r' := h
  obtain ⟨r₂, haxes, h⟩ := h.of_append
  obtain ⟨r₃, harrow, hvalue⟩ := h.of_cons
  -- Reading takes tokens and changes nothing else: all states are `r` but for the text left.
  have hargmax : Takes (.ident "argmax") r { r with rest := r₁.rest } := hargmax.onto rfl
  have haxes := haxes.onto (s := { r with rest := r₁.rest }) rfl
  set g : Graph := { r.program.graph with nextVar := r.program.graph.nextVar + 1 }
  set s : Reading := { r with
    program    := { r.program with graph := g }
    reductions := r.reductions + 1 }
  have harrow : Takes .arrow { r with rest := r₂.rest, reductions := r.reductions + 1 }
    { r with rest := r₃.rest, reductions := r.reductions + 1 } := harrow.onto rfl
  have hvars : onGraph (Graph.newAxes ["k"])
      { r with rest := r₃.rest, reductions := r.reductions + 1 } =
      .ok ([⟨r.program.graph.nextVar, "k", .scalar .i32⟩], { s with rest := r₃.rest }) :=
    onGraph_of_updates (updates_newAxes_one "k" hids)
  have hvalue := hvalue.onto (s := { s with rest := r₃.rest }) rfl
  have hscope (v : Var) : List.lookup other [("k", v)] = none := by
    rw [List.lookup_cons, beq_false_of_ne hk]
    rfl
  have hexpr : ExprAt [("k", ⟨r.program.graph.nextVar, "k", .scalar .i32⟩)] (some .disjunction)
      { s with rest := r₃.rest } (.binary .add (.node j) (.node j)) { s with rest := r'.rest } :=
    exprAt_double (hscope _) hother hnode hkind hend hvalue
  have hindex : indexType .argmax { r with rest := r₁.rest } =
      .ok (.i32, { r with rest := r₁.rest }) := by
    obtain ⟨_, hbracket, -⟩ := haxes.of_cons
    rw [indexType, atToken_bind, hbracket.token?_eq]
    rfl
  have hlist := axes_of_takesAll (by decide) haxes
  refine .intro hargmax rfl hindex hlist (.intro harrow hvars hexpr) ?_
  exact onGraph_of_updates (updates_doubling hnode hkind)

/-- A binding that doubles a scalar is a statement. -/
theorem statement_of_doublingTokens (h : TakesAll (doublingTokens name other) r r')
    (hfresh : r.symbols.lookup name = none) (hk : other ≠ "k")
    (hother : r.symbols.lookup other = some j) (hnode : r.program.graph.node? j = some n)
    (hkind : n.kind = .scalar .i32) (hids : r.program.graph.nextVar + 1 < Word.idLimit) :
    statement r = .ok ((), { r with
      rest       := r'.rest
      program    := r.program.withDoubling name j
      symbols    := (name, Word.toId r.program.graph.size) :: r.symbols
      binding    := name
      reductions := 1 }) := by
  obtain ⟨r₁, hword, h⟩ := h.of_cons
  obtain ⟨r₂, hname, h⟩ := h.of_cons
  obtain ⟨r₃, hequals, h⟩ := h.of_cons
  have h : TakesAll ([.ident "argmax", .lbracket, .ident "k", .colon, .int 2, .rbracket, .arrow,
    .ident other, .plus, .ident other] ++ [.semicolon]) r₃ r' := h
  obtain ⟨r₄, hvalue, h⟩ := h.of_append
  have hsemicolon := h.of_one
  set s : Reading := { r with rest := r₃.rest, binding := name, reductions := 0 } with hs
  have hvalue := hvalue.onto (s := s) rfl
  have hreduction : ReductionAt [] (some name) s _ _ :=
    reductionAt_double hvalue hsemicolon.token?_eq hk hother hnode hkind hids
  have hr₃ : r₃ = { r with rest := r₃.rest } := by
    rw [hequals.same, hname.same, hword.same]
  obtain ⟨_, hargmax, hbrackets⟩ := hvalue.of_cons
  obtain ⟨_, hopen, -⟩ := hbrackets.of_cons
  have hred : s.startsReduction = true := by
    rw [Reading.startsReduction, hargmax.token?_eq, hargmax.following?_eq, hopen.token?_eq]
    rfl
  rw [statement, current_bind, hword.token?_eq]
  refine bind_ok (expect_of_takes hword) (bind_ok (identifier_eq_ok.mpr hname)
    (bind_ok (expect_of_takes hequals) ?_))
  rw [step_modify_bind_eq_ok, atToken_bind, atReduction_bind, hr₃, ← hs, hargmax.token?_eq, hred]
  exact bind_ok rfl (bind_ok (hreduction.read (by omega)) (bind_ok
    (expect_of_takes (hsemicolon.onto rfl)) (bind_ok (declare_of_fresh hfresh) rfl)))

end Doubling

/-- The statements of the series: an input, and bindings that double the name before them. -/
def doublings : Nat → List Token
  | 0     => inputTokens (numbered 0)
  | i + 1 => doublingTokens (numbered (i + 1)) (numbered i)

/-- The nodes of the series. -/
def doubledNode : Nat → Node
  | 0     => ⟨numbered 0, .scalar .i32, none⟩
  | i + 1 => doublingNode (numbered (i + 1)) i i

/-- The program of the first `n` statements. -/
def doublingsProgram : Nat → Program
  | 0     => ⟨.empty, [], [], []⟩
  | n + 1 => ⟨⟨((List.range (n + 1)).map doubledNode).toArray, n⟩, [0],
      (List.range n).map fun i => (numbered (i + 1), Word.toId (i + 1)), []⟩

/-- Below the limit of ids, each doubling is found by its number. -/
theorem node?_doublingsProgram {n i : Nat} (hi : i < n) (hn : n ≤ Word.idLimit) :
    (doublingsProgram n).graph.node? i = some (doubledNode i) := by
  obtain ⟨n, rfl⟩ : ∃ m, n = m + 1 := ⟨n - 1, by omega⟩
  rw [Graph.node?, if_pos (Nat.lt_of_lt_of_le hi hn)]
  simp [doublingsProgram, hi]

theorem eq_doubledNode {n i : Nat} {m : Node} (h : (doublingsProgram n).graph.node? i = some m) :
    m = doubledNode i := by
  have hnodes := Graph.getElem?_of_node? h
  cases n with
  | zero => cases hnodes
  | succ n =>
      obtain ⟨j, hj, rfl⟩ : ∃ j, (List.range (n + 1))[i]? = some j ∧ doubledNode j = m := by
        simpa [doublingsProgram] using hnodes
      obtain ⟨_, rfl⟩ := List.getElem?_eq_some_iff.mp hj
      rw [List.getElem_range]

theorem kind_doubledNode (i : Nat) : (doubledNode i).kind = .scalar .i32 := by
  cases i <;> rfl

/-- One more binding leads to one more doubling. -/
theorem leads_doubling {i : Nat} (hi : i + 1 < Word.idLimit) :
    Leads (doublings (i + 1)) (i + 1) (doublingsProgram (i + 1)) (doublingsProgram (i + 2)) := by
  intro r r' h htakes
  have hfresh : r.symbols.lookup (numbered (i + 1)) = none :=
    h.symbols ▸ lookup_numberedSymbols (i + 1)
  have hother : r.symbols.lookup (numbered i) = some i := by
    rw [h.symbols, numberedSymbols_succ, List.lookup_cons_self, Word.toId,
      Nat.mod_eq_of_lt (Nat.lt_of_succ_lt hi)]
  have hnode : r.program.graph.node? i = some (doubledNode i) := by
    rw [h.program]
    exact node?_doublingsProgram (Nat.lt_succ_self i) (Nat.le_of_lt hi)
  have hk : numbered i ≠ "k" := by
    intro hname
    have hlists := congrArg String.toList hname
    rw [toList_numbered] at hlists
    cases hlists
  have hids : r.program.graph.nextVar + 1 < Word.idLimit := by rwa [h.program]
  refine ⟨_, statement_of_doublingTokens htakes hfresh hk hother hnode (kind_doubledNode i) hids, rfl,
    ?program, ?symbols⟩
  case program =>
    rw [h.program]
    simp [withDoubling, doublingsProgram, Graph.size, List.range_succ, doubledNode]
  case symbols =>
    rw [numberedSymbols_succ (i + 1), ← h.symbols, h.program]
    simp [doublingsProgram, Graph.size]

/-- **Doublings are read, as long as there are ids for their axes.** -/
theorem parse_doublings {n : Nat} (hn : n ≤ Word.idLimit) :
    parse (spell ((List.range n).flatMap doublings)) = .ok (doublingsProgram n) := by
  refine parse_series rfl (fun i => ?nonempty) (fun i => ?spelled) fun i hi => ?step
  case nonempty => cases i <;> exact List.cons_ne_nil _ _
  case spelled =>
    cases i with
    | zero => exact spellable_inputTokens (isName_numbered 0)
    | succ i => exact spellable_doublingTokens (isName_numbered (i + 1)) (isName_numbered i)
  case step =>
    cases i with
    | zero => exact leads_input rfl
    | succ i => exact leads_doubling (Nat.lt_of_lt_of_le hi hn)

end Program

end TensorLoops
