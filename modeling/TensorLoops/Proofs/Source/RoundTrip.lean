import TensorLoops.Proofs.Code.Naming
import TensorLoops.Proofs.Source.Grammar
import TensorLoops.Proofs.Source.Spelling

/-!
# Proofs — Source — RoundTrip

Expressions are read back from their texts.  An expression over axes is made of integer literals,
axes, binary and unary operators (`Arithmetic`).  Its text is in full parentheses, `min` and `max`
being written as calls.  By induction on the expression, the pieces of its text are tokens that the
grammar derives it from as a primary expression, in front of anything that does not go on with a
name or a number (`Arithmetic.readsBack`).  So reading the text gives the expression
(`expression_text`).
-/

namespace TensorLoops

namespace Program

open Lexeme Reader Reading

/-- An expression made of the literals of integers below `2 ^ 63`, axes and operators. -/
inductive Arithmetic (axes : List Var) : Expr → Prop where
  | int {n : Nat} : n < Nat.pow 2 63 → Arithmetic axes (.int n)
  | axis {v : Var} : v ∈ axes → Arithmetic axes (.var v)
  | binary (op : BinaryOp) {lhs rhs : Expr} : Arithmetic axes lhs → Arithmetic axes rhs →
      Arithmetic axes (.binary op lhs rhs)
  | unary (op : UnaryOp) {operand : Expr} : Arithmetic axes operand →
      Arithmetic axes (.unary op operand)

/-- The name of an axis can be written for it: it is a name, and none of a reduction. -/
structure IsAxisName (name : String) : Prop extends IsName name where
  nonreducing : Reduction.ofName? name = none

/-- The axes in scope, each under its hint. -/
def scopeOf (axes : List Var) : Scope := axes.map fun v => (v.hint, v)

/-! ### Derivations of primary expressions -/

namespace Derives

variable {scope : Scope} {l : Level} {t : Token} {op : BinaryOp} {ts us : List Token}
  {e lhs rhs : Expr}

/-- A primary expression is one of every category. -/
theorem of_primary (h : Derives scope .primary ts e) (c : Category) : Derives scope c ts e := by
  have hmul : Derives scope .mul ts e := .mulOne (.unaryOne h)
  have hcmp : Derives scope .cmp ts e := .cmpOne (.addOne hmul)
  cases c with
  | or => exact .orOne (.andOne hcmp)
  | and => exact .andOne hcmp
  | cmp => exact hcmp
  | add => exact .addOne hmul
  | mul => exact hmul
  | unary => exact .unaryOne h
  | primary => exact h

/-- An expression of any level is a disjunction. -/
theorem of_level (h : Derives scope (.ofLevel (some l)) ts e) : Derives scope .or ts e := by
  cases l with
  | disjunction => exact h
  | conjunction => exact .orOne h
  | comparison => exact .orOne (.andOne h)
  | sum => exact .orOne (.andOne (.cmpOne h))
  | product => exact .orOne (.andOne (.cmpOne (.addOne h)))

/-- An operator between primary expressions. -/
theorem of_operator (hop : l.operator? t = some op) (hlhs : Derives scope .primary ts lhs)
    (hrhs : Derives scope .primary us rhs) :
    Derives scope .or (ts ++ t :: us) (.binary op lhs rhs) := by
  cases hrep : l.repeats with
  | true => exact of_level (more hop hrep (hlhs.of_primary _) (hrhs.of_primary _)).finished
  | false => exact of_level (once hop hrep (hlhs.of_primary _) (hrhs.of_primary _))

end Derives

/-- The level and the token of an operator that stands between its operands; `min` and `max` are
calls. -/
def sign? : BinaryOp → Option (Level × Token)
  | .add => some (.sum, .plus)
  | .sub => some (.sum, .minus)
  | .mul => some (.product, .star)
  | .div => some (.product, .slash)
  | .mod => some (.product, .percent)
  | .min => none
  | .max => none
  | .lt  => some (.comparison, .lt)
  | .le  => some (.comparison, .le)
  | .gt  => some (.comparison, .gt)
  | .ge  => some (.comparison, .ge)
  | .eq  => some (.comparison, .eqEq)
  | .ne  => some (.comparison, .notEq)
  | .and => some (.conjunction, .andAnd)
  | .or  => some (.disjunction, .orOr)

section Signs

variable {op : BinaryOp} {l : Level} {t : Token}

theorem operator?_of_sign (h : sign? op = some (l, t)) : l.operator? t = some op := by
  cases op with
  | min => cases h
  | max => cases h
  | _ =>
      cases h
      rfl

/-- The sign is written as the token, and ends before a blank. -/
theorem text_of_sign (h : sign? op = some (l, t)) :
    t.text = op.symbol ∧ t.Spellable ∧ t.Extends ' ' = false := by
  cases op with
  | min => cases h
  | max => cases h
  | _ =>
      cases h
      exact ⟨rfl, trivial, rfl⟩

/-- Operators with a sign are written between their operands. -/
theorem write_of_sign (h : sign? op = some (l, t)) (n : Naming) (lhs rhs : Expr) :
    (Expr.binary op lhs rhs).write n =
      "(" ++ lhs.write n ++ " " ++ op.symbol ++ " " ++ rhs.write n ++ ")" := by
  rw [Expr.write]
  · rintro rfl
    cases h
  · rintro rfl
    cases h

end Signs

/-! ### Texts -/

/-- What follows goes on neither with a name nor with a number. -/
def Parted (more : List Char) : Prop := ∀ c ∈ more.head?, isWordPart c = false ∧ c ≠ '.'

theorem parted_cons {c : Char} (h : isWordPart c = false ∧ c ≠ '.') (cs : List Char) :
    Parted (c :: cs) := by
  intro d hd
  cases hd
  exact h

/-- The text is that of the expression: in front of anything else its pieces are tokens that the
grammar derives the expression from, and it does not start like the second half of an operator. -/
structure ReadsBack (scope : Scope) (e : Expr) (text : String) : Prop where
  start  : ∃ c cs, text.toList = c :: cs ∧ c ≠ '='
  tokens : ∃ ts, Derives scope .primary ts e ∧ ∀ more, Parted more →
    tokensOf (text.toList ++ more) = ts.map some ++ tokensOf more

namespace ReadsBack

variable {scope : Scope} {e lhs rhs : Expr} {text left right : String}

/-- A token that spells an expression reads back, if nothing it is parted from extends it. -/
theorem token {t : Token} (ht : t.Spellable) (hextends : ∀ more, Parted more →
      ∀ c ∈ more.head?, t.Extends c = false) (hstart : ∃ c cs, t.text.toList = c :: cs ∧ c ≠ '=')
    (h : Derives scope .primary [t] e) : ReadsBack scope e t.text :=
  ⟨hstart, [t], h, fun more hmore => tokensOf_text ht (hextends more hmore)⟩

theorem axis {v : Var} (hname : IsName v.hint) (hv : scope.lookup v.hint = some v) :
    ReadsBack scope (.var v) v.hint := by
  refine token (t := .ident v.hint) hname (fun more hmore c hc => (hmore c hc).1) ?_ (.axis hv)
  obtain ⟨c, cs, htext, hstart, -⟩ := hname.word
  refine ⟨c, cs, htext, ?_⟩
  rintro rfl
  exact absurd hstart (by decide)

theorem int {n : Nat} (hn : n < Nat.pow 2 63) : ReadsBack scope (.int n) (toString n) := by
  refine token (t := .int n) hn (fun more hmore c hc => ?_) ?_ .int
  · obtain ⟨hpart, hpoint⟩ := hmore c hc
    have hdigit : c.isDigit = false :=
      Bool.eq_false_iff.mpr fun h => Bool.eq_false_iff.mp hpart (isWordPart_of_isDigit h)
    have hlower : c ≠ 'e' := by
      rintro rfl
      exact absurd hpart (by decide)
    have hupper : c ≠ 'E' := by
      rintro rfl
      exact absurd hpart (by decide)
    simp [Token.Extends, hdigit, hpoint, hlower, hupper]
  · show ∃ c cs, (toString n).toList = c :: cs ∧ c ≠ '='
    rw [toList_toString]
    cases hdigits : Nat.toDigits 10 n with
    | nil => exact absurd hdigits Nat.toDigits_ne_nil
    | cons c cs =>
        refine ⟨c, cs, rfl, ?_⟩
        rintro rfl
        exact absurd (isDigit_of_mem (hdigits ▸ List.mem_cons_self)) (by decide)

theorem tokensOf_lparen (cs : List Char) : tokensOf ('(' :: cs) = some .lparen :: tokensOf cs :=
  tokensOf_text (t := .lparen) trivial fun _ _ => rfl

theorem tokensOf_rparen (cs : List Char) : tokensOf (')' :: cs) = some .rparen :: tokensOf cs :=
  tokensOf_text (t := .rparen) trivial fun _ _ => rfl

theorem tokensOf_comma (cs : List Char) : tokensOf (',' :: cs) = some .comma :: tokensOf cs :=
  tokensOf_text (t := .comma) trivial fun _ _ => rfl

/-- An operator between two expressions, in parentheses. -/
theorem operator {op : BinaryOp} {l : Level} {t : Token} (hop : sign? op = some (l, t))
    (hlhs : ReadsBack scope lhs left) (hrhs : ReadsBack scope rhs right) :
    ReadsBack scope (.binary op lhs rhs)
      ("(" ++ left ++ " " ++ op.symbol ++ " " ++ right ++ ")") := by
  obtain ⟨ts, hts, hleft⟩ := hlhs.tokens
  obtain ⟨us, hus, hright⟩ := hrhs.tokens
  obtain ⟨hsymbol, hspellable, hblank⟩ := text_of_sign hop
  have htext : ∀ more,
      ("(" ++ left ++ " " ++ op.symbol ++ " " ++ right ++ ")").toList ++ more = '(' ::
        (left.toList ++ ' ' :: (t.text.toList ++ ' ' :: (right.toList ++ ')' :: more))) := by
    intro more
    simp [hsymbol]
  refine ⟨⟨'(', _, (List.append_nil _).symm.trans (htext []), by decide⟩,
    .lparen :: (ts ++ t :: us) ++ [.rparen], .paren (.of_operator (operator?_of_sign hop) hts hus),
    fun more _ => ?_⟩
  have hsign : ∀ cs, tokensOf (t.text.toList ++ ' ' :: cs) = some t :: tokensOf cs := by
    intro cs
    rw [tokensOf_text hspellable, tokensOf_blank]
    intro c hc
    cases hc
    exact hblank
  rw [htext, tokensOf_lparen, hleft _ (parted_cons (by decide) _), tokensOf_blank, hsign,
    hright _ (parted_cons (by decide) _), tokensOf_rparen]
  simp

/-- A call of two arguments. -/
theorem call {op : BinaryOp} (hname : IsName op.symbol)
    (hderives : ∀ {ts us}, Derives scope .or ts lhs → Derives scope .or us rhs →
      Derives scope .primary (.ident op.symbol :: .lparen :: ts ++ .comma :: us ++ [.rparen])
        (.binary op lhs rhs))
    (hlhs : ReadsBack scope lhs left) (hrhs : ReadsBack scope rhs right) :
    ReadsBack scope (.binary op lhs rhs)
      (op.symbol ++ "(" ++ left ++ ", " ++ right ++ ")") := by
  obtain ⟨ts, hts, hleft⟩ := hlhs.tokens
  obtain ⟨us, hus, hright⟩ := hrhs.tokens
  have htext : ∀ more, (op.symbol ++ "(" ++ left ++ ", " ++ right ++ ")").toList ++ more =
      (Token.ident op.symbol).text.toList ++ '(' ::
        (left.toList ++ ',' :: ' ' :: (right.toList ++ ')' :: more)) := by
    intro more
    simp [Token.text]
  refine ⟨?start, _, hderives (hts.of_primary _) (hus.of_primary _), fun more _ => ?tokens⟩
  case start =>
    obtain ⟨c, cs, hsymbol, hstart, -⟩ := hname.word
    have hfirst := (List.append_nil _).symm.trans (htext [])
    rw [Token.text, hsymbol] at hfirst
    refine ⟨c, _, hfirst, ?_⟩
    rintro rfl
    exact absurd hstart (by decide)
  case tokens =>
    have hopen : ∀ cs, ∀ c ∈ ('(' :: cs).head?, (Token.ident op.symbol).Extends c = false := by
      intro cs c hc
      cases hc
      rfl
    have hident : (Token.ident op.symbol).Spellable := hname
    rw [htext, tokensOf_text hident (hopen _), tokensOf_lparen,
      hleft _ (parted_cons (by decide) _), tokensOf_comma, tokensOf_blank,
      hright _ (parted_cons (by decide) _), tokensOf_rparen]
    simp

/-- A sign or a negation before an expression, in parentheses. -/
theorem signed (op : UnaryOp) (h : ReadsBack scope e text) :
    ReadsBack scope (.unary op e) ("(" ++ op.symbol ++ text ++ ")") := by
  obtain ⟨ts, hts, htokens⟩ := h.tokens
  have hunary := hts.of_primary .unary
  obtain ⟨t, hsymbol, hspellable, hderives, hnext⟩ : ∃ t : Token, t.text = op.symbol ∧
      t.Spellable ∧ Derives scope .unary (t :: ts) (.unary op e) ∧
      ∀ c, c ≠ '=' → t.Extends c = false := by
    cases op with
    | neg => exact ⟨.minus, rfl, trivial, .neg hunary, fun _ _ => rfl⟩
    | not => exact ⟨.bang, rfl, trivial, .not hunary, fun c hc => beq_false_of_ne hc⟩
  have htext : ∀ more, ("(" ++ op.symbol ++ text ++ ")").toList ++ more =
      '(' :: (t.text.toList ++ (text.toList ++ ')' :: more)) := by
    intro more
    simp [hsymbol]
  have hparen : Derives scope .or (t :: ts) (.unary op e) :=
    .orOne (.andOne (.cmpOne (.addOne (.mulOne hderives))))
  refine ⟨⟨'(', _, (List.append_nil _).symm.trans (htext []), by decide⟩, _, .paren hparen,
    fun more _ => ?_⟩
  have hstart : ∀ cs, ∀ c ∈ (text.toList ++ cs).head?, t.Extends c = false := by
    intro cs c hc
    obtain ⟨d, ds, hd, hne⟩ := h.start
    rw [hd] at hc
    cases hc
    exact hnext _ hne
  rw [htext, tokensOf_lparen, tokensOf_text hspellable (hstart _),
    htokens _ (parted_cons (by decide) _), tokensOf_rparen]
  simp

end ReadsBack

/-! ### Reading back -/

/-- **The text of an expression over axes reads back**, wherever it stands, by induction on the
expression. -/
theorem Arithmetic.readsBack {axes : List Var} {scope : Scope} {n : Naming}
    (hnames : ∀ v ∈ axes, IsName v.hint) (hscope : ∀ v ∈ axes, scope.lookup v.hint = some v)
    (hn : ∀ v ∈ axes, n.name v = v.hint) {e : Expr} (h : Arithmetic axes e) :
    ReadsBack scope e (e.write n) := by
  induction h with
  | int hint => exact .int hint
  | @axis v hv =>
      rw [Expr.write, hn v hv]
      exact .axis (hnames v hv) (hscope v hv)
  | @binary op lhs rhs _ _ ihl ihr =>
      cases hop : sign? op with
      | some p =>
          rw [write_of_sign hop]
          exact .operator hop ihl ihr
      | none =>
          cases op with
          | min =>
              rw [Expr.write]
              exact .call ⟨⟨'m', ['i', 'n'], rfl, rfl, rfl⟩, by decide⟩ .min ihl ihr
          | max =>
              rw [Expr.write]
              exact .call ⟨⟨'m', ['a', 'x'], rfl, rfl, rfl⟩, by decide⟩ .max ihl ihr
          | _ => cases hop
  | unary op _ ih =>
      rw [Expr.write]
      exact .signed op ih

/-- An arithmetic expression has its variables among the axes. -/
theorem Arithmetic.mem_axes {axes : List Var} {e : Expr} (h : Arithmetic axes e) :
    ∀ v ∈ e.vars, v ∈ axes := by
  induction h with
  | int _ => exact List.forall_mem_nil _
  | axis hv => exact List.forall_mem_singleton.mpr hv
  | binary _ _ _ ihl ihr => exact List.forall_mem_append.mpr ⟨ihl, ihr⟩
  | unary _ _ ih => exact ih

/-- Among axes with hints of their own, each is found under its hint. -/
theorem lookup_scopeOf {axes : List Var} (hhints : (axes.map Var.hint).Nodup) {v : Var}
    (hv : v ∈ axes) : (scopeOf axes).lookup v.hint = some v := by
  induction axes with
  | nil => cases hv
  | cons w axes ih =>
      obtain ⟨hw, hhints⟩ := List.nodup_cons.mp hhints
      rcases List.mem_cons.mp hv with rfl | hv
      · exact List.lookup_cons_self
      · have hne : v.hint ≠ w.hint := fun h => hw (h ▸ List.mem_map_of_mem hv)
        rw [scopeOf, List.map_cons, List.lookup_cons, beq_false_of_ne hne]
        exact ih hhints hv

/-- A reader can stand at lexemes that spell tokens. -/
theorem enter_of_spelled {ls : List Lexeme} {ts : List Token} (h : ls.map (·.token) = ts.map some)
    (r : Reading) : enter ls r = .ok ((), { r with rest := ls }) := by
  match ls, ts with
  | [], _ => rfl
  | ⟨some _, _, _⟩ :: _, _ => rfl
  | ⟨none, _, _⟩ :: _, _ :: _ => cases (List.cons.inj h).1

/-- **Printing and then reading an expression gives it back.**  For all axes with hints of their own
that are names, but neither keywords nor names of reductions, and every expression made of literals,
these axes and operators: its text, read with the axes in scope, is read to the end as this very
expression, and nothing else about the reading changes. -/
theorem expression_text {axes : List Var} (hhints : (axes.map Var.hint).Nodup)
    (hnames : ∀ v ∈ axes, IsAxisName v.hint) {e : Expr} (he : Arithmetic axes e) (r : Reading) :
    (do enter (Lexeme.scan e.text); expression (scopeOf axes)).run r =
      .ok (e, { r with rest := [] }) := by
  have hnaming : ∀ v ∈ axes, (Naming.ofVars e.vars).name v = v.hint := by
    refine fun v _ => Naming.name_eq_hint (fun v hv w hw hhint => ?_) v
    rw [List.inj_on_of_nodup_map hhints (he.mem_axes v hv) (he.mem_axes w hw) hhint]
  have hreads : ReadsBack (scopeOf axes) e e.text :=
    he.readsBack (fun v hv => (hnames v hv).toIsName) (fun v hv => lookup_scopeOf hhints hv) hnaming
  have hscope : Nonreducing (scopeOf axes) := by
    intro a ha
    obtain ⟨v, hv, rfl⟩ := List.mem_map.mp ha
    exact (hnames v hv).nonreducing
  obtain ⟨ts, hderives, htokens⟩ := hreads.tokens
  have hls : (Lexeme.scan e.text).map (·.token) = ts.map some := by
    have htext := htokens [] (by simp [Parted])
    rw [List.append_nil, tokensOf_of_layout (afterLayout_nil false), List.append_nil] at htext
    exact (Lexeme.tokens_eq e.text).trans htext
  have htakes : TakesAll ts { r with rest := Lexeme.scan e.text } { r with rest := [] } :=
    TakesAll.of_rest (r := { r with rest := Lexeme.scan e.text }) hls (by simp)
      (List.append_nil _).symm
  have hend : ∀ k, Followed k { r with rest := [] } := fun k t ht => by cases ht
  have hexpr : ExprAt (scopeOf axes) (some .disjunction) { r with rest := Lexeme.scan e.text } e
      { r with rest := [] } :=
    ((hderives.of_primary .or).stands hscope htakes (hend _)).exprAt (hend 0) (by decide)
  exact bind_ok (enter_of_spelled hls r) (expression_eq_ok.mpr hexpr)

/-- A comparison with a call in it, negated. -/
theorem expression_text_negated :
    let i : Var := ⟨0, "i", .scalar .i32⟩
    let j : Var := ⟨1, "j_1", .scalar .i32⟩
    let e : Expr := .unary .not (.binary .le (.binary .sub (.var i) (.unary .neg (.int 2)))
      (.binary .max (.var j) (.int 0)))
    e.text = "(!((i - (-2)) <= max(j_1, 0)))" ∧ Arithmetic [i, j] e ∧
      ∀ r, (do enter (Lexeme.scan e.text); expression (scopeOf [i, j])).run r =
        .ok (e, { r with rest := [] }) := by
  intro i j e
  have he : Arithmetic [i, j] e :=
    .unary _ (.binary _ (.binary _ (.axis (by decide)) (.unary _ (.int (by decide))))
      (.binary _ (.axis (by decide)) (.int (by decide))))
  have hnames : ∀ v ∈ [i, j], IsAxisName v.hint := by
    refine List.forall_mem_cons.mpr ⟨?_, List.forall_mem_singleton.mpr ?_⟩
    · show IsAxisName "i"
      exact ⟨⟨⟨'i', [], rfl, rfl, rfl⟩, by decide⟩, rfl⟩
    · show IsAxisName "j_1"
      exact ⟨⟨⟨'j', ['_', '1'], rfl, rfl, rfl⟩, by decide⟩, rfl⟩
  exact ⟨by decide +kernel, he, expression_text (by decide) hnames he⟩

end Program

end TensorLoops
