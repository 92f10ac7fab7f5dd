import TensorLoops.Proofs.Source.Allowance

/-!
# Proofs — Source — Grammar

The grammar of expressions over axes.  `Derives scope c ts e` says that the tokens `ts` spell the
expression `e` as a phrase of category `c`; disjunctions, conjunctions, sums and products associate
to the left and comparisons do not chain.  An axis is the innermost one of its name.

Reading an expression up to a semicolon gives `e` exactly when the grammar derives it
(`expression_iff_derives`).  A phrase that stands in the text is derived, by induction over the
phrase (`ExprAt.derives`).  What is derived stands in the text when the token behind it does not go
on with it (`Derives.stands`): the grammar recurses on the left where a reader loops, so a derived
phrase is followed by what the loop makes of the rest (`Stands`).
-/

namespace TensorLoops

namespace Program

open Reader Reading

/-! ### The grammar -/

/-- The categories of phrases, the loosest first. -/
inductive Category where
  | or
  | and
  | cmp
  | add
  | mul
  | unary
  | primary

/-- The operators that compare. -/
def comparisons : List (Token × BinaryOp) :=
  [(.eqEq, .eq), (.notEq, .ne), (.lt, .lt), (.le, .le), (.gt, .gt), (.ge, .ge)]

/-- The operators between the terms of a sum. -/
def additions : List (Token × BinaryOp) := [(.plus, .add), (.minus, .sub)]

/-- The operators between the factors of a product. -/
def multiplications : List (Token × BinaryOp) := [(.star, .mul), (.slash, .div), (.percent, .mod)]

/-- The tokens spell the expression, as a phrase of the category. -/
inductive Derives (scope : Scope) : Category → List Token → Expr → Prop where
  | orOne {ts e} : Derives scope .and ts e → Derives scope .or ts e
  | orMore {ts us lhs rhs} : Derives scope .or ts lhs → Derives scope .and us rhs →
      Derives scope .or (ts ++ .orOr :: us) (.binary .or lhs rhs)
  | andOne {ts e} : Derives scope .cmp ts e → Derives scope .and ts e
  | andMore {ts us lhs rhs} : Derives scope .and ts lhs → Derives scope .cmp us rhs →
      Derives scope .and (ts ++ .andAnd :: us) (.binary .and lhs rhs)
  | cmpOne {ts e} : Derives scope .add ts e → Derives scope .cmp ts e
  | compare {ts t op us lhs rhs} : (t, op) ∈ comparisons → Derives scope .add ts lhs →
      Derives scope .add us rhs → Derives scope .cmp (ts ++ t :: us) (.binary op lhs rhs)
  | addOne {ts e} : Derives scope .mul ts e → Derives scope .add ts e
  | addMore {ts t op us lhs rhs} : (t, op) ∈ additions → Derives scope .add ts lhs →
      Derives scope .mul us rhs → Derives scope .add (ts ++ t :: us) (.binary op lhs rhs)
  | mulOne {ts e} : Derives scope .unary ts e → Derives scope .mul ts e
  | mulMore {ts t op us lhs rhs} : (t, op) ∈ multiplications → Derives scope .mul ts lhs →
      Derives scope .unary us rhs → Derives scope .mul (ts ++ t :: us) (.binary op lhs rhs)
  | neg {ts e} : Derives scope .unary ts e → Derives scope .unary (.minus :: ts) (.unary .neg e)
  | not {ts e} : Derives scope .unary ts e → Derives scope .unary (.bang :: ts) (.unary .not e)
  | unaryOne {ts e} : Derives scope .primary ts e → Derives scope .unary ts e
  | int {n} : Derives scope .primary [.int n] (.int n)
  | real {x} : Derives scope .primary [.real x] (.real x)
  | axis {name v} : scope.lookup name = some v → Derives scope .primary [.ident name] (.var v)
  | paren {ts e} : Derives scope .or ts e → Derives scope .primary (.lparen :: ts ++ [.rparen]) e
  | min {ts us lhs rhs} : Derives scope .or ts lhs → Derives scope .or us rhs →
      Derives scope .primary (.ident "min" :: .lparen :: ts ++ .comma :: us ++ [.rparen])
        (.binary .min lhs rhs)
  | max {ts us lhs rhs} : Derives scope .or ts lhs → Derives scope .or us rhs →
      Derives scope .primary (.ident "max" :: .lparen :: ts ++ .comma :: us ++ [.rparen])
        (.binary .max lhs rhs)
  | cast {name s ts e} : Scalar.ofName? name = some s → Derives scope .or ts e →
      Derives scope .primary (.ident name :: .lparen :: ts ++ [.rparen]) (.cast e (.scalar s))

/-- The tokens of expressions over axes: literals, the names of the axes, operators, parentheses,
commas, `min`, `max` and the names of data types. -/
def Vocabulary (scope : Scope) : Token → Prop
  | .int _ | .real _ | .lparen | .rparen | .comma => True
  | .orOr | .andAnd | .eqEq | .notEq | .lt | .le | .gt | .ge => True
  | .plus | .minus | .star | .slash | .percent | .bang => True
  | .ident name =>
      name ∈ scope.map Prod.fst ∨ name = "min" ∨ name = "max" ∨ (Scalar.ofName? name).isSome
  | _ => False

/-! ### Tokens taken one after another -/

/-- The tokens `ts` stand at the front of `r`, and `r'` behind them. -/
inductive TakesAll : List Token → Reading → Reading → Prop where
  | nil {r} : TakesAll [] r r
  | cons {t ts r r₁ r'} : Takes t r r₁ → TakesAll ts r₁ r' → TakesAll (t :: ts) r r'

namespace TakesAll

variable {t : Token} {ts us : List Token} {r r₁ r' : Reading}

theorem append (h : TakesAll ts r r₁) (h' : TakesAll us r₁ r') : TakesAll (ts ++ us) r r' := by
  induction h with
  | nil => exact h'
  | cons ht _ ih => exact .cons ht (ih h')

theorem one (h : Takes t r r') : TakesAll [t] r r' := .cons h .nil

/-- Tokens that are taken are taken in parts. -/
theorem of_append (h : TakesAll (ts ++ us) r r') : ∃ r₁, TakesAll ts r r₁ ∧ TakesAll us r₁ r' := by
  induction ts generalizing r with
  | nil => exact ⟨r, .nil, h⟩
  | cons t ts ih =>
      cases h with
      | cons ht h =>
          obtain ⟨r₁, h₁, h₂⟩ := ih h
          exact ⟨r₁, .cons ht h₁, h₂⟩

theorem of_cons (h : TakesAll (t :: ts) r r') : ∃ r₁, Takes t r r₁ ∧ TakesAll ts r₁ r' := by
  cases h with
  | cons ht hts => exact ⟨_, ht, hts⟩

theorem of_one (h : TakesAll [t] r r') : Takes t r r' := by
  cases h with
  | cons ht h =>
      cases h
      exact ht

/-- What stands in front of a token is taken first, then the token, then what is behind it. -/
theorem of_middle (h : TakesAll (ts ++ t :: us) r r') :
    ∃ r₁ r₂, TakesAll ts r r₁ ∧ Takes t r₁ r₂ ∧ TakesAll us r₂ r' := by
  obtain ⟨r₁, hts, h⟩ := h.of_append
  cases h with
  | cons ht hus => exact ⟨r₁, _, hts, ht, hus⟩

/-- Taking tokens changes nothing but the text left. -/
theorem same (h : TakesAll ts r r') : r' = { r with rest := r'.rest } := by
  induction h with
  | nil => rfl
  | cons ht _ ih => rw [ih, ht.same]

/-- What is taken stands in the rest of the text. -/
theorem rest_eq (h : TakesAll ts r r') :
    ∃ ls : List Lexeme, ls.map (·.token) = ts.map some ∧ r.rest = ls ++ r'.rest := by
  induction h with
  | nil => exact ⟨[], rfl, rfl⟩
  | cons ht _ ih =>
      obtain ⟨l, hl, hrest⟩ := ht.token
      obtain ⟨ls, hls, hrest'⟩ := ih
      exact ⟨l :: ls, by simp [hl, hls], by rw [hrest, hrest', List.cons_append]⟩

/-- Lexemes that spell tokens can be taken when a token or the end comes behind them. -/
theorem of_rest {ls rest : List Lexeme} (hls : ls.map (·.token) = ts.map some)
    (hnext : ∀ l ∈ rest.head?, l.token ≠ none) (hrest : r.rest = ls ++ rest) :
    TakesAll ts r { r with rest } := by
  induction ls generalizing r ts with
  | nil =>
      obtain rfl : ts = [] := by simpa using hls
      obtain rfl : rest = r.rest := hrest.symm
      exact .nil
  | cons l ls ih =>
      cases ts with
      | nil => simp at hls
      | cons t ts =>
          obtain ⟨hl, hls⟩ : l.token = some t ∧ ls.map (·.token) = ts.map some := by simpa using hls
          have hspelled : ∀ l' ∈ ls, l'.token ≠ none := by
            intro l' hl'
            obtain ⟨t', -, ht'⟩ := List.mem_map.mp (hls ▸ List.mem_map_of_mem hl')
            simp [← ht']
          have htakes : Takes t r { r with rest := ls ++ rest } := by
            refine ⟨⟨l, hl, hrest⟩, ?_, rfl⟩
            cases ls with
            | nil => exact hnext
            | cons l' ls => simpa using hspelled l' List.mem_cons_self
          exact .cons htakes (ih hls rfl)

end TakesAll

/-! ### Levels and categories -/

/-- The operators of a level. -/
def operators : Level → List (Token × BinaryOp)
  | .disjunction => [(.orOr, .or)]
  | .conjunction => [(.andAnd, .and)]
  | .comparison  => comparisons
  | .sum         => additions
  | .product     => multiplications

/-- The operators of a level are those listed for it. -/
theorem operator?_eq_some {l : Level} {t : Token} {op : BinaryOp} :
    l.operator? t = some op ↔ (t, op) ∈ operators l := by
  constructor
  · intro h
    unfold Level.operator? at h
    split at h <;> cases h <;>
      simp [operators, comparisons, additions, multiplications]
  · have hall : ∀ p ∈ operators l, l.operator? p.1 = some p.2 := by cases l <;> decide
    exact hall (t, op)

/-- The category of the expressions of a level. -/
def Category.ofLevel : Option Level → Category
  | none              => .unary
  | some .disjunction => .or
  | some .conjunction => .and
  | some .comparison  => .cmp
  | some .sum         => .add
  | some .product     => .mul

/-- The category of what a level goes on with: a comparison has one operand before its operator. -/
def Category.begun : Level → Category
  | .comparison => .add
  | l           => .ofLevel (some l)

namespace Derives

variable {scope : Scope} {l : Level} {t : Token} {op : BinaryOp} {ts us : List Token}
  {e lhs rhs : Expr}

/-- A phrase of the tighter level begins a chain. -/
theorem begun (h : Derives scope (.ofLevel l.tighter) ts e) : Derives scope (.begun l) ts e := by
  cases l with
  | disjunction => exact orOne h
  | conjunction => exact andOne h
  | comparison => exact h
  | sum => exact addOne h
  | product => exact mulOne h

theorem finished (h : Derives scope (.begun l) ts e) : Derives scope (.ofLevel (some l)) ts e := by
  cases l with
  | comparison => exact cmpOne h
  | _ => exact h

/-- A chain of a level that repeats goes on with another operand. -/
theorem more (hop : l.operator? t = some op) (hrep : l.repeats = true)
    (hlhs : Derives scope (.begun l) ts lhs) (hrhs : Derives scope (.ofLevel l.tighter) us rhs) :
    Derives scope (.begun l) (ts ++ t :: us) (.binary op lhs rhs) := by
  have hmem := operator?_eq_some.mp hop
  cases l with
  | disjunction =>
      obtain ⟨rfl, rfl⟩ := Prod.mk.inj (List.mem_singleton.mp hmem)
      exact orMore hlhs hrhs
  | conjunction =>
      obtain ⟨rfl, rfl⟩ := Prod.mk.inj (List.mem_singleton.mp hmem)
      exact andMore hlhs hrhs
  | comparison => nomatch hrep
  | sum => exact addMore hmem hlhs hrhs
  | product => exact mulMore hmem hlhs hrhs

/-- One that does not repeat ends with its second operand. -/
theorem once (hop : l.operator? t = some op) (hrep : l.repeats = false)
    (hlhs : Derives scope (.begun l) ts lhs) (hrhs : Derives scope (.ofLevel l.tighter) us rhs) :
    Derives scope (.ofLevel (some l)) (ts ++ t :: us) (.binary op lhs rhs) := by
  cases l with
  | comparison => exact compare (operator?_eq_some.mp hop) hlhs hrhs
  | _ => nomatch hrep

end Derives

/-! ### What is read is derived -/

/-- Up to a semicolon only tokens of expressions over axes stand in the text. -/
def Clear (scope : Scope) : List Lexeme → Prop
  | []      => False
  | l :: ls =>
      l.token = some .semicolon ∨ (∃ t, l.token = some t ∧ Vocabulary scope t) ∧ Clear scope ls

/-- The reading stands in such a text, and nothing is declared. -/
structure Plain (scope : Scope) (r : Reading) : Prop where
  symbols : r.symbols = []
  clear   : Clear scope r.rest

/-- No name of the scope reduces. -/
def Nonreducing (scope : Scope) : Prop := ∀ a ∈ scope, Reduction.ofName? a.1 = none

section Plain

variable {scope : Scope} {t : Token} {r r' : Reading}

/-- A token before the semicolon is of the vocabulary, and what comes after it is plain. -/
theorem Plain.takes (h : Plain scope r) (ht : Takes t r r') (hne : t ≠ .semicolon) :
    Vocabulary scope t ∧ Plain scope r' := by
  obtain ⟨l, hl, hrest⟩ := ht.token
  have hclear := h.clear
  rw [hrest, Clear, hl] at hclear
  rcases hclear with hsemi | ⟨⟨t', ht', hvoc⟩, hclear⟩
  · exact absurd (Option.some.inj hsemi) hne
  · obtain rfl := Option.some.inj ht'
    exact ⟨hvoc, ht.symbols_eq.trans h.symbols, hclear⟩

/-- The names of data types do not reduce. -/
theorem ofName?_eq_none_of_scalar {name : String} {s : Scalar} (h : Scalar.ofName? name = some s) :
    Reduction.ofName? name = none := by
  have hname : name = s.name ∨ name = s.longName := by simpa using List.find?_some h
  rcases hname with rfl | rfl <;> cases s <;> rfl

/-- There is no reduction: only `min` and `max` could begin one, and they have no index type. -/
theorem Plain.not_reduction (h : Plain scope r)
    (hscope : Nonreducing scope) {name : Option String} {id : Nat}
    (hstart : r.startsReduction = true) : ¬ ReductionAt scope name r id r' := by
  intro hred
  cases hred with
  | @intro _ _ _ word r₁ op index r₂ _ _ _ _ _ _ ht hop hindex _ _ _ =>
      obtain ⟨hvoc, hplain⟩ := h.takes ht nofun
      have harg : op.isArg = false := by
        rcases hvoc with hmem | rfl | rfl | hscalar
        · obtain ⟨a, ha, rfl⟩ := List.mem_map.mp hmem
          exact nomatch (hscope a ha).symm.trans hop
        · cases hop
          rfl
        · cases hop
          rfl
        · obtain ⟨s, hs⟩ := Option.isSome_iff_exists.mp hscalar
          exact nomatch (ofName?_eq_none_of_scalar hs).symm.trans hop
      simp only [startsReduction, ht.token?_eq, hop, ht.following?_eq, Option.isSome_some,
        Bool.true_and, Bool.or_eq_true, beq_iff_eq] at hstart
      rcases hstart with hnext | hnext
      · -- a bracket is no token of the text
        obtain ⟨l, hl, hlt⟩ := Option.bind_eq_some_iff.mp hnext
        obtain ⟨ls, hrest⟩ := List.head?_eq_some_iff.mp hl
        have hclear := hplain.clear
        rw [hrest, Clear, hlt] at hclear
        rcases hclear with hsemi | ⟨⟨t, ht, hvoc⟩, -⟩
        · cases hsemi
        · cases ht
          exact hvoc
      · rw [indexType, atToken_bind, hnext, harg] at hindex
        cases hindex

end Plain

/-- Expressions derived one by one, with commas between them. -/
inductive DerivesList (scope : Scope) : List Token → List Expr → Prop where
  | last {ts e} : Derives scope .or ts e → DerivesList scope ts [e]
  | cons {ts us e es} : Derives scope .or ts e → DerivesList scope us es →
      DerivesList scope (ts ++ .comma :: us) (e :: es)

/-- A list of one expression is that expression. -/
theorem DerivesList.single {scope : Scope} {ts : List Token} {e : Expr}
    (h : DerivesList scope ts [e]) : Derives scope .or ts e := by
  cases h with
  | last h => exact h
  | cons _ h => nomatch h

theorem DerivesList.pair {scope : Scope} {ts : List Token} {lhs rhs : Expr}
    (h : DerivesList scope ts [lhs, rhs]) : ∃ us vs, ts = us ++ .comma :: vs ∧
      Derives scope .or us lhs ∧ Derives scope .or vs rhs := by
  cases h with
  | cons hlhs h => exact ⟨_, _, rfl, hlhs, h.single⟩

/-- A call is derived from its arguments. -/
theorem Derives.call {scope : Scope} {name : String} {ts : List Token} {args : List Expr} {e : Expr}
    (hargs : DerivesList scope ts args) (h : Calls name args e) :
    Derives scope .primary (.ident name :: .lparen :: ts ++ [.rparen]) e := by
  cases h with
  | max =>
      obtain ⟨us, vs, rfl, hlhs, hrhs⟩ := hargs.pair
      exact .max hlhs hrhs
  | min =>
      obtain ⟨us, vs, rfl, hlhs, hrhs⟩ := hargs.pair
      exact .min hlhs hrhs
  | cast hs => exact .cast hs hargs.single

/-- A name is an axis, for nothing is declared. -/
theorem NamedAt.eq_axis {scope : Scope} {name : String} {r r' : Reading} {e : Expr}
    (h : NamedAt scope name r e r') (hr : Plain scope r) :
    r' = r ∧ ∃ v, scope.lookup name = some v ∧ e = .var v := by
  cases h with
  | axis hv => exact ⟨rfl, _, hv, rfl⟩
  | scalar _ hid =>
      rw [hr.symbols] at hid
      nomatch hid
  | element _ hid =>
      rw [hr.symbols] at hid
      nomatch hid

theorem not_semicolon_of_operator? {l : Level} {t : Token} {op : BinaryOp}
    (h : l.operator? t = some op) : t ≠ .semicolon := by
  rintro rfl
  cases l with
  | _ => exact nomatch h

mutual

/-- The tokens of an expression derive it. -/
theorem ExprAt.derives : ∀ {scope k r e r'}, ExprAt scope k r e r' → Nonreducing scope →
    Plain scope r → ∃ ts, TakesAll ts r r' ∧ Derives scope (.ofLevel k) ts e ∧ Plain scope r'
  | _, _, _, _, _, .level hlhs hchain, hs, hr => by
      obtain ⟨ts, hts, hlhs, hr₁⟩ := hlhs.derives hs hr
      obtain ⟨us, hus, he, hr'⟩ := hchain.derives hs hr₁ hlhs.begun
      exact ⟨ts ++ us, hts.append hus, he, hr'⟩
  | _, _, _, _, _, .neg ht he, hs, hr => by
      obtain ⟨ts, hts, he, hr'⟩ := he.derives hs (hr.takes ht nofun).2
      exact ⟨_, .cons ht hts, .neg he, hr'⟩
  | _, _, _, _, _, .not ht he, hs, hr => by
      obtain ⟨ts, hts, he, hr'⟩ := he.derives hs (hr.takes ht nofun).2
      exact ⟨_, .cons ht hts, .not he, hr'⟩
  | _, _, _, _, _, .int ht, _, hr => ⟨_, .one ht, .unaryOne .int, (hr.takes ht nofun).2⟩
  | _, _, _, _, _, .real ht, _, hr => ⟨_, .one ht, .unaryOne .real, (hr.takes ht nofun).2⟩
  | _, _, _, _, _, .paren ht he ht', hs, hr => by
      obtain ⟨ts, hts, he, hr₂⟩ := he.derives hs (hr.takes ht nofun).2
      exact ⟨_, .cons ht (hts.append (.one ht')), .unaryOne (.paren he), (hr₂.takes ht' nofun).2⟩
  | _, _, _, _, _, .reduction hstart hred, hs, hr => absurd hred (hr.not_reduction hs hstart)
  | _, _, _, _, _, .call _ ht ht' hargs ht'' hcall, hs, hr => by
      have hr₂ := ((hr.takes ht nofun).2.takes ht' nofun).2
      obtain ⟨ts, hts, hargs, hr₃⟩ := hargs.derives hs hr₂
      exact ⟨_, .cons ht (.cons ht' (hts.append (.one ht''))), .unaryOne (.call hargs hcall),
        (hr₃.takes ht'' nofun).2⟩
  | _, _, _, _, _, .named _ ht _ hname, _, hr => by
      have hr₁ := (hr.takes ht nofun).2
      obtain ⟨rfl, v, hv, rfl⟩ := hname.eq_axis hr₁
      exact ⟨_, .one ht, .unaryOne (.axis hv), hr₁⟩

/-- Behind the first operand the tokens derive the rest of the level. -/
theorem ChainAt.derives : ∀ {scope l lhs r e r'}, ChainAt scope l lhs r e r' → Nonreducing scope →
    Plain scope r → ∀ {ts}, Derives scope (.begun l) ts lhs →
    ∃ us, TakesAll us r r' ∧ Derives scope (.ofLevel (some l)) (ts ++ us) e ∧ Plain scope r'
  | _, _, _, _, _, _, .done _, _, hr, _, hlhs => ⟨[], .nil, by simpa using hlhs.finished, hr⟩
  | _, _, _, _, _, _, .more hop hrep ht hrhs hchain, hs, hr, _, hlhs => by
      obtain ⟨us, hus, hrhs, hr₂⟩ :=
        hrhs.derives hs (hr.takes ht (not_semicolon_of_operator? hop)).2
      obtain ⟨vs, hvs, he, hr'⟩ := hchain.derives hs hr₂ (hlhs.more hop hrep hrhs)
      exact ⟨_, .cons ht (hus.append hvs), by simpa using he, hr'⟩
  | _, _, _, _, _, _, .once hop hrep ht hrhs, hs, hr, _, hlhs => by
      obtain ⟨us, hus, hrhs, hr'⟩ :=
        hrhs.derives hs (hr.takes ht (not_semicolon_of_operator? hop)).2
      exact ⟨_, .cons ht hus, hlhs.once hop hrep hrhs, hr'⟩

theorem ListAt.derives : ∀ {scope r es r'}, ListAt scope r es r' → Nonreducing scope →
    Plain scope r → ∃ ts, TakesAll ts r r' ∧ DerivesList scope ts es ∧ Plain scope r'
  | _, _, _, _, .last he _, hs, hr => by
      obtain ⟨ts, hts, he, hr'⟩ := he.derives hs hr
      exact ⟨ts, hts, .last he, hr'⟩
  | _, _, _, _, .cons he ht hes, hs, hr => by
      obtain ⟨ts, hts, he, hr₁⟩ := he.derives hs hr
      obtain ⟨us, hus, hes, hr'⟩ := hes.derives hs (hr₁.takes ht nofun).2
      exact ⟨_, hts.append (.cons ht hus), .cons he hes, hr'⟩

end

/-! ### What is derived is read -/

/-- How tightly a token draws what stands before it to itself. -/
def tightness : Token → Nat
  | .orOr => 1
  | .andAnd => 2
  | .eqEq | .notEq | .lt | .le | .gt | .ge => 3
  | .plus | .minus => 4
  | .star | .slash | .percent => 5
  | .lparen => 6
  | _ => 0

/-- The tightness of the operators of a level. -/
def rank : Level → Nat
  | .disjunction => 1
  | .conjunction => 2
  | .comparison  => 3
  | .sum         => 4
  | .product     => 5

/-- The operators of a level bind as tightly as it does. -/
theorem tightness_of_operator? {l : Level} {t : Token} {op : BinaryOp}
    (h : l.operator? t = some op) : tightness t = rank l := by
  have hall : ∀ p ∈ operators l, tightness p.1 = rank l := by cases l <;> decide
  exact hall (t, op) (operator?_eq_some.mp h)

/-- What follows is no tighter than `n`. -/
def Followed (n : Nat) (r : Reading) : Prop := ∀ t, r.token? = some t → tightness t ≤ n

/-- What is followed by something loose is followed by something looser. -/
theorem Followed.mono {m n : Nat} {r : Reading} (h : Followed m r) (hmn : m ≤ n) : Followed n r :=
  fun t ht => Nat.le_trans (h t ht) hmn

theorem followed_of_takes {t : Token} {n : Nat} {r r' : Reading} (h : Takes t r r')
    (hn : tightness t ≤ n) : Followed n r := by
  intro t' ht'
  obtain rfl := Option.some.inj (h.token?_eq.symm.trans ht')
  exact hn

theorem followed_of_operator (l : Level) {t : Token} {op : BinaryOp} {r r' : Reading}
    (hop : (t, op) ∈ operators l) (h : Takes t r r') : Followed (rank l) r :=
  followed_of_takes h (tightness_of_operator? (operator?_eq_some.mpr hop) ▸ Nat.le_refl _)

/-- The level ends before a looser token. -/
theorem Followed.chainAt {scope : Scope} {l : Level} {e : Expr} {n : Nat} {r : Reading}
    (hr : Followed n r) (hn : n < rank l) : ChainAt scope l e r e r := by
  refine .done (Option.eq_none_iff_forall_ne_some.mpr fun op hop => ?_)
  obtain ⟨t, ht, hop⟩ := Option.bind_eq_some_iff.mp hop
  have hle := hr t ht
  rw [tightness_of_operator? hop] at hle
  exact Nat.not_lt.mpr hle hn

/-- The expression stands at the front of `r`, up to what the loop of the level makes of `r₁`. -/
structure StandsBefore (scope : Scope) (l : Level) (r : Reading) (e : Expr) (r₁ : Reading) :
    Prop where
  goesOn : ∀ {e' r'}, ChainAt scope l e r₁ e' r' → ExprAt scope (some l) r e' r'

namespace StandsBefore

variable {scope : Scope} {l : Level} {t : Token} {op : BinaryOp} {r r₁ r₂ r' : Reading}
  {e lhs rhs : Expr}

theorem one (h : ExprAt scope l.tighter r e r₁) : StandsBefore scope l r e r₁ := ⟨.level h⟩

theorem more (hop : (t, op) ∈ operators l) (hrep : l.repeats = true)
    (hlhs : StandsBefore scope l r lhs r₁) (ht : Takes t r₁ r₂)
    (hrhs : ExprAt scope l.tighter r₂ rhs r') : StandsBefore scope l r (.binary op lhs rhs) r' :=
  ⟨fun hchain => hlhs.goesOn (.more (operator?_eq_some.mpr hop) hrep ht hrhs hchain)⟩

/-- What stands before something looser is an expression of its level. -/
theorem exprAt {n : Nat} (h : StandsBefore scope l r e r₁) (hr : Followed n r₁) (hn : n < rank l) :
    ExprAt scope (some l) r e r₁ := h.goesOn (hr.chainAt hn)

end StandsBefore

/-- The tightest token that may follow a phrase: the loops of the category itself go on. -/
def Category.last : Category → Nat
  | .or  => 1
  | .and => 2
  | .cmp => 2
  | .add => 4
  | _    => 5

/-- The phrase stands at the front of `r` and ends at `r₁`, or goes on there in the loop. -/
def Stands (scope : Scope) (r : Reading) (e : Expr) (r₁ : Reading) : Category → Prop
  | .or  => StandsBefore scope .disjunction r e r₁
  | .and => StandsBefore scope .conjunction r e r₁
  | .cmp => ExprAt scope (some .comparison) r e r₁
  | .add => StandsBefore scope .sum r e r₁
  | .mul => StandsBefore scope .product r e r₁
  | .unary | .primary => ExprAt scope none r e r₁

/-- A call: what is called is no reduction, for a parenthesis follows it. -/
theorem exprAt_call {scope : Scope} {name : String} {args : List Expr} {e : Expr}
    {r r₁ r₂ r₃ r' : Reading} (hcall : Calls name args e) (ht : Takes (.ident name) r r₁)
    (hopen : Takes .lparen r₁ r₂) (hargs : ListAt scope r₂ args r₃) (hclose : Takes .rparen r₃ r') :
    ExprAt scope none r e r' := by
  refine .call ?_ ht hopen hargs hclose hcall
  simp [startsReduction, ht.token?_eq, ht.following?_eq, hopen.token?_eq]

/-- A disjunction that stands before a comma or a closing parenthesis. -/
theorem ExprAt.enclosed {scope : Scope} {t : Token} {ts : List Token} {e : Expr}
    {r r₁ r' : Reading}
    (h : ∀ {r r₁}, TakesAll ts r r₁ → Followed 1 r₁ → StandsBefore scope .disjunction r e r₁)
    (hts : TakesAll ts r r₁) (ht : Takes t r₁ r') (h0 : tightness t = 0) :
    ExprAt scope (some .disjunction) r e r₁ :=
  have hr₁ : Followed 0 r₁ := followed_of_takes ht (h0 ▸ Nat.le_refl 0)
  (h hts (hr₁.mono (by decide))).exprAt hr₁ (by decide)

/-- Two arguments of a call, read up to its closing parenthesis. -/
theorem listAt_pair {scope : Scope} {ts us : List Token} {lhs rhs : Expr} {r r₁ r₂ r₃ r' : Reading}
    (hl : ∀ {r r₁}, TakesAll ts r r₁ → Followed 1 r₁ → StandsBefore scope .disjunction r lhs r₁)
    (hr : ∀ {r r₁}, TakesAll us r r₁ → Followed 1 r₁ → StandsBefore scope .disjunction r rhs r₁)
    (hts : TakesAll ts r r₁) (hcomma : Takes .comma r₁ r₂) (hus : TakesAll us r₂ r₃)
    (hclose : Takes .rparen r₃ r') : ListAt scope r [lhs, rhs] r₃ := by
  have hlast : r₃.token? ≠ some .comma := by simp [hclose.token?_eq]
  exact .cons (.enclosed hl hts hcomma rfl) hcomma (.last (.enclosed hr hus hclose rfl) hlast)

/-- What is derived stands in the text, by the rules of the grammar. -/
theorem Derives.stands {scope : Scope} (hs : Nonreducing scope) {c : Category} {ts : List Token}
    {e : Expr} (h : Derives scope c ts e) :
    ∀ {r r₁}, TakesAll ts r r₁ → Followed c.last r₁ → Stands scope r e r₁ c := by
  induction h with
  | orOne _ ih =>
      intro r r₁ hts hr
      exact .one ((ih hts (hr.mono (by decide))).exprAt hr (by decide))
  | orMore _ _ ihl ihr =>
      intro r r₁ hts hr
      obtain ⟨r₂, r₃, hts, ht, hus⟩ := hts.of_middle
      exact .more (by decide) rfl (ihl hts (followed_of_takes ht (by decide))) ht
        ((ihr hus (hr.mono (by decide))).exprAt hr (by decide))
  | andOne _ ih =>
      intro r r₁ hts hr
      exact .one (ih hts hr)
  | andMore _ _ ihl ihr =>
      intro r r₁ hts hr
      obtain ⟨r₂, r₃, hts, ht, hus⟩ := hts.of_middle
      exact .more (by decide) rfl (ihl hts (followed_of_takes ht (by decide))) ht (ihr hus hr)
  | cmpOne _ ih =>
      intro r r₁ hts hr
      exact .level ((ih hts (hr.mono (by decide))).exprAt hr (by decide)) (hr.chainAt (by decide))
  | compare hop _ _ ihl ihr =>
      intro r r₁ hts hr
      obtain ⟨r₂, r₃, hts, ht, hus⟩ := hts.of_middle
      have hr₂ : Followed 3 r₂ := followed_of_operator .comparison hop ht
      exact .level ((ihl hts (hr₂.mono (by decide))).exprAt hr₂ (by decide))
        (.once (operator?_eq_some.mpr hop) rfl ht
          ((ihr hus (hr.mono (by decide))).exprAt hr (by decide)))
  | addOne _ ih =>
      intro r r₁ hts hr
      exact .one ((ih hts (hr.mono (by decide))).exprAt hr (by decide))
  | addMore hop _ _ ihl ihr =>
      intro r r₁ hts hr
      obtain ⟨r₂, r₃, hts, ht, hus⟩ := hts.of_middle
      exact .more hop rfl (ihl hts (followed_of_operator .sum hop ht)) ht
        ((ihr hus (hr.mono (by decide))).exprAt hr (by decide))
  | mulOne _ ih =>
      intro r r₁ hts hr
      exact .one (ih hts hr)
  | mulMore hop _ _ ihl ihr =>
      intro r r₁ hts hr
      obtain ⟨r₂, r₃, hts, ht, hus⟩ := hts.of_middle
      exact .more hop rfl (ihl hts (followed_of_operator .product hop ht)) ht (ihr hus hr)
  | neg _ ih =>
      rintro r r₁ (_ | ⟨ht, hts⟩) hr
      exact .neg ht (ih hts hr)
  | not _ ih =>
      rintro r r₁ (_ | ⟨ht, hts⟩) hr
      exact .not ht (ih hts hr)
  | unaryOne _ ih => exact ih
  | int =>
      intro r r₁ hts _
      exact .int hts.of_one
  | real =>
      intro r r₁ hts _
      exact .real hts.of_one
  | @axis name v hv =>
      intro r r₁ hts hr
      have ht := hts.of_one
      have hname : Reduction.ofName? name = none := hs _ (mem_of_lookup hv)
      have hnext : r₁.token? ≠ some .lparen := fun h => absurd (hr _ h) (by decide)
      refine .named ?_ ht hnext (.axis hv)
      simp [startsReduction, ht.token?_eq, hname]
  | paren _ ih =>
      rintro r r₁ (_ | ⟨hopen, hts⟩) _
      obtain ⟨r₂, _, hts, hclose, ⟨⟩⟩ := hts.of_middle
      exact .paren hopen (.enclosed ih hts hclose rfl) hclose
  | min _ _ ihl ihr =>
      intro r r₁ hts _
      obtain ⟨r₅, _, hts, hclose, ⟨⟩⟩ := hts.of_middle
      obtain ⟨r₃, r₄, _ | ⟨ht, _ | ⟨hopen, hts⟩⟩, hcomma, hus⟩ := hts.of_middle
      exact exprAt_call .min ht hopen (listAt_pair ihl ihr hts hcomma hus hclose) hclose
  | max _ _ ihl ihr =>
      intro r r₁ hts _
      obtain ⟨r₅, _, hts, hclose, ⟨⟩⟩ := hts.of_middle
      obtain ⟨r₃, r₄, _ | ⟨ht, _ | ⟨hopen, hts⟩⟩, hcomma, hus⟩ := hts.of_middle
      exact exprAt_call .max ht hopen (listAt_pair ihl ihr hts hcomma hus hclose) hclose
  | cast hname _ ih =>
      intro r r₁ hts _
      obtain ⟨r₃, _, _ | ⟨ht, _ | ⟨hopen, hts⟩⟩, hclose, ⟨⟩⟩ := hts.of_middle
      have hlast : r₃.token? ≠ some .comma := by simp [hclose.token?_eq]
      exact exprAt_call (.cast hname) ht hopen (.last (.enclosed ih hts hclose rfl) hlast) hclose

/-! ### Reading up to a semicolon -/

section Vocabulary

variable {scope : Scope} {t : Token} {ts us : List Token}

/-- Operators are of the vocabulary. -/
theorem vocabulary_of_operator (l : Level) {op : BinaryOp} (hop : (t, op) ∈ operators l) :
    Vocabulary scope t := by
  have h := operator?_eq_some.mpr hop
  unfold Level.operator? at h
  split at h
  case h_14 => cases h
  all_goals trivial

theorem vocabulary_middle (hts : ∀ t ∈ ts, Vocabulary scope t) (ht : Vocabulary scope t)
    (hus : ∀ t ∈ us, Vocabulary scope t) : ∀ t' ∈ ts ++ t :: us, Vocabulary scope t' :=
  List.forall_mem_append.mpr ⟨hts, List.forall_mem_cons.mpr ⟨ht, hus⟩⟩

theorem vocabulary_call {name : String} (hname : Vocabulary scope (.ident name))
    (hts : ∀ t ∈ ts, Vocabulary scope t) :
    ∀ t ∈ .ident name :: .lparen :: ts ++ [.rparen], Vocabulary scope t :=
  vocabulary_middle (List.forall_mem_cons.mpr ⟨hname, List.forall_mem_cons.mpr ⟨trivial, hts⟩⟩)
    trivial (List.forall_mem_nil _)

/-- The grammar derives tokens of the vocabulary only. -/
theorem Derives.vocabulary {c : Category} {e : Expr} (h : Derives scope c ts e) :
    ∀ t ∈ ts, Vocabulary scope t := by
  induction h with
  | orOne _ ih | andOne _ ih | cmpOne _ ih | addOne _ ih | mulOne _ ih | unaryOne _ ih => exact ih
  | orMore _ _ ihl ihr | andMore _ _ ihl ihr => exact vocabulary_middle ihl trivial ihr
  | compare hop _ _ ihl ihr =>
      exact vocabulary_middle ihl (vocabulary_of_operator .comparison hop) ihr
  | addMore hop _ _ ihl ihr => exact vocabulary_middle ihl (vocabulary_of_operator .sum hop) ihr
  | mulMore hop _ _ ihl ihr => exact vocabulary_middle ihl (vocabulary_of_operator .product hop) ihr
  | neg _ ih | not _ ih => exact List.forall_mem_cons.mpr ⟨trivial, ih⟩
  | int | real => exact List.forall_mem_singleton.mpr trivial
  | axis hv => exact List.forall_mem_singleton.mpr (.inl (List.mem_map_of_mem (mem_of_lookup hv)))
  | paren _ ih =>
      exact vocabulary_middle (List.forall_mem_cons.mpr ⟨trivial, ih⟩) trivial
        (List.forall_mem_nil _)
  | min _ _ ihl ihr => exact vocabulary_call (.inr (.inl rfl)) (vocabulary_middle ihl trivial ihr)
  | max _ _ ihl ihr =>
      exact vocabulary_call (.inr (.inr (.inl rfl))) (vocabulary_middle ihl trivial ihr)
  | cast hname _ ih =>
      exact vocabulary_call (.inr (.inr (.inr (Option.isSome_of_eq_some hname)))) ih

end Vocabulary

/-- Tokens in front of a semicolon are found by looking for it. -/
theorem takeWhile_spelled (rest : List Lexeme) {ts : List Token} {ls : List Lexeme} {semi : Lexeme}
    (hls : ls.map (·.token) = ts.map some) (hts : .semicolon ∉ ts)
    (hsemi : semi.token = some .semicolon) :
    ((ls ++ semi :: rest).map (·.token)).takeWhile (· ≠ some .semicolon) = ts.map some := by
  have hpos : ∀ t ∈ ts.map some, decide (t ≠ some .semicolon) = true := by
    intro t ht
    obtain ⟨t, hmem, rfl⟩ := List.mem_map.mp ht
    have hne : t ≠ .semicolon := fun h => hts (h ▸ hmem)
    simpa using hne
  rw [List.map_append, hls, List.takeWhile_append_of_pos hpos]
  simp [hsemi]

/-- Lexemes that spell a vocabulary are clear up to the semicolon. -/
theorem clear_of_spelled {scope : Scope} {ts : List Token} {ls rest : List Lexeme} {semi : Lexeme}
    (hls : ls.map (·.token) = ts.map some) (hts : ∀ t ∈ ts, Vocabulary scope t)
    (hsemi : semi.token = some .semicolon) : Clear scope (ls ++ semi :: rest) := by
  induction ls generalizing ts with
  | nil => exact .inl hsemi
  | cons l ls ih =>
      cases ts with
      | nil => simp at hls
      | cons t ts =>
          obtain ⟨hl, hls⟩ : l.token = some t ∧ ls.map (·.token) = ts.map some := by simpa using hls
          exact .inr ⟨⟨t, hl, hts t List.mem_cons_self⟩,
            ih hls fun t' ht' => hts t' (List.mem_cons_of_mem _ ht')⟩

/-- **The reader of expressions accepts its grammar.**  Tokens of expressions over axes in front of
a semicolon are read up to it, as `e`, exactly when the grammar derives `e` from them. -/
theorem expression_iff_derives {scope : Scope} (hscope : Nonreducing scope) {r : Reading}
    (hsymbols : r.symbols = []) {ts : List Token} (hts : ∀ t ∈ ts, Vocabulary scope t)
    {ls after : List Lexeme} {semi : Lexeme} (hls : ls.map (·.token) = ts.map some)
    (hsemi : semi.token = some .semicolon) (hrest : r.rest = ls ++ semi :: after) (e : Expr)
    (r' : Reading) :
    (Reader.expression scope r = .ok (e, r') ∧ r'.token? = some .semicolon) ↔
      (Derives scope .or ts e ∧ r' = { r with rest := semi :: after }) := by
  rw [Reader.expression_eq_ok]
  constructor
  · rintro ⟨he, hr'⟩
    obtain ⟨ts', htakes, hderives, -⟩ :=
      he.derives hscope ⟨hsymbols, hrest ▸ clear_of_spelled hls hts hsemi⟩
    obtain ⟨ls', hls', hrest'⟩ := htakes.rest_eq
    obtain ⟨semi', hsemi', hsemi''⟩ := Option.bind_eq_some_iff.mp hr'
    obtain ⟨after', hafter'⟩ := List.head?_eq_some_iff.mp hsemi'
    rw [hafter'] at hrest'
    -- both sequences of tokens reach to the first semicolon
    have hspelled : ts'.map some = ts.map some := by
      rw [← takeWhile_spelled after' hls' (fun h => hderives.vocabulary _ h) hsemi'',
        ← takeWhile_spelled after hls (fun h => hts _ h) hsemi, ← hrest', hrest]
    obtain rfl := (List.map_inj_right fun _ _ => Option.some.inj).mp hspelled
    have hlength : ls'.length = ls.length := by
      simpa using congrArg List.length (hls'.trans hls.symm)
    obtain ⟨-, hafter⟩ := List.append_inj (hrest'.symm.trans hrest) hlength
    refine ⟨hderives, ?_⟩
    rw [htakes.same, hafter', hafter]
  · rintro ⟨hderives, rfl⟩
    have hnext : ∀ l ∈ (semi :: after).head?, l.token ≠ none := by simp [hsemi]
    have hend : Reading.token? { r with rest := semi :: after } = some .semicolon := hsemi
    have hfollowed : Followed 0 { r with rest := semi :: after } := by
      intro t ht
      obtain rfl := Option.some.inj (hend.symm.trans ht)
      exact Nat.le_refl 0
    have hstands := hderives.stands hscope (TakesAll.of_rest hls hnext hrest)
      (hfollowed.mono (by decide))
    exact ⟨hstands.exprAt hfollowed (by decide), hend⟩

/-- Subtraction associates to the left, a comparison holds sums, and `i` is the innermost axis of
that name. -/
theorem expression_iff_derives_difference :
    let i : Var := ⟨1, "i", .scalar .i32⟩
    let j : Var := ⟨0, "j", .scalar .i32⟩
    let scope : Scope := [("i", i), ("j", j), ("i", ⟨7, "i", .scalar .i32⟩)]
    let ts : List Token := [.ident "i", .minus, .ident "j", .minus, .int 1, .lt, .ident "max",
      .lparen, .ident "i", .comma, .int 2, .rparen]
    let e : Expr := .binary .lt (.binary .sub (.binary .sub (.var i) (.var j)) (.int 1))
      (.binary .max (.var i) (.int 2))
    Nonreducing scope ∧ (∀ t ∈ ts, Vocabulary scope t) ∧ Derives scope .or ts e := by
  intro i j scope ts e
  let ls : List Lexeme := ts.map (⟨some ·, 0, 0⟩)
  let semi : Lexeme := ⟨some .semicolon, 0, 0⟩
  let r : Reading := ⟨ls ++ [semi], ⟨.empty, [], [], []⟩, [], "", 0⟩
  have hscope : Nonreducing scope := by simp [Nonreducing, scope, Reduction.ofName?]
  have hts : ∀ t ∈ ts, Vocabulary scope t := by simp [ts, scope, Vocabulary]
  have hls : ls.map (·.token) = ts.map some := rfl
  have hrest : r.rest = ls ++ semi :: [] := rfl
  have hread : Reader.expression scope r = .ok (e, { r with rest := [semi] }) := rfl
  exact ⟨hscope, hts, ((expression_iff_derives hscope rfl hts hls rfl hrest e _).mp ⟨hread, rfl⟩).1⟩

end Program

end TensorLoops
