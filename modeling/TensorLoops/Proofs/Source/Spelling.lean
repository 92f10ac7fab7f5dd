import TensorLoops.Proofs.Source.Tokens

/-!
# Proofs — Source — Spelling

Tokens are read back from their texts.  A token that a text can hold, floats apart, is `Spellable`:
an integer below `2 ^ 63`, a name that is no keyword, a keyword, an operator or a bracket.  Its text
is taken as a whole, and as that token, when the character behind it does not go on with it
(`munch_text`); which characters do, is said by `Token.Extends`.  A blank goes on with no token, so
that any such tokens are the tokens of a text (`tokens_spell`).
-/

namespace TensorLoops

open Lexeme

/-- The words that are no names. -/
def keywords : List String := ["input", "let", "output", "grid"]

/-- A letter or an underscore, and then letters, digits and underscores. -/
def IsWord (name : String) : Prop :=
  ∃ c cs, name.toList = c :: cs ∧ isWordStart c = true ∧ cs.all isWordPart = true

/-- A name: a word that is no keyword. -/
structure IsName (name : String) : Prop where
  word       : IsWord name
  notKeyword : name ∉ keywords

/-- The token is one that a text can hold, and no float. -/
def Token.Spellable : Token → Prop
  | .real _     => False
  | .int n      => n < Nat.pow 2 63
  | .ident name => IsName name
  | _           => True

/-- The character behind the text of the token goes on with it. -/
def Token.Extends : Token → Char → Bool
  | .inputWord | .letWord | .outputWord | .gridWord | .ident _ => isWordPart
  | .int _ | .real _ => fun c => c.isDigit || c == '.' || c == 'e' || c == 'E'
  | .equals => fun c => c == '>' || c == '='
  | .bang | .lt | .gt => (· == '=')
  | _ => fun _ => false

namespace Lexeme

variable {more : List Char}

/-! ### Characters -/

theorem isAlpha_of_isDigit {c : Char} (h : c.isDigit = true) : c.isAlpha = false := by
  have hupper : c.isUpper = decide (c.val ≥ 'A'.val ∧ c.val ≤ 'Z'.val) := rfl
  have hlower : c.isLower = (decide (c.val ≥ 'a'.val) && decide (c.val ≤ 'z'.val)) := rfl
  show (c.isUpper || c.isLower) = false
  simp only [hupper, hlower, Char.isDigit, Bool.and_eq_true, decide_eq_true_eq,
    Bool.or_eq_false_iff, Bool.and_eq_false_iff, decide_eq_false_iff_not] at h ⊢
  grind

theorem isWordPart_of_isDigit {c : Char} (h : c.isDigit = true) : isWordPart c = true := by
  simp [isWordPart, Char.isAlphanum, h]

theorem not_isWordStart_of_isDigit {c : Char} (h : c.isDigit = true) : isWordStart c = false := by
  have hunderscore : c ≠ '_' := by
    rintro rfl
    exact absurd h (by decide)
  simp [isWordStart, isAlpha_of_isDigit h, hunderscore]

/-! ### Words -/

/-- A word ends where its characters do. -/
theorem takeWhile_word {p : Char → Bool} {cs : List Char} (hcs : ∀ c ∈ cs, p c = true)
    (hmore : ∀ c ∈ more.head?, p c = false) : (cs ++ more).takeWhile p = cs := by
  rw [List.takeWhile_append_of_pos hcs, ← List.nil_append more, takeWhile_append_stop hmore,
    List.takeWhile_nil, List.append_nil]

/-- A word is taken up to the first character that cannot stand in it. -/
theorem munch_word {name : String} (hname : IsWord name)
    (hmore : ∀ c ∈ more.head?, isWordPart c = false) :
    munch (name.toList ++ more) = (some (wordToken name.toList), name.toList.length) := by
  obtain ⟨c, cs, htext, hstart, hparts⟩ := hname
  have hall : ∀ d ∈ c :: cs, isWordPart d = true :=
    List.forall_mem_cons.mpr ⟨isWordPart_of_isWordStart hstart, List.all_eq_true.mp hparts⟩
  have hword := takeWhile_word hall hmore
  rw [List.cons_append] at hword
  rw [htext, List.cons_append, munch, if_pos hstart, hword]

/-- A word that is no keyword is a name. -/
theorem wordToken_of_name {name : String} (h : name ∉ keywords) :
    wordToken name.toList = .ident name := by
  simp only [keywords, List.mem_cons, List.not_mem_nil, or_false, not_or] at h
  obtain ⟨hinput, hlet, houtput, hgrid⟩ := h
  rw [wordToken, String.ofList_toList]
  split
  · exact absurd rfl hinput
  · exact absurd rfl hlet
  · exact absurd rfl houtput
  · exact absurd rfl hgrid
  · rfl

/-! ### Numbers -/

/-- A number is written in decimal digits. -/
theorem toList_toString (n : Nat) : (toString n).toList = Nat.toDigits 10 n := by
  rw [Nat.toString_eq_repr, Nat.toList_repr]

theorem isDigit_of_mem {n : Nat} {c : Char} (h : c ∈ Nat.toDigits 10 n) : c.isDigit = true :=
  Nat.isDigit_of_mem_toDigits (by decide) (Nat.le_refl _) h

/-- Behind the digits there is neither a fraction nor an exponent. -/
theorem number_digits {n : Nat} (hn : n < Nat.pow 2 63)
    (hmore : ∀ c ∈ more.head?, (c.isDigit || c == '.' || c == 'e' || c == 'E') = false) :
    number (Nat.toDigits 10 n ++ more) = (some (.int n), (Nat.toDigits 10 n).length) := by
  have hdigit : ∀ c ∈ more.head?, c.isDigit = false := fun c hc => by
    simpa using (Bool.or_eq_false_iff.mp (Bool.or_eq_false_iff.mp
      (Bool.or_eq_false_iff.mp (hmore c hc)).1).1).1
  have hwhole : (Nat.toDigits 10 n ++ more).takeWhile Char.isDigit = Nat.toDigits 10 n :=
    takeWhile_word (fun _ => isDigit_of_mem) hdigit
  have hvalue : digitsValue (Nat.toDigits 10 n) = n := Nat.ofDigitChars_ten_toDigits
  have hfraction : fraction? more = none := by
    cases more with
    | nil => rfl
    | cons c cs =>
        have hc : c ≠ '.' := by
          rintro rfl
          exact absurd (hmore _ rfl) (by decide)
        simp [fraction?, hc]
  have hexponent : exponent? more = none := by
    cases more with
    | nil => rfl
    | cons c cs =>
        have hc : ¬ (c == 'e' || c == 'E') = true := by
          intro h
          have := hmore c rfl
          simp_all
        simp only [exponent?]
        exact if_neg hc
  simp only [number, hwhole, List.drop_left, hfraction, hexponent, hvalue]
  rw [if_pos hn]

/-- The digits of a literal are read as it, if nothing behind them goes on with the number. -/
theorem munch_digits {n : Nat} (hn : n < Nat.pow 2 63)
    (hmore : ∀ c ∈ more.head?, (c.isDigit || c == '.' || c == 'e' || c == 'E') = false) :
    munch ((toString n).toList ++ more) = (some (.int n), (toString n).toList.length) := by
  rw [toList_toString, ← number_digits hn hmore]
  cases hdigits : Nat.toDigits 10 n with
  | nil => exact absurd hdigits Nat.toDigits_ne_nil
  | cons c cs =>
      have hc : c.isDigit = true := isDigit_of_mem (hdigits ▸ List.mem_cons_self)
      rw [List.cons_append, munch, if_neg (by simp [not_isWordStart_of_isDigit hc]), if_pos hc]

/-! ### All tokens -/

/-- The operators that are longer with an `=` behind them. -/
def shortComparisons : List (Char × Token) := [('!', .bang), ('<', .lt), ('>', .gt)]

/-- A short comparison is read as it, if it is not followed by an equals sign. -/
theorem munch_comparison {c : Char} {t : Token} (hc : (c, t) ∈ shortComparisons)
    (hmore : ∀ d ∈ more.head?, (d == '=') = false) : munch (c :: more) = (some t, 1) := by
  simp only [shortComparisons, List.mem_cons, Prod.mk.injEq, List.not_mem_nil, or_false] at hc
  cases more with
  | nil => rcases hc with ⟨rfl, rfl⟩ | ⟨rfl, rfl⟩ | ⟨rfl, rfl⟩ <;> rfl
  | cons d cs =>
      have hd : d ≠ '=' := by simpa using hmore d rfl
      rcases hc with ⟨rfl, rfl⟩ | ⟨rfl, rfl⟩ | ⟨rfl, rfl⟩ <;>
        exact (show operator _ = _ by simp [operator, hd])

/-- An equals sign that begins no longer token is read as it. -/
theorem munch_equals (hmore : ∀ c ∈ more.head?, (c == '>' || c == '=') = false) :
    munch ('=' :: more) = (some .equals, 1) := by
  cases more with
  | nil => rfl
  | cons c cs =>
      obtain ⟨harrow, heq⟩ : c ≠ '>' ∧ c ≠ '=' := by simpa using hmore c rfl
      show operator ('=' :: c :: cs) = _
      simp [operator, harrow, heq]

/-- **A token is read back from its text**, whatever follows that does not go on with it. -/
theorem munch_text {t : Token} (ht : t.Spellable) (hmore : ∀ c ∈ more.head?, t.Extends c = false) :
    munch (t.text.toList ++ more) = (some t, t.text.toList.length) := by
  cases t with
  | real x => exact ht.elim
  | int n => exact munch_digits ht hmore
  | ident name =>
      have hname : IsName name := ht
      rw [Token.text, munch_word hname.word hmore, wordToken_of_name hname.notKeyword]
  | inputWord => exact munch_word ⟨'i', "nput".toList, rfl, by decide, by decide⟩ hmore
  | letWord => exact munch_word ⟨'l', "et".toList, rfl, by decide, by decide⟩ hmore
  | outputWord => exact munch_word ⟨'o', "utput".toList, rfl, by decide, by decide⟩ hmore
  | gridWord => exact munch_word ⟨'g', "rid".toList, rfl, by decide, by decide⟩ hmore
  | bang => exact munch_comparison (by decide) hmore
  | lt => exact munch_comparison (by decide) hmore
  | gt => exact munch_comparison (by decide) hmore
  | equals => exact munch_equals hmore
  | _ => rfl

/-- Neither a blank nor a comment is a token. -/
theorem munch_layout {c : Char} (h : isBlank c ∨ c = '#') (cs : List Char) :
    munch (c :: cs) = (none, 1) := by
  rcases h with h | rfl
  · rcases isBlank_iff.mp h with rfl | rfl | rfl | rfl <;> rfl
  · rfl

/-- The token at the front of a text is that of the piece there. -/
theorem tokensOf_text {t : Token} (ht : t.Spellable)
    (hmore : ∀ c ∈ more.head?, t.Extends c = false) :
    tokensOf (t.text.toList ++ more) = some t :: tokensOf more := by
  have hmunch := munch_text ht hmore
  cases htext : t.text.toList ++ more with
  | nil =>
      rw [htext] at hmunch
      cases hmunch
  | cons c cs =>
      have hpiece : ¬ (isBlank c ∨ c = '#') := by
        intro h
        rw [htext, munch_layout h] at hmunch
        cases hmunch
      have hstart : afterLayout false (c :: cs) = c :: cs :=
        afterLayout_other (fun h => hpiece (.inl h)) (fun h => hpiece (.inr h)) cs
      rw [tokensOf_of_piece hstart, ← htext, hmunch, List.drop_left]

theorem tokensOf_blank (cs : List Char) : tokensOf (' ' :: cs) = tokensOf cs :=
  tokensOf_congr (afterLayout_blank (by decide) cs)

/-! ### Texts of tokens -/

/-- The tokens written one after another, each with a blank behind it. -/
def spell : List Token → String
  | []      => ""
  | t :: ts => t.text ++ " " ++ spell ts

/-- No token goes on with a blank. -/
theorem not_extends_blank (t : Token) : t.Extends ' ' = false := by
  cases t <;> rfl

/-- **Tokens with blanks between them are read back.** -/
theorem tokens_spell {ts : List Token} (hts : ∀ t ∈ ts, t.Spellable) :
    tokens (spell ts) = ts.map some := by
  rw [tokens_eq]
  induction ts with
  | nil => exact tokensOf_of_layout rfl
  | cons t ts ih =>
      obtain ⟨ht, hts⟩ := List.forall_mem_cons.mp hts
      have htext : (spell (t :: ts)).toList = t.text.toList ++ ' ' :: (spell ts).toList := by
        simp [spell]
      have hblank : ∀ c ∈ (' ' :: (spell ts).toList).head?, t.Extends c = false := by
        rintro c ⟨⟩
        exact not_extends_blank t
      rw [htext, tokensOf_text ht hblank, tokensOf_blank, ih hts, List.map_cons]

end Lexeme

end TensorLoops
