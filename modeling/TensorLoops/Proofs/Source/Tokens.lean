import TensorLoops.Source.Lexeme

/-!
# Proofs — Source — Tokens

What the tokens of a text depend on.  A text that is laid out differently, with other blanks and
comments between the same pieces, has the same tokens: a piece is read without a look beyond the
blank or the comment behind it (`munch_append`), so that a text falls into the part before a layout
and the part behind it, and the tokens are those of the two parts (`tokens_layout`).  The one
exception is a layout that stands in a comment itself, hence `endsInComment`.
-/

namespace TensorLoops.Lexeme

/-! ### Layouts -/

/-- Blanks and comments, each comment with the end of its line. -/
inductive Layout : List Char → Prop where
  | nil : Layout []
  | blank {c : Char} {cs : List Char} : isBlank c → Layout cs → Layout (c :: cs)
  | comment {line cs : List Char} : '\n' ∉ line → Layout cs → Layout ('#' :: line ++ '\n' :: cs)

/-- Whether a comment is open at the end of a text, if one is open at its start. -/
def endsInComment : Bool → List Char → Bool
  | inComment, []      => inComment
  | inComment, c :: cs => endsInComment (if inComment then c != '\n' else c == '#') cs

/-- A text without its blanks and comments at the front. -/
def afterLayout (inComment : Bool) (cs : List Char) : List Char := (skip inComment 0 cs).2

/-- Skipping leaves what is behind the layout. -/
theorem skip_snd (inComment : Bool) (pos : Nat) (cs : List Char) :
    (skip inComment pos cs).2 = afterLayout inComment cs := by
  unfold afterLayout
  induction cs generalizing inComment pos with
  | nil => rfl
  | cons c cs ih =>
      -- the bytes are counted on the side
      have hskip : ∀ b p p', (skip b p cs).2 = (skip b p' cs).2 := fun b p p' =>
        (ih b p).trans (ih b p').symm
      unfold skip
      split
      · exact hskip _ _ _
      · split
        · exact hskip _ _ _
        · split
          · exact hskip _ _ _
          · rfl

@[simp] theorem afterLayout_nil (inComment : Bool) : afterLayout inComment [] = [] := rfl

theorem afterLayout_comment (c : Char) (cs : List Char) :
    afterLayout true (c :: cs) = afterLayout (c != '\n') cs := by
  rw [afterLayout, skip, if_pos rfl, skip_snd]

theorem afterLayout_blank {c : Char} (h : isBlank c) (cs : List Char) :
    afterLayout false (c :: cs) = afterLayout false cs := by
  rw [afterLayout, skip, if_neg (by simp), if_pos h, skip_snd]

theorem afterLayout_hash (cs : List Char) :
    afterLayout false ('#' :: cs) = afterLayout true cs := by
  rw [afterLayout, skip, if_neg (by simp), if_neg (by decide), if_pos (by decide), skip_snd]

/-- A character that is neither a blank nor the start of a comment stays. -/
theorem afterLayout_other {c : Char} (hblank : ¬ isBlank c) (hhash : c ≠ '#') (cs : List Char) :
    afterLayout false (c :: cs) = c :: cs := by
  rw [afterLayout, skip, if_neg (by simp), if_neg hblank, if_neg (by simpa using hhash)]

/-- What a character at the front of a text is to the layout there. -/
theorem afterLayout_cases (inComment : Bool) (c : Char) :
    (∀ cs, afterLayout inComment (c :: cs) =
        afterLayout (if inComment then c != '\n' else c == '#') cs) ∨
      inComment = false ∧ ¬ isBlank c ∧ c ≠ '#' := by
  cases inComment with
  | true => exact .inl fun cs => afterLayout_comment c cs
  | false =>
      by_cases hblank : isBlank c
      · have hhash : c ≠ '#' := by rintro rfl; exact absurd hblank (by decide)
        exact .inl fun cs => by rw [afterLayout_blank hblank]; simp [beq_false_of_ne hhash]
      · by_cases hhash : c = '#'
        · exact .inl fun cs => by simp [hhash, afterLayout_hash]
        · exact .inr ⟨rfl, hblank, hhash⟩

/-- What is left of a text starts with a character of a lexeme. -/
theorem head_afterLayout {inComment : Bool} {cs rest : List Char} {c : Char}
    (h : afterLayout inComment cs = c :: rest) : ¬ isBlank c ∧ c ≠ '#' := by
  induction cs generalizing inComment with
  | nil => cases h
  | cons d cs ih =>
      rcases afterLayout_cases inComment d with hd | ⟨rfl, hblank, hhash⟩
      · exact ih ((hd cs).symm.trans h)
      · rw [afterLayout_other hblank hhash] at h
        cases h
        exact ⟨hblank, hhash⟩

theorem length_afterLayout (inComment : Bool) (cs : List Char) :
    (afterLayout inComment cs).length ≤ cs.length := by
  induction cs generalizing inComment with
  | nil => exact Nat.le_refl _
  | cons c cs ih =>
      rcases afterLayout_cases inComment c with hc | ⟨rfl, hblank, hhash⟩
      · rw [hc]
        exact Nat.le_succ_of_le (ih _)
      · exact Nat.le_of_eq (congrArg List.length (afterLayout_other hblank hhash cs))

/-- A text that is more than a layout keeps what follows it. -/
theorem afterLayout_append {inComment : Bool} {cs : List Char} (more : List Char)
    (h : afterLayout inComment cs ≠ []) :
    afterLayout inComment (cs ++ more) = afterLayout inComment cs ++ more ∧
      endsInComment inComment cs = endsInComment false (afterLayout inComment cs) := by
  induction cs generalizing inComment with
  | nil => exact absurd rfl h
  | cons c cs ih =>
      rcases afterLayout_cases inComment c with hc | ⟨rfl, hblank, hhash⟩
      · rw [hc] at h
        rw [List.cons_append, hc, hc, endsInComment]
        exact ih h
      · rw [List.cons_append, afterLayout_other hblank hhash, afterLayout_other hblank hhash]
        exact ⟨rfl, rfl⟩

/-- Behind a text that is a layout alone, the layout goes on. -/
theorem afterLayout_append_of_nil {inComment : Bool} {cs : List Char} (more : List Char)
    (h : afterLayout inComment cs = []) :
    afterLayout inComment (cs ++ more) = afterLayout (endsInComment inComment cs) more := by
  induction cs generalizing inComment with
  | nil => rfl
  | cons c cs ih =>
      rcases afterLayout_cases inComment c with hc | ⟨rfl, hblank, hhash⟩
      · rw [hc] at h
        rw [List.cons_append, hc, endsInComment]
        exact ih h
      · rw [afterLayout_other hblank hhash] at h
        cases h

/-- A comment goes on behind a text without a line end. -/
theorem afterLayout_line {line : List Char} (h : '\n' ∉ line) (more : List Char) :
    afterLayout true (line ++ more) = afterLayout true more := by
  induction line with
  | nil => rfl
  | cons c line ih =>
      rw [List.mem_cons, not_or] at h
      have hc : (c != '\n') = true := bne_iff_ne.mpr (Ne.symm h.1)
      rw [List.cons_append, afterLayout_comment, hc]
      exact ih h.2

/-- A layout is skipped. -/
theorem Layout.afterLayout_append {gap : List Char} (h : Layout gap) (cs : List Char) :
    afterLayout false (gap ++ cs) = afterLayout false cs := by
  induction h with
  | nil => rfl
  | blank hc _ ih => exact (afterLayout_blank hc _).trans ih
  | @comment line rest hline _ ih =>
      have hassoc : '#' :: line ++ '\n' :: rest ++ cs = '#' :: (line ++ '\n' :: (rest ++ cs)) := by
        simp
      rw [hassoc, afterLayout_hash, afterLayout_line hline, afterLayout_comment]
      exact ih

/-! ### Reading one piece -/

/-- At the end of a text, or before a blank or a comment. -/
def Ends (cs : List Char) : Prop := ∀ c ∈ cs.head?, isBlank c ∨ c = '#'

/-- A layout that is not empty ends the piece before it. -/
theorem Layout.ends {gap : List Char} (h : Layout gap) (hne : gap ≠ []) (cs : List Char) :
    Ends (gap ++ cs) := by
  cases h with
  | nil => exact absurd rfl hne
  | blank hc _ =>
      intro c h
      cases h
      exact .inl hc
  | comment _ _ =>
      intro c h
      cases h
      exact .inr rfl

theorem isBlank_iff {c : Char} : isBlank c ↔ c = ' ' ∨ c = '\t' ∨ c = '\n' ∨ c = '\r' := by
  simp [isBlank, or_assoc]

/-- A test that no blank and no `#` passes fails at the end of a piece. -/
theorem Ends.head {cs : List Char} (h : Ends cs) {p : Char → Bool}
    (hp : [' ', '\t', '\n', '\r', '#'].any p = false) : ∀ c ∈ cs.head?, p c = false := by
  intro c hc
  refine Bool.eq_false_iff.mpr (List.any_eq_false.mp hp c ?_)
  rcases h c hc with hblank | rfl
  · rcases isBlank_iff.mp hblank with rfl | rfl | rfl | rfl <;> decide
  · decide

/-- What stops a run of characters may be left out. -/
theorem takeWhile_append_stop {p : Char → Bool} {more : List Char}
    (h : ∀ c ∈ more.head?, p c = false) (cs : List Char) :
    (cs ++ more).takeWhile p = cs.takeWhile p := by
  have hmore : more.takeWhile p = [] := by
    cases more with
    | nil => rfl
    | cons c more => simp [h c rfl]
  rw [List.takeWhile_append, hmore, List.append_nil]
  split
  · exact ((List.takeWhile_prefix p).eq_of_length ‹_›).symm
  · rfl

theorem length_takeWhile (p : Char → Bool) (cs : List Char) :
    (cs.takeWhile p).length ≤ cs.length := (List.takeWhile_prefix p).length_le

variable {more : List Char}

/-- An exponent is read alike before whatever ends it. -/
theorem exponent?_append (hmore : Ends more) (cs : List Char) :
    exponent? (cs ++ more) = exponent? cs := by
  cases cs with
  | nil =>
      cases more with
      | nil => rfl
      | cons c more =>
          have hc := hmore.head (p := fun c => c == 'e' || c == 'E') (by decide) c rfl
          simp only [List.nil_append, exponent?]
          rw [if_neg (by simpa using hc)]
  | cons e cs =>
      have hsign : (cs ++ more).takeWhile (fun c => c == '+' || c == '-') =
          cs.takeWhile fun c => c == '+' || c == '-' :=
        takeWhile_append_stop (hmore.head (by decide)) cs
      have hle : ((cs.takeWhile fun c => c == '+' || c == '-').take 1).length ≤ cs.length :=
        Nat.le_trans (List.length_take_le' _ _) (length_takeWhile _ _)
      simp only [List.cons_append, exponent?, hsign, List.drop_append_of_le_length hle,
        takeWhile_append_stop (hmore.head (p := Char.isDigit) (by decide))]

theorem exponent?_le {cs : List Char} {n : Nat} {e : Int} (h : exponent? cs = some (n, e)) :
    n ≤ cs.length := by
  cases cs with
  | nil => cases h
  | cons c cs =>
      simp only [exponent?] at h
      split at h
      · split at h
        · cases h
        · cases h
          have hsign := List.length_take_le 1 (cs.takeWhile fun c => c == '+' || c == '-')
          have hwhile := length_takeWhile (fun c => c == '+' || c == '-') cs
          have htake := List.length_take_le' 1 (cs.takeWhile fun c => c == '+' || c == '-')
          have hdigits := length_takeWhile Char.isDigit
            (cs.drop ((cs.takeWhile fun c => c == '+' || c == '-').take 1).length)
          rw [List.length_drop] at hdigits
          rw [List.length_cons]
          omega
      · cases h

theorem fraction?_append (hmore : Ends more) (cs : List Char) :
    fraction? (cs ++ more) = fraction? cs := by
  cases cs with
  | nil =>
      cases more with
      | nil => rfl
      | cons c more =>
          have hc := hmore.head (p := fun c => c == '.') (by decide) c rfl
          have hc : c ≠ '.' := by simpa using hc
          simp [fraction?, hc]
  | cons c cs =>
      by_cases hc : c = '.'
      · subst hc
        simp only [List.cons_append, fraction?,
          takeWhile_append_stop (hmore.head (p := Char.isDigit) (by decide))]
      · simp [fraction?, hc]

/-- A fraction with its point is no longer than its text. -/
theorem fraction?_le {cs places : List Char} (h : fraction? cs = some places) :
    1 + places.length ≤ cs.length := by
  unfold fraction? at h
  split at h
  · rename_i cs
    dsimp only at h
    split at h
    · cases h
    · cases h
      have := length_takeWhile Char.isDigit cs
      rw [List.length_cons]
      omega
  · cases h

/-- A number is read alike before whatever ends it. -/
theorem number_append (hmore : Ends more) (cs : List Char) : number (cs ++ more) = number cs := by
  have hwhole : (cs ++ more).takeWhile Char.isDigit = cs.takeWhile Char.isDigit :=
    takeWhile_append_stop (hmore.head (by decide)) cs
  have hle := length_takeWhile Char.isDigit cs
  simp only [number, hwhole, List.drop_append_of_le_length hle, fraction?_append hmore]
  cases hplaces : fraction? (cs.drop (cs.takeWhile Char.isDigit).length) with
  | none => simp only [exponent?_append hmore]
  | some places =>
      have hfraction := fraction?_le hplaces
      rw [List.length_drop] at hfraction
      have hle' : (cs.takeWhile Char.isDigit).length + 1 + places.length ≤ cs.length := by omega
      simp only [List.drop_append_of_le_length hle', exponent?_append hmore]

theorem number_le (cs : List Char) : (number cs).2 ≤ cs.length := by
  have hle := length_takeWhile Char.isDigit cs
  unfold number
  dsimp only
  split
  · rename_i places hplaces
    have hfraction := fraction?_le hplaces
    rw [List.length_drop] at hfraction
    split
    · have hexponent := exponent?_le ‹_›
      rw [List.length_drop] at hexponent
      dsimp only
      omega
    · dsimp only
      omega
  · split
    · have hexponent := exponent?_le ‹_›
      rw [List.length_drop] at hexponent
      dsimp only
      omega
    · exact hle

theorem number_pos {c : Char} (hc : c.isDigit) (cs : List Char) : 0 < (number (c :: cs)).2 := by
  have hpos : 0 < ((c :: cs).takeWhile Char.isDigit).length := by
    rw [List.takeWhile_cons_of_pos hc]
    exact Nat.succ_pos _
  unfold number
  dsimp only
  split
  · split
    · dsimp only
      omega
    · dsimp only
      omega
  · split
    · dsimp only
      omega
    · exact hpos

/-- The characters that start an operator or a bracket. -/
def signs : List Char :=
  ['=', '!', '<', '>', '&', '|', '+', '-', '*', '/', '%', '(', ')', '[', ']', ',', ';', ':']

/-- The second characters of operators. -/
def seconds : List Char := ['>', '=', '&', '|']

/-- A character that begins no operator is a piece of its own, without a token. -/
theorem operator_of_not_mem {c : Char} (h : c ∉ signs) (cs : List Char) :
    operator (c :: cs) = (none, 1) := by
  unfold operator
  split
  case h_24 => rfl
  all_goals
    rename_i heq
    cases heq
    exact absurd (by decide) h

/-- An operator of one character stands before whatever is no second one. -/
theorem operator_alone {c d : Char} (hd : d ∉ seconds) (cs : List Char) :
    operator (c :: d :: cs) = operator [c] := by
  by_cases hc : c ∈ signs
  · simp only [seconds, List.mem_cons, List.not_mem_nil, or_false, not_or] at hd
    obtain ⟨hgt, heq, hand, hor⟩ := hd
    simp only [signs, List.mem_cons, List.not_mem_nil, or_false] at hc
    rcases hc with rfl | rfl | rfl | rfl | rfl | rfl | hc
    · simp [operator, hgt, heq]
    · simp [operator, heq]
    · simp [operator, heq]
    · simp [operator, heq]
    · simp [operator, hand]
    · simp [operator, hor]
    · rcases hc with rfl | rfl | rfl | rfl | rfl | rfl | rfl | rfl | rfl | rfl | rfl | rfl <;> rfl
  · rw [operator_of_not_mem hc, operator_of_not_mem hc]

/-- Operators have two characters at most. -/
theorem operator_pair (c d : Char) (cs : List Char) :
    operator (c :: d :: cs) = operator [c, d] := by
  by_cases hd : d ∈ seconds
  · by_cases hc : c ∈ signs
    · simp only [seconds, List.mem_cons, List.not_mem_nil, or_false] at hd
      simp only [signs, List.mem_cons, List.not_mem_nil, or_false] at hc
      rcases hc with rfl | rfl | rfl | rfl | rfl | rfl | hc
      case inr.inr.inr.inr.inr.inr =>
        rcases hc with rfl | rfl | rfl | rfl | rfl | rfl | rfl | rfl | rfl | rfl | rfl | rfl <;> rfl
      all_goals rcases hd with rfl | rfl | rfl | rfl <;> rfl
    · rw [operator_of_not_mem hc, operator_of_not_mem hc]
  · rw [operator_alone hd, operator_alone hd]

/-- An operator is read alike before whatever ends it. -/
theorem operator_append (hmore : Ends more) (c : Char) (cs : List Char) :
    operator (c :: cs ++ more) = operator (c :: cs) := by
  match cs with
  | [] =>
      cases more with
      | nil => rfl
      | cons d more =>
          have hd := hmore.head (p := fun c => seconds.contains c) (by decide) d rfl
          exact operator_alone (by simpa using hd) more
  | d :: cs => exact (operator_pair c d (cs ++ more)).trans (operator_pair c d cs).symm

/-- An operator is one character at least, and no longer than its text. -/
theorem operator_length (c : Char) (cs : List Char) :
    0 < (operator (c :: cs)).2 ∧ (operator (c :: cs)).2 ≤ (c :: cs).length := by
  unfold operator
  split
  case h_24 => simp
  all_goals
    rename_i heq
    rw [heq]
    simp

/-- **A piece is read without a look beyond its end.** -/
theorem munch_append (hmore : Ends more) {cs : List Char} (hcs : cs ≠ []) :
    munch (cs ++ more) = munch cs := by
  cases cs with
  | nil => exact absurd rfl hcs
  | cons c cs =>
      have hword : (c :: cs ++ more).takeWhile isWordPart = (c :: cs).takeWhile isWordPart :=
        takeWhile_append_stop (hmore.head (by decide)) (c :: cs)
      have hnumber := number_append hmore (c :: cs)
      have hoperator := operator_append hmore c cs
      rw [List.cons_append] at hword hnumber hoperator ⊢
      simp only [munch, hword, hnumber, hoperator]

theorem isWordPart_of_isWordStart {c : Char} (h : isWordStart c) : isWordPart c := by
  simp only [isWordStart, isWordPart, Char.isAlphanum, Bool.or_eq_true] at h ⊢
  rcases h with h | h
  · exact .inl (.inl h)
  · exact .inr h

/-- A piece takes a character, and no more than there are. -/
theorem munch_length (c : Char) (cs : List Char) :
    0 < (munch (c :: cs)).2 ∧ (munch (c :: cs)).2 ≤ (c :: cs).length := by
  unfold munch
  split
  · cases ‹_›
  · rename_i heq
    cases heq
    split
    · refine ⟨?_, length_takeWhile _ _⟩
      dsimp only
      rw [List.takeWhile_cons_of_pos (isWordPart_of_isWordStart ‹_›)]
      exact Nat.succ_pos _
    · split
      · exact ⟨number_pos ‹_› cs, number_le _⟩
      · exact operator_length c cs

/-- A character that can stand in a piece. -/
def isPart (c : Char) : Bool := !isBlank c && c != '#'

/-- A piece is read off the characters before the next blank or comment. -/
theorem munch_takeWhile {c : Char} (hc : isPart c) (cs : List Char) :
    munch (c :: cs) = munch ((c :: cs).takeWhile isPart) := by
  have hends : Ends ((c :: cs).dropWhile isPart) := by
    intro d hd
    have hpart := List.head?_dropWhile_not isPart (c :: cs)
    rw [Option.mem_def.mp hd] at hpart
    simpa [isPart, Classical.or_iff_not_imp_left] using hpart
  have hne : (c :: cs).takeWhile isPart ≠ [] := by
    rw [List.takeWhile_cons_of_pos hc]
    exact List.cons_ne_nil _ _
  rw [← munch_append hends hne, List.takeWhile_append_dropWhile]

/-- A piece holds no blank and no `#`. -/
theorem isPart_of_mem_take {c d : Char} (hc : isPart c) {cs : List Char}
    (hd : d ∈ (c :: cs).take (munch (c :: cs)).2) : isPart d := by
  have hle : (munch (c :: cs)).2 ≤ ((c :: cs).takeWhile isPart).length := by
    rw [munch_takeWhile hc, List.takeWhile_cons_of_pos hc]
    exact (munch_length _ _).2
  rw [← List.takeWhile_append_dropWhile (p := isPart) (l := c :: cs),
    List.take_append_of_le_length (by rwa [List.takeWhile_append_dropWhile])] at hd
  exact List.all_eq_true.mp List.all_takeWhile d (List.mem_of_mem_take hd)

/-- A piece without a hash begins no comment. -/
theorem endsInComment_drop {cs : List Char} {n : Nat} (h : ∀ c ∈ cs.take n, c ≠ '#') :
    endsInComment false cs = endsInComment false (cs.drop n) := by
  induction n generalizing cs with
  | zero => rfl
  | succ n ih =>
      cases cs with
      | nil => rfl
      | cons c cs =>
          rw [List.take_succ_cons, List.forall_mem_cons] at h
          rw [endsInComment, if_neg Bool.false_ne_true, beq_false_of_ne h.1]
          exact ih h.2

/-! ### Reading all of a text -/

/-- The tokens of a text, with `none` for each piece that spells no token. -/
def tokensOf (cs : List Char) : List (Option Token) := (scanFrom cs.length 0 cs).map (·.token)

/-- The tokens of a source text. -/
def tokens (source : String) : List (Option Token) := (scan source).map (·.token)

theorem tokens_eq (source : String) : tokens source = tokensOf source.toList := by
  rw [tokens, scan, tokensOf, String.length_toList]

/-- A layout has no lexemes. -/
theorem scanFrom_of_layout {cs : List Char} (h : afterLayout false cs = []) (n pos : Nat) :
    scanFrom n pos cs = [] := by
  cases n with
  | zero => rfl
  | succ n =>
      rw [← skip_snd false pos] at h
      rw [scanFrom]
      split
      · rfl
      · rename_i heq
        rw [heq] at h
        cases h

/-- A piece behind a layout is read first, then what is behind it. -/
theorem scanFrom_of_piece {cs rest : List Char} {c : Char}
    (h : afterLayout false cs = c :: rest) (n pos : Nat) :
    ∃ stop, (scanFrom (n + 1) pos cs).map (·.token) = (munch (c :: rest)).1 ::
      (scanFrom n stop ((c :: rest).drop (munch (c :: rest)).2)).map (·.token) := by
  rw [← skip_snd false pos] at h
  rw [scanFrom]
  split
  · rename_i heq
    rw [heq] at h
    cases h
  · rename_i heq
    rw [heq] at h
    cases h
    exact ⟨_, rfl⟩

/-- A text behind a piece is shorter. -/
theorem length_drop_munch {inComment : Bool} {cs rest : List Char} {c : Char}
    (h : afterLayout inComment cs = c :: rest) :
    ((c :: rest).drop (munch (c :: rest)).2).length < cs.length := by
  have hlen := length_afterLayout inComment cs
  have hpos := (munch_length c rest).1
  rw [h, List.length_cons] at hlen
  rw [List.length_drop, List.length_cons]
  omega

/-- The tokens depend neither on the place of a text nor on a limit that is no shorter than it. -/
theorem map_token_scanFrom {cs : List Char} {n m : Nat} (hn : cs.length ≤ n) (hm : cs.length ≤ m)
    (pos pos' : Nat) :
    (scanFrom n pos cs).map (·.token) = (scanFrom m pos' cs).map (·.token) := by
  induction n generalizing m pos pos' cs with
  | zero =>
      obtain rfl := List.length_eq_zero_iff.mp (Nat.le_zero.mp hn)
      rw [scanFrom_of_layout rfl, scanFrom_of_layout rfl]
  | succ n ih =>
      cases hrest : afterLayout false cs with
      | nil => rw [scanFrom_of_layout hrest, scanFrom_of_layout hrest]
      | cons c rest =>
          have hlt := length_drop_munch hrest
          obtain ⟨m, rfl⟩ : ∃ k, m = k + 1 := ⟨m - 1, by omega⟩
          obtain ⟨stop, hstop⟩ := scanFrom_of_piece hrest n pos
          obtain ⟨stop', hstop'⟩ := scanFrom_of_piece hrest m pos'
          rw [hstop, hstop', ih (m := m) (by omega) (by omega) stop stop']

theorem tokensOf_of_layout {cs : List Char} (h : afterLayout false cs = []) : tokensOf cs = [] := by
  rw [tokensOf, scanFrom_of_layout h, List.map_nil]

/-- The tokens of a text: that of its first piece, and those of the text behind it. -/
theorem tokensOf_of_piece {cs rest : List Char} {c : Char} (h : afterLayout false cs = c :: rest) :
    tokensOf cs =
      (munch (c :: rest)).1 :: tokensOf ((c :: rest).drop (munch (c :: rest)).2) := by
  have hlt := length_drop_munch h
  obtain ⟨stop, hstop⟩ := scanFrom_of_piece h cs.length 0
  rw [tokensOf, map_token_scanFrom (Nat.le_refl _) (Nat.le_succ _) 0 0, hstop, tokensOf,
    map_token_scanFrom (Nat.le_of_lt hlt) (Nat.le_refl _) stop 0]

theorem tokensOf_congr {cs cs' : List Char} (h : afterLayout false cs = afterLayout false cs') :
    tokensOf cs = tokensOf cs' := by
  cases hrest : afterLayout false cs with
  | nil => rw [tokensOf_of_layout hrest, tokensOf_of_layout (h.symm.trans hrest)]
  | cons c rest => rw [tokensOf_of_piece hrest, tokensOf_of_piece (h.symm.trans hrest)]

/-- **A text falls into two before a blank or a comment**, unless that stands in a comment.  By
induction on the length of the first part, which loses a piece at a time. -/
theorem tokensOf_append {before : List Char} (hbefore : endsInComment false before = false)
    (hmore : Ends more) : tokensOf (before ++ more) = tokensOf before ++ tokensOf more := by
  match hrest : afterLayout false before with
  | [] =>
      have hskip := afterLayout_append_of_nil more hrest
      rw [hbefore] at hskip
      rw [tokensOf_of_layout hrest, List.nil_append, tokensOf_congr hskip]
  | c :: rest =>
      have hlt := length_drop_munch hrest
      have hpiece : afterLayout false before ≠ [] := hrest ▸ List.cons_ne_nil c rest
      obtain ⟨happend, hcomment⟩ := afterLayout_append more hpiece
      rw [hrest] at happend hcomment
      have hpart : isPart c := by simpa [isPart] using head_afterLayout hrest
      have hmunch : munch (c :: rest ++ more) = munch (c :: rest) :=
        munch_append hmore (List.cons_ne_nil _ _)
      have hdrop : (c :: rest ++ more).drop (munch (c :: rest)).2 =
          (c :: rest).drop (munch (c :: rest)).2 ++ more :=
        List.drop_append_of_le_length (munch_length c rest).2
      have hclosed : endsInComment false ((c :: rest).drop (munch (c :: rest)).2) = false := by
        rw [← endsInComment_drop fun d hd => ?_, ← hcomment, hbefore]
        have hd : isPart d := isPart_of_mem_take hpart hd
        simp only [isPart, Bool.and_eq_true, bne_iff_ne] at hd
        exact hd.2
      calc tokensOf (before ++ more)
        _ = (munch (c :: rest)).1 :: tokensOf ((c :: rest).drop (munch (c :: rest)).2 ++ more) := by
            rw [← hdrop, ← hmunch]
            exact tokensOf_of_piece happend
        _ = (munch (c :: rest)).1 ::
              (tokensOf ((c :: rest).drop (munch (c :: rest)).2) ++ tokensOf more) := by
            rw [tokensOf_append hclosed hmore]
        _ = tokensOf before ++ tokensOf more := by rw [tokensOf_of_piece hrest, List.cons_append]
  termination_by before.length
  decreasing_by exact hlt

/-- **The tokens around a layout** are those before it and those behind it. -/
theorem tokens_layout {before gap : String} (hbefore : endsInComment false before.toList = false)
    (hgap : Layout gap.toList) (hne : gap ≠ "") (behind : String) :
    tokens (before ++ gap ++ behind) = tokens before ++ tokens behind := by
  have hne : gap.toList ≠ [] := fun h => hne (String.toList_eq_nil_iff.mp h)
  simp only [tokens_eq, String.toList_append, List.append_assoc]
  rw [tokensOf_append hbefore (hgap.ends hne behind.toList),
    tokensOf_congr (hgap.afterLayout_append behind.toList)]

/-- A comment at the end of a text need not end its line. -/
theorem tokens_comment {before line : String} (hbefore : endsInComment false before.toList = false)
    (hline : '\n' ∉ line.toList) : tokens (before ++ "#" ++ line) = tokens before := by
  have hskip : afterLayout false ('#' :: line.toList) = [] := by
    rw [afterLayout_hash, ← List.append_nil line.toList, afterLayout_line hline, afterLayout_nil]
  have hends : Ends ('#' :: line.toList) := by
    intro c hc
    cases hc
    exact .inr rfl
  have htext : (before ++ "#" ++ line).toList = before.toList ++ '#' :: line.toList := by simp
  rw [tokens_eq, htext, tokensOf_append hbefore hends, tokensOf_of_layout hskip, List.append_nil,
    tokens_eq]

end TensorLoops.Lexeme
