import TensorLoops.Proofs.Source.Spelling

/-!
# Proofs — Source — Spans

Nothing of a text is lost between its lexemes, and nothing of a list of tokens in its text.

A text is a layout, a piece, a layout, a piece and so on, with a layout at the end in which a
comment may be open (`Pieces`).  The lexemes of the text are its pieces, each with the bytes that it
stands at (`pieces_scanFrom`).  The tokens of lexemes are those that have a text to be read back
from, and floats (`spellable_or_real`); their texts with any layouts between them are read as what
they were (`tokens_of_prints`).
-/

namespace TensorLoops

namespace Lexeme

/-! ### Bytes -/

theorem foldl_utf8Size (cs : List Char) (n : Nat) :
    cs.foldl (fun n c => n + c.utf8Size) n = n + byteCount cs := by
  induction cs generalizing n with
  | nil => rfl
  | cons c cs ih => rw [byteCount, List.foldl_cons, List.foldl_cons, ih, ih (0 + _)]; omega

theorem byteCount_cons (c : Char) (cs : List Char) :
    byteCount (c :: cs) = c.utf8Size + byteCount cs := by
  rw [byteCount, List.foldl_cons, foldl_utf8Size, Nat.zero_add]

theorem byteCount_append (cs ds : List Char) :
    byteCount (cs ++ ds) = byteCount cs + byteCount ds := by
  rw [byteCount, List.foldl_append, foldl_utf8Size, ← byteCount]

theorem byteCount_pos {cs : List Char} (h : cs ≠ []) : 0 < byteCount cs := by
  cases cs with
  | nil => exact absurd rfl h
  | cons c cs =>
      rw [byteCount_cons]
      exact Nat.add_pos_left c.utf8Size_pos _

/-- The size of a string is the bytes of its characters. -/
theorem utf8ByteSize_eq (s : String) : s.utf8ByteSize = byteCount s.toList := by
  have hlist : ∀ cs : List Char, (String.ofList cs).utf8ByteSize = byteCount cs := by
    intro cs
    induction cs with
    | nil => rfl
    | cons c cs ih =>
        rw [String.ofList_cons, String.utf8ByteSize_append, String.utf8ByteSize_singleton, ih,
          byteCount_cons]
  rw [← hlist, String.ofList_toList]

/-- Skipping counts the bytes that it takes. -/
theorem skip_bytes (inComment : Bool) (pos : Nat) (cs : List Char) :
    (skip inComment pos cs).1 + byteCount (skip inComment pos cs).2 = pos + byteCount cs := by
  induction cs generalizing inComment pos with
  | nil => rfl
  | cons c cs ih =>
      have hskip : ∀ b, (skip b (pos + c.utf8Size) cs).1 +
          byteCount (skip b (pos + c.utf8Size) cs).2 = pos + byteCount (c :: cs) := by
        intro b
        rw [ih, byteCount_cons, Nat.add_assoc]
      unfold skip
      split
      · exact hskip _
      · split
        · exact hskip _
        · split
          · exact hskip _
          · rfl

/-! ### What lies before a piece -/

/-- A comment up to the end of the text, its line not ended. -/
def OpenComment (cs : List Char) : Prop := ∃ line, cs = '#' :: line ∧ '\n' ∉ line

/-- What is skipped is a layout, or one and an open comment if nothing is left.  By induction on the
length, since a comment is taken as a whole. -/
theorem exists_layout (cs : List Char) : ∃ gap tail, cs = gap ++ tail ∧ Layout gap ∧
    (tail = afterLayout false cs ∨ afterLayout false cs = [] ∧ OpenComment tail) := by
  match cs with
  | [] => exact ⟨[], [], rfl, .nil, .inl rfl⟩
  | c :: cs =>
      by_cases hblank : isBlank c = true
      · obtain ⟨gap, tail, hcs, hgap, htail⟩ := exists_layout cs
        refine ⟨c :: gap, tail, congrArg (c :: ·) hcs, .blank hblank hgap, ?_⟩
        rwa [afterLayout_blank hblank]
      by_cases hhash : c = '#'
      · subst hhash
        by_cases hend : '\n' ∈ cs
        · obtain ⟨line, rest, rfl, hline⟩ := List.eq_append_cons_of_mem hend
          obtain ⟨gap, tail, rfl, hgap, htail⟩ := exists_layout rest
          refine ⟨'#' :: line ++ '\n' :: gap, tail, by simp, .comment hline hgap, ?_⟩
          rw [afterLayout_hash, afterLayout_line hline, afterLayout_comment]
          exact htail
        · have hafter : afterLayout true cs = [] := by
            rw [← List.append_nil cs, afterLayout_line hend, afterLayout_nil]
          exact ⟨[], '#' :: cs, rfl, .nil, .inr ⟨(afterLayout_hash cs).trans hafter, cs, rfl, hend⟩⟩
      · exact ⟨[], c :: cs, rfl, .nil, .inl (afterLayout_other hblank hhash cs).symm⟩
  termination_by cs.length

/-- A piece stands behind a layout. -/
theorem layout_before {cs rest : List Char} {c : Char} (h : afterLayout false cs = c :: rest) :
    ∃ gap, Layout gap ∧ cs = gap ++ c :: rest := by
  obtain ⟨gap, tail, hcs, hgap, htail | ⟨hnil, -⟩⟩ := exists_layout cs
  · exact ⟨gap, hgap, by rw [hcs, htail, h]⟩
  · cases h.symm.trans hnil

/-- A layout that a text may end with: the last comment need not end its line. -/
def Trailing (cs : List Char) : Prop :=
  ∃ gap tail, cs = gap ++ tail ∧ Layout gap ∧ (tail = [] ∨ OpenComment tail)

theorem trailing_of_nil {cs : List Char} (h : afterLayout false cs = []) : Trailing cs := by
  obtain ⟨gap, tail, hcs, hgap, htail | ⟨-, htail⟩⟩ := exists_layout cs
  · exact ⟨gap, tail, hcs, hgap, .inl (htail.trans h)⟩
  · exact ⟨gap, tail, hcs, hgap, .inr htail⟩

/-! ### Texts as layouts and pieces -/

/-- The lexemes are the pieces of a text that starts at byte `pos`. -/
inductive Pieces : Nat → List Char → List Lexeme → Prop where
  | done {pos : Nat} {cs : List Char} : Trailing cs → Pieces pos cs []
  | piece {pos : Nat} {gap text rest : List Char} {token : Option Token} {ls : List Lexeme} :
      Layout gap → text ≠ [] → munch (text ++ rest) = (token, text.length) →
      Pieces (pos + byteCount gap + byteCount text) rest ls →
      Pieces pos (gap ++ text ++ rest)
        (⟨token, pos + byteCount gap, pos + byteCount gap + byteCount text⟩ :: ls)

theorem skip_eq {gap rest : List Char} (h : afterLayout false (gap ++ rest) = rest) (pos : Nat) :
    skip false pos (gap ++ rest) = (pos + byteCount gap, rest) := by
  have hbytes := skip_bytes false pos (gap ++ rest)
  rw [skip_snd, h, byteCount_append] at hbytes
  exact Prod.ext (by omega) ((skip_snd _ _ _).trans h)

/-- Behind a layout the scanner reads one piece, and goes on behind that. -/
theorem scanFrom_eq_cons {gap rest : List Char} {c : Char}
    (h : afterLayout false (gap ++ c :: rest) = c :: rest) (n pos : Nat) :
    scanFrom (n + 1) pos (gap ++ c :: rest) =
      ⟨(munch (c :: rest)).1, pos + byteCount gap,
        pos + byteCount gap + byteCount ((c :: rest).take (munch (c :: rest)).2)⟩ ::
      scanFrom n (pos + byteCount gap + byteCount ((c :: rest).take (munch (c :: rest)).2))
        ((c :: rest).drop (munch (c :: rest)).2) := by
  rw [scanFrom, skip_eq h]

/-- The lexemes do not depend on a limit that is no shorter than the text. -/
theorem scanFrom_limit {cs : List Char} {n m : Nat} (hn : cs.length ≤ n) (hm : cs.length ≤ m)
    (pos : Nat) : scanFrom n pos cs = scanFrom m pos cs := by
  induction n generalizing m pos cs with
  | zero =>
      obtain rfl := List.length_eq_zero_iff.mp (Nat.le_zero.mp hn)
      rw [scanFrom_of_layout rfl, scanFrom_of_layout rfl]
  | succ n ih =>
      cases h : afterLayout false cs with
      | nil => rw [scanFrom_of_layout h, scanFrom_of_layout h]
      | cons c rest =>
          have hlt := length_drop_munch h
          obtain ⟨m, rfl⟩ : ∃ k, m = k + 1 := ⟨m - 1, by omega⟩
          obtain ⟨gap, -, rfl⟩ := layout_before h
          rw [scanFrom_eq_cons h, scanFrom_eq_cons h]
          exact congrArg _ (ih (by omega) (by omega) _)

/-- **The lexemes of a text are its pieces.** -/
theorem pieces_scanFrom {n : Nat} {cs : List Char} (hn : cs.length ≤ n) (pos : Nat) :
    Pieces pos cs (scanFrom n pos cs) := by
  induction n generalizing pos cs with
  | zero =>
      obtain rfl := List.length_eq_zero_iff.mp (Nat.le_zero.mp hn)
      exact .done ⟨[], [], rfl, .nil, .inl rfl⟩
  | succ n ih =>
      cases h : afterLayout false cs with
      | nil =>
          rw [scanFrom_of_layout h]
          exact .done (trailing_of_nil h)
      | cons c rest =>
          have hlt := length_drop_munch h
          obtain ⟨hpos, hle⟩ := munch_length c rest
          obtain ⟨gap, hgap, rfl⟩ := layout_before h
          rw [scanFrom_eq_cons h]
          have htake : ((c :: rest).take (munch (c :: rest)).2).length = (munch (c :: rest)).2 := by
            rw [List.length_take, Nat.min_eq_left hle]
          have hne : (c :: rest).take (munch (c :: rest)).2 ≠ [] := by
            intro hnil
            rw [hnil, List.length_nil] at htake
            omega
          have hmunch : munch ((c :: rest).take (munch (c :: rest)).2 ++
              (c :: rest).drop (munch (c :: rest)).2) =
              ((munch (c :: rest)).1, ((c :: rest).take (munch (c :: rest)).2).length) := by
            rw [List.take_append_drop, htake]
          have hpiece := Pieces.piece hgap hne hmunch
            (ih (Nat.le_of_lt_succ (Nat.lt_of_lt_of_le hlt hn)) (pos + byteCount gap + _))
          rwa [List.append_assoc, List.take_append_drop] at hpiece

/-- **A text is the layouts and pieces that the scanner made of it.** -/
theorem pieces_scan (source : String) : Pieces 0 source.toList (scan source) :=
  pieces_scanFrom (Nat.le_of_eq String.length_toList) 0

/-! ### Spans -/

section Spans

variable {pos : Nat} {cs : List Char} {front ls : List Lexeme}

/-- The lexemes stand within the text, and none is empty. -/
theorem Pieces.bounds (h : Pieces pos cs ls) :
    ∀ l ∈ ls, pos ≤ l.start ∧ l.start < l.stop ∧ l.stop ≤ pos + byteCount cs := by
  induction h with
  | done _ => intro l hl; cases hl
  | @piece pos gap text rest token ls hgap hne hmunch _ ih =>
      have hpos := byteCount_pos hne
      rw [byteCount_append, byteCount_append]
      rw [List.forall_mem_cons]
      refine ⟨by dsimp only; omega, fun l hl => ?_⟩
      have := ih l hl
      omega

/-- The lexemes follow one another and do not overlap. -/
theorem Pieces.pairwise (h : Pieces pos cs ls) : ls.Pairwise fun l m => l.stop ≤ m.start := by
  induction h with
  | done _ => exact .nil
  | piece _ _ _ hrest ih => exact .cons (fun m hm => (hrest.bounds m hm).1) ih

/-- Where the last of the lexemes stops, or `pos` if there is none. -/
def lastStop : Nat → List Lexeme → Nat
  | pos, []     => pos
  | _,   l :: ls => lastStop l.stop ls

/-- The text falls into two where the last of some lexemes stops. -/
theorem Pieces.split (h : Pieces pos cs (front ++ ls)) : ∃ before rest, cs = before ++ rest ∧
    lastStop pos front = pos + byteCount before ∧ Pieces (pos + byteCount before) rest ls := by
  induction front generalizing pos cs with
  | nil => exact ⟨[], cs, rfl, rfl, h⟩
  | cons l front ih =>
      cases h with
      | @piece _ gap text rest _ _ _ _ _ hrest =>
          obtain ⟨before, rest, rfl, hstop, hpieces⟩ := ih hrest
          have hbytes : pos + byteCount (gap ++ text ++ before) =
              pos + byteCount gap + byteCount text + byteCount before := by
            rw [byteCount_append, byteCount_append]
            omega
          refine ⟨gap ++ text ++ before, rest, (List.append_assoc _ _ _).symm, ?_, ?_⟩
          · rw [hbytes, ← hstop]
            rfl
          · rwa [hbytes]

/-- The bytes of a source from `start` up to `stop` are the text. -/
def Excerpt (source : String) (start stop : Nat) (text : String) : Prop :=
  ∃ before behind, source = before ++ text ++ behind ∧ before.utf8ByteSize = start ∧
    start + text.utf8ByteSize = stop

/-- A part of a text is the excerpt between its byte positions. -/
theorem excerpt_of_toList {source : String} {before text behind : List Char}
    (h : source.toList = before ++ text ++ behind) :
    Excerpt source (byteCount before) (byteCount before + byteCount text) (.ofList text) := by
  refine ⟨.ofList before, .ofList behind, ?_, ?_, ?_⟩
  · rw [← String.ofList_toList (s := source), h, String.ofList_append, String.ofList_append]
  · rw [utf8ByteSize_eq, String.toList_ofList]
  · rw [utf8ByteSize_eq, String.toList_ofList]

/-- **A lexeme and the text before it.** -/
theorem excerpt_of_scan {source : String} {l : Lexeme} (h : scan source = front ++ l :: ls) :
    ∃ gap text, Excerpt source (lastStop 0 front) l.start gap ∧ Layout gap.toList ∧
      Excerpt source l.start l.stop text ∧ text ≠ "" := by
  have hpieces := pieces_scan source
  rw [h] at hpieces
  obtain ⟨before, rest, hsource, hstop, hpieces⟩ := hpieces.split
  rw [Nat.zero_add] at hstop hpieces
  cases hpieces with
  | @piece _ gap text rest _ _ hgap hne _ _ =>
      have hgapText : source.toList = before ++ gap ++ (text ++ rest) := by simp [hsource]
      have hpieceText : source.toList = (before ++ gap) ++ text ++ rest := by simp [hsource]
      have hpiece := excerpt_of_toList hpieceText
      rw [byteCount_append] at hpiece
      refine ⟨.ofList gap, .ofList text, hstop ▸ excerpt_of_toList hgapText, ?_, hpiece, ?_⟩
      · rwa [String.toList_ofList]
      · intro hnil
        exact hne (String.ofList_eq_empty_iff.mp hnil)

/-- What is left behind the last lexeme. -/
theorem excerpt_behind_scan (source : String) : ∃ gap,
    Excerpt source (lastStop 0 (scan source)) source.utf8ByteSize gap ∧ Trailing gap.toList := by
  have hpieces := pieces_scan source
  rw [← List.append_nil (scan source)] at hpieces
  obtain ⟨before, rest, hsource, hstop, hpieces⟩ := hpieces.split
  rw [Nat.zero_add] at hstop
  cases hpieces with
  | done htrailing =>
      have hrest : source.toList = before ++ rest ++ [] := by simp [hsource]
      have hexcerpt := excerpt_of_toList hrest
      rw [← byteCount_append, ← hsource, ← utf8ByteSize_eq, ← hstop] at hexcerpt
      exact ⟨.ofList rest, hexcerpt, by rwa [String.toList_ofList]⟩

end Spans

/-! ### Tokens and their texts -/

/-- A word that is no keyword is a name. -/
theorem spellable_wordToken {name : String} (h : IsWord name) :
    (wordToken name.toList).Spellable := by
  by_cases hkeyword : name ∈ keywords
  · simp only [keywords, List.mem_cons, List.not_mem_nil, or_false] at hkeyword
    rcases hkeyword with rfl | rfl | rfl | rfl <;> exact trivial
  · rw [wordToken_of_name hkeyword]
    exact ⟨h, hkeyword⟩

/-- A number is spelled by its digits, or is a real one. -/
theorem spellable_or_real_of_number {cs : List Char} {t : Token} (h : (number cs).1 = some t) :
    t.Spellable ∨ ∃ x, t = .real x := by
  unfold number at h
  dsimp only at h
  split at h
  · split at h <;> cases h <;> exact .inr ⟨_, rfl⟩
  · split at h
    · cases h
      exact .inr ⟨_, rfl⟩
    · dsimp only at h
      split at h
      · cases h
        exact .inl ‹_›
      · cases h

theorem spellable_of_operator {cs : List Char} {t : Token} (h : (operator cs).1 = some t) :
    t.Spellable := by
  unfold operator at h
  split at h <;> cases h <;> exact trivial

/-- A token that is read has a text to be read back from, unless it is a float. -/
theorem spellable_or_real {cs : List Char} {t : Token} (h : (munch cs).1 = some t) :
    t.Spellable ∨ ∃ x, t = .real x := by
  unfold munch at h
  split at h
  · cases h
  · rename_i c cs
    split at h
    · rename_i hstart
      have hpart := isWordPart_of_isWordStart hstart
      have hword : IsWord (.ofList ((c :: cs).takeWhile isWordPart)) := by
        refine ⟨c, cs.takeWhile isWordPart, ?_, hstart, List.all_takeWhile⟩
        rw [String.toList_ofList, List.takeWhile_cons_of_pos hpart]
      have hspellable := spellable_wordToken hword
      rw [String.toList_ofList] at hspellable
      cases h
      exact .inl hspellable
    · split at h
      · exact spellable_or_real_of_number h
      · exact .inl (spellable_of_operator h)

theorem Pieces.token {pos : Nat} {cs : List Char} {ls : List Lexeme} (h : Pieces pos cs ls) :
    ∀ l ∈ ls, ∃ text, (munch text).1 = l.token := by
  induction h with
  | done _ => intro l hl; cases hl
  | piece _ _ hmunch _ ih => exact List.forall_mem_cons.mpr ⟨⟨_, congrArg Prod.fst hmunch⟩, ih⟩

/-- No token goes on with a blank or a comment. -/
theorem not_extends_layout (t : Token) : [' ', '\t', '\n', '\r', '#'].any t.Extends = false := by
  cases t <;> rfl

theorem tokensOf_text_alone {t : Token} (h : t.Spellable) : tokensOf t.text.toList = [some t] := by
  have htext : tokensOf (t.text.toList ++ []) = some t :: tokensOf [] := tokensOf_text h (by simp)
  rwa [List.append_nil] at htext

/-- The tokens that a text can hold, floats apart, are those that are read back. -/
theorem spellable_iff {t : Token} :
    t.Spellable ↔ (∀ x, t ≠ .real x) ∧ ∃ source, some t ∈ tokens source := by
  constructor
  · intro h
    refine ⟨fun x hx => ?_, t.text, ?_⟩
    · subst hx
      exact h
    · rw [tokens_eq, tokensOf_text_alone h]
      exact List.mem_singleton_self _
  · rintro ⟨hreal, source, hmem⟩
    obtain ⟨l, hl, htoken⟩ := List.mem_map.mp hmem
    obtain ⟨text, htext⟩ := (pieces_scan source).token l hl
    rcases spellable_or_real (htext.trans htoken) with h | ⟨x, hx⟩
    · exact h
    · exact absurd hx (hreal x)

/-- The texts of the tokens, with a layout between any two. -/
inductive Prints : List Token → String → Prop where
  | nil : Prints [] ""
  | single (t : Token) : Prints [t] t.text
  | cons {t u : Token} {ts : List Token} {gap text : String} : Layout gap.toList → gap ≠ "" →
      Prints (u :: ts) text → Prints (t :: u :: ts) (t.text ++ gap ++ text)

/-- **Tokens are read back from their texts**, whatever the layouts between them. -/
theorem tokens_of_prints {ts : List Token} {text : String} (h : Prints ts text)
    (hts : ∀ t ∈ ts, t.Spellable) : tokens text = ts.map some := by
  rw [tokens_eq]
  induction h with
  | nil => rfl
  | single t => exact tokensOf_text_alone (hts t (List.mem_singleton_self t))
  | @cons t u ts gap text hgap hne _ ih =>
      obtain ⟨ht, hts⟩ := List.forall_mem_cons.mp hts
      have hne : gap.toList ≠ [] := fun h => hne (String.toList_eq_nil_iff.mp h)
      have hends := (hgap.ends hne text.toList).head (not_extends_layout t)
      rw [String.toList_append, String.toList_append, List.append_assoc, tokensOf_text ht hends,
        tokensOf_congr (hgap.afterLayout_append text.toList), ih hts]
      rfl

/-- A blank is a layout. -/
theorem prints_spaced (ts : List Token) : Prints ts (" ".intercalate (ts.map Token.text)) := by
  induction ts with
  | nil => exact .nil
  | cons t ts ih =>
      cases ts with
      | nil => exact .single t
      | cons u ts =>
          rw [List.map_cons, List.map_cons, String.intercalate_cons_cons]
          exact .cons (.blank (by decide) .nil) (by decide) ih

/-- **Tokens survive printing, and texts survive reading.**  The tokens that some text holds, floats
apart, are the keywords, operators and brackets, the names that are no keywords and the integers
below `2 ^ 63`.  A list of such tokens is read back from their texts with a blank between any two,
or with any other blanks and comments.  Of every text the lexemes, errors among them, are pieces
that are not empty, stand within it and follow one another without overlap; before each of them,
from the end of the one before it, there are only blanks and comments, and so there are behind the
last. -/
theorem tokens_survive_printing :
    (∀ t : Token, t.Spellable ↔ (∀ x, t ≠ .real x) ∧ ∃ source, some t ∈ tokens source) ∧
    (∀ ts : List Token, (∀ t ∈ ts, t.Spellable) →
      tokens (" ".intercalate (ts.map Token.text)) = ts.map some ∧
      ∀ text, Prints ts text → tokens text = ts.map some) ∧
    ∀ source : String,
      (∀ l ∈ scan source, l.start < l.stop ∧ l.stop ≤ source.utf8ByteSize) ∧
      (scan source).Pairwise (fun l m => l.stop ≤ m.start) ∧
      (∀ front l back, scan source = front ++ l :: back → ∃ gap text,
        Excerpt source (lastStop 0 front) l.start gap ∧ Layout gap.toList ∧
          Excerpt source l.start l.stop text ∧ text ≠ "") ∧
      ∃ gap, Excerpt source (lastStop 0 (scan source)) source.utf8ByteSize gap ∧
        Trailing gap.toList := by
  refine ⟨fun t => spellable_iff, fun ts hts => ?_, fun source => ?_⟩
  · exact ⟨tokens_of_prints (prints_spaced ts) hts, fun text h => tokens_of_prints h hts⟩
  · refine ⟨fun l hl => ?_, (pieces_scan source).pairwise, fun front l back h => excerpt_of_scan h,
      excerpt_behind_scan source⟩
    obtain ⟨-, hlt, hle⟩ := (pieces_scan source).bounds l hl
    rw [Nat.zero_add, ← utf8ByteSize_eq] at hle
    exact ⟨hlt, hle⟩

/-- Tokens that start alike, and the largest integer. -/
def lookalikes : List Token :=
  [.letWord, .ident "lets", .equals, .eqEq, .int 9223372036854775807]

theorem prints_lookalikes :
    Prints lookalikes ("let" ++ "#\n" ++ ("lets" ++ "\t" ++ ("=" ++ " # =\n" ++
      ("==" ++ "\r\n" ++ (Token.int 9223372036854775807).text)))) := by
  have hblank : ∀ c, isBlank c → Layout [c] := fun c hc => .blank hc .nil
  refine .cons (@Layout.comment [] [] (by decide) .nil) (by decide) ?_
  refine .cons (hblank '\t' (by decide)) (by decide) ?_
  refine .cons (.blank (by decide) (@Layout.comment [' ', '='] [] (by decide) .nil)) (by decide) ?_
  exact .cons (.blank (by decide) (hblank '\n' (by decide))) (by decide) (.single _)

/-- The texts of the tokens, and a text with errors and an open comment. -/
theorem tokens_survive_printing_lookalikes :
    (∀ t ∈ lookalikes, t.Spellable) ∧
    tokens "let lets = == 9223372036854775807" = lookalikes.map some ∧
    tokens "let#\nlets\t= # =\n==\r\n9223372036854775807" = lookalikes.map some ∧
    scan "a $é #\n9223372036854775808# b" =
      [⟨some (.ident "a"), 0, 1⟩, ⟨none, 2, 3⟩, ⟨none, 3, 5⟩, ⟨none, 8, 27⟩] ∧
    (∃ gap, Excerpt "a $é #\n9223372036854775808# b" 5 8 gap ∧ Layout gap.toList) ∧
    ∃ gap, Excerpt "a $é #\n9223372036854775808# b" 27 30 gap ∧ Trailing gap.toList := by
  obtain ⟨-, hprint, hspans⟩ := tokens_survive_printing
  have hspellable : ∀ t ∈ lookalikes, t.Spellable := by
    have hname : IsName "lets" := ⟨⟨'l', "ets".toList, rfl, by decide, by decide⟩, by decide⟩
    have hint : 9223372036854775807 < Nat.pow 2 63 := by decide
    simp only [lookalikes, List.forall_mem_cons]
    exact ⟨trivial, hname, trivial, trivial, hint, by simp⟩
  have hscan : scan "a $é #\n9223372036854775808# b" =
      [⟨some (.ident "a"), 0, 1⟩, ⟨none, 2, 3⟩, ⟨none, 3, 5⟩, ⟨none, 8, 27⟩] := by decide +kernel
  obtain ⟨hspaced, hlaid⟩ := hprint lookalikes hspellable
  obtain ⟨-, -, hbefore, hbehind⟩ := hspans "a $é #\n9223372036854775808# b"
  rw [hscan] at hbefore hbehind
  obtain ⟨gap, -, hgap, hlayout, -⟩ :=
    hbefore [⟨some (.ident "a"), 0, 1⟩, ⟨none, 2, 3⟩, ⟨none, 3, 5⟩] ⟨none, 8, 27⟩ [] rfl
  have hspacedText : " ".intercalate (lookalikes.map Token.text) =
      "let lets = == 9223372036854775807" := by decide +kernel
  have hlaidText : "let" ++ "#\n" ++ ("lets" ++ "\t" ++ ("=" ++ " # =\n" ++
      ("==" ++ "\r\n" ++ (Token.int 9223372036854775807).text))) =
      "let#\nlets\t= # =\n==\r\n9223372036854775807" := by decide +kernel
  exact ⟨hspellable, hspacedText ▸ hspaced, hlaidText ▸ hlaid _ prints_lookalikes, hscan,
    ⟨gap, hgap, hlayout⟩, hbehind⟩

end Lexeme

end TensorLoops
