import TensorLoops.Proofs.Source.Script

/-!
# Proofs — Source — Position

Where reading stops over the spelling of a text.  A reader names the place of the lexeme that it
cannot go on to; a parser with a cursor has only the bytes that the cursor reached last, which may
be those of a lexeme looked at in advance.  A `Desk` is such a parser at work: its current token,
the cursor and its notes.  A script is carried out on it one question or step at a time
(`Script.go`).

While the lexemes at the desk are those of the reading (`Desk.Stands`), what was looked at is what
comes next, and all that the cursor has left behind spells tokens.  Both are kept by every question
and step, so that the two come to the same (`go_outcome`); and where a step fails, it does so at the
first lexeme that spells no token.
-/

namespace TensorLoops

/-! ### Cursors -/

namespace Cursor

variable {c : Cursor}

/-- Looking ahead reaches the bytes of the next lexeme, if what was looked at before is that. -/
theorem look_eq (h : c.looked = true → c.span = c.nextSpan) :
    c.look = (c.rest.head?, ⟨c.rest, true, c.nextSpan, c.size⟩) := by
  unfold look
  by_cases hlooked : c.looked = true
  · rw [if_pos hlooked, ← h hlooked, ← hlooked]
  · rw [if_neg hlooked]

theorem next_eq (h : c.looked = true → c.span = c.nextSpan) :
    c.next = (c.rest.head?, ⟨c.rest.tail, false, c.nextSpan, c.size⟩) := by
  rw [next, look_eq h]

end Cursor

namespace Program

/-! ### Desks -/

/-- A parser at work. -/
structure Desk where
  /-- The current token; `none` at the start and at the end. -/
  current : Option Token
  cursor  : Cursor
  /-- What has been read. -/
  notes   : Reading

namespace Desk

/-- The start of a text, with nothing read. -/
def start (source : String) : Desk :=
  ⟨none, .ofString source, ⟨[], ⟨.empty, [], [], []⟩, [], "", 0⟩⟩

/-- Look at the token after the current one. -/
def look (d : Desk) : Option Token × Desk :=
  (d.cursor.look.1.bind (·.token), { d with cursor := d.cursor.look.2 })

/-- Go on to the next lexeme.  One that spells no token is reported at the bytes that the cursor
reached last. -/
def next (d : Desk) : Except Error Unit × Desk :=
  match d.cursor.next with
  | (none, c)                  => (.ok (), { d with current := none, cursor := c })
  | (some ⟨some t, _, _⟩, c) => (.ok (), { d with current := some t, cursor := c })
  | (some ⟨none, _, _⟩, c)   =>
      (.error (.lexical c.span.1), { d with current := none, cursor := c })

/-- The number of lexemes left, the current one among them. -/
def left (d : Desk) : Nat := (if d.current.isSome then 1 else 0) + d.cursor.rest.length

end Desk

open Reading

/-- Carry out a script.  A failure leaves the desk as it is. -/
def Script.go {α : Type} : Script α → Desk → Except Error α × Desk
  | done a,      d => (.ok a, d)
  | failed e _,  d => (.error e, d)
  | current k,   d => (k d.current).go d
  | following k, d => (k d.look.1).go d.look.2
  | left k,      d => (k d.left).go d
  | advance k,   d =>
      match d.next with
      | (.ok _, d')    => k.go d'
      | (.error e, d') => (.error e, d')
  | consult k,   d => (k d.notes).go d
  | note n k,    d => k.go { d with notes := n.notes }

/-! ### What is kept -/

namespace Desk

/-- The cursor has left tokens behind, and if it has looked ahead it was at what comes next. -/
structure Faithful (ls : List Lexeme) (d : Desk) : Prop where
  read   : ∃ before, ls = before ++ d.cursor.rest ∧ ∀ m ∈ before, m.token ≠ none
  looked : d.cursor.looked = true → d.cursor.span = d.cursor.nextSpan

/-- The desk stands where the reading does. -/
structure Stands (ls : List Lexeme) (d : Desk) (r : Reading) : Prop extends Faithful ls d where
  notes : d.notes = r.notes
  here  : d.current = none ∧ r.rest = [] ∧ d.cursor.rest = [] ∨
    ∃ t start stop, d.current = some t ∧ r.rest = ⟨some t, start, stop⟩ :: d.cursor.rest

/-- What a script and its reader come to.  They fail alike, and over the spelling of a lexeme only
at the first that spells no token, all before it having been taken. -/
inductive Outcome {α : Type} (ls : List Lexeme) :
    Except Error α × Desk → Except Error (α × Reading) → Prop where
  | ok {a d r} : Stands ls d r → Outcome ls (.ok a, d) (.ok (a, r))
  | failed {e d} : (∀ p, e ≠ .lexical p) → Outcome ls (.error e, d) (.error e)
  | lexical {before start stop d} : ls = before ++ ⟨none, start, stop⟩ :: d.cursor.rest →
      (∀ m ∈ before, m.token ≠ none) →
      Outcome ls (.error (.lexical start), d) (.error (.lexical start))

variable {ls : List Lexeme} {d : Desk} {r : Reading}

theorem Stands.current_eq (h : Stands ls d r) : d.current = r.token? := by
  rcases h.here with ⟨hnone, hrest, -⟩ | ⟨t, start, stop, hsome, hrest⟩
  · rw [hnone, token?, hrest]
    rfl
  · rw [hsome, token?, hrest]
    rfl

/-- The lexemes after the current one are those that the cursor has left. -/
theorem Stands.tail_eq (h : Stands ls d r) : r.rest.tail = d.cursor.rest := by
  rcases h.here with ⟨-, hrest, hcursor⟩ | ⟨t, start, stop, -, hrest⟩
  · rw [hrest, hcursor]
    rfl
  · rw [hrest]
    rfl

theorem Stands.left_eq (h : Stands ls d r) : d.left = r.rest.length := by
  rcases h.here with ⟨hnone, hrest, hcursor⟩ | ⟨t, start, stop, hsome, hrest⟩
  · rw [left, hnone, hrest, hcursor]
    rfl
  · rw [left, hsome, hrest, List.length_cons, Nat.add_comm]
    rfl

/-- At the end of the text no lexeme is left, and those before it were tokens. -/
theorem Stands.ended (h : Stands ls d r) (hend : r.token? = none) :
    d.cursor.rest = [] ∧ ∀ l ∈ ls, l.token ≠ none := by
  have hcurrent : d.current = none := h.current_eq.trans hend
  have hrest : d.cursor.rest = [] := by
    rcases h.here with ⟨-, -, hrest⟩ | ⟨t, _, _, hsome, -⟩
    · exact hrest
    · cases hcurrent.symm.trans hsome
  obtain ⟨before, hls, htokens⟩ := h.read
  rw [hrest, List.append_nil] at hls
  exact ⟨hrest, hls ▸ htokens⟩

theorem Faithful.look (h : Faithful ls d) : Faithful ls d.look.2 := by
  rw [Desk.look, Cursor.look_eq h.looked]
  exact ⟨h.read, fun _ => rfl⟩

/-- Looking ahead shows both the same, and moves neither. -/
theorem Stands.look (h : Stands ls d r) : d.look.1 = r.following? ∧ Stands ls d.look.2 r := by
  refine ⟨?_, h.toFaithful.look, h.notes, ?_⟩
  · rw [following?, h.tail_eq]
    rfl
  · rw [Desk.look, Cursor.look_eq h.looked]
    exact h.here

/-- **Going on.**  The cursor and the reader come to the same lexeme; if it spells no token, the
bytes that the cursor reached last are its own. -/
theorem next_outcome (h : Faithful ls d) (hnotes : d.notes = r.notes) :
    Outcome ls d.next (Reader.enter d.cursor.rest r) := by
  obtain ⟨before, hls, htokens⟩ := h.read
  rw [next, Cursor.next_eq h.looked, Cursor.nextSpan]
  generalize d.cursor.rest = rest at hls ⊢
  match rest with
  | [] => exact .ok ⟨⟨⟨before, hls, htokens⟩, nofun⟩, hnotes, .inl ⟨rfl, rfl, rfl⟩⟩
  | ⟨some t, start, stop⟩ :: rest =>
      have hread : ls = (before ++ [⟨some t, start, stop⟩]) ++ rest := by
        rw [hls, List.append_assoc, List.singleton_append]
      have hmore : ∀ m ∈ before ++ [(⟨some t, start, stop⟩ : Lexeme)], m.token ≠ none :=
        List.forall_mem_append.mpr ⟨htokens, List.forall_mem_singleton.mpr nofun⟩
      exact .ok ⟨⟨⟨_, hread, hmore⟩, nofun⟩, hnotes, .inr ⟨t, start, stop, rfl, rfl⟩⟩
  | ⟨none, start, stop⟩ :: rest => exact .lexical hls htokens

/-- A step and then a script. -/
theorem Outcome.andThen {α : Type} {k : Script α} {o : Except Error Unit × Desk} {x : Reader Unit}
    (h : Outcome ls o (x r)) (hk : ∀ {d r}, Stands ls d r → Outcome ls (k.go d) (k.run r)) :
    Outcome ls (match o with
      | (.ok _, d')    => k.go d'
      | (.error e, d') => (.error e, d')) ((x >>= fun _ => k.run) r) := by
  show Outcome ls _ (x r >>= fun p => k.run p.2)
  generalize x r = o' at h ⊢
  cases h with
  | ok h => exact hk h
  | failed he => exact .failed he
  | lexical hls htokens => exact .lexical hls htokens

/-- **A script at a desk does what its reader does**, question by question. -/
theorem go_outcome {α : Type} (s : Script α) (h : Stands ls d r) :
    Outcome ls (s.go d) (s.run r) := by
  induction s generalizing d r with
  | done a => exact .ok h
  | failed e he => exact .failed he
  | current k ih =>
      show Outcome ls ((k d.current).go d) ((k r.token?).run r)
      rw [h.current_eq]
      exact ih _ h
  | following k ih =>
      show Outcome ls ((k d.look.1).go d.look.2) ((k r.following?).run r)
      rw [h.look.1]
      exact ih _ h.look.2
  | left k ih =>
      show Outcome ls ((k d.left).go d) ((k r.rest.length).run r)
      rw [h.left_eq]
      exact ih _ h
  | consult k ih =>
      show Outcome ls ((k d.notes).go d) ((k r.notes).run r)
      rw [h.notes]
      exact ih _ h
  | note n k ih =>
      have hnotes : Stands ls { d with notes := n.notes } { n with rest := r.rest } :=
        ⟨⟨h.read, h.looked⟩, rfl, h.here⟩
      exact ih hnotes
  | advance k ih =>
      have hnext := next_outcome h.toFaithful h.notes
      rw [← h.tail_eq] at hnext
      exact Outcome.andThen (x := Reader.advance) hnext ih

end Desk

/-- Statements are read up to the end. -/
theorem token?_of_statements : ∀ {n : Nat} {r r' : Reading} {u : Unit},
    Reader.statements n r = .ok (u, r') → r'.token? = none
  | 0, _, _, _, h => by cases h
  | n + 1, r, r', u, h => by
      rw [Reader.statements, Reader.current_bind] at h
      cases ht : r.token? with
      | none =>
          rw [ht] at h
          obtain ⟨-, rfl⟩ := Prod.mk.inj (step_pure_eq_ok.mp h)
          exact ht
      | some t =>
          rw [ht] at h
          obtain ⟨_, r₁, -, hrest⟩ := step_bind_eq_ok.mp h
          exact token?_of_statements hrest

/-- A script carried out on a text from its start does what its reader does. -/
theorem onText_outcome {α : Type} (s : Script α) (source : String) :
    Desk.Outcome (Lexeme.scan source) ((Script.advance s).go (.start source))
      (Reader.onText s.run source) := by
  have hstart : Desk.Faithful (Lexeme.scan source) (.start source) := ⟨⟨[], rfl, nofun⟩, nofun⟩
  have hnext := Desk.next_outcome (r := ⟨[], ⟨.empty, [], [], []⟩, [], "", 0⟩) hstart rfl
  exact hnext.andThen (x := Reader.enter (Lexeme.scan source)) fun h => Desk.go_outcome s h

/-- The script reads programs: it runs as the reader of their statements does. -/
def Script.ReadsPrograms (s : Script Unit) : Prop :=
  ∀ r, s.run r = (do Reader.statements (← Reader.allowance) : Reader Unit) r

/-- **Errors of spelling are reported where they are.**  The reader of programs follows a script.
Carried out at a desk, where it sees the text by a cursor only and an error is placed at the bytes
that the cursor reached last, every such script comes to the same on every text.  If that is an
error of spelling, its place is the start of the first lexeme that spells no token, and all lexemes
before it have been taken; if a program is read, all have been taken and each of them spells a
token. -/
theorem parse_position : (∃ s : Script Unit, s.ReadsPrograms) ∧
    ∀ s : Script Unit, s.ReadsPrograms → ∀ source : String,
      ∃ result d, (Script.advance s).go (.start source) = (result, d) ∧
      parse source = result.map (fun _ => d.notes.program) ∧
      (∀ p, parse source = .error (.lexical p) → ∃ before l,
        Lexeme.scan source = before ++ l :: d.cursor.rest ∧ (∀ m ∈ before, m.token ≠ none) ∧
        l.token = none ∧ l.start = p) ∧
      ∀ program, parse source = .ok program →
        d.cursor.rest = [] ∧ ∀ l ∈ Lexeme.scan source, l.token ≠ none := by
  refine ⟨Reader.allowance_scripted.bind Reader.statements_scripted, fun s hs source => ?_⟩
  have hparse : parse source = (Reader.onText s.run source >>= fun p => .ok p.2.program) := by
    rw [funext hs]
    rfl
  have hend : ∀ u r, Reader.onText s.run source = .ok (u, r) → r.token? = none := by
    intro u r h
    obtain ⟨_, r₁, -, h⟩ := step_bind_eq_ok.mp h
    rw [hs] at h
    exact token?_of_statements h
  have hrun := onText_outcome s source
  rw [hparse]
  generalize (Script.advance s).go (.start source) = o,
    Reader.onText s.run source = x at hrun hend ⊢
  cases hrun with
  | failed he =>
      exact ⟨_, _, rfl, rfl, fun p h => absurd (Except.error.inj h) (he p), fun _ h => by cases h⟩
  | @lexical before start stop d hls htokens =>
      refine ⟨_, d, rfl, rfl, fun p h => ?_, fun _ h => by cases h⟩
      exact ⟨before, _, hls, htokens, rfl, Error.lexical.inj (Except.error.inj h)⟩
  | @ok u d r h =>
      have hprogram : d.notes.program = r.program := by
        rw [h.notes]
        rfl
      exact ⟨_, d, rfl, congrArg Except.ok hprogram.symm, fun _ h => (by cases h),
        fun _ _ => h.ended (hend u r rfl)⟩

/-- The `$` has been looked at before it is come to, since a name may be called. -/
theorem parse_position_lookahead :
    parse "let y = grid[i: 4] => i $;" = .error (.lexical 24) ∧
    (∃ before l rest, Lexeme.scan "let y = grid[i: 4] => i $;" = before ++ l :: rest ∧
      (∀ m ∈ before, m.token ≠ none) ∧ l.token = none ∧ l.start = 24) ∧
    (∃ program, parse "let y = grid[i: 4] => i;" = .ok program) ∧
    ∀ l ∈ Lexeme.scan "let y = grid[i: 4] => i;", l.token ≠ none := by
  have herror : (parse "let y = grid[i: 4] => i $;").map (fun _ => ()) =
      .error (.lexical 24) := by decide +kernel
  have hok : (parse "let y = grid[i: 4] => i;").map (fun _ => ()) = .ok () := by decide +kernel
  have herror : parse "let y = grid[i: 4] => i $;" = .error (.lexical 24) := by
    cases h : parse "let y = grid[i: 4] => i $;" with
    | ok program => rw [h] at herror; cases herror
    | error e => rw [h] at herror; exact congrArg _ (Except.error.inj herror)
  have hok : ∃ program, parse "let y = grid[i: 4] => i;" = .ok program := by
    cases h : parse "let y = grid[i: 4] => i;" with
    | ok program => exact ⟨program, rfl⟩
    | error e => rw [h] at hok; cases hok
  obtain ⟨⟨s, hs⟩, hposition⟩ := parse_position
  obtain ⟨_, d, -, -, hlexical, -⟩ := hposition s hs "let y = grid[i: 4] => i $;"
  obtain ⟨before, l, hscan, htokens, hnone, hstart⟩ := hlexical 24 herror
  obtain ⟨_, _, -, -, -, hread⟩ := hposition s hs "let y = grid[i: 4] => i;"
  obtain ⟨program, hprogram⟩ := hok
  exact ⟨herror, ⟨before, l, _, hscan, htokens, hnone, hstart⟩, ⟨program, hprogram⟩,
    (hread program hprogram).2⟩

end Program

end TensorLoops
