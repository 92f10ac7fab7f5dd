import TensorLoops.Proofs.Source.Script
import TensorLoops.Proofs.Source.Tokens

/-!
# Proofs — Source — Formatting

What is read off a text depends on its tokens alone.  Two readings are alike when they differ only
in where their lexemes stand (`Reading.Alike`); a reader is blind when it takes two such readings to
the same answer, or to the same error, and leaves them alike (`Reader.Blind`).  The questions and
steps of a script are blind because they look at the tokens of lexemes, every reader follows a
script (`Scripted.blind`), and so two texts with the same tokens are the same program
(`parse_ignores_formatting`).
-/

namespace TensorLoops.Program

/-! ### Readings that differ in their places -/

/-- The same tokens, each piece spelling one. -/
def SameTokens (ls ls' : List Lexeme) : Prop :=
  ls.map (·.token) = ls'.map (·.token) ∧ none ∉ ls.map (·.token)

namespace SameTokens

variable {ls ls' : List Lexeme}

theorem tail (h : SameTokens ls ls') : SameTokens ls.tail ls'.tail := by
  refine ⟨?_, fun hmem => h.2 ?_⟩
  · rw [List.map_tail, List.map_tail, h.1]
  · rw [List.map_tail] at hmem
    exact List.mem_of_mem_tail hmem

/-- Equal tokens are equally many. -/
theorem length_eq (h : SameTokens ls ls') : ls.length = ls'.length := by
  simpa using congrArg List.length h.1

/-- Equal tokens begin with the same. -/
theorem head_token (h : SameTokens ls ls') :
    ls.head?.bind (·.token) = ls'.head?.bind (·.token) := by
  have hhead : (ls.map (·.token)).head? = (ls'.map (·.token)).head? := congrArg List.head? h.1
  rw [List.head?_map, List.head?_map] at hhead
  simpa [Option.bind_map] using congrArg (Option.bind · id) hhead

end SameTokens

/-- The readings differ only in where their lexemes stand. -/
def Reading.Alike (r r' : Reading) : Prop :=
  ∃ rest, SameTokens r.rest rest ∧ r' = { r with rest }

theorem Reading.Alike.tokens {r r' : Reading} (h : Alike r r') : SameTokens r.rest r'.rest := by
  obtain ⟨rest, htokens, rfl⟩ := h
  exact htokens

open Reading

namespace Reader

/-- Both runs return the same and leave their readings alike, or both fail over the same. -/
inductive SameOutcome {α : Type} :
    Except Error (α × Reading) → Except Error (α × Reading) → Prop where
  | ok {a r r'} : Alike r r' → SameOutcome (.ok (a, r)) (.ok (a, r'))
  | error {e} : SameOutcome (.error e) (.error e)

/-- The step does not see where lexemes stand. -/
def Blind {α : Type} (x : Reader α) : Prop := ∀ r r', Alike r r' → SameOutcome (x r) (x r')

namespace Blind

variable {α β : Type}

theorem pure {a : α} : Blind (pure a) := fun _ _ h => .ok h

/-- Two runs in lockstep: where the first parts return the same, so do the second ones. -/
theorem bind {x : Reader α} {f : α → Reader β} (hx : Blind x) (hf : ∀ a, Blind (f a)) :
    Blind (x >>= f) := by
  intro r r' h
  show SameOutcome (x r >>= fun p => f p.1 p.2) (x r' >>= fun p => f p.1 p.2)
  have hx := hx r r' h
  generalize x r = o, x r' = o' at hx ⊢
  cases hx with
  | ok h => exact hf _ _ _ h
  | error => exact .error

/-- A step that uses of a reading what alike readings share. -/
theorem reads {p : Reading → β} {f : β → Reader α} (hp : ∀ r r', Alike r r' → p r = p r')
    (hf : ∀ b, Blind (f b)) : Blind (get >>= fun r => f (p r)) := by
  intro r r' h
  show SameOutcome (f (p r) r) (f (p r') r')
  rw [hp r r' h]
  exact hf _ r r' h

end Blind

/-! ### Readers of tokens -/

theorem current_blind : Blind current :=
  .reads (p := token?) (fun _ _ h => h.tokens.head_token) fun _ => .pure

theorem following_blind : Blind following :=
  .reads (p := following?) (fun _ _ h => h.tokens.tail.head_token) fun _ => .pure

/-- To stand at lexemes is blind, the first of them spelling a token. -/
theorem enter_sameOutcome {ls ls' : List Lexeme} (h : SameTokens ls ls') {r r' : Reading}
    (hr : ∃ rest, r' = { r with rest }) : SameOutcome (enter ls r) (enter ls' r') := by
  obtain ⟨rest, rfl⟩ := hr
  match ls, ls' with
  | [], [] => exact .ok ⟨[], h, rfl⟩
  | [], _ :: _ => exact absurd h.length_eq (by simp)
  | _ :: _, [] => exact absurd h.length_eq (by simp)
  | ⟨none, _, _⟩ :: _, _ :: _ => exact absurd h.2 (by simp)
  | ⟨some t, _, _⟩ :: _, ⟨none, _, _⟩ :: _ => exact absurd h.1 (by simp)
  | ⟨some t, _, _⟩ :: _, ⟨some t', start, stop⟩ :: ls' =>
      exact .ok ⟨⟨some t', start, stop⟩ :: ls', h, rfl⟩

/-- Going on does not depend on where tokens stand. -/
theorem advance_blind : Blind advance := by
  rintro r _ ⟨rest, htokens, rfl⟩
  exact enter_sameOutcome htokens.tail ⟨rest, rfl⟩

/-- **A script is blind**, question by question. -/
theorem run_blind {α : Type} : ∀ s : Script α, Blind s.run
  | .done _ => .pure
  | .failed _ _ => fun _ _ _ => .error
  | .current k => current_blind.bind fun t => run_blind (k t)
  | .following k => following_blind.bind fun t => run_blind (k t)
  | .left k => .reads (p := fun r => r.rest.length) (fun _ _ h => h.tokens.length_eq)
      fun n => run_blind (k n)
  | .advance k => advance_blind.bind fun _ => run_blind k
  | .consult k => .reads (p := notes) (fun _ _ ⟨_, _, h⟩ => h ▸ rfl) fun r => run_blind (k r)
  | .note n k => by
      have hnote : Blind (modify fun r : Reading => { n with rest := r.rest }) := by
        rintro r _ ⟨rest, htokens, rfl⟩
        exact .ok ⟨rest, htokens, rfl⟩
      exact hnote.bind fun _ => run_blind k

/-- What follows a script does not depend on where tokens stand. -/
theorem Scripted.blind {α : Type} {x : Reader α} (h : Scripted x) : Blind x := by
  obtain ⟨s, hs⟩ := h
  intro r r' hr
  rw [← hs r, ← hs r']
  exact run_blind s r r' hr

/-- A blind reader does the same on texts with the same tokens. -/
theorem onText_sameOutcome {α : Type} {step : Reader α} (hstep : Blind step)
    {source source' : String} (h : Lexeme.tokens source = Lexeme.tokens source')
    (hspelled : none ∉ Lexeme.tokens source) :
    SameOutcome (onText step source) (onText step source') := by
  have htokens : SameTokens (Lexeme.scan source) (Lexeme.scan source') := ⟨h, hspelled⟩
  show SameOutcome (enter (Lexeme.scan source) _ >>= fun p => step p.2)
    (enter (Lexeme.scan source') _ >>= fun p => step p.2)
  -- both start from one state that has no lexemes yet
  have henter := enter_sameOutcome htokens (r := ⟨[], ⟨.empty, [], [], []⟩, [], "", 0⟩) ⟨[], rfl⟩
  generalize enter (Lexeme.scan source) _ = o, enter (Lexeme.scan source') _ = o' at henter ⊢
  cases henter with
  | ok h => exact hstep _ _ h
  | error => exact .error

end Reader

/-- Texts with the same tokens, each piece spelling one, are the same program or have the same
error. -/
theorem parse_eq_of_tokens {source source' : String}
    (h : Lexeme.tokens source = Lexeme.tokens source') (hspelled : none ∉ Lexeme.tokens source) :
    parse source = parse source' := by
  have hrun := Reader.onText_sameOutcome
    (Reader.allowance_scripted.bind Reader.statements_scripted).blind h hspelled
  unfold parse
  generalize Reader.onText _ source = o, Reader.onText _ source' = o' at hrun ⊢
  cases hrun with
  | ok h =>
      obtain ⟨_, _, rfl⟩ := h
      rfl
  | error => rfl

/-- **Formatting does not change meaning.**  Texts with the same tokens are read alike.  Blanks and
comments between two parts of a text change nothing about the tokens of either, so neither does it
matter which they are; nor does a comment at the end. -/
theorem parse_ignores_formatting :
    (∀ source source' : String, Lexeme.tokens source = Lexeme.tokens source' →
      none ∉ Lexeme.tokens source → parse source = parse source') ∧
    (∀ before gap behind : String, Lexeme.endsInComment false before.toList = false →
      Lexeme.Layout gap.toList → gap ≠ "" →
      Lexeme.tokens (before ++ gap ++ behind) = Lexeme.tokens before ++ Lexeme.tokens behind) ∧
    (∀ before line : String, Lexeme.endsInComment false before.toList = false →
      '\n' ∉ line.toList → Lexeme.tokens (before ++ "#" ++ line) = Lexeme.tokens before) := by
  refine ⟨fun _ _ h hspelled => parse_eq_of_tokens h hspelled, ?between, ?last⟩
  case between =>
    intro before gap behind hbefore hgap hne
    exact Lexeme.tokens_layout hbefore hgap hne behind
  case last =>
    intro before line hbefore hline
    exact Lexeme.tokens_comment hbefore hline

/-- A scalar input and an output, spread out and commented. -/
theorem parse_ignores_formatting_scalar :
    Lexeme.tokens "input s: f32; output s;" =
        Lexeme.tokens "# one scalar\ninput\ts :f32 ;\r\noutput s;# and out" ∧
      none ∉ Lexeme.tokens "input s: f32; output s;" ∧
      parse "input s: f32; output s;" =
        parse "# one scalar\ninput\ts :f32 ;\r\noutput s;# and out" ∧
      Lexeme.Layout " # s\n".toList ∧
      Lexeme.tokens ("output" ++ " # s\n" ++ "s;") =
        Lexeme.tokens "output" ++ Lexeme.tokens "s;" ∧
      Lexeme.tokens ("output s;" ++ "#" ++ " and out") = Lexeme.tokens "output s;" := by
  have htokens : Lexeme.tokens "input s: f32; output s;" =
      Lexeme.tokens "# one scalar\ninput\ts :f32 ;\r\noutput s;# and out" := by decide +kernel
  have hspelled : none ∉ Lexeme.tokens "input s: f32; output s;" := by decide +kernel
  have hgap : Lexeme.Layout " # s\n".toList :=
    .blank (by decide) (@Lexeme.Layout.comment [' ', 's'] [] (by decide) .nil)
  obtain ⟨hparse, hbetween, hlast⟩ := parse_ignores_formatting
  exact ⟨htokens, hspelled, hparse _ _ htokens hspelled, hgap,
    hbetween "output" _ "s;" (by decide) hgap (by decide),
    hlast "output s;" " and out" (by decide) (by decide)⟩

end TensorLoops.Program
