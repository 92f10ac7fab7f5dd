import TensorLoops.Proofs.Source.Position
import TensorLoops.Proofs.Source.Spans

/-!
# Proofs — Source — Lookahead

Looking ahead changes nothing about what is read.  Whatever calls a cursor gets, the lexemes it has
left are those of the text less as many as were taken (`rest_after`), and each call comes to the
first of them; the bytes that the cursor reached last are those of that lexeme (`span_answer`).

A cursor holds all lexemes of its text.  A reader that reads a piece when it is asked for one has to
keep what it has looked at: in a `SlotReader` there is a slot for it, which is empty, holds the end
or holds a lexeme.  The two answer every call alike (`replies_ofString`).
-/

namespace TensorLoops

/-! ### Calls -/

/-- A call of a reader of lexemes. -/
inductive ReadCall where
  | next
  | look
  | check (t : Token)
deriving DecidableEq

/-- What a call is answered. -/
inductive ReadAnswer where
  | lexeme (l : Option Lexeme)
  | verdict (b : Bool)

namespace Cursor

def answer (c : Cursor) : ReadCall → ReadAnswer × Cursor
  | .next    => (.lexeme c.next.1, c.next.2)
  | .look    => (.lexeme c.look.1, c.look.2)
  | .check t => (.verdict (c.check t).1, (c.check t).2)

/-- The cursor after some calls. -/
def after (c : Cursor) (calls : List ReadCall) : Cursor := calls.foldl (fun c k => (c.answer k).2) c

/-- What the calls of `next` among others return, in order. -/
def taken : Cursor → List ReadCall → List (Option Lexeme)
  | _, []             => []
  | c, .next :: calls => c.next.1 :: taken c.next.2 calls
  | c, k :: calls     => taken (c.answer k).2 calls

/-- The lexeme that a call returns or looks at; `none` is the end. -/
def comesTo (c : Cursor) : ReadCall → Option Lexeme
  | .next             => c.next.1
  | .look | .check _ => c.look.1

/-- What each call comes to. -/
def met : Cursor → List ReadCall → List (Option Lexeme)
  | _, []         => []
  | c, k :: calls => c.comesTo k :: met (c.answer k).2 calls

/-- The answers to calls, each with the bytes reached after it. -/
def replies : Cursor → List ReadCall → List (ReadAnswer × Nat × Nat)
  | _, []         => []
  | c, k :: calls => ((c.answer k).1, (c.answer k).2.span) :: replies (c.answer k).2 calls

/-! ### What a call does -/

variable {c : Cursor}

theorem look_rest (c : Cursor) : c.look.2.rest = c.rest := by
  unfold look
  dsimp only
  split <;> rfl

theorem next_fst (c : Cursor) : c.next.1 = c.rest.head? := congrArg List.head? c.look_rest

theorem next_rest (c : Cursor) : c.next.2.rest = c.rest.tail := congrArg List.tail c.look_rest

theorem comesTo_eq (c : Cursor) (k : ReadCall) : c.comesTo k = c.rest.head? := by
  cases k with
  | next => exact c.next_fst
  | look | check _ => rfl

/-- A call takes a lexeme if it is one of `next`, and otherwise none. -/
theorem rest_answer (c : Cursor) (k : ReadCall) :
    (c.answer k).2.rest = c.rest.drop ([k].count .next) := by
  cases k with
  | next => exact c.next_rest.trans List.drop_one.symm
  | look | check _ => exact c.look_rest

theorem count_cons_next (k : ReadCall) (calls : List ReadCall) :
    (k :: calls).count .next = [k].count .next + calls.count .next := by
  rw [← List.singleton_append, List.count_append]

/-- After some calls the lexemes taken are as many as the calls that take. -/
theorem rest_after (c : Cursor) (calls : List ReadCall) :
    (c.after calls).rest = c.rest.drop (calls.count .next) := by
  induction calls generalizing c with
  | nil => rfl
  | cons k calls ih =>
      rw [count_cons_next, ← List.drop_drop, ← rest_answer]
      exact ih (c.answer k).2

/-- The calls of `next` return the lexemes in order, and then the end. -/
theorem taken_eq (c : Cursor) (calls : List ReadCall) :
    c.taken calls = (List.range (calls.count .next)).map (c.rest[·]?) := by
  induction calls generalizing c with
  | nil => rfl
  | cons k calls ih =>
      cases k with
      | next =>
          rw [taken, ih, next_fst, next_rest, List.count_cons_self, List.range_succ_eq_map,
            List.map_cons, List.map_map, List.head?_eq_getElem?]
          exact congrArg _ (List.map_congr_left fun i _ => List.getElem?_tail)
      | look | check _ =>
          show c.look.2.taken calls = _
          rw [ih, look_rest]
          rfl

/-- What was looked at is what comes next. -/
def Steady (c : Cursor) : Prop := c.looked = true → c.span = c.nextSpan

/-- A cursor stays steady whatever it is asked. -/
theorem Steady.answer (h : c.Steady) (k : ReadCall) : (c.answer k).2.Steady := by
  cases k with
  | next =>
      rw [Cursor.answer, next_eq h]
      intro hlooked
      cases hlooked
  | look | check _ =>
      show c.look.2.Steady
      rw [look_eq h]
      exact fun _ => rfl

/-- Any answer reaches the bytes of the next lexeme. -/
theorem span_answer (h : c.Steady) (k : ReadCall) : (c.answer k).2.span = c.nextSpan := by
  cases k with
  | next => rw [answer, next_eq h]
  | look | check _ =>
      show c.look.2.span = _
      rw [look_eq h]

/-- Only lexemes that are left are met. -/
theorem mem_rest_of_met {l : Lexeme} {calls : List ReadCall} (h : some l ∈ c.met calls) :
    l ∈ c.rest := by
  induction calls generalizing c with
  | nil => cases h
  | cons k calls ih =>
      rcases List.mem_cons.mp h with h | h
      · rw [comesTo_eq] at h
        exact List.mem_of_mem_head? h.symm
      · have hmem := ih h
        rw [rest_answer] at hmem
        exact List.mem_of_mem_drop hmem

/-- **The bytes reached last** are those of the furthest lexeme that a call came to. -/
theorem span_after (hsteady : c.Steady) (hrest : c.rest.Pairwise fun l m => l.stop ≤ m.stop)
    {calls : List ReadCall} (hne : calls ≠ []) (hend : none ∉ c.met calls) :
    ∃ l, some l ∈ c.met calls ∧ (∀ m, some m ∈ c.met calls → m.stop ≤ l.stop) ∧
      (c.after calls).span = (l.start, l.stop) := by
  induction calls generalizing c with
  | nil => exact absurd rfl hne
  | cons k calls ih =>
      rw [met, comesTo_eq] at hend ⊢
      obtain ⟨hhead, hend⟩ := not_or.mp (mt List.mem_cons.mpr hend)
      cases hc : c.rest with
      | nil => exact absurd (by rw [hc]; rfl) hhead
      | cons l ls =>
          have hspan : (c.answer k).2.span = (l.start, l.stop) := by
            rw [span_answer hsteady, nextSpan, hc]
          by_cases hcalls : calls = []
          · subst hcalls
            refine ⟨l, List.mem_cons_self, fun m hm => ?_, hspan⟩
            obtain rfl := Option.some.inj (List.mem_singleton.mp hm)
            exact Nat.le_refl _
          · have hrest' : (c.answer k).2.rest.Pairwise fun l m => l.stop ≤ m.stop := by
              rw [rest_answer]
              exact hrest.sublist (List.drop_sublist _ _)
            obtain ⟨l', hl', hfurthest, hspan'⟩ := ih (hsteady.answer k) hrest' hcalls hend
            refine ⟨l', List.mem_cons_of_mem _ hl', fun m hm => ?_, hspan'⟩
            rcases List.mem_cons.mp hm with hm | hm
            · -- the first lexeme left stops before all that calls can come to
              obtain rfl := Option.some.inj hm
              have hmet : some l' ∈ c.met (k :: calls) := List.mem_cons_of_mem _ hl'
              have hmem := mem_rest_of_met hmet
              rw [hc] at hrest hmem
              rcases List.mem_cons.mp hmem with rfl | hmem
              · exact Nat.le_refl _
              · exact List.rel_of_pairwise_cons hrest hmem
            · exact hfurthest m hm

end Cursor

/-! ### Reading as one goes -/

/-- A reader that has read no further than it was asked to. -/
structure SlotReader where
  /-- The text that is not read yet. -/
  text : List Char
  /-- The byte that it starts at. -/
  pos  : Nat
  /-- The bytes of the lexeme read last. -/
  span : Nat × Nat
  /-- What was looked at and is not returned yet: nothing, the end or a lexeme. -/
  slot : Option (Option Lexeme)

namespace SlotReader

open Lexeme (skip munch byteCount scanFrom afterLayout)

def ofString (source : String) : SlotReader := ⟨source.toList, 0, (0, 0), none⟩

/-- Read the next piece of the text. -/
def read (r : SlotReader) : Option Lexeme × SlotReader :=
  match skip false r.pos r.text with
  | (pos, [])      => (none, { r with text := [], pos, span := (pos, pos) })
  | (pos, c :: cs) =>
      let (token, length) := munch (c :: cs)
      let stop := pos + byteCount ((c :: cs).take length)
      (some ⟨token, pos, stop⟩,
        { r with text := (c :: cs).drop length, pos := stop, span := (pos, stop) })

/-- Look at the next lexeme, which is read unless it is in the slot. -/
def look (r : SlotReader) : Option Lexeme × SlotReader :=
  match r.slot with
  | some l => (l, r)
  | none   => (r.read.1, { r.read.2 with slot := some r.read.1 })

/-- Take the next lexeme out of the slot, or read it. -/
def next (r : SlotReader) : Option Lexeme × SlotReader :=
  match r.slot with
  | some l => (l, { r with slot := none })
  | none   => r.read

def check (r : SlotReader) (t : Token) : Bool × SlotReader :=
  (r.look.1.any fun l => l.token.any (·.equal t), r.look.2)

def answer (r : SlotReader) : ReadCall → ReadAnswer × SlotReader
  | .next    => (.lexeme r.next.1, r.next.2)
  | .look    => (.lexeme r.look.1, r.look.2)
  | .check t => (.verdict (r.check t).1, (r.check t).2)

/-- The answers to calls, each with the bytes reached after it. -/
def replies : SlotReader → List ReadCall → List (ReadAnswer × Nat × Nat)
  | _, []         => []
  | r, k :: calls => ((r.answer k).1, (r.answer k).2.span) :: replies (r.answer k).2 calls

variable {r : SlotReader} {c : Cursor}

/-- The lexemes that are not read yet. -/
def ahead (r : SlotReader) : List Lexeme := scanFrom r.text.length r.pos r.text

/-- **Reading a piece** comes to the first of the lexemes ahead and leaves the others, or comes to
the end of the text. -/
theorem read_cases (r : SlotReader) :
    r.ahead = [] ∧ r.read = (none, ⟨[], r.pos + byteCount r.text,
      (r.pos + byteCount r.text, r.pos + byteCount r.text), r.slot⟩) ∨
    ∃ l ls text, r.ahead = l :: ls ∧
      r.read = (some l, ⟨text, l.stop, (l.start, l.stop), r.slot⟩) ∧
      scanFrom text.length l.stop text = ls ∧
      l.stop + byteCount text = r.pos + byteCount r.text := by
  cases h : afterLayout false r.text with
  | nil =>
      have hskip : skip false r.pos (r.text ++ []) = (r.pos + byteCount r.text, []) :=
        Lexeme.skip_eq (by rw [List.append_nil, h]) r.pos
      rw [List.append_nil] at hskip
      refine .inl ⟨Lexeme.scanFrom_of_layout h _ _, ?_⟩
      rw [read, hskip]
  | cons c rest =>
      have hlt := Lexeme.length_drop_munch h
      obtain ⟨n, hn⟩ : ∃ n, r.text.length = n + 1 := ⟨r.text.length - 1, by omega⟩
      obtain ⟨gap, -, htext⟩ := Lexeme.layout_before h
      rw [htext] at h
      have hskip := Lexeme.skip_eq h r.pos
      have hahead := Lexeme.scanFrom_eq_cons h n r.pos
      rw [← htext] at hskip
      rw [← htext, ← hn] at hahead
      have hbytes : byteCount r.text = byteCount gap +
          (byteCount ((c :: rest).take (munch (c :: rest)).2) +
            byteCount ((c :: rest).drop (munch (c :: rest)).2)) := by
        rw [← Lexeme.byteCount_append, List.take_append_drop, ← Lexeme.byteCount_append, htext]
      refine .inr ⟨_, _, (c :: rest).drop (munch (c :: rest)).2, hahead, ?_, ?_, ?_⟩
      · rw [read, hskip]
      · exact Lexeme.scanFrom_limit (Nat.le_refl _) (by omega) _
      · dsimp only
        omega

/-! ### Answering alike -/

/-- The reader and the cursor stand at the same place. -/
structure Matches (r : SlotReader) (c : Cursor) : Prop where
  rest   : c.rest = (r.slot.getD none).toList ++ r.ahead
  /-- Behind the end there is nothing to read. -/
  ended  : r.slot = some none → r.ahead = []
  looked : c.looked = r.slot.isSome
  span   : c.span = r.span
  size   : c.size = r.pos + byteCount r.text
  steady : c.Steady

/-- What is in the slot was looked at, and is the first of the lexemes left. -/
theorem Matches.of_slot (h : r.Matches c) {l : Option Lexeme} (hslot : r.slot = some l) :
    c.looked = true ∧ c.rest.head? = l ∧ c.rest.tail = r.ahead := by
  have hlooked : c.looked = true := by rw [h.looked, hslot]; rfl
  have hrest : c.rest = l.toList ++ r.ahead := by rw [h.rest, hslot]; rfl
  cases l with
  | some l => rw [hrest]; exact ⟨hlooked, rfl, rfl⟩
  | none => rw [hrest, h.ended hslot]; exact ⟨hlooked, rfl, rfl⟩

/-- With nothing in the slot, reading a piece comes to the first of the lexemes left. -/
theorem Matches.read (h : r.Matches c) (hslot : r.slot = none) :
    r.read.1 = c.rest.head? ∧ r.read.2.ahead = c.rest.tail ∧ r.read.2.slot = none ∧
      r.read.2.span = c.nextSpan ∧ c.size = r.read.2.pos + byteCount r.read.2.text := by
  have hrest : c.rest = r.ahead := by rw [h.rest, hslot]; rfl
  rw [Cursor.nextSpan, hrest, h.size]
  rcases r.read_cases with ⟨hahead, hread⟩ | ⟨l, ls, text, hahead, hread, hls, hbytes⟩
  · rw [hread, hahead]
    exact ⟨rfl, rfl, hslot, rfl, rfl⟩
  · rw [hread, hahead]
    exact ⟨rfl, hls, hslot, rfl, hbytes.symm⟩

/-- Readers that match look at the same. -/
theorem Matches.look (h : r.Matches c) : r.look.1 = c.look.1 ∧ r.look.2.Matches c.look.2 := by
  cases hslot : r.slot with
  | some l =>
      obtain ⟨hlooked, hhead, -⟩ := h.of_slot hslot
      have hc : c.look = (c.rest.head?, c) := by rw [Cursor.look, if_pos hlooked]
      rw [SlotReader.look, hslot, hc]
      exact ⟨hhead.symm, h⟩
  | none =>
      obtain ⟨hfst, hahead, -, hspan, hsize⟩ := h.read hslot
      rw [SlotReader.look, hslot, Cursor.look_eq h.steady]
      refine ⟨hfst, ?_, fun hnone => ?_, rfl, hspan.symm, hsize, fun _ => rfl⟩
      · show c.rest = r.read.1.toList ++ r.read.2.ahead
        rw [hfst, hahead]
        cases c.rest <;> rfl
      · -- the end was read, so no lexeme was left
        have hhead : c.rest.head? = none := hfst.symm.trans (Option.some.inj hnone)
        show r.read.2.ahead = []
        rw [hahead, List.head?_eq_none_iff.mp hhead, List.tail_nil]

theorem Matches.next (h : r.Matches c) : r.next.1 = c.next.1 ∧ r.next.2.Matches c.next.2 := by
  rw [Cursor.next_eq h.steady]
  cases hslot : r.slot with
  | some l =>
      obtain ⟨hlooked, hhead, htail⟩ := h.of_slot hslot
      rw [SlotReader.next, hslot]
      exact ⟨hhead.symm, htail, fun hnone => (by cases hnone), rfl,
        (h.steady hlooked).symm.trans h.span, h.size, fun hlooked => (by cases hlooked)⟩
  | none =>
      obtain ⟨hfst, hahead, hslot', hspan, hsize⟩ := h.read hslot
      have hnext : r.next = r.read := by rw [SlotReader.next, hslot]
      rw [hnext]
      refine ⟨hfst, ?_, fun hnone => ?_, ?_, hspan.symm, hsize, fun hlooked => (by cases hlooked)⟩
      · rw [hslot', hahead]
        rfl
      · cases hslot'.symm.trans hnone
      · rw [hslot']
        rfl

theorem Matches.answer (h : r.Matches c) (k : ReadCall) :
    (r.answer k).1 = (c.answer k).1 ∧ (r.answer k).2.Matches (c.answer k).2 := by
  cases k with
  | next => exact ⟨congrArg _ h.next.1, h.next.2⟩
  | look => exact ⟨congrArg _ h.look.1, h.look.2⟩
  | check t =>
      refine ⟨?_, h.look.2⟩
      show ReadAnswer.verdict (r.look.1.any _) = ReadAnswer.verdict (c.look.1.any _)
      rw [h.look.1]

/-- **Readers that match reply alike to any calls.** -/
theorem Matches.replies (h : r.Matches c) (calls : List ReadCall) :
    r.replies calls = c.replies calls := by
  induction calls generalizing r c with
  | nil => rfl
  | cons k calls ih =>
      obtain ⟨hanswer, hmatches⟩ := h.answer k
      rw [SlotReader.replies, Cursor.replies, hanswer, hmatches.span, ih hmatches]

/-- **A reader with a slot and a cursor answer all calls alike.** -/
theorem replies_ofString (source : String) (calls : List ReadCall) :
    (ofString source).replies calls = (Cursor.ofString source).replies calls := by
  refine Matches.replies ⟨?_, fun h => (by cases h), rfl, rfl, ?_, fun h => (by cases h)⟩ calls
  · show Lexeme.scan source = scanFrom source.toList.length 0 source.toList
    rw [Lexeme.scan, String.length_toList]
  · show source.utf8ByteSize = 0 + byteCount source.toList
    rw [Lexeme.utf8ByteSize_eq, Nat.zero_add]

end SlotReader

/-- Tokens other than floats are equal only to themselves. -/
theorem Token.equal_iff {t u : Token} (ht : ∀ x, t ≠ .real x) : u.equal t = true ↔ u = t := by
  unfold Token.equal
  split
  · exact absurd rfl (ht _)
  · exact beq_iff_eq

namespace Cursor

theorem steady_ofString (source : String) : (ofString source).Steady := fun h => by cases h

/-- The lexemes of a text stop one after another. -/
theorem pairwise_stop (source : String) :
    (Lexeme.scan source).Pairwise fun l m => l.stop ≤ m.stop := by
  have hbounds := (Lexeme.pieces_scan source).bounds
  refine (Lexeme.pieces_scan source).pairwise.imp_of_mem fun _ hm h => ?_
  exact Nat.le_trans h (Nat.le_of_lt (hbounds _ hm).2.1)

/-- Calls that take nothing leave what comes next. -/
theorem next_after (c : Cursor) (calls : List ReadCall) {k : ReadCall} (hk : k ≠ .next)
    {later : List ReadCall} (hlater : .next ∉ later) :
    (c.after (calls ++ k :: later)).next.1 = (c.after calls).rest.head? := by
  have hcount : (k :: later).count .next = 0 :=
    List.count_eq_zero.mpr fun h => (List.mem_cons.mp h).elim (hk ∘ Eq.symm) hlater
  rw [next_fst, rest_after, rest_after, List.count_append, hcount, Nat.add_zero]

/-- A check compares with the first lexeme left. -/
theorem check_iff (c : Cursor) (t : Token) :
    (c.check t).1 = true ↔
      ∃ l, c.rest.head? = some l ∧ ∃ u, l.token = some u ∧ u.equal t = true := by
  show (c.rest.head?.any fun l => l.token.any (·.equal t)) = true ↔ _
  simp only [Option.any_eq_true]

/-- **Looking ahead is transparent.**  Whatever calls a cursor gets, those of `next` return what
they would return alone, the lexemes of the text in order and then the end as often as they are
asked.  A look returns what the next call of `next` returns, and a check holds exactly if that
spells the token.  As long as no call came to the end, the bytes reached last are those of the
furthest lexeme that was returned or looked at.  A reader that reads a piece when it is asked for
one, and keeps in a slot what it has looked at, gives the same answers and reaches the same
bytes. -/
theorem lookahead_transparent (source : String) (calls : List ReadCall) :
    (ofString source).taken calls =
      (ofString source).taken (List.replicate (calls.count .next) .next) ∧
    (ofString source).taken calls =
      (List.range (calls.count .next)).map ((Lexeme.scan source)[·]?) ∧
    (∀ later, .next ∉ later → ((ofString source).after calls).look.1 =
      ((ofString source).after (calls ++ .look :: later)).next.1) ∧
    (∀ t later, .next ∉ later →
      ((((ofString source).after calls).check t).1 = true ↔
        ∃ l, ((ofString source).after (calls ++ .check t :: later)).next.1 = some l ∧
          ∃ u, l.token = some u ∧ u.equal t = true) ∧
      ((∀ x, t ≠ .real x) → ((((ofString source).after calls).check t).1 = true ↔
        ∃ l, ((ofString source).after (calls ++ .check t :: later)).next.1 = some l ∧
          l.token = some t))) ∧
    (calls ≠ [] → none ∉ (ofString source).met calls →
      ∃ l, some l ∈ (ofString source).met calls ∧
        (∀ m, some m ∈ (ofString source).met calls → m.stop ≤ l.stop) ∧
        ((ofString source).after calls).span = (l.start, l.stop)) ∧
    (SlotReader.ofString source).replies calls = (ofString source).replies calls := by
  refine ⟨?_, taken_eq _ calls, fun later hlater => ?_, fun t later hlater => ⟨?_, fun ht => ?_⟩,
    fun hne hend => ?_, SlotReader.replies_ofString source calls⟩
  · rw [taken_eq, taken_eq, List.count_replicate_self]
  · exact (next_after _ calls (by simp) hlater).symm
  · rw [check_iff, next_after _ calls (by simp) hlater]
  · rw [check_iff, next_after _ calls (by simp) hlater]
    simp only [Token.equal_iff ht, exists_eq_right]
  · exact span_after (steady_ofString source) (pairwise_stop source) hne hend

/-- A look at an error, twice. -/
theorem lookahead_transparent_error :
    (ofString "a $ b").taken [.look, .next, .check (.ident "b"), .look] =
      (ofString "a $ b").taken [.next] ∧
    ((ofString "a $ b").after [.look, .next]).look.1 = some ⟨none, 2, 3⟩ ∧
    ((ofString "a $ b").after [.look, .next, .look, .check .comma]).next.1 = some ⟨none, 2, 3⟩ ∧
    none ∉ (ofString "a $ b").met [.look, .next, .check (.ident "b"), .look] ∧
    ∃ l, some l ∈ (ofString "a $ b").met [.look, .next, .check (.ident "b"), .look] ∧
      ((ofString "a $ b").after [.look, .next, .check (.ident "b"), .look]).span =
        (l.start, l.stop) := by
  obtain ⟨htaken, -, -, -, hspan, -⟩ :=
    lookahead_transparent "a $ b" [.look, .next, .check (.ident "b"), .look]
  obtain ⟨-, -, hlook, -, -, -⟩ := lookahead_transparent "a $ b" [.look, .next]
  have hnext : ((ofString "a $ b").after [.look, .next]).look.1 = some ⟨none, 2, 3⟩ := by
    decide +kernel
  have hend : none ∉ (ofString "a $ b").met [.look, .next, .check (.ident "b"), .look] := by
    decide +kernel
  obtain ⟨l, hl, -, hbytes⟩ := hspan (by simp) hend
  refine ⟨htaken, hnext, ?_, hend, l, hl, hbytes⟩
  rw [← hnext]
  exact (hlook [.check .comma] (by simp)).symm

end Cursor

end TensorLoops
