import TensorLoops.Code.Builder
import TensorLoops.Proofs.Checked

/-!
# Proofs — Code — Outlines

What a statement builder makes of a sequence of calls.  The calls that succeed are brackets: a scope
is opened, statements and scopes are put into it, and it is closed.  An `Outline` is such a bracket
structure, spelled by its calls (`Outline.calls`) and standing for a statement (`Outline.toStmt`).

Halfway through, a builder holds an outline with its right edge open (`Sketch`).  Every call that
succeeds is put to the end of the sketch (`Sketch.perform`), so a run spells one (`Sketch.run_eq`),
and with no scope open it is whole (`exists_outlines`).  `run_outlines` puts together what that says
of a run from an empty builder.
-/

namespace TensorLoops

/-! ### Calls -/

namespace StmtBuilder

/-- A call on a statement builder. -/
inductive Call where
  | append (s : Stmt)
  | enter (head : ScopeHead)
  | exit

namespace Call

def isEnter : Call → Bool
  | enter _ => true
  | _       => false

def isExit : Call → Bool
  | exit => true
  | _    => false

/-- The statements of a sequence of calls in order, each with the scopes that are open at its call,
innermost first; at the start those of `heads` are.  Closing has no effect where none is open. -/
def placed (heads : List ScopeHead) : List Call → List (List ScopeHead × Stmt)
  | []               => []
  | append s :: cs   => (heads, s) :: placed heads cs
  | enter head :: cs => placed (head :: heads) cs
  | exit :: cs       => placed heads.tail cs

end Call

/-- The result of a call and the builder that it leaves. -/
def perform (b : StmtBuilder) : Call → Except Error Unit × StmtBuilder
  | .append s   => (.ok (), b.append s)
  | .enter head => (.ok (), b.enter head)
  | .exit       => Update.exit.run.run b

/-- The builder that calls leave, made one after another whether they succeed or not. -/
def run (b : StmtBuilder) (cs : List Call) : StmtBuilder := cs.foldl (fun b c => (b.perform c).2) b

/-- The calls of a sequence that succeed, in order. -/
def carried (b : StmtBuilder) : List Call → List Call
  | []      => []
  | c :: cs =>
      match b.perform c with
      | (.ok _, b')    => c :: b'.carried cs
      | (.error _, b') => b'.carried cs

variable {b b' : StmtBuilder} {c : Call} {cs : List Call} {e : Error}

/-- A call that succeeds is carried out first, and the others from the builder it leaves. -/
theorem run_of_ok (h : b.perform c = (.ok (), b')) :
    b.run (c :: cs) = b'.run cs ∧ b.carried (c :: cs) = c :: b'.carried cs := by
  simp [run, carried, h]

/-- Closing fails exactly where no scope is open. -/
theorem exit_eq_error_iff : b.exit = .error e ↔ b.depth = 0 ∧ e = .scope .noOpenScope := by
  obtain ⟨root, scopes⟩ := b
  cases scopes with
  | nil =>
      show Except.error (.scope .noOpenScope) = Except.error e ↔ _
      simp [depth, eq_comm]
  | cons o os =>
      show Except.ok _ = Except.error e ↔ _
      simp [depth]

theorem perform_exit_of_depth (h : b.depth = 0) :
    b.perform .exit = (.error (.scope .noOpenScope), b) := by
  obtain ⟨root, scopes⟩ := b
  obtain rfl : scopes = [] := List.length_eq_zero_iff.mp h
  rfl

/-- A call that fails closes a scope where none is open, and it leaves the builder as it was. -/
theorem perform_eq_error (h : b.perform c = (.error e, b')) : c = .exit ∧ b.depth = 0 ∧ b' = b := by
  cases c with
  | append s => cases h
  | enter head => cases h
  | exit =>
      obtain ⟨root, scopes⟩ := b
      cases scopes with
      | nil => exact ⟨rfl, rfl, (Prod.mk.inj h).2.symm⟩
      | cons o os => cases (Prod.mk.inj h).1

theorem run_of_error (h : b.perform c = (.error e, b')) :
    b.run (c :: cs) = b.run cs ∧ b.carried (c :: cs) = b.carried cs := by
  obtain ⟨-, -, rfl⟩ := perform_eq_error h
  simp [run, carried, h]

/-! ### Depth -/

theorem depth_append (b : StmtBuilder) (s : Stmt) : (b.append s).depth = b.depth := by
  obtain ⟨root, scopes⟩ := b
  cases scopes <;> rfl

theorem exit_eq_ok (h : b.exit = .ok b') : b'.depth + 1 = b.depth := by
  obtain ⟨root, scopes⟩ := b
  cases scopes with
  | nil => cases h
  | cons o os =>
      obtain rfl := Except.ok.inj h
      rw [depth_append]
      rfl

theorem finish_eq_ok_iff {s : Stmt} : b.finish = .ok s ↔ b.depth = 0 ∧ s = .ofList b.root := by
  obtain ⟨root, scopes⟩ := b
  cases scopes with
  | nil => simp [finish, depth, eq_comm]
  | cons o os => simp [finish, depth]

/-- A call that succeeds opens a scope, closes one or does neither. -/
theorem depth_of_perform (h : b.perform c = (.ok (), b')) :
    b'.depth + [c].countP Call.isExit = b.depth + [c].countP Call.isEnter := by
  cases c with
  | append s =>
      obtain rfl := (Prod.mk.inj h).2
      exact congrArg (· + 0) (b.depth_append s)
  | enter head =>
      obtain rfl := (Prod.mk.inj h).2
      rfl
  | exit =>
      refine exit_eq_ok ?_
      rw [StmtBuilder.exit, resultOf_eq_ok.mpr h]
      rfl

/-- The depth of a run is the number of scopes opened less that of scopes closed. -/
theorem depth_run (b : StmtBuilder) (cs : List Call) :
    (b.run cs).depth + (b.carried cs).countP Call.isExit =
      b.depth + cs.countP Call.isEnter := by
  induction cs generalizing b with
  | nil => rfl
  | cons c cs ih =>
      match h : b.perform c with
      | (.ok _, b') =>
          have hstep := depth_of_perform h
          have hrun := ih b'
          rw [(run_of_ok h).1, (run_of_ok h).2, ← List.singleton_append, List.countP_append,
            ← List.singleton_append (l := cs), List.countP_append]
          omega
      | (.error e, b') =>
          rw [(run_of_error h).1, (run_of_error h).2, ih b, (perform_eq_error h).1]
          rfl

/-- Only closing fails. -/
theorem countP_isEnter_carried (b : StmtBuilder) (cs : List Call) :
    (b.carried cs).countP Call.isEnter = cs.countP Call.isEnter := by
  induction cs generalizing b with
  | nil => rfl
  | cons c cs ih =>
      match h : b.perform c with
      | (.ok _, b') => rw [(run_of_ok h).2, List.countP_cons, List.countP_cons, ih b']
      | (.error e, b') =>
          rw [(run_of_error h).2, ih b, (perform_eq_error h).1]
          rfl

end StmtBuilder

/-! ### Outlines -/

open StmtBuilder

/-- A statement, or a scope with its parts. -/
inductive Outline where
  | stmt (s : Stmt)
  | scope (head : ScopeHead) (parts : List Outline)

namespace Outline

mutual

/-- The calls that build the outline. -/
def calls : Outline → List Call
  | stmt s           => [.append s]
  | scope head parts => .enter head :: (callsAll parts ++ [.exit])

def callsAll : List Outline → List Call
  | []      => []
  | o :: os => o.calls ++ callsAll os

end

/-- Statements as one: a single one is itself, and any others are a sequence. -/
def joined : List Stmt → Stmt
  | [s] => s
  | ss  => .seq ss

mutual

/-- The statement that the outline stands for. -/
def toStmt : Outline → Stmt
  | stmt s                       => s
  | scope (.loop v extent) parts => .loop v extent (joined (toStmts parts))
  | scope (.cond test) parts     => .cond test (joined (toStmts parts)) none

def toStmts : List Outline → List Stmt
  | []      => []
  | o :: os => o.toStmt :: toStmts os

end

mutual

/-- The statements of the outline in order, each with the scopes around it, innermost first; the
outline stands in those of `heads`. -/
def placed (heads : List ScopeHead) : Outline → List (List ScopeHead × Stmt)
  | stmt s           => [(heads, s)]
  | scope head parts => placedAll (head :: heads) parts

def placedAll (heads : List ScopeHead) : List Outline → List (List ScopeHead × Stmt)
  | []      => []
  | o :: os => o.placed heads ++ placedAll heads os

end

/-- Joining statements is how the builder makes one statement of them. -/
theorem joined_eq (ss : List Stmt) : joined ss = .ofList ss := by
  match ss with
  | []           => rfl
  | [s]          => rfl
  | s :: s' :: ss => rfl

/-- A scope that is closed stands for what its outline does. -/
theorem toStmt_scope (head : ScopeHead) (parts : List Outline) :
    (scope head parts).toStmt = head.close (.ofList (toStmts parts)) := by
  rw [← joined_eq]
  cases head with
  | loop v extent => rw [toStmt, ScopeHead.close]
  | cond test => rw [toStmt, ScopeHead.close]

theorem callsAll_concat (os : List Outline) (o : Outline) :
    callsAll (os ++ [o]) = callsAll os ++ o.calls := by
  induction os with
  | nil => simp [callsAll]
  | cons p os ih => simp [callsAll, ih]

theorem toStmts_concat (os : List Outline) (o : Outline) :
    toStmts (os ++ [o]) = toStmts os ++ [o.toStmt] := by
  induction os with
  | nil => simp [toStmts]
  | cons p os ih => simp [toStmts, ih]

mutual

/-- The calls of an outline put its statements where they are in it. -/
theorem placed_calls : ∀ (heads : List ScopeHead) (o : Outline) (cs : List Call),
    Call.placed heads (o.calls ++ cs) = o.placed heads ++ Call.placed heads cs
  | _, stmt _, _ => rfl
  | heads, scope head parts, cs => by
      rw [calls, placed, List.cons_append, List.append_assoc, Call.placed,
        placedAll_callsAll (head :: heads) parts]
      rfl

theorem placedAll_callsAll : ∀ (heads : List ScopeHead) (os : List Outline) (cs : List Call),
    Call.placed heads (callsAll os ++ cs) = placedAll heads os ++ Call.placed heads cs
  | _, [], _ => rfl
  | heads, o :: os, cs => by
      rw [callsAll, placedAll, List.append_assoc, placed_calls heads o,
        placedAll_callsAll heads os, List.append_assoc]

end

mutual

/-- The calls of an outline close what they open. -/
theorem countP_calls : ∀ o : Outline,
    o.calls.countP Call.isEnter = o.calls.countP Call.isExit
  | stmt _ => rfl
  | scope head parts => by
      rw [calls, List.countP_cons, List.countP_cons, List.countP_append, List.countP_append,
        countP_callsAll parts]
      rfl

theorem countP_callsAll : ∀ os : List Outline,
    (callsAll os).countP Call.isEnter = (callsAll os).countP Call.isExit
  | [] => rfl
  | o :: os => by rw [callsAll, List.countP_append, List.countP_append, countP_calls o,
      countP_callsAll os]

end

/-- Nothing follows, or a scope is closed. -/
def Closes (cs : List Call) : Prop := ∀ c ∈ cs.head?, c = .exit

/-- The calls of an outline do not begin by closing a scope. -/
theorem not_closes_calls (o : Outline) (cs : List Call) : ¬ Closes (o.calls ++ cs) := by
  intro h
  cases o with
  | stmt s => cases h (.append s) rfl
  | scope head parts => cases h (.enter head) rfl

/-- Outlines are read off their calls: no others have the same, also before a scope is closed.  By
induction on the outlines, the parts of a scope first and then what stands behind it. -/
theorem callsAll_append_inj : ∀ {os os' : List Outline} {cs cs' : List Call},
    Closes cs → Closes cs' → callsAll os ++ cs = callsAll os' ++ cs' → os = os' ∧ cs = cs'
  | [], [], _, _, _, _, h => ⟨rfl, h⟩
  | [], o :: os, cs, cs', hcs, _, h => by
      rw [callsAll, callsAll, List.append_assoc, List.nil_append] at h
      exact absurd (h ▸ hcs) (not_closes_calls o _)
  | o :: os, [], cs, cs', _, hcs', h => by
      rw [callsAll, callsAll, List.append_assoc, List.nil_append] at h
      exact absurd (h ▸ hcs') (not_closes_calls o _)
  | stmt s :: os, stmt s' :: os', cs, cs', hcs, hcs', h => by
      obtain ⟨hs, hrest⟩ := List.cons.inj h
      obtain ⟨hos, hcs⟩ := callsAll_append_inj hcs hcs' hrest
      exact ⟨by rw [Call.append.inj hs, hos], hcs⟩
  | stmt s :: os, scope head parts :: os', _, _, _, _, h => by cases (List.cons.inj h).1
  | scope head parts :: os, stmt s :: os', _, _, _, _, h => by cases (List.cons.inj h).1
  | scope head parts :: os, scope head' parts' :: os', cs, cs', hcs, hcs', h => by
      simp only [callsAll, calls, List.cons_append, List.append_assoc, List.nil_append] at h
      obtain ⟨hhead, hparts⟩ := List.cons.inj h
      have hexit : ∀ cs, Closes (.exit :: cs) := fun _ _ hc => (Option.some.inj hc).symm
      obtain ⟨hparts, hrest⟩ := callsAll_append_inj (hexit _) (hexit _) hparts
      obtain ⟨hos, hcs⟩ := callsAll_append_inj hcs hcs' (List.cons.inj hrest).2
      exact ⟨by rw [Call.enter.inj hhead, hparts, hos], hcs⟩

theorem callsAll_injective : Function.Injective callsAll := by
  intro os os' h
  have hnil : Closes [] := fun _ hc => by cases hc
  exact (callsAll_append_inj hnil hnil (congrArg (· ++ []) h)).1

end Outline

/-! ### Sketches -/

open Outline

/-- Outlines with scopes that are not closed yet, innermost first. -/
structure Sketch where
  root   : List Outline
  scopes : List (ScopeHead × List Outline)

namespace Sketch

/-- The builder that holds the sketch. -/
def builder (k : Sketch) : StmtBuilder :=
  ⟨toStmts k.root, k.scopes.map fun o => ⟨o.1, toStmts o.2⟩⟩

/-- The calls that build the scopes not closed yet, outermost first. -/
def opening : List (ScopeHead × List Outline) → List Call
  | []               => []
  | (head, os) :: ks => opening ks ++ .enter head :: callsAll os

/-- The calls that build the sketch. -/
def calls (k : Sketch) : List Call := callsAll k.root ++ opening k.scopes

/-- One more outline, in the innermost scope. -/
def add (k : Sketch) (o : Outline) : Sketch :=
  match k.scopes with
  | []               => { k with root := k.root ++ [o] }
  | (head, os) :: ks => { k with scopes := (head, os ++ [o]) :: ks }

/-- A builder holds one more outline once its statement is appended. -/
theorem builder_add (k : Sketch) (o : Outline) :
    (k.add o).builder = k.builder.append o.toStmt := by
  obtain ⟨root, scopes⟩ := k
  cases scopes with
  | nil => simp [add, builder, append, toStmts_concat]
  | cons top ks => simp [add, builder, append, toStmts_concat]

/-- One more outline in the innermost scope comes last in the calls. -/
theorem calls_add (k : Sketch) (o : Outline) : (k.add o).calls = k.calls ++ o.calls := by
  obtain ⟨root, scopes⟩ := k
  cases scopes with
  | nil => simp [add, calls, opening, callsAll_concat]
  | cons top ks => simp [add, calls, opening, callsAll_concat]

/-- **A call is put to the end of the sketch**, unless it closes a scope and none is open. -/
theorem perform (k : Sketch) (c : Call) :
    (∃ k' : Sketch, k.builder.perform c = (.ok (), k'.builder) ∧ k'.calls = k.calls ++ [c]) ∨
      ∃ e b, k.builder.perform c = (.error e, b) := by
  cases c with
  | append s =>
      refine .inl ⟨k.add (.stmt s), ?_, k.calls_add (.stmt s)⟩
      rw [builder_add, toStmt]
      rfl
  | enter head =>
      refine .inl ⟨⟨k.root, (head, []) :: k.scopes⟩, rfl, ?_⟩
      simp [calls, opening, callsAll]
  | exit =>
      obtain ⟨root, scopes⟩ := k
      cases scopes with
      | nil => exact .inr ⟨_, _, rfl⟩
      | cons top ks =>
          obtain ⟨head, os⟩ := top
          let outer : Sketch := ⟨root, ks⟩
          refine .inl ⟨outer.add (.scope head os), ?_, ?_⟩
          · rw [builder_add, toStmt_scope]
            rfl
          · rw [calls_add]
            simp [outer, calls, opening, Outline.calls]

/-- **A run from a sketch gives one**, of the calls before and those that succeed. -/
theorem run_eq (k : Sketch) (cs : List Call) :
    ∃ k' : Sketch, k.builder.run cs = k'.builder ∧
      k'.calls = k.calls ++ k.builder.carried cs := by
  induction cs generalizing k with
  | nil => exact ⟨k, rfl, (List.append_nil _).symm⟩
  | cons c cs ih =>
      rcases k.perform c with ⟨k₁, h, hcalls⟩ | ⟨e, b, h⟩
      · obtain ⟨k', hrun, hcalls'⟩ := ih k₁
        refine ⟨k', (run_of_ok h).1.trans hrun, ?_⟩
        rw [hcalls', hcalls, (run_of_ok h).2, List.append_assoc, List.singleton_append]
      · obtain ⟨k', hrun, hcalls⟩ := ih k
        exact ⟨k', (run_of_error h).1.trans hrun, by rw [hcalls, (run_of_error h).2]⟩

end Sketch

namespace StmtBuilder

/-- A call that fails places nothing. -/
theorem placed_carried (b : StmtBuilder) (cs : List Call) :
    Call.placed (b.scopes.map OpenScope.head) cs =
      Call.placed (b.scopes.map OpenScope.head) (b.carried cs) := by
  induction cs generalizing b with
  | nil => rfl
  | cons c cs ih =>
      cases c with
      | append s =>
          have hheads : (b.append s).scopes.map OpenScope.head = b.scopes.map OpenScope.head := by
            obtain ⟨root, scopes⟩ := b
            cases scopes <;> rfl
          have hrest := ih (b.append s)
          rw [hheads] at hrest
          exact congrArg (_ :: ·) hrest
      | enter head => exact ih (b.enter head)
      | exit =>
          obtain ⟨root, scopes⟩ := b
          cases scopes with
          | nil => exact ih ⟨root, []⟩
          | cons o os =>
              have hheads : (append ⟨root, os⟩ (o.head.close (.ofList o.stmts))).scopes.map
                  OpenScope.head = os.map OpenScope.head := by
                cases os <;> rfl
              have hrest := ih (append ⟨root, os⟩ (o.head.close (.ofList o.stmts)))
              rw [hheads] at hrest
              exact hrest

/-- At depth zero a run from an empty builder has put whole outlines together, which the calls that
succeed spell. -/
theorem exists_outlines {cs : List Call} (h : (empty.run cs).depth = 0) :
    ∃ os, callsAll os = empty.carried cs ∧ (empty.run cs).root = toStmts os := by
  obtain ⟨⟨root, scopes⟩, hrun, hcalls⟩ := Sketch.run_eq ⟨[], []⟩ cs
  have hbuilder : empty.run cs = Sketch.builder ⟨root, scopes⟩ := hrun
  have hscopes : scopes = [] := by simpa [hbuilder, Sketch.builder, depth] using h
  subst hscopes
  exact ⟨root, (List.append_nil _).symm.trans hcalls, congrArg StmtBuilder.root hbuilder⟩

/-- The calls that succeed spell outlines only at depth zero. -/
theorem depth_eq_zero {cs : List Call} {os : List Outline} (h : callsAll os = empty.carried cs) :
    (empty.run cs).depth = 0 := by
  have hdepth := depth_run empty cs
  have hbalance := countP_callsAll os
  rw [h, countP_isEnter_carried] at hbalance
  rw [hbalance] at hdepth
  exact Nat.add_right_cancel hdepth

/-- A run finishes the statement of the outlines that its successful calls spell, and no other. -/
theorem finish_run_eq_ok_iff (cs : List Call) (s : Stmt) :
    (empty.run cs).finish = .ok s ↔
      ∃ os, callsAll os = empty.carried cs ∧ s = joined (toStmts os) := by
  rw [finish_eq_ok_iff]
  constructor
  · rintro ⟨hdepth, rfl⟩
    obtain ⟨os, hos, hroot⟩ := exists_outlines hdepth
    exact ⟨os, hos, by rw [hroot, joined_eq]⟩
  · rintro ⟨os, hos, rfl⟩
    have hdepth := depth_eq_zero hos
    obtain ⟨os', hos', hroot⟩ := exists_outlines hdepth
    exact ⟨hdepth, by rw [hroot, joined_eq, callsAll_injective (hos'.trans hos.symm)]⟩

/-- **A statement builder makes what its calls spell as brackets.**  After any calls the depth is
the number of scopes opened less that of scopes closed.  Closing fails exactly at depth zero, and
the builder then stays as it is; a statement is finished exactly at depth zero.  It is that of the
outlines which the successful calls spell.  No other outlines have those calls, and in them every
statement appended stands once, in order, inside the scopes that were open at its call. -/
theorem run_outlines (cs : List Call) :
    (empty.run cs).depth + (empty.carried cs).countP Call.isExit = cs.countP Call.isEnter ∧
    (∀ e, (empty.run cs).exit = .error e ↔
      (empty.run cs).depth = 0 ∧ e = .scope .noOpenScope) ∧
    (∀ e, (empty.run cs).exit = .error e → empty.run (cs ++ [.exit]) = empty.run cs) ∧
    ((∃ s, (empty.run cs).finish = .ok s) ↔ (empty.run cs).depth = 0) ∧
    (∀ s, (empty.run cs).finish = .ok s ↔
      ∃ os, callsAll os = empty.carried cs ∧ s = joined (toStmts os)) ∧
    ∀ os, callsAll os = empty.carried cs → placedAll [] os = Call.placed [] cs ∧
      ∀ os', callsAll os' = empty.carried cs → os' = os := by
  refine ⟨(depth_run empty cs).trans (Nat.zero_add _), fun e => exit_eq_error_iff, ?_, ?_,
    finish_run_eq_ok_iff cs, ?_⟩
  · intro e he
    obtain ⟨hdepth, -⟩ := exit_eq_error_iff.mp he
    rw [run, List.foldl_append]
    exact congrArg Prod.snd (perform_exit_of_depth hdepth)
  · simp only [finish_eq_ok_iff]
    exact ⟨fun ⟨_, h, _⟩ => h, fun h => ⟨_, h, rfl⟩⟩
  · intro os hos
    have hplaced := placedAll_callsAll [] os []
    rw [List.append_nil, hos] at hplaced
    exact ⟨(hplaced.trans (List.append_nil _)).symm.trans (placed_carried empty cs).symm,
      fun os' hos' => callsAll_injective (hos'.trans hos.symm)⟩

/-- Calls of which two fail, the first of all and one between the scopes: a condition around one
statement, in a loop, and after it a loop around nothing. -/
theorem run_outlines_nested :
    let i : Var := ⟨0, "i", .scalar .i32⟩
    let head := ScopeHead.loop i (.int 4)
    let test := ScopeHead.cond (.int 1)
    let calls : List Call := [.exit, .enter head, .enter test, .append (.eval (.int 2)), .exit,
      .append (.ret (.int 3)), .exit, .exit, .enter head, .exit]
    let outlines : List Outline :=
      [.scope head [.scope test [.stmt (.eval (.int 2))], .stmt (.ret (.int 3))], .scope head []]
    (empty.run calls).finish =
      .ok (.seq [.loop i (.int 4) (.seq [.cond (.int 1) (.eval (.int 2)) none, .ret (.int 3)]),
        .loop i (.int 4) (.seq [])]) ∧
    callsAll outlines = empty.carried calls ∧ placedAll [] outlines = Call.placed [] calls := by
  intro i head test calls outlines
  obtain ⟨-, -, -, -, hfinish, hplaced⟩ := run_outlines calls
  exact ⟨(hfinish _).mpr ⟨outlines, rfl, rfl⟩, rfl, (hplaced outlines rfl).1⟩

end StmtBuilder

end TensorLoops
