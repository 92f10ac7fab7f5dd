import Mathlib.Data.List.Basic
import TensorLoops.Copy.Replay
import TensorLoops.Proofs.Checked

/-!
# Proofs — Copy — Trace

Replay as the run of a trace.  Unrolled, a statement is a list of occurrences in the order of
execution: operations of the protocol, and control flow that a replay refuses
(`Stmt.occurrences`).  Replaying the statement is going through this list (`replay_eq`).  Where
nothing in it is refused the operations are the statement's trace (`Stmt.trace?`), which is defined
on its own, and a replay ends in a queue when the trace can be performed.  Otherwise the first
occurrence that cannot be met is the one that is reported (`simulate_iff_trace`).

The body of a loop that is not run has no occurrences, whatever stands in it.
-/

namespace TensorLoops

/-- What a replay comes to. -/
inductive Occurrence where
  | event (event : CopyEvent)
  | refused (reason : ReplayError)
deriving DecidableEq, Repr

/-- The operation, if the occurrence is one. -/
def Occurrence.event? : Occurrence → Option CopyEvent
  | .event e   => some e
  | .refused _ => none

namespace Stmt

mutual

/-- What a replay of a statement comes to, in the order of execution. -/
def occurrences : Stmt → List Occurrence
  | .seq ss              => occurrencesList ss
  | .loop v extent body  =>
      match extent.constInt? with
      | some n => (List.replicate n.toNat body.occurrences).flatten
      | none   => [.refused (.loopExtent v.hint extent.text)]
  | .cond test _ _       => [.refused (.conditional test.text)]
  | .eval (.call func _) => ((CopyEvent.ofCall? func).map .event).toList
  | _                    => []

def occurrencesList : List Stmt → List Occurrence
  | []      => []
  | s :: ss => s.occurrences ++ occurrencesList ss

end

mutual

/-- The operations of a statement with its loops unrolled.  A conditional has none, nor has a loop
whose extent is no constant; the body of a loop that is not run may be anything. -/
def trace? : Stmt → Option (List CopyEvent)
  | .seq ss              => traceList? ss
  | .loop _ extent body  => do
      let n ← extent.constInt?
      if n ≤ 0 then some [] else return (List.replicate n.toNat (← body.trace?)).flatten
  | .cond _ _ _          => none
  | .eval (.call func _) => some (CopyEvent.ofCall? func).toList
  | _                    => some []

def traceList? : List Stmt → Option (List CopyEvent)
  | []      => some []
  | s :: ss => do return (← s.trace?) ++ (← traceList? ss)

end

end Stmt

namespace CopyQueue

/-- Perform operations in order, as long as they succeed. -/
def applyAll (q : CopyQueue) (events : List CopyEvent) : Except Error CopyQueue :=
  events.foldlM apply q

/-- Perform an operation, or fail at what is refused. -/
def meet (q : CopyQueue) : Occurrence → Except Error CopyQueue
  | .event event    => q.apply event
  | .refused reason => .error (.replay reason)

/-! ### Unrolling -/

/-- A step that meets some occurrences, repeated, meets them as often.  By induction on the number
of times. -/
theorem times_eq {body : List Occurrence} {step : CopyQueue → Except Error CopyQueue}
    (hstep : ∀ q, step q = body.foldlM meet q) (n : Nat) (q : CopyQueue) :
    times step n q = (List.replicate n body).flatten.foldlM meet q := by
  induction n generalizing q with
  | zero => rfl
  | succ n ih =>
      rw [times, List.replicate_succ, List.flatten_cons, List.foldlM_append, ← hstep]
      cases step q with
      | ok q₁ => exact ih q₁
      | error e => rfl

mutual

/-- Replaying a statement is meeting its occurrences one after another. -/
theorem replay_eq : ∀ (s : Stmt) (q : CopyQueue), replay s q = s.occurrences.foldlM meet q
  | .seq ss, q => by
      rw [replay, Stmt.occurrences]
      exact replayList_eq ss q
  | .loop v extent body, q => by
      rw [replay, Stmt.occurrences]
      cases extent.constInt? with
      | some n => exact times_eq (replay_eq body) n.toNat q
      | none => rfl
  | .cond _ _ _, _ => by
      rw [replay, Stmt.occurrences]
      rfl
  | .eval e, q => by
      cases e with
      | call func args =>
          rw [replay, Stmt.occurrences]
          cases CopyEvent.ofCall? func with
          | some event => exact (bind_pure (q.apply event)).symm
          | none => rfl
      | _ => rfl
  | .declare _ _, _ => rfl
  | .assign _ _, _ => rfl
  | .store _ _ _, _ => rfl
  | .ret _, _ => rfl
  | .asm _, _ => rfl

theorem replayList_eq : ∀ (ss : List Stmt) (q : CopyQueue),
    replayList ss q = (Stmt.occurrencesList ss).foldlM meet q
  | [], _ => by
      rw [replayList, Stmt.occurrencesList]
      rfl
  | s :: ss, q => by
      rw [replayList, Stmt.occurrencesList, List.foldlM_append, ← replay_eq s q]
      cases replay s q with
      | ok q₁ => exact replayList_eq ss q₁
      | error e => rfl

end

/-! ### Traces -/

/-- The events of repeated occurrences are those of one round, repeated. -/
theorem mapM_event?_replicate {n : Nat} (hn : 0 < n) (os : List Occurrence) :
    (List.replicate n os).flatten.mapM Occurrence.event? =
      (os.mapM Occurrence.event?).map fun events => (List.replicate n events).flatten := by
  induction n with
  | zero => cases hn
  | succ n ih =>
      rw [List.replicate_succ, List.flatten_cons, List.mapM_append]
      rcases Nat.eq_zero_or_pos n with rfl | hpos
      · cases os.mapM Occurrence.event? <;> simp
      · rw [ih hpos]
        cases os.mapM Occurrence.event? <;> simp [List.replicate_succ]

mutual

/-- The trace is there when every occurrence is an operation, and then it is these. -/
theorem trace?_eq : ∀ s : Stmt, s.trace? = s.occurrences.mapM Occurrence.event?
  | .seq ss => by
      rw [Stmt.trace?, Stmt.occurrences]
      exact traceList?_eq ss
  | .loop v extent body => by
      rw [Stmt.trace?, Stmt.occurrences]
      cases extent.constInt? with
      | none => simp [Occurrence.event?]
      | some n =>
          by_cases hn : n ≤ 0
          · simp [hn, Int.toNat_of_nonpos hn]
          · simp only [Option.bind_eq_bind, Option.bind_some, if_neg hn,
              mapM_event?_replicate (by omega : 0 < n.toNat), trace?_eq body]
            cases body.occurrences.mapM Occurrence.event? <;> rfl
  | .cond _ _ _ => by
      rw [Stmt.trace?, Stmt.occurrences]
      simp [Occurrence.event?]
  | .eval e => by
      cases e with
      | call func args =>
          rw [Stmt.trace?, Stmt.occurrences]
          cases CopyEvent.ofCall? func <;> simp [Occurrence.event?]
      | _ => rfl
  | .declare _ _ => rfl
  | .assign _ _ => rfl
  | .store _ _ _ => rfl
  | .ret _ => rfl
  | .asm _ => rfl

theorem traceList?_eq : ∀ ss : List Stmt,
    Stmt.traceList? ss = (Stmt.occurrencesList ss).mapM Occurrence.event?
  | [] => by
      rw [Stmt.traceList?, Stmt.occurrencesList]
      rfl
  | s :: ss => by
      rw [Stmt.traceList?, Stmt.occurrencesList, List.mapM_append, trace?_eq s, traceList?_eq ss]

end

/-! ### How a replay ends -/

variable {os : List Occurrence} {q q' : CopyQueue}

/-- Occurrences are met to the end when they are operations that can be performed. -/
theorem foldlM_meet_eq_ok : os.foldlM meet q = .ok q' ↔
    ∃ events, os.mapM Occurrence.event? = some events ∧ q.applyAll events = .ok q' := by
  induction os generalizing q with
  | nil => simp [applyAll]
  | cons o os ih =>
      rw [List.foldlM_cons, bind_eq_ok, List.mapM_cons]
      cases o with
      | refused reason => simp [meet, Occurrence.event?]
      | event event =>
          simp only [ih, meet, Occurrence.event?, Option.bind_eq_bind, Option.bind_some,
            Option.bind_eq_some_iff, Option.pure_def, Option.some.injEq]
          constructor
          · rintro ⟨q₁, hq₁, events, hevents, hall⟩
            exact ⟨_, ⟨events, hevents, rfl⟩, bind_eq_ok.mpr ⟨q₁, hq₁, hall⟩⟩
          · rintro ⟨_, ⟨events, hevents, rfl⟩, hall⟩
            obtain ⟨q₁, hq₁, hall⟩ := bind_eq_ok.mp hall
            exact ⟨q₁, hq₁, events, hevents, hall⟩

/-- A failure is that of an occurrence after operations that could be performed. -/
theorem foldlM_meet_eq_error {e : Error} : os.foldlM meet q = .error e ↔
    ∃ events o rest q', os = events.map .event ++ o :: rest ∧ q.applyAll events = .ok q' ∧
      q'.meet o = .error e := by
  induction os generalizing q with
  | nil => simp [pure, Except.pure]
  | cons o os ih =>
      rw [List.foldlM_cons, bind_eq_error]
      constructor
      · rintro (hfail | ⟨q₁, hq₁, hfail⟩)
        · exact ⟨[], o, os, q, rfl, rfl, hfail⟩
        · obtain ⟨events, o', rest, q', rfl, hall, hfail⟩ := ih.mp hfail
          cases o with
          | refused reason => cases hq₁
          | event event =>
              exact ⟨event :: events, o', rest, q', rfl, bind_eq_ok.mpr ⟨q₁, hq₁, hall⟩, hfail⟩
      · rintro ⟨events, o', rest, q', hos, hall, hfail⟩
        cases events with
        | nil =>
            obtain ⟨rfl, rfl⟩ := List.cons.inj hos
            obtain rfl := pure_eq_ok.mp hall
            exact .inl hfail
        | cons event events =>
            obtain ⟨rfl, rfl⟩ := List.cons.inj hos
            obtain ⟨q₁, hq₁, hall⟩ := bind_eq_ok.mp hall
            exact .inr ⟨q₁, hq₁, ih.mpr ⟨events, o', rest, q', rfl, hall, hfail⟩⟩

/-- **Replay is the run of the trace.**  It ends in a queue if and only if the statement has a trace
whose operations can all be performed on the empty queue, and the queue is the one they lead to.  It
fails if and only if, in the order of execution, something cannot be met after operations that could
be performed: an operation that fails there, a conditional or a loop without a constant extent.  The
failure is that of the first such occurrence. -/
theorem simulate_iff_trace (s : Stmt) :
    (∀ q, simulate s = .ok q ↔
      ∃ events, s.trace? = some events ∧ CopyQueue.empty.applyAll events = .ok q) ∧
    ∀ e, simulate s = .error e ↔
      ∃ events o rest q, s.occurrences = events.map .event ++ o :: rest ∧
        CopyQueue.empty.applyAll events = .ok q ∧ q.meet o = .error e := by
  simp only [simulate, replay_eq, trace?_eq]
  exact ⟨fun _ => foldlM_meet_eq_ok, fun _ => foldlM_meet_eq_error⟩

end CopyQueue

end TensorLoops
