import TensorLoops.Proofs.Compute.FrontEnd

/-!
# Proofs — Compute — Completion

A program that was read is lowered.  What expansion checks again, reading has seen to, at every
depth: inputs have storage, nodes fit what computes them, values have types and loops are closed.
So once there is something to compute and no reduction has too many points, nothing is left to fail
over but the counter of ids, and that it fails is told by a count over the graph
(`lower_of_parse`).
-/

namespace TensorLoops

/-- The result of an update is an error if its run is. -/
theorem Graph.Update.result_eq_error {α : Type} {u : Graph.Update α} {g : Graph} {e : Error} :
    u.result g = .error e ↔ ∃ g', u.run.run g = (.error e, g') := by
  unfold result
  generalize u.run.run g = r
  obtain ⟨r, g'⟩ := r
  cases r with
  | ok a =>
      refine iff_of_false (by rintro ⟨⟩) ?_
      rintro ⟨_, h⟩
      cases h
  | error e' =>
      constructor
      · rintro ⟨⟩
        exact ⟨g', rfl⟩
      · rintro ⟨_, h⟩
        cases h
        rfl

namespace Program

variable {source name : String} {p : Program} {t : Task}

/-- There is a task if something is bound or listed as an output. -/
theorem exists_task_iff : (∃ t, p.task name = .ok t) ↔ p.bindings ≠ [] ∨ p.outputs ≠ [] := by
  rw [task]
  cases p.outputs with
  | cons o os => simp
  | nil =>
      cases hlast : p.bindings.getLast? with
      | none => simp [List.getLast?_eq_none_iff.mp hlast]
      | some b =>
          have hsome : p.bindings ≠ [] := by
            intro hnil
            simp [hnil] at hlast
          simp [hsome]

/-- Where no reduction has too many points, the ids that a task takes tell how its lowering ends. -/
theorem lower_outcome (hp : parse source = .ok p) (ht : p.task name = .ok t)
    (hcounts : ∀ id, ¬ p.graph.Overcounts id) (kind : ProcKind) :
    (p.graph.nextVar + t.demand p.graph < Word.idLimit →
        ∃ f g, (t.lower kind).run.run p.graph = (.ok f, g)) ∧
      (Word.idLimit ≤ p.graph.nextVar + t.demand p.graph →
        ∃ g, (t.lower kind).run.run p.graph = (.error (.arithmetic .addOverflow), g)) := by
  have hlimited := Task.lower_limited (sensible_of_parse hp ht) kind
  generalize hr : (t.lower kind).result p.graph = r at hlimited
  cases hlimited with
  | @done a _ hlt _ =>
      exact ⟨fun _ => ⟨a.1, a.2, Graph.Update.result_eq_ok.mp hr⟩,
        fun hle => absurd hlt (Nat.not_lt.mpr hle)⟩
  | many hmeets =>
      obtain ⟨_, -, id, -, hover⟩ := hmeets
      exact absurd hover (hcounts id)
  | spent hle =>
      exact ⟨fun hlt => absurd hlt (Nat.not_lt.mpr hle),
        fun _ => Graph.Update.result_eq_error.mp hr⟩

/-! ### Doublings -/

section Doublings

variable {n i : Nat}

/-- Each doubling takes two best values for every one that the node before it takes, and its own. -/
theorem bests_doublingsProgram (hi : i < n) (hn : n ≤ Word.idLimit) :
    (doublingsProgram n).graph.bests [i] + 1 = Nat.pow 2 i := by
  induction i with
  | zero => rw [Graph.bests_input (node?_doublingsProgram hi hn) rfl]
  | succ i ih =>
      have hbefore := ih (Nat.lt_of_succ_lt hi)
      have hnode := node?_doublingsProgram hi hn
      generalize (doublingsProgram n).graph = g at hbefore hnode ⊢
      have hown : g.bests [i + 1] = 1 + (g.bests [i] + g.bests [i]) := by
        rw [← Graph.bests_append]
        exact Graph.bests_computed hnode rfl (by simp [Compute.value, Expr.nodes])
      have hpow : Nat.pow 2 (i + 1) = Nat.pow 2 i * 2 := rfl
      omega

theorem not_overcounts_doublings (id : Nat) : ¬ (doublingsProgram n).graph.Overcounts id := by
  rintro ⟨shape, axes, value, op, hreduce, -⟩
  obtain ⟨m, hm, hc⟩ := Option.bind_eq_some_iff.mp hreduce
  rw [eq_doubledNode hm] at hc
  cases id <;> cases hc

theorem task_doublingsProgram (n : Nat) (name : String) :
    (doublingsProgram (n + 2)).task name = .ok ⟨name, [0], [Word.toId (n + 1)]⟩ := by
  simp [task, doublingsProgram, List.range_succ]

/-- The ids that `n + 1` doublings take. -/
theorem pow_le_demand_doublings (hn : n + 2 ≤ Word.idLimit) (name : String) :
    Nat.pow 2 (n + 1) ≤ (doublingsProgram (n + 2)).graph.nextVar +
      Task.demand ⟨name, [0], [Word.toId (n + 1)]⟩ (doublingsProgram (n + 2)).graph := by
  have hid : Word.toId (n + 1) = n + 1 := Nat.mod_eq_of_lt hn
  have hbests : (doublingsProgram (n + 2)).graph.bests [n + 1] + 1 = Nat.pow 2 (n + 1) :=
    bests_doublingsProgram (Nat.lt_succ_self _) hn
  have hdemand := Task.bests_le_demand (g := (doublingsProgram (n + 2)).graph)
    (t := ⟨name, [0], [Word.toId (n + 1)]⟩) List.mem_cons_self
  rw [hid] at hdemand ⊢
  have hnext : (doublingsProgram (n + 2)).graph.nextVar = n + 1 := rfl
  omega

end Doublings

/-- **A program that was read is lowered.**  Take a text with a binding or an output in which no
reduction runs over more points than a word can count.  Its program has a task, and lowering it
never meets any of the failures of expansion: it gives a procedure, unless the ids of its variables
run out, which they do exactly if the ids drawn by reading and lowering are more than there are. -/
theorem lower_of_parse (hp : parse source = .ok p) (hdeclares : p.bindings ≠ [] ∨ p.outputs ≠ [])
    (hcounts : ∀ id, ¬ p.graph.Overcounts id) (name : String) (kind : ProcKind) :
    ∃ t, p.task name = .ok t ∧
      (p.graph.nextVar + t.demand p.graph < Word.idLimit →
        ∃ f g, (t.lower kind).run.run p.graph = (.ok f, g)) ∧
      (Word.idLimit ≤ p.graph.nextVar + t.demand p.graph →
        ∃ g, (t.lower kind).run.run p.graph = (.error (.arithmetic .addOverflow), g)) := by
  obtain ⟨t, ht⟩ := exists_task_iff.mpr hdeclares
  exact ⟨t, ht, lower_outcome hp ht hcounts kind⟩

theorem lower_of_parse_rowMeans : ∃ p t f g, parse rowMeans = .ok p ∧ p.task "means" = .ok t ∧
    p.graph.nextVar + t.demand p.graph < Word.idLimit ∧
    (t.lower .kernel).run.run p.graph = (.ok f, g) := by
  have hok : (do
      let p ← parse rowMeans
      let t ← p.task "means"
      let _ ← ((t.lower .kernel).run.run p.graph).1
      return decide (p.bindings ≠ []) &&
        p.graph.nodes.all fun n => decide (n.points < Word.limit)) = Except.ok true := by
    decide +kernel
  obtain ⟨p, hp, hok⟩ := bind_eq_ok.mp hok
  obtain ⟨t', ht', hok⟩ := bind_eq_ok.mp hok
  obtain ⟨f, hf, hok⟩ := bind_eq_ok.mp hok
  obtain ⟨hbindings, hpoints⟩ := (Bool.and_eq_true _ _).mp (pure_eq_ok.mp hok)
  have hcounts : ∀ id, ¬ p.graph.Overcounts id := by
    intro id hover
    obtain ⟨n, hn, hlarge⟩ := hover.overflows
    obtain ⟨hid, rfl⟩ := Array.getElem?_eq_some_iff.mp (Graph.getElem?_of_node? hn)
    exact absurd hlarge (Nat.not_le.mpr (of_decide_eq_true (Array.all_eq_true.mp hpoints id hid)))
  obtain ⟨t, ht, hdone, hspent⟩ :=
    lower_of_parse hp (.inl (of_decide_eq_true hbindings)) hcounts "means" .kernel
  obtain rfl := Except.ok.inj (ht'.symm.trans ht)
  -- The demand is not evaluated: were it too large, the lowering above would have failed.
  have hids : p.graph.nextVar + t'.demand p.graph < Word.idLimit := by
    refine Nat.lt_of_not_le fun hle => ?_
    obtain ⟨g, hg⟩ := hspent hle
    rw [hg] at hf
    cases hf
  obtain ⟨f, g, hrun⟩ := hdone hids
  exact ⟨p, t', f, g, hp, ht, hids, hrun⟩

/-- An input and thirty-two doublings take more ids than there are. -/
theorem lower_doublings_overflows :
    ∃ p t g, parse (Lexeme.spell ((List.range 33).flatMap doublings)) = .ok p ∧ p.bindings ≠ [] ∧
      (∀ id, ¬ p.graph.Overcounts id) ∧ p.task "doubled" = .ok t ∧
      (t.lower .kernel).run.run p.graph = (.error (.arithmetic .addOverflow), g) := by
  have hn : 31 + 2 ≤ Word.idLimit := by decide
  have hp := parse_doublings hn
  have ht := task_doublingsProgram 31 "doubled"
  have hcounts := not_overcounts_doublings (n := 31 + 2)
  have hids : Word.idLimit ≤ _ := pow_le_demand_doublings hn "doubled"
  obtain ⟨g, hg⟩ := (lower_outcome hp ht hcounts .kernel).2 hids
  exact ⟨_, _, g, hp, List.cons_ne_nil _ _, hcounts, ht, hg⟩

end Program

end TensorLoops
