import TensorLoops.Proofs.Code.Naming
import TensorLoops.Proofs.Compute.Identifiers

/-!
# Proofs — Compute — Names

The names in the text of a procedure that was made from a source.  Ids tell its variables apart
(`lowerSource_consistent`); names do unless a hint that some variable has alone is the name made for
another (`lowerSource_names_iff`).  Nothing keeps a source from having such a name
(`lowerSource_names_meet`).
-/

namespace TensorLoops

open Naming

theorem lowerSource_consistent {source name : String} {kind : ProcKind} {f : Procedure}
    (h : lowerSource source name kind = .ok f) : Consistent f.vars := by
  obtain ⟨p, t, params, d, hp, -, -, hlowered, rfl⟩ := lowerSource_eq_ok h
  have hbase := (Program.declared_of_parse hp).axes.append (.of_range hlowered.ids)
    (Nat.zero_le _) (Nat.le_add_right _ _)
  have hd := hlowered.accounted
  refine .of_nodup (hd.nodup hbase) ?_
  rw [Procedure.vars, Stmt.vars_ofList]
  refine List.append_subset.mpr ⟨fun v hv => ?_, hd.stmts⟩
  simp only [Task.Draft.made, List.mem_append] at hv ⊢
  tauto

/-- **Names tell variables apart**, and every name is read back as the variable it stands for, if and
only if no name made from a shared hint is the hint of a variable that has it alone. -/
theorem lowerSource_names_iff {source name : String} {kind : ProcKind} {f : Procedure}
    (h : lowerSource source name kind = .ok f) :
    ((∀ v ∈ f.vars, ∀ w ∈ f.vars, v.id ≠ w.id →
        (Naming.ofVars f.vars).name v ≠ (Naming.ofVars f.vars).name w) ↔
      ∀ v ∈ f.vars, ∀ w ∈ f.vars, ¬ Clash f.vars v w) ∧
    ((∀ v ∈ f.vars, resolve f.vars ((Naming.ofVars f.vars).name v) = some v) ↔
      ∀ v ∈ f.vars, ∀ w ∈ f.vars, ¬ Clash f.vars v w) := by
  have hvars := lowerSource_consistent h
  have hdiffer := names_differ_iff hvars
  exact ⟨hdiffer, (resolve_iff hvars).trans hdiffer⟩

/-- The two axes share a hint, and so do a result and its accumulator. -/
def sumTwice : String :=
  "input s_1: f32[4];
let s = sum[k: 4] => s_1[k];
let t = grid[k: 4] => s * s_1[k];
output s, t;"

/-- Two variables share a hint, and are told apart by their ids. -/
theorem lowerSource_names_iff_sumTwice : ∃ f, lowerSource sumTwice "sums" .host = .ok f ∧
    (∃ v ∈ f.vars, Shared f.vars v) ∧
    ∀ v ∈ f.vars, ∀ w ∈ f.vars, v.id ≠ w.id →
      (Naming.ofVars f.vars).name v ≠ (Naming.ofVars f.vars).name w := by
  have hok : (do
      let f ← lowerSource sumTwice "sums" .host
      return decide ((∃ v ∈ f.vars, Shared f.vars v) ∧
        ∀ v ∈ f.vars, ∀ w ∈ f.vars, ¬ Clash f.vars v w)) = Except.ok true := by
    decide +kernel
  obtain ⟨f, hf, hok⟩ := bind_eq_ok.mp hok
  obtain ⟨hshared, hclash⟩ := of_decide_eq_true (pure_eq_ok.mp hok)
  exact ⟨f, hf, hshared, (lowerSource_names_iff hf).1.mpr hclash⟩

/-- An input with the name made for an axis: the loop hides it. -/
def hiddenInput : String :=
  "input i_0: f32[4];
let y = grid[i: 4] => sum[i: 4] => i_0[i];"

/-- An input with the name that an axis is given: both are printed alike. -/
theorem lowerSource_names_meet : ∃ f, lowerSource hiddenInput "main" .host = .ok f ∧
    ∃ v ∈ f.vars, ∃ w ∈ f.vars, v.id ≠ w.id ∧
      (Naming.ofVars f.vars).name v = (Naming.ofVars f.vars).name w ∧
      resolve f.vars ((Naming.ofVars f.vars).name v) ≠ some v := by
  have hok : (do
      let f ← lowerSource hiddenInput "main" .host
      return decide (∃ v ∈ f.vars, ∃ w ∈ f.vars, v.id ≠ w.id ∧
        (Naming.ofVars f.vars).name v = (Naming.ofVars f.vars).name w ∧
        resolve f.vars ((Naming.ofVars f.vars).name v) ≠ some v)) = Except.ok true := by
    decide +kernel
  obtain ⟨f, hf, hok⟩ := bind_eq_ok.mp hok
  exact ⟨f, hf, of_decide_eq_true (pure_eq_ok.mp hok)⟩

end TensorLoops
