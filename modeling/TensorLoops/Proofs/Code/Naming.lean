import Mathlib.Data.List.Induction
import TensorLoops.Code.Naming
import TensorLoops.Proofs.Code.Layout
import TensorLoops.Proofs.Table

/-!
# Proofs — Code — Naming

Which variables a text tells apart.  Among variables with ids of their own, one whose hint no other
has is written as its hint, and one whose hint is shared as the hint with its id
(`name_of_shared`, `name_of_not_shared`).  Two plain hints never meet, and neither do two names with
ids, since the digits of an id hold no underscore (`withId_injective`).  There is one way left for
two variables to be written alike: the name made for one of them is the plain hint of the other
(`Naming.Clash`, `name_eq_name_iff`).
-/

namespace TensorLoops

/-! ### Names with ids -/

/-- The digits of a number are free of underscores, so they can be told from what stands before one.
-/
theorem underscore_notMem_toDigits (n : Nat) : '_' ∉ Nat.toDigits 10 n := fun h =>
  absurd (Nat.isDigit_of_mem_toDigits (by decide) (Nat.le_refl _) h) (by decide)

theorem toDigits_injective {m n : Nat} (h : Nat.toDigits 10 m = Nat.toDigits 10 n) : m = n := by
  calc m
    _ = Nat.ofDigitChars 10 (Nat.toDigits 10 m) 0 := Nat.ofDigitChars_ten_toDigits.symm
    _ = Nat.ofDigitChars 10 (Nat.toDigits 10 n) 0 := by rw [h]
    _ = n := Nat.ofDigitChars_ten_toDigits

/-- Where the mark does not occur after it, it stands at one place only. -/
theorem split_at_last {α : Type} {xs ys us vs : List α} {a : α} (hus : a ∉ us) (hvs : a ∉ vs)
    (h : xs ++ a :: us = ys ++ a :: vs) : xs = ys ∧ us = vs := by
  rcases List.append_eq_append_iff.mp h with ⟨zs, rfl, hzs⟩ | ⟨zs, rfl, hzs⟩
  · cases zs with
    | nil => simp_all
    | cons z zs => exact absurd (by simp_all) hus
  · cases zs with
    | nil => simp_all
    | cons z zs => exact absurd (by simp_all) hvs

namespace Naming

/-- The hint with the id. -/
def withId (v : Var) : String := v.hint ++ "_" ++ toString v.id

theorem withId_injective {v w : Var} (h : withId v = withId w) : v.hint = w.hint ∧ v.id = w.id := by
  have hlists : v.hint.toList ++ '_' :: Nat.toDigits 10 v.id =
      w.hint.toList ++ '_' :: Nat.toDigits 10 w.id := by
    simpa [withId, Nat.toString_eq_repr] using congrArg String.toList h
  obtain ⟨hhint, hid⟩ :=
    split_at_last (underscore_notMem_toDigits _) (underscore_notMem_toDigits _) hlists
  exact ⟨String.toList_injective hhint, toDigits_injective hid⟩

/-! ### Ids by hint -/

/-- The ids listed under the hint of a variable. -/
def idsBeside (vs : List Var) (v : Var) : List Nat := ((idsByHint vs).find? v.hint).getD []

/-- A variable whose id stands beside its hint already changes nothing. -/
theorem idsByHint_concat_of_mem {vs : List Var} {v : Var} (h : v.id ∈ idsBeside vs v) :
    idsByHint (vs ++ [v]) = idsByHint vs := by
  unfold idsByHint
  rw [List.foldl_append]
  exact if_pos h

theorem idsByHint_concat_of_notMem {vs : List Var} {v : Var} (h : v.id ∉ idsBeside vs v) :
    idsByHint (vs ++ [v]) = (idsByHint vs).insert v.hint (v.id :: idsBeside vs v) := by
  unfold idsByHint
  rw [List.foldl_append]
  exact if_neg h

/-- Every entry lists ids of variables with its hint, none twice. -/
theorem mem_idsByHint {vs : List Var} {hint : String} {ids : List Nat}
    (h : (hint, ids) ∈ (idsByHint vs).entries) :
    ids.Nodup ∧ ∀ id ∈ ids, ∃ v ∈ vs, v.hint = hint ∧ v.id = id := by
  induction vs using List.reverseRecOn generalizing hint ids with
  | nil => exact absurd h List.not_mem_nil
  | append_singleton vs v ih =>
      have hlater {ids : List Nat} {hint : String}
          (hids : ∀ id ∈ ids, ∃ w ∈ vs, w.hint = hint ∧ w.id = id) :
          ∀ id ∈ ids, ∃ w ∈ vs ++ [v], w.hint = hint ∧ w.id = id :=
        fun id hid => (hids id hid).imp fun w hw => ⟨List.mem_append_left _ hw.1, hw.2⟩
      by_cases hnew : v.id ∈ idsBeside vs v
      · rw [idsByHint_concat_of_mem hnew] at h
        exact (ih h).imp_right hlater
      · rw [idsByHint_concat_of_notMem hnew] at h
        rcases Table.mem_place h with heq | hold
        · obtain ⟨rfl, rfl⟩ := Prod.mk.inj heq
          have hids : (idsBeside vs v).Nodup ∧
              ∀ id ∈ idsBeside vs v, ∃ w ∈ vs, w.hint = v.hint ∧ w.id = id := by
            cases hfind : (idsByHint vs).find? v.hint with
            | none => simp [idsBeside, hfind]
            | some ids =>
                rw [idsBeside, hfind]
                exact ih (Table.mem_of_find? hfind)
          refine ⟨List.nodup_cons.mpr ⟨hnew, hids.1⟩, List.forall_mem_cons.mpr ⟨?_, hlater hids.2⟩⟩
          exact ⟨v, List.mem_append_right _ (List.mem_singleton_self v), rfl, rfl⟩
        · exact (ih hold).imp_right hlater

/-- The id of every variable is listed under its hint. -/
theorem mem_idsBeside {vs : List Var} {v : Var} (hv : v ∈ vs) : v.id ∈ idsBeside vs v := by
  induction vs using List.reverseRecOn with
  | nil => exact absurd hv List.not_mem_nil
  | append_singleton vs w ih =>
      have hv : v ∈ vs ∨ v = w := by simpa using hv
      by_cases hold : w.id ∈ idsBeside vs w
      · rw [idsBeside, idsByHint_concat_of_mem hold]
        exact hv.elim ih fun h => h ▸ hold
      · rw [idsBeside, idsByHint_concat_of_notMem hold]
        by_cases hhint : v.hint = w.hint
        · rw [hhint, Table.find?_insert_self, Option.getD_some]
          rcases hv with hv | rfl
          · refine List.mem_cons_of_mem _ ?_
            rw [idsBeside, ← hhint]
            exact ih hv
          · exact List.mem_cons_self ..
        · rw [Table.find?_insert_of_ne _ hhint]
          exact ih (hv.resolve_right fun h => hhint (congrArg Var.hint h))

/-- The ids found under the hint of a variable are those of the variables that share it. -/
theorem find?_idsByHint {vs : List Var} {v : Var} (hv : v ∈ vs) :
    (idsByHint vs).find? v.hint = some (idsBeside vs v) := by
  have hmem := mem_idsBeside hv
  cases hfind : (idsByHint vs).find? v.hint with
  | none => simp [idsBeside, hfind] at hmem
  | some ids => simp [idsBeside, hfind]

theorem one_lt_length {ids : List Nat} {i j : Nat} (hi : i ∈ ids) (hj : j ∈ ids) (h : i ≠ j) :
    1 < ids.length := by
  match ids, hi, hj with
  | [k], hi, hj =>
      rw [List.mem_singleton] at hi hj
      exact absurd (hi.trans hj.symm) h
  | _ :: _ :: _, _, _ => simp

/-- Of several ids, some are different from a given one. -/
theorem exists_ne_of_one_lt {ids : List Nat} (hnodup : ids.Nodup) (hlen : 1 < ids.length) (i : Nat) :
    ∃ j ∈ ids, j ≠ i := by
  have hrest : (ids.erase i).length ≠ 0 := by
    rw [List.length_erase]
    split <;> omega
  obtain ⟨j, hj⟩ := List.exists_mem_of_length_pos (Nat.pos_of_ne_zero hrest)
  exact ⟨j, (hnodup.mem_erase_iff.mp hj).symm⟩

/-! ### Names -/

/-- Another of the variables has the same hint. -/
def Shared (vs : List Var) (v : Var) : Prop := ∃ w ∈ vs, w.hint = v.hint ∧ w.id ≠ v.id

instance (vs : List Var) (v : Var) : Decidable (Shared vs v) :=
  inferInstanceAs (Decidable (∃ w ∈ vs, w.hint = v.hint ∧ w.id ≠ v.id))

/-- The name made for `v` is the hint of `w`, which has it alone. -/
def Clash (vs : List Var) (v w : Var) : Prop :=
  Shared vs v ∧ ¬ Shared vs w ∧ w.hint = withId v

instance (vs : List Var) (v w : Var) : Decidable (Clash vs v w) :=
  inferInstanceAs (Decidable (_ ∧ _ ∧ _))

/-- The first of the variables that is written so. -/
def resolve (vs : List Var) (s : String) : Option Var := vs.find? ((ofVars vs).name · = s)

/-- The names made, each with the id that it is for. -/
def renames (vs : List Var) : List (Nat × String) :=
  ((idsByHint vs).entries.filter (1 < ·.2.length)).flatMap fun e =>
    e.2.map fun id => (id, e.1 ++ "_" ++ toString id)

theorem name_ofVars (vs : List Var) (v : Var) :
    (ofVars vs).name v = ((Table.ofList (renames vs)).find? v.id).getD v.hint := rfl

section Names

variable {vs : List Var}

/-- An id is renamed if it stands beside its hint with another. -/
theorem mem_renames {id : Nat} {s : String} :
    (id, s) ∈ renames vs ↔ ∃ hint ids, (hint, ids) ∈ (idsByHint vs).entries ∧ 1 < ids.length ∧
      id ∈ ids ∧ s = hint ++ "_" ++ toString id := by
  simp only [renames, List.mem_flatMap, List.mem_filter, List.mem_map, decide_eq_true_eq,
    Prod.mk.injEq]
  constructor
  · rintro ⟨⟨hint, ids⟩, ⟨he, hlen⟩, id, hid, rfl, rfl⟩
    exact ⟨hint, ids, he, hlen, hid, rfl⟩
  · rintro ⟨hint, ids, he, hlen, hid, rfl⟩
    exact ⟨(hint, ids), ⟨he, hlen⟩, id, hid, rfl, rfl⟩

/-- A variable that shares its hint is named by the hint and its id. -/
theorem name_of_shared (hvs : Consistent vs) {v : Var} (hv : v ∈ vs) (h : Shared vs v) :
    (ofVars vs).name v = withId v := by
  obtain ⟨w, hw, hhint, hid⟩ := h
  have hwid : w.id ∈ idsBeside vs v := by
    have hwid := mem_idsBeside hw
    rwa [idsBeside, hhint] at hwid
  have hlen : 1 < (idsBeside vs v).length := one_lt_length hwid (mem_idsBeside hv) hid
  have hmem : (v.id, withId v) ∈ renames vs :=
    mem_renames.mpr ⟨v.hint, _, Table.mem_of_find? (find?_idsByHint hv), hlen, mem_idsBeside hv, rfl⟩
  -- an id stands under the hint of its variable only
  have honly : ∀ s, (v.id, s) ∈ renames vs → s = withId v := by
    intro s hs
    obtain ⟨hint, ids, he, -, hid, rfl⟩ := mem_renames.mp hs
    obtain ⟨u, hu, rfl, hid⟩ := (mem_idsByHint he).2 _ hid
    rw [hvs u hu v hv hid, withId]
  rw [name_ofVars, Table.find?_ofList honly hmem, Option.getD_some]

/-- A variable is written as its hint, or its id stands under a hint that is shared. -/
theorem name_eq_hint_or (v : Var) :
    (ofVars vs).name v = v.hint ∨ ∃ u ∈ vs, u.id = v.id ∧ Shared vs u := by
  rw [name_ofVars]
  cases hfind : (Table.ofList (renames vs)).find? v.id with
  | none => exact .inl rfl
  | some s =>
      obtain ⟨hint, ids, he, hlen, hid, -⟩ := mem_renames.mp (Table.mem_of_find?_ofList hfind)
      obtain ⟨hnodup, hids⟩ := mem_idsByHint he
      obtain ⟨i, hi, hne⟩ := exists_ne_of_one_lt hnodup hlen v.id
      obtain ⟨u, hu, rfl, hidu⟩ := hids _ hid
      obtain ⟨w, hw, hhint, rfl⟩ := hids i hi
      exact .inr ⟨u, hu, hidu, w, hw, hhint, hidu ▸ hne⟩

theorem name_of_not_shared (hvs : Consistent vs) {v : Var} (hv : v ∈ vs) (h : ¬ Shared vs v) :
    (ofVars vs).name v = v.hint := by
  refine (name_eq_hint_or v).resolve_right ?_
  rintro ⟨u, hu, hid, hshared⟩
  exact h (hvs u hu v hv hid ▸ hshared)

/-- Where no hint has two ids, every variable is written as its hint. -/
theorem name_eq_hint (hvs : ∀ v ∈ vs, ∀ w ∈ vs, v.hint = w.hint → v.id = w.id) (v : Var) :
    (ofVars vs).name v = v.hint := by
  refine (name_eq_hint_or v).resolve_right ?_
  rintro ⟨u, hu, -, w, hw, hhint, hne⟩
  exact hne (hvs w hw u hu hhint)

/-- **Variables are written alike** only where the name made for one of them is the hint of the
other. -/
theorem name_eq_name_iff (hvs : Consistent vs) {v w : Var} (hv : v ∈ vs) (hw : w ∈ vs) :
    (ofVars vs).name v = (ofVars vs).name w ↔ v = w ∨ Clash vs v w ∨ Clash vs w v := by
  by_cases hsv : Shared vs v <;> by_cases hsw : Shared vs w
  · rw [name_of_shared hvs hv hsv, name_of_shared hvs hw hsw]
    simp only [Clash, hsv, hsw, not_true_eq_false, false_and, and_false, or_false]
    exact ⟨fun h => hvs v hv w hw (withId_injective h).2, fun h => h ▸ rfl⟩
  · rw [name_of_shared hvs hv hsv, name_of_not_shared hvs hw hsw]
    have hne : v ≠ w := fun h => hsw (h ▸ hsv)
    simp [Clash, hsv, hsw, hne, eq_comm]
  · rw [name_of_not_shared hvs hv hsv, name_of_shared hvs hw hsw]
    have hne : v ≠ w := fun h => hsv (h ▸ hsw)
    simp [Clash, hsv, hsw, hne]
  · rw [name_of_not_shared hvs hv hsv, name_of_not_shared hvs hw hsw]
    simp only [Clash, hsv, hsw, false_and, or_false]
    refine ⟨fun h => hvs v hv w hw ?_, fun h => h ▸ rfl⟩
    by_contra hid
    exact hsv ⟨w, hw, h.symm, fun h => hid h.symm⟩

/-- All variables have names of their own where no name made meets a hint. -/
theorem names_differ_iff (hvs : Consistent vs) :
    (∀ v ∈ vs, ∀ w ∈ vs, v.id ≠ w.id → (ofVars vs).name v ≠ (ofVars vs).name w) ↔
      ∀ v ∈ vs, ∀ w ∈ vs, ¬ Clash vs v w := by
  constructor
  · intro h v hv w hw hclash
    have hid : v.id ≠ w.id := fun hid => hclash.2.1 (hvs v hv w hw hid ▸ hclash.1)
    exact h v hv w hw hid ((name_eq_name_iff hvs hv hw).mpr (.inr (.inl hclash)))
  · intro h v hv w hw hid hname
    rcases (name_eq_name_iff hvs hv hw).mp hname with rfl | hclash | hclash
    · exact hid rfl
    · exact h v hv w hw hclash
    · exact h w hw v hv hclash

/-- Names can be read back where all are different. -/
theorem resolve_iff (hvs : Consistent vs) :
    (∀ v ∈ vs, resolve vs ((ofVars vs).name v) = some v) ↔
      ∀ v ∈ vs, ∀ w ∈ vs, v.id ≠ w.id → (ofVars vs).name v ≠ (ofVars vs).name w := by
  constructor
  · intro h v hv w hw hid hname
    have hres := h v hv
    rw [hname, h w hw] at hres
    exact hid (congrArg Var.id (Option.some.inj hres)).symm
  · intro h v hv
    obtain ⟨w, hw⟩ : ∃ w, resolve vs ((ofVars vs).name v) = some w :=
      Option.isSome_iff_exists.mp (List.find?_isSome.mpr ⟨v, hv, by simp⟩)
    have hname : (ofVars vs).name w = (ofVars vs).name v := by simpa using List.find?_some hw
    have hmem : w ∈ vs := List.mem_of_find?_eq_some hw
    rw [hw, hvs w hmem v hv (not_not.mp fun hid => h w hmem v hv hid hname)]

end Names

end Naming

end TensorLoops
