import Mathlib.Data.List.Induction
import Mathlib.Data.List.Nodup
import Mathlib.Data.List.Perm.Basic
import TensorLoops.Table

/-!
# Proofs — Table

What a table finds and the entries it is made of.
-/

namespace TensorLoops

namespace Table

variable {κ α : Type} [DecidableEq κ]

/-- What is found under a key is an entry of the table. -/
theorem mem_of_find? {t : Table κ α} {k : κ} {a : α} (h : t.find? k = some a) :
    (k, a) ∈ t.entries := by
  obtain ⟨es, fs, hentries, -⟩ := List.lookup_eq_some_iff.mp h
  rw [hentries]
  simp

/-- An entry is found under its key, if the keys are distinct. -/
theorem find?_of_mem {t : Table κ α} (h : t.keys.Nodup) {k : κ}
    {a : α} (hmem : (k, a) ∈ t.entries) : t.find? k = some a := by
  obtain ⟨es, fs, hentries⟩ := List.append_of_mem hmem
  refine List.lookup_eq_some_iff.mpr ⟨es, fs, hentries, fun e he => bne_iff_ne.mpr ?_⟩
  rintro rfl
  rw [keys, hentries, List.map_append, List.map_cons] at h
  exact List.disjoint_of_nodup_append h (List.mem_map_of_mem he) (List.mem_cons_self ..)

/-- The keys are those under which something is found. -/
theorem mem_keys_iff {t : Table κ α} {k : κ} : k ∈ t.keys ↔ ∃ a, t.find? k = some a := by
  constructor
  · intro h
    cases hfind : t.find? k with
    | some a => exact ⟨a, rfl⟩
    | none =>
        obtain ⟨e, he, rfl⟩ := List.mem_map.mp h
        exact absurd rfl (bne_iff_ne.mp (List.lookup_eq_none_iff.mp hfind e he))
  · rintro ⟨a, h⟩
    exact List.mem_map_of_mem (f := Prod.fst) (mem_of_find? h)

variable [LT κ] [DecidableLT κ]

theorem mem_keys_insert {t : Table κ α} {k i : κ} {a : α} :
    i ∈ (t.insert k a).keys ↔ i ∈ t.keys ∨ i = k := by
  by_cases h : i = k
  · subst h
    simp [mem_keys_iff]
  · simp [mem_keys_iff, find?_insert_of_ne _ h, h]

/-- Placing an entry brings in no other. -/
theorem mem_place {k : κ} {a : α} {es : List (κ × α)} {e : κ × α} (h : e ∈ place k a es) :
    e = (k, a) ∨ e ∈ es := by
  induction es with
  | nil => exact .inl (List.mem_singleton.mp h)
  | cons d es ih =>
      unfold place at h
      split at h
      · exact List.mem_cons.mp h
      · split at h
        · exact (List.mem_cons.mp h).imp_right (List.mem_cons_of_mem _)
        · rcases List.mem_cons.mp h with rfl | h
          · exact .inr (List.mem_cons_self ..)
          · exact (ih h).imp_right (List.mem_cons_of_mem _)

/-- Inserting at a new key adds one entry. -/
theorem place_perm {k : κ} {a : α} {es : List (κ × α)} (h : es.lookup k = none) :
    (place k a es).Perm ((k, a) :: es) := by
  induction es with
  | nil => exact .refl _
  | cons e es ih =>
      obtain ⟨j, b⟩ := e
      have hne : k ≠ j := by
        rintro rfl
        simp at h
      have hes : es.lookup k = none := by
        rwa [List.lookup_cons, beq_eq_false_iff_ne.mpr hne] at h
      unfold place
      split
      · exact .refl _
      · exact ((ih hes).cons _).trans (.swap _ _ _)

/-- A union has an entry that is the only one for its key in the second table, or stands in the
first where the second has none. -/
theorem find?_union {s t : Table κ α} {k : κ} {a : α} (honly : ∀ b, (k, b) ∈ t.entries → b = a)
    (h : s.find? k = some a ∨ (k, a) ∈ t.entries) : (s.union t).find? k = some a := by
  obtain ⟨es⟩ := t
  unfold union
  simp only at honly h ⊢
  induction es generalizing s with
  | nil => exact h.resolve_right List.not_mem_nil
  | cons e es ih =>
      refine ih (fun b hb => honly b (List.mem_cons_of_mem _ hb)) ?_
      by_cases hk : k = e.1
      · subst hk
        rw [find?_insert_self, honly e.2 (List.mem_cons_self ..)]
        exact .inl rfl
      · rw [find?_insert_of_ne _ hk]
        refine h.imp_right fun hmem => (List.mem_cons.mp hmem).resolve_left fun heq => hk ?_
        exact congrArg Prod.fst heq

/-- A union has the entries of the first table under the keys that the second lacks. -/
theorem find?_union_of_notMem {s t : Table κ α} {k : κ} (h : k ∉ t.keys) :
    (s.union t).find? k = s.find? k := by
  obtain ⟨es⟩ := t
  unfold union
  simp only [keys] at h ⊢
  induction es generalizing s with
  | nil => rfl
  | cons e es ih =>
      rw [List.map_cons, List.mem_cons, not_or] at h
      exact (ih h.2).trans (find?_insert_of_ne _ h.1 _)

/-- The keys of a union are those of both tables. -/
theorem mem_keys_union {s t : Table κ α} {k : κ} :
    k ∈ (s.union t).keys ↔ k ∈ s.keys ∨ k ∈ t.keys := by
  obtain ⟨es⟩ := t
  unfold union
  simp only [keys]
  induction es generalizing s with
  | nil => simp
  | cons e es ih =>
      refine ih.trans ?_
      have hinsert : k ∈ (s.insert e.1 e.2).entries.map Prod.fst ↔ k ∈ s.keys ∨ k = e.1 :=
        mem_keys_insert
      rw [hinsert, List.map_cons, List.mem_cons, or_assoc]
      rfl

/-- An entry of a union comes from one of the tables. -/
theorem mem_of_find?_union {s t : Table κ α} {k : κ} {a : α} (h : (s.union t).find? k = some a) :
    s.find? k = some a ∨ (k, a) ∈ t.entries := by
  obtain ⟨es⟩ := t
  unfold union at h
  simp only at h ⊢
  induction es generalizing s with
  | nil => exact .inl h
  | cons e es ih =>
      rcases ih h with hs | hmem
      · by_cases hk : k = e.1
        · subst hk
          rw [find?_insert_self] at hs
          obtain rfl := Option.some.inj hs
          exact .inr (List.mem_cons_self ..)
        · rw [find?_insert_of_ne _ hk] at hs
          exact .inl hs
      · exact .inr (List.mem_cons_of_mem _ hmem)

/-- The entries of a union come from one of the tables. -/
theorem mem_entries_union {s t : Table κ α} {e : κ × α} (h : e ∈ (s.union t).entries) :
    e ∈ s.entries ∨ e ∈ t.entries := by
  obtain ⟨es⟩ := t
  unfold union at h
  simp only at h ⊢
  induction es generalizing s with
  | nil => exact .inl h
  | cons e' es ih =>
      rcases ih h with hs | hmem
      · rcases mem_place hs with rfl | hs
        · exact .inr List.mem_cons_self
        · exact .inl hs
      · exact .inr (List.mem_cons_of_mem _ hmem)

theorem mem_entries_ofList {es : List (κ × α)} {e : κ × α} (h : e ∈ (ofList es).entries) : e ∈ es :=
  (mem_entries_union (s := empty) (t := ⟨es⟩) h).resolve_left List.not_mem_nil

theorem mem_keys_ofList {es : List (κ × α)} {k : κ} : k ∈ (ofList es).keys ↔ k ∈ es.map Prod.fst :=
  (mem_keys_union (s := empty) (t := ⟨es⟩)).trans (or_iff_right List.not_mem_nil)

theorem mem_of_find?_ofList {es : List (κ × α)} {k : κ} {a : α} (h : (ofList es).find? k = some a) :
    (k, a) ∈ es :=
  (mem_of_find?_union (t := ⟨es⟩) h).resolve_left nofun

/-- An entry of a list is found in its table, if all entries with that key have the same value. -/
theorem find?_ofList {es : List (κ × α)} {k : κ} {a : α} (honly : ∀ b, (k, b) ∈ es → b = a)
    (h : (k, a) ∈ es) : (ofList es).find? k = some a :=
  find?_union (s := empty) (t := ⟨es⟩) honly (.inr h)

/-- The last of the entries for a key is the one that counts. -/
theorem find?_ofList_iff {es : List (κ × α)} {k : κ} {a : α} :
    (ofList es).find? k = some a ↔ ∃ us vs, es = us ++ (k, a) :: vs ∧ k ∉ vs.map Prod.fst := by
  induction es using List.reverseRecOn with
  | nil => simp [ofList]
  | append_singleton es e ih =>
      have hlast : ofList (es ++ [e]) = (ofList es).insert e.1 e.2 := by simp [ofList]
      rw [hlast]
      by_cases hk : k = e.1
      · subst hk
        rw [find?_insert_self]
        constructor
        · rintro ⟨rfl⟩
          exact ⟨es, [], rfl, List.not_mem_nil⟩
        · rintro ⟨us, vs, heq, hvs⟩
          rcases List.eq_nil_or_concat vs with rfl | ⟨vs, v, rfl⟩
          · obtain ⟨-, heq⟩ := List.append_inj' heq rfl
            exact congrArg some (congrArg Prod.snd (List.cons.inj heq).1)
          · rw [List.concat_eq_append, ← List.cons_append, ← List.append_assoc] at heq
            obtain ⟨-, heq⟩ := List.append_inj' heq rfl
            rw [(List.cons.inj heq).1] at hvs
            simp at hvs
      · rw [find?_insert_of_ne _ hk, ih]
        constructor
        · rintro ⟨us, vs, rfl, hvs⟩
          exact ⟨us, vs ++ [e], by simp, by simpa [hk] using hvs⟩
        · rintro ⟨us, vs, heq, hvs⟩
          rcases List.eq_nil_or_concat vs with rfl | ⟨vs, v, rfl⟩
          · obtain ⟨-, heq⟩ := List.append_inj' heq rfl
            exact absurd (congrArg Prod.fst (List.cons.inj heq).1).symm hk
          · rw [List.concat_eq_append, ← List.cons_append, ← List.append_assoc] at heq
            obtain ⟨rfl, -⟩ := List.append_inj' heq rfl
            exact ⟨us, vs, rfl, fun h => hvs (by simp [h])⟩

end Table

/-! ### Mapping the values -/

namespace Table

variable {κ α β : Type}

/-- The table with every value replaced. -/
def map (f : α → β) (t : Table κ α) : Table κ β := ⟨t.entries.map fun e => (e.1, f e.2)⟩

theorem size_map (f : α → β) (t : Table κ α) : (t.map f).size = t.size := List.length_map _

variable [DecidableEq κ]

/-- Mapped values are found under the same keys. -/
theorem find?_map (f : α → β) (t : Table κ α) (k : κ) : (t.map f).find? k = (t.find? k).map f := by
  obtain ⟨es⟩ := t
  unfold find? map
  simp only
  induction es with
  | nil => rfl
  | cons e es ih =>
      rw [List.map_cons, List.lookup_cons, List.lookup_cons]
      cases k == e.1 with
      | true => rfl
      | false => exact ih

variable [LT κ] [DecidableLT κ]

/-- Mapping the values of a table commutes with an insertion. -/
theorem map_insert (f : α → β) (t : Table κ α) (k : κ) (a : α) :
    (t.insert k a).map f = (t.map f).insert k (f a) := by
  obtain ⟨es⟩ := t
  unfold insert map
  simp only [mk.injEq]
  induction es with
  | nil => rfl
  | cons e es ih =>
      unfold place
      simp only [List.map_cons]
      split
      · rfl
      · split
        · rfl
        · rw [List.map_cons, ih]

/-- Mapping the values of a table commutes with any number of insertions. -/
theorem map_foldl_insert (f : α → β) (es : List (κ × α)) (t : Table κ α) :
    (es.foldl (fun t e => t.insert e.1 e.2) t).map f =
      (es.map fun e => (e.1, f e.2)).foldl (fun t e => t.insert e.1 e.2) (t.map f) := by
  induction es generalizing t with
  | nil => rfl
  | cons e es ih =>
      rw [List.foldl_cons, ih, map_insert]
      rfl

theorem map_union (f : α → β) (s t : Table κ α) :
    (s.union t).map f = (s.map f).union (t.map f) := map_foldl_insert f t.entries s

theorem map_ofList (f : α → β) (es : List (κ × α)) :
    (ofList es).map f = ofList (es.map fun e => (e.1, f e.2)) := map_foldl_insert f es empty

end Table

end TensorLoops
