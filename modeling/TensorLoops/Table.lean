/-!
# Table

Finite maps kept as a list of entries with increasing keys, so that a table is determined by
what it holds and is walked in the order of its keys.
-/

namespace TensorLoops

/-- A finite map, as its entries in increasing order of keys. -/
structure Table (κ α : Type) where
  entries : List (κ × α)
deriving Repr

namespace Table

variable {κ α : Type}

def empty : Table κ α := ⟨[]⟩

def keys (t : Table κ α) : List κ := t.entries.map Prod.fst

def size (t : Table κ α) : Nat := t.entries.length

/-- The value at a key. -/
def find? [DecidableEq κ] (t : Table κ α) (k : κ) : Option α := t.entries.lookup k

def contains [DecidableEq κ] (t : Table κ α) (k : κ) : Bool := (t.find? k).isSome

/-- Put an entry where its key belongs, in place of an entry with the same key. -/
def place [DecidableEq κ] [LT κ] [DecidableLT κ] (k : κ) (a : α) : List (κ × α) → List (κ × α)
  | []           => [(k, a)]
  | (j, b) :: es =>
      if k < j then (k, a) :: (j, b) :: es
      else if k = j then (k, a) :: es
      else (j, b) :: place k a es

/-- The table with `a` at `k`. -/
def insert [DecidableEq κ] [LT κ] [DecidableLT κ] (t : Table κ α) (k : κ) (a : α) : Table κ α :=
  ⟨place k a t.entries⟩

/-- The table of a list of entries, a later entry for a key taking the place of an earlier. -/
def ofList [DecidableEq κ] [LT κ] [DecidableLT κ] (es : List (κ × α)) : Table κ α :=
  es.foldl (fun t e => t.insert e.1 e.2) empty

/-- All entries of both tables, those of the second winning. -/
def union [DecidableEq κ] [LT κ] [DecidableLT κ] (s t : Table κ α) : Table κ α :=
  t.entries.foldl (fun u e => u.insert e.1 e.2) s

@[simp] theorem find?_empty [DecidableEq κ] (k : κ) : (empty : Table κ α).find? k = none := rfl

/-- What was placed under a key is found there. -/
theorem lookup_place_self [DecidableEq κ] [LT κ] [DecidableLT κ] (k : κ) (a : α)
    (es : List (κ × α)) : (place k a es).lookup k = some a := by
  induction es with
  | nil => simp [place]
  | cons e es ih =>
      obtain ⟨j, b⟩ := e
      simp only [place]
      split
      · simp
      · split
        · simp
        · rename_i hne
          simp [List.lookup_cons, ih, beq_eq_false_iff_ne.mpr hne]

/-- Placing an entry changes nothing under other keys. -/
theorem lookup_place_of_ne [DecidableEq κ] [LT κ] [DecidableLT κ] {k i : κ} (h : i ≠ k) (a : α)
    (es : List (κ × α)) : (place k a es).lookup i = es.lookup i := by
  induction es with
  | nil => simp [place, List.lookup_cons, beq_eq_false_iff_ne.mpr h]
  | cons e es ih =>
      obtain ⟨j, b⟩ := e
      simp only [place]
      split
      · simp [List.lookup_cons, beq_eq_false_iff_ne.mpr h]
      · split
        · rename_i hk
          subst hk
          simp [List.lookup_cons, beq_eq_false_iff_ne.mpr h]
        · simp [List.lookup_cons, ih]

/-- Reading an inserted key gives the inserted value. -/
@[simp] theorem find?_insert_self [DecidableEq κ] [LT κ] [DecidableLT κ] (t : Table κ α) (k : κ)
    (a : α) : (t.insert k a).find? k = some a := lookup_place_self k a t.entries

/-- Reading any other key is not changed by an insertion. -/
theorem find?_insert_of_ne [DecidableEq κ] [LT κ] [DecidableLT κ] (t : Table κ α) {k i : κ}
    (h : i ≠ k) (a : α) : (t.insert k a).find? i = t.find? i := lookup_place_of_ne h a t.entries

end Table

end TensorLoops
