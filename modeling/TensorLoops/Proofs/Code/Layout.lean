import TensorLoops.Proofs.Code.Address

/-!
# Proofs — Code — Layout

Flattened code follows the code it was made from.  A memory is *laid out* by another when the
cell of every tensor element is found there at the element's row-major address (`LaidOut`).  In
such memories an expression and its flattened form have the same value (`eval_flatten`), and a
run of a statement is followed by a run of the flattened statement (`exec_flatten`): the
memories stay laid out, and what happened in one run happened in the other, at the addresses of
the cells (`Follows`).

A variable id must stand for one variable only: two tensors under one id have two layouts.
-/

namespace TensorLoops

/-! ### Cells -/

/-- The indices of an access once its variable has been flattened. -/
def Ty.flatIndices : Ty → List Int → List Int
  | .tensor _ shape, is => [address shape is]
  | _,               is => is

/-- Among the variables an id belongs to one of them only. -/
def Consistent (vs : List Var) : Prop := ∀ v ∈ vs, ∀ w ∈ vs, v.id = w.id → v = w

instance (vs : List Var) : Decidable (Consistent vs) :=
  inferInstanceAs (Decidable (∀ v ∈ vs, ∀ w ∈ vs, v.id = w.id → v = w))

namespace Place

/-- A scalar, or an element of one of the variables at indices that it admits. -/
def Of (vs : List Var) : Place → Prop
  | .scalar _      => True
  | .element id is => ∃ v ∈ vs, v.id = id ∧ v.ty.Admits is

/-- The cell in flattened memory. -/
def flatten (vs : List Var) : Place → Place
  | .scalar id     => .scalar id
  | .element id is =>
      match vs.find? (·.id = id) with
      | some v => .element id (v.ty.flatIndices is)
      | none   => .element id is

@[simp] theorem id_flatten (vs : List Var) (p : Place) : (p.flatten vs).id = p.id := by
  cases p with
  | scalar id => rfl
  | element id is => rw [flatten]; split <;> rfl

end Place

/-- Where an id always denotes the same variable, a search by id finds it. -/
theorem Consistent.find? {vs : List Var} (h : Consistent vs) {v : Var} (hv : v ∈ vs) :
    vs.find? (·.id = v.id) = some v := by
  obtain ⟨w, hw⟩ : ∃ w, vs.find? (·.id = v.id) = some w :=
    Option.isSome_iff_exists.mp (List.find?_isSome.mpr ⟨v, hv, by simp⟩)
  have hid : w.id = v.id := by simpa using List.find?_some hw
  rw [hw, h w (List.mem_of_find?_eq_some hw) v hv hid]

theorem Place.flatten_element {vs : List Var} (h : Consistent vs) {v : Var} (hv : v ∈ vs)
    (is : List Int) :
    Place.flatten vs (.element v.id is) = .element v.id (v.ty.flatIndices is) := by
  simp only [Place.flatten, h.find? hv]

/-- Indices that a type admits are told apart by their flattened form. -/
theorem Ty.flatIndices_injective {ty : Ty} {is js : List Int} (hi : ty.Admits is)
    (hj : ty.Admits js) (h : ty.flatIndices is = ty.flatIndices js) : is = js := by
  cases ty with
  | tensor s shape => exact address_injective hi hj (List.cons.inj h).1
  | pointer base => exact h
  | scalar s => exact h
  | reference base => exact h
  | void => exact h

/-- **No two cells share an address.** -/
theorem Place.flatten_injective {vs : List Var} (h : Consistent vs) {p q : Place} (hp : p.Of vs)
    (hq : q.Of vs) (hpq : p.flatten vs = q.flatten vs) : p = q := by
  have hid : p.id = q.id := by rw [← id_flatten vs p, hpq, id_flatten]
  match p, q, hp, hq with
  | .scalar i, .scalar j, _, _ => exact hpq
  | .scalar i, .element _ _, _, ⟨w, hw, rfl, _⟩ =>
      rw [flatten_element h hw] at hpq
      exact nomatch hpq
  | .element _ _, .scalar j, ⟨v, hv, rfl, _⟩, _ =>
      rw [flatten_element h hv] at hpq
      exact nomatch hpq
  | .element _ is, .element _ js, ⟨v, hv, rfl, hi⟩, ⟨w, hw, rfl, hj⟩ =>
      obtain rfl := h v hv w hw hid
      rw [flatten_element h hv, flatten_element h hv] at hpq
      rw [Ty.flatIndices_injective hi hj (Place.element.inj hpq).2]

/-- Every cell of the variables is found at its place in the flattened memory. -/
def LaidOut {V : Type} (vs : List Var) (m m' : Memory V) : Prop :=
  ∀ p : Place, p.Of vs → m' (p.flatten vs) = m p

namespace LaidOut

variable {V : Type} {vs : List Var} {m m' : Memory V}

/-- Memories stay laid out when a cell and its image get the same value. -/
theorem update (hvs : Consistent vs) (h : LaidOut vs m m') {p : Place} (hp : p.Of vs) (x : V) :
    LaidOut vs (Function.update m p x) (Function.update m' (p.flatten vs) x) := by
  intro q hq
  by_cases hqp : q = p
  · subst hqp; simp
  · have : q.flatten vs ≠ p.flatten vs := fun e => hqp (Place.flatten_injective hvs hq hp e)
    rw [Function.update_of_ne this, Function.update_of_ne hqp, h q hq]

theorem fill (h : LaidOut vs m m') (id : Nat) (x : V) : LaidOut vs (m.fill id x) (m'.fill id x) := by
  intro q hq
  simp only [Memory.fill, Place.id_flatten]
  split
  · rfl
  · exact h q hq

end LaidOut

/-! ### Expressions -/

theorem Var.flatten_id {v w : Var} (h : v.flatten = .ok w) : w.id = v.id := by
  unfold Var.flatten at h
  split at h
  · obtain ⟨size, -, h⟩ := bind_eq_ok.mp h
    rw [← pure_eq_ok.mp h]
  · rw [← Except.ok.inj h]

/-- A flattened variable admits the flattened indices. -/
theorem Var.flatten_admits {v w : Var} (h : v.flatten = .ok w) {is : List Int}
    (his : v.ty.Admits is) : w.ty.Admits (v.ty.flatIndices is) := by
  unfold Var.flatten at h
  split at h
  · rename_i s shape hty
    obtain ⟨size, hsize, h⟩ := bind_eq_ok.mp h
    obtain rfl := pure_eq_ok.mp h
    rw [hty] at his ⊢
    obtain rfl := Word.product_eq hsize
    exact ⟨⟨address_nonneg his, address_lt his⟩, trivial⟩
  · rename_i hty
    obtain rfl := Except.ok.inj h
    cases hv : v.ty with
    | tensor s shape => exact absurd hv (hty s shape)
    | pointer base => rw [hv] at his; exact his
    | scalar s => rw [hv] at his; exact his
    | reference base => rw [hv] at his; exact his
    | void => rw [hv] at his; exact his

section Eval

variable {V : Type} {I : Interp V} {m m' : Memory V} {vs : List Var}

/-- The single index of a flattened access comes to the flattened indices. -/
theorem indices_flatIndex (hI : I.Exact) {v w : Var} (hv : v.flatten = .ok w) {es es' : List Expr}
    (he : flatIndex (.var v) es = .ok es') {is : List Int} (his : indices I m es = some is)
    (hin : v.ty.Admits is) : indices I m es' = some (v.ty.flatIndices is) := by
  obtain ⟨id, hint, ty⟩ := v
  cases ty with
  | tensor s shape =>
      simp only [flatIndex] at he
      split at he
      · obtain rfl := Except.ok.inj he
        obtain ⟨size, hsize, -⟩ := bind_eq_ok.mp hv
        exact indices_singleton.mpr (toInt?_rowMajor hI hsize his hin)
      · exact nomatch he
  | pointer base =>
      simp only [flatIndex] at he
      split at he
      · obtain rfl := Except.ok.inj he
        exact his
      · exact nomatch he
  | scalar s => exact nomatch he
  | reference base => exact nomatch he
  | void => exact nomatch he

/-- A flattened access has a variable for its base. -/
theorem flatIndex_base {base : Expr} {es es' : List Expr} (h : flatIndex base es = .ok es') :
    ∃ v, base = .var v := by
  cases base with
  | var v => exact ⟨v, rfl⟩
  | const value s => exact nomatch h
  | node id => exact nomatch h
  | binary op l r => exact nomatch h
  | unary op e => exact nomatch h
  | cast e ty => exact nomatch h
  | element b is => exact nomatch h
  | call f as => exact nomatch h

/-- An access names a cell if its variable admits the indices. -/
theorem cell_eq_some {v : Var} {is : List Int} {p : Place} :
    cell (.var v) is = some p ↔ v.ty.Admits is ∧ p = .element v.id is := by
  simp only [cell]
  split
  · rename_i h; simp [h, eq_comm]
  · rename_i h; simp [h]

/-- The cell of a flattened access is the flattened cell. -/
theorem cell_flatten (hvs : Consistent vs) {v w : Var} (hmem : v ∈ vs) (hv : v.flatten = .ok w)
    {is : List Int} {p : Place} (hp : cell (.var v) is = some p) :
    cell (.var w) (v.ty.flatIndices is) = some (p.flatten vs) ∧ p.Of vs := by
  obtain ⟨hin, rfl⟩ := cell_eq_some.mp hp
  refine ⟨cell_eq_some.mpr ⟨Var.flatten_admits hv hin, ?_⟩, v, hmem, rfl, hin⟩
  rw [Place.flatten_element hvs hmem, Var.flatten_id hv]

/-- The indices of an access and the cell it names, flattened. -/
theorem cell_flatIndex (hI : I.Exact) (hvs : Consistent vs) {v w : Var} (hmem : v ∈ vs)
    (hv : v.flatten = .ok w) {es es' : List Expr} (he : flatIndex (.var v) es = .ok es')
    {is : List Int} (his : indices I m es = some is) {p : Place} (hp : cell (.var v) is = some p) :
    (indices I m es').bind (cell (.var w)) = some (p.flatten vs) ∧ p.Of vs := by
  have hin := (cell_eq_some.mp hp).1
  obtain ⟨hcell, hof⟩ := cell_flatten hvs hmem hv hp
  rw [indices_flatIndex hI hv he his hin]
  exact ⟨hcell, hof⟩

/-- The value of an access is that of the cell which its indices name. -/
theorem eval_element {base : Expr} {es : List Expr} {x : V} :
    eval I m (.element base es) = some x ↔
      ∃ is p, indices I m es = some is ∧ cell base is = some p ∧ x = m p := by
  simp only [eval, indices, Option.bind_eq_bind, Option.bind_eq_some_iff, Option.pure_def,
    Option.some.injEq]
  constructor
  · rintro ⟨xs, hxs, is, his, p, hp, rfl⟩
    exact ⟨is, p, ⟨xs, hxs, his⟩, hp, rfl⟩
  · rintro ⟨is, p, ⟨xs, hxs, his⟩, hp, rfl⟩
    exact ⟨xs, hxs, is, his, p, hp, rfl⟩

mutual

/-- **An expression keeps its value.** -/
theorem eval_flatten (hI : I.Exact) (hvs : Consistent vs) (hm : LaidOut vs m m') :
    ∀ {e e' : Expr}, e.flatten = .ok e' → (∀ v ∈ e.vars, v ∈ vs) →
      ∀ {x : V}, eval I m e = some x → eval I m' e' = some x
  | .var v, e', he, _, x, hx => by
      obtain ⟨w, hw, he⟩ := bind_eq_ok.mp he
      obtain rfl := pure_eq_ok.mp he
      obtain rfl := Option.some.inj hx
      rw [eval, Var.flatten_id hw]
      exact congrArg some (hm (.scalar v.id) trivial)
  | .const value s, e', he, _, x, hx => by
      obtain rfl := pure_eq_ok.mp he
      exact hx
  | .node id, _, _, _, _, hx => nomatch hx
  | .binary op l r, e', he, hvars, x, hx => by
      simp only [Expr.flatten, bind_eq_ok, pure_eq_ok] at he
      obtain ⟨l', hl, r', hr, rfl⟩ := he
      simp only [eval, Option.bind_eq_bind, Option.bind_eq_some_iff, Option.pure_def] at hx ⊢
      obtain ⟨a, ha, b, hb, hx⟩ := hx
      exact ⟨a, eval_flatten hI hvs hm hl (fun v h => hvars v (List.mem_append_left _ h)) ha, b,
        eval_flatten hI hvs hm hr (fun v h => hvars v (List.mem_append_right _ h)) hb, hx⟩
  | .unary op e, e', he, hvars, x, hx => by
      simp only [Expr.flatten, bind_eq_ok, pure_eq_ok] at he
      obtain ⟨a', ha', rfl⟩ := he
      simp only [eval, Option.bind_eq_bind, Option.bind_eq_some_iff, Option.pure_def] at hx ⊢
      obtain ⟨a, ha, hx⟩ := hx
      exact ⟨a, eval_flatten hI hvs hm ha' hvars ha, hx⟩
  | .cast e ty, e', he, hvars, x, hx => by
      simp only [Expr.flatten, bind_eq_ok, pure_eq_ok] at he
      obtain ⟨a', ha', rfl⟩ := he
      simp only [eval, Option.bind_eq_bind, Option.bind_eq_some_iff, Option.pure_def] at hx ⊢
      obtain ⟨a, ha, hx⟩ := hx
      exact ⟨a, eval_flatten hI hvs hm ha' hvars ha, hx⟩
  | .element base idxs, e', he, hvars, x, hx => by
      simp only [Expr.flatten, bind_eq_ok, pure_eq_ok] at he
      obtain ⟨js, hjs, ks, hks, base', hbase, rfl⟩ := he
      obtain ⟨is, p, his, hp, rfl⟩ := eval_element.mp hx
      obtain ⟨v, rfl⟩ := flatIndex_base hks
      obtain ⟨w, hw, hbase⟩ := bind_eq_ok.mp hbase
      obtain rfl := pure_eq_ok.mp hbase
      -- the flattened index list is evaluated by the list theorem below
      obtain ⟨xs, hxs, his⟩ := Option.bind_eq_some_iff.mp his
      have his' : indices I m' js = some is := by
        have hlist := evalList_flatten hI hvs hm hjs (fun u h => hvars u (List.mem_append_right _ h)) hxs
        exact Option.bind_eq_some_iff.mpr ⟨xs, hlist, his⟩
      obtain ⟨hcell, hof⟩ :=
        cell_flatIndex hI hvs (hvars v (List.mem_append_left _ (List.mem_singleton_self v)))
          hw hks his' hp
      obtain ⟨qs, hqs, hcell⟩ := Option.bind_eq_some_iff.mp hcell
      exact eval_element.mpr ⟨qs, _, hqs, hcell, (hm p hof).symm⟩
  | .call f as, e', he, hvars, x, hx => by
      simp only [Expr.flatten, bind_eq_ok, pure_eq_ok] at he
      obtain ⟨bs, hbs, rfl⟩ := he
      simp only [eval, Option.bind_eq_bind, Option.bind_eq_some_iff, Option.pure_def] at hx ⊢
      obtain ⟨xs, hxs, hx⟩ := hx
      exact ⟨xs, evalList_flatten hI hvs hm hbs hvars hxs, hx⟩

/-- `eval_flatten` for lists of expressions. -/
theorem evalList_flatten (hI : I.Exact) (hvs : Consistent vs) (hm : LaidOut vs m m') :
    ∀ {es es' : List Expr}, Expr.flattenList es = .ok es' → (∀ v ∈ Expr.varsList es, v ∈ vs) →
      ∀ {xs : List V}, evalList I m es = some xs → evalList I m' es' = some xs
  | [], es', he, _, xs, hxs => by
      obtain rfl := pure_eq_ok.mp he
      exact hxs
  | e :: es, es', he, hvars, xs, hxs => by
      simp only [Expr.flattenList, bind_eq_ok, pure_eq_ok] at he
      obtain ⟨a', ha', as', has', rfl⟩ := he
      obtain ⟨x, ys, hx, hys, rfl⟩ := evalList_cons.mp hxs
      exact evalList_cons.mpr ⟨x, ys,
        eval_flatten hI hvs hm ha' (fun v h => hvars v (List.mem_append_left _ h)) hx,
        evalList_flatten hI hvs hm has' (fun v h => hvars v (List.mem_append_right _ h)) hys, rfl⟩

end

/-- Flattened index expressions come to the same integers. -/
theorem indices_flatten (hI : I.Exact) (hvs : Consistent vs) (hm : LaidOut vs m m')
    {es es' : List Expr} (he : Expr.flattenList es = .ok es')
    (hvars : ∀ v ∈ Expr.varsList es, v ∈ vs) {is : List Int} (his : indices I m es = some is) :
    indices I m' es' = some is := by
  obtain ⟨xs, hxs, his⟩ := Option.bind_eq_some_iff.mp his
  exact Option.bind_eq_some_iff.mpr ⟨xs, evalList_flatten hI hvs hm he hvars hxs, his⟩

/-- A flattened expression names the flattened cell. -/
theorem place_flatten (hI : I.Exact) (hvs : Consistent vs) (hm : LaidOut vs m m') {e e' : Expr}
    (he : e.flatten = .ok e') (hvars : ∀ v ∈ e.vars, v ∈ vs) {p : Place}
    (hp : place I m e = some p) : place I m' e' = some (p.flatten vs) ∧ p.Of vs := by
  match e, hp with
  | .var v, hp =>
      obtain ⟨w, hw, he⟩ := bind_eq_ok.mp he
      obtain rfl := pure_eq_ok.mp he
      obtain rfl := Option.some.inj hp
      rw [place, Var.flatten_id hw]
      exact ⟨rfl, trivial⟩
  | .element base idxs, hp =>
      simp only [Expr.flatten, bind_eq_ok, pure_eq_ok] at he
      obtain ⟨js, hjs, ks, hks, base', hbase, rfl⟩ := he
      obtain ⟨is, his, hp⟩ := Option.bind_eq_some_iff.mp hp
      obtain ⟨v, rfl⟩ := flatIndex_base hks
      obtain ⟨w, hw, hbase⟩ := bind_eq_ok.mp hbase
      obtain rfl := pure_eq_ok.mp hbase
      have his' := indices_flatten hI hvs hm hjs (fun u h => hvars u (List.mem_append_right _ h)) his
      exact cell_flatIndex hI hvs (hvars v (List.mem_append_left _ (List.mem_singleton_self v)))
        hw hks his' hp

theorem constInt?_flatten {e e' : Expr} (he : e.flatten = .ok e') : e'.constInt? = e.constInt? := by
  cases e <;> simp only [Expr.flatten, bind_eq_ok, pure_eq_ok] at he <;> grind [Expr.constInt?]

/-- A loop keeps its number of iterations. -/
theorem count_flatten (hI : I.Exact) (hvs : Consistent vs) (hm : LaidOut vs m m') {e e' : Expr}
    (he : e.flatten = .ok e') (hvars : ∀ v ∈ e.vars, v ∈ vs) {n : Int}
    (hn : count I m e = some n) : count I m' e' = some n := by
  unfold count at hn ⊢
  rw [constInt?_flatten he]
  split at hn
  · exact hn
  · obtain ⟨x, hx, hn⟩ := Option.bind_eq_some_iff.mp hn
    exact Option.bind_eq_some_iff.mpr ⟨x, eval_flatten hI hvs hm he hvars hx, hn⟩

end Eval

/-! ### Runs -/

/-- The event at the flattened cell. -/
def Event.flatten {V : Type} (vs : List Var) : Event V → Event V
  | .write p x => .write (p.flatten vs) x
  | e          => e

/-- A machine on flattened code follows one on the code itself. -/
structure Follows {V : Type} (vs : List Var) (s s' : Machine V) : Prop where
  memory : LaidOut vs s.memory s'.memory
  trace  : s'.trace = s.trace.map (Event.flatten vs)
  result : s'.result = s.result

namespace Follows

variable {V : Type} {vs : List Var} {s s' : Machine V}

theorem log (h : Follows vs s s') {e e' : Event V} (he : e' = e.flatten vs) :
    Follows vs (s.log e) (s'.log e') :=
  ⟨h.memory, by simp [Machine.log, h.trace, he], h.result⟩

theorem write (hvs : Consistent vs) (h : Follows vs s s') {p : Place} (hp : p.Of vs) (x : V) :
    Follows vs (s.write p x) (s'.write (p.flatten vs) x) :=
  ⟨h.memory.update hvs hp x, by simp [Machine.write, h.trace, Event.flatten], h.result⟩

theorem writeAll (hvs : Consistent vs) {ps : List Place} (hps : ∀ p ∈ ps, p.Of vs) (xs : List V)
    {s s' : Machine V} (h : Follows vs s s') :
    Follows vs (s.writeAll (ps.zip xs)) (s'.writeAll ((ps.map (Place.flatten vs)).zip xs)) := by
  induction ps generalizing xs s s' with
  | nil => exact h
  | cons p ps ih =>
      cases xs with
      | nil => exact h
      | cons x xs =>
          exact ih (fun q hq => hps q (List.mem_cons_of_mem p hq)) xs
            (h.write hvs (hps p List.mem_cons_self) x)

theorem logAll (xs : List V) {s s' : Machine V} (h : Follows vs s s') :
    Follows vs (xs.foldl (fun s x => s.log (.value x)) s)
      (xs.foldl (fun s x => s.log (.value x)) s') := by
  induction xs generalizing s s' with
  | nil => exact h
  | cons x xs ih => exact ih (h.log rfl)

theorem begin (hvs : Consistent vs) (I : Interp V) (h : Follows vs s s') (id i : Nat) :
    Follows vs (s.begin I id i) (s'.begin I id i) :=
  (h.log rfl).write hvs (p := .scalar id) trivial (I.counter i)

end Follows

/-- Every run of the first is followed by a run of the second. -/
def Tracks {V : Type} (vs : List Var) (f f' : Machine V → Option (Machine V)) : Prop :=
  ∀ s s' r : Machine V, Follows vs s s' → f s = some r → ∃ r', f' s' = some r' ∧ Follows vs r r'

namespace Tracks

variable {V : Type} {vs : List Var} {f f' g g' : Machine V → Option (Machine V)}

/-- A step that cannot fail. -/
theorem done {f f' : Machine V → Machine V}
    (hf : ∀ {s s'}, Follows vs s s' → Follows vs (f s) (f' s')) :
    Tracks vs (fun s => some (f s)) (fun s => some (f' s)) := by
  intro s s' r h hr
  obtain rfl := Option.some.inj hr
  exact ⟨f' s', rfl, hf h⟩

/-- Going on unless a value was returned keeps runs together. -/
theorem proceed (hg : Tracks vs g g') : Tracks vs (·.proceed g) (·.proceed g') := by
  intro s s' r h hr
  simp only [Machine.proceed, h.result] at hr ⊢
  split at hr
  · rename_i hs
    obtain rfl := Option.some.inj hr
    exact ⟨s', by rw [if_pos hs], h⟩
  · rename_i hs
    rw [if_neg hs]
    exact hg s s' r h hr

/-- One run after another. -/
theorem andThen (hf : Tracks vs f f') (hg : Tracks vs g g') :
    Tracks vs (fun s => (f s).bind (·.proceed g)) (fun s => (f' s).bind (·.proceed g')) := by
  intro s s' r h hr
  obtain ⟨t, ht, hr⟩ := Option.bind_eq_some_iff.mp hr
  obtain ⟨t', ht', h'⟩ := hf s s' t h ht
  obtain ⟨r', hr', h''⟩ := hg.proceed t t' r h' hr
  exact ⟨r', Option.bind_eq_some_iff.mpr ⟨t', ht', hr'⟩, h''⟩

theorem begin (hvs : Consistent vs) (I : Interp V) (id i : Nat) (hf : Tracks vs f f') :
    Tracks vs (fun s => f (s.begin I id i)) (fun s => f' (s.begin I id i)) :=
  fun _ _ r h hr => hf _ _ r (h.begin hvs I id i) hr

/-- A loop whose body is followed is followed. -/
theorem iterate (hvs : Consistent vs) (I : Interp V) (id : Nat) (hf : Tracks vs f f') :
    ∀ counters : List Nat, Tracks vs (iterate I id f counters) (TensorLoops.iterate I id f' counters)
  | [],      _, s', _, h, hr => ⟨s', rfl, by rwa [← Option.some.inj hr]⟩
  | i :: is, s, s', r, h, hr => (hf.begin hvs I id i).andThen (iterate hvs I id hf is) s s' r h hr

end Tracks

/-! ### Inline instructions -/

/-- The operands of a flattened instruction hold the flattened operands. -/
theorem flattenList_operands {os os' : List AsmOperand}
    (h : os.mapM (fun o => do return { o with value := ← o.value.flatten }) =
      (.ok os' : Except Error (List AsmOperand))) :
    Expr.flattenList (os.map (·.value)) = .ok (os'.map (·.value)) := by
  rw [mapM_eq_ok_iff] at h
  induction h with
  | nil => rfl
  | cons ho _ ih =>
      obtain ⟨e, he, ho⟩ := bind_eq_ok.mp ho
      obtain rfl := pure_eq_ok.mp ho
      simp only [List.map_cons, Expr.flattenList, bind_eq_ok, pure_eq_ok]
      exact ⟨e, he, _, ih, rfl⟩

/-- The variables of a list of expressions are those of its members. -/
theorem Expr.mem_varsList {es : List Expr} {v : Var} :
    v ∈ Expr.varsList es ↔ ∃ e ∈ es, v ∈ e.vars := by
  induction es with
  | nil => simp [varsList]
  | cons e es ih => simp [varsList, ih]

theorem Asm.mem_vars {a : Asm} {v : Var} : v ∈ a.vars ↔
    v ∈ Expr.varsList (a.outputs.map (·.value)) ∨ v ∈ Expr.varsList (a.inputs.map (·.value)) := by
  simp [Asm.vars, Expr.mem_varsList]

/-- Flattened expressions name the images of the cells that they named before. -/
theorem mapM_place_flatten {V : Type} {I : Interp V} {m m' : Memory V} {vs : List Var}
    (hI : I.Exact) (hvs : Consistent vs) (hm : LaidOut vs m m') {es es' : List Expr}
    (he : Expr.flattenList es = .ok es') (hvars : ∀ v ∈ Expr.varsList es, v ∈ vs)
    {ps : List Place} (hps : es.mapM (place I m) = some ps) :
    es'.mapM (place I m') = some (ps.map (Place.flatten vs)) ∧ ∀ p ∈ ps, p.Of vs := by
  rw [mapM_eq_some_iff] at hps
  induction hps generalizing es' with
  | nil =>
      obtain rfl := pure_eq_ok.mp he
      exact ⟨rfl, by simp⟩
  | cons hp _ ih =>
      simp only [Expr.flattenList, bind_eq_ok, pure_eq_ok] at he
      obtain ⟨e', he', es', hes', rfl⟩ := he
      obtain ⟨hp', hof⟩ :=
        place_flatten hI hvs hm he' (fun v h => hvars v (List.mem_append_left _ h)) hp
      obtain ⟨hps', hofs⟩ := ih hes' (fun v h => hvars v (List.mem_append_right _ h))
      rw [mapM_eq_some_iff] at hps'
      exact ⟨mapM_eq_some_iff.mpr (.cons hp' hps'), List.forall_mem_cons.mpr ⟨hof, hofs⟩⟩

/-! ### Statements -/

section Exec

variable {V : Type} {I : Interp V} {vs : List Var}

/-- An instruction is followed by the flattened one. -/
theorem asm_flatten (hI : I.Exact) (hvs : Consistent vs) {a a' : Asm} (ha : a.flatten = .ok a')
    (hvars : ∀ v ∈ a.vars, v ∈ vs) : Tracks vs (exec I (.asm a)) (exec I (.asm a')) := by
  intro s s' r h hr
  simp only [Asm.flatten, bind_eq_ok, pure_eq_ok] at ha
  obtain ⟨outputs, houts, inputs, hins, rfl⟩ := ha
  have houts := flattenList_operands houts
  have hins := flattenList_operands hins
  have hov : ∀ v ∈ Expr.varsList (a.outputs.map (·.value)), v ∈ vs :=
    fun v hv => hvars v (Asm.mem_vars.mpr (.inl hv))
  have hiv : ∀ v ∈ Expr.varsList (a.inputs.map (·.value)), v ∈ vs :=
    fun v hv => hvars v (Asm.mem_vars.mpr (.inr hv))
  simp only [exec, Option.bind_eq_bind, Option.bind_eq_some_iff, Option.pure_def,
    Option.some.injEq] at hr ⊢
  obtain ⟨xs, hxs, ys, hys, ps, hps, rfl⟩ := hr
  obtain ⟨hps', hof⟩ := mapM_place_flatten hI hvs h.memory houts hov hps
  exact ⟨_, ⟨xs, evalList_flatten hI hvs h.memory houts hov hxs, ys,
    evalList_flatten hI hvs h.memory hins hiv hys, _, hps', rfl⟩,
    (h.logAll (xs ++ ys)).writeAll hvs hof _⟩

/-- What is done with the value of an expression is followed where the expression is flattened. -/
theorem tracks_eval (hI : I.Exact) (hvs : Consistent vs) {e e' : Expr} (he : e.flatten = .ok e')
    (hvars : ∀ v ∈ e.vars, v ∈ vs) {k k' : V → Machine V → Option (Machine V)}
    (hk : ∀ x, Tracks vs (k x) (k' x)) :
    Tracks vs (fun s => (eval I s.memory e).bind fun x => k x s)
      (fun s => (eval I s.memory e').bind fun x => k' x s) := by
  intro s s' r h hr
  obtain ⟨x, hx, hr⟩ := Option.bind_eq_some_iff.mp hr
  obtain ⟨r', hr', h'⟩ := hk x s s' r h hr
  exact ⟨r', Option.bind_eq_some_iff.mpr ⟨x, eval_flatten hI hvs h.memory he hvars hx, hr'⟩, h'⟩

theorem assign_flatten (hI : I.Exact) (hvs : Consistent vs) {v w : Var} (hw : v.flatten = .ok w)
    {e e' : Expr} (he : e.flatten = .ok e') (hvars : ∀ v ∈ e.vars, v ∈ vs) :
    Tracks vs (exec I (.assign v e)) (exec I (.assign w e')) := by
  refine tracks_eval hI hvs he hvars fun x => .done fun h => ?_
  rw [Var.flatten_id hw]
  exact (h.log rfl).write hvs (p := .scalar v.id) trivial x

/-- A flattened store writes the image of the cell that the store writes. -/
theorem store_flatten (hI : I.Exact) (hvs : Consistent vs) {buf w : Var} {idxs ks : List Expr}
    (hacc : Expr.flatten (.element (.var buf) idxs) = .ok (.element (.var w) ks))
    (hidxs : ∀ v ∈ Expr.vars (.element (.var buf) idxs), v ∈ vs) {e e' : Expr}
    (he : e.flatten = .ok e') (hvars : ∀ v ∈ e.vars, v ∈ vs) :
    Tracks vs (exec I (.store buf idxs e)) (exec I (.store w ks e')) := by
  refine tracks_eval hI hvs he hvars fun x s s' r h hr => ?_
  obtain ⟨p, hp, hr⟩ := Option.bind_eq_some_iff.mp hr
  obtain rfl := Option.some.inj hr
  obtain ⟨hp', hof⟩ := place_flatten hI hvs h.memory hacc hidxs hp
  exact ⟨_, Option.bind_eq_some_iff.mpr ⟨_, hp', rfl⟩, (h.log rfl).write hvs hof x⟩

/-- A flattened loop takes the same iterations, if its body does the same in each. -/
theorem loop_flatten (hI : I.Exact) (hvs : Consistent vs) {v : Var} {n n' : Expr} {body body' : Stmt}
    (hn : n.flatten = .ok n') (hvars : ∀ v ∈ n.vars, v ∈ vs)
    (hbody : Tracks vs (exec I body) (exec I body')) :
    Tracks vs (exec I (.loop v n body)) (exec I (.loop v n' body')) := by
  intro s s' r h hr
  obtain ⟨k, hk, hr⟩ := Option.bind_eq_some_iff.mp hr
  obtain ⟨r', hr', h'⟩ := hbody.iterate hvs I v.id _ s s' r h hr
  exact ⟨r', Option.bind_eq_some_iff.mpr ⟨k, count_flatten hI hvs h.memory hn hvars hk, hr'⟩, h'⟩

/-- A flattened condition takes the same branch. -/
theorem cond_flatten (hI : I.Exact) (hvs : Consistent vs) {test test' : Expr} {yes yes' : Stmt}
    {no no' : Option Stmt} (htest : test.flatten = .ok test') (hvars : ∀ v ∈ test.vars, v ∈ vs)
    (hyes : Tracks vs (exec I yes) (exec I yes'))
    (hno : Tracks vs (execOption I no) (execOption I no')) :
    Tracks vs (exec I (.cond test yes no)) (exec I (.cond test' yes' no')) := by
  refine tracks_eval hI hvs htest hvars fun x s s' r h hr => ?_
  cases hx : I.isTrue x with
  | true =>
      rw [hx] at hr
      exact hyes _ _ r ((h.log rfl).log rfl) hr
  | false =>
      rw [hx] at hr
      exact hno _ _ r ((h.log rfl).log rfl) hr

mutual

/-- **A statement is followed by the flattened one.** -/
theorem exec_flatten (hI : I.Exact) (hvs : Consistent vs) : ∀ {t t' : Stmt}, t.flatten = .ok t' →
    (∀ v ∈ t.vars, v ∈ vs) → Tracks vs (exec I t) (exec I t')
  | .seq ss, t', ht, hvars => by
      simp only [Stmt.flatten, bind_eq_ok, pure_eq_ok] at ht
      obtain ⟨ss', hss, rfl⟩ := ht
      exact execList_flatten hI hvs hss hvars
  | .declare v none, t', ht, _ => by
      simp only [Stmt.flatten, bind_eq_ok, pure_eq_ok] at ht
      obtain ⟨w, hw, rfl⟩ := ht
      refine .done fun h => ⟨?_, h.trace, h.result⟩
      rw [Var.flatten_id hw]
      exact h.memory.fill v.id I.blank
  | .declare v (some e), t', ht, hvars => by
      simp only [Stmt.flatten, bind_eq_ok, pure_eq_ok] at ht
      obtain ⟨w, hw, e', he, rfl⟩ := ht
      exact assign_flatten hI hvs hw he fun u hu => hvars u (List.mem_cons_of_mem v hu)
  | .assign v e, t', ht, hvars => by
      simp only [Stmt.flatten, bind_eq_ok, pure_eq_ok] at ht
      obtain ⟨w, hw, e', he, rfl⟩ := ht
      exact assign_flatten hI hvs hw he fun u hu => hvars u (List.mem_cons_of_mem v hu)
  | .store buf idxs e, t', ht, hvars => by
      simp only [Stmt.flatten, bind_eq_ok, pure_eq_ok] at ht
      obtain ⟨js, hjs, ks, hks, w, hw, e', he, rfl⟩ := ht
      have hacc : Expr.flatten (.element (.var buf) idxs) = .ok (.element (.var w) ks) := by
        simp only [Expr.flatten, bind_eq_ok, pure_eq_ok]
        exact ⟨js, hjs, ks, hks, _, ⟨w, hw, rfl⟩, rfl⟩
      exact store_flatten hI hvs hacc
        (fun u hu => hvars u (List.cons_subset_cons buf (List.subset_append_left _ _) hu)) he
        fun u hu => hvars u (List.mem_cons_of_mem buf (List.mem_append_right _ hu))
  | .loop v extent body, t', ht, hvars => by
      simp only [Stmt.flatten, bind_eq_ok, pure_eq_ok] at ht
      obtain ⟨extent', hext, body', hbody, rfl⟩ := ht
      refine loop_flatten hI hvs hext
        (fun u hu => hvars u (List.mem_cons_of_mem v (List.mem_append_left _ hu))) ?_
      exact exec_flatten hI hvs hbody
        fun u hu => hvars u (List.mem_cons_of_mem v (List.mem_append_right _ hu))
  | .cond test yes no, t', ht, hvars => by
      simp only [Stmt.flatten, bind_eq_ok, pure_eq_ok] at ht
      obtain ⟨test', htest, yes', hyes, no', hno, rfl⟩ := ht
      simp only [Stmt.vars, List.mem_append] at hvars
      exact cond_flatten hI hvs htest (fun u hu => hvars u (.inl (.inl hu)))
        (exec_flatten hI hvs hyes fun u hu => hvars u (.inl (.inr hu)))
        (execOption_flatten hI hvs hno fun u hu => hvars u (.inr hu))
  | .eval e, t', ht, hvars => by
      simp only [Stmt.flatten, bind_eq_ok, pure_eq_ok] at ht
      obtain ⟨e', he, rfl⟩ := ht
      exact tracks_eval hI hvs he hvars fun x => .done fun h => h.log rfl
  | .ret e, t', ht, hvars => by
      simp only [Stmt.flatten, bind_eq_ok, pure_eq_ok] at ht
      obtain ⟨e', he, rfl⟩ := ht
      refine tracks_eval hI hvs he hvars fun x => .done fun {s s'} h => ?_
      have hlog : Follows vs (s.log (.value x)) (s'.log (.value x)) := h.log rfl
      exact ⟨hlog.memory, hlog.trace, rfl⟩
  | .asm a, t', ht, hvars => by
      simp only [Stmt.flatten, bind_eq_ok, pure_eq_ok] at ht
      obtain ⟨a', ha, rfl⟩ := ht
      exact asm_flatten hI hvs ha hvars

theorem execList_flatten (hI : I.Exact) (hvs : Consistent vs) : ∀ {ts ts' : List Stmt},
    Stmt.flattenList ts = .ok ts' → (∀ v ∈ Stmt.varsList ts, v ∈ vs) →
    Tracks vs (execList I ts) (execList I ts')
  | [], ts', ht, _ => by
      obtain rfl := pure_eq_ok.mp ht
      intro s s' r h hr
      obtain rfl := Option.some.inj hr
      exact ⟨s', rfl, h⟩
  | t :: ts, ts', ht, hvars => by
      simp only [Stmt.flattenList, bind_eq_ok, pure_eq_ok] at ht
      obtain ⟨u, hu, us, hus, rfl⟩ := ht
      exact (exec_flatten hI hvs hu fun v hv => hvars v (List.mem_append_left _ hv)).andThen
        (execList_flatten hI hvs hus fun v hv => hvars v (List.mem_append_right _ hv))

theorem execOption_flatten (hI : I.Exact) (hvs : Consistent vs) : ∀ {t t' : Option Stmt},
    Stmt.flattenOption t = .ok t' → (∀ v ∈ Stmt.varsOption t, v ∈ vs) →
    Tracks vs (execOption I t) (execOption I t')
  | none, t', ht, _ => by
      obtain rfl := pure_eq_ok.mp ht
      intro s s' r h hr
      obtain rfl := Option.some.inj hr
      exact ⟨s', rfl, h⟩
  | some t, t', ht, hvars => by
      simp only [Stmt.flattenOption, bind_eq_ok, pure_eq_ok] at ht
      obtain ⟨u, hu, rfl⟩ := ht
      exact exec_flatten hI hvs hu hvars

end

end Exec

/-! ### Procedures -/

/-- Index expressions that come to two points of a shape are joined to two addresses. -/
theorem rowMajor_injective {V : Type} {I : Interp V} {m : Memory V} (hI : I.Exact) {shape : List Nat}
    {size : Nat} (hsize : Word.product shape = .ok size) {es fs : List Expr} {is js : List Int}
    (hes : indices I m es = some is) (hfs : indices I m fs = some js) (his : Within shape is)
    (hjs : Within shape js)
    (h : indices I m [rowMajor shape es] = indices I m [rowMajor shape fs]) : is = js := by
  have hi := indices_singleton.mpr (toInt?_rowMajor hI hsize hes his)
  have hj := indices_singleton.mpr (toInt?_rowMajor hI hsize hfs hjs)
  rw [hi, hj] at h
  exact address_injective his hjs (List.cons.inj (Option.some.inj h)).1

/-- **Flattening preserves meaning.**  From laid out memories every run of the procedure is
followed by a run of the flattened one.  In laid out memories an expression over the procedure's
variables has the value of its flattened form, and two points of a tensor are not sent to one
address. -/
theorem Procedure.run_flatten {V : Type} {I : Interp V} (hI : I.Exact) {p q : Procedure}
    (hvars : Consistent p.vars) (hq : p.flatten = .ok q) {m m' : Memory V}
    (hm : LaidOut p.vars m m') :
    (∀ s, p.run I m = some s → ∃ s', q.run I m' = some s' ∧ Follows p.vars s s') ∧
    (∀ e e' x, e.flatten = .ok e' → e.vars ⊆ p.vars → eval I m e = some x →
      eval I m' e' = some x) ∧
    (∀ shape size es fs is js, Word.product shape = .ok size →
      indices I m es = some is → indices I m fs = some js → Within shape is → Within shape js →
      indices I m [rowMajor shape es] = indices I m [rowMajor shape fs] → is = js) := by
  simp only [Procedure.flatten, bind_eq_ok, pure_eq_ok] at hq
  obtain ⟨params, -, locals, -, body, hbody, rfl⟩ := hq
  refine ⟨fun s hs => ?_, fun e e' x he hmem hx => eval_flatten hI hvars hm he hmem hx,
    fun shape size es fs is js hsize hes hfs his hjs h =>
      rowMajor_injective hI hsize hes hfs his hjs h⟩
  have hstart : Follows p.vars ⟨m, [], none⟩ ⟨m', [], none⟩ := ⟨hm, rfl, rfl⟩
  exact exec_flatten hI hvars hbody (fun v hv => List.mem_append_right _ hv) _ _ s hstart hs

/-- `for (i = 0; i < 2; i++) A[i, A[i, 0]] = i + 1;` -/
def scatter : Procedure where
  name   := "scatter"
  kind   := .host
  params := [⟨0, "A", .tensor .i32 [2, 3]⟩]
  locals := []
  body   :=
    let a : Var := ⟨0, "A", .tensor .i32 [2, 3]⟩
    let i : Var := ⟨1, "i", .scalar .i32⟩
    .loop i (.int 2)
      (.store a [.var i, .element (.var a) [.var i, .int 0]] ((Expr.var i).add (.int 1)))
  result := .void

/-- The second row of `scatter` is written through an index that is itself an access. -/
theorem run_flatten_scatter : Consistent scatter.vars ∧ LaidOut (V := Int) scatter.vars 0 0 ∧
    ∃ q s', scatter.flatten = .ok q ∧ q.run .integers 0 = some s' ∧
      s'.memory (.element 0 [3]) = 2 := by
  have hvars : Consistent scatter.vars := by decide
  have hm : LaidOut (V := Int) scatter.vars 0 0 := fun _ _ => rfl
  obtain ⟨s', hs', h⟩ := (scatter.run_flatten Interp.integers_exact hvars rfl hm).1 _ rfl
  refine ⟨hvars, hm, _, s', rfl, hs', ?_⟩
  have hcell : Place.Of scatter.vars (.element 0 [1, 0]) := ⟨_, List.mem_cons_self, rfl, by decide⟩
  exact (h.memory _ hcell).trans rfl

end TensorLoops
