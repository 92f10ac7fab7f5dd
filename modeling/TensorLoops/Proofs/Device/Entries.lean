import Mathlib.Data.List.Nodup
import TensorLoops.Device.Builtins
import TensorLoops.Proofs.Checked

/-!
# Proofs — Device — Entries

What the catalogue of the built-in functions holds.  Functions whose names are new and differ are
all entered (`registerAll_enters`).  The names of the built-in functions do differ: two of one
family by what they spell out, two of different families because the family is read off the name
(`functions_nodup`).  So the built-in catalogue is there (`builtins_eq`), and every built-in
function is found in it under its name (`get?_builtIn`).
-/

namespace TensorLoops

/-! ### What starts a name -/

/-- What stands after a lead. -/
theorem textAfter?_eq_some {lead cs rest : List Char} :
    textAfter? lead cs = some rest ↔ cs = lead ++ rest := by
  induction lead generalizing cs with
  | nil => simp [textAfter?]
  | cons l ls ih =>
      cases cs with
      | nil => simp [textAfter?]
      | cons c cs =>
          simp only [textAfter?, List.cons_append, List.cons.injEq]
          split
          · rename_i hc
            simp [ih, hc]
          · rename_i hc
            simp [Ne.symm hc]

theorem textAfter?_append (lead rest : List Char) : textAfter? lead (lead ++ rest) = some rest :=
  textAfter?_eq_some.mpr rfl

/-- The family of a device function is told by what its name starts with. -/
theorem Family.ofName?_eq {func : String} {rest : List Char}
    (h : func.toList = devicePrefix.toList ++ rest) : Family.ofName? func =
      if (textAfter? "cp_async_size_".toList rest).isSome then some .asyncCopy
      else if (textAfter? "cp_async_".toList rest).isSome then some .pipeline
      else if (textAfter? "mma_".toList rest).isSome then some .multiply
      else if (textAfter? "ldmatrix_".toList rest).isSome then some .matrixLoad
      else none := by
  unfold Family.ofName?
  rw [h, textAfter?_append]
  rfl

namespace CopyVariant

/-- What the name of a copy says after its size. -/
def tail (v : CopyVariant) : List Char :=
  '_' :: v.level.suffix.toList ++
    if 0 < v.prefetch then "_l2_".toList ++ Nat.toDigits 10 v.prefetch ++ ['B'] else []

/-- A copy is named by its size and then by its cache level and its prefetch. -/
theorem name_toList (v : CopyVariant) :
    v.name.toList = "cp_async_size_".toList ++ (Nat.toDigits 10 v.size ++ v.tail) := by
  unfold name tail
  split <;> simp [toString]

theorem family (v : CopyVariant) : Family.ofName? v.funcName = some .asyncCopy := by
  rw [funcName, Family.ofName?_eq (String.toList_append ..), name_toList, textAfter?_append]
  rfl

end CopyVariant

/-- Matrix loads fall into theirs. -/
theorem LoadVariant.family (v : LoadVariant) : Family.ofName? v.funcName = some .matrixLoad := by
  have hname : ∃ rest, v.name.toList = "ldmatrix_".toList ++ rest := by
    simp [LoadVariant.name, toString]
  obtain ⟨rest, hrest⟩ := hname
  rw [funcName, Family.ofName?_eq (String.toList_append ..), hrest]
  simp [textAfter?]

namespace MmaShape

/-- What the instruction says after its kind. -/
def tail (x : MmaShape) : List Char :=
  Nat.toDigits 10 x.m ++ ("n".toList ++ (Nat.toDigits 10 x.n ++ ("k".toList ++
    (Nat.toDigits 10 x.k ++ (".row.col.".toList ++ (x.output.name.toList ++ (".".toList ++
      (x.input.name.toList ++ (".".toList ++ (x.input.name.toList ++ (".".toList ++
        x.output.name.toList)))))))))))

/-- The instruction of a shape is spelled from its extents and types. -/
theorem instruction_toList (x : MmaShape) :
    x.instruction.toList = "mma.sync.aligned.m".toList ++ x.tail := by
  unfold instruction
  simp only [toString, String.toList_append, Nat.toList_repr, List.append_assoc, tail]

/-- The tail as it stands in the name. -/
def nameTail (x : MmaShape) : List Char := x.tail.map fun c => if c == '.' then '_' else c

theorem name_toList (x : MmaShape) : x.name.toList = "mma_sync_aligned_m".toList ++ x.nameTail := by
  rw [name, String.toList_ofList, instruction_toList, List.map_append]
  rfl

theorem family (x : MmaShape) : Family.ofName? x.funcName = some .multiply := by
  rw [funcName, Family.ofName?_eq (String.toList_append ..), name_toList]
  simp [textAfter?]

end MmaShape

namespace Device

theorem waitGroup_toList (n : Nat) : (s!"cp_async_wait_group_{n}").toList =
    "cp_async_wait_group_".toList ++ Nat.toDigits 10 n := by
  simp only [toString, String.toList_append, Nat.toList_repr]

theorem waitGroup_family (n : Nat) : Family.ofName? (waitGroup n).name = some .pipeline := by
  rw [waitGroup, instructionOnly, Family.ofName?_eq (String.toList_append ..), waitGroup_toList]
  simp [textAfter?]

theorem commitGroup_family : Family.ofName? commitGroup.name = some .pipeline := by
  rw [commitGroup, instructionOnly, Family.ofName?_eq (String.toList_append ..)]
  simp [textAfter?]

theorem waitAll_family : Family.ofName? waitAll.name = some .pipeline := by
  rw [waitAll, instructionOnly, Family.ofName?_eq (String.toList_append ..)]
  simp [textAfter?]

/-- The address of shared memory belongs to no family. -/
theorem sharedAddress_family : Family.ofName? sharedAddress.name = none := by
  rw [sharedAddress, sharedAddressFunc, sharedAddressName,
    Family.ofName?_eq (String.toList_append ..)]
  simp [textAfter?]

/-- The shapes that there are multiplications of. -/
def shapes : List MmaShape := MmaShape.table.toOption.getD []

theorem table_eq : MmaShape.table = .ok shapes := rfl

/-- The functions that commit and wait. -/
def pipeline : List Procedure :=
  [commitGroup] ++ (List.range waitLimit).map waitGroup ++ [waitAll]

/-- The built-in functions, in the order in which they are entered. -/
def functions : List Procedure :=
  [sharedAddress] ++ CopyVariant.all.map copy ++ pipeline ++ shapes.map multiply ++
    LoadVariant.all.map matrixLoad

/-! ### Names that differ -/

/-- The functions have names of their own and fall into the given families. -/
structure Apart (fs : List (Option Family)) (ps : List Procedure) : Prop where
  nodup  : (ps.map Procedure.name).Nodup
  family : ∀ p ∈ ps, Family.ofName? p.name ∈ fs

/-- The family is read off the name, so functions of different families have different names. -/
theorem Apart.append {fs gs : List (Option Family)} {ps qs : List Procedure} (hps : Apart fs ps)
    (hqs : Apart gs qs) (hdisjoint : ∀ f ∈ fs, f ∉ gs) : Apart (fs ++ gs) (ps ++ qs) where
  nodup := by
    rw [List.map_append, List.nodup_append]
    refine ⟨hps.nodup, hqs.nodup, ?_⟩
    simp only [List.forall_mem_map]
    intro p hp q hq hname
    have hfamily := hps.family p hp
    rw [hname] at hfamily
    exact hdisjoint _ hfamily (hqs.family q hq)
  family := by
    intro p hp
    rcases List.mem_append.mp hp with hp | hp
    · exact List.mem_append_left gs (hps.family p hp)
    · exact List.mem_append_right fs (hqs.family p hp)

theorem sharedAddress_apart : Apart [none] [sharedAddress] where
  nodup := List.nodup_singleton _
  family := by simp [sharedAddress_family]

/-- Copies differ in size, level or prefetch, and so in name. -/
theorem copies_apart : Apart [some .asyncCopy] (CopyVariant.all.map copy) where
  nodup := by decide +kernel
  family := List.forall_mem_map.mpr fun v _ => List.mem_singleton.mpr v.family

/-- Waits differ in their number. -/
theorem pipeline_apart : Apart [some .pipeline] pipeline where
  nodup := by decide +kernel
  family := by
    intro p hp
    simp only [pipeline, List.mem_append, List.mem_singleton, List.mem_map] at hp ⊢
    rcases hp with (rfl | ⟨n, -, rfl⟩) | rfl
    · exact commitGroup_family
    · exact waitGroup_family n
    · exact waitAll_family

/-- Multiplications differ in their shape. -/
theorem multiplies_apart : Apart [some .multiply] (shapes.map multiply) where
  nodup := by
    -- The names are long; it is their tails that are compared.
    have htails : (shapes.map MmaShape.nameTail).Nodup := by decide +kernel
    have hletters : ((shapes.map multiply).map Procedure.name).map String.toList =
        (shapes.map MmaShape.nameTail).map fun cs =>
          devicePrefix.toList ++ ("mma_sync_aligned_m".toList ++ cs) := by
      simp only [List.map_map]
      refine List.map_congr_left fun x _ => ?_
      show (devicePrefix ++ x.name).toList = _
      rw [String.toList_append, MmaShape.name_toList]
      rfl
    refine List.Nodup.of_map String.toList ?_
    rw [hletters]
    exact htails.map fun xs ys h => List.append_cancel_left (List.append_cancel_left h)
  family := List.forall_mem_map.mpr fun x _ => List.mem_singleton.mpr x.family

/-- Matrix loads differ in their count or in being transposed. -/
theorem matrixLoads_apart : Apart [some .matrixLoad] (LoadVariant.all.map matrixLoad) where
  nodup := by decide +kernel
  family := List.forall_mem_map.mpr fun v _ => List.mem_singleton.mpr v.family

/-- No two built-in functions have one name. -/
theorem functions_nodup : (functions.map Procedure.name).Nodup :=
  ((((sharedAddress_apart.append copies_apart (by decide)).append pipeline_apart
    (by decide)).append multiplies_apart (by decide)).append matrixLoads_apart (by decide)).nodup

end Device

namespace Catalogue

variable {c : Catalogue} {p : Procedure} {ps qs : List Procedure}

/-! ### Entering functions -/

/-- The catalogue with further functions. -/
def enter (c : Catalogue) (ps : List Procedure) : Catalogue :=
  ps.foldl (fun c p => ⟨c.functions.insert p.name p⟩) c

theorem enter_append : c.enter (ps ++ qs) = (c.enter ps).enter qs := List.foldl_append

/-- Entering functions leaves other names alone. -/
theorem get?_enter_of_notMem {name : String} (h : name ∉ ps.map Procedure.name) :
    (c.enter ps).get? name = c.get? name := by
  induction ps generalizing c with
  | nil => rfl
  | cons p ps ih =>
      rw [List.map_cons, List.mem_cons, not_or] at h
      exact (ih h.2).trans (Table.find?_insert_of_ne _ h.1 _)

/-- A function that was entered is found, if the names are distinct. -/
theorem get?_enter (hnodup : (ps.map Procedure.name).Nodup) (h : p ∈ ps) :
    (c.enter ps).get? p.name = some p := by
  induction ps generalizing c with
  | nil => cases h
  | cons q qs ih =>
      obtain ⟨hnotMem, hnodup⟩ := List.nodup_cons.mp hnodup
      rcases List.mem_cons.mp h with rfl | h
      · exact (get?_enter_of_notMem hnotMem).trans (Table.find?_insert_self _ _ _)
      · exact ih hnodup h

/-- The functions have names of their own, none of which is taken. -/
def Admits (c : Catalogue) (ps : List Procedure) : Prop :=
  (ps.map Procedure.name).Nodup ∧ ∀ p ∈ ps, c.get? p.name = none

/-- Functions that can be entered can be so in two parts. -/
theorem Admits.of_append (h : c.Admits (ps ++ qs)) : c.Admits ps ∧ (c.enter ps).Admits qs := by
  obtain ⟨hnodup, hnew⟩ := h
  rw [List.map_append, List.nodup_append] at hnodup
  obtain ⟨hps, hqs, hdisjoint⟩ := hnodup
  refine ⟨⟨hps, fun p hp => hnew p (List.mem_append_left qs hp)⟩, hqs, fun q hq => ?_⟩
  have hnotMem : q.name ∉ ps.map Procedure.name := fun hmem =>
    hdisjoint _ hmem _ (List.mem_map_of_mem hq) rfl
  rw [get?_enter_of_notMem hnotMem]
  exact hnew q (List.mem_append_right ps hq)

/-- After a part that succeeds, the rest runs on its catalogue. -/
theorem run_bind_of_ok {α β : Type} {u : Update α} {f : α → Update β} {a : α} {c' : Catalogue}
    (h : u.run.run c = (.ok a, c')) : (u >>= f).run.run c = (f a).run.run c' := by
  rw [ExceptT.run_bind, StateT.run_bind, h]
  rfl

/-- Entered into `c`, the functions are what the update adds to it. -/
def Enters (u : Update Unit) (c : Catalogue) (ps : List Procedure) : Prop :=
  c.Admits ps → u.run.run c = (.ok (), c.enter ps)

/-- What two updates enter, they enter one after the other. -/
theorem Enters.bind {u v : Update Unit} (hu : Enters u c ps) (hv : Enters v (c.enter ps) qs) :
    Enters (u >>= fun _ => v) c (ps ++ qs) := by
  intro h
  obtain ⟨hps, hqs⟩ := h.of_append
  rw [run_bind_of_ok (hu hps), hv hqs, enter_append]

/-- Where the functions are admitted, the result has them. -/
theorem Enters.result {u : Update Unit} (hu : Enters u c ps) (h : c.Admits ps) :
    u.result c = .ok (c.enter ps) := by
  rw [Update.result, hu h]

/-- Registering a function enters it. -/
theorem register_enters (p : Procedure) : Enters (register p) c [p] := by
  intro h
  have hnew : c.contains p.name = false := by
    have hnone : c.functions.find? p.name = none := h.2 p (List.mem_singleton_self p)
    simp [contains, Table.contains, hnone]
  have hget : (get : Update Catalogue).run.run c = (.ok c, c) := rfl
  unfold register
  rw [run_bind_of_ok hget, hnew]
  rfl

/-- Functions with new names of their own are all entered. -/
theorem registerAll_enters (ps : List Procedure) : Enters (registerAll ps) c ps := by
  induction ps generalizing c with
  | nil =>
      intro _
      rfl
  | cons p ps ih => exact (register_enters p).bind ih

/-- The copies find the address conversion, where it is entered. -/
theorem registerCopies_enters (h : c.get? Device.sharedAddressFunc = some Device.sharedAddress) :
    Enters registerCopies c (CopyVariant.all.map Device.copy) := by
  intro hcopies
  have hget : (get : Update Catalogue).run.run c = (.ok c, c) := rfl
  have hlookup : (discard (ExceptT.mk (pure (c.lookup Device.sharedAddressFunc)) :
      Update Procedure)).run.run c = (.ok (), c) := by
    rw [lookup, h]
    rfl
  unfold registerCopies
  rw [run_bind_of_ok hget, run_bind_of_ok hlookup, registerAll_enters _ hcopies]

/-- Registering the multiplications enters one for each shape of the table. -/
theorem registerMultiplies_enters :
    Enters registerMultiplies c (Device.shapes.map Device.multiply) := by
  intro hmultiplies
  have hshapes : (ExceptT.mk (pure MmaShape.table) : Update (List MmaShape)).run.run c =
      (.ok Device.shapes, c) := by
    rw [Device.table_eq]
    rfl
  unfold registerMultiplies
  rw [run_bind_of_ok hshapes, registerAll_enters _ hmultiplies]

/-! ### The built-in catalogue -/

/-- The built-in functions are entered family by family. -/
theorem registerBuiltins_enters : Enters registerBuiltins empty Device.functions := by
  have hfound : (empty.enter [Device.sharedAddress]).get? Device.sharedAddressFunc =
      some Device.sharedAddress :=
    get?_enter Device.sharedAddress_apart.nodup (List.mem_singleton_self _)
  have hall := (register_enters Device.sharedAddress).bind ((registerCopies_enters hfound).bind
    ((register_enters Device.commitGroup).bind
      ((registerAll_enters ((List.range waitLimit).map Device.waitGroup)).bind
        ((register_enters Device.waitAll).bind (registerMultiplies_enters.bind
          (registerAll_enters (LoadVariant.all.map Device.matrixLoad)))))))
  simp only [Device.functions, Device.pipeline, List.append_assoc]
  exact hall

/-- The catalogue that the built-in functions make. -/
def builtIn : Catalogue := empty.enter Device.functions

/-- **Every built-in function can be entered.** -/
theorem builtins_eq : builtins = .ok builtIn :=
  registerBuiltins_enters.result ⟨Device.functions_nodup, fun _ _ => rfl⟩

/-- A built-in function is found under its name. -/
theorem get?_builtIn (h : p ∈ Device.functions) : builtIn.get? p.name = some p :=
  get?_enter Device.functions_nodup h

theorem lookup_eq_ok {name : String} : c.lookup name = .ok p ↔ c.get? name = some p := by
  unfold lookup
  cases c.get? name <;> simp

/-- A call is made if the function exists and takes as many arguments. -/
theorem call_eq_ok {name : String} {args : List Expr} {e : Expr} : c.call name args = .ok e ↔
    e = .call (devicePrefix ++ name) args ∧
      ∃ p, c.get? (devicePrefix ++ name) = some p ∧ p.params.length = args.length := by
  unfold call
  rw [bind_eq_ok]
  simp only [lookup_eq_ok]
  constructor
  · rintro ⟨p, hp, h⟩
    by_cases hlength : p.params.length = args.length
    · rw [if_neg (not_not.mpr hlength)] at h
      exact ⟨(pure_eq_ok.mp h).symm, p, hp, hlength⟩
    · rw [if_pos hlength] at h
      cases h
  · rintro ⟨rfl, p, hp, hlength⟩
    exact ⟨p, hp, if_neg (not_not.mpr hlength)⟩

end Catalogue

end TensorLoops
