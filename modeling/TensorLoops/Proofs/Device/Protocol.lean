import Mathlib.Data.List.TakeWhile
import TensorLoops.Proofs.Code.Naming
import TensorLoops.Proofs.Copy.Draining
import TensorLoops.Proofs.Copy.Trace
import TensorLoops.Proofs.Device.Entries

/-!
# Proofs — Device — Protocol

Calls of the copy protocol and the operations that a replay makes of them.  A name is read as an
operation exactly if it spells one (`ofCall?_eq_some`), and the names that calls are made with spell
the operation that was asked for (`ofCall?_of_call`).  So a replay of calls does what was asked for,
one after another (`simulate_calls`).  What a name spells agrees with the family it falls into, and
the calls that wait are refused where the queue would refuse to wait (`calls_replay`).
-/

namespace TensorLoops

/-! ### Names that spell operations -/

/-- A word is read back from its digits. -/
theorem readSize?_toDigits {n : Nat} (h : n < Word.limit) :
    readSize? (Nat.toDigits 10 n) = some n := by
  have hdigit : ∀ c ∈ Nat.toDigits 10 n, c.isDigit = true := fun c hc =>
    Nat.isDigit_of_mem_toDigits (by decide) (Nat.le_refl _) hc
  have hplain : textAfter? ['+'] (Nat.toDigits 10 n) = none := by
    cases hcs : Nat.toDigits 10 n with
    | nil => rfl
    | cons c cs =>
        have hc := hdigit c (by simp [hcs])
        have hne : '+' ≠ c := by
          rintro rfl
          exact absurd hc (by decide)
        simp [textAfter?, hne]
  have hall : (Nat.toDigits 10 n).all Char.isDigit = true := List.all_eq_true.mpr hdigit
  have hvalue : (Nat.toDigits 10 n).foldl (fun n c => 10 * n + (c.toNat - '0'.toNat)) 0 = n :=
    Nat.ofDigitChars_ten_toDigits
  simp only [readSize?, hplain, Option.getD_none, hall, hvalue]
  simp [h]

/-- What stands in a name after the lead of all device functions, and the operation it spells. -/
inductive Spells : List Char → CopyEvent → Prop
  | commit : Spells "cp_async_commit_group".toList .commit
  | waitAll : Spells "cp_async_wait_all".toList .waitAll
  | waitGroup {cs : List Char} {n : Nat} (h : readSize? cs = some n) :
      Spells ("cp_async_wait_group_".toList ++ cs) (.waitGroup n)
  | issue {cs : List Char} {n : Nat} (h : readSize? (cs.takeWhile (· != '_')) = some n) :
      Spells ("cp_async_size_".toList ++ cs) (.issue n)

namespace CopyEvent

variable {func : String} {event : CopyEvent}

/-- **A name is read as an operation exactly if it spells one.** -/
theorem ofCall?_eq_some : ofCall? func = some event ↔
    ∃ rest, func.toList = devicePrefix.toList ++ rest ∧ Spells rest event := by
  unfold ofCall?
  simp only [Option.bind_eq_bind, Option.bind_eq_some_iff, textAfter?_eq_some]
  refine exists_congr fun rest => and_congr_right fun _ => ?_
  constructor
  · intro h
    split at h
    · rename_i hrest
      cases h
      exact hrest ▸ .commit
    · split at h
      · rename_i hrest
        cases h
        exact hrest ▸ .waitAll
      · split at h
        · rename_i cs hcs
          obtain ⟨n, hn, h⟩ := Option.bind_eq_some_iff.mp h
          cases h
          exact textAfter?_eq_some.mp hcs ▸ .waitGroup hn
        · obtain ⟨cs, hcs, h⟩ := Option.bind_eq_some_iff.mp h
          obtain ⟨n, hn, h⟩ := Option.bind_eq_some_iff.mp h
          cases h
          exact textAfter?_eq_some.mp hcs ▸ .issue hn
  · intro h
    cases h with
    | commit => rfl
    | waitAll => simp
    | @waitGroup cs n h =>
        have hcommit : "cp_async_wait_group_".toList ++ cs ≠ "cp_async_commit_group".toList := by
          simp
        have hall : "cp_async_wait_group_".toList ++ cs ≠ "cp_async_wait_all".toList := by simp
        rw [if_neg hcommit, if_neg hall, textAfter?_append]
        simp [h]
    | @issue cs n h =>
        have hcommit : "cp_async_size_".toList ++ cs ≠ "cp_async_commit_group".toList := by simp
        have hall : "cp_async_size_".toList ++ cs ≠ "cp_async_wait_all".toList := by simp
        have hgroup : textAfter? "cp_async_wait_group_".toList ("cp_async_size_".toList ++ cs) =
            none := by simp [textAfter?]
        rw [if_neg hcommit, if_neg hall, hgroup, textAfter?_append]
        simp [h]

/-- The family of the functions that perform the operation. -/
def family : CopyEvent → Family
  | .issue _ => .asyncCopy
  | _        => .pipeline

/-- A name that spells an operation falls into the family of the operation. -/
theorem family_of_ofCall? (h : ofCall? func = some event) :
    Family.ofName? func = some event.family := by
  obtain ⟨rest, hrest, hspells⟩ := ofCall?_eq_some.mp h
  rw [Family.ofName?_eq hrest]
  cases hspells <;> simp [textAfter?, family]

/-- No more bytes than a copy has, and no more groups than a wait may leave. -/
def Legal : CopyEvent → Prop
  | .issue bytes => bytes ≤ 16
  | .waitGroup n => n < waitLimit
  | _            => True

end CopyEvent

/-! ### Calls that are made -/

namespace CopyVariant

/-- There is a copy for each legal size, prefetch and level; the global level copies 16 bytes only.
-/
theorem make_eq_ok {size prefetch : Nat} {level : CacheLevel} {v : CopyVariant} :
    make size level prefetch = .ok v ↔ size ∈ sizes ∧ prefetch ∈ prefetchSizes ∧
      (level = .global → size = 16) ∧ v = ⟨size, level, prefetch⟩ := by
  unfold make
  by_cases hsize : size ∈ sizes
  · rw [if_neg (by simp [hsize])]
    by_cases hprefetch : prefetch ∈ prefetchSizes
    · rw [if_neg (by simp [hprefetch])]
      by_cases hlevel : level = .global ∧ size ≠ 16
      · rw [if_pos hlevel]
        exact iff_of_false (by rintro ⟨⟩) fun h => hlevel.2 (h.2.2.1 hlevel.1)
      · rw [if_neg hlevel, pure_eq_ok, eq_comm]
        exact ⟨fun h => ⟨hsize, hprefetch, not_and_not_right.mp hlevel, h⟩, fun h => h.2.2.2⟩
    · rw [if_pos (by simp [hprefetch])]
      exact iff_of_false (by rintro ⟨⟩) fun h => hprefetch h.2.1
  · rw [if_pos (by simp [hsize])]
    exact iff_of_false (by rintro ⟨⟩) fun h => hsize h.1

/-- Every variant that can be made is listed. -/
theorem mem_all_of_make {size prefetch : Nat} {level : CacheLevel} {v : CopyVariant}
    (h : make size level prefetch = .ok v) : v ∈ all := by
  obtain ⟨hsize, hprefetch, -, -⟩ := make_eq_ok.mp h
  have hlevel : level ∈ [CacheLevel.always, .global] := by cases level <;> simp
  refine List.mem_flatMap.mpr ⟨size, hsize, List.mem_flatMap.mpr ⟨prefetch, hprefetch, ?_⟩⟩
  exact List.mem_filterMap.mpr ⟨level, hlevel, by rw [h]; rfl⟩

/-- The name of a copy is read as the issue of its size. -/
theorem ofCall?_funcName (v : CopyVariant) (h : v.size < Word.limit) :
    CopyEvent.ofCall? v.funcName = some (.issue v.size) := by
  have hdigits : (Nat.toDigits 10 v.size ++ v.tail).takeWhile (· != '_') =
      Nat.toDigits 10 v.size := by
    have htail : v.tail.takeWhile (· != '_') = [] := rfl
    rw [List.takeWhile_append_of_pos]
    · rw [htail, List.append_nil]
    · intro c hc
      exact bne_iff_ne.mpr fun hne => underscore_notMem_toDigits v.size (hne ▸ hc)
  refine CopyEvent.ofCall?_eq_some.mpr ⟨v.name.toList, String.toList_append, ?_⟩
  rw [name_toList]
  exact .issue (hdigits.symm ▸ readSize?_toDigits h)

end CopyVariant

namespace Catalogue

variable {c : Catalogue} {e : Expr}

/-- A call for a copy is made if the variant exists and a literal size of the source is within the
copy. -/
theorem copy_eq_ok {dst src : Expr} {size prefetch : Nat} {sourceSize : Option Expr}
    {level : CacheLevel} : c.copy dst src size sourceSize level prefetch = .ok e ↔
      ∃ v, CopyVariant.make size level prefetch = .ok v ∧
        (∀ n, sourceSize.bind Expr.constInt? = some n → 0 ≤ n ∧ n ≤ size) ∧
        c.call v.name [dst, src, sourceSize.getD (.ofSize size)] = .ok e := by
  unfold copy
  rw [bind_eq_ok]
  refine exists_congr fun v => and_congr_right fun _ => ?_
  cases sourceSize.bind Expr.constInt? with
  | none => simp
  | some n =>
      by_cases hn : n < 0 ∨ (size : Int) < n
      · simp only [if_pos hn, Option.some.injEq, forall_eq']
        constructor
        · rintro ⟨⟩
        · rintro ⟨hwithin, -⟩
          omega
      · simp only [if_neg hn, Option.some.injEq, forall_eq']
        exact ⟨fun h => ⟨by omega, h⟩, fun h => h.2⟩

/-- A call for a wait is made below the limit. -/
theorem waitGroup_eq_ok {n : Nat} : c.waitGroup n = .ok e ↔
    n < waitLimit ∧ c.call s!"cp_async_wait_group_{n}" [] = .ok e := by
  unfold waitGroup
  by_cases hn : waitLimit ≤ n
  · rw [if_pos hn]
    exact iff_of_false (by rintro ⟨⟩) fun h => absurd hn (Nat.not_le.mpr h.1)
  · rw [if_neg hn]
    exact ⟨fun h => ⟨Nat.lt_of_not_le hn, h⟩, fun h => h.2⟩

end Catalogue

/-- An operation that is asked for, with what its call is made from. -/
inductive CopyRequest where
  | copy (dst src : Expr) (size : Nat) (sourceSize : Option Expr) (level : CacheLevel)
      (prefetch : Nat)
  | commit
  | waitGroup (n : Nat)
  | waitAll

namespace CopyRequest

/-- The call that asks for the operation. -/
def call (c : Catalogue) : CopyRequest → Except Error Expr
  | .copy dst src size sourceSize level prefetch =>
      c.copy dst src size sourceSize level prefetch
  | .commit      => c.commitGroup
  | .waitGroup n => c.waitGroup n
  | .waitAll     => c.waitAll

/-- Perform the operation on the queue itself. -/
def perform (q : CopyQueue) : CopyRequest → Except Error CopyQueue
  | .copy _ _ size _ _ _ => q.issue size
  | .commit              => return (← q.commit).2
  | .waitGroup n         => return (← q.waitGroup n).2
  | .waitAll             => return (← q.waitAll).2

/-- What the call is to spell. -/
def event : CopyRequest → CopyEvent
  | .copy _ _ size _ _ _ => .issue size
  | .commit              => .commit
  | .waitGroup n         => .waitGroup n
  | .waitAll             => .waitAll

variable {c : Catalogue} {r : CopyRequest} {e : Expr}

/-- What is done for a request does not depend on the way the queue is called. -/
theorem perform_eq (q : CopyQueue) (r : CopyRequest) : perform q r = q.apply r.event := by
  have hdiscard {α : Type} (call : CopyQueue.Update α) :
      (resultOf call q >>= fun p => pure p.2) = Prod.snd <$> resultOf (discard call) q := by
    rw [snd_resultOf_discard]
    cases resultOf call q <;> rfl
  cases r with
  | copy dst src size sourceSize level prefetch => rfl
  | commit => exact hdiscard _
  | waitGroup n => exact hdiscard _
  | waitAll => exact hdiscard _

/-- A call that is made asks for a legal operation, by a name that spells it. -/
theorem ofCall?_of_call (h : r.call c = .ok e) : r.event.Legal ∧
    ∃ func args, e = .call func args ∧ CopyEvent.ofCall? func = some r.event := by
  cases r with
  | copy dst src size sourceSize level prefetch =>
      obtain ⟨v, hv, -, h⟩ := Catalogue.copy_eq_ok.mp h
      obtain ⟨hsize, -, -, rfl⟩ := CopyVariant.make_eq_ok.mp hv
      have hsmall : size ≤ 16 := by
        simp only [CopyVariant.sizes, List.mem_cons, List.not_mem_nil, or_false] at hsize
        omega
      refine ⟨hsmall, _, _, (Catalogue.call_eq_ok.mp h).1, CopyVariant.ofCall?_funcName _ ?_⟩
      exact Nat.lt_of_le_of_lt hsmall (by decide)
  | commit =>
      refine ⟨trivial, _, _, (Catalogue.call_eq_ok.mp h).1, ?_⟩
      exact CopyEvent.ofCall?_eq_some.mpr ⟨_, String.toList_append, .commit⟩
  | waitGroup n =>
      obtain ⟨hn, h⟩ := Catalogue.waitGroup_eq_ok.mp h
      refine ⟨hn, _, _, (Catalogue.call_eq_ok.mp h).1, ?_⟩
      refine CopyEvent.ofCall?_eq_some.mpr ⟨_, String.toList_append, ?_⟩
      rw [Device.waitGroup_toList]
      exact .waitGroup (readSize?_toDigits (Nat.lt_trans hn (by decide)))
  | waitAll =>
      refine ⟨trivial, _, _, (Catalogue.call_eq_ok.mp h).1, ?_⟩
      exact CopyEvent.ofCall?_eq_some.mpr ⟨_, String.toList_append, .waitAll⟩

end CopyRequest

/-! ### Replay -/

namespace CopyQueue

variable {c : Catalogue} {requests : List CopyRequest} {calls : List Expr}

/-- A replay of calls comes to the operations that were asked for. -/
theorem occurrences_calls (h : requests.mapM (CopyRequest.call c) = .ok calls) :
    Stmt.occurrencesList (calls.map .eval) = requests.map fun r => .event r.event := by
  replace h := mapM_eq_ok_iff.mp h
  induction h with
  | nil => rfl
  | @cons r e requests calls hcall _ ih =>
      obtain ⟨-, func, args, rfl, hevent⟩ := CopyRequest.ofCall?_of_call hcall
      rw [List.map_cons, Stmt.occurrencesList, Stmt.occurrences, hevent, ih]
      rfl

theorem simulate_calls (h : requests.mapM (CopyRequest.call c) = .ok calls) :
    simulate (.seq (calls.map .eval)) = requests.foldlM CopyRequest.perform .empty := by
  have hperform : CopyRequest.perform = fun q r => q.meet (.event r.event) := by
    funext q r
    exact CopyRequest.perform_eq q r
  rw [simulate, replay_eq, Stmt.occurrences, occurrences_calls h, List.foldlM_map, hperform]

/-! ### Performing few operations -/

/-- At most `k` operations lie behind the queue, none of them a copy of more than 16 bytes. -/
structure Modest (k : Nat) (q : CopyQueue) : Prop where
  copies : q.openCopies ≤ k
  bytes  : q.openBytes ≤ 16 * k
  groups : q.nextGroup ≤ k

namespace Modest

variable {k : Nat} {q : CopyQueue}

theorem succ (hq : q.Modest k) : q.Modest (k + 1) :=
  ⟨Nat.le_succ_of_le hq.copies, Nat.le_trans hq.bytes (by omega), Nat.le_succ_of_le hq.groups⟩

theorem retire (hq : q.Modest k) (n : Nat) : (q.retire n).2.Modest k :=
  ⟨hq.copies, hq.bytes, hq.groups⟩

/-- A small copy can be issued on a modest queue. -/
theorem issue (hq : q.Modest k) (hk : 16 * (k + 1) < Word.limit) {bytes : Nat}
    (hbytes : bytes ≤ 16) : ∃ q', q.issue bytes = .ok q' ∧ q'.Modest (k + 1) := by
  obtain ⟨hcopies, htotal, hgroups⟩ := hq
  refine ⟨_, issue_of_lt (by omega) (by omega), Nat.succ_le_succ hcopies, ?_,
    Nat.le_succ_of_le hgroups⟩
  calc q.openBytes + bytes
    _ ≤ 16 * k + 16 := Nat.add_le_add htotal hbytes
    _ = 16 * (k + 1) := rfl

theorem commit (hq : q.Modest k) (hk : 16 * (k + 1) < Word.limit) :
    ∃ r, q.commit = .ok r ∧ r.2.Modest (k + 1) := by
  have hgroups := hq.groups
  exact ⟨_, commit_of_lt (by omega), Nat.zero_le _, Nat.zero_le _, Nat.succ_le_succ hgroups⟩

theorem waitAll (hq : q.Modest k) (hk : 16 * (k + 1) < Word.limit) :
    ∃ r, q.waitAll = .ok r ∧ r.2.Modest (k + 1) := by
  by_cases hopen : 0 < q.openCopies
  · obtain ⟨r, hcommit, hr⟩ := hq.commit hk
    rw [waitAll_of_open hopen, hcommit, ok_bind, waitGroup_zero]
    exact ⟨_, rfl, hr.retire 0⟩
  · rw [waitAll_of_idle (Nat.eq_zero_of_not_pos hopen), waitGroup_zero]
    exact ⟨_, rfl, (hq.retire 0).succ⟩

/-- A legal operation can be performed. -/
theorem apply (hq : q.Modest k) (hk : 16 * (k + 1) < Word.limit) {event : CopyEvent}
    (hevent : event.Legal) : ∃ q', q.apply event = .ok q' ∧ q'.Modest (k + 1) := by
  have hreturn {α : Type} {call : CopyQueue.Update α} {r : α × CopyQueue}
      (h : resultOf call q = .ok r) : Prod.snd <$> resultOf (discard call) q = .ok r.2 := by
    rw [snd_resultOf_discard, h]
    rfl
  cases event with
  | issue bytes => exact hq.issue hk hevent
  | commit =>
      obtain ⟨r, hcommit, hr⟩ := hq.commit hk
      exact ⟨r.2, hreturn hcommit, hr⟩
  | waitGroup n => exact ⟨_, hreturn (waitGroup_of_lt hevent), (hq.retire n).succ⟩
  | waitAll =>
      obtain ⟨r, hwait, hr⟩ := hq.waitAll hk
      exact ⟨r.2, hreturn hwait, hr⟩

/-- What was asked for by calls can be performed, as long as it is not too much to count. -/
theorem foldlM_perform {c : Catalogue} {requests : List CopyRequest} {calls : List Expr}
    (hcalls : List.Forall₂ (fun r e => r.call c = .ok e) requests calls) (hq : q.Modest k)
    (hk : 16 * (k + requests.length) < Word.limit) :
    ∃ q', requests.foldlM CopyRequest.perform q = .ok q' := by
  induction hcalls generalizing q k with
  | nil => exact ⟨q, rfl⟩
  | @cons r e requests calls hcall _ ih =>
      rw [List.length_cons] at hk
      obtain ⟨q₁, hq₁, hmodest⟩ := hq.apply (by omega) (CopyRequest.ofCall?_of_call hcall).1
      obtain ⟨q', hq'⟩ := ih hmodest (by omega)
      rw [List.foldlM_cons, CopyRequest.perform_eq]
      exact ⟨q', bind_eq_ok.mpr ⟨q₁, hq₁, hq'⟩⟩

end Modest

end CopyQueue

/-! ### The built-in functions -/

namespace Device

theorem mem_functions_of_copy {v : CopyVariant} (h : v ∈ CopyVariant.all) : copy v ∈ functions :=
  List.mem_append_left _ (List.mem_append_left _ (List.mem_append_left _
    (List.mem_append_right _ (List.mem_map_of_mem h))))

theorem mem_functions_of_pipeline {p : Procedure} (h : p ∈ pipeline) : p ∈ functions :=
  List.mem_append_left _ (List.mem_append_left _ (List.mem_append_right _ h))

theorem waitGroup_mem_pipeline {n : Nat} (h : n < waitLimit) : waitGroup n ∈ pipeline :=
  List.mem_append_left _ (List.mem_append_right _ (List.mem_map_of_mem (List.mem_range.mpr h)))

end Device

/-- A built-in function is called with as many arguments as it has parameters. -/
theorem Catalogue.call_builtIn {p : Procedure} (hp : p ∈ Device.functions) {name : String}
    (hname : p.name = devicePrefix ++ name) {args : List Expr}
    (hargs : p.params.length = args.length) :
    builtIn.call name args = .ok (.call (devicePrefix ++ name) args) :=
  call_eq_ok.mpr ⟨rfl, p, hname ▸ get?_builtIn hp, hargs⟩

/-- The operations that can be asked for of the built-in functions. -/
def CopyRequest.Legal : CopyRequest → Prop
  | .copy _ _ size sourceSize level prefetch =>
      (∃ v, CopyVariant.make size level prefetch = .ok v) ∧
        ∀ n, sourceSize.bind Expr.constInt? = some n → 0 ≤ n ∧ n ≤ size
  | .waitGroup n => n < waitLimit
  | _            => True

/-- A legal operation can be asked for of the built-in functions. -/
theorem CopyRequest.exists_call {r : CopyRequest} (h : r.Legal) : ∃ e, r.call .builtIn = .ok e := by
  cases r with
  | copy dst src size sourceSize level prefetch =>
      obtain ⟨⟨v, hv⟩, hsource⟩ := h
      have hmem := Device.mem_functions_of_copy (CopyVariant.mem_all_of_make hv)
      exact ⟨_, Catalogue.copy_eq_ok.mpr ⟨v, hv, hsource, Catalogue.call_builtIn hmem rfl rfl⟩⟩
  | commit =>
      have hmem : Device.commitGroup ∈ Device.pipeline := List.mem_cons_self
      exact ⟨_, Catalogue.call_builtIn (Device.mem_functions_of_pipeline hmem) rfl rfl⟩
  | waitGroup n =>
      have hmem := Device.mem_functions_of_pipeline (Device.waitGroup_mem_pipeline h)
      exact ⟨_, Catalogue.waitGroup_eq_ok.mpr ⟨h, Catalogue.call_builtIn hmem rfl rfl⟩⟩
  | waitAll =>
      have hmem : Device.waitAll ∈ Device.pipeline :=
        List.mem_append_right _ (List.mem_singleton_self _)
      exact ⟨_, Catalogue.call_builtIn (Device.mem_functions_of_pipeline hmem) rfl rfl⟩

/-- A call that waits is refused where the queue refuses to wait, and for the same reason. -/
theorem Catalogue.waitGroup_builtIn (n : Nat) (q : CopyQueue) (e : Error) :
    builtIn.waitGroup n = .error e ↔ q.waitGroup n = .error e := by
  unfold Catalogue.waitGroup
  by_cases hn : waitLimit ≤ n
  · rw [if_pos hn, CopyQueue.waitGroup_of_le hn]
    exact ⟨fun h => congrArg _ (Except.error.inj h), fun h => congrArg _ (Except.error.inj h)⟩
  · have hmem := Device.waitGroup_mem_pipeline (Nat.lt_of_not_le hn)
    rw [if_neg hn, CopyQueue.waitGroup_of_lt (Nat.lt_of_not_le hn),
      call_builtIn (Device.mem_functions_of_pipeline hmem) rfl rfl]
    exact iff_of_false (by rintro ⟨⟩) (by rintro ⟨⟩)

/-- **Calls of the copy protocol replay as what they ask for.**  Where calls for a list of
operations are made from the built-in functions, replaying them one after another is performing the
operations on a queue; and a queue does come of it, as long as the operations are not too many to
count.  A call that waits for groups is refused exactly where the queue refuses, with the same
error.  A name that is read as a copy falls into the family of the copies, and one that is read as
anything else into that of the functions that commit and wait. -/
theorem calls_replay : ∃ c, Catalogue.builtins = .ok c ∧
    (∀ (requests : List CopyRequest) (calls : List Expr),
      requests.mapM (CopyRequest.call c) = .ok calls →
      CopyQueue.simulate (.seq (calls.map .eval)) =
        requests.foldlM CopyRequest.perform .empty ∧
      (16 * requests.length < Word.limit →
        ∃ q, CopyQueue.simulate (.seq (calls.map .eval)) = .ok q)) ∧
    (∀ n q e, c.waitGroup n = .error e ↔ CopyQueue.waitGroup q n = .error e) ∧
    ∀ func,
      (∀ bytes, CopyEvent.ofCall? func = some (.issue bytes) →
        Family.ofName? func = some .asyncCopy) ∧
      ∀ event, CopyEvent.ofCall? func = some event → (∀ bytes, event ≠ .issue bytes) →
        Family.ofName? func = some .pipeline := by
  refine ⟨.builtIn, Catalogue.builtins_eq, ?_, Catalogue.waitGroup_builtIn, ?_⟩
  · intro requests calls h
    refine ⟨CopyQueue.simulate_calls h, fun hfew => ?_⟩
    rw [CopyQueue.simulate_calls h]
    have hempty : CopyQueue.empty.Modest 0 := ⟨Nat.le_refl _, Nat.le_refl _, Nat.le_refl _⟩
    exact hempty.foldlM_perform (mapM_eq_ok_iff.mp h) (by omega)
  · refine fun func => ⟨fun bytes h => CopyEvent.family_of_ofCall? h, fun event h hissue => ?_⟩
    rw [CopyEvent.family_of_ofCall? h]
    cases event with
    | issue bytes => exact absurd rfl (hissue bytes)
    | _ => rfl

/-- A copy that is still under way while the next is issued. -/
def overlapped : List CopyRequest :=
  let dst : Expr := .var ⟨0, "dst", Device.voidPointer⟩
  let src : Expr := .var ⟨1, "src", Device.voidPointer⟩
  [.copy dst src 16 none .global 128, .commit, .copy dst src 4 (some (.ofSize 3)) .always 0,
    .waitGroup 1, .waitAll]

/-- The overlapped copies end in two groups, both completed. -/
theorem calls_replay_overlapped : ∃ c calls, Catalogue.builtins = .ok c ∧
    overlapped.mapM (CopyRequest.call c) = .ok calls ∧
    CopyQueue.simulate (.seq (calls.map .eval)) =
      .ok ⟨0, 0, [], [⟨0, 1, 16⟩, ⟨1, 1, 4⟩], 2⟩ := by
  obtain ⟨c, hc, hreplay, -⟩ := calls_replay
  obtain rfl : Catalogue.builtIn = c := Except.ok.inj (Catalogue.builtins_eq.symm.trans hc)
  have hlegal : ∀ r ∈ overlapped, r.Legal := by
    simp only [overlapped, List.forall_mem_cons]
    refine ⟨⟨⟨_, rfl⟩, by rintro n ⟨⟩⟩, trivial, ⟨⟨_, rfl⟩, ?_⟩, ?_, trivial, by simp⟩
    · rintro n ⟨⟩
      decide
    · exact (by decide : 1 < waitLimit)
  obtain ⟨calls, hcalls⟩ := exists_mapM_eq_ok fun r hr => CopyRequest.exists_call (hlegal r hr)
  exact ⟨_, calls, hc, hcalls, (hreplay overlapped calls hcalls).1.trans (by decide)⟩

end TensorLoops
