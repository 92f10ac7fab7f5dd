import TensorLoops.Device.Catalogue

/-!
# Device — AsyncCopy

Device functions for asynchronous copies from global to shared memory, and for committing and
waiting for them.  A copy has a size, a cache level and a prefetch size, of which only some
combinations are legal.  A source size below the copy size fills the rest with zeros.
-/

namespace TensorLoops

/-- Which caches a copy goes through. -/
inductive CacheLevel where
  | always
  | global
deriving DecidableEq, Repr

namespace CacheLevel

def name : CacheLevel → String
  | .always => "always"
  | .global => "global"

/-- The abbreviation in instructions. -/
def suffix : CacheLevel → String
  | .always => "ca"
  | .global => "cg"

def ofName (name : String) : Except Error CacheLevel :=
  if name = "always" then .ok .always
  else if name = "global" then .ok .global
  else .error (.instruction (.cacheLevel name))

end CacheLevel

/-- A kind of copy. -/
structure CopyVariant where
  size     : Nat
  level    : CacheLevel
  prefetch : Nat
deriving DecidableEq, Repr

namespace CopyVariant

/-- Legal copy sizes. -/
def sizes : List Nat := [4, 8, 16]

/-- Legal prefetch sizes; 0 is none. -/
def prefetchSizes : List Nat := [0, 64, 128, 256]

/-- The variant with the given parameters, if it is legal. -/
def make (size : Nat) (level : CacheLevel) (prefetch : Nat) : Except Error CopyVariant := do
  if !sizes.contains size then throw (.instruction (.copySize size))
  if !prefetchSizes.contains prefetch then throw (.instruction (.prefetch prefetch))
  if level = .global ∧ size ≠ 16 then throw (.instruction (.globalCopySize size))
  return ⟨size, level, prefetch⟩

/-- Every legal variant, by size, then prefetch, then level. -/
def all : List CopyVariant :=
  sizes.flatMap fun size => prefetchSizes.flatMap fun prefetch =>
    [CacheLevel.always, .global].filterMap fun level => (make size level prefetch).toOption

/-- The name of the device function, less what starts them all. -/
def name (v : CopyVariant) : String :=
  s!"cp_async_size_{v.size}_{v.level.suffix}" ++
    (if 0 < v.prefetch then s!"_l2_{v.prefetch}B" else "")

def funcName (v : CopyVariant) : String := devicePrefix ++ v.name

/-- The instruction: shared address, global address, copy size and source size. -/
def template (v : CopyVariant) : String :=
  s!"cp.async.{v.level.suffix}.shared.global" ++
    (if 0 < v.prefetch then s!".L2::{v.prefetch}B" else "") ++ " [%0], [%1], %2, %3;"

def toJson (v : CopyVariant) : Json :=
  .obj [("cp_size", .nat v.size), ("cache_level", .str v.level.name),
    ("prefetch_bytes", .nat v.prefetch)]

end CopyVariant

namespace Device

def voidPointer : Ty := .pointer .void

/-- The name of the address conversion, less what starts them all. -/
def sharedAddressName : String := "cvta_generic_to_shared"

def sharedAddressFunc : String := devicePrefix ++ sharedAddressName

/-- The shared-memory address of a generic pointer. -/
def sharedAddress : Procedure :=
  let ptr : Var := ⟨0, "ptr", voidPointer⟩
  let addr : Var := ⟨1, "addr", .scalar .u32⟩
  let convert : Asm := {
    template := "\x7b .reg .u64 smem_ptr; cvta.to.shared.u64 smem_ptr, %1; " ++
      "cvt.u32.u64 %0, smem_ptr; \x7d"
    outputs := [⟨"=r", .var addr⟩]
    inputs := [⟨"l", .var ptr⟩]
    isVolatile := false }
  ⟨sharedAddressFunc, .device, [ptr], [addr], .seq [.asm convert, .ret (.var addr)], .scalar .u32⟩

/-- A copy of one kind. -/
def copy (v : CopyVariant) : Procedure :=
  let dst : Var := ⟨0, "dst", voidPointer⟩
  let src : Var := ⟨1, "src", voidPointer⟩
  let size : Var := ⟨2, "src_size", .scalar .i32⟩
  let shared : Var := ⟨3, "dst_smem_ptr", .scalar .u32⟩
  let issue : Asm := {
    template := v.template
    outputs := []
    inputs := [⟨"r", .var shared⟩, ⟨"l", .var src⟩, ⟨"n", .ofSize v.size⟩, ⟨"r", .var size⟩]
    isVolatile := true }
  ⟨v.funcName, .device, [dst, src, size], [],
    .seq [.declare shared (some (.call sharedAddressFunc [.var dst])), .asm issue], .void⟩

/-- A function of one volatile instruction without operands. -/
def instructionOnly (name template : String) : Procedure :=
  ⟨devicePrefix ++ name, .device, [], [], .asm ⟨template, [], [], true⟩, .void⟩

def commitGroup : Procedure := instructionOnly "cp_async_commit_group" "cp.async.commit_group;"

def waitGroup (n : Nat) : Procedure :=
  instructionOnly s!"cp_async_wait_group_{n}" s!"cp.async.wait_group {n};"

def waitAll : Procedure := instructionOnly "cp_async_wait_all" "cp.async.wait_all;"

end Device

namespace Catalogue

def registerSharedAddress : Update Unit := register Device.sharedAddress

/-- Enter the copies; they use the address conversion, which must be there. -/
def registerCopies : Update Unit := do
  let c ← get
  discard (ExceptT.mk (pure (c.lookup Device.sharedAddressFunc)) : Update Procedure)
  registerAll (CopyVariant.all.map Device.copy)

def registerCommitGroup : Update Unit := register Device.commitGroup

def registerWaitGroups : Update Unit :=
  registerAll ((List.range waitLimit).map Device.waitGroup)

def registerWaitAll : Update Unit := register Device.waitAll

/-- The shared-memory address of a pointer. -/
def sharedAddress (c : Catalogue) (ptr : Expr) : Except Error Expr :=
  c.call Device.sharedAddressName [ptr]

/-- Copy `size` bytes from `src` to `dst`.  A constant source size must not exceed the copy
size, which it is when left out. -/
def copy (c : Catalogue) (dst src : Expr) (size : Nat) (sourceSize : Option Expr)
    (level : CacheLevel) (prefetch : Nat) : Except Error Expr := do
  let v ← CopyVariant.make size level prefetch
  match sourceSize.bind Expr.constInt? with
  | some n => if n < 0 ∨ (size : Int) < n then throw (.instruction (.sourceSize size n))
  | none   => pure ()
  c.call v.name [dst, src, sourceSize.getD (.ofSize size)]

/-- Close the copies issued since the last commit into a group. -/
def commitGroup (c : Catalogue) : Except Error Expr := c.call "cp_async_commit_group" []

/-- Wait until at most `n` groups are pending. -/
def waitGroup (c : Catalogue) (n : Nat) : Except Error Expr :=
  if waitLimit ≤ n then .error (.replay (.waitCount waitLimit n))
  else c.call s!"cp_async_wait_group_{n}" []

/-- Wait for every copy. -/
def waitAll (c : Catalogue) : Except Error Expr := c.call "cp_async_wait_all" []

end Catalogue

end TensorLoops
