import Prs.Lib.System

/-!
# Stacks (`alloc/stack.c`, `pal/bitops.h`, `pal/posix/mem.c`), on Linux

Sizes and addresses have 64 bits. `mmap` is what the operating system returns for a new area, where no result is
`MAP_FAILED`. What `prs_pal_mem_commit` is asked for is part of the result of a call.
-/

namespace Prs.Stack

abbrev Word : Type := BitVec 64

/-- `PRS_MAX_STACK_SIZE`. -/
def maxStackSize : Word := 1048576

/-- `prs_bitops_align_size`. -/
def alignSize (size align : Word) : Word :=
  let mask := align - 1
  (size + mask) &&& ~~~mask

/-- `prs_pal_mem_map`. `MAP_FAILED` is `(void*)-1`. -/
def memMap (mmap : Option Word) : Word := mmap.getD (BitVec.allOnes 64)

/-- The pointer and the size of a `prs_pal_mem_commit`. -/
structure Commit where
  ptr : Word
  size : Word

/-- The result of `prs_stack_create`, with its `available_size`. -/
structure Created where
  stack : Word
  availableSize : Word
  commit : Commit

/-- `prs_stack_create`. No result is null. -/
def create (pageSize : Word) (mmap : Option Word) (size : Word) : Option Created :=
  let alignedSize := alignSize size pageSize
  if alignedSize > maxStackSize then none
  else
    let stackBottom := memMap mmap
    if stackBottom = 0 then none
    else
      let protectedSize := maxStackSize - alignedSize
      let stackLimit := stackBottom + protectedSize
      some ⟨stackBottom + maxStackSize, alignedSize, ⟨stackLimit, alignedSize⟩⟩

/-- `prs_stack_grow`, with its `new_size`. No result is `PRS_FALSE`. Outside of Windows it does not use
`old_size`. -/
def grow (pageSize stack _oldSize failedPtr : Word) : Option (Word × Commit) :=
  let requiredSize := stack - failedPtr
  let growSize := alignSize requiredSize pageSize
  let alignedNewSize := alignSize requiredSize pageSize
  if alignedNewSize > maxStackSize then none
  else
    let stackBottom := stack - maxStackSize
    let protectedSize := maxStackSize - alignedNewSize
    let stackLimit := stackBottom + protectedSize
    some (alignedNewSize, ⟨stackLimit, growSize⟩)

/-- An address in an area of `PRS_MAX_STACK_SIZE` bytes from `bottom` on, below its last `size` bytes. -/
def Overflows (bottom size addr : Word) : Prop :=
  bottom.toNat ≤ addr.toNat ∧ addr.toNat + size.toNat < bottom.toNat + maxStackSize.toNat

instance (bottom size addr : Word) : Decidable (Overflows bottom size addr) := inferInstanceAs (Decidable (_ ∧ _))

/-- A stack that was created, with the last size of it: each overflow is handled by `prs_stack_grow`. -/
def sys (pageSize bottom : Word) (c : Created) : System Word Word where
  init size := size = c.availableSize
  step size addr :=
    if Overflows bottom size addr then
      match grow pageSize c.stack size addr with
      | some (newSize, _) => some newSize
      | none => some size
    else none

end Prs.Stack
