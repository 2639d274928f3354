import Mathlib.Data.List.Basic
import Mathlib.Algebra.GroupWithZero.Nat

/-!
# Constants, addresses and the ways the kernel stops

The constants are those of the qemu board (the default features). Sizes,
addresses and page numbers (`ppn`, `vpn`) are `usize` values kept as naturals.
A `PhysPageNum` of the source keeps 44 bits, more than any frame of RAM has.
-/

namespace MyGOS

def PAGE_SIZE : Nat := 0x1000
def USER_STACK_SIZE : Nat := 4096 * 2048
def USER_HEAP_SIZE : Nat := 4096 * 30000
def USER_STACK_BASE : Nat := 0xf0000000
def MMAP_BASE : Nat := 0x60000000
def SHM_BASE : Nat := 0x70000000
def LINK_BASE : Nat := 0x20000000
def THREAD_LIMIT : Nat := 4096 * 2

/-- `usize::MAX - PAGE_SIZE + 1`. -/
def TRAMPOLINE : Nat := 2 ^ 64 - PAGE_SIZE
def SIGNAL_TRAMPOLINE : Nat := TRAMPOLINE - PAGE_SIZE
def TRAP_CONTEXT_BASE : Nat := SIGNAL_TRAMPOLINE - PAGE_SIZE

-- The instances for the indices of the tables of the kernel: the registers,
-- the signal actions, and the entries of a page table.
instance registers_neZero : NeZero 32 := ⟨by decide⟩
instance sigactions_neZero : NeZero 64 := ⟨by decide⟩
instance entries_neZero : NeZero 512 := ⟨by decide⟩

/-- The panics of the memory subsystem, under the expression that panics. -/
inductive Panic where
  /-- `alloc_frame().unwrap()`, "out of memory", "No more memory!" -/
  | outOfMemory
  /-- "Frame ppn={:#x} has no reference!", or `unwrap` of a missing reference counter -/
  | noReference (ppn : Nat)
  /-- "Frame ppn={:#x} has not been allocated!" -/
  | notAllocated (ppn : Nat)
  /-- "{:#x?} is mapped before mapping" -/
  | mappedBefore (vpn : Nat)
  /-- `translate(..).unwrap()` of a page without a valid entry -/
  | notTranslated (vpn : Nat)
  /-- "vm area overlap" -/
  | areaOverlap (vpn : Nat)
  /-- `unreachable!()` on an area type that `from_copy_on_write` does not expect -/
  | unreachableArea
  /-- "cow of of range" -/
  | cowOutOfRange (vpn : Nat)
  /-- "{:?} is not page aligned" -/
  | notAligned (va : Nat)
  /-- "start {:?} > end {:?}!" -/
  | badRange (start stop : Nat)
  /-- `mmap_map.get_mut(&vpn).unwrap()` of a page no mmap covers -/
  | notMmapped (vpn : Nat)
  /-- "check lazy error" -/
  | checkLazy (va : Nat)
  /-- "process doesn't have enough memsize to grow!", "Memory shrinked to the lowest boundary!" -/
  | brkOutOfRange (brk : Nat)
  /-- "unsupported mmap prot", "unsupported mmap flags", `MmapProts::from_bits(prot).unwrap()` -/
  | unsupportedBits (bits : Nat)
  /-- "cross-page access from translated_ref" and from `translated_mut` -/
  | crossPage (va : Nat)
  /-- "{} not implement seek" and the like, an `assert!` of a file on the buffer it is given -/
  | fileMethod
  /-- an index outside of its table, a missing key or process -/
  | outOfBounds
  /-- an `assert!` that fails -/
  | assertion
deriving DecidableEq, Repr

/-- The errors of the system calls modelled here. -/
inductive Errno where
  | EBADF
  | EFAULT
  | EINVAL
  | EMFILE
  | ENOENT
  | ENOEXEC
  | ENOTDIR
  | ESRCH
  | EINTR
  | ETIMEDOUT
  | DISCARD
deriving DecidableEq, Repr

end MyGOS
