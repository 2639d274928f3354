import MyGOS.Mm.UserCopy
import MyGOS.Lib.StepSystem

/-!
# The machine: physical memory and all address spaces

A step is one entry into the kernel, or one store of a user program. Address
spaces are numbered in the order of their creation; one that was reaped or
replaced is gone. `held` are the frames of the kernel's own uses, such as
kernel stacks.
-/

namespace MyGOS.Mm

structure Machine where
  text : KernelImage
  ph : Phys
  spaces : List (Option MemorySet)
  held : List FrameTracker

inductive MachineOp where
  | spawn (elf : ElfFile)
  | exec (pid : Nat) (elf : ElfFile)
  | exec_busybox (pid busybox : Nat)
  | fork (pid : Nat)
  | exit (pid : Nat)
  | check_lazy (pid va : Nat)
  | sys_mmap (pid addr length prot flags : Nat) (fd : Option File) (offset : Nat)
  | sys_munmap (pid addr length : Nat)
  | sys_brk (pid brk : Nat)
  | sys_mprotect (pid addr length prot : Nat)
  | user_store (pid va : Nat) (byte : UInt8)
  | write_user (pid ptr len : Nat) (data : List UInt8)
  | hold
  | release (ppn : Nat)

namespace Machine

/-- The machine at boot, with the frames from `ekernel` to `r` to allocate. -/
def boot (text : KernelImage) (r : Nat) : Machine where
  text := text
  ph := ⟨StackFrameAllocator.new.init text.ekernel r, fun _ _ => 0⟩
  spaces := []
  held := []

def space (m : Machine) (pid : Nat) : Except Panic MemorySet :=
  match m.spaces[pid]? with
  | some (some ms) => .ok ms
  | _ => .error .outOfBounds

def put (m : Machine) (pid : Nat) (s : MemorySet × Phys) : Machine :=
  { m with ph := s.2, spaces := m.spaces.set pid (some s.1) }

/-- The replacement of an address space by `exec`, with the drop of the old one. -/
def replace (m : Machine) (pid : Nat) (s : MemorySet × Phys) : Except Panic Machine := do
  let old ← m.space pid
  let ph ← old.drop s.2
  return m.put pid (s.1, ph)

/-- A store of the user program: it takes effect when the page is mapped and user-writable. -/
def user_store (ms : MemorySet) (ph : Phys) (va : Nat) (byte : UInt8) : Option Phys :=
  match ms.translate (floor va) with
  | some pte =>
    if pte.flags.w ∧ pte.flags.u then some (ph.write pte.ppn (page_offset va) [byte]) else none
  | none => none

/-- `exec` is `load_elf` and the replacement; `init_ustack` is the `write_user`s after it. A
fault is the `check_lazy` that the trap handler calls. -/
def step (m : Machine) : MachineOp → Except Panic Machine
  | .spawn elf => do
    let (ms, ph) ← MemorySet.load_elf m.text elf m.ph
    return { m with ph := ph, spaces := m.spaces ++ [some ms] }
  | .exec pid elf => do
    let s ← MemorySet.load_elf m.text elf m.ph
    m.replace pid s
  | .exec_busybox pid busybox => do
    let ms ← m.space busybox
    let (parent, child, ph) ← ms.from_copy_on_write m.text m.ph
    (m.put busybox (parent, ph)).replace pid (child, ph)
  | .fork pid => do
    let ms ← m.space pid
    let (parent, child, ph) ← ms.from_copy_on_write m.text m.ph
    let m := m.put pid (parent, ph)
    return { m with spaces := m.spaces ++ [some child] }
  | .exit pid => do
    let ms ← m.space pid
    let ph ← ms.drop m.ph
    return { m with ph := ph, spaces := m.spaces.set pid none }
  | .check_lazy pid va => do
    let ms ← m.space pid
    let (_, s) ← ms.check_lazy m.ph va
    return m.put pid s
  | .sys_mmap pid addr length prot flags fd offset => do
    let ms ← m.space pid
    let (_, s) ← ms.sys_mmap m.ph addr length prot flags fd offset
    return m.put pid s
  | .sys_munmap pid addr length => do
    let ms ← m.space pid
    let (_, s) ← ms.sys_munmap m.ph addr length
    return m.put pid s
  | .sys_brk pid brk => do
    let ms ← m.space pid
    let (_, ms) ← ms.sys_brk brk
    return m.put pid (ms, m.ph)
  | .sys_mprotect pid addr length prot => do
    let ms ← m.space pid
    let (_, ms) ← ms.sys_mprotect addr length prot
    return m.put pid (ms, m.ph)
  | .user_store pid va byte => do
    let ms ← m.space pid
    return { m with ph := (user_store ms m.ph va byte).getD m.ph }
  | .write_user pid ptr len data => do
    let ms ← m.space pid
    let s ← Mm.write_user ms m.ph ptr len data
    return m.put pid s
  | .hold => do
    let (frame, ph) ← m.ph.alloc_frame
    return { m with ph := ph, held := frame :: m.held }
  | .release ppn =>
    if ⟨ppn⟩ ∈ m.held then do
      let ph ← m.ph.drop ⟨ppn⟩
      return { m with ph := ph, held := m.held.erase ⟨ppn⟩ }
    else .error .outOfBounds

end Machine

end MyGOS.Mm
