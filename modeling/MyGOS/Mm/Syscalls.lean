import MyGOS.Mm.MemorySet

/-!
# Memory system calls

`sys_mmap`, `sys_munmap`, `sys_brk` and `sys_mprotect` on the address space of
the caller. The file of a descriptor is given in place of the descriptor.
-/

namespace MyGOS.Mm

abbrev Result := Except Errno Int

namespace MemorySet

/-- `TaskControlBlock::mmap`. -/
def mmap (ms : MemorySet) (ph : Phys) (addr length : Nat) (prot : MmapProts) (flags : MmapFlags)
    (fd : Option File) (offset : Nat) : Except Panic (Nat × MemorySet × Phys) := do
  if page_offset addr ≠ 0 then .error (.notAligned addr)
  else
    let start_va := if addr = 0 then ms.mmap_manager.mmap_top else 0
    let (start_va, mmap_manager, ph) ← if flags.fixed then do
        let start_va := virt_addr addr
        let (mmap_manager, ph) ← ms.mmap_manager.remove ph start_va length
        pure (start_va, mmap_manager, ph)
      else pure (start_va, ms.mmap_manager, ph)
    let file := if flags.anonymous then none else fd
    let (addr, mmap_manager) ← mmap_manager.push start_va length prot flags offset file
    return (addr, { ms with mmap_manager := mmap_manager }, ph)

def sys_mmap (ms : MemorySet) (ph : Phys) (addr length prot flags : Nat) (fd : Option File)
    (offset : Nat) : Except Panic (Result × MemorySet × Phys) :=
  if length = 0 then .ok (.error .EINVAL, ms, ph)
  else
    let padding := if length % PAGE_SIZE = 0 then 0 else PAGE_SIZE - length % PAGE_SIZE
    let length := (length + padding) % 2 ^ 64
    match MmapProts.from_bits prot, MmapFlags.from_bits flags with
    | none, _ => .error (.unsupportedBits prot)
    | _, none => .error (.unsupportedBits flags)
    | some prot, some flags =>
      if ¬ flags.anonymous ∧ fd.isNone then .ok (.error .EBADF, ms, ph)
      else do
        let (addr, ms, ph) ← ms.mmap ph addr length prot flags fd offset
        return (.ok addr, ms, ph)

/-- `sys_munmap`, which is `TaskControlBlock::munmap`. -/
def sys_munmap (ms : MemorySet) (ph : Phys) (addr length : Nat) :
    Except Panic (Result × MemorySet × Phys) := do
  let (mmap_manager, ph) ← ms.mmap_manager.remove ph addr length
  return (.ok 0, { ms with mmap_manager := mmap_manager }, ph)

/-- A `usize` read as an `isize`. -/
def as_isize (n : Nat) : Int := if n < 2 ^ 63 then n else (n : Int) - 2 ^ 64

def grow_proc (ms : MemorySet) (grow_size : Int) : Except Panic (Nat × MemorySet) :=
  let addr := (((ms.brk : Int) + grow_size) % 2 ^ 64).toNat
  if 0 < grow_size then
    if (ms.brk_start + USER_HEAP_SIZE) % 2 ^ 64 < addr then .error (.brkOutOfRange addr)
    else .ok (addr, { ms with brk := addr })
  else if addr < ms.brk_start then .error (.brkOutOfRange addr)
  else .ok (addr, { ms with brk := addr })

def sys_brk (ms : MemorySet) (brk : Nat) : Except Panic (Result × MemorySet) := do
  let (former_addr, ms) ← ms.grow_proc 0
  if brk = 0 then return (.ok former_addr, ms)
  else
    let (addr, ms) ← ms.grow_proc (as_isize ((brk + 2 ^ 64 - former_addr) % 2 ^ 64))
    return (.ok addr, ms)

/-- A page that is not mapped yet gets the new protection when it is in a mapping; the pages
before one that is in none have been changed when the call fails. -/
def mprotect_pages (pte_flags : PTEFlags) (prot : Nat) :
    List Nat → MemorySet → Except Panic (Result × MemorySet)
  | [], ms => .ok (.ok 0, ms)
  | vpn :: vpns, ms =>
    match ms.page_table.find_pte vpn with
    | some pte => mprotect_pages pte_flags prot vpns
        { ms with page_table := ms.page_table.set_entry vpn (pte.set_flags pte_flags) }
    | none =>
      let va := vpn * PAGE_SIZE % 2 ^ 64
      match MmapProts.from_bits prot with
      | none => .error (.unsupportedBits prot)
      | some mmap_perm =>
        let m := ms.mmap_manager
        if m.mmap_start ≤ va ∧ va < m.mmap_top then
          match m.mmap_map[vpn]? with
          | none => .error (.notMmapped vpn)
          | some page => mprotect_pages pte_flags prot vpns { ms with
              mmap_manager := { m with mmap_map := m.mmap_map.insert vpn (page.set_prot mmap_perm) } }
        else .ok (.error .EINVAL, ms)

/-- `MapPermission::from_bits(((prot & 0b111) << 1) + (1 << 4))`. -/
def mprotect_perm (prot : Nat) : MapPermission :=
  { r := prot.testBit 0, w := prot.testBit 1, x := prot.testBit 2, u := true }

def mprotect_range (addr length : Nat) : Except Panic VPNRange :=
  VPNRange.from_va (virt_addr addr) (virt_addr ((addr + length) % 2 ^ 64))

def sys_mprotect (ms : MemorySet) (addr length prot : Nat) : Except Panic (Result × MemorySet) := do
  let pte_flags := PTEFlags.from_map_permission (mprotect_perm prot) ||| PTEFlags.V
  let vpn_range ← mprotect_range addr length
  mprotect_pages pte_flags prot vpn_range.vpns ms

end MemorySet

end MyGOS.Mm
