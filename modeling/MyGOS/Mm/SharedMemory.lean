import MyGOS.Mm.Machine
import MyGOS.Lib.MapTotal

/-!
# Shared memory

A segment is a buffer of the kernel heap under a key. Each attachment of an
address space holds a `SharedMemoryTracker`: its construction raises the attach
count of the segment and its drop lowers it. The times, the process ids and the
permissions of `shmid_ds` are left out; nothing reads them.
-/

namespace MyGOS.Mm

def IPC_PRIVATE : Nat := 0
def IPC_RMID : Nat := 0

/-- `shm_nattch` is a `usize` that would wrap below zero; here it would become negative.
`buffer` is the physical address of the bytes. -/
structure SharedMemoryArea where
  shm_size : Nat
  shm_nattch : Int
  buffer : Nat
deriving DecidableEq

structure SharedMemoryTracker where
  key : Nat
deriving DecidableEq

/-- `PhysPageNum::from(PhysAddr)`. -/
def ppn_of (pa : Nat) : Except Panic Nat :=
  if page_offset pa = 0 then .ok (floor pa) else .error (.notAligned pa)

/-- The offsets of the pages of a segment, as the loops over it count them. -/
def shm_offsets (size : Nat) : List Nat :=
  (List.range ((size + PAGE_SIZE - 1) / PAGE_SIZE)).map (· * PAGE_SIZE)

/-- The frames a segment is made of. -/
def SharedMemoryArea.ppns (area : SharedMemoryArea) : List Nat :=
  (shm_offsets area.shm_size).map fun offset => floor (area.buffer + offset)

abbrev SharedMemoryManager := AList fun _ : Nat => SharedMemoryArea

namespace SharedMemoryManager

/-- `vec![0; size]` gets its memory at `buffer`. -/
def create (m : SharedMemoryManager) (key size buffer : Nat) :
    Except Panic (Nat × SharedMemoryManager) :=
  let key := if key = 0 then
      match m.keys.max? with
      | none => 1
      | some last => (last + 1) % 2 ^ 64
    else key
  match m.lookup key with
  | none => .ok (key, m.insert key { shm_size := size, shm_nattch := 0, buffer := buffer })
  | some _ => .error .assertion

def attach (m : SharedMemoryManager) (key : Nat) : Except Panic SharedMemoryManager :=
  match m.lookup key with
  | none => .error .outOfBounds
  | some area => .ok (m.insert key { area with shm_nattch := area.shm_nattch + 1 })

def detach (m : SharedMemoryManager) (key : Nat) : Except Panic SharedMemoryManager :=
  match m.lookup key with
  | none => .error .outOfBounds
  | some area => .ok (m.insert key { area with shm_nattch := area.shm_nattch - 1 })

/-- The buffer goes with the segment, when nobody is attached. -/
def remove (m : SharedMemoryManager) (key : Nat) : Except Panic SharedMemoryManager :=
  match m.lookup key with
  | none => .error .outOfBounds
  | some area => .ok (if area.shm_nattch = 0 then m.erase key else m)

def get_address_and_size (m : SharedMemoryManager) (key : Nat) : Except Panic (Nat × Nat) :=
  match m.lookup key with
  | none => .error .outOfBounds
  | some area => .ok (area.buffer, area.shm_size)

def get_nattch (m : SharedMemoryManager) (key : Nat) : Except Panic Int :=
  match m.lookup key with
  | none => .error .outOfBounds
  | some area => .ok area.shm_nattch

end SharedMemoryManager

namespace SharedMemoryTracker

def new (m : SharedMemoryManager) (key : Nat) :
    Except Panic (SharedMemoryTracker × SharedMemoryManager) := do
  let m ← m.attach key
  return (⟨key⟩, m)

/-- A tracker for the same segment. -/
def another (m : SharedMemoryManager) (tracker : SharedMemoryTracker) :
    Except Panic SharedMemoryManager := do
  let (_, m) ← new m tracker.key
  return m

/-- `Drop`. -/
def drop (m : SharedMemoryManager) (tracker : SharedMemoryTracker) :
    Except Panic SharedMemoryManager :=
  m.detach tracker.key

end SharedMemoryTracker

/-- A `MemorySet` with its `shm_trackers`, under the addresses of the attachments. -/
structure ShmSet where
  ms : MemorySet
  shm_trackers : AList fun _ : Nat => SharedMemoryTracker

namespace ShmSet

/-- `start_va + offset`, for an offset of a page of a segment. -/
def shm_va (start_va offset : Nat) : Nat := virt_addr ((start_va + offset) % 2 ^ 64)

def attach_page (start_va start_pa : Nat) (s : PageTable × Phys) (offset : Nat) :
    Except Panic (PageTable × Phys) := do
  let vpn ← MemorySet.vpn_of (shm_va start_va offset)
  let ppn ← ppn_of (start_pa + offset)
  s.1.map s.2 vpn ppn (PTEFlags.V ||| PTEFlags.U ||| PTEFlags.W ||| PTEFlags.R)

/-- `insert` into the trackers, and the drop of the tracker it returns. -/
def insert_tracker (s : ShmSet) (m : SharedMemoryManager) (start_va : Nat)
    (tracker : SharedMemoryTracker) : Except Panic (ShmSet × SharedMemoryManager) := do
  let m ← match s.shm_trackers.lookup start_va with
    | none => .ok m
    | some old => old.drop m
  return ({ s with shm_trackers := s.shm_trackers.insert start_va tracker }, m)

def attach_shm (s : ShmSet) (m : SharedMemoryManager) (ph : Phys) (key start_va : Nat) :
    Except Panic (ShmSet × SharedMemoryManager × Phys) := do
  let (start_pa, size) ← m.get_address_and_size key
  let (page_table, ph) ←
    (shm_offsets size).foldlM (attach_page start_va start_pa) (s.ms.page_table, ph)
  let shm_top := max s.ms.shm_top ((start_va + size) % 2 ^ 64)
  let (tracker, m) ← SharedMemoryTracker.new m key
  let (s, m) ← s.insert_tracker m start_va tracker
  let vma ← VmArea.new start_va (shm_va start_va size) .Framed .Shared { r := true, w := true }
    none 0
  let shm_areas := s.ms.shm_areas ++ [vma]
  return ({ s with ms := { s.ms with page_table, shm_areas, shm_top } }, m, ph)

def detach_page (start_va : Nat) (page_table : PageTable) (offset : Nat) :
    Except Panic PageTable := do
  let vpn ← MemorySet.vpn_of (shm_va start_va offset)
  return page_table.unmap vpn

/-- Returns the attach count that is left. -/
def detach_shm (s : ShmSet) (m : SharedMemoryManager) (start_va : Nat) :
    Except Panic (Int × ShmSet × SharedMemoryManager) :=
  match s.shm_trackers.lookup start_va with
  | none => .error .outOfBounds
  | some tracker => do
    let (_, size) ← m.get_address_and_size tracker.key
    let page_table ← (shm_offsets size).foldlM (detach_page start_va) s.ms.page_table
    let m ← tracker.drop m
    let vpn ← MemorySet.vpn_of start_va
    let shm_areas := s.ms.shm_areas.filter fun area => area.vpn_range.start ≠ vpn
    let nattch ← m.get_nattch tracker.key
    return (nattch, { ms := { s.ms with page_table, shm_areas }
                      shm_trackers := s.shm_trackers.erase start_va }, m)

/-- The child gets a tracker of its own for each attachment of the parent. -/
def from_copy_on_write (text : KernelImage) (user_space : ShmSet) (m : SharedMemoryManager)
    (ph : Phys) : Except Panic (ShmSet × ShmSet × SharedMemoryManager × Phys) := do
  let (parent, child, ph) ← user_space.ms.from_copy_on_write text ph
  let m ← user_space.shm_trackers.entries.foldlM (fun m e => e.2.another m) m
  return ({ user_space with ms := parent }, { user_space with ms := child }, m, ph)

/-- `Drop`: the frames go back to the allocator, and each tracker is dropped. -/
def drop (s : ShmSet) (m : SharedMemoryManager) (ph : Phys) :
    Except Panic (SharedMemoryManager × Phys) := do
  let ph ← s.ms.drop ph
  let m ← s.shm_trackers.entries.foldlM (fun m e => e.2.drop m) m
  return (m, ph)

/-- Where `sys_shmat` attaches: at `shm_top` when it is given no address. -/
def shmat_address (s : ShmSet) (address : Nat) : Nat :=
  if address = 0 then s.ms.shm_top else address

end ShmSet

/-- The length of the segment `sys_shmget` creates. -/
def shmget_size (size : Nat) : Nat := (size + PAGE_SIZE - 1) % 2 ^ 64 / PAGE_SIZE * PAGE_SIZE

def sys_shmget (m : SharedMemoryManager) (key size buffer : Nat) :
    Except Panic (Nat × SharedMemoryManager) :=
  if key = IPC_PRIVATE then m.create key (shmget_size size) buffer else .error .assertion

def sys_shmctl (m : SharedMemoryManager) (key cmd : Nat) : Except Panic SharedMemoryManager :=
  if cmd = IPC_RMID then m.remove key else .error .assertion

def sys_shmat (s : ShmSet) (m : SharedMemoryManager) (ph : Phys) (key address : Nat) :
    Except Panic (Nat × ShmSet × SharedMemoryManager × Phys) := do
  let address := s.shmat_address address
  let s ← s.attach_shm m ph key (virt_addr address)
  return (address, s)

def sys_shmdt (s : ShmSet) (m : SharedMemoryManager) (address : Nat) :
    Except Panic (Int × ShmSet × SharedMemoryManager) :=
  s.detach_shm m (virt_addr address)

/-- Physical memory, the segments and all address spaces. -/
structure ShmMachine where
  text : KernelImage
  ph : Phys
  shm_manager : SharedMemoryManager
  spaces : List (Option ShmSet)

/-- `buffer` is where the heap puts the bytes of a new segment. -/
inductive ShmOp where
  | sys_shmget (key size buffer : Nat)
  | sys_shmat (pid key address : Nat)
  | sys_shmdt (pid address : Nat)
  | sys_shmctl (key cmd : Nat)
  | fork (pid : Nat)
  | exit (pid : Nat)

namespace ShmMachine

/-- The manager starts without segments. -/
def start (m : Machine) : ShmMachine where
  text := m.text
  ph := m.ph
  shm_manager := ∅
  spaces := m.spaces.map (Option.map fun ms => { ms, shm_trackers := ∅ })

def space (m : ShmMachine) (pid : Nat) : Except Panic ShmSet :=
  match m.spaces[pid]? with
  | some (some s) => .ok s
  | _ => .error .outOfBounds

def put (m : ShmMachine) (pid : Nat) (s : Option ShmSet) (manager : SharedMemoryManager)
    (ph : Phys) : ShmMachine :=
  { m with ph := ph, shm_manager := manager, spaces := m.spaces.set pid s }

def step (m : ShmMachine) : ShmOp → Except Panic ShmMachine
  | .sys_shmget key size buffer => do
    let (_, manager) ← sys_shmget m.shm_manager key size buffer
    return { m with shm_manager := manager }
  | .sys_shmat pid key address => do
    let s ← m.space pid
    let (_, s, manager, ph) ← sys_shmat s m.shm_manager m.ph key address
    return m.put pid (some s) manager ph
  | .sys_shmdt pid address => do
    let s ← m.space pid
    let (_, s, manager) ← sys_shmdt s m.shm_manager address
    return m.put pid (some s) manager m.ph
  | .sys_shmctl key cmd => do
    let manager ← sys_shmctl m.shm_manager key cmd
    return { m with shm_manager := manager }
  | .fork pid => do
    let s ← m.space pid
    let (parent, child, manager, ph) ← s.from_copy_on_write m.text m.shm_manager m.ph
    let m := m.put pid (some parent) manager ph
    return { m with spaces := m.spaces ++ [some child] }
  | .exit pid => do
    let s ← m.space pid
    let (manager, ph) ← s.drop m.shm_manager m.ph
    return m.put pid none manager ph

end ShmMachine

end MyGOS.Mm
