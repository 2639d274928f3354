import MyGOS.Mm.Mmap

/-!
# Address spaces

`MemorySet` and what creates, copies and extends one: `load_elf`,
`from_copy_on_write`, `cow_alloc` and the lazy allocations behind `check_lazy`.
The `shm_trackers` are not a field here: `SharedMemory` puts them beside a
`MemorySet`, for the processes that attach segments.
-/

namespace MyGOS.Mm

/-- The frames of the kernel image that user page tables map; the frames to allocate start
behind the image, at `ekernel`. -/
structure KernelImage where
  strampoline : Nat
  user_sigreturn : Nat
  ekernel : Nat
  strampoline_lt : strampoline < ekernel
  user_sigreturn_lt : user_sigreturn < ekernel

structure MemorySet where
  page_table : PageTable
  map_areas : List VmArea
  mmap_manager : MmapManager
  heap_areas : VmArea
  shm_areas : List VmArea
  shm_top : Nat
  brk_start : Nat
  brk : Nat
  user_stack_areas : VmArea
  user_stack_start : Nat
  user_stack_end : Nat

/-- A program header of type `Load`. -/
structure ProgramHeader where
  virtual_addr : Nat
  mem_size : Nat
  offset : Nat
  file_size : Nat
  is_read : Bool
  is_write : Bool
  is_execute : Bool

/-- What the ELF parser finds; `interpreter` is "/libc.so" where there is an `Interp` header. -/
structure ElfFile where
  file : File
  load : List ProgramHeader
  interpreter : Option (File × List ProgramHeader)

namespace MemorySet

def user_rw : MapPermission := { r := true, w := true, u := true }

def new_bare (ph : Phys) : Except Panic (MemorySet × Phys) := do
  let (page_table, ph) ← PageTable.new ph
  let heap_areas ← VmArea.new 0 0 .Framed .UserHeap user_rw none 0
  let user_stack_areas ← VmArea.new 0 0 .Framed .UserStack user_rw none 0
  return ({ page_table, map_areas := [], mmap_manager := .new MMAP_BASE MMAP_BASE, heap_areas
            shm_areas := [], shm_top := SHM_BASE, brk_start := 0, brk := 0, user_stack_areas
            user_stack_start := 0, user_stack_end := 0 }, ph)

def translate (ms : MemorySet) (vpn : Nat) : Option PageTableEntry := ms.page_table.translate vpn

def map_trampoline (text : KernelImage) (ms : MemorySet) (ph : Phys) :
    Except Panic (MemorySet × Phys) := do
  let (page_table, ph) ← ms.page_table.map ph (floor TRAMPOLINE) text.strampoline
    (PTEFlags.R ||| PTEFlags.X)
  return ({ ms with page_table := page_table }, ph)

def map_signal_trampoline (text : KernelImage) (ms : MemorySet) (ph : Phys) :
    Except Panic (MemorySet × Phys) := do
  let (page_table, ph) ← ms.page_table.map ph (floor SIGNAL_TRAMPOLINE) text.user_sigreturn
    (PTEFlags.R ||| PTEFlags.X ||| PTEFlags.U)
  return ({ ms with page_table := page_table }, ph)

/-- `data` is the place in the file, the length and the place in the first page. -/
def insert_and_map (ms : MemorySet) (ph : Phys) (map_area : VmArea)
    (data : Option (Nat × Nat × Nat)) : Except Panic (MemorySet × Phys) := do
  let (map_area, page_table, ph) ← map_area.inflate_pagetable ms.page_table ph
  let ph ← match data with
    | some (start, len, page_offset) => map_area.copy_data page_table ph start len page_offset
    | none => .ok ph
  return ({ ms with page_table := page_table, map_areas := ms.map_areas ++ [map_area] }, ph)

def map_trap_context (ms : MemorySet) (ph : Phys) : Except Panic (MemorySet × Phys) := do
  let area ← VmArea.new TRAP_CONTEXT_BASE SIGNAL_TRAMPOLINE .Framed .TrapContext
    { r := true, w := true } none 0
  ms.insert_and_map ph area none

/-- One `Load` segment at the distance `base`; `perm` and `file_offset` differ for the
program and its interpreter. -/
def load_segment (file : File) (base : Nat) (perm : ProgramHeader → MapPermission)
    (file_offset : Nat → Nat) (s : MemorySet × Phys) (h : ProgramHeader) :
    Except Panic (MemorySet × Phys) := do
  let start_va := virt_addr ((h.virtual_addr + base) % 2 ^ 64)
  let end_va := virt_addr ((h.virtual_addr + h.mem_size + base) % 2 ^ 64)
  let area ← VmArea.new start_va end_va .Framed .Elf (perm h) (some file)
    (file_offset (page_offset start_va))
  s.1.insert_and_map s.2 area (some (h.offset, h.file_size, page_offset start_va))

def segment_perm (h : ProgramHeader) : MapPermission :=
  { r := h.is_read, w := h.is_write, x := h.is_execute, u := true }

def load_interpreter (s : MemorySet × Phys) :
    Option (File × List ProgramHeader) → Except Panic (MemorySet × Phys)
  | none => .ok s
  | some (file, headers) =>
    headers.foldlM (load_segment file LINK_BASE
      (fun _ => { r := true, w := true, x := true, u := true }) fun _ => 0) s

/-- The end of the last segment. -/
def brk_start_va (headers : List ProgramHeader) : Nat :=
  match headers.getLast? with
  | some h => virt_addr ((h.virtual_addr + h.mem_size) % 2 ^ 64)
  | none => 0

/-- The regions that get no page before they are touched. -/
def set_regions (ms : MemorySet) (elf : ElfFile) : Except Panic MemorySet := do
  let user_stack_top := USER_STACK_BASE
  let user_stack_bottom := user_stack_top - USER_STACK_SIZE
  let user_stack_areas ← VmArea.new user_stack_bottom user_stack_top .Framed .UserStack user_rw
    none 0
  let user_heap_bottom := (brk_start_va elf.load + PAGE_SIZE) % 2 ^ 64
  let user_heap_top := (user_heap_bottom + USER_HEAP_SIZE) % 2 ^ 64
  let heap_areas ← VmArea.new (virt_addr user_heap_bottom) (virt_addr user_heap_top) .Framed
    .UserHeap user_rw (some elf.file) (page_offset user_heap_bottom)
  return { ms with
    user_stack_start := user_stack_bottom
    user_stack_end := user_stack_top
    user_stack_areas := user_stack_areas
    heap_areas := heap_areas
    brk := user_heap_bottom
    brk_start := user_heap_bottom }

def load_elf (text : KernelImage) (elf : ElfFile) (ph : Phys) :
    Except Panic (MemorySet × Phys) := do
  let (ms, ph) ← new_bare ph
  let (ms, ph) ← ms.map_trampoline text ph
  let (ms, ph) ← ms.map_signal_trampoline text ph
  let (ms, ph) ← ms.map_trap_context ph
  let s ← elf.load.foldlM (load_segment elf.file 0 segment_perm fun offset => offset) (ms, ph)
  let (ms, ph) ← load_interpreter s elf.interpreter
  if elf.load.isEmpty then .error .outOfBounds
  else
    let ms ← ms.set_regions elf
    return (ms, ph)

end MemorySet

/-- Both page tables of a copy on write, with the frame map of the area being copied. -/
structure CowState where
  parent : PageTable
  child : PageTable
  ph : Phys
  frame_map : FrameMap

namespace CowState

/-- Takes the W bit from the page of the parent, marks it COW and maps it likewise in the
child. -/
def share_page (s : CowState) (vpn : Nat) (pte : PageTableEntry) : Except Panic CowState := do
  let pte_flags := pte.flags.without PTEFlags.W
  let src_ppn := pte.ppn
  let (parent, ph) ← s.parent.set_flags s.ph vpn pte_flags
  let (parent, ph) ← parent.set_cow ph vpn
  let (child, ph) ← s.child.map ph vpn src_ppn pte_flags
  let (child, ph) ← child.set_cow ph vpn
  return { s with parent := parent, child := child, ph := ph }

/-- With a tracker for the child. -/
def track_page (s : CowState) (vpn : Nat) (pte : PageTableEntry) : Except Panic CowState := do
  let s ← s.share_page vpn pte
  let (frame, ph) ← s.ph.from_ppn pte.ppn
  let (frame_map, ph) ← s.frame_map.insert_frame ph vpn frame
  return { s with ph := ph, frame_map := frame_map }

/-- A page of an area that is mapped as a whole. -/
def track_mapped (s : CowState) (vpn : Nat) : Except Panic CowState :=
  match s.parent.translate vpn with
  | none => .error (.notTranslated vpn)
  | some pte => s.track_page vpn pte

/-- A page of the stack or the heap, "only on the already mapped segments". -/
def track_lazy (s : CowState) (vpn : Nat) : Except Panic CowState :=
  match s.parent.translate vpn with
  | none => .ok s
  | some pte => s.track_page vpn pte

def share_mmap (s : CowState) (e : Nat × MmapPage) : Except Panic CowState :=
  if e.2.valid then
    match s.parent.translate e.1 with
    | none => .ok s
    | some pte => s.share_page e.1 pte
  else .ok s

def copy_page (s : CowState) (vpn : Nat) : Except Panic CowState :=
  match s.parent.translate vpn, s.child.translate vpn with
  | some src, some dst => .ok { s with ph := s.ph.copy dst.ppn src.ppn }
  | _, _ => .error (.notTranslated vpn)

/-- An area of `map_areas`, with the areas of the child so far. -/
def copy_area (s : CowState × List VmArea) (area : VmArea) :
    Except Panic (CowState × List VmArea) :=
  let (s, areas) := s
  let new_area := VmArea.from_another area
  match area.area_type with
  | .TrapContext => do
    let (new_area, child, ph) ← new_area.inflate_pagetable s.child s.ph
    let s ← area.vpn_range.vpns.foldlM copy_page { s with child := child, ph := ph }
    return (s, areas ++ [new_area])
  | .UserStack | .Elf => do
    let s ← area.vpn_range.vpns.foldlM track_mapped { s with frame_map := ∅ }
    return (s, areas ++ [{ new_area with frame_map := s.frame_map }])
  | _ => .error .unreachableArea

/-- The stack and the heap. -/
def copy_lazy_area (s : CowState) (area : VmArea) : Except Panic (CowState × VmArea) := do
  let s ← area.vpn_range.vpns.foldlM track_lazy { s with frame_map := ∅ }
  return (s, { VmArea.from_another area with frame_map := s.frame_map })

/-- A page of a shared segment keeps its flags and gets no tracker. -/
def share_shm (s : CowState) (vpn : Nat) : Except Panic CowState :=
  match s.parent.translate vpn with
  | none => .ok s
  | some pte => do
    let (child, ph) ← s.child.map s.ph vpn pte.ppn pte.flags
    return { s with child := child, ph := ph }

def copy_shm_area (s : CowState) (area : VmArea) : Except Panic CowState :=
  area.vpn_range.vpns.foldlM share_shm s

end CowState

namespace MemorySet

/-- The parent with its entries changed, and the child. -/
def from_copy_on_write (text : KernelImage) (user_space : MemorySet) (ph : Phys) :
    Except Panic (MemorySet × MemorySet × Phys) := do
  let (ms, ph) ← new_bare ph
  let (ms, ph) ← ms.map_trampoline text ph
  let (ms, ph) ← ms.map_signal_trampoline text ph
  let s : CowState := ⟨user_space.page_table, ms.page_table, ph, ∅⟩
  let (s, map_areas) ← user_space.map_areas.foldlM CowState.copy_area (s, [])
  let (mmap_manager, ph) ← user_space.mmap_manager.clone s.ph
  let s ← user_space.mmap_manager.mmap_map.toList.foldlM CowState.share_mmap { s with ph := ph }
  let (s, user_stack_areas) ← s.copy_lazy_area user_space.user_stack_areas
  let (s, heap_areas) ← s.copy_lazy_area user_space.heap_areas
  let s ← user_space.shm_areas.foldlM CowState.copy_shm_area s
  return ({ user_space with page_table := s.parent },
    { page_table := s.child, map_areas, mmap_manager, heap_areas
      shm_areas := user_space.shm_areas.map VmArea.from_another
      shm_top := user_space.shm_top
      brk_start := user_space.brk_start
      brk := user_space.brk
      user_stack_areas
      user_stack_start := user_space.user_stack_start
      user_stack_end := user_space.user_stack_end }, s.ph)

/-- The first area that has the page gets the frame. -/
def insert_in_areas (ph : Phys) (vpn : Nat) (frame : FrameTracker) :
    List VmArea → Except Panic (Option (List VmArea × Phys))
  | [] => .ok none
  | area :: areas =>
    if vpn ∈ area.vpn_range then do
      let (frame_map, ph) ← area.frame_map.insert_frame ph vpn frame
      return some ({ area with frame_map := frame_map } :: areas, ph)
    else do
      match ← insert_in_areas ph vpn frame areas with
      | none => return none
      | some (areas, ph) => return some (area :: areas, ph)

/-- `VirtPageNum::from(VirtAddr)`. -/
def vpn_of (va : Nat) : Except Panic Nat :=
  if page_offset va = 0 then .ok (floor va) else .error (.notAligned va)

/-- `vpn >= mmap_start && vpn < mmap_top`, in pages. -/
def in_mmap (m : MmapManager) (vpn : Nat) : Except Panic Bool := do
  let start ← vpn_of m.mmap_start
  if start ≤ vpn then
    let top ← vpn_of m.mmap_top
    return decide (vpn < top)
  else return false

/-- Gives the copied page's frame to the region of the page, which drops the tracker it had. -/
def insert_cow (ms : MemorySet) (ph : Phys) (vpn : Nat) (frame : FrameTracker) :
    Except Panic (MemorySet × Phys) := do
  match ← insert_in_areas ph vpn frame ms.map_areas with
  | some (map_areas, ph) => return ({ ms with map_areas := map_areas }, ph)
  | none =>
    if ← in_mmap ms.mmap_manager vpn then
      let (frame_map, ph) ← ms.mmap_manager.frame_map.insert_frame ph vpn frame
      return ({ ms with mmap_manager := { ms.mmap_manager with frame_map := frame_map } }, ph)
    else if vpn ∈ ms.user_stack_areas.vpn_range then
      let (frame_map, ph) ← ms.user_stack_areas.frame_map.insert_frame ph vpn frame
      return ({ ms with user_stack_areas :=
        { ms.user_stack_areas with frame_map := frame_map } }, ph)
    else if vpn ∈ ms.heap_areas.vpn_range then
      let (frame_map, ph) ← ms.heap_areas.frame_map.insert_frame ph vpn frame
      return ({ ms with heap_areas := { ms.heap_areas with frame_map := frame_map } }, ph)
    else .error (.cowOutOfRange vpn)

def cow_alloc (ms : MemorySet) (ph : Phys) (vpn former_ppn : Nat) :
    Except Panic (MemorySet × Phys) := do
  if (← ph.allocator.enquire_ref former_ppn) = 1 then
    let (page_table, ph) ← ms.page_table.reset_cow ph vpn
    match page_table.translate vpn with
    | none => .error (.notTranslated vpn)
    | some pte =>
      let (page_table, ph) ← page_table.set_flags ph vpn (pte.flags ||| PTEFlags.W)
      return ({ ms with page_table := page_table }, ph)
  else
    let (frame, ph) ← ph.alloc_frame
    let (page_table, ph) ← ms.page_table.remap_cow ph vpn frame.ppn former_ppn
    insert_cow { ms with page_table := page_table } ph vpn frame

def lazy_alloc_heap (ms : MemorySet) (ph : Phys) (vpn : Nat) : Except Panic (MemorySet × Phys) := do
  let (area, page_table, ph) ← ms.heap_areas.lazy_map_vpn vpn ms.page_table ph
  return ({ ms with heap_areas := area, page_table := page_table }, ph)

def lazy_alloc_stack (ms : MemorySet) (ph : Phys) (vpn : Nat) :
    Except Panic (MemorySet × Phys) := do
  let (area, page_table, ph) ← ms.user_stack_areas.lazy_map_vpn vpn ms.page_table ph
  return ({ ms with user_stack_areas := area, page_table := page_table }, ph)

def lazy_mmap (ms : MemorySet) (ph : Phys) (vpn : Nat) : Except Panic (MemorySet × Phys) := do
  let m := ms.mmap_manager
  let (frame, frame_map, ph) ← m.frame_map.insert_new ph vpn
  match m.mmap_map[vpn]? with
  | none => .error (.notMmapped vpn)
  | some mmap_page =>
    let pte_flags := PTEFlags.from_map_ports mmap_page.prot ||| PTEFlags.U
    let (page_table, ph) ← ms.page_table.map ph vpn frame.ppn pte_flags
    let (mmap_page, ph) ← mmap_page.lazy_map_page page_table ph
    let mmap_map := m.mmap_map.insert vpn mmap_page
    return ({ ms with
      page_table := page_table
      mmap_manager := { m with mmap_map := mmap_map, frame_map := frame_map } }, ph)

/-- `TaskControlBlock::check_lazy`; 0 says that the access is to be tried again. -/
def check_lazy (ms : MemorySet) (ph : Phys) (va : Nat) : Except Panic (Int × MemorySet × Phys) :=
  let mmap_start := ms.mmap_manager.mmap_start
  let mmap_end := ms.mmap_manager.mmap_top
  let heap_start := virt_addr ms.brk_start
  let heap_end := virt_addr ((ms.brk_start + USER_HEAP_SIZE) % 2 ^ 64)
  let stack_start := virt_addr ms.user_stack_start
  let stack_end := virt_addr ms.user_stack_end
  let vpn := floor va
  let zero : MemorySet × Phys → Int × MemorySet × Phys := fun s => (0, s)
  match ms.translate vpn with
  | some pte =>
    if pte.is_cow then zero <$> ms.cow_alloc ph vpn pte.ppn
    else .ok (-4, ms, ph)
  | none =>
    if stack_start ≤ va ∧ va < stack_end then zero <$> ms.lazy_alloc_stack ph vpn
    else if heap_start ≤ va ∧ va ≤ heap_end then zero <$> ms.lazy_alloc_heap ph vpn
    else if mmap_start ≤ va ∧ va < mmap_end then zero <$> ms.lazy_mmap ph vpn
    else .ok (-2, ms, ph)

/-- `Drop`: the fields in the order of their declaration. -/
def drop (ms : MemorySet) (ph : Phys) : Except Panic Phys := do
  let ph ← ms.page_table.frames.foldlM Phys.drop ph
  let ph ← ms.map_areas.foldlM (fun ph area => area.frame_map.drop ph) ph
  let ph ← ms.mmap_manager.frame_map.drop ph
  let ph ← ms.heap_areas.frame_map.drop ph
  let ph ← ms.shm_areas.foldlM (fun ph area => area.frame_map.drop ph) ph
  ms.user_stack_areas.frame_map.drop ph

end MemorySet

end MyGOS.Mm
