import MyGOS.Mm.Machine

/-!
# Who owns the frames a page table maps

`slots` is what an address space owns outside its page table nodes, as pairs
of an index and a frame. `Tracked` says that each mapped page has its frame
among the slots under its own index, with what the mmap manager needs for that
to survive faults and forks.
-/

namespace MyGOS.Mm

namespace MemorySet

def area_slots (areas : List VmArea) : Multiset (Nat × Nat) :=
  (areas.map fun area => area.frame_map.slots).sum

def mmap_slots (ms : MemorySet) : Multiset (Nat × Nat) := ms.mmap_manager.frame_map.slots

def slots (ms : MemorySet) : Multiset (Nat × Nat) :=
  area_slots ms.map_areas + ms.mmap_slots + ms.user_stack_areas.frame_map.slots +
    ms.heap_areas.frame_map.slots

/-- The frames the address space has trackers of, once for each tracker. -/
def owned (ms : MemorySet) : Multiset Nat := ms.page_table.owned + ms.slots.map Prod.snd

/-- The index belongs to a page of an area of a kind that satisfies `p`. -/
def InArea (p : VmAreaType → Prop) (ms : MemorySet) (k : Nat) : Prop :=
  ∃ area ∈ ms.map_areas.map VmArea.from_another,
    p area.area_type ∧ ∃ vpn ∈ area.vpn_range, index vpn = k

/-- The index belongs to a page of the stack or the heap. -/
def InLazy (ms : MemorySet) (k : Nat) : Prop :=
  (∃ vpn ∈ ms.user_stack_areas.vpn_range, index vpn = k) ∨
    ∃ vpn ∈ ms.heap_areas.vpn_range, index vpn = k

def InRegion (ms : MemorySet) (k : Nat) : Prop := ms.InArea (fun _ => True) k ∨ ms.InLazy k

/-- The index belongs to a page of a mapping that was touched. -/
def MmapValid (ms : MemorySet) (k : Nat) : Prop :=
  ∃ vpn page, ms.mmap_manager.mmap_map[vpn]? = some page ∧ page.valid = true ∧ index vpn = k

end MemorySet

def IsTrampoline (text : KernelImage) (vpn : Nat) (pte : PageTableEntry) : Prop :=
  index vpn = index (floor TRAMPOLINE) ∧ pte.ppn = text.strampoline ∨
    index vpn = index (floor SIGNAL_TRAMPOLINE) ∧ pte.ppn = text.user_sigreturn

theorem IsTrampoline.congr {text : KernelImage} {v vpn : Nat} {pte pte' : PageTableEntry}
    (h : IsTrampoline text vpn pte) (hv : index v = index vpn) (hp : pte'.ppn = pte.ppn) :
    IsTrampoline text v pte' := by
  unfold IsTrampoline
  rwa [hv, hp]

/-- Trampoline frames are not the allocator's. -/
theorem IsTrampoline.lt {text : KernelImage} {vpn : Nat} {pte : PageTableEntry}
    (h : IsTrampoline text vpn pte) : pte.ppn < text.ekernel := by
  rcases h with ⟨_, h⟩ | ⟨_, h⟩
  · rw [h]
    exact text.strampoline_lt
  · rw [h]
    exact text.user_sigreturn_lt

/-- The regions are the same up to the frames they own. -/
structure SameRegions (ms ms' : MemorySet) : Prop where
  areas : ms'.map_areas.map VmArea.from_another = ms.map_areas.map VmArea.from_another
  stack : ms'.user_stack_areas.from_another = ms.user_stack_areas.from_another
  heap : ms'.heap_areas.from_another = ms.heap_areas.from_another
  shm : ms'.shm_areas = ms.shm_areas

namespace SameRegions

variable {ms ms' : MemorySet}

theorem refl (ms : MemorySet) : SameRegions ms ms := ⟨rfl, rfl, rfl, rfl⟩

theorem inArea (h : SameRegions ms ms') (p : VmAreaType → Prop) :
    ms'.InArea p = ms.InArea p := by
  funext k
  rw [MemorySet.InArea, MemorySet.InArea, h.areas]

theorem inLazy (h : SameRegions ms ms') : ms'.InLazy = ms.InLazy := by
  have hstack : ms'.user_stack_areas.vpn_range = ms.user_stack_areas.vpn_range :=
    (congrArg VmArea.vpn_range h.stack :)
  have hheap : ms'.heap_areas.vpn_range = ms.heap_areas.vpn_range :=
    (congrArg VmArea.vpn_range h.heap :)
  funext k
  rw [MemorySet.InLazy, MemorySet.InLazy, hstack, hheap]

theorem inRegion (h : SameRegions ms ms') : ms'.InRegion = ms.InRegion := by
  funext k
  rw [MemorySet.InRegion, MemorySet.InRegion, h.inArea, h.inLazy]

end SameRegions

/-- Mapped pages are backed by trackers of the address space. `mmap_valid` and `cow_apart` are
there for the forks: a touched page of a mapping has its tracker with the mmap manager, and
keeps it there when it is copied. -/
structure Tracked (text : KernelImage) (ms : MemorySet) : Prop where
  mapped : ∀ vpn pte, ms.translate vpn = some pte →
    IsTrampoline text vpn pte ∨ (index vpn, pte.ppn) ∈ ms.slots
  mmap_valid : ∀ vpn, ms.MmapValid (index vpn) →
    ∃ pte, ms.translate vpn = some pte ∧ (index vpn, pte.ppn) ∈ ms.mmap_slots
  cow_apart : ∀ vpn pte, ms.translate vpn = some pte → pte.is_cow = true →
    ms.MmapValid (index vpn) → ¬ ms.InRegion (index vpn)
  area_mapped : ∀ vpn, ms.InArea (fun _ => True) (index vpn) → (ms.translate vpn).isSome
  kinds : ∀ area ∈ ms.map_areas.map VmArea.from_another, area.map_type = .Framed ∧
    (area.area_type = .Elf ∨ area.area_type = .TrapContext)
  framed_stack : ms.user_stack_areas.map_type = .Framed
  framed_heap : ms.heap_areas.map_type = .Framed
  no_shm : ms.shm_areas = []
  manager : ms.mmap_manager.WellFormed

/-- What an operation on one address space does to it and to the trackers, where `E` are those
of everybody else. -/
structure LocalStep (text : KernelImage) (E : Multiset Nat) (ms : MemorySet) (ph : Phys)
    (ms' : MemorySet) (ph' : Phys) : Prop where
  tracked : Tracked text ms'
  moves : Moves E ms.owned ms'.owned ph ph'
  calm : Calm (ms.owned + E) (ms'.owned + E)

namespace LocalStep

variable {text : KernelImage} {E : Multiset Nat} {ms ms' ms'' : MemorySet} {ph ph' ph'' : Phys}

theorem refl (hT : Tracked text ms) (h : Owned ph.allocator (ms.owned + E)) :
    LocalStep text E ms ph ms ph :=
  ⟨hT, Moves.refl h, Calm.refl _⟩

theorem trans (h : LocalStep text E ms ph ms' ph') (h' : LocalStep text E ms' ph' ms'' ph'') :
    LocalStep text E ms ph ms'' ph'' :=
  ⟨h'.tracked, h.moves.trans h'.moves, h.calm.trans h'.calm⟩

end LocalStep

/-- The page `vpn` now maps the frame `p`, whose tracker was put under its index. -/
structure Faulted (E : Multiset Nat) (ms : MemorySet) (ph : Phys) (vpn p : Nat)
    (flags : PTEFlags) (ms' : MemorySet) (ph' : Phys) : Prop where
  fresh : p ∉ ms.owned + E
  translate : ∀ v, ms'.translate v =
    if index v = index vpn then some ⟨p, flags⟩ else ms.translate v
  moves : Moves E ms.owned ms'.owned ph ph'
  calm : Calm (ms.owned + E) (ms'.owned + E)
  quiet : Quiet E ph ph'
  put : Put (index vpn) p ms.slots ms'.slots
  regions : SameRegions ms ms'
  valid : ∀ k, k ≠ index vpn → (ms'.MmapValid k ↔ ms.MmapValid k)
  mmap : ∀ e, e.1 ≠ index vpn → (e ∈ ms'.mmap_slots ↔ e ∈ ms.mmap_slots)
  manager : ms.mmap_manager.WellFormed → ms'.mmap_manager.WellFormed

variable {text : KernelImage} {E : Multiset Nat} {ms ms' : MemorySet} {ph ph' : Phys}
  {vpn p : Nat} {flags : PTEFlags}

theorem Tracked.faulted (h : Tracked text ms) (hf : Faulted E ms ph vpn p flags ms' ph')
    (hvalid : ms'.MmapValid (index vpn) → (index vpn, p) ∈ ms'.mmap_slots)
    (hcow : flags.cow = true → ms'.MmapValid (index vpn) → ¬ ms.InRegion (index vpn)) :
    Tracked text ms' where
  mapped v pte hv := by
    rw [hf.translate v] at hv
    split at hv
    · rename_i heq
      cases hv
      rw [heq]
      exact Or.inr hf.put.mem
    · rename_i hne
      exact (h.mapped v pte hv).imp_right fun hmem => (hf.put.mem_iff hne).mpr hmem
  mmap_valid v hv := by
    rw [hf.translate v]
    split
    · rename_i heq
      rw [heq] at hv ⊢
      exact ⟨_, rfl, hvalid hv⟩
    · rename_i hne
      obtain ⟨pte, hpte, hslot⟩ := h.mmap_valid v ((hf.valid _ hne).mp hv)
      exact ⟨pte, hpte, (hf.mmap (index v, pte.ppn) hne).mpr hslot⟩
  cow_apart v pte hv hpte hvalid' := by
    rw [hf.translate v] at hv
    rw [hf.regions.inRegion]
    split at hv
    · rename_i heq
      cases hv
      rw [heq] at hvalid' ⊢
      exact hcow hpte hvalid'
    · rename_i hne
      exact h.cow_apart v pte hv hpte ((hf.valid _ hne).mp hvalid')
  area_mapped v hv := by
    rw [hf.regions.inArea] at hv
    rw [hf.translate v]
    split
    · rfl
    · exact h.area_mapped v hv
  kinds area harea := h.kinds area (hf.regions.areas ▸ harea)
  framed_stack := (congrArg VmArea.map_type hf.regions.stack :).trans h.framed_stack
  framed_heap := (congrArg VmArea.map_type hf.regions.heap :).trans h.framed_heap
  no_shm := hf.regions.shm.trans h.no_shm
  manager := hf.manager h.manager

/-- The new frame has one tracker. -/
theorem Faulted.count_le (hf : Faulted E ms ph vpn p flags ms' ph') :
    (ms'.owned + E).count p ≤ 1 := by
  have hcalm := hf.calm p
  rwa [Multiset.count_eq_zero.mpr hf.fresh] at hcalm

end MyGOS.Mm
