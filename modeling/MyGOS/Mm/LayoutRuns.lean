import MyGOS.Mm.ForkLayout
import MyGOS.Mm.MappingRuns

/-!
# What holds of every address space

A property of address spaces that loading establishes and every service keeps
holds of all address spaces of the machine, along any run. The layout is one:
no step is left out for it.
-/

namespace MyGOS.Mm

open Outcome StepSystem

section Load

variable {text : KernelImage} {elf : ElfFile} {ms ms' : MemorySet} {ph ph' : Phys} {area : VmArea}

/-- An address space that is being loaded. -/
structure Assembled (ms : MemorySet) : Prop where
  kinds : ∀ area ∈ ms.map_areas.map VmArea.from_another, area.map_type = .Framed ∧
    (area.area_type = .Elf ∧ area.permission.u = true ∨ area.area_type = .TrapContext)
  area_mapped : ∀ area ∈ ms.map_areas.map VmArea.from_another, ∀ vpn ∈ area.vpn_range,
    ∃ pte, ms.translate vpn = some pte ∧ (area.area_type = .Elf → pte.flags.u = true)
  trampolines : ∀ v ∈ trampolines, (ms.translate v).isSome
  no_shm : ms.shm_areas = []
  manager : ms.mmap_manager = .new MMAP_BASE MMAP_BASE

theorem VmArea.new_ok {start_va end_va file_offset : Nat} {map_type : MapType}
    {area_type : VmAreaType} {permission : MapPermission} {file : Option File}
    (h : VmArea.new start_va end_va map_type area_type permission file file_offset = .ok area) :
    ∃ vpn_range, VPNRange.from_va start_va end_va = .ok vpn_range ∧
      area = { area_type, vpn_range, map_type, permission, file, file_offset, frame_map := ∅ } := by
  obtain ⟨range, hrange, h⟩ := bind_eq_ok.mp h
  cases h
  exact ⟨range, hrange, rfl⟩

theorem assembled_new {bare tramp : MemorySet} {ph₁ ph₂ : Phys}
    (hbare : MemorySet.new_bare ph = .ok (bare, ph₁))
    (htramp : bare.map_trampoline text ph₁ = .ok (tramp, ph₂))
    (hsignal : tramp.map_signal_trampoline text ph₂ = .ok (ms, ph')) : Assembled ms := by
  have htrampolines := (trampolines_ok hbare htramp hsignal).1
  obtain ⟨⟨pt, _⟩, _, hbare⟩ := bind_eq_ok.mp hbare
  obtain ⟨heap, _, hbare⟩ := bind_eq_ok.mp hbare
  obtain ⟨stack, _, hbare⟩ := bind_eq_ok.mp hbare
  cases hbare
  obtain ⟨⟨pt₁, _⟩, _, htramp⟩ := bind_eq_ok.mp htramp
  cases htramp
  obtain ⟨⟨pt₂, _⟩, _, hsignal⟩ := bind_eq_ok.mp hsignal
  cases hsignal
  constructor
  · intro area harea
    cases harea
  · intro area harea
    cases harea
  · exact htrampolines
  · rfl
  · rfl

theorem Assembled.insert_and_map {data : Option (Nat × Nat × Nat)} (ha : Assembled ms)
    (hframed : area.map_type = .Framed)
    (hkind : area.area_type = .Elf ∧ area.permission.u = true ∨ area.area_type = .TrapContext)
    (h : ms.insert_and_map ph area data = .ok (ms', ph')) : Assembled ms' := by
  obtain ⟨⟨area', pt, ph₁⟩, hinflate, h⟩ := bind_eq_ok.mp h
  obtain ⟨hsame, hkept, hnew, _⟩ := inflate_loop_ok _ hinflate
  have hassembled : Assembled
      { ms with page_table := pt, map_areas := ms.map_areas ++ [area'] } := by
    refine ⟨fun a hmem => ?_, fun a hmem v hv => ?_, fun v hv => ?_, ha.no_shm, ha.manager⟩
    · rw [List.map_append, List.mem_append] at hmem
      rcases hmem with hmem | hmem
      · exact ha.kinds a hmem
      · rw [List.map_singleton, List.mem_singleton, hsame] at hmem
        rw [hmem]
        exact ⟨hframed, hkind⟩
    · rw [List.map_append, List.mem_append] at hmem
      rcases hmem with hmem | hmem
      · obtain ⟨pte, hpte, hu⟩ := ha.area_mapped a hmem v hv
        exact ⟨pte, hkept v pte hpte, hu⟩
      · rw [List.map_singleton, List.mem_singleton, hsame] at hmem
        subst hmem
        obtain ⟨ppn, hppn⟩ := hnew v (VPNRange.mem_vpns.mpr hv)
        refine ⟨_, hppn, fun helf => ?_⟩
        have hu : area.permission.u = true := by
          rcases hkind with ⟨_, hu⟩ | htrap
          · exact hu
          · cases htrap.symm.trans helf
        simp [PTEFlags.from_map_permission, hu]
    · obtain ⟨pte, hpte⟩ := Option.isSome_iff_exists.mp (ha.trampolines v hv)
      exact Option.isSome_iff_exists.mpr ⟨pte, hkept v pte hpte⟩
  cases data with
  | none =>
    cases h
    exact hassembled
  | some d =>
    obtain ⟨ph₂, _, h⟩ := bind_eq_ok.mp h
    cases h
    exact hassembled

theorem Assembled.segments {file : File} {base : Nat} {perm : ProgramHeader → MapPermission}
    {file_offset : Nat → Nat} (hperm : ∀ header, (perm header).u = true)
    (headers : List ProgramHeader) (ha : Assembled ms)
    (h : headers.foldlM (MemorySet.load_segment file base perm file_offset) (ms, ph) =
      .ok (ms', ph')) : Assembled ms' := by
  refine foldlM_ok (I := fun _ s => Assembled s.1) ?_ (s := (ms, ph)) ha h
  rintro header headers ⟨ms₁, ph₁⟩ ⟨ms₂, ph₂⟩ ha₁ h₁
  obtain ⟨area, harea, h₁⟩ := bind_eq_ok.mp h₁
  obtain ⟨range, _, rfl⟩ := VmArea.new_ok harea
  exact ha₁.insert_and_map rfl (Or.inl ⟨rfl, hperm header⟩) h₁

/-- A heap that wrapped would have been refused by `VPNRange::from_va`. -/
theorem heap_fits {brk_start : Nat} {range : VPNRange} (hlt : brk_start < 2 ^ 64)
    (h : VPNRange.from_va (virt_addr brk_start)
      (virt_addr ((brk_start + USER_HEAP_SIZE) % 2 ^ 64)) = .ok range) :
    brk_start + USER_HEAP_SIZE < 2 ^ 64 := by
  unfold VPNRange.from_va at h
  split at h
  · rename_i hle
    by_contra hwrap
    have hstart : virt_addr brk_start = brk_start := by
      simp only [virt_addr, USER_HEAP_SIZE] at *
      split <;> omega
    have htop : (brk_start + USER_HEAP_SIZE) % 2 ^ 64 < USER_HEAP_SIZE := by
      simp only [USER_HEAP_SIZE] at *
      omega
    have hsmall : virt_addr ((brk_start + USER_HEAP_SIZE) % 2 ^ 64) < USER_HEAP_SIZE := by
      rw [virt_addr, if_pos (htop.trans (by decide))]
      exact htop
    rw [hstart] at hle
    generalize virt_addr ((brk_start + USER_HEAP_SIZE) % 2 ^ 64) = top at hle hsmall
    simp only [floor, ceil, USER_HEAP_SIZE, PAGE_SIZE] at hle hwrap hsmall
    omega
  · cases h

theorem set_regions_laid (ha : Assembled ms) (h : ms.set_regions elf = .ok ms') : Laid ms' := by
  obtain ⟨stack, hstack, h⟩ := bind_eq_ok.mp h
  obtain ⟨heap, hheap, h⟩ := bind_eq_ok.mp h
  cases h
  obtain ⟨stackRange, hstackRange, rfl⟩ := VmArea.new_ok hstack
  obtain ⟨heapRange, hheapRange, rfl⟩ := VmArea.new_ok hheap
  have hfits := heap_fits (Nat.mod_lt _ (by decide)) hheapRange
  have hempty (pt : PageTable) : FrameMap.Mapped ∅ pt := fun v hv => by simp at hv
  refine ⟨rfl, rfl, hstackRange, rfl, rfl, hempty _, hfits, ?_, rfl, rfl, hempty _, ha.kinds,
    ha.area_mapped, ha.trampolines, ha.no_shm, ?_⟩
  · rwa [Nat.mod_eq_of_lt hfits] at hheapRange
  · exact ha.manager ▸ MmapManager.Sound.new

/-- The regions are set last. -/
theorem load_elf_ok (h : MemorySet.load_elf text elf ph = .ok (ms, ph')) :
    ∃ bare, Assembled bare ∧ bare.set_regions elf = .ok ms := by
  obtain ⟨⟨ms₁, ph₁⟩, h₁, h⟩ := bind_eq_ok.mp h
  obtain ⟨⟨ms₂, ph₂⟩, h₂, h⟩ := bind_eq_ok.mp h
  obtain ⟨⟨ms₃, ph₃⟩, h₃, h⟩ := bind_eq_ok.mp h
  obtain ⟨⟨ms₄, ph₄⟩, h₄, h⟩ := bind_eq_ok.mp h
  obtain ⟨⟨ms₅, ph₅⟩, h₅, h⟩ := bind_eq_ok.mp h
  obtain ⟨⟨ms₆, ph₆⟩, h₆, h⟩ := bind_eq_ok.mp h
  have ha₃ := assembled_new h₁ h₂ h₃
  obtain ⟨area, harea, h₄⟩ := bind_eq_ok.mp h₄
  obtain ⟨range, _, rfl⟩ := VmArea.new_ok harea
  have ha₅ := (ha₃.insert_and_map rfl (Or.inr rfl) h₄).segments (fun _ => rfl) _ h₅
  have ha₆ : Assembled ms₆ := by
    unfold MemorySet.load_interpreter at h₆
    split at h₆
    · cases h₆
      exact ha₅
    · exact ha₅.segments (fun _ => rfl) _ h₆
  dsimp only at h
  split at h
  · cases h
  · obtain ⟨ms₇, h₇, h⟩ := bind_eq_ok.mp h
    cases h
    exact ⟨ms₆, ha₆, h₇⟩

theorem load_elf_laid (h : MemorySet.load_elf text elf ph = .ok (ms, ph')) : Laid ms := by
  obtain ⟨bare, hbare, hregions⟩ := load_elf_ok h
  exact set_regions_laid hbare hregions

/-- The break of a new address space is the start of its heap, and it has no mappings. -/
theorem load_elf_fresh (h : MemorySet.load_elf text elf ph = .ok (ms, ph')) :
    ms.brk = ms.brk_start ∧ ms.mmap_manager = .new MMAP_BASE MMAP_BASE := by
  obtain ⟨bare, hbare, hregions⟩ := load_elf_ok h
  obtain ⟨stack, _, hregions⟩ := bind_eq_ok.mp hregions
  obtain ⟨heap, _, hregions⟩ := bind_eq_ok.mp hregions
  cases hregions
  exact ⟨rfl, hbare.manager⟩

end Load

namespace Machine

/-- The programs whose address spaces a step replaces. -/
def changed (m : Machine) : MachineOp → List Nat
  | .spawn _ => [m.spaces.length]
  | .exec_busybox pid busybox => [pid, busybox]
  | .fork pid => [pid, m.spaces.length]
  | .exec pid _ | .exit pid | .check_lazy pid _ | .sys_mmap pid _ _ _ _ _ _ | .sys_munmap pid _ _
  | .sys_brk pid _ | .sys_mprotect pid _ _ _ | .write_user pid _ _ _ => [pid]
  | .user_store _ _ _ | .hold | .release _ => []

/-- Where the address space of `q` after a step comes from. -/
inductive Origin (m : Machine) : MachineOp → Nat → MemorySet → Prop where
  | other {op : MachineOp} {q : Nat} {ms : MemorySet} (hms : m.spaces[q]? = some (some ms))
    (hq : q ∉ m.changed op) : Origin m op q ms
  | spawn {elf : ElfFile} {ms : MemorySet} {ph : Phys}
    (h : MemorySet.load_elf m.text elf m.ph = .ok (ms, ph)) :
    Origin m (.spawn elf) m.spaces.length ms
  | exec {pid : Nat} {elf : ElfFile} {ms : MemorySet} {ph : Phys}
    (h : MemorySet.load_elf m.text elf m.ph = .ok (ms, ph)) : Origin m (.exec pid elf) pid ms
  | busybox {pid busybox : Nat} {ms parent child : MemorySet} {ph : Phys}
    (hms : m.spaces[busybox]? = some (some ms))
    (h : ms.from_copy_on_write m.text m.ph = .ok (parent, child, ph)) (hne : busybox ≠ pid) :
    Origin m (.exec_busybox pid busybox) busybox parent
  | exec_busybox {pid busybox : Nat} {ms parent child : MemorySet} {ph : Phys}
    (hms : m.spaces[busybox]? = some (some ms))
    (h : ms.from_copy_on_write m.text m.ph = .ok (parent, child, ph)) :
    Origin m (.exec_busybox pid busybox) pid child
  | parent {pid : Nat} {ms parent child : MemorySet} {ph : Phys}
    (hms : m.spaces[pid]? = some (some ms))
    (h : ms.from_copy_on_write m.text m.ph = .ok (parent, child, ph)) :
    Origin m (.fork pid) pid parent
  | child {pid : Nat} {ms parent child : MemorySet} {ph : Phys}
    (hms : m.spaces[pid]? = some (some ms))
    (h : ms.from_copy_on_write m.text m.ph = .ok (parent, child, ph)) :
    Origin m (.fork pid) m.spaces.length child
  | check_lazy {pid va : Nat} {ms ms' : MemorySet} {c : Int} {ph : Phys}
    (hms : m.spaces[pid]? = some (some ms))
    (h : ms.check_lazy m.ph va = .ok (c, ms', ph)) : Origin m (.check_lazy pid va) pid ms'
  | sys_mmap {pid addr length prot flags offset : Nat} {fd : Option File} {ms ms' : MemorySet}
    {r : Result} {ph : Phys} (hms : m.spaces[pid]? = some (some ms))
    (h : ms.sys_mmap m.ph addr length prot flags fd offset = .ok (r, ms', ph)) :
    Origin m (.sys_mmap pid addr length prot flags fd offset) pid ms'
  | sys_munmap {pid addr length : Nat} {ms ms' : MemorySet} {r : Result} {ph : Phys}
    (hms : m.spaces[pid]? = some (some ms))
    (h : ms.sys_munmap m.ph addr length = .ok (r, ms', ph)) :
    Origin m (.sys_munmap pid addr length) pid ms'
  | sys_brk {pid brk : Nat} {ms ms' : MemorySet} {r : Result}
    (hms : m.spaces[pid]? = some (some ms)) (h : ms.sys_brk brk = .ok (r, ms')) :
    Origin m (.sys_brk pid brk) pid ms'
  | sys_mprotect {pid addr length prot : Nat} {ms ms' : MemorySet} {r : Result}
    (hms : m.spaces[pid]? = some (some ms))
    (h : ms.sys_mprotect addr length prot = .ok (r, ms')) :
    Origin m (.sys_mprotect pid addr length prot) pid ms'
  | write_user {pid ptr len : Nat} {data : List UInt8} {ms ms' : MemorySet} {ph : Phys}
    (hms : m.spaces[pid]? = some (some ms))
    (h : Mm.write_user ms m.ph ptr len data = .ok (ms', ph)) :
    Origin m (.write_user pid ptr len data) pid ms'

section Origin

variable {m m' : Machine} {pid q : Nat} {ms ms' : MemorySet} {op : MachineOp}

theorem space_ok (h : m.space pid = .ok ms) : m.spaces[pid]? = some (some ms) :=
  (space_meets m pid).of_ok h

theorem mem_put {s : MemorySet × Phys} (h : (m.put pid s).spaces[q]? = some (some ms')) :
    q = pid ∧ ms' = s.1 ∨ q ≠ pid ∧ m.spaces[q]? = some (some ms') := by
  simp only [Machine.put, List.getElem?_set] at h
  split at h
  · rename_i heq
    split at h
    · cases h
      exact Or.inl ⟨heq.symm, rfl⟩
    · cases h
  · rename_i hne
    exact Or.inr ⟨fun heq => hne heq.symm, h⟩

theorem mem_append {spaces : List (Option MemorySet)}
    (h : (spaces ++ [some ms])[q]? = some (some ms')) :
    q = spaces.length ∧ ms' = ms ∨ q ≠ spaces.length ∧ spaces[q]? = some (some ms') := by
  rw [List.getElem?_append] at h
  split at h
  · rename_i hlt
    exact Or.inr ⟨hlt.ne, h⟩
  · rename_i hge
    rw [List.getElem?_singleton] at h
    split at h
    · cases h
      exact Or.inl ⟨by omega, rfl⟩
    · cases h

theorem mem_replace {s : MemorySet × Phys} (hm : m.replace pid s = .ok m')
    (h : m'.spaces[q]? = some (some ms')) :
    q = pid ∧ ms' = s.1 ∨ q ≠ pid ∧ m.spaces[q]? = some (some ms') := by
  obtain ⟨old, _, hm⟩ := bind_eq_ok.mp hm
  obtain ⟨ph, _, hm⟩ := bind_eq_ok.mp hm
  cases hm
  exact mem_put h

theorem step_origin (hm : m.step op = .ok m') (h : m'.spaces[q]? = some (some ms')) :
    m.Origin op q ms' := by
  cases op with
  | spawn elf =>
    obtain ⟨⟨ms, ph⟩, hload, hm⟩ := bind_eq_ok.mp hm
    cases hm
    rcases mem_append h with ⟨rfl, rfl⟩ | ⟨hne, hq⟩
    · exact .spawn hload
    · exact .other hq (by simpa [changed] using hne)
  | exec pid elf =>
    obtain ⟨⟨ms, ph⟩, hload, hm⟩ := bind_eq_ok.mp hm
    rcases mem_replace hm h with ⟨rfl, rfl⟩ | ⟨hne, hq⟩
    · exact .exec hload
    · exact .other hq (by simpa [changed] using hne)
  | exec_busybox pid busybox =>
    obtain ⟨ms, hms, hm⟩ := bind_eq_ok.mp hm
    obtain ⟨⟨parent, child, ph⟩, hfork, hm⟩ := bind_eq_ok.mp hm
    rcases mem_replace hm h with ⟨rfl, rfl⟩ | ⟨hne, hq⟩
    · exact .exec_busybox (space_ok hms) hfork
    · rcases mem_put hq with ⟨rfl, rfl⟩ | ⟨hne', hq⟩
      · exact .busybox (space_ok hms) hfork hne
      · exact .other hq (by simpa [changed] using ⟨hne, hne'⟩)
  | fork pid =>
    obtain ⟨ms, hms, hm⟩ := bind_eq_ok.mp hm
    obtain ⟨⟨parent, child, ph⟩, hfork, hm⟩ := bind_eq_ok.mp hm
    cases hm
    have hlen : (m.put pid (parent, ph)).spaces.length = m.spaces.length := by
      simp [Machine.put]
    rcases mem_append h with ⟨rfl, rfl⟩ | ⟨hne, hq⟩
    · rw [hlen]
      exact .child (space_ok hms) hfork
    · rw [hlen] at hne
      rcases mem_put hq with ⟨rfl, rfl⟩ | ⟨hne', hq⟩
      · exact .parent (space_ok hms) hfork
      · exact .other hq (by simpa [changed] using ⟨hne', hne⟩)
  | exit pid =>
    obtain ⟨ms, _, hm⟩ := bind_eq_ok.mp hm
    obtain ⟨ph, _, hm⟩ := bind_eq_ok.mp hm
    cases hm
    rw [List.getElem?_set] at h
    split at h
    · split at h <;> cases h
    · rename_i hne
      exact .other h (by simpa [changed] using Ne.symm hne)
  | check_lazy pid va =>
    obtain ⟨ms, hms, hm⟩ := bind_eq_ok.mp hm
    obtain ⟨⟨c, s⟩, hlazy, hm⟩ := bind_eq_ok.mp hm
    cases hm
    rcases mem_put h with ⟨rfl, rfl⟩ | ⟨hne, hq⟩
    · exact .check_lazy (space_ok hms) hlazy
    · exact .other hq (by simpa [changed] using hne)
  | sys_mmap pid addr length prot flags fd offset =>
    obtain ⟨ms, hms, hm⟩ := bind_eq_ok.mp hm
    obtain ⟨⟨c, s⟩, hmmap, hm⟩ := bind_eq_ok.mp hm
    cases hm
    rcases mem_put h with ⟨rfl, rfl⟩ | ⟨hne, hq⟩
    · exact .sys_mmap (space_ok hms) hmmap
    · exact .other hq (by simpa [changed] using hne)
  | sys_munmap pid addr length =>
    obtain ⟨ms, hms, hm⟩ := bind_eq_ok.mp hm
    obtain ⟨⟨c, s⟩, hmunmap, hm⟩ := bind_eq_ok.mp hm
    cases hm
    rcases mem_put h with ⟨rfl, rfl⟩ | ⟨hne, hq⟩
    · exact .sys_munmap (space_ok hms) hmunmap
    · exact .other hq (by simpa [changed] using hne)
  | sys_brk pid brk =>
    obtain ⟨ms, hms, hm⟩ := bind_eq_ok.mp hm
    obtain ⟨⟨c, ms₁⟩, hbrk, hm⟩ := bind_eq_ok.mp hm
    cases hm
    rcases mem_put h with ⟨rfl, rfl⟩ | ⟨hne, hq⟩
    · exact .sys_brk (space_ok hms) hbrk
    · exact .other hq (by simpa [changed] using hne)
  | sys_mprotect pid addr length prot =>
    obtain ⟨ms, hms, hm⟩ := bind_eq_ok.mp hm
    obtain ⟨⟨c, ms₁⟩, hprotect, hm⟩ := bind_eq_ok.mp hm
    cases hm
    rcases mem_put h with ⟨rfl, rfl⟩ | ⟨hne, hq⟩
    · exact .sys_mprotect (space_ok hms) hprotect
    · exact .other hq (by simpa [changed] using hne)
  | user_store pid va byte =>
    obtain ⟨ms, _, hm⟩ := bind_eq_ok.mp hm
    cases hm
    exact .other h List.not_mem_nil
  | write_user pid ptr len data =>
    obtain ⟨ms, hms, hm⟩ := bind_eq_ok.mp hm
    obtain ⟨s, hwrite, hm⟩ := bind_eq_ok.mp hm
    cases hm
    rcases mem_put h with ⟨rfl, rfl⟩ | ⟨hne, hq⟩
    · exact .write_user (space_ok hms) hwrite
    · exact .other hq (by simpa [changed] using hne)
  | hold =>
    obtain ⟨⟨frame, ph⟩, _, hm⟩ := bind_eq_ok.mp hm
    cases hm
    exact .other h List.not_mem_nil
  | release ppn =>
    simp only [Machine.step] at hm
    split at hm
    · obtain ⟨ph, _, hm⟩ := bind_eq_ok.mp hm
      cases hm
      exact .other h List.not_mem_nil
    · cases hm

end Origin

/-- `P` holds of all address spaces. -/
def Every (P : MemorySet → Prop) (m : Machine) : Prop :=
  ∀ (pid : Nat) (ms : MemorySet), m.spaces[pid]? = some (some ms) → P ms

/-- Loading establishes `P`, forks hand it on, and the services that `C` permits keep it. -/
structure Preserves (C : Machine → MachineOp → Prop) (P : MemorySet → Prop) : Prop where
  load : ∀ {text elf ph ms ph'}, MemorySet.load_elf text elf ph = .ok (ms, ph') → P ms
  fork : ∀ {text ms ph parent child ph'}, P ms →
    MemorySet.from_copy_on_write text ms ph = .ok (parent, child, ph') → P parent ∧ P child
  check_lazy : ∀ {ms ms' ph ph' va c}, P ms →
    MemorySet.check_lazy ms ph va = .ok (c, ms', ph') → P ms'
  sys_mmap : ∀ {m : Machine} {pid ms ms' ph' addr length prot flags fd offset r},
    m.spaces[pid]? = some (some ms) → C m (.sys_mmap pid addr length prot flags fd offset) →
      P ms → ms.sys_mmap m.ph addr length prot flags fd offset = .ok (r, ms', ph') → P ms'
  sys_munmap : ∀ {ms ms' ph ph' addr length r}, P ms →
    MemorySet.sys_munmap ms ph addr length = .ok (r, ms', ph') → P ms'
  sys_brk : ∀ {m : Machine} {pid ms ms' brk r}, m.spaces[pid]? = some (some ms) →
    C m (.sys_brk pid brk) → P ms → ms.sys_brk brk = .ok (r, ms') → P ms'
  sys_mprotect : ∀ {ms ms' addr length prot r}, P ms →
    MemorySet.sys_mprotect ms addr length prot = .ok (r, ms') → P ms'

section Every

variable {C : Machine → MachineOp → Prop} {P : MemorySet → Prop} {m m' : Machine} {pid : Nat}
  {ms ms' : MemorySet} {op : MachineOp} {text : KernelImage} {r : Nat} {ops : List MachineOp}

theorem Preserves.step (hP : Preserves C P) (h : m.Every P) (hC : C m op)
    (hm : m.step op = .ok m') : m'.Every P := by
  intro q ms' hq
  cases step_origin hm hq with
  | other hms _ => exact h q ms' hms
  | spawn hload => exact hP.load hload
  | exec hload => exact hP.load hload
  | busybox hms hfork _ => exact (hP.fork (h _ _ hms) hfork).1
  | exec_busybox hms hfork => exact (hP.fork (h _ _ hms) hfork).2
  | parent hms hfork => exact (hP.fork (h _ _ hms) hfork).1
  | child hms hfork => exact (hP.fork (h _ _ hms) hfork).2
  | check_lazy hms hlazy => exact hP.check_lazy (h _ _ hms) hlazy
  | sys_mmap hms hmmap => exact hP.sys_mmap hms hC (h _ _ hms) hmmap
  | sys_munmap hms hmunmap => exact hP.sys_munmap (h _ _ hms) hmunmap
  | sys_brk hms hbrk => exact hP.sys_brk hms hC (h _ _ hms) hbrk
  | sys_mprotect hms hprotect => exact hP.sys_mprotect (h _ _ hms) hprotect
  | write_user hms hwrite => exact write_user_keeps hP.check_lazy (h _ _ hms) hwrite

/-- What is preserved holds of all address spaces in every state of a run. -/
theorem Preserves.every (hP : Preserves C P) (hops : Guarded Machine.step C (boot text r) ops) :
    ∀ m ∈ states Machine.step (boot text r) ops, m.Every P := by
  refine invariant (Every P) (fun m op m' h hC hm => hP.step h hC hm) ?_ hops
  intro pid ms h
  simp [boot] at h

theorem laid_preserves (C : Machine → MachineOp → Prop) : Preserves C Laid where
  load := load_elf_laid
  fork h hfork :=
    ⟨h.keeps (from_copy_on_write_ok hfork).parent_keeps, (from_copy_on_write_ok hfork).child_laid h⟩
  check_lazy h hlazy := h.keeps (check_lazy_ok hlazy).1
  sys_mmap {m pid ms ms' ph' addr length prot flags fd offset r} _ _ h hmmap := by
    cases r with
    | error e =>
      obtain ⟨rfl, _⟩ := sys_mmap_error hmmap
      exact h
    | ok a =>
      have hm := sys_mmap_ok hmmap
      have hsound := hm.sound h.manager
      obtain ⟨_, _, f, p, m₁, m₂, _, _, _, _, _, _, rfl⟩ := hm
      exact h.with_mmap hsound
  sys_munmap h hmunmap := by
    obtain ⟨m, hremove, rfl⟩ := sys_munmap_ok hmunmap
    exact h.with_mmap (h.manager.remove hremove)
  sys_brk _ _ h hbrk := by
    obtain ⟨b, rfl⟩ := sys_brk_ok hbrk
    exact { h with }
  sys_mprotect h hprotect := h.keeps (sys_mprotect_keeps hprotect)

/-- Every address space of a reachable machine is laid out like that. -/
theorem laid (ops : List MachineOp) :
    ∀ m ∈ states Machine.step (boot text r) ops, m.Every Laid :=
  (laid_preserves fun _ _ => True).every (Guarded.of_forall (fun _ _ => trivial) ops _)

end Every

end Machine

end MyGOS.Mm
