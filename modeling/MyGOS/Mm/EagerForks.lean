import MyGOS.Mm.WriteProtection

/-!
# A fork is an eager copy

The programs of a tree of forks load and store, and a store to a page without
the W bit goes through the fault handler. What they see is what they would see
if each fork copied the memory of the parent at once: a frame that a store
reaches has one tracker, so it belongs to one page of one program.
-/

namespace MyGOS.Mm

open Outcome StepSystem

/-- What the programs of a tree of forks do. -/
inductive UserOp where
  | fork (pid : Nat)
  | load (pid va : Nat)
  | store (pid va : Nat) (byte : UInt8)

/-- What they see of it. -/
inductive Seen where
  | forked (child : Nat)
  | value (byte : UInt8)
  | stored
  | sigsegv
deriving DecidableEq

namespace Machine

/-- A load of the user program: it takes effect when the page is mapped and user-readable. -/
def user_load (ms : MemorySet) (ph : Phys) (va : Nat) : Option UInt8 :=
  match ms.translate (floor va) with
  | some pte =>
    if pte.flags.r ∧ pte.flags.u then some (ph.bytes pte.ppn (page_offset va)) else none
  | none => none

/-- The instruction runs again after a fault that was served. -/
def settle (m : Machine) (pid : Nat) (ms : MemorySet) (ph : Phys) :
    Option (Phys × Seen) → Machine × Seen
  | some (ph, seen) => (m.put pid (ms, ph), seen)
  | none => (m.put pid (ms, ph), .sigsegv)

/-- An access that does not take effect traps: `user_trap_handler` lets `check_lazy` serve the
fault, and signals what it cannot serve and what lies behind the start of the trampoline. -/
def access (m : Machine) (pid va : Nat) (attempt : MemorySet → Phys → Option (Phys × Seen)) :
    Except Panic (Machine × Seen) := do
  let ms ← m.space pid
  match attempt ms m.ph with
  | some (ph, seen) => return ({ m with ph := ph }, seen)
  | none =>
    let (lazy, ms, ph) ← ms.check_lazy m.ph (virt_addr va)
    return m.settle pid ms ph
      (if lazy = 0 ∧ virt_addr va ≤ TRAMPOLINE then attempt ms ph else none)

def attempt_load (va : Nat) (ms : MemorySet) (ph : Phys) : Option (Phys × Seen) :=
  (user_load ms ph va).map fun byte => (ph, .value byte)

def attempt_store (va : Nat) (byte : UInt8) (ms : MemorySet) (ph : Phys) : Option (Phys × Seen) :=
  (user_store ms ph va byte).map fun ph => (ph, .stored)

def user_step (m : Machine) : UserOp → Except Panic (Machine × Seen)
  | .fork pid => do
    let m' ← m.step (.fork pid)
    return (m', .forked m.spaces.length)
  | .load pid va => m.access pid va (attempt_load va)
  | .store pid va byte => m.access pid va (attempt_store va byte)

end Machine

/-- The memories of the programs, if each fork copies the parent's. -/
abbrev Eager := List (Option (Nat → UInt8))

namespace Eager

def memory (s : Eager) (pid : Nat) : Except Panic (Nat → UInt8) :=
  match s[pid]? with
  | some (some mem) => .ok mem
  | _ => .error .outOfBounds

def step (readable : Nat → Bool) (s : Eager) : UserOp → Except Panic (Eager × Seen)
  | .fork pid => do
    let mem ← s.memory pid
    return (s ++ [some mem], .forked s.length)
  | .load pid va => do
    let mem ← s.memory pid
    return (s, if readable va then .value (mem va) else .sigsegv)
  | .store pid va byte => do
    let mem ← s.memory pid
    return (s.set pid (some (Function.update mem va byte)), .stored)

theorem memory_eq {s : Eager} {pid : Nat} {mem : Nat → UInt8} (h : s[pid]? = some (some mem)) :
    s.memory pid = .ok mem := by
  rw [memory, h]

end Eager

/-- The addresses that Sv39 translates: bits 63 to 39 are like bit 38. -/
def Canonical (va : Nat) : Prop := va < 2 ^ 38 ∨ 2 ^ 64 - 2 ^ 38 ≤ va ∧ va < 2 ^ 64

instance (va : Nat) : Decidable (Canonical va) := inferInstanceAs (Decidable (_ ∨ _))

theorem Canonical.floor_eq {va va' : Nat} (h : Canonical va) (h' : Canonical va')
    (heq : index (floor va) = index (floor va')) : floor va = floor va' := by
  unfold Canonical at h h'
  unfold index floor PAGE_SIZE at *
  omega

theorem Canonical.virt_addr_eq {va : Nat} (h : Canonical va) : virt_addr va = va := by
  unfold Canonical at h
  unfold virt_addr
  split <;> omega

/-- Behind the start of the trampoline is only its page. -/
theorem Canonical.le_trampoline {va : Nat} (h : Canonical va)
    (hne : index (floor va) ≠ index (floor TRAMPOLINE)) : va ≤ TRAMPOLINE := by
  unfold Canonical at h
  unfold index floor TRAMPOLINE PAGE_SIZE at *
  omega

namespace MemorySet

/-- A page of the program, a touched page of a mapping, or one of the stack or of the heap. -/
def Private (ms : MemorySet) (v : Nat) : Prop :=
  ms.Held v ∨ v ∈ ms.user_stack_areas.vpn_range ∨ v ∈ ms.heap_areas.vpn_range

/-- An address the user can store to, at once or after a fault. -/
def UserPage (ms : MemorySet) (va : Nat) : Prop :=
  Canonical va ∧ ms.Private (floor va) ∧ ∃ pte ∈ ms.translate (floor va),
    pte.flags.u = true ∧ (pte.writable = true ∨ pte.is_cow = true)

def readable (ms : MemorySet) (va : Nat) : Bool :=
  (ms.translate (floor va)).any PageTableEntry.readable

instance (ms : MemorySet) (v : Nat) : Decidable (ms.Private v) :=
  have : Decidable (ms.mmap_manager.Valid v) :=
    inferInstanceAs (Decidable (∃ page ∈ ms.mmap_manager.mmap_map[v]?, page.valid = true))
  inferInstanceAs (Decidable ((_ ∨ _) ∨ _))

instance (ms : MemorySet) (va : Nat) : Decidable (ms.UserPage va) :=
  inferInstanceAs (Decidable (_ ∧ _ ∧ ∃ pte ∈ ms.translate (floor va), _))

variable {text : KernelImage} {ms ms' : MemorySet} {v : Nat}

theorem Private.congr (hregions : SameRegions ms ms')
    (hmap : ms'.mmap_manager.mmap_map = ms.mmap_manager.mmap_map) (h : ms.Private v) :
    ms'.Private v := by
  have hstack : ms'.user_stack_areas.vpn_range = ms.user_stack_areas.vpn_range :=
    (congrArg VmArea.vpn_range hregions.stack :)
  have hheap : ms'.heap_areas.vpn_range = ms.heap_areas.vpn_range :=
    (congrArg VmArea.vpn_range hregions.heap :)
  unfold Private Held MmapManager.Valid at h ⊢
  rw [hstack, hheap, hmap]
  exact h.imp_left (Or.imp_left (fromElf_congr hregions.areas))

theorem Private.shareable (h : ms.Private v) : ms.Shareable (index v) := by
  rcases h with (⟨area, harea, htype, hv⟩ | ⟨page, hpage, hvalid⟩) | hstack | hheap
  · have htype' : area.from_another.area_type ≠ .TrapContext := by
      rw [show area.from_another.area_type = area.area_type from rfl, htype]
      decide
    exact Or.inl ⟨area.from_another, List.mem_map_of_mem harea, htype', v, hv, rfl⟩
  · exact Or.inr (Or.inr ⟨v, page, hpage, hvalid, rfl⟩)
  · exact Or.inr (Or.inl (Or.inl ⟨v, hstack, rfl⟩))
  · exact Or.inr (Or.inl (Or.inr ⟨v, hheap, rfl⟩))

theorem Private.covers (hm : ms.mmap_manager.WellFormed) (h : ms.Private v) : ms.Covers v := by
  rcases h with (⟨area, harea, _, hv⟩ | ⟨page, hpage, hvalid⟩) | hlazy
  · exact Or.inl ⟨area, harea, hv⟩
  · exact Or.inr (Or.inl (hm.touched v page hpage hvalid))
  · exact Or.inr (Or.inr hlazy)

/-- Where no region overlaps another one, a private page is not a trampoline. -/
theorem Private.apart (hT : Tracked text ms) (hnodup : ms.cow_keys.Nodup) (h : ms.Private v)
    {pte : PageTableEntry} (hpte : ms.translate v = some pte) :
    index v ≠ index (floor TRAMPOLINE) ∧ index v ≠ index (floor SIGNAL_TRAMPOLINE) := by
  have hshared := mem_shared_keys hT (Option.isSome_iff_exists.mpr ⟨pte, hpte⟩) h.shareable
  have hrest : index v ∈ ms.map_areas.flatMap area_keys ++ ms.valid_keys ++ ms.stack_keys ++
      ms.heap_keys := by
    simp only [shared_keys, shared_areas, List.mem_append, List.mem_flatMap, List.mem_filter]
      at hshared ⊢
    refine hshared.imp_left (Or.imp_left (Or.imp_left ?_))
    rintro ⟨area, ⟨harea, _⟩, hmem⟩
    exact ⟨area, harea, hmem⟩
  rw [cow_keys, List.append_assoc, List.append_assoc, List.append_assoc] at hnodup
  rw [List.append_assoc, List.append_assoc] at hrest
  have hapart := (List.nodup_append.mp hnodup).2.2
  exact ⟨(hapart _ List.mem_cons_self _ hrest).symm,
    (hapart _ (List.mem_cons_of_mem _ List.mem_cons_self) _ hrest).symm⟩

/-- So it has its frame from the allocator. -/
theorem Private.slot (hT : Tracked text ms) (hnodup : ms.cow_keys.Nodup) (h : ms.Private v)
    {pte : PageTableEntry} (hpte : ms.translate v = some pte) :
    (index v, pte.ppn) ∈ ms.slots := by
  obtain ⟨htramp, hsignal⟩ := h.apart hT hnodup hpte
  refine (hT.mapped v pte hpte).resolve_left ?_
  rintro (⟨heq, _⟩ | ⟨heq, _⟩)
  · exact htramp heq
  · exact hsignal heq

end MemorySet

/-- The address shows `byte`, and the program may change it. -/
structure Shows (ms : MemorySet) (ph : Phys) (va : Nat) (byte : UInt8) (readable : Bool) :
    Prop where
  held : ms.Private (floor va)
  entry : ∃ pte, ms.translate (floor va) = some pte ∧ (index (floor va), pte.ppn) ∈ ms.slots ∧
    pte.flags.u = true ∧ (pte.writable = true ∨ pte.is_cow = true) ∧ pte.readable = readable ∧
    ph.bytes pte.ppn (page_offset va) = byte

/-- A fault that is served on a page: it has the W bit and its bytes, and nothing else changed. -/
structure Granted (E : Multiset Nat) (ms : MemorySet) (ph : Phys) (vpn : Nat)
    (pte : PageTableEntry) (ms' : MemorySet) (ph' : Phys) (pte' : PageTableEntry) : Prop where
  translate : ∀ v, ms'.translate v = if index v = index vpn then some pte' else ms.translate v
  u : pte'.flags.u = pte.flags.u
  r : pte'.flags.r = pte.flags.r
  w : pte'.flags.w = true
  slot : (index vpn, pte'.ppn) ∈ ms'.slots
  slots : ∀ e ∈ ms.slots, e.1 ≠ index vpn → e ∈ ms'.slots
  regions : SameRegions ms ms'
  mappings : ms'.mmap_manager.mmap_map = ms.mmap_manager.mmap_map
  copied : ph'.bytes pte'.ppn = ph.bytes pte.ppn
  bytes : ∀ p ∈ ms.owned + E, ph'.bytes p = ph.bytes p

section Views

variable {text : KernelImage} {E : Multiset Nat} {ms ms' : MemorySet} {ph ph' : Phys}
  {va vpn : Nat} {pte pte' : PageTableEntry} {byte : UInt8} {readable : Bool}

theorem write_byte (ph : Phys) (ppn offset : Nat) (byte : UInt8) (q i : Nat) :
    (ph.write ppn offset [byte]).bytes q i =
      if q = ppn ∧ i = offset then byte else ph.bytes q i := by
  rcases eq_or_ne i offset with rfl | hne
  · rw [Phys.write_bytes]
    simp
  · rw [Phys.write_bytes_outside, if_neg fun hin => hne hin.2]
    rw [List.length_singleton]
    omega

theorem Shows.keep (h : Shows ms ph va byte readable)
    (hbytes : ∀ p ∈ ms.owned, ph'.bytes p = ph.bytes p) : Shows ms ph' va byte readable := by
  obtain ⟨pte, hpte, hslot, hu, hw, hr, hbyte⟩ := h.entry
  refine ⟨h.held, pte, hpte, hslot, hu, hw, hr, ?_⟩
  rw [hbytes _ (mem_owned_of_slots hslot)]
  exact hbyte

theorem Granted.shows (hg : Granted E ms ph vpn pte ms' ph' pte')
    (hpte : ms.translate vpn = some pte) (h : Shows ms ph va byte readable) :
    Shows ms' ph' va byte readable := by
  obtain ⟨pte₁, hpte₁, hslot, hu, hw, hr, hbyte⟩ := h.entry
  refine ⟨h.held.congr hg.regions hg.mappings, ?_⟩
  rw [hg.translate]
  split
  · rename_i heq
    cases (hpte₁.symm.trans (PageTable.find_pte_congr _ heq)).trans hpte
    refine ⟨pte', rfl, heq ▸ hg.slot, hg.u.trans hu, Or.inl hg.w, hg.r.trans hr, ?_⟩
    rw [hg.copied]
    exact hbyte
  · rename_i hne
    refine ⟨pte₁, hpte₁, hg.slots _ hslot hne, hu, hw, hr, ?_⟩
    rw [hg.bytes _ (Multiset.mem_add.mpr (Or.inl (mem_owned_of_slots hslot)))]
    exact hbyte

theorem granted_alone (hpte : ms.translate vpn = some pte)
    (hslot : (index vpn, pte.ppn) ∈ ms.slots) :
    Granted E ms ph vpn pte (ms.reflag vpn pte pte.flags.restored) ph
      ⟨pte.ppn, pte.flags.restored⟩ where
  translate := MemorySet.translate_reflag hpte (restored_v hpte)
  u := Bool.or_false _
  r := Bool.or_false _
  w := Bool.or_true _
  slot := hslot
  slots _ he _ := he
  regions := ⟨rfl, rfl, rfl, rfl⟩
  mappings := rfl
  copied := rfl
  bytes _ _ := rfl

theorem Copied.granted {p : Nat} (h : Copied E ms ph vpn pte p ms' ph') :
    Granted E ms ph vpn pte ms' ph' ⟨p, pte.flags ||| PTEFlags.W⟩ where
  translate := h.faulted.translate
  u := Bool.or_false _
  r := Bool.or_false _
  w := Bool.or_true _
  slot := h.faulted.put.mem
  slots _ he hne := (h.faulted.put.mem_iff hne).mpr he
  regions := h.faulted.regions
  mappings := h.mappings.map
  copied := by rw [h.bytes, Function.update_self]
  bytes q hq := by
    rw [h.bytes, Function.update_of_ne]
    rintro rfl
    exact h.faulted.fresh hq

/-- The fault of a store on a COW page fails only for want of a frame. -/
theorem check_lazy_grants (hT : Tracked text ms) (h : Owned ph.allocator (ms.owned + E))
    (hheld : ms.Private (floor va)) (hpte : ms.translate (floor va) = some pte)
    (hcow : pte.is_cow = true) (hslot : (index (floor va), pte.ppn) ∈ ms.slots) :
    Meets (ms.check_lazy ph va) (· = .outOfMemory) fun r => r.1 = 0 ∧
      (LocalStep text E ms ph r.2.1 r.2.2 ∧ CowKept E ms r.2.1) ∧
        ∃ pte', Granted E ms ph (floor va) pte r.2.1 r.2.2 pte' := by
  have hmem : pte.ppn ∈ ms.owned + E :=
    Multiset.mem_add.mpr (Or.inl (mem_owned_of_slots hslot))
  have hcovers := hheld.covers hT.manager
  have halloc := (cow_alloc_meets hT h hpte hcow).mono_error (F := (· = .outOfMemory))
    fun e he => he.resolve_right fun hor => hor.elim (absurd hmem) (absurd hcovers)
  unfold MemorySet.check_lazy
  simp only [hpte, hcow, if_true]
  cases hx : ms.cow_alloc ph (floor va) pte.ppn with
  | error e => exact halloc.error hx
  | ok s =>
    obtain ⟨hT', hcases⟩ := halloc.of_ok hx
    refine ⟨rfl, ?_⟩
    rcases hcases with ⟨hone, rfl⟩ | ⟨p, hcopied⟩
    · exact ⟨(Served.alone pte hpte hcow hone).steps hT h hT', _, granted_alone hpte hslot⟩
    · exact ⟨(Served.copied pte p _ _ hpte hcow hcopied).steps hT h hT', _, hcopied.granted⟩

/-- The fault on a page that is mapped and not COW is turned down. -/
theorem check_lazy_refuses (ph : Phys) (hpte : ms.translate (floor va) = some pte)
    (hcow : pte.is_cow = false) : ms.check_lazy ph va = .ok (-4, ms, ph) := by
  unfold MemorySet.check_lazy
  simp only [hpte, hcow]
  rfl

/-- Parent and child show what the parent showed. -/
theorem Forked.shows {par child : MemorySet} (hf : Forked text E ms ph par child ph')
    (hT : Tracked text ms) (h : Shows ms ph va byte readable) :
    Shows par ph' va byte readable ∧ Shows child ph' va byte readable := by
  obtain ⟨pte, hpte, hslot, hu, _, hr, hbyte⟩ := h.entry
  have hshared := MemorySet.mem_shared_keys hT (Option.isSome_iff_exists.mpr ⟨pte, hpte⟩)
    h.held.shareable
  have hquiet := hf.quiet pte.ppn
    (Or.inl (Multiset.mem_add.mpr (Or.inl (mem_owned_of_slots hslot))))
  have hbytes : ph'.bytes pte.cowed.ppn (page_offset va) = byte := (congrFun hquiet _).trans hbyte
  have hu' : pte.cowed.flags.u = true := (Bool.and_true _).trans hu
  have hr' : pte.cowed.readable = readable := (Bool.and_true _).trans hr
  refine ⟨⟨?_, pte.cowed, ?_, ?_, hu', Or.inr rfl, hr', hbytes⟩,
    ⟨h.held.congr hf.regions hf.mappings.map, pte.cowed, ?_, ?_, hu', Or.inr rfl, hr', hbytes⟩⟩
  · rw [hf.parent]
    exact h.held
  · rw [hf.parent_translate, if_pos hshared, hpte]
    rfl
  · rw [hf.parent_slots]
    exact hslot
  · obtain ⟨pte', hpte', hchild, _⟩ := hf.child_shared _ hshared
    cases hpte.symm.trans hpte'
    exact hchild
  · obtain ⟨pte', hpte', _, hmem⟩ := hf.child_shared _ hshared
    cases hpte.symm.trans hpte'
    exact hmem

end Views

namespace Machine

/-- The tree of forks below `root`; the programs from `start` on are the ones it forked. -/
def InTree (root start : Nat) (m : Machine) (pid : Nat) : Prop :=
  pid = root ∨ start ≤ pid ∧ pid < m.spaces.length

instance (root start : Nat) (m : Machine) (pid : Nat) : Decidable (m.InTree root start pid) :=
  inferInstanceAs (Decidable (_ ∨ _))

/-- No two regions of the address space have a page in common. -/
def Disjoint (m : Machine) (pid : Nat) : Prop := m.AtSpace pid fun ms => ms.cow_keys.Nodup

instance (m : Machine) (pid : Nat) : Decidable (m.Disjoint pid) :=
  inferInstanceAs (Decidable (m.AtSpace pid _))

variable {m : Machine} {pid va : Nat} {ms : MemorySet} {pte : PageTableEntry}
  {attempt : MemorySet → Phys → Option (Phys × Seen)}

theorem put_self (hms : m.spaces[pid]? = some (some ms)) : m.put pid (ms, m.ph) = m := by
  obtain ⟨hlt, heq⟩ := List.getElem?_eq_some_iff.mp hms
  rw [put, ← heq, List.set_getElem_self]

theorem access_hit {ph : Phys} {seen : Seen} (hspace : m.space pid = .ok ms)
    (h : attempt ms m.ph = some (ph, seen)) :
    m.access pid va attempt = .ok ({ m with ph := ph }, seen) := by
  rw [access, hspace, ok_bind, h]
  rfl

theorem access_trap (hspace : m.space pid = .ok ms) (h : attempt ms m.ph = none)
    (hva : Canonical va) (hle : va ≤ TRAMPOLINE) :
    m.access pid va attempt = ms.check_lazy m.ph va >>= fun r =>
      .ok (m.settle pid r.2.1 r.2.2 (if r.1 = 0 then attempt r.2.1 r.2.2 else none)) := by
  rw [access, hspace, ok_bind, h]
  simp only [hva.virt_addr_eq, hle, and_true]
  rfl

theorem attempt_load_eq (ph : Phys) (hpte : ms.translate (floor va) = some pte)
    (hu : pte.flags.u = true) : attempt_load va ms ph =
      if pte.readable then some (ph, .value (ph.bytes pte.ppn (page_offset va))) else none := by
  unfold attempt_load user_load
  rw [hpte]
  cases hr : pte.readable with
  | true => simp [show pte.flags.r = true from hr, hu]
  | false => simp [show pte.flags.r = false from hr]

theorem attempt_store_eq (byte : UInt8) (ph : Phys) (hpte : ms.translate (floor va) = some pte)
    (hu : pte.flags.u = true) : attempt_store va byte ms ph =
      if pte.writable then some (ph.write pte.ppn (page_offset va) [byte], .stored) else none := by
  unfold attempt_store user_store
  rw [hpte]
  cases hw : pte.writable with
  | true => simp [show pte.flags.w = true from hw, hu]
  | false => simp [show pte.flags.w = false from hw]

end Machine

/-- The machine shows what the eager memories hold: `ms₀` is the space of `root` before the first
fork. -/
structure EagerView (ms₀ : MemorySet) (root start : Nat) (m : Machine) (s : Eager) : Prop where
  books : Books 0 m
  cow : Cow 0 m
  length : s.length = m.spaces.length
  tree : ∀ pid, m.InTree root start pid → ∃ mem, s[pid]? = some (some mem)
  below : ∀ va, ms₀.UserPage va → va ≤ TRAMPOLINE
  shows : ∀ (pid : Nat) (mem : Nat → UInt8), s[pid]? = some (some mem) →
    ∃ ms, m.spaces[pid]? = some (some ms) ∧
      ∀ va, ms₀.UserPage va → Shows ms m.ph va (mem va) (ms₀.readable va)

namespace EagerView

variable {ms₀ ms ms' : MemorySet} {root start pid va : Nat} {m : Machine} {s : Eager}
  {mem : Nat → UInt8} {pte : PageTableEntry} {ph' : Phys}

theorem owned (h : EagerView ms₀ root start m s) (hms : m.spaces[pid]? = some (some ms)) :
    Owned m.ph.allocator (ms.owned + m.others pid) := by
  have howned := h.books.owned_split hms
  rwa [zero_add] at howned

/-- A frame that a page with the W bit maps belongs to no other program. -/
theorem not_others (h : EagerView ms₀ root start m s) (hms : m.spaces[pid]? = some (some ms))
    (hpte : ms.translate (floor va) = some pte) (hw : pte.writable = true)
    (hmem : pte.ppn ∈ ms.owned) : pte.ppn ∉ m.others pid := by
  intro hothers
  have hone := h.cow.alone pid ms hms _ pte hpte hw
  rw [zero_add, Machine.live_split hms, Multiset.count_add] at hone
  have := Multiset.count_pos.mpr hmem
  have := Multiset.count_pos.mpr hothers
  omega

/-- Nor to another page of the same program. -/
theorem index_eq (h : EagerView ms₀ root start m s) (hms : m.spaces[pid]? = some (some ms))
    (hpte : ms.translate (floor va) = some pte) (hw : pte.writable = true) {k k' : Nat}
    (hk : (k, pte.ppn) ∈ ms.slots) (hk' : (k', pte.ppn) ∈ ms.slots) : k = k' := by
  by_contra hne
  have hone := h.cow.alone pid ms hms _ pte hpte hw
  rw [zero_add, Machine.live_split hms, Multiset.count_add] at hone
  have := two_le_count hk hk' hne
  omega

/-- A store to a page with the W bit. -/
theorem write (h : EagerView ms₀ root start m s) (hmem : s[pid]? = some (some mem))
    (hms : m.spaces[pid]? = some (some ms)) (hva : ms₀.UserPage va)
    (hpte : ms.translate (floor va) = some pte) (hw : pte.writable = true) (byte : UInt8) :
    EagerView ms₀ root start { m with ph := m.ph.write pte.ppn (page_offset va) [byte] }
      (s.set pid (some (Function.update mem va byte))) where
  books := ⟨h.books.owned, h.books.base, h.books.tracked⟩
  cow := ⟨h.cow.shares, h.cow.alone⟩
  length := by
    rw [List.length_set]
    exact h.length
  tree q hq := by
    obtain ⟨mem', hmem'⟩ := h.tree q hq
    rw [List.getElem?_set]
    split
    · rename_i heq
      subst heq
      rw [if_pos (List.getElem?_eq_some_iff.mp hmem).1]
      exact ⟨_, rfl⟩
    · exact ⟨mem', hmem'⟩
  below := h.below
  shows q mem' hq := by
    obtain ⟨ms₁, hms₁, hshows⟩ := h.shows pid mem hmem
    cases hms.symm.trans hms₁
    obtain ⟨pte₁, hpte₁, hslot, _⟩ := (hshows va hva).entry
    cases hpte.symm.trans hpte₁
    rw [List.getElem?_set] at hq
    split at hq
    · rename_i heq
      subst heq
      rw [if_pos (List.getElem?_eq_some_iff.mp hmem).1] at hq
      cases hq
      refine ⟨ms, hms, fun va' hva' => ?_⟩
      obtain ⟨pte', hpte', hslot', hu, hw', hr, hbyte⟩ := (hshows va' hva').entry
      refine ⟨(hshows va' hva').held, pte', hpte', hslot', hu, hw', hr, ?_⟩
      dsimp only
      rw [write_byte]
      rcases eq_or_ne va' va with rfl | hne
      · cases hpte.symm.trans hpte'
        rw [if_pos ⟨rfl, rfl⟩, Function.update_self]
      · rw [Function.update_of_ne hne, if_neg, hbyte]
        rintro ⟨heq, hoffset⟩
        rw [heq] at hslot'
        have hfloor := hva'.1.floor_eq hva.1 (h.index_eq hms hpte hw hslot' hslot)
        refine hne ?_
        rw [← Nat.div_add_mod va' PAGE_SIZE, ← Nat.div_add_mod va PAGE_SIZE]
        exact congrArg₂ (fun x y => PAGE_SIZE * x + y) hfloor hoffset
    · rename_i hne
      obtain ⟨ms₂, hms₂, hshows₂⟩ := h.shows q mem' hq
      refine ⟨ms₂, hms₂, fun va' hva' => (hshows₂ va' hva').keep fun p hp => ?_⟩
      have hothers := Multiset.mem_of_le (Machine.owned_le_others hms₂ (Ne.symm hne)) hp
      have hppn : p ≠ pte.ppn := by
        rintro rfl
        exact h.not_others hms hpte hw (mem_owned_of_slots hslot) hothers
      exact Function.update_of_ne hppn _ _

/-- The fault of a store on a COW page shows nothing, and the page has the W bit then. -/
theorem fault (h : EagerView ms₀ root start m s) (hmem : s[pid]? = some (some mem))
    (hms : m.spaces[pid]? = some (some ms)) (hva : ms₀.UserPage va)
    (hpte : ms.translate (floor va) = some pte) (hcow : pte.is_cow = true) :
    Meets (ms.check_lazy m.ph va) (· = .outOfMemory) fun r => r.1 = 0 ∧
      EagerView ms₀ root start (m.put pid r.2) s ∧
        ∃ pte', r.2.1.translate (floor va) = some pte' ∧ pte'.flags.u = true ∧
          pte'.writable = true ∧ pte'.readable = pte.readable := by
  obtain ⟨ms₁, hms₁, hshows⟩ := h.shows pid mem hmem
  cases hms.symm.trans hms₁
  obtain ⟨pte', hpte', hslot, hu, _⟩ := (hshows va hva).entry
  cases hpte.symm.trans hpte'
  refine (check_lazy_grants (h.books.tracked pid ms hms) (h.owned hms) (hshows va hva).held hpte
    hcow hslot).mono ?_
  rintro ⟨lazy, ms', ph'⟩ ⟨hlazy, ⟨hstep, hkept⟩, pte', hg⟩
  refine ⟨hlazy, ⟨h.books.local_step hms hstep, h.cow.local_step h.books hms hstep hkept, ?_, ?_,
    h.below, ?_⟩, pte', ?_, hg.u.trans hu, hg.w, hg.r⟩
  · rw [h.length]
    exact (List.length_set ..).symm
  · intro q hq
    refine h.tree q (hq.imp_right fun hlt => ⟨hlt.1, hlt.2.trans_eq ?_⟩)
    exact List.length_set ..
  · intro q mem' hq
    obtain ⟨ms₂, hms₂, hshows₂⟩ := h.shows q mem' hq
    rw [Machine.space_put hms]
    split
    · rename_i heq
      subst heq
      cases hms.symm.trans hms₂
      exact ⟨ms', rfl, fun va' hva' => hg.shows hpte (hshows₂ va' hva')⟩
    · rename_i hne
      refine ⟨ms₂, hms₂, fun va' hva' => (hshows₂ va' hva').keep fun p hp => hg.bytes p ?_⟩
      exact Multiset.mem_add.mpr
        (Or.inr (Multiset.mem_of_le (Machine.owned_le_others hms₂ hne) hp))
  · exact (hg.translate _).trans (if_pos rfl)

theorem fork (h : EagerView ms₀ root start m s) (hmem : s[pid]? = some (some mem))
    (hwrap : m.NoWrap pid) (hdisjoint : m.Disjoint pid) :
    Meets (m.step (.fork pid)) (· = .outOfMemory)
      fun m' => EagerView ms₀ root start m' (s ++ [some mem]) := by
  obtain ⟨ms, hms, hshows⟩ := h.shows pid mem hmem
  have hspace : m.space pid = .ok ms := by
    rw [Machine.space, hms]
  have hT := h.books.tracked pid ms hms
  simp only [Machine.step, hspace, ok_bind]
  refine ((fork_meets h.books hwrap hms).mono_error fun e he =>
    he.resolve_right fun hnodup => hnodup (hdisjoint.of_space hms)).bind ?_
  rintro ⟨par, child, ph'⟩ hf
  obtain ⟨hbooks, hchild, hcow⟩ := h.books.fork hms hf
  have hlength : (m.put pid (par, ph')).spaces.length = m.spaces.length := List.length_set ..
  refine ⟨hbooks.push hchild, (hcow h.cow).1.push (hcow h.cow).2, ?_, ?_, h.below, ?_⟩
  · simp only [List.length_append, List.length_singleton, hlength, h.length]
  · intro q hq
    rcases Nat.lt_or_ge q s.length with hlt | hge
    · obtain ⟨mem', hmem'⟩ := h.tree q (hq.imp_right fun hq => ⟨hq.1, h.length ▸ hlt⟩)
      exact ⟨mem', (List.getElem?_append_left hlt).trans hmem'⟩
    · rcases hq with rfl | ⟨_, hlt⟩
      · obtain ⟨mem', hmem'⟩ := h.tree q (Or.inl rfl)
        exact absurd (List.getElem?_eq_some_iff.mp hmem').1 (Nat.not_lt.mpr hge)
      · simp only [List.length_append, List.length_singleton, hlength, ← h.length] at hlt
        have heq : q = s.length := by omega
        exact ⟨mem, by rw [heq, List.getElem?_concat_length]⟩
  · intro q mem' hq
    rw [List.getElem?_append] at hq
    split at hq
    · rename_i hlt
      obtain ⟨ms₂, hms₂, hshows₂⟩ := h.shows q mem' hq
      dsimp only
      rw [List.getElem?_append_left (hlength ▸ h.length ▸ hlt), Machine.space_put hms]
      split
      · rename_i heq
        subst heq
        cases hms.symm.trans hms₂
        exact ⟨par, rfl, fun va hva => (hf.shows hT (hshows₂ va hva)).1⟩
      · rename_i hne
        refine ⟨ms₂, hms₂, fun va hva => (hshows₂ va hva).keep fun p hp => ?_⟩
        refine hf.quiet p (Or.inl (Multiset.mem_add.mpr (Or.inr ?_)))
        exact Multiset.mem_of_le (Machine.owned_le_others hms₂ hne) hp
    · rename_i hge
      rw [List.getElem?_singleton] at hq
      split at hq
      · cases hq
        have heq : q = (m.put pid (par, ph')).spaces.length := by
          rw [hlength, ← h.length]
          omega
        refine ⟨child, ?_, fun va hva => (hf.shows hT (hshows va hva)).2⟩
        rw [heq, List.getElem?_concat_length]
      · cases hq

/-- A load shows the byte of the eager memory, if the page may be read. -/
theorem load_meets (h : EagerView ms₀ root start m s) (hmem : s[pid]? = some (some mem))
    (hva : ms₀.UserPage va) :
    Meets (m.user_step (.load pid va)) (· = .outOfMemory) fun r =>
      r.2 = (if ms₀.readable va then .value (mem va) else .sigsegv) ∧
        EagerView ms₀ root start r.1 s := by
  obtain ⟨ms, hms, hshows⟩ := h.shows pid mem hmem
  have hspace : m.space pid = .ok ms := by
    rw [Machine.space, hms]
  obtain ⟨pte, hpte, _, hu, _, hr, hbyte⟩ := (hshows va hva).entry
  have hattempt := Machine.attempt_load_eq m.ph hpte hu
  rw [hr, hbyte] at hattempt
  cases hread : ms₀.readable va with
  | true =>
    rw [hread, if_pos rfl] at hattempt
    rw [Machine.user_step, Machine.access_hit hspace hattempt]
    exact ⟨rfl, h⟩
  | false =>
    rw [hread, if_neg Bool.false_ne_true] at hattempt
    rw [Machine.user_step, Machine.access_trap hspace hattempt hva.1 (h.below va hva)]
    cases hcow : pte.is_cow with
    | false =>
      rw [check_lazy_refuses m.ph hpte hcow]
      refine ⟨rfl, ?_⟩
      show EagerView ms₀ root start (m.put pid (ms, m.ph)) s
      rw [Machine.put_self hms]
      exact h
    | true =>
      refine (h.fault hmem hms hva hpte hcow).bind ?_
      rintro ⟨lazy, ms', ph'⟩ ⟨rfl, hview, pte', hpte', hu', _, hr'⟩
      have hagain := Machine.attempt_load_eq ph' hpte' hu'
      rw [hr', hr, hread, if_neg Bool.false_ne_true] at hagain
      rw [if_pos rfl, hagain]
      exact ⟨rfl, hview⟩

/-- A store takes effect in the memory of the program, and in no other one. -/
theorem store_meets (h : EagerView ms₀ root start m s) (hmem : s[pid]? = some (some mem))
    (hva : ms₀.UserPage va) (byte : UInt8) :
    Meets (m.user_step (.store pid va byte)) (· = .outOfMemory) fun r =>
      r.2 = .stored ∧
        EagerView ms₀ root start r.1 (s.set pid (some (Function.update mem va byte))) := by
  obtain ⟨ms, hms, hshows⟩ := h.shows pid mem hmem
  have hspace : m.space pid = .ok ms := by
    rw [Machine.space, hms]
  obtain ⟨pte, hpte, _, hu, hw, _⟩ := (hshows va hva).entry
  have hattempt := Machine.attempt_store_eq byte m.ph hpte hu
  cases hwrite : pte.writable with
  | true =>
    rw [hwrite, if_pos rfl] at hattempt
    rw [Machine.user_step, Machine.access_hit hspace hattempt]
    exact ⟨rfl, h.write hmem hms hva hpte hwrite byte⟩
  | false =>
    have hcow : pte.is_cow = true := hw.resolve_left (Bool.not_eq_true _ ▸ hwrite)
    rw [hwrite, if_neg Bool.false_ne_true] at hattempt
    rw [Machine.user_step, Machine.access_trap hspace hattempt hva.1 (h.below va hva)]
    refine (h.fault hmem hms hva hpte hcow).bind ?_
    rintro ⟨lazy, ms', ph'⟩ ⟨rfl, hview, pte', hpte', hu', hw', _⟩
    have hagain := Machine.attempt_store_eq byte ph' hpte' hu'
    rw [hw', if_pos rfl] at hagain
    rw [if_pos rfl, hagain]
    have hms' : (m.put pid (ms', ph')).spaces[pid]? = some (some ms') := by
      rw [Machine.space_put hms, if_pos rfl]
    exact ⟨rfl, hview.write hmem hms' hva hpte' hw' byte⟩

end EagerView

namespace Machine

/-- The calls that stay within the tree and the pages of `ms₀`. A fork overlaps no regions and
takes no counter over its limit. -/
def PermitsUser (ms₀ : MemorySet) (root start : Nat) (m : Machine) : UserOp → Prop
  | .fork pid => m.InTree root start pid ∧ m.Disjoint pid ∧ m.NoWrap pid
  | .load pid va => m.InTree root start pid ∧ ms₀.UserPage va
  | .store pid va _ => m.InTree root start pid ∧ ms₀.UserPage va

instance (ms₀ : MemorySet) (root start : Nat) (m : Machine) (op : UserOp) :
    Decidable (m.PermitsUser ms₀ root start op) :=
  match op with
  | .fork _ => inferInstanceAs (Decidable (_ ∧ _ ∧ _))
  | .load _ _ | .store _ _ _ => inferInstanceAs (Decidable (_ ∧ _))

/-- The memory of `root` alone, as the machine shows it. -/
def eager (m : Machine) (root : Nat) (ms : MemorySet) : Eager :=
  (List.replicate m.spaces.length none).set root (some fun va => (ms.view m.ph va).getD 0)

end Machine

theorem EagerView.start {m : Machine} {root : Nat} {ms : MemorySet} (hbooks : Books 0 m)
    (hcow : Cow 0 m) (hms : m.spaces[root]? = some (some ms)) (hdisjoint : m.Disjoint root) :
    EagerView ms root m.spaces.length m (m.eager root ms) := by
  have hlt := Machine.lt_of_space hms
  have hmem : (m.eager root ms)[root]? = some (some fun va => (ms.view m.ph va).getD 0) := by
    rw [Machine.eager, List.getElem?_set_self (by rwa [List.length_replicate])]
  refine ⟨hbooks, hcow, ?_, ?_, ?_, ?_⟩
  · rw [Machine.eager, List.length_set, List.length_replicate]
  · rintro pid (rfl | ⟨hle, hlt'⟩)
    · exact ⟨_, hmem⟩
    · omega
  · intro va hva
    obtain ⟨pte, hpte, _⟩ := hva.2.2
    exact hva.1.le_trampoline (hva.2.1.apart (hbooks.tracked root ms hms)
      (hdisjoint.of_space hms) hpte).1
  · intro pid mem hpid
    rw [Machine.eager, List.getElem?_set] at hpid
    split at hpid
    · rename_i heq
      subst heq
      rw [if_pos (by rwa [List.length_replicate])] at hpid
      cases hpid
      refine ⟨ms, hms, fun va hva => ⟨hva.2.1, ?_⟩⟩
      obtain ⟨pte, hpte, hu, hw⟩ := hva.2.2
      have htranslate : ms.translate (floor va) = some pte := hpte
      refine ⟨pte, hpte, ?_, hu, hw, ?_, ?_⟩
      · exact hva.2.1.slot (hbooks.tracked root ms hms) (hdisjoint.of_space hms) hpte
      · rw [MemorySet.readable, htranslate]
        rfl
      · simp only [MemorySet.view, htranslate]
        rfl
    · rw [List.getElem?_replicate] at hpid
      split at hpid <;> cases hpid

theorem EagerView.step_follows {ms₀ : MemorySet} {root start : Nat} {m : Machine} {s : Eager}
    (h : EagerView ms₀ root start m s) (op : UserOp) (hop : m.PermitsUser ms₀ root start op) :
    Follows (· = .outOfMemory) (EagerView ms₀ root start) (m.user_step op)
      (s.step ms₀.readable op) := by
  cases op with
  | fork pid =>
    obtain ⟨mem, hmem⟩ := h.tree pid hop.1
    have hfork := h.fork hmem hop.2.2 hop.2.1
    refine Follows.of_meets (hfork.bind fun m' hm' => ⟨s ++ [some mem], ?_, hm'⟩)
    rw [Eager.step, Eager.memory_eq hmem, h.length]
    rfl
  | load pid va =>
    obtain ⟨mem, hmem⟩ := h.tree pid hop.1
    refine Follows.of_meets ((h.load_meets hmem hop.2).mono ?_)
    rintro ⟨m', seen⟩ ⟨hseen, hview⟩
    refine ⟨s, ?_, hview⟩
    rw [Eager.step, Eager.memory_eq hmem, hseen]
    rfl
  | store pid va byte =>
    obtain ⟨mem, hmem⟩ := h.tree pid hop.1
    refine Follows.of_meets ((h.store_meets hmem hop.2 byte).mono ?_)
    rintro ⟨m', seen⟩ ⟨hseen, hview⟩
    refine ⟨_, ?_, hview⟩
    rw [Eager.step, Eager.memory_eq hmem, hseen]
    rfl

namespace Machine

variable {text : KernelImage} {r root : Nat} {ops : List MachineOp} {calls : List UserOp}
  {m : Machine} {ms : MemorySet}

/-- The programs of the tree have the eager memories. -/
def Mirrors (ms : MemorySet) (m : Machine) (s : Eager) : Prop :=
  ∀ (pid : Nat) (mem : Nat → UInt8), s[pid]? = some (some mem) →
    ∃ ms', m.spaces[pid]? = some (some ms') ∧
      ∀ va, ms.UserPage va → ms'.view m.ph va = some (mem va)

/-- The child stores to a page it shares with the parent. -/
def store_after_fork : List UserOp :=
  [.store 0 0x10000 1, .fork 0, .store 1 0x10000 2, .load 0 0x10000, .load 1 0x10000]

section Resident

def user_step_resident (m : Machine) : UserOp → Except Panic (Machine × Seen)
  | .fork pid => do
    let m' ← m.step_resident (.fork pid)
    return (m', .forked m.spaces.length)
  | op => m.user_step op

theorem user_step_eq : user_step = user_step_resident := by
  funext m op
  cases op with
  | fork pid => rw [user_step, user_step_resident, step_eq]
  | _ => rfl

def DisjointResident (m : Machine) (pid : Nat) : Prop :=
  m.AtSpace pid fun ms => ms.resident_keys.Nodup

theorem disjoint_eq : Disjoint = DisjointResident := by
  funext m pid
  rw [Disjoint, DisjointResident, MemorySet.cow_keys_eq]

def PermitsResident (ms₀ : MemorySet) (root start : Nat) (m : Machine) : UserOp → Prop
  | .fork pid => m.InTree root start pid ∧ m.DisjointResident pid ∧ m.AtSpace pid fun ms =>
    ∀ p ∈ ms.resident_shares, m.live.count p + ms.resident_shares.count p ≤ 255
  | op => m.PermitsUser ms₀ root start op

theorem permits_user_eq : PermitsUser = PermitsResident := by
  funext ms₀ root start m op
  cases op with
  | fork pid =>
    rw [PermitsUser, PermitsResident, disjoint_eq, NoWrap, MemorySet.cow_shares_eq]
  | _ => rfl

instance (m : Machine) (pid : Nat) : Decidable (m.DisjointResident pid) :=
  inferInstanceAs (Decidable (m.AtSpace pid _))

instance (ms₀ : MemorySet) (root start : Nat) (m : Machine) (op : UserOp) :
    Decidable (m.PermitsResident ms₀ root start op) :=
  match op with
  | .fork _ => inferInstanceAs (Decidable (_ ∧ _ ∧ _))
  | .load pid va => inferInstanceAs (Decidable (m.PermitsUser ms₀ root start (.load pid va)))
  | .store pid va byte =>
    inferInstanceAs (Decidable (m.PermitsUser ms₀ root start (.store pid va byte)))

end Resident

theorem store_after_fork_permitted : Meets (run step (boot image 64) [.spawn one_page])
    (fun _ => False) fun m => Meets (m.space 0) (fun _ => False) fun ms => m.Disjoint 0 ∧
      Guarded (silent user_step) (PermitsUser ms 0 m.spaces.length) m store_after_fork := by
  rw [permits_user_eq, user_step_eq, disjoint_eq]
  decide +kernel

end Machine

end MyGOS.Mm
