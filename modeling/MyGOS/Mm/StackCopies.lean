import MyGOS.Lib.CMemory
import MyGOS.Mm.BufferCover
import MyGOS.Mm.FaultRegions

/-!
# Copies to a stack that is not mapped yet

The pages of a user stack are mapped when they are touched, by the user or by
the kernel. Wherever the kernel writes, what was on the stack stays, and the
only way to fail is that the memory runs out.
-/

namespace MyGOS.Mm

open Outcome CMemory

def user_stack_bottom : Nat := USER_STACK_BASE - USER_STACK_SIZE

variable {text : KernelImage} {E : Multiset Nat} {ms ms' ms'' : MemorySet} {ph ph' ph'' : Phys}
  {va start end_ ptr n : Nat} {slices : List Slice} {data : List UInt8}

def InUserStack (va : Nat) : Prop := user_stack_bottom ≤ va ∧ va < USER_STACK_BASE

theorem Laid.onStack_iff (h : Laid ms) : ms.OnStack va ↔ InUserStack va := by
  rw [MemorySet.OnStack, h.stack_start, h.stack_end]
  rfl

/-- An address space whose stack pages, as far as there are any, have frames that it has no other
tracker of. -/
structure Grounded (text : KernelImage) (E : Multiset Nat) (ms : MemorySet) (ph : Phys) :
    Prop where
  laid : Laid ms
  tracked : Tracked text ms
  owned : Owned ph.allocator (ms.owned + E)
  own : ∀ va pte k, InUserStack va → ms.translate (floor va) = some pte →
    (k, pte.ppn) ∈ ms.slots → k = index (floor va)

/-- More pages are mapped, and what was on the stack is still there. -/
structure StackGrown (ms : MemorySet) (ph : Phys) (ms' : MemorySet) (ph' : Phys) : Prop where
  mapped : ∀ v pte, ms.translate v = some pte → ms'.translate v = some pte
  view : ∀ va, InUserStack va → ∀ b, ms.view ph va = some b → ms'.view ph' va = some b

theorem StackGrown.trans (h : StackGrown ms ph ms' ph') (h' : StackGrown ms' ph' ms'' ph'') :
    StackGrown ms ph ms'' ph'' where
  mapped v pte hv := h'.mapped v pte (h.mapped v pte hv)
  view va hva b hb := h'.view va hva b (h.view va hva b hb)

theorem StackGrown.refl (ms : MemorySet) (ph : Phys) : StackGrown ms ph ms ph :=
  ⟨fun _ _ h => h, fun _ _ _ h => h⟩

theorem InUserStack.index_lt (h : InUserStack va) : index (floor va) < 2 ^ 26 := by
  have hlt := h.2
  simp only [index, floor, PAGE_SIZE, USER_STACK_BASE] at hlt ⊢
  omega

/-- A trampoline is not on the stack. -/
theorem Tracked.stack_slot (h : Tracked text ms) (hstack : InUserStack va) {pte : PageTableEntry}
    (hpte : ms.translate (floor va) = some pte) : (index (floor va), pte.ppn) ∈ ms.slots := by
  have htop := hstack.index_lt
  refine (h.mapped _ pte hpte).resolve_left ?_
  rintro (⟨hindex, _⟩ | ⟨hindex, _⟩)
  · rw [hindex] at htop
    exact absurd htop (by decide)
  · rw [hindex] at htop
    exact absurd htop (by decide)

theorem Grounded.slot (h : Grounded text E ms ph) (hstack : InUserStack va) {pte : PageTableEntry}
    (hpte : ms.translate (floor va) = some pte) : (index (floor va), pte.ppn) ∈ ms.slots :=
  h.tracked.stack_slot hstack hpte

theorem InUserStack.index_inj {va' : Nat} (h : InUserStack va) (h' : InUserStack va')
    (heq : index (floor va) = index (floor va')) : floor va = floor va' := by
  have hlt := h.2
  have hlt' := h'.2
  simp only [index, floor, PAGE_SIZE, USER_STACK_BASE] at heq hlt hlt' ⊢
  omega

theorem Grounded.floor_eq (h : Grounded text E ms ph) {va' : Nat} {pte pte' : PageTableEntry}
    (hva : InUserStack va) (hva' : InUserStack va') (hpte : ms.translate (floor va) = some pte)
    (hpte' : ms.translate (floor va') = some pte') (heq : pte.ppn = pte'.ppn) :
    floor va = floor va' := by
  have hslot := h.slot hva' hpte'
  rw [← heq] at hslot
  exact (hva'.index_inj hva (h.own va pte _ hva hpte hslot)).symm

/-- No frame has two trackers after `load_elf`. -/
theorem load_elf_grounded {elf : ElfFile} (h : Owned ph.allocator E)
    (hok : MemorySet.load_elf text elf ph = .ok (ms, ph')) : Grounded text E ms ph' := by
  have hl := ((load_elf_meets text elf h).of_ok hok).1
  refine ⟨load_elf_laid hok, hl.tracked, hl.owned, fun va pte k hva hpte hslot => ?_⟩
  refine by_contra fun hne => ?_
  have htwo := two_le_count hslot (hl.tracked.stack_slot hva hpte) hne
  have hcalm : (ms.owned + E).count pte.ppn ≤ max (E.count pte.ppn) 1 := hl.calm pte.ppn
  rw [Multiset.count_add] at hcalm
  omega

/-- No byte of a frame in use changes when a page of the stack is mapped. -/
theorem lazy_alloc_stack_quiet (hl : Laid ms) (h : Owned ph.allocator (ms.owned + E)) {vpn : Nat}
    (hnone : ms.translate vpn = none) :
    Meets (ms.lazy_alloc_stack ph vpn) (· = .outOfMemory) fun r => Quiet (ms.owned + E) ph r.2 := by
  unfold MemorySet.lazy_alloc_stack
  simp only [VmArea.lazy_map_vpn, hl.stack_framed, FrameMap.insert_new, bind_assoc]
  refine (Phys.alloc_frame_moves h).bind ?_
  rintro ⟨frame, ph₁⟩ ⟨_, _, hmoves, _, hquiet⟩
  have howned : Owned ph₁.allocator
      (ms.page_table.owned + (frame.ppn ::ₘ (ms.slots.map Prod.snd + E))) := by
    have := hmoves.owned
    rwa [MemorySet.owned, Multiset.cons_add, add_assoc, ← Multiset.add_cons] at this
  simp only [FrameMap.insert_frame, MemorySet.untracked hl.stack_frames hnone]
  refine ((PageTable.map_meets howned vpn frame.ppn _).mono_error ?_).bind ?_
  · rintro e (he | hbusy)
    · exact he
    · cases hbusy.symm.trans (congrArg Option.isSome hnone)
  · rintro ⟨pt, ph₂⟩ ⟨_, hgrows, _⟩
    refine hquiet.trans (hgrows.quiet.mono fun q hq => ?_) hmoves.base
    rw [MemorySet.owned, add_assoc] at hq
    rw [Multiset.add_cons]
    exact Multiset.mem_cons_of_mem hq

theorem view_eq_some {b : UInt8} : ms.view ph va = some b ↔
    ∃ pte, ms.translate (floor va) = some pte ∧ ph.bytes pte.ppn (page_offset va) = b :=
  Option.map_eq_some_iff

/-- A page of the stack is mapped. -/
theorem Grounded.fault (h : Grounded text E ms ph) (hstack : InUserStack va)
    (hnone : ms.translate (floor va) = none) :
    Meets (ms.check_lazy ph va) (· = .outOfMemory) fun r => r.1 = 0 ∧
      Grounded text E r.2.1 r.2.2 ∧ (∃ pte, r.2.1.translate (floor va) = some pte) ∧
        StackGrown ms ph r.2.1 r.2.2 := by
  rw [MemorySet.check_lazy_unmapped ph h.laid hnone, if_pos (h.laid.onStack_iff.mpr hstack)]
  have hlazy := ((lazy_alloc_stack_quiet h.laid h.owned hnone).and_ok fun _ hok =>
    (lazy_alloc_stack_meets h.tracked h.owned (floor va)).of_ok hok).and_ok fun _ hok =>
      (lazy_alloc_stack_ok hok).1
  rw [← bind_pure_comp]
  refine hlazy.bind ?_
  rintro ⟨ms', ph'⟩ ⟨⟨hquiet, p, flags, ht⟩, hkeeps⟩
  dsimp only at hquiet ht hkeeps
  have hlaid := h.laid.keeps hkeeps
  have hself : ms'.translate (floor va) = some ⟨p, flags⟩ := (ht.translate _).trans (if_pos rfl)
  have hmapped (v : Nat) (pte : PageTableEntry) (hv : ms.translate v = some pte) :
      ms'.translate v = some pte := by
    rw [ht.translate v, if_neg]
    · exact hv
    · intro heq
      cases hnone.symm.trans ((PageTable.find_pte_congr _ heq).symm.trans hv)
  -- a tracker is the new one, or it was there before
  have hslots (k q : Nat) (hk : (k, q) ∈ ms'.slots) :
      k = index (floor va) ∧ q = p ∨ (k, q) ∈ ms.slots ∧ q ≠ p := by
    rcases Multiset.mem_cons.mp (Multiset.mem_of_le ht.put.le hk) with heq | hold
    · exact Or.inl (Prod.mk.inj heq)
    · refine Or.inr ⟨hold, ?_⟩
      rintro rfl
      exact ht.fresh (Multiset.mem_add.mpr (Or.inl (mem_owned_of_slots hold)))
  refine ⟨rfl, ⟨hlaid, ht.tracked, ht.moves.owned, ?_⟩, ⟨_, hself⟩, hmapped, ?_⟩
  · intro a pte k ha hpte hslot
    rw [ht.translate] at hpte
    split at hpte
    · rename_i heq
      cases hpte
      rcases hslots k p hslot with ⟨hk, _⟩ | ⟨_, hne⟩
      · exact hk.trans heq.symm
      · exact absurd rfl hne
    · rename_i hne
      rcases hslots k _ hslot with ⟨_, hp⟩ | ⟨hold, _⟩
      · have howned := mem_owned_of_slots (h.slot ha hpte)
        rw [hp] at howned
        exact absurd (Multiset.mem_add.mpr (Or.inl howned)) ht.fresh
      · exact h.own a pte k ha hpte hold
  · intro a ha b hb
    obtain ⟨pte, hpte, hbyte⟩ := view_eq_some.mp hb
    have howned := mem_owned_of_slots (h.slot ha hpte)
    rw [view_eq_some]
    refine ⟨pte, hmapped _ pte hpte, ?_⟩
    rw [hquiet _ (Or.inl (Multiset.mem_add.mpr (Or.inl howned))), hbyte]

theorem Grounded.buffer_frame (h : Grounded text E ms ph) (hstack : InUserStack va) :
    Meets (buffer_frame ms ph va) (· = .outOfMemory) fun r =>
      Grounded text E r.2.1 r.2.2 ∧
        (∃ pte, r.2.1.translate (floor va) = some pte ∧ r.1 = pte.ppn) ∧
        StackGrown ms ph r.2.1 r.2.2 := by
  unfold Mm.buffer_frame
  cases hpte : ms.translate (floor va) with
  | some pte => exact ⟨h, ⟨pte, hpte, rfl⟩, StackGrown.refl ms ph⟩
  | none =>
    refine (h.fault hstack hpte).bind ?_
    rintro ⟨c, ms', ph'⟩ ⟨hzero, hg, ⟨pte, hpte'⟩, hgrown⟩
    dsimp only at hzero hg hpte' hgrown ⊢
    rw [if_neg (not_not.mpr hzero), hpte']
    exact ⟨hg, ⟨pte, hpte', rfl⟩, hgrown⟩

theorem Spans.mapped (h : Spans ms end_ start slices)
    (hmapped : ∀ v pte, ms.translate v = some pte → ms'.translate v = some pte) :
    Spans ms' end_ start slices := by
  induction slices generalizing start with
  | nil => exact h
  | cons s slices ih =>
    obtain ⟨⟨pte, hpte, hppn⟩, hoffset, hpos, hstop, hpage, hrest⟩ := h
    exact ⟨⟨pte, hmapped _ _ hpte, hppn⟩, hoffset, hpos, hstop, hpage, ih hrest⟩

/-- The loop over the pages of a buffer on the stack, by induction on the pages. -/
theorem Grounded.buffer_loop (hend : end_ ≤ USER_STACK_BASE) (fuel : Nat) :
    ∀ {start : Nat} {ms : MemorySet} {ph : Phys}, Grounded text E ms ph →
      user_stack_bottom ≤ start →
      (end_ ≤ start ∧ 0 < fuel ∨ start < end_ ∧ floor end_ + 2 ≤ floor start + fuel) →
      Meets (buffer_loop end_ fuel start ms ph) (· = .outOfMemory) fun r =>
        Grounded text E r.2.1 r.2.2 ∧ Spans r.2.1 end_ start r.1 ∧
          StackGrown ms ph r.2.1 r.2.2 := by
  induction fuel with
  | zero =>
    rintro start ms ph _ _ (⟨_, hfuel⟩ | ⟨hlt, hfuel⟩)
    · exact absurd hfuel (Nat.lt_irrefl 0)
    · simp only [floor, PAGE_SIZE] at hfuel
      omega
  | succ fuel ih =>
    rintro start ms ph h hstart (⟨hle, _⟩ | ⟨hlt, hfuel⟩)
    · rw [Mm.buffer_loop, if_neg (by omega)]
      exact ⟨h, hle, StackGrown.refl ms ph⟩
    · have huser : end_ ≤ 2 ^ 38 := hend.trans (by decide)
      generalize hnext : min ((floor start + 1) * PAGE_SIZE % 2 ^ 64) end_ = next
      generalize hstop : (if page_offset next = 0 then PAGE_SIZE else page_offset next) = stop
      obtain ⟨⟨hsn, hne, hos, hsum, hpage⟩, hleft⟩ := page_step huser hlt hfuel hnext hstop
      rw [Mm.buffer_loop, if_pos hlt]
      refine (h.buffer_frame ⟨hstart, hlt.trans_le hend⟩).bind ?_
      rintro ⟨ppn, ms₁, ph₁⟩ ⟨h₁, ⟨pte, hpte, rfl⟩, hgrown₁⟩
      dsimp only at h₁ hpte hgrown₁ ⊢
      rw [hnext, hstop, if_neg (by omega)]
      refine (ih h₁ (by omega) hleft).bind ?_
      rintro ⟨slices, ms₂, ph₂⟩ ⟨h₂, hspans, hgrown₂⟩
      refine ⟨h₂, ⟨⟨pte, hgrown₂.mapped _ _ hpte, rfl⟩, rfl, ?_, ?_, ?_, ?_⟩,
        hgrown₁.trans hgrown₂⟩
      · dsimp only
        omega
      · dsimp only
        omega
      · dsimp only
        omega
      · dsimp only
        rw [hsum]
        exact hspans

/-- The slices lie on mapped pages. -/
theorem Spans.isSome (h : Spans ms (ptr + n) ptr slices) (hle : ptr ≤ va) (hlt : va < ptr + n) :
    ms.translate (floor va) ≠ none := by
  have hplaces := h.places (Nat.le_add_right _ _)
  rw [Nat.add_sub_cancel_left] at hplaces
  have hmem : ms.page_table.translate_va va ∈ (Mm.places slices).map some := by
    rw [hplaces]
    exact List.mem_map_of_mem (List.mem_range'_1.mpr ⟨hle, hlt⟩)
  obtain ⟨place, _, hplace⟩ := List.mem_map.mp hmem
  obtain ⟨pte, hpte, _⟩ := Option.map_eq_some_iff.mp hplace.symm
  exact fun hnone => by cases hnone.symm.trans hpte

/-- The part of a stack that is mapped. -/
theorem Grounded.stack (h : Grounded text E ms ph) (hlo : user_stack_bottom ≤ start)
    (hhi : end_ ≤ USER_STACK_BASE)
    (hmapped : ∀ va, start ≤ va → va < end_ → ms.translate (floor va) ≠ none) :
    ms.Stack start end_ where
  user := hhi.trans (by decide)
  mapped := hmapped
  own va va' pte pte' hle hlt hle' hlt' :=
    h.floor_eq ⟨hlo.trans hle, hlt.trans_le hhi⟩ ⟨hlo.trans hle', hlt'.trans_le hhi⟩

/-- A byte of the stack outside the buffer is not behind its slices. -/
theorem Grounded.notCovered (h : Grounded text E ms ph) (hspans : Spans ms (ptr + n) ptr slices)
    (hlo : user_stack_bottom ≤ ptr) (hhi : ptr + n ≤ USER_STACK_BASE) (hva : InUserStack va)
    (hout : ¬ (ptr ≤ va ∧ va < ptr + n)) {pte : PageTableEntry}
    (hpte : ms.translate (floor va) = some pte) : ¬ Covered slices pte.ppn (page_offset va) := by
  intro hcovered
  have hplaces := hspans.places (Nat.le_add_right _ _)
  rw [Nat.add_sub_cancel_left] at hplaces
  have hmem : some (pte.ppn, page_offset va) ∈ (places slices).map some :=
    List.mem_map_of_mem (mem_places.mpr hcovered)
  rw [hplaces] at hmem
  obtain ⟨a, ha, hplace⟩ := List.mem_map.mp hmem
  rw [List.mem_range'_1] at ha
  obtain ⟨pte', hpte', heq⟩ := Option.map_eq_some_iff.mp hplace
  obtain ⟨hppn, hoffset⟩ := Prod.mk.inj heq
  have hfloor := h.floor_eq ⟨hlo.trans ha.1, ha.2.trans_le hhi⟩ hva hpte' hpte hppn
  refine hout ?_
  have hsame : a = va := by
    simp only [floor, page_offset, PAGE_SIZE] at hfloor hoffset
    omega
  rwa [← hsame]

/-- What a copy to the stack leaves. -/
structure Pushed (text : KernelImage) (E : Multiset Nat) (ms : MemorySet) (ph : Phys) (ptr : Nat)
    (data : List UInt8) (ms' : MemorySet) (ph' : Phys) : Prop where
  grounded : Grounded text E ms' ph'
  mapped : ∀ v pte, ms.translate v = some pte → ms'.translate v = some pte
  holds : Holds (ms'.view ph') ptr data
  kept : ∀ va, InUserStack va → ¬ (ptr ≤ va ∧ va < ptr + data.length) →
    ∀ b, ms.view ph va = some b → ms'.view ph' va = some b

theorem Grounded.of_allocator (h : Grounded text E ms ph) (ha : ph'.allocator = ph.allocator) :
    Grounded text E ms ph' :=
  { h with
    owned := by
      rw [ha]
      exact h.owned }

theorem Grounded.copyout (h : Grounded text E ms ph) (hpos : data ≠ [])
    (hlo : user_stack_bottom ≤ ptr) (hhi : ptr + data.length ≤ USER_STACK_BASE) :
    Meets (copyout ms ph ptr data) (· = .outOfMemory) fun r =>
      Pushed text E ms ph ptr data r.1 r.2 := by
  have hlen := List.length_pos_iff.mpr hpos
  have huser : ptr + data.length < 2 ^ 38 := hhi.trans_lt (by decide)
  have hptr : virt_addr ptr = ptr := virt_addr_of_lt (by omega)
  have hend : virt_addr ((ptr + data.length) % 2 ^ 64) = ptr + data.length := by
    rw [Nat.mod_eq_of_lt (by omega), virt_addr_of_lt (by omega)]
  have hbuffer : Meets (translated_bytes_buffer ms ph ptr data.length) (· = .outOfMemory) fun r =>
      Grounded text E r.2.1 r.2.2 ∧ Spans r.2.1 (ptr + data.length) ptr r.1 ∧
        StackGrown ms ph r.2.1 r.2.2 := by
    rw [translated_bytes_buffer, hptr, hend]
    exact Grounded.buffer_loop hhi _ h hlo (by simp only [floor, PAGE_SIZE]; omega)
  cases hok : translated_bytes_buffer ms ph ptr data.length with
  | error e =>
    rw [Mm.copyout, hok]
    exact hbuffer.error hok
  | ok r =>
    obtain ⟨slices, ms', ph'⟩ := r
    obtain ⟨hg, hspans, hgrown⟩ := hbuffer.of_ok hok
    dsimp only at hg hspans hgrown
    rw [copyout_ok hlen hok hspans rfl]
    have hstack := hg.stack hlo hhi fun va hle hlt => hspans.isSome hle hlt
    refine ⟨hg.of_allocator (write_slices_allocator slices ph' data), hgrown.mapped,
      fun i hi => ?_, fun va hva hout b hb => ?_⟩
    · rw [hstack.view_write_slices hspans le_rfl le_rfl rfl (Nat.le_add_right _ _) (by omega),
        if_pos (by omega), Nat.add_sub_cancel_left]
    · obtain ⟨pte, hpte, hbyte⟩ := view_eq_some.mp (hgrown.view va hva b hb)
      refine view_eq_some.mpr ⟨pte, hpte, ?_⟩
      rw [write_slices_outside (hg.notCovered hspans hlo hhi hva hout hpte), hbyte]

end MyGOS.Mm
