import MyGOS.Mm.SyscallSteps

/-!
# Steps of the kernel on user buffers

`buffer_loop` maps what is not mapped yet, leaves the mapped pages alone, and
returns slices that cover exactly the bytes behind `[start, end_)`. What is
written to slices changes no other byte.
-/

namespace MyGOS.Mm

open Outcome

/-- Some slice has the byte `i` of the frame `ppn`. -/
def Covered (slices : List Slice) (ppn i : Nat) : Prop :=
  ∃ s ∈ slices, s.ppn = ppn ∧ s.offset ≤ i ∧ i < s.offset + s.len

theorem covered_cons {s : Slice} {slices : List Slice} {ppn i : Nat} :
    Covered (s :: slices) ppn i ↔
      (s.ppn = ppn ∧ s.offset ≤ i ∧ i < s.offset + s.len) ∨ Covered slices ppn i := by
  simp [Covered]

section Bytes

variable {ph : Phys} {ppn offset q i : Nat} {data : List UInt8}

theorem Phys.write_bytes (ph : Phys) (ppn offset : Nat) (data : List UInt8) (q i : Nat) :
    (ph.write ppn offset data).bytes q i =
      if q = ppn ∧ offset ≤ i then (data[i - offset]?).getD (ph.bytes q i) else ph.bytes q i := by
  rcases eq_or_ne q ppn with rfl | hne
  · simp [Phys.write]
  · simp [Phys.write, hne]

theorem Phys.write_bytes_outside (h : ¬ (q = ppn ∧ offset ≤ i ∧ i < offset + data.length)) :
    (ph.write ppn offset data).bytes q i = ph.bytes q i := by
  rw [Phys.write_bytes]
  split
  · rename_i hin
    rw [List.getElem?_eq_none]
    · rfl
    · by_contra hlt
      exact h ⟨hin.1, hin.2, by omega⟩
  · rfl

theorem write_slices_allocator (slices : List Slice) (ph : Phys) (data : List UInt8) :
    (write_slices ph slices data).allocator = ph.allocator := by
  induction slices generalizing ph data with
  | nil => rfl
  | cons s slices ih => exact ih _ _

theorem write_slices_outside {slices : List Slice} (h : ¬ Covered slices q i) :
    (write_slices ph slices data).bytes q i = ph.bytes q i := by
  induction slices generalizing ph data with
  | nil => rfl
  | cons s slices ih =>
    rw [covered_cons, not_or] at h
    rw [write_slices, ih h.2]
    refine Phys.write_bytes_outside fun hin => h.1 ⟨hin.1.symm, hin.2.1, ?_⟩
    have := List.length_take_le s.len data
    omega

/-- Enough copies of one byte reach every byte of the slices. -/
theorem write_slices_replicate {slices : List Slice} (h : Covered slices q i) (c : UInt8) {n : Nat}
    (hn : (slices.map Slice.len).sum ≤ n) :
    (write_slices ph slices (List.replicate n c)).bytes q i = c := by
  induction slices generalizing ph n with
  | nil =>
    obtain ⟨s, hs, _⟩ := h
    cases hs
  | cons s slices ih =>
    rw [List.map_cons, List.sum_cons] at hn
    rw [write_slices, List.take_replicate, List.drop_replicate]
    rcases Classical.em (Covered slices q i) with hrest | hrest
    · exact ih hrest (by omega)
    · obtain ⟨hppn, hle, hlt⟩ := (covered_cons.mp h).resolve_right hrest
      rw [write_slices_outside hrest, Phys.write_bytes, if_pos ⟨hppn.symm, hle⟩,
        List.getElem?_replicate, if_pos (by omega)]
      rfl

end Bytes

section Loop

variable {text : KernelImage} {E : Multiset Nat} {ms ms' ms'' : MemorySet} {ph ph' ph'' : Phys}
  {vpn start end_ : Nat}

/-- What translating a part of a user buffer does. -/
structure BufferStep (text : KernelImage) (E : Multiset Nat) (ms : MemorySet) (ph : Phys)
    (ms' : MemorySet) (ph' : Phys) : Prop where
  step : LocalStep text E ms ph ms' ph'
  kept : CowKept E ms ms'
  mapped : ∀ v pte, ms.translate v = some pte → ms'.translate v = some pte
  fresh : ∀ v pte, ms'.translate v = some pte → ms.translate v = none →
    pte.ppn ∉ E ∧ ph.allocator.base_num ≤ pte.ppn
  quiet : Quiet E ph ph'

theorem BufferStep.refl (hT : Tracked text ms) (h : Owned ph.allocator (ms.owned + E)) :
    BufferStep text E ms ph ms ph := by
  refine ⟨LocalStep.refl hT h, CowKept.refl ms, fun _ _ hv => hv, fun v pte hv hnone => ?_,
    Quiet.refl E ph⟩
  cases hv.symm.trans hnone

theorem BufferStep.trans (h : BufferStep text E ms ph ms' ph')
    (h' : BufferStep text E ms' ph' ms'' ph'') : BufferStep text E ms ph ms'' ph'' where
  step := h.step.trans h'.step
  kept := h.kept.trans h'.kept h'.step.calm
  mapped v pte hv := h'.mapped v pte (h.mapped v pte hv)
  fresh v pte hv hnone := by
    cases hv' : ms'.translate v with
    | none =>
      rw [← h.step.moves.base]
      exact h'.fresh v pte hv hv'
    | some pte' =>
      cases (h'.mapped v pte' hv').symm.trans hv
      exact h.fresh v pte hv' hnone
  quiet := h.quiet.trans h'.quiet h.step.moves.base

/-- A fault at a page that is not mapped. -/
theorem Served.bufferStep (hT : Tracked text ms) (h : Owned ph.allocator (ms.owned + E))
    (hs : Served text E ms ph vpn ms' ph') (hT' : Tracked text ms')
    (hnone : ms.translate vpn = none) : BufferStep text E ms ph ms' ph' := by
  obtain ⟨hstep, hkept⟩ := hs.steps hT h hT'
  cases hs with
  | refused => exact BufferStep.refl hT h
  | alone pte hpte => cases hnone.symm.trans hpte
  | copied pte p _ _ hpte => cases hnone.symm.trans hpte
  | touched p flags _ _ ht =>
    refine ⟨hstep, hkept, fun v pte hv => ?_, fun v pte hv hv' => ?_, ht.quiet⟩
    · rw [ht.translate v, if_neg]
      · exact hv
      · intro heq
        cases hnone.symm.trans ((PageTable.find_pte_congr _ heq).symm.trans hv)
    · rw [ht.translate v] at hv
      split at hv
      · cases hv
        refine ⟨fun hp => ht.fresh (Multiset.mem_add.mpr (Or.inr hp)), ?_⟩
        rw [← ht.moves.base]
        refine ht.moves.owned.base_le (Multiset.mem_add.mpr (Or.inl ?_))
        exact Multiset.mem_add.mpr (Or.inr (Multiset.mem_map_of_mem Prod.snd ht.put.mem))
      · cases hv'.symm.trans hv

theorem buffer_frame_meets (hT : Tracked text ms) (h : Owned ph.allocator (ms.owned + E))
    (start : Nat) :
    Meets (buffer_frame ms ph start) (fun _ => True) fun r =>
      BufferStep text E ms ph r.2.1 r.2.2 ∧
        ∃ pte, r.2.1.translate (floor start) = some pte ∧ pte.ppn = r.1 := by
  unfold buffer_frame
  split
  · rename_i pte hpte
    exact ⟨BufferStep.refl hT h, pte, hpte, rfl⟩
  · rename_i hnone
    refine (check_lazy_meets hT h start).bind ?_
    rintro ⟨r, ms', ph'⟩ ⟨hT', hserved⟩
    dsimp only
    split
    · trivial
    · split
      · rename_i pte hpte
        exact ⟨hserved.bufferStep hT h hT' hnone, pte, hpte, rfl⟩
      · trivial

/-- An end in the last page of the address space is never reached. -/
theorem buffer_loop_last_page (hend : 2 ^ 64 - PAGE_SIZE < end_) (fuel : Nat) :
    ∀ (start : Nat) (ms : MemorySet) (ph : Phys), start < end_ →
      Meets (buffer_loop end_ fuel start ms ph) (fun _ => True) fun _ => False := by
  induction fuel with
  | zero => exact fun _ _ _ _ => trivial
  | succ fuel ih =>
    intro start ms ph hlt
    rw [buffer_loop, if_pos hlt]
    refine Meets.bind (Q := fun _ => True) ?_ ?_
    · cases buffer_frame ms ph start <;> trivial
    · rintro ⟨ppn, ms', ph'⟩ _
      dsimp only
      generalize (if page_offset _ = 0 then PAGE_SIZE else _) = stop
      split
      · trivial
      · refine (ih _ ms' ph' ?_).bind fun _ => False.elim
        simp only [floor, PAGE_SIZE] at hend ⊢
        omega

/-- The byte `i` of the frame `ppn` is behind an address of the range. -/
def Behind (ms : MemorySet) (start end_ ppn i : Nat) : Prop :=
  ∃ va, start ≤ va ∧ va < end_ ∧ page_offset va = i ∧
    ∃ pte, ms.translate (floor va) = some pte ∧ pte.ppn = ppn

/-- The part of the range in the page of its start, and the rest. -/
theorem behind_split {next : Nat} (hnext : next = min ((floor start + 1) * PAGE_SIZE) end_)
    (hlt : start < end_) {pte : PageTableEntry} (hpte : ms.translate (floor start) = some pte)
    (ppn i : Nat) :
    Behind ms start end_ ppn i ↔
      (pte.ppn = ppn ∧ page_offset start ≤ i ∧
        i < if page_offset next = 0 then PAGE_SIZE else page_offset next) ∨
        Behind ms next end_ ppn i := by
  have hpage (va : Nat) (hle : start ≤ va) (hva : va < next) :
      floor va = floor start ∧ page_offset start ≤ page_offset va ∧
        page_offset va < if page_offset next = 0 then PAGE_SIZE else page_offset next := by
    split <;> simp only [floor, page_offset, PAGE_SIZE] at * <;> omega
  constructor
  · rintro ⟨va, hle, hva, hi, pte', hpte', hppn⟩
    rcases Nat.lt_or_ge va next with hin | hout
    · obtain ⟨hfloor, hlo, hhi⟩ := hpage va hle hin
      rw [hfloor] at hpte'
      cases hpte.symm.trans hpte'
      rw [← hi]
      exact Or.inl ⟨hppn, hlo, hhi⟩
    · exact Or.inr ⟨va, hout, hva, hi, pte', hpte', hppn⟩
  · rintro (⟨hppn, hlo, hhi⟩ | ⟨va, hle, hva, hrest⟩)
    · have hva : floor start * PAGE_SIZE + i < next ∧ start ≤ floor start * PAGE_SIZE + i ∧
          page_offset (floor start * PAGE_SIZE + i) = i ∧
          floor (floor start * PAGE_SIZE + i) = floor start := by
        split at hhi <;> simp only [floor, page_offset, PAGE_SIZE] at * <;> omega
      refine ⟨_, hva.2.1, by omega, hva.2.2.1, pte, ?_, hppn⟩
      rw [hva.2.2.2]
      exact hpte
    · refine ⟨va, ?_, hva, hrest⟩
      simp only [floor, PAGE_SIZE] at *
      omega

theorem buffer_loop_meets (hend : end_ < 2 ^ 64) (fuel : Nat) :
    ∀ {start : Nat} {ms : MemorySet} {ph : Phys}, Tracked text ms →
      Owned ph.allocator (ms.owned + E) →
      Meets (buffer_loop end_ fuel start ms ph) (fun _ => True) fun r =>
        BufferStep text E ms ph r.2.1 r.2.2 ∧
          ∀ ppn i, Covered r.1 ppn i ↔ Behind r.2.1 start end_ ppn i := by
  induction fuel with
  | zero => exact fun _ _ => trivial
  | succ fuel ih =>
    intro start ms ph hT h
    rcases Nat.lt_or_ge start end_ with hlt | hge
    · rcases Nat.lt_or_ge (2 ^ 64 - PAGE_SIZE) end_ with hlast | hend'
      · exact (buffer_loop_last_page hlast _ start ms ph hlt).mono fun _ => False.elim
      · rw [buffer_loop, if_pos hlt]
        refine (buffer_frame_meets hT h start).bind ?_
        rintro ⟨ppn, ms₁, ph₁⟩ ⟨hstep, pte, hpte, rfl⟩
        have hnext : min ((floor start + 1) * PAGE_SIZE % 2 ^ 64) end_ =
            min ((floor start + 1) * PAGE_SIZE) end_ := by
          simp only [floor, PAGE_SIZE] at *
          omega
        dsimp only at hpte ⊢
        generalize hstop' : (if page_offset _ = 0 then PAGE_SIZE else _) = stop
        split
        · trivial
        · rename_i hstop
          refine (ih hstep.step.tracked hstep.step.moves.owned).bind ?_
          rintro ⟨slices, ms₂, ph₂⟩ ⟨hstep', hcovered⟩
          refine ⟨hstep.trans hstep', fun ppn i => ?_⟩
          rw [behind_split hnext hlt (hstep'.mapped _ _ hpte) ppn i, covered_cons, hcovered ppn i]
          rw [hstop']
          dsimp only
          rw [Nat.add_sub_cancel' (Nat.not_lt.mp hstop)]
    · rw [buffer_loop, if_neg (Nat.not_lt.mpr hge)]
      refine ⟨BufferStep.refl hT h, fun ppn i => ⟨?_, ?_⟩⟩
      · rintro ⟨s, hs, _⟩
        cases hs
      · rintro ⟨va, hle, hva, _⟩
        omega

theorem virt_addr_lt (value : Nat) : virt_addr value < 2 ^ 64 := by
  unfold virt_addr
  split <;> omega

/-- The end of a user buffer. -/
def buffer_end (ptr len : Nat) : Nat := virt_addr ((virt_addr ptr + len) % 2 ^ 64)

theorem translated_bytes_buffer_meets (hT : Tracked text ms)
    (h : Owned ph.allocator (ms.owned + E)) (ptr len : Nat) :
    Meets (translated_bytes_buffer ms ph ptr len) (fun _ => True) fun r =>
      BufferStep text E ms ph r.2.1 r.2.2 ∧
        ∀ ppn i, Covered r.1 ppn i ↔ Behind r.2.1 (virt_addr ptr) (buffer_end ptr len) ppn i :=
  buffer_loop_meets (virt_addr_lt _) _ hT h

theorem write_user_steps (hT : Tracked text ms) (h : Owned ph.allocator (ms.owned + E))
    (ptr len : Nat) (data : List UInt8) :
    Meets (write_user ms ph ptr len data) (fun _ => True) fun r =>
      LocalStep text E ms ph r.1 r.2 ∧ CowKept E ms r.1 := by
  refine (translated_bytes_buffer_meets hT h ptr len).bind ?_
  rintro ⟨slices, ms', ph'⟩ ⟨⟨hstep, hkept, _⟩, _⟩
  refine ⟨⟨hstep.tracked, ⟨?_, ?_⟩, hstep.calm⟩, hkept⟩
  · rw [write_slices_allocator]
    exact hstep.moves.owned
  · rw [write_slices_allocator]
    exact hstep.moves.base

end Loop

end MyGOS.Mm
