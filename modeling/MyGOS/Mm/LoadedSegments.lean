import MyGOS.Mm.FilePages
import MyGOS.Mm.KernelWrites

/-!
# Loading segments

`load_elf` maps the pages of a segment with new frames and copies the bytes of
the file page by page. What a program finds there is the bytes of the file where
the segment has them and zeros elsewhere on its pages.
-/

namespace MyGOS.Fs.FsState

open Outcome FlatArray

theorem kernel_read_ok {s : FsState} {h offset len : Nat} {k : KFile} {f : FlatFile}
    (hk : s.kfile h = .ok k) (hm : s.Mirrors k.inode f) (hlen : offset + len ≤ f.size) :
    ∃ s', s.kernel_read_with_offset h offset len = .ok (slice f.bytes offset len, s') ∧
      s'.Mirrors k.inode f ∧ ∀ h', s'.kfile h' = s.kfile h' := by
  obtain ⟨c, hc, hholds⟩ := hm.pages
  have hlt := hm.size_lt
  have hend : offset + len < 2 ^ 64 := by omega
  obtain ⟨⟨buf, offset', c'⟩, hread, hbuf, _, hholds'⟩ :=
    (PageCache.read_slice_meets le_rfl hholds hend).exists_ok
  dsimp only at hbuf hholds'
  refine ⟨s.set_page_cache k.inode c', ?_, hm.set_pages hholds', fun _ => rfl⟩
  rw [kernel_read_with_offset, hk, ok_bind, page_cache, hc, ok_bind, hread, ← hbuf]
  rfl

end MyGOS.Fs.FsState

namespace MyGOS.Mm

open Outcome FlatArray

/-- A file with the bytes that reads of it give. -/
structure Image where
  file : File
  bytes : Nat → UInt8
  size : Nat
  reads : ∀ offset len, offset + len ≤ size → file.read offset len = slice bytes offset len

/-- The file `k` with the handle `h` as a program. The reads leave it as it is. -/
def Image.of_kfile {s : Fs.FsState} {h : Nat} {k : Fs.KFile} {f : Fs.FlatFile}
    (hk : s.kfile h = .ok k) (hm : s.Mirrors k.inode f) : Image where
  file :=
    { seekable := true
      readable := k.readable
      file_size := f.size
      takes := fun _ _ => true
      read := fun offset len =>
        match s.kernel_read_with_offset h offset len with
        | .ok (buf, _) => buf
        | .error _ => [] }
  bytes := f.bytes
  size := f.size
  reads offset len hlen := by
    obtain ⟨s', hread, _⟩ := s.kernel_read_ok hk hm hlen
    dsimp only
    rw [hread]

section Copy

variable {ph ph' ph'' : Phys} {q first last vpn start at_ len : Nat} {p : Nat → Nat}
  {bytes : Nat → UInt8}

/-- On the pages `[first, last)`, which `p` maps, `len` bytes were copied to `at_`; nothing else
was written. -/
structure Filled (p : Nat → Nat) (first last : Nat) (bytes : Nat → UInt8) (start at_ len : Nat)
    (ph ph' : Phys) : Prop where
  allocator : ph'.allocator = ph.allocator
  inside : ∀ va, first ≤ floor va → floor va < last →
    ph'.bytes (p (floor va)) (page_offset va) =
      if at_ ≤ va ∧ va < at_ + len then bytes (start + (va - at_))
      else ph.bytes (p (floor va)) (page_offset va)
  outside : ∀ q, (∀ v, first ≤ v → v < last → p v ≠ q) → ph'.bytes q = ph.bytes q

/-- One range of a page. -/
theorem Filled.write (hp : ∀ v w, first ≤ v → v < last → first ≤ w → w < last → p v = p w → v = w)
    (hfirst : first ≤ vpn) (hlast : vpn < last) {offset : Nat} (hlen : offset + len ≤ PAGE_SIZE) :
    Filled p first last bytes start (vpn * PAGE_SIZE + offset) len ph
      (ph.write (p vpn) offset (slice bytes start len)) where
  allocator := rfl
  inside va hva hva' := by
    have hsplit : floor va * PAGE_SIZE + page_offset va = va := Nat.div_add_mod' va PAGE_SIZE
    have hpage := Nat.mod_lt va (by decide : 0 < PAGE_SIZE)
    rcases eq_or_ne (floor va) vpn with rfl | hne
    · rcases Decidable.em (offset ≤ page_offset va ∧ page_offset va < offset + len) with hin | hout
      · have hi : page_offset va - offset < len := by omega
        rw [if_pos (by omega), Phys.write_bytes, if_pos ⟨rfl, hin.1⟩, slice, List.getElem?_map,
          List.getElem?_range' hi]
        simp only [Option.map_some, Option.getD_some]
        congr 1
        omega
      · rw [if_neg (by omega), Phys.write_bytes_outside]
        rw [length_slice]
        exact fun hin => hout hin.2
    · have hout : ¬ (vpn * PAGE_SIZE + offset ≤ va ∧ va < vpn * PAGE_SIZE + offset + len) := by
        rintro ⟨hle, hlt⟩
        exact hne (Nat.div_eq_of_lt_le (by omega) (by rw [Nat.succ_mul]; omega))
      rw [if_neg hout, Phys.write_bytes_outside]
      exact fun hin => hne (hp _ _ hva hva' hfirst hlast hin.1)
  outside q hq := Function.update_of_ne (hq vpn hfirst hlast).symm _ _

/-- One range after the other. -/
theorem Filled.trans {n : Nat} (h : Filled p first last bytes start at_ len ph ph')
    (h' : Filled p first last bytes (start + len) (at_ + len) n ph' ph'') :
    Filled p first last bytes start at_ (len + n) ph ph'' where
  allocator := h'.allocator.trans h.allocator
  inside va hva hva' := by
    rw [h'.inside va hva hva', h.inside va hva hva']
    rcases Nat.lt_or_ge va (at_ + len) with hlt | hge
    · rw [if_neg (by omega)]
      refine if_congr ?_ rfl rfl
      omega
    · have hnot : ¬ (at_ ≤ va ∧ va < at_ + len) := by omega
      rw [if_neg hnot]
      refine if_ctx_congr (by omega) (fun _ => ?_) fun _ => rfl
      congr 1
      omega
  outside q hq := (h'.outside q hq).trans (h.outside q hq)

/-- The loop of `copy_data`, by induction on the rounds: the file offset, the rest of the length
and the place in the pages move on together. -/
theorem copy_loop_fills (image : Image) {data_start : Nat} {pt : PageTable}
    (hpages : ∀ v, first ≤ v → v < last → ∃ pte, pt.translate v = some pte ∧ pte.ppn = p v)
    (hp : ∀ v w, first ≤ v → v < last → first ≤ w → w < last → p v = p w → v = w) (fuel : Nat) :
    ∀ (offset data_len page_offset vpn : Nat) (ph : Phys), first ≤ vpn → vpn < last →
      page_offset < PAGE_SIZE → vpn * PAGE_SIZE + page_offset + data_len ≤ last * PAGE_SIZE →
      page_offset + data_len < fuel * PAGE_SIZE → data_start + offset + data_len ≤ image.size →
      ∃ ph', VmArea.copy_loop image.file data_start pt fuel offset data_len page_offset vpn ph =
          .ok ph' ∧
        Filled p first last image.bytes (data_start + offset) (vpn * PAGE_SIZE + page_offset)
          data_len ph ph' := by
  induction fuel with
  | zero =>
    intro offset data_len page_offset vpn ph _ _ _ _ hfuel
    rw [Nat.zero_mul] at hfuel
    cases hfuel
  | succ fuel ih =>
    intro offset data_len page_offset vpn ph hfirst hlast hoffset hend hfuel hsize
    rw [Nat.succ_mul] at hfuel
    obtain ⟨pte, hpte, hframe⟩ := hpages vpn hfirst hlast
    have htake : (slice image.bytes (data_start + offset) (min data_len PAGE_SIZE)).take
        (min data_len (PAGE_SIZE - page_offset)) =
        slice image.bytes (data_start + offset) (min data_len (PAGE_SIZE - page_offset)) := by
      rw [slice, slice, ← List.map_take, List.take_range'_of_length_ge (by omega)]
    rw [VmArea.copy_loop]
    dsimp only
    rw [image.reads _ _ (by omega), length_slice, if_neg (by omega), hpte, htake]
    dsimp only
    rw [hframe]
    have hround : Filled p first last image.bytes (data_start + offset)
        (vpn * PAGE_SIZE + page_offset) (min data_len (PAGE_SIZE - page_offset)) ph _ :=
      Filled.write hp hfirst hlast (by omega)
    split
    · rename_i hdone
      have hlen : min data_len (PAGE_SIZE - page_offset) = data_len := by omega
      rw [hlen] at hround ⊢
      exact ⟨_, rfl, hround⟩
    · -- the page is full, and the next one is copied from its start
      rename_i hmore
      have hlen : min data_len (PAGE_SIZE - page_offset) = PAGE_SIZE - page_offset := by omega
      rw [hlen] at hround hmore ⊢
      have hnext : vpn + 1 < last := by
        by_contra hge
        have hle : last * PAGE_SIZE ≤ (vpn + 1) * PAGE_SIZE := Nat.mul_le_mul_right _ (by omega)
        rw [Nat.succ_mul] at hle
        omega
      obtain ⟨ph', hloop, hrest⟩ := ih (offset + (PAGE_SIZE - page_offset))
        (data_len - (PAGE_SIZE - page_offset)) 0 (vpn + 1)
        (ph.write (p vpn) page_offset
          (slice image.bytes (data_start + offset) (PAGE_SIZE - page_offset))) (by omega) hnext
        (by decide) (by rw [Nat.succ_mul]; omega) (by omega) (by omega)
      refine ⟨ph', hloop, ?_⟩
      have hat : (vpn + 1) * PAGE_SIZE + 0 =
          vpn * PAGE_SIZE + page_offset + (PAGE_SIZE - page_offset) := by
        rw [Nat.succ_mul]
        omega
      rw [hat, ← Nat.add_assoc data_start] at hrest
      have hall := hround.trans hrest
      rwa [Nat.add_sub_cancel' (by omega)] at hall

end Copy

/-- A `Load` header of a file that is placed at the distance `base`. -/
structure Segment where
  image : Image
  base : Nat
  header : ProgramHeader

theorem VPNRange.from_va_ok {start_va end_va : Nat} {r : VPNRange}
    (h : VPNRange.from_va start_va end_va = .ok r) :
    r.start = floor start_va ∧ r.end_ = ceil end_va := by
  unfold VPNRange.from_va at h
  split at h
  · cases h
    exact ⟨rfl, rfl⟩
  · cases h

namespace Segment

def start (g : Segment) : Nat := g.header.virtual_addr + g.base

def stop (g : Segment) : Nat := g.header.virtual_addr + g.header.mem_size + g.base

def HasPage (g : Segment) (v : Nat) : Prop := ∃ va, g.start ≤ va ∧ va < g.stop ∧ floor va = v

/-- What the program finds on the pages of the segment. -/
def byte (g : Segment) (va : Nat) : UInt8 :=
  if g.start ≤ va ∧ va < g.start + g.header.file_size then
    g.image.bytes (g.header.offset + (va - g.start))
  else 0

def Loaded (g : Segment) (ms : MemorySet) (ph : Phys) : Prop :=
  ∀ va, g.HasPage (floor va) → ms.view ph va = some (g.byte va)

/-- The file is long enough, and the segment has addresses that a pointer can hold. -/
structure Loadable (g : Segment) : Prop where
  mem_size : 0 < g.header.mem_size
  file_size : g.header.file_size ≤ g.header.mem_size
  in_file : g.header.offset + g.header.file_size ≤ g.image.size
  canonical : ∀ va, g.start ≤ va → va < g.stop → va < 2 ^ 64 ∧ virt_addr va = va

/-- The pages of the segment are below those of the trap context and of the trampolines. -/
def BelowTrapContext (g : Segment) : Prop :=
  ∀ v, g.HasPage v → index v < index (floor TRAP_CONTEXT_BASE)

variable {g : Segment} {v w : Nat} {r : VPNRange}

theorem Loadable.start_lt (hl : g.Loadable) : g.start < g.stop := by
  have := hl.mem_size
  simp only [start, stop]
  omega

theorem virt_addr_eq_self {va : Nat} (h : va < 2 ^ 64 ∧ virt_addr va = va) :
    va < 2 ^ 39 ∨ 2 ^ 64 - 2 ^ 39 ≤ va := by
  obtain ⟨_, heq⟩ := h
  unfold virt_addr at heq
  split at heq <;> omega

/-- The segment lies in one half of the address space. -/
theorem Loadable.half (hl : g.Loadable) :
    g.stop ≤ 2 ^ 39 ∨ 2 ^ 64 - 2 ^ 39 ≤ g.start ∧ g.stop ≤ 2 ^ 64 := by
  have hlt := hl.start_lt
  have hlast := hl.canonical (g.stop - 1) (by omega) (by omega)
  rcases virt_addr_eq_self (hl.canonical g.start le_rfl hlt) with hlow | hhigh
  · refine Or.inl (Nat.le_of_not_lt fun hgt => ?_)
    have hhole := virt_addr_eq_self (hl.canonical (2 ^ 39) (by omega) hgt)
    omega
  · exact Or.inr ⟨hhigh, by omega⟩

theorem Loadable.virt_addr_start (hl : g.Loadable) : virt_addr (g.start % 2 ^ 64) = g.start := by
  obtain ⟨hlt, heq⟩ := hl.canonical g.start le_rfl hl.start_lt
  rw [Nat.mod_eq_of_lt hlt, heq]

theorem Loadable.hasPage_iff (hl : g.Loadable) :
    g.HasPage v ↔ floor g.start ≤ v ∧ v * PAGE_SIZE < g.stop := by
  have hlt := hl.start_lt
  simp only [HasPage, floor, PAGE_SIZE]
  constructor
  · rintro ⟨va, hle, hlt, rfl⟩
    omega
  · rintro ⟨hle, hlt⟩
    exact ⟨max g.start (v * 0x1000), by omega, by omega, by omega⟩

/-- Two pages of a segment have different entries of the page table. -/
theorem Loadable.index_inj (hl : g.Loadable) (hv : g.HasPage v) (hw : g.HasPage w)
    (h : index v = index w) : v = w := by
  obtain ⟨va, hva, hva', rfl⟩ := hv
  obtain ⟨wa, hwa, hwa', rfl⟩ := hw
  have hhalf := hl.half
  simp only [index, floor, PAGE_SIZE] at h ⊢
  omega

theorem Loadable.ceil_stop (hl : g.Loadable) (hne : g.stop ≠ 2 ^ 39) (hlt : g.stop + 0xfff < 2 ^ 64) :
    ceil (virt_addr (g.stop % 2 ^ 64)) = (g.stop + 0xfff) / PAGE_SIZE := by
  have hhalf := hl.half
  have hpos := hl.start_lt
  simp only [ceil, virt_addr, PAGE_SIZE]
  split <;> omega

/-- An area that could be mapped has the pages of the segment. -/
theorem Loadable.mem_range (hl : g.Loadable)
    (hr : VPNRange.from_va (virt_addr (g.start % 2 ^ 64)) (virt_addr (g.stop % 2 ^ 64)) = .ok r)
    (hnodup : (r.vpns.map index).Nodup) : v ∈ r ↔ g.HasPage v := by
  have hlt := hl.start_lt
  rw [hl.virt_addr_start] at hr
  obtain ⟨hstart, hend⟩ := VPNRange.from_va_ok hr
  have hle := r.start_le
  rw [hl.hasPage_iff, VPNRange.mem_def, hstart, hend]
  rw [hstart, hend] at hle
  rcases eq_or_ne g.stop (2 ^ 39) with hstop | hstop
  · -- the range would reach to the upper half, and have more pages than there are entries
    have hlong : ceil (virt_addr (g.stop % 2 ^ 64)) = 2 ^ 52 - 2 ^ 27 := by
      rw [hstop]
      rfl
    have hmem (k : Nat) (hk : k ≤ 2 ^ 27) : floor g.start + k ∈ r.vpns := by
      rw [VPNRange.mem_vpns, VPNRange.mem_def, hstart, hend, hlong]
      simp only [floor, PAGE_SIZE]
      omega
    have hsame := List.inj_on_of_nodup_map hnodup (hmem 0 (by omega)) (hmem (2 ^ 27) le_rfl)
      (by simp only [index]; omega)
    omega
  · have htop : g.stop + 0xfff < 2 ^ 64 := by
      have hhalf := hl.half
      simp only [floor, ceil, virt_addr, PAGE_SIZE] at hle
      split at hle <;> omega
    rw [hl.ceil_stop hstop htop]
    simp only [PAGE_SIZE]
    omega

/-- Where the pages are not reserved, the range is one. -/
theorem Loadable.range_ok (hl : g.Loadable) (hbelow : g.BelowTrapContext) :
    ∃ r, VPNRange.from_va (virt_addr (g.start % 2 ^ 64)) (virt_addr (g.stop % 2 ^ 64)) = .ok r ∧
      ∀ v, v ∈ r ↔ g.HasPage v := by
  have hlt := hl.start_lt
  have hhalf := hl.half
  have hlast : g.HasPage (floor (g.stop - 1)) := ⟨g.stop - 1, by omega, by omega, rfl⟩
  have htop := hbelow _ hlast
  rw [show index (floor TRAP_CONTEXT_BASE) = 2 ^ 27 - 3 from rfl] at htop
  simp only [index, floor, PAGE_SIZE] at htop
  have hceil := hl.ceil_stop (by omega) (by omega)
  have hle : floor g.start ≤ ceil (virt_addr (g.stop % 2 ^ 64)) := by
    rw [hceil]
    simp only [floor, PAGE_SIZE]
    omega
  refine ⟨⟨_, _, hle⟩, ?_, fun v => ?_⟩
  · rw [hl.virt_addr_start, VPNRange.from_va, dif_pos hle]
  · rw [hl.hasPage_iff, VPNRange.mem_def]
    dsimp only
    rw [hceil]
    simp only [PAGE_SIZE]
    omega

end Segment

section Load

variable {text : KernelImage} {E : Multiset Nat} {ms ms' : MemorySet} {ph ph' : Phys}
  {g : Segment} {v w : Nat}

/-- The pages of the segment are mapped, with what belongs on them. -/
def Segment.Held (g : Segment) (ms : MemorySet) (ph : Phys) : Prop :=
  ∀ v, g.HasPage v → ∃ pte, ms.translate v = some pte ∧ pte.ppn ∈ ms.owned ∧
    ∀ i < PAGE_SIZE, ph.bytes pte.ppn i = g.byte (v * PAGE_SIZE + i)

theorem Segment.Held.loaded (h : g.Held ms ph) : g.Loaded ms ph := by
  intro va hva
  obtain ⟨pte, hpte, _, hbytes⟩ := h _ hva
  have hsplit : floor va * PAGE_SIZE + page_offset va = va := Nat.div_add_mod' va PAGE_SIZE
  have hlt : page_offset va < PAGE_SIZE := Nat.mod_lt va (by decide)
  have hview : ms.view ph (floor va * PAGE_SIZE + page_offset va) = _ := view_eq hlt hpte
  rwa [hbytes _ hlt, hsplit] at hview

/-- What loading a segment does to the rest. -/
structure Segment.Extends (g : Segment) (ms : MemorySet) (ph : Phys) (ms' : MemorySet) (ph' : Phys) :
    Prop where
  held : g.Held ms' ph'
  unmapped : ∀ v, g.HasPage v → ms.translate v = none
  old : ∀ v, (∀ w, g.HasPage w → index w ≠ index v) → ms'.translate v = ms.translate v
  owned : ms.owned ≤ ms'.owned
  quiet : ∀ q ∈ ms.owned, ph'.bytes q = ph.bytes q

/-- A segment stays as it was loaded while others are. -/
theorem Segment.Held.extend {g' : Segment} (h : g.Held ms ph) (he : g'.Extends ms ph ms' ph') :
    g.Held ms' ph' := by
  intro v hv
  obtain ⟨pte, hpte, howned, hbytes⟩ := h v hv
  have hother : ∀ w, g'.HasPage w → index w ≠ index v := by
    intro w hw heq
    cases (he.unmapped w hw).symm.trans ((PageTable.find_pte_congr _ heq).trans hpte)
  refine ⟨pte, (he.old v hother).trans hpte, Multiset.mem_of_le he.owned howned, fun i hi => ?_⟩
  rw [he.quiet _ howned, hbytes i hi]

/-- New pages have frames of their own. -/
theorem VmArea.Inflated.frame_inj {area area' : VmArea} {pt pt' : PageTable} {vpns : List Nat}
    {a b : PageTableEntry} (hi : VmArea.Inflated E vpns area pt ph area' pt' ph') (hv : v ∈ vpns)
    (hw : w ∈ vpns) (ha : pt'.find_pte v = some a) (hb : pt'.find_pte w = some b)
    (h : a.ppn = b.ppn) : v = w := by
  obtain ⟨p, hfresh, hslot, hp⟩ := hi.new v (List.mem_map_of_mem hv)
  obtain ⟨q, _, hslot', hq⟩ := hi.new w (List.mem_map_of_mem hw)
  cases ha.symm.trans hp
  cases hb.symm.trans hq
  cases h
  refine List.inj_on_of_nodup_map hi.nodup hv hw ?_
  by_contra hne
  have htwo : 2 ≤ area'.frame_map.owned.count p :=
    two_le_count_slots hslot hslot' hne
  have hone := hi.calm p
  rw [Multiset.count_eq_zero.mpr hfresh, Multiset.count_add, Multiset.count_add] at hone
  omega

/-- The pages of the segment are new; its bytes are copied to them. -/
theorem copy_data_extends {area area' : VmArea} {pt : PageTable} (hl : g.Loadable)
    (hi : VmArea.Inflated (ms.slots.map Prod.snd + E) area.vpn_range.vpns area ms.page_table ph
      area' pt ph')
    (hzero : ∀ v pte, index v ∈ area.vpn_range.vpns.map index → pt.find_pte v = some pte →
      ∀ i, ph'.bytes pte.ppn i = 0)
    (hempty : area.frame_map = ∅) (hfile : area.file = some g.image.file)
    (hstart : area.vpn_range.start = floor g.start)
    (hmem : ∀ v, v ∈ area.vpn_range ↔ g.HasPage v) :
    ∃ ph'', area'.copy_data pt ph' g.header.offset g.header.file_size (page_offset g.start) =
        .ok ph'' ∧ ph''.allocator = ph'.allocator ∧
      g.Extends ms ph { ms with page_table := pt, map_areas := ms.map_areas ++ [area'] } ph'' := by
  have hlt := hl.start_lt
  have hsplit : floor g.start * PAGE_SIZE + page_offset g.start = g.start :=
    Nat.div_add_mod' g.start PAGE_SIZE
  have hoffset : page_offset g.start < PAGE_SIZE := Nat.mod_lt _ (by decide)
  have hpage (v : Nat) (hv : area.vpn_range.start ≤ v) (hv' : v < area.vpn_range.end_) :
      v ∈ area.vpn_range.vpns := VPNRange.mem_vpns.mpr ⟨hv, hv'⟩
  have hframes (v : Nat) (hv : v ∈ area.vpn_range.vpns) := hi.new v (List.mem_map_of_mem hv)
  choose! p hp using hframes
  have hfirst : area.vpn_range.start < area.vpn_range.end_ := by
    rw [hstart]
    exact ((hmem _).mpr ⟨g.start, le_rfl, hlt, rfl⟩).2
  have hlast : g.stop ≤ area.vpn_range.end_ * PAGE_SIZE := by
    have hin := ((hmem _).mpr ⟨g.stop - 1, by omega, by omega, rfl⟩).2
    simp only [floor, PAGE_SIZE] at hin ⊢
    omega
  have hend : g.start + g.header.file_size ≤ g.stop := by
    have := hl.file_size
    simp only [Segment.start, Segment.stop]
    omega
  have hfuel : page_offset g.start + g.header.file_size <
      (g.header.file_size / PAGE_SIZE + 2) * PAGE_SIZE := by
    simp only [PAGE_SIZE] at hoffset ⊢
    omega
  obtain ⟨ph'', hloop, hfilled⟩ := copy_loop_fills g.image
    (fun v hv hv' => ⟨_, (hp v (hpage v hv hv')).2.2, rfl⟩)
    (fun v w hv hv' hw hw' heq => hi.frame_inj (hpage v hv hv') (hpage w hw hw')
      (hp v (hpage v hv hv')).2.2 (hp w (hpage w hw hw')).2.2 heq)
    _ 0 g.header.file_size _ _ ph' le_rfl hfirst hoffset (by rw [hstart, hsplit]; omega) hfuel
    hl.in_file
  have hat : area.vpn_range.start * PAGE_SIZE + page_offset g.start = g.start := by
    rw [hstart, hsplit]
  rw [Nat.add_zero, hat] at hfilled
  have hcopy : area'.copy_data pt ph' g.header.offset g.header.file_size (page_offset g.start) =
      .ok ph'' := by
    rw [hi.same, VmArea.copy_data, hfile]
    exact hloop
  rw [← ms.owned_before_area hempty] at hp
  refine ⟨ph'', hcopy, hfilled.allocator, ⟨fun v hv => ?_, fun v hv => ?_, fun v hv => ?_, ?_, ?_⟩⟩
  · have hin := (hmem v).mpr hv
    obtain ⟨_, hslot, hpte⟩ := hp v (hpage v hin.1 hin.2)
    refine ⟨_, hpte, mem_owned_of_slots (k := index v) ?_, fun i hi => ?_⟩
    · rw [ms.slots_append_area pt area']
      exact Multiset.mem_add.mpr (Or.inr hslot)
    · have hfloor : floor (v * PAGE_SIZE + i) = v := by
        simp only [floor, PAGE_SIZE] at hi ⊢
        omega
      have hplace : page_offset (v * PAGE_SIZE + i) = i := by
        simp only [page_offset, PAGE_SIZE] at hi ⊢
        omega
      have hbyte := hfilled.inside (v * PAGE_SIZE + i)
      rw [hfloor, hplace] at hbyte
      rw [hbyte hin.1 hin.2, Segment.byte]
      refine if_congr Iff.rfl rfl ?_
      exact hzero v _ (List.mem_map_of_mem (hpage v hin.1 hin.2)) hpte i
  · exact hi.unmapped v (VPNRange.mem_vpns.mpr ((hmem v).mpr hv))
  · refine hi.old v fun hin => ?_
    obtain ⟨w, hw, hindex⟩ := List.mem_map.mp hin
    exact hv w ((hmem w).mp (VPNRange.mem_vpns.mp hw)) hindex
  · have hle := add_le_add_left hi.le (ms.slots.map Prod.snd + 0)
    rwa [← ms.owned_before_area hempty, ← ms.owned_append_area pt area', add_zero, add_zero] at hle
  · intro q hq
    have hin : q ∈ ms.owned + E := Multiset.mem_add.mpr (Or.inl hq)
    have hquiet := hi.quiet q
    rw [← ms.owned_before_area hempty] at hquiet
    rw [hfilled.outside q, hquiet (Or.inl hin)]
    rintro v hv hv' rfl
    exact (hp v (hpage v hv hv')).1 hin

/-- One segment. -/
theorem load_segment_meets (hl : g.Loadable) (h : Loading text E ms ph)
    (perm : ProgramHeader → MapPermission) (file_offset : Nat → Nat) :
    Meets (MemorySet.load_segment g.image.file g.base perm file_offset (ms, ph) g.header)
      (fun e => e = .outOfMemory ∨
        ¬ (g.BelowTrapContext ∧ ∀ v, g.HasPage v → ms.translate v = none)) fun r =>
      Loading text E r.1 r.2 ∧ g.Extends ms ph r.1 r.2 := by
  have howned := h.owned
  unfold MemorySet.load_segment VmArea.new
  rw [← Segment.start, ← Segment.stop]
  dsimp only
  cases hr : VPNRange.from_va (virt_addr (g.start % 2 ^ 64)) (virt_addr (g.stop % 2 ^ 64)) with
  | error e =>
    refine Or.inr fun hfree => ?_
    obtain ⟨r, hr', _⟩ := hl.range_ok hfree.1
    cases hr.symm.trans hr'
  | ok r =>
    have hstart := (VPNRange.from_va_ok hr).1
    simp only [ok_bind, pure, Except.pure]
    rw [hl.virt_addr_start] at hstart ⊢
    generalize harea : VmArea.mk .Elf r .Framed (perm g.header) (some g.image.file)
      (file_offset (page_offset g.start)) ∅ = area
    have hrange : area.vpn_range = r := by rw [← harea]
    have hfile : area.file = some g.image.file := by rw [← harea]
    have hempty : area.frame_map = ∅ := by rw [← harea]
    have hmap : area.map_type = .Framed := by rw [← harea]
    have htype : area.area_type = .Elf := by rw [← harea]
    rw [ms.owned_before_area hempty] at howned
    unfold MemorySet.insert_and_map
    have hinflate := (VmArea.inflate_pagetable_meets howned hmap hempty).and_ok
      (R := fun r => ∀ v pte, index v ∈ area.vpn_range.vpns.map index →
        r.2.1.find_pte v = some pte → ∀ i, r.2.2.bytes pte.ppn i = 0)
      fun _ hok _ _ hv hpte => VmArea.inflate_pagetable_zero hmap hok hv hpte
    refine (hinflate.mono_error ?_).bind ?_
    · rintro e (he | hbusy)
      · exact Or.inl he
      · refine Or.inr fun hfree => hbusy ?_
        obtain ⟨r', hr', hmem⟩ := hl.range_ok hfree.1
        cases hr.symm.trans hr'
        rw [hrange]
        have hmem' (v : Nat) (hv : v ∈ r.vpns) : g.HasPage v :=
          (hmem v).mp (VPNRange.mem_vpns.mp hv)
        refine ⟨List.Nodup.map_on ?_ r.nodup_vpns, fun v hv => hfree.2 v (hmem' v hv)⟩
        exact fun v hv w hw heq => hl.index_inj (hmem' v hv) (hmem' w hw) heq
    · rintro ⟨area', pt, ph₁⟩ ⟨hi, hzero⟩
      dsimp only at hi hzero ⊢
      have hnodup := hi.nodup
      rw [hrange] at hnodup
      obtain ⟨ph₂, hcopy, hallocator, hextends⟩ := copy_data_extends hl hi hzero hempty hfile
        (by rw [hrange, hstart]) (by rw [hrange]; exact fun v => hl.mem_range hr hnodup)
      rw [hcopy]
      have hloading := h.inflated hi hmap (Or.inl htype) hempty
      exact ⟨hloading.of_allocator hallocator, hextends⟩

/-- The segments are below the trap context, and no two of them share a page. -/
def Apart (gs : List Segment) : Prop :=
  (∀ g ∈ gs, g.BelowTrapContext) ∧
    gs.Pairwise fun g g' => ∀ v w, g.HasPage v → g'.HasPage w → index v ≠ index w

/-- The state after some segments. -/
structure Progress (text : KernelImage) (E : Multiset Nat) (done : List Segment) (ms : MemorySet)
    (ph : Phys) : Prop where
  loading : Loading text E ms ph
  held : ∀ g ∈ done, g.Held ms ph
  free : ∀ v, index v < index (floor TRAP_CONTEXT_BASE) →
    (∀ g ∈ done, ∀ w, g.HasPage w → index w ≠ index v) → ms.translate v = none

theorem Progress.load_segment {done : List Segment} (hp : Progress text E done ms ph)
    (hl : g.Loadable) (perm : ProgramHeader → MapPermission) (file_offset : Nat → Nat) :
    Meets (MemorySet.load_segment g.image.file g.base perm file_offset (ms, ph) g.header)
      (fun e => e = .outOfMemory ∨ ¬ Apart (done ++ [g])) fun r =>
      Progress text E (done ++ [g]) r.1 r.2 := by
  refine ((load_segment_meets hl hp.loading perm file_offset).mono_error ?_).mono ?_
  · rintro e (he | hbusy)
    · exact Or.inl he
    · refine Or.inr fun hapart => hbusy ⟨hapart.1 g (by simp), fun v hv => ?_⟩
      refine hp.free v (hapart.1 g (by simp) v hv) fun g' hg' w hw => ?_
      exact (List.pairwise_append.mp hapart.2).2.2 g' hg' g (by simp) w v hw hv
  · rintro ⟨ms', ph'⟩ ⟨hloading, he⟩
    refine ⟨hloading, fun g' hg' => ?_, fun v hv hother => ?_⟩
    · rcases List.mem_append.mp hg' with hg' | hg'
      · exact (hp.held g' hg').extend he
      · rw [List.mem_singleton.mp hg']
        exact he.held
    · rw [he.old v (hother g (by simp))]
      exact hp.free v hv fun g' hg' => hother g' (List.mem_append.mpr (Or.inl hg'))

theorem Apart.of_prefix {gs gs' : List Segment} (h : Apart (gs ++ gs')) : Apart gs :=
  ⟨fun g hg => h.1 g (List.mem_append.mpr (Or.inl hg)), (List.pairwise_append.mp h.2).1⟩

/-- The segments of one file, by induction on the headers. -/
theorem Progress.load_segments (image : Image) (base : Nat) (perm : ProgramHeader → MapPermission)
    (file_offset : Nat → Nat) (headers : List ProgramHeader) :
    ∀ {done : List Segment} {ms : MemorySet} {ph : Phys}, Progress text E done ms ph →
      (∀ h ∈ headers, Segment.Loadable ⟨image, base, h⟩) →
      Meets (headers.foldlM (MemorySet.load_segment image.file base perm file_offset) (ms, ph))
        (fun e => e = .outOfMemory ∨ ¬ Apart (done ++ headers.map (Segment.mk image base))) fun r =>
        Progress text E (done ++ headers.map (Segment.mk image base)) r.1 r.2 := by
  induction headers with
  | nil =>
    intro done ms ph hp _
    simpa using hp
  | cons header headers ih =>
    intro done ms ph hp hl
    obtain ⟨hheader, hheaders⟩ := List.forall_mem_cons.mp hl
    have hassoc : done ++ (header :: headers).map (Segment.mk image base) =
        (done ++ [⟨image, base, header⟩]) ++ headers.map (Segment.mk image base) := by simp
    rw [List.foldlM_cons, hassoc]
    refine ((hp.load_segment hheader perm file_offset).mono_error ?_).bind fun r hr => ?_
    · rintro e (he | hbusy)
      · exact Or.inl he
      · exact Or.inr fun hapart => hbusy hapart.of_prefix
    · exact ih hr hheaders

/-- No page below the entry `k` of the page table is mapped. -/
def FreeBelow (k : Nat) (ms : MemorySet) : Prop := ∀ v, index v < k → ms.translate v = none

theorem new_bare_free (h : Owned ph.allocator E) :
    Meets (MemorySet.new_bare ph) (· = .outOfMemory) fun r => FreeBelow (2 ^ 27) r.1 := by
  unfold MemorySet.new_bare PageTable.new
  refine Meets.bind (Q := fun r : PageTable × Phys => ∀ v, r.1.find_pte v = none)
    ((Phys.alloc_frame_meets h).bind fun _ _ _ => rfl) ?_
  rintro ⟨pt, ph'⟩ hnone
  exact fun v _ => hnone v

theorem Loading.map_top (h : Loading text E ms ph) {k vpn ppn : Nat} {flags : PTEFlags}
    (hfree : FreeBelow (k + 1) ms) (hvpn : index vpn = k) :
    Meets (ms.page_table.map ph vpn ppn flags) (· = .outOfMemory) fun r =>
      FreeBelow k { ms with page_table := r.1 } := by
  have howned := h.owned
  rw [MemorySet.owned, add_assoc] at howned
  refine ((PageTable.map_meets howned _ _ _).mono_error ?_).mono ?_
  · rintro e (he | hbusy)
    · exact he
    · cases hbusy.symm.trans (congrArg Option.isSome (hfree vpn (by omega)))
  · rintro ⟨pt, ph'⟩ ⟨_, _, hfind⟩ v hv
    rw [MemorySet.translate, PageTable.translate, hfind v, if_neg (by omega)]
    exact hfree v (by omega)

theorem Loading.map_trap_context_free (h : Loading text E ms ph)
    (hfree : FreeBelow (index (floor TRAP_CONTEXT_BASE) + 1) ms) :
    Meets (ms.map_trap_context ph) (· = .outOfMemory) fun r =>
      FreeBelow (index (floor TRAP_CONTEXT_BASE)) r.1 := by
  have howned := h.owned
  have hrange : VPNRange.from_va TRAP_CONTEXT_BASE SIGNAL_TRAMPOLINE =
    .ok ⟨floor TRAP_CONTEXT_BASE, ceil SIGNAL_TRAMPOLINE, by decide⟩ := rfl
  unfold MemorySet.map_trap_context VmArea.new
  rw [hrange]
  simp only [ok_bind, pure, Except.pure]
  generalize harea : VmArea.mk .TrapContext _ _ _ _ _ _ = area
  have hvpns : area.vpn_range.vpns = [floor TRAP_CONTEXT_BASE] := by
    rw [← harea]
    rfl
  have hempty : area.frame_map = ∅ := by rw [← harea]
  have hmap : area.map_type = .Framed := by rw [← harea]
  rw [ms.owned_before_area hempty] at howned
  unfold MemorySet.insert_and_map
  refine ((VmArea.inflate_pagetable_meets howned hmap hempty).mono_error ?_).bind ?_
  · rintro e (he | hbusy)
    · exact he
    · refine absurd ⟨?_, ?_⟩ hbusy
      · simp [hvpns]
      · rw [hvpns]
        exact List.forall_mem_singleton.mpr (hfree _ (Nat.lt_succ_self _))
  · rintro ⟨area', pt, ph'⟩ hi v hv
    have hold := hi.old v
    rw [hvpns, List.map_singleton, List.mem_singleton] at hold
    exact (hold hv.ne).trans (hfree v (Nat.lt_succ_of_lt hv))

theorem Loading.map_trap_context_loading (h : Loading text E ms ph) :
    Meets (ms.map_trap_context ph) (fun _ => True) fun r => Loading text E r.1 r.2 := by
  unfold MemorySet.map_trap_context
  refine (VmArea.new_meets _ _ _ _ _ _ _).bind fun area harea => ?_
  exact (h.insert_and_map harea.1 (Or.inr harea.2.1) harea.2.2 _).mono fun _ hr => hr.1

/-- The state in which the first segment is loaded. -/
theorem start_progress (text : KernelImage) (h : Owned ph.allocator E) :
    Meets (do
      let (ms, ph) ← MemorySet.new_bare ph
      let (ms, ph) ← ms.map_trampoline text ph
      let (ms, ph) ← ms.map_signal_trampoline text ph
      ms.map_trap_context ph) (· = .outOfMemory) fun r => Progress text E [] r.1 r.2 := by
  refine ((new_bare_free h).and_ok fun _ hok => (new_bare_meets text h).of_ok hok).bind ?_
  rintro ⟨ms₁, ph₁⟩ ⟨hfree₁, h₁, _⟩
  have htramp : Meets (ms₁.map_trampoline text ph₁) (· = .outOfMemory) fun r =>
      FreeBelow (2 ^ 27 - 1) r.1 := by
    unfold MemorySet.map_trampoline
    exact (h₁.map_top (k := 2 ^ 27 - 1) hfree₁ rfl).bind fun _ hr => hr
  refine (htramp.and_ok fun _ hok => h₁.map_trampoline.of_ok hok).bind ?_
  rintro ⟨ms₂, ph₂⟩ ⟨hfree₂, h₂, _⟩
  have hsignal : Meets (ms₂.map_signal_trampoline text ph₂) (· = .outOfMemory) fun r =>
      FreeBelow (2 ^ 27 - 2) r.1 := by
    unfold MemorySet.map_signal_trampoline
    exact (h₂.map_top (k := 2 ^ 27 - 2) hfree₂ rfl).bind fun _ hr => hr
  refine (hsignal.and_ok fun _ hok => h₂.map_signal_trampoline.of_ok hok).bind ?_
  rintro ⟨ms₃, ph₃⟩ ⟨hfree₃, h₃, _⟩
  refine ((h₃.map_trap_context_free hfree₃).and_ok fun _ hok =>
    h₃.map_trap_context_loading.of_ok hok).mono ?_
  rintro ⟨ms₄, ph₄⟩ ⟨hfree₄, h₄⟩
  exact ⟨h₄, by simp, fun v hv _ => hfree₄ v hv⟩

end Load

/-- A program with the interpreter that it asks for. -/
structure Executable where
  image : Image
  load : List ProgramHeader
  interpreter : Option (Image × List ProgramHeader)

namespace Executable

def elf (x : Executable) : ElfFile where
  file := x.image.file
  load := x.load
  interpreter := x.interpreter.map fun i => (i.1.file, i.2)

def segments (x : Executable) : List Segment :=
  x.load.map (Segment.mk x.image 0) ++
    (x.interpreter.map fun i => i.2.map (Segment.mk i.1 LINK_BASE)).getD []

def heap_bottom (x : Executable) : Nat := (MemorySet.brk_start_va x.load + PAGE_SIZE) % 2 ^ 64

/-- There is a place for everything. -/
structure Placed (x : Executable) : Prop where
  apart : Apart x.segments
  loads : x.load ≠ []
  heap : floor (virt_addr x.heap_bottom) ≤
    ceil (virt_addr ((x.heap_bottom + USER_HEAP_SIZE) % 2 ^ 64))

variable {text : KernelImage} {E : Multiset Nat} {ms : MemorySet} {ph : Phys} {x : Executable}

theorem segments_of_none (h : x.interpreter = none) :
    x.segments = x.load.map (Segment.mk x.image 0) := by
  rw [segments, h]
  exact List.append_nil _

theorem segments_of_some {i : Image} {headers : List ProgramHeader}
    (h : x.interpreter = some (i, headers)) :
    x.segments = x.load.map (Segment.mk x.image 0) ++ headers.map (Segment.mk i LINK_BASE) := by
  rw [segments, h]
  rfl

theorem load_interpreter_meets (hl : ∀ g ∈ x.segments, g.Loadable)
    (hp : Progress text E (x.load.map (Segment.mk x.image 0)) ms ph) :
    Meets (MemorySet.load_interpreter (ms, ph) x.elf.interpreter)
      (fun e => e = .outOfMemory ∨ ¬ Apart x.segments) fun r =>
      Progress text E x.segments r.1 r.2 := by
  cases hi : x.interpreter with
  | none =>
    rw [elf, hi, segments_of_none hi]
    exact hp
  | some i =>
    obtain ⟨image, headers⟩ := i
    rw [segments_of_some hi] at hl ⊢
    rw [elf, hi]
    refine hp.load_segments image LINK_BASE _ _ headers fun h hh => hl _ ?_
    exact List.mem_append.mpr (Or.inr (List.mem_map_of_mem hh))

theorem set_regions_meets (x : Executable) (ms : MemorySet) :
    Meets (ms.set_regions x.elf) (fun _ => ¬ x.Placed) fun ms' =>
      ms'.page_table = ms.page_table := by
  have hstack : VPNRange.from_va (USER_STACK_BASE - USER_STACK_SIZE) USER_STACK_BASE =
    .ok ⟨floor (USER_STACK_BASE - USER_STACK_SIZE), ceil USER_STACK_BASE, by decide⟩ := rfl
  unfold MemorySet.set_regions VmArea.new
  dsimp only [elf]
  rw [hstack]
  simp only [ok_bind, pure, Except.pure]
  cases hheap : VPNRange.from_va (virt_addr x.heap_bottom)
      (virt_addr ((x.heap_bottom + USER_HEAP_SIZE) % 2 ^ 64)) with
  | error e =>
    have hbad : ¬ x.Placed := fun hplaced => by
      rw [VPNRange.from_va, dif_pos hplaced.heap] at hheap
      cases hheap
    rw [heap_bottom] at hheap
    rw [hheap]
    exact hbad
  | ok r =>
    rw [heap_bottom] at hheap
    rw [hheap]
    rfl

/-- Nothing is mapped after the last segment. -/
theorem load_elf_progress (text : KernelImage) (x : Executable) (h : Owned ph.allocator E)
    (hl : ∀ g ∈ x.segments, g.Loadable) :
    Meets (MemorySet.load_elf text x.elf ph) (fun e => e = .outOfMemory ∨ ¬ x.Placed) fun r =>
      ∃ ms, Progress text E x.segments ms r.2 ∧ r.1.page_table = ms.page_table := by
  have hstart := (start_progress text h).mono_error
    (F := fun e => e = Panic.outOfMemory ∨ ¬ x.Placed) fun _ he => Or.inl he
  have hsteps : MemorySet.load_elf text x.elf ph = (do
      let (ms, ph) ← MemorySet.new_bare ph
      let (ms, ph) ← ms.map_trampoline text ph
      let (ms, ph) ← ms.map_signal_trampoline text ph
      ms.map_trap_context ph) >>= fun s => do
        let s ← x.elf.load.foldlM
          (MemorySet.load_segment x.elf.file 0 MemorySet.segment_perm fun offset => offset) s
        let (ms, ph) ← MemorySet.load_interpreter s x.elf.interpreter
        if x.elf.load.isEmpty then .error .outOfBounds
        else
          let ms ← ms.set_regions x.elf
          return (ms, ph) := by
    unfold MemorySet.load_elf
    simp only [bind_assoc]
  rw [hsteps]
  refine hstart.bind ?_
  rintro ⟨ms₁, ph₁⟩ hp₁
  have hprogram : ∀ h ∈ x.load, Segment.Loadable ⟨x.image, 0, h⟩ := fun h hh =>
    hl _ (List.mem_append.mpr (Or.inl (List.mem_map_of_mem hh)))
  refine ((hp₁.load_segments x.image 0 _ _ x.load hprogram).mono_error ?_).bind ?_
  · rintro e (he | hbusy)
    · exact Or.inl he
    · exact Or.inr fun hplaced => hbusy (by simpa using hplaced.apart.of_prefix)
  · rintro ⟨ms₂, ph₂⟩ hp₂
    refine ((load_interpreter_meets hl hp₂).mono_error ?_).bind ?_
    · rintro e (he | hbusy)
      · exact Or.inl he
      · exact Or.inr fun hplaced => hbusy hplaced.apart
    · rintro ⟨ms₃, ph₃⟩ hp₃
      dsimp only
      split
      · rename_i hempty
        exact Or.inr fun hplaced => hplaced.loads (List.isEmpty_iff.mp hempty)
      · refine ((x.set_regions_meets ms₃).mono_error fun _ hbad => Or.inr hbad).bind ?_
        exact fun ms₄ htable => ⟨ms₃, hp₃, htable⟩

/-- A page of no segment stays unmapped. -/
theorem load_elf_unmapped (text : KernelImage) (x : Executable) (h : Owned ph.allocator E)
    (hl : ∀ g ∈ x.segments, g.Loadable) :
    Meets (MemorySet.load_elf text x.elf ph) (fun e => e = .outOfMemory ∨ ¬ x.Placed) fun r =>
      ∀ v, index v < index (floor TRAP_CONTEXT_BASE) →
        (∀ g ∈ x.segments, ∀ w, g.HasPage w → index w ≠ index v) → r.1.translate v = none := by
  refine (load_elf_progress text x h hl).mono ?_
  rintro ⟨ms', ph'⟩ ⟨ms, hp, htable⟩ v hv hother
  rw [MemorySet.translate, htable]
  exact hp.free v hv hother

/-- `load_elf` puts the bytes of every segment, of the program and of its interpreter, where the
headers say, with zeros around them. It fails only when the memory runs out, or when there is no
place for a segment or for the heap. -/
theorem load_elf_loads (text : KernelImage) (x : Executable) (h : Owned ph.allocator E)
    (hl : ∀ g ∈ x.segments, g.Loadable) :
    Meets (MemorySet.load_elf text x.elf ph) (fun e => e = .outOfMemory ∨ ¬ x.Placed) fun r =>
      ∀ g ∈ x.segments, g.Loaded r.1 r.2 := by
  refine (load_elf_progress text x h hl).mono ?_
  rintro ⟨ms', ph'⟩ ⟨ms, hp, htable⟩ g hg va hva
  rw [MemorySet.view, MemorySet.translate, htable]
  exact (hp.held g hg).loaded va hva

/-- A file that counts. -/
def counting : Image where
  file := ⟨true, true, 0x3000, fun _ _ => true, slice fun i => UInt8.ofNat i⟩
  bytes i := UInt8.ofNat i
  size := 0x3000
  reads _ _ _ := rfl

/-- A segment that starts in the middle of a page. -/
def text_segment : Segment := ⟨counting, 0, ⟨0x10ff0, 0x2000, 0x123, 0x1100, true, false, true⟩⟩

/-- A segment that is mostly zero. -/
def data_segment : Segment := ⟨counting, 0, ⟨0x14008, 0x800, 0x1300, 8, true, true, false⟩⟩

def two_segments : Executable where
  image := counting
  load := [text_segment.header, data_segment.header]
  interpreter := none

theorem segments_two : two_segments.segments = [text_segment, data_segment] := rfl

theorem loadable_of_low {g : Segment} (hmem : 0 < g.header.mem_size)
    (hfile : g.header.file_size ≤ g.header.mem_size)
    (hin : g.header.offset + g.header.file_size ≤ g.image.size) (hlow : g.stop ≤ 2 ^ 39) :
    g.Loadable where
  mem_size := hmem
  file_size := hfile
  in_file := hin
  canonical va _ hlt := ⟨by omega, if_pos (by omega)⟩

theorem two_segments_loadable : ∀ g ∈ two_segments.segments, g.Loadable := by
  rw [segments_two, List.forall_mem_cons, List.forall_mem_singleton]
  constructor
  · exact loadable_of_low (by decide) (by decide) (by decide) (by decide)
  · exact loadable_of_low (by decide) (by decide) (by decide) (by decide)

theorem load_elf_loads_two : ∃ r : MemorySet × Phys, MemorySet.load_elf Machine.image
    two_segments.elf (Machine.boot Machine.image 64).ph = .ok r ∧
      r.1.view r.2 0x11003 = some 0x36 ∧ r.1.view r.2 0x14010 = some 0 := by
  obtain ⟨r, hr, _⟩ : ∃ r : MemorySet × Phys, MemorySet.load_elf Machine.image
      two_segments.elf (Machine.boot Machine.image 64).ph = .ok r ∧ True :=
    Meets.exists_ok (by decide +kernel)
  have howned : Owned (Machine.boot Machine.image 64).ph.allocator 0 :=
    (exact_init 16 64).congr fun q => Multiset.count_zero q
  generalize (Machine.boot Machine.image 64).ph = ph at hr howned ⊢
  have hloaded := (load_elf_loads Machine.image two_segments howned two_segments_loadable).of_ok hr
  rw [segments_two, List.forall_mem_cons, List.forall_mem_singleton] at hloaded
  have htext : text_segment.byte 0x11003 = 0x36 := by decide
  have hdata : data_segment.byte 0x14010 = 0 := by decide
  refine ⟨r, hr, ?_, ?_⟩
  · rw [← htext]
    exact hloaded.1 0x11003 ⟨0x11003, by decide, by decide, rfl⟩
  · rw [← hdata]
    exact hloaded.2 0x14010 ⟨0x14010, by decide, by decide, rfl⟩

end Executable

end MyGOS.Mm
