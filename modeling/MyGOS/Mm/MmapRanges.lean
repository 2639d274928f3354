import MyGOS.Mm.UserCopySteps

/-!
# What the mmap manager records

Which pages `push` and `remove` record and forget, and what holds of every
manager that a program can bring about. The trackers play no part in it.
-/

namespace MyGOS.Mm

open Outcome

namespace MmapManager

variable {m m' : MmapManager} {ph ph' : Phys} {start_va len offset addr : Nat}
  {prot : MmapProts} {flags : MmapFlags} {file : Option File}

/-- The pages that a mapping of `len` bytes at `start_va` concerns. -/
def pages (start_va len : Nat) : Except Panic VPNRange :=
  VPNRange.from_va start_va ((start_va + len) % 2 ^ 64)

/-- What `push` records of the page `vpn`. -/
def new_page (start_va : Nat) (prot : MmapProts) (flags : MmapFlags) (offset : Nat)
    (file : Option File) (vpn : Nat) : MmapPage :=
  { vpn, prot, flags, valid := false, file
    offset := (offset + (vpn - floor start_va) * PAGE_SIZE) % 2 ^ 64 }

theorem pages_start {range : VPNRange} (h : pages start_va len = .ok range) :
    range.start = floor start_va ∧ range.end_ = ceil ((start_va + len) % 2 ^ 64) := by
  unfold pages VPNRange.from_va at h
  split at h
  · cases h
    exact ⟨rfl, rfl⟩
  · cases h

theorem push_ok (h : m.push start_va len prot flags offset file = .ok (addr, m')) :
    addr = start_va ∧ ∃ range, pages start_va len = .ok range ∧
      m' = { m with
        mmap_map := m'.mmap_map
        mmap_top := if m.mmap_top ≤ start_va then virt_addr ((start_va + len) % 2 ^ 64)
          else m.mmap_top } ∧
      ∀ v : Nat, m'.mmap_map[v]? =
        if v ∈ range then some (new_page start_va prot flags offset file v)
        else m.mmap_map[v]? := by
  unfold push at h
  obtain ⟨range, hrange, h⟩ := bind_eq_ok.mp h
  cases h
  refine ⟨rfl, range, hrange, rfl, fun v => ?_⟩
  dsimp only
  rw [getElem?_foldl_insert, (pages_start hrange).1]
  simp only [VPNRange.mem_vpns]
  rfl

theorem remove_frame_ok {frames frames' : FrameMap} {vpn : Nat}
    (h : frames.remove_frame ph vpn = .ok (frames', ph')) (v : Nat) :
    frames'[v]? = if v = vpn then none else frames[v]? := by
  unfold FrameMap.remove_frame at h
  split at h
  · rename_i hnone
    cases h
    split
    · rename_i heq
      rw [heq, hnone]
    · rfl
  · obtain ⟨ph₁, _, h⟩ := bind_eq_ok.mp h
    cases h
    rw [Std.TreeMap.getElem?_erase]
    rcases eq_or_ne vpn v with rfl | hne
    · simp
    · simp [hne, hne.symm]

theorem remove_page_ok {s s' : MmapManager × Phys} {vpn : Nat}
    (h : remove_page s vpn = .ok s') : s'.1.mmap_start = s.1.mmap_start ∧
      s'.1.mmap_top = s.1.mmap_top ∧ s'.1.mmap_map = s.1.mmap_map.erase vpn ∧
      ∀ v : Nat, s'.1.frame_map[v]? = if v = vpn then none else s.1.frame_map[v]? := by
  unfold remove_page at h
  obtain ⟨⟨frame_map, ph⟩, hremove, h⟩ := bind_eq_ok.mp h
  cases h
  exact ⟨rfl, rfl, rfl, remove_frame_ok hremove⟩

/-- The loop forgets the pages it has passed; the invariant says which those are. -/
theorem remove_ok (h : m.remove ph start_va len = .ok (m', ph')) :
    ∃ range, pages start_va len = .ok range ∧ m'.mmap_start = m.mmap_start ∧
      m'.mmap_top = m.mmap_top ∧
      (∀ v : Nat, m'.mmap_map[v]? = if v ∈ range then none else m.mmap_map[v]?) ∧
      ∀ v : Nat, m'.frame_map[v]? = if v ∈ range then none else m.frame_map[v]? := by
  unfold remove at h
  obtain ⟨range, hrange, h⟩ := bind_eq_ok.mp h
  have hloop := foldlM_ok (f := remove_page)
    (I := fun rest s => (rest.Nodup ∧ ∀ v ∈ rest, v ∈ range) ∧ s.1.mmap_start = m.mmap_start ∧
      s.1.mmap_top = m.mmap_top ∧
      (∀ v : Nat, s.1.mmap_map[v]? = if v ∈ range ∧ v ∉ rest then none else m.mmap_map[v]?) ∧
      ∀ v : Nat, s.1.frame_map[v]? = if v ∈ range ∧ v ∉ rest then none else m.frame_map[v]?)
    ?_ (s := (m, ph)) ?_ h
  · obtain ⟨_, hstart, htop, hget, hframes⟩ := hloop
    exact ⟨range, hrange, hstart, htop, fun v => by simpa using hget v,
      fun v => by simpa using hframes v⟩
  · rintro vpn rest s s' ⟨⟨hnodup, hmem⟩, hstart, htop, hget, hframes⟩ hpage
    obtain ⟨hstart', htop', hmap, hframe⟩ := remove_page_ok hpage
    rw [List.nodup_cons] at hnodup
    refine ⟨⟨hnodup.2, fun v hv => hmem v (List.mem_cons_of_mem _ hv)⟩, hstart'.trans hstart,
      htop'.trans htop, fun v => ?_, fun v => ?_⟩
    · rw [hmap, Std.TreeMap.getElem?_erase, hget v]
      rcases eq_or_ne vpn v with rfl | hne
      · simp [hmem vpn List.mem_cons_self, hnodup.1]
      · simp [hne, hne.symm]
    · rw [hframe v, hframes v]
      rcases eq_or_ne v vpn with rfl | hne
      · simp [hmem v List.mem_cons_self, hnodup.1]
      · simp [hne]
  · refine ⟨⟨range.nodup_vpns, fun v => VPNRange.mem_vpns.mp⟩, rfl, rfl, fun v => ?_, fun v => ?_⟩
    · simp
    · simp

theorem virt_addr_virt_addr (value : Nat) : virt_addr (virt_addr value) = virt_addr value := by
  unfold virt_addr
  split_ifs <;> omega

/-- What holds of every manager a program can bring about. -/
structure Sound (m : MmapManager) : Prop where
  start : m.mmap_start = MMAP_BASE
  start_le : MMAP_BASE ≤ m.mmap_top
  top_aligned : page_offset m.mmap_top = 0
  top_virt : virt_addr m.mmap_top = m.mmap_top
  keyed : ∀ (v : Nat) (page : MmapPage), m.mmap_map[v]? = some page → page.vpn = v
  backed : ∀ (v : Nat) (page : MmapPage), m.mmap_map[v]? = some page →
    page.flags.anonymous = true ∨ page.file.isSome

theorem Sound.new : (MmapManager.new MMAP_BASE MMAP_BASE).Sound where
  start := rfl
  start_le := le_refl _
  top_aligned := by decide
  top_virt := by decide
  keyed v page h := by simp [MmapManager.new] at h
  backed v page h := by simp [MmapManager.new] at h

theorem Sound.top_lt (hm : m.Sound) : m.mmap_top < 2 ^ 64 := by
  rw [← hm.top_virt]
  exact virt_addr_lt _

theorem Sound.remove (hm : m.Sound) (h : m.remove ph start_va len = .ok (m', ph')) :
    m'.Sound := by
  obtain ⟨range, _, hstart, htop, hget, _⟩ := remove_ok h
  have hold {v : Nat} {page : MmapPage} (hv : m'.mmap_map[v]? = some page) :
      m.mmap_map[v]? = some page := by
    rw [hget v] at hv
    split at hv
    · cases hv
    · exact hv
  constructor
  · exact hstart.trans hm.start
  · exact htop ▸ hm.start_le
  · exact htop ▸ hm.top_aligned
  · exact htop ▸ hm.top_virt
  · exact fun v page hv => hm.keyed v page (hold hv)
  · exact fun v page hv => hm.backed v page (hold hv)

theorem push_top (hstart : page_offset start_va = 0) (hlen : page_offset len = 0)
    {range : VPNRange} (hrange : pages start_va len = .ok range) :
    start_va ≤ virt_addr ((start_va + len) % 2 ^ 64) ∧
      page_offset (virt_addr ((start_va + len) % 2 ^ 64)) = 0 := by
  refine le_virt_addr_end hstart hlen ?_
  rw [← (pages_start hrange).1, ← (pages_start hrange).2]
  exact range.start_le

theorem Sound.push (hm : m.Sound) (hstart : page_offset start_va = 0)
    (hlen : page_offset len = 0) (hfile : flags.anonymous = true ∨ file.isSome)
    (h : m.push start_va len prot flags offset file = .ok (addr, m')) : m'.Sound := by
  obtain ⟨_, range, hrange, hsame, hget⟩ := push_ok h
  obtain ⟨hle, haligned⟩ := push_top hstart hlen hrange
  have htop : m'.mmap_top =
      if m.mmap_top ≤ start_va then virt_addr ((start_va + len) % 2 ^ 64) else m.mmap_top := by
    rw [hsame]
  constructor
  · rw [hsame]
    exact hm.start
  · rw [htop]
    split
    · rename_i hge
      exact (hm.start_le.trans hge).trans hle
    · exact hm.start_le
  · rw [htop]
    split
    · exact haligned
    · exact hm.top_aligned
  · rw [htop]
    split
    · exact virt_addr_virt_addr _
    · exact hm.top_virt
  · intro v page hv
    rw [hget v] at hv
    split at hv
    · cases hv
      rfl
    · exact hm.keyed v page hv
  · intro v page hv
    rw [hget v] at hv
    split at hv
    · cases hv
      exact hfile
    · exact hm.backed v page hv

end MmapManager

/-- What a `sys_mmap` that succeeds has done: with MAP_FIXED it forgets the pages of the range
first. -/
structure Mmapped (ms : MemorySet) (ph : Phys) (addr length prot flags : Nat) (fd : Option File)
    (offset : Nat) (a : Int) (ms' : MemorySet) (ph' : Phys) : Prop where
  nonzero : length ≠ 0
  aligned : page_offset addr = 0
  placed : ∃ f p m₁ m₂, MmapFlags.from_bits flags = some f ∧ MmapProts.from_bits prot = some p ∧
    (f.anonymous = true ∨ fd.isSome) ∧ a = (ms.mmap_place addr f : Nat) ∧
    (f.fixed = true ∧ ms.mmap_manager.remove ph (virt_addr addr) (padded length) = .ok (m₁, ph') ∨
      f.fixed = false ∧ m₁ = ms.mmap_manager ∧ ph' = ph) ∧
    m₁.push (ms.mmap_place addr f) (padded length) p f offset
      (if f.anonymous then none else fd) = .ok (ms.mmap_place addr f, m₂) ∧
    ms' = ms.with_mmap m₂

section Calls

variable {ms ms' : MemorySet} {ph ph' : Phys} {addr length prot flags offset : Nat}
  {fd : Option File} {a : Int} {e : Errno}

theorem mmap_ok {p : MmapProts} {f : MmapFlags} {start : Nat}
    (h : ms.mmap ph addr length p f fd offset = .ok (start, ms', ph')) :
    page_offset addr = 0 ∧ start = ms.mmap_place addr f ∧ ∃ m₁ m₂,
      (f.fixed = true ∧ ms.mmap_manager.remove ph (virt_addr addr) length = .ok (m₁, ph') ∨
        f.fixed = false ∧ m₁ = ms.mmap_manager ∧ ph' = ph) ∧
      m₁.push (ms.mmap_place addr f) length p f offset (if f.anonymous then none else fd) =
        .ok (ms.mmap_place addr f, m₂) ∧
      ms' = ms.with_mmap m₂ := by
  unfold MemorySet.mmap at h
  split at h
  · cases h
  · rename_i haligned
    refine ⟨not_not.mp haligned, ?_⟩
    unfold MemorySet.mmap_place
    cases hf : f.fixed with
    | true =>
      simp only [hf, if_true] at h ⊢
      obtain ⟨⟨m₁, ph₁⟩, hremove, h⟩ := bind_eq_ok.mp h
      simp only [pure_bind] at h
      obtain ⟨⟨start'', m₂⟩, hpush, h⟩ := bind_eq_ok.mp h
      cases h
      have hstart := (MmapManager.push_ok hpush).1
      subst hstart
      exact ⟨rfl, m₁, m₂, Or.inl ⟨trivial, hremove⟩, hpush, rfl⟩
    | false =>
      simp only [hf, Bool.false_eq_true, if_false, pure_bind] at h ⊢
      obtain ⟨⟨start'', m₂⟩, hpush, h⟩ := bind_eq_ok.mp h
      cases h
      have hstart := (MmapManager.push_ok hpush).1
      subst hstart
      exact ⟨rfl, _, m₂, Or.inr ⟨trivial, rfl, rfl⟩, hpush, rfl⟩

theorem sys_mmap_ok (h : ms.sys_mmap ph addr length prot flags fd offset = .ok (.ok a, ms', ph')) :
    Mmapped ms ph addr length prot flags fd offset a ms' ph' := by
  unfold MemorySet.sys_mmap at h
  split at h
  · cases h
  · rename_i hlength
    dsimp only at h
    split at h
    · cases h
    · cases h
    · rename_i p f hp hf
      split at h
      · cases h
      · rename_i hfile
        obtain ⟨⟨start, ms₁, ph₁⟩, hmmap, h⟩ := bind_eq_ok.mp h
        cases h
        obtain ⟨haligned, rfl, m₁, m₂, hfixed, hpush, hms⟩ := mmap_ok hmmap
        refine ⟨hlength, haligned, f, p, m₁, m₂, hf, hp, ?_, rfl, hfixed, hpush, hms⟩
        cases fd <;> simp_all

/-- A `sys_mmap` that fails changes nothing. -/
theorem sys_mmap_error
    (h : ms.sys_mmap ph addr length prot flags fd offset = .ok (.error e, ms', ph')) :
    ms' = ms ∧ ph' = ph := by
  unfold MemorySet.sys_mmap at h
  split at h
  · cases h
    exact ⟨rfl, rfl⟩
  · dsimp only at h
    split at h
    · cases h
    · cases h
    · split at h
      · cases h
        exact ⟨rfl, rfl⟩
      · obtain ⟨⟨start, ms₁, ph₁⟩, _, h⟩ := bind_eq_ok.mp h
        cases h

theorem sys_munmap_ok {r : Result} (h : ms.sys_munmap ph addr length = .ok (r, ms', ph')) :
    ∃ m, ms.mmap_manager.remove ph addr length = .ok (m, ph') ∧ ms' = ms.with_mmap m := by
  unfold MemorySet.sys_munmap at h
  obtain ⟨⟨m, ph₁⟩, hremove, h⟩ := bind_eq_ok.mp h
  cases h
  exact ⟨m, hremove, rfl⟩

/-- The place of a new mapping starts a page. -/
theorem page_offset_mmap_place (hm : ms.mmap_manager.Sound) (haligned : page_offset addr = 0)
    (f : MmapFlags) : page_offset (ms.mmap_place addr f) = 0 := by
  unfold MemorySet.mmap_place
  split
  · exact page_offset_virt_addr haligned
  · split
    · exact hm.top_aligned
    · rfl

theorem Mmapped.sound (h : Mmapped ms ph addr length prot flags fd offset a ms' ph')
    (hm : ms.mmap_manager.Sound) : ms'.mmap_manager.Sound := by
  obtain ⟨_, haligned, f, p, m₁, m₂, _, _, hfile, _, hfixed, hpush, rfl⟩ := h
  have hm₁ : m₁.Sound := by
    rcases hfixed with ⟨_, hremove⟩ | ⟨_, rfl, _⟩
    · exact hm.remove hremove
    · exact hm
  refine hm₁.push (page_offset_mmap_place hm haligned f) (page_offset_padded length) ?_ hpush
  cases hf : f.anonymous with
  | true => exact Or.inl rfl
  | false => exact Or.inr (by simpa [hf] using hfile)

end Calls

end MyGOS.Mm
