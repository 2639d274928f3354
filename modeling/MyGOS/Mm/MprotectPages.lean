import MyGOS.Mm.FaultRegions

/-!
# Changing the protection of pages

`sys_mprotect` takes the pages of the range one at a time and stops at the
first that it cannot change; what it has changed by then stays changed. It can
change the pages that are mapped and those that a mapping has recorded. In a
hole of the mmap interval it panics, and an untouched page that the stack or
the heap serves gets the protection of its region after all.
-/

namespace MyGOS.Mm

open Outcome StepSystem

/-- The flags allow what `prot` asks for and nothing else. -/
def PTEFlags.Grants (flags : PTEFlags) (prot : Nat) : Prop :=
  flags.r = prot.testBit 0 ∧ flags.w = prot.testBit 1 ∧ flags.x = prot.testBit 2

@[simp] theorem PTEFlags.or_x (f g : PTEFlags) : (f ||| g).x = (f.x || g.x) := rfl

instance (flags : PTEFlags) (prot : Nat) : Decidable (flags.Grants prot) :=
  inferInstanceAs (Decidable (_ ∧ _))

/-- The record of the page with the protection `prot`, if its bits are known. -/
def MmapPage.reprotect (page : MmapPage) (prot : Nat) : MmapPage :=
  match MmapProts.from_bits prot with
  | some perm => page.set_prot perm
  | none => page

theorem MmapPage.reprotect_reprotect (page : MmapPage) (prot : Nat) :
    (page.reprotect prot).reprotect prot = page.reprotect prot := by
  unfold reprotect
  split <;> rfl

namespace MemorySet

/-- The flags that `sys_mprotect` gives a mapped page. -/
def mprotect_flags (prot : Nat) : PTEFlags :=
  PTEFlags.from_map_permission (mprotect_perm prot) ||| PTEFlags.V

/-- The protection of a page: its entry's, or the recorded one before it is touched. -/
def protection (ms : MemorySet) (vpn : Nat) : Option PTEFlags :=
  match ms.translate vpn with
  | some pte => some pte.flags
  | none => (ms.mmap_manager.mmap_map[vpn]?).map fun page => PTEFlags.from_map_ports page.prot

def Shows (ms : MemorySet) (vpn prot : Nat) : Prop := ∃ flags ∈ ms.protection vpn, flags.Grants prot

/-- The page has the protection now, and after the next fault on it. -/
def Lasts (ms : MemorySet) (vpn prot : Nat) : Prop :=
  ms.Shows vpn prot ∧ ∀ ph va c ms' ph', floor va = vpn →
    ms.check_lazy ph va = .ok (c, ms', ph') → ms'.Shows vpn prot

/-- The page holds a byte of the range. -/
def Asked (addr length vpn : Nat) : Prop :=
  ∃ va, addr ≤ va ∧ va < addr + length ∧ vpn = floor (virt_addr va)

/-- All or nothing, and no panic. -/
def Protects (ms : MemorySet) (addr length prot : Nat) : Prop :=
  ∃ r ms', ms.sys_mprotect addr length prot = .ok (r, ms') ∧
    match r with
    | .error _ => ∀ v : Nat, ms'.translate v = ms.translate v ∧
        (ms'.mmap_manager.mmap_map[v]?).map MmapPage.prot =
          (ms.mmap_manager.mmap_map[v]?).map MmapPage.prot
    | .ok _ => ∀ v, Asked addr length v → ms'.Lasts v prot

/-- The loop can change the page. -/
def Changeable (ms : MemorySet) (prot vpn : Nat) : Prop :=
  (ms.translate vpn).isSome ∨ (MmapProts.from_bits prot).isSome ∧
    ms.InMmap (vpn * PAGE_SIZE % 2 ^ 64) ∧ (ms.mmap_manager.mmap_map[vpn]?).isSome

/-- The loop stops at the page with an error. -/
def Outside (ms : MemorySet) (prot vpn : Nat) : Prop :=
  ms.translate vpn = none ∧ (MmapProts.from_bits prot).isSome ∧
    ¬ ms.InMmap (vpn * PAGE_SIZE % 2 ^ 64)

/-- The change of the page changes nothing. -/
def Unaltered (ms : MemorySet) (prot vpn : Nat) : Prop :=
  match ms.translate vpn with
  | some pte => pte.flags = mprotect_flags prot
  | none => ∀ page ∈ ms.mmap_manager.mmap_map[vpn]?, some page.prot = MmapProts.from_bits prot

/-- The stack or the heap serves the address. -/
def Windowed (ms : MemorySet) (va : Nat) : Prop :=
  ms.OnStack va ∨ virt_addr ms.brk_start ≤ va ∧ va ≤ ms.heap_end

def InWindow (ms : MemorySet) (vpn : Nat) : Prop := ∃ va, floor va = vpn ∧ ms.Windowed va

/-- What stack and heap give their pages. -/
def window_flags : PTEFlags := PTEFlags.from_map_permission user_rw ||| PTEFlags.V

/-- The page ends up with the protection, now and after the next fault, once the pages of the
range are changed. A fault gives a page marked COW its W bit back. -/
def Suited (ms : MemorySet) (range : VPNRange) (prot vpn : Nat) : Prop :=
  match ms.translate vpn with
  | some pte => (∃ w ∈ range, index w = index vpn) ∨
      pte.flags.Grants prot ∧ (pte.is_cow = true → prot.testBit 1 = true)
  | none => (vpn ∈ range ∨ ∃ page ∈ ms.mmap_manager.mmap_map[vpn]?,
      (PTEFlags.from_map_ports page.prot).Grants prot) ∧
        (ms.InWindow vpn → window_flags.Grants prot)

/-- Either all the pages can be changed, and no fault undoes it, or the first that is outside
every mapping comes before any other has been changed. -/
def MprotectPermitted (ms : MemorySet) (addr length prot : Nat) : Prop :=
  ∃ range, mprotect_range addr length = .ok range ∧
    ((∀ v ∈ range, ms.Changeable prot v) ∧ (∀ v, Asked addr length v → ms.Suited range prot v) ∨
      ∃ before v after, range.vpns = before ++ v :: after ∧ ms.Outside prot v ∧
        ∀ w ∈ before, ms.Changeable prot w ∧ ms.Unaltered prot w)

/-- `ms'` is `ms` with the pages `vpns` changed. -/
structure Reprotected (prot : Nat) (vpns : List Nat) (ms ms' : MemorySet) : Prop where
  keeps : Keeps ms ms'
  translate : ∀ v, ms'.translate v = (ms.translate v).map fun pte =>
    if index v ∈ vpns.map index then pte.set_flags (mprotect_flags prot) else pte
  page : ∀ v : Nat, ms'.mmap_manager.mmap_map[v]? = (ms.mmap_manager.mmap_map[v]?).map fun page =>
    if v ∈ vpns ∧ ms.translate v = none then page.reprotect prot else page

section Steps

variable {ms ms' ms'' : MemorySet} {prot vpn v : Nat} {vpns before after : List Nat}

theorem Reprotected.refl (ms : MemorySet) : Reprotected prot [] ms ms where
  keeps := Keeps.refl ms
  translate v := by simp
  page v := by simp

theorem Reprotected.unmapped (h : Reprotected prot vpns ms ms') (v : Nat) :
    ms'.translate v = none ↔ ms.translate v = none := by
  rw [h.translate v, Option.map_eq_none_iff]

theorem Reprotected.cons (h : Reprotected prot [vpn] ms ms') (h' : Reprotected prot vpns ms' ms'') :
    Reprotected prot (vpn :: vpns) ms ms'' where
  keeps := h.keeps.trans h'.keeps
  translate v := by
    rw [h'.translate v, h.translate v, Option.map_map]
    congr 1
    funext pte
    have htwice : (pte.set_flags (mprotect_flags prot)).set_flags (mprotect_flags prot) =
        pte.set_flags (mprotect_flags prot) := rfl
    grind
  page v := by
    rw [h'.page v, h.page v, Option.map_map]
    congr 1
    funext page
    have hunmapped := h.unmapped v
    have htwice := page.reprotect_reprotect prot
    grind

theorem Reprotected.changeable (h : Reprotected prot vpns ms ms') (v : Nat) :
    ms'.Changeable prot v ↔ ms.Changeable prot v := by
  unfold Changeable InMmap
  rw [h.keeps.records.start, h.keeps.records.top, h.keeps.records.isSome v, h.translate v,
    Option.isSome_map]

theorem Reprotected.outside (h : Reprotected prot vpns ms ms') (v : Nat) :
    ms'.Outside prot v ↔ ms.Outside prot v := by
  unfold Outside InMmap
  rw [h.unmapped v, h.keeps.records.start, h.keeps.records.top]

/-- The round of a mapped page. -/
theorem mprotect_mapped {pte : PageTableEntry} (hpte : ms.translate vpn = some pte) :
    ∃ ms', Reprotected prot [vpn] ms ms' ∧ ∀ vpns,
      mprotect_pages (mprotect_flags prot) prot (vpn :: vpns) ms =
        mprotect_pages (mprotect_flags prot) prot vpns ms' := by
  have hstep (vpns : List Nat) : mprotect_pages (mprotect_flags prot) prot (vpn :: vpns) ms =
      mprotect_pages (mprotect_flags prot) prot vpns
        (ms.reflag vpn pte (mprotect_flags prot)) := by
    rw [mprotect_pages, show ms.page_table.find_pte vpn = some pte from hpte]
    rfl
  refine ⟨ms.reflag vpn pte (mprotect_flags prot), ⟨mprotect_pages_keeps rfl rfl [vpn] (hstep []),
    fun v => ?_, fun v => ?_⟩, hstep⟩
  · rw [translate_reflag hpte rfl, List.map_singleton]
    rcases eq_or_ne (index v) (index vpn) with heq | hne
    · have hv : ms.translate v = some pte := (PageTable.find_pte_congr _ heq).trans hpte
      rw [if_pos heq, hv, Option.map_some, if_pos (List.mem_singleton.mpr heq)]
      rfl
    · simp [hne]
  · have hmapped (page : MmapPage) :
        (if v ∈ [vpn] ∧ ms.translate v = none then page.reprotect prot else page) = page := by
      refine if_neg ?_
      rintro ⟨hv, hnone⟩
      rw [List.mem_singleton.mp hv] at hnone
      cases hpte.symm.trans hnone
    simp only [hmapped, Option.map_id']
    rfl

/-- The round of a page that a mapping has recorded. -/
theorem mprotect_recorded {perm : MmapProts} {page : MmapPage} (hnone : ms.translate vpn = none)
    (hperm : MmapProts.from_bits prot = some perm) (hin : ms.InMmap (vpn * PAGE_SIZE % 2 ^ 64))
    (hpage : ms.mmap_manager.mmap_map[vpn]? = some page) :
    ∃ ms', Reprotected prot [vpn] ms ms' ∧ ∀ vpns,
      mprotect_pages (mprotect_flags prot) prot (vpn :: vpns) ms =
        mprotect_pages (mprotect_flags prot) prot vpns ms' := by
  have hstep (vpns : List Nat) : mprotect_pages (mprotect_flags prot) prot (vpn :: vpns) ms =
      mprotect_pages (mprotect_flags prot) prot vpns (ms.with_mmap { ms.mmap_manager with
        mmap_map := ms.mmap_manager.mmap_map.insert vpn (page.set_prot perm) }) := by
    rw [mprotect_pages, show ms.page_table.find_pte vpn = none from hnone]
    dsimp only
    rw [hperm]
    dsimp only
    rw [if_pos (by exact hin), hpage]
    rfl
  have htable (m : MmapManager) (v : Nat) : (ms.with_mmap m).translate v = ms.translate v := rfl
  have hmap (m : MmapManager) : (ms.with_mmap m).mmap_manager.mmap_map = m.mmap_map := rfl
  refine ⟨_, ⟨mprotect_pages_keeps rfl rfl [vpn] (hstep []), fun v => ?_, fun v => ?_⟩, hstep⟩
  · rw [htable, List.map_singleton]
    rcases eq_or_ne (index v) (index vpn) with heq | hne
    · have hv : ms.translate v = none := (PageTable.find_pte_congr _ heq).trans hnone
      rw [hv]
      rfl
    · simp [hne]
  · rw [hmap]
    dsimp only
    rw [Std.TreeMap.getElem?_insert]
    rcases eq_or_ne vpn v with rfl | hne
    · simp [hnone, MmapPage.reprotect, hperm, hpage]
    · simp [hne, hne.symm]

theorem mprotect_page (h : ms.Changeable prot vpn) : ∃ ms', Reprotected prot [vpn] ms ms' ∧
    ∀ vpns, mprotect_pages (mprotect_flags prot) prot (vpn :: vpns) ms =
      mprotect_pages (mprotect_flags prot) prot vpns ms' := by
  cases hpte : ms.translate vpn with
  | some pte => exact mprotect_mapped hpte
  | none =>
    rcases h with hsome | ⟨hbits, hin, hpage⟩
    · rw [hpte] at hsome
      cases hsome
    · obtain ⟨perm, hperm⟩ := Option.isSome_iff_exists.mp hbits
      obtain ⟨page, hpage⟩ := Option.isSome_iff_exists.mp hpage
      exact mprotect_recorded hpte hperm hin hpage

/-- The loop over pages that can all be changed. -/
theorem mprotect_changeable (h : ∀ v ∈ before, ms.Changeable prot v) (after : List Nat) :
    ∃ ms', Reprotected prot before ms ms' ∧
      mprotect_pages (mprotect_flags prot) prot (before ++ after) ms =
        mprotect_pages (mprotect_flags prot) prot after ms' := by
  induction before generalizing ms with
  | nil => exact ⟨ms, Reprotected.refl ms, rfl⟩
  | cons vpn before ih =>
    obtain ⟨ms₁, hone, hstep⟩ := mprotect_page (h vpn List.mem_cons_self)
    obtain ⟨ms₂, hrest, hloop⟩ :=
      ih fun v hv => (hone.changeable v).mpr (h v (List.mem_cons_of_mem _ hv))
    exact ⟨ms₂, hone.cons hrest, (hstep _).trans hloop⟩

theorem mprotect_outside (h : ms.Outside prot v) (after : List Nat) :
    mprotect_pages (mprotect_flags prot) prot (v :: after) ms = .ok (.error .EINVAL, ms) := by
  obtain ⟨hnone, hbits, hout⟩ := h
  obtain ⟨perm, hperm⟩ := Option.isSome_iff_exists.mp hbits
  rw [mprotect_pages, show ms.page_table.find_pte v = none from hnone]
  dsimp only
  rw [hperm]
  exact if_neg hout

/-- At a page that cannot be changed the loop ends with the error, or it panics. -/
theorem mprotect_unchangeable {r : Result} (h : ¬ ms.Changeable prot v)
    (hok : mprotect_pages (mprotect_flags prot) prot (v :: after) ms = .ok (r, ms')) :
    ms.Outside prot v := by
  have hnone : ms.translate v = none := by
    rw [← Option.not_isSome_iff_eq_none]
    exact fun hsome => h (Or.inl hsome)
  rw [mprotect_pages, show ms.page_table.find_pte v = none from hnone] at hok
  dsimp only at hok
  split at hok
  · cases hok
  · rename_i perm hperm
    have hbits : (MmapProts.from_bits prot).isSome := by
      rw [hperm]
      rfl
    split at hok
    · rename_i hin
      split at hok
      · cases hok
      · rename_i page hpage
        exact absurd (Or.inr ⟨hbits, hin, Option.isSome_iff_exists.mpr ⟨page, hpage⟩⟩) h
    · rename_i hout
      exact ⟨hnone, hbits, hout⟩

/-- The pages that can be changed up to the first that cannot. -/
theorem changeable_prefix (ms : MemorySet) (prot : Nat) (vpns : List Nat) :
    (∀ v ∈ vpns, ms.Changeable prot v) ∨ ∃ before v after, vpns = before ++ v :: after ∧
      (∀ w ∈ before, ms.Changeable prot w) ∧ ¬ ms.Changeable prot v := by
  induction vpns with
  | nil => exact Or.inl fun v hv => nomatch hv
  | cons vpn vpns ih =>
    rcases em (ms.Changeable prot vpn) with hvpn | hvpn
    · rcases ih with hall | ⟨before, v, after, hsplit, hbefore, hv⟩
      · exact Or.inl (List.forall_mem_cons.mpr ⟨hvpn, hall⟩)
      · exact Or.inr ⟨vpn :: before, v, after, by rw [hsplit, List.cons_append],
          List.forall_mem_cons.mpr ⟨hvpn, hbefore⟩, hv⟩
    · exact Or.inr ⟨[], vpn, vpns, rfl, fun w hw => (List.not_mem_nil hw).elim, hvpn⟩

theorem translate_congr {w : Nat} (ms : MemorySet) (h : index w = index v) :
    ms.translate w = ms.translate v := PageTable.find_pte_congr _ h

theorem Reprotected.translate_same (h : Reprotected prot vpns ms ms')
    (hsame : ∀ w ∈ vpns, ms.Unaltered prot w) (v : Nat) : ms'.translate v = ms.translate v := by
  rw [h.translate v]
  cases hpte : ms.translate v with
  | none => rfl
  | some pte =>
    rw [Option.map_some]
    split
    · rename_i hmem
      obtain ⟨w, hw, heq⟩ := List.mem_map.mp hmem
      have hflags := hsame w hw
      rw [Unaltered, ms.translate_congr heq, hpte] at hflags
      rw [← hflags]
      rfl
    · rfl

theorem Reprotected.prot_same (h : Reprotected prot vpns ms ms')
    (hsame : ∀ w ∈ vpns, ms.Unaltered prot w) (v : Nat) :
    (ms'.mmap_manager.mmap_map[v]?).map MmapPage.prot =
      (ms.mmap_manager.mmap_map[v]?).map MmapPage.prot := by
  rw [h.page v]
  cases hpage : ms.mmap_manager.mmap_map[v]? with
  | none => rfl
  | some page =>
    rw [Option.map_some]
    split
    · rename_i hmem
      have hprot := hsame v hmem.1
      rw [Unaltered, hmem.2] at hprot
      rw [MmapPage.reprotect, ← hprot page hpage]
      rfl
    · rfl

/-- Where nothing has changed, the pages had the protection already. -/
theorem Reprotected.unaltered (h : Reprotected prot vpns ms ms') {w : Nat} (hw : w ∈ vpns)
    (hchangeable : ms.Changeable prot w) (htranslate : ms'.translate w = ms.translate w)
    (hprot : (ms'.mmap_manager.mmap_map[w]?).map MmapPage.prot =
      (ms.mmap_manager.mmap_map[w]?).map MmapPage.prot) : ms.Unaltered prot w := by
  unfold Unaltered
  cases hpte : ms.translate w with
  | some pte =>
    have hflags := h.translate w
    rw [htranslate, hpte, Option.map_some, if_pos (List.mem_map_of_mem hw)] at hflags
    exact congrArg PageTableEntry.flags (Option.some.inj hflags)
  | none =>
    intro page hpage
    rcases hchangeable with hsome | ⟨hbits, _, _⟩
    · rw [hpte] at hsome
      cases hsome
    · obtain ⟨perm, hperm⟩ := Option.isSome_iff_exists.mp hbits
      rw [h.page w, Option.mem_def.mp hpage, Option.map_some, if_pos ⟨hw, hpte⟩,
        MmapPage.reprotect, hperm] at hprot
      rw [hperm]
      exact hprot.symm

end Steps

section Faults

variable {ms ms' : MemorySet} {ph ph' : Phys} {va vpn prot : Nat} {pte pte' : PageTableEntry}
  {c : Int}

theorem shows_mapped (h : ms.translate vpn = some pte) :
    ms.Shows vpn prot ↔ pte.flags.Grants prot := by
  simp [Shows, protection, h]

theorem shows_unmapped (h : ms.translate vpn = none) : ms.Shows vpn prot ↔
    ∃ page ∈ ms.mmap_manager.mmap_map[vpn]?, (PTEFlags.from_map_ports page.prot).Grants prot := by
  simp [Shows, protection, h]

theorem grants_ports {prots : MmapProts} :
    (PTEFlags.from_map_ports prots ||| PTEFlags.U ||| PTEFlags.V).Grants prot ↔
      (PTEFlags.from_map_ports prots).Grants prot := by
  unfold PTEFlags.Grants
  rw [PTEFlags.or_r, PTEFlags.or_w, PTEFlags.or_r, PTEFlags.or_w, PTEFlags.or_x, PTEFlags.or_x]
  simp [PTEFlags.U, PTEFlags.V]

theorem lazy_mmap_shows (h : ms.lazy_mmap ph vpn = .ok (ms', ph')) :
    ms'.Shows vpn prot ↔ ∃ page ∈ ms.mmap_manager.mmap_map[vpn]?,
      (PTEFlags.from_map_ports page.prot).Grants prot := by
  obtain ⟨⟨frame, frame_map, ph₁⟩, _, h⟩ := bind_eq_ok.mp h
  dsimp only at h
  split at h
  · cases h
  · rename_i page hpage
    obtain ⟨⟨pt, ph₂⟩, hmap, h⟩ := bind_eq_ok.mp h
    obtain ⟨⟨page', ph₃⟩, _, h⟩ := bind_eq_ok.mp h
    cases h
    have hself := PageTable.Entered.self (PageTable.map_ok hmap).2
    rw [shows_mapped (by exact hself), grants_ports, hpage]
    simp

theorem window_shows (h : Laid ms) (hnone : ms.translate (floor va) = none)
    (hwindow : ms.Windowed va) (hlazy : ms.check_lazy ph va = .ok (c, ms', ph')) :
    ms'.Shows (floor va) prot ↔ window_flags.Grants prot := by
  rw [check_lazy_unmapped ph h hnone] at hlazy
  split at hlazy
  · obtain ⟨⟨ms₁, ph₁⟩, hstack, hlazy⟩ := map_eq_ok.mp hlazy
    cases hlazy
    obtain ⟨⟨area, pt, ph₂⟩, harea, hstack⟩ := bind_eq_ok.mp hstack
    cases hstack
    obtain ⟨_, _, ⟨ppn, hpt⟩, _⟩ := VmArea.lazy_map_vpn_ok harea
    rw [h.stack_user] at hpt
    exact @shows_mapped _ _ _ ⟨ppn, _⟩ hpt.self
  · rename_i hstack
    rw [if_pos (hwindow.resolve_left hstack)] at hlazy
    obtain ⟨⟨ms₁, ph₁⟩, hheap, hlazy⟩ := map_eq_ok.mp hlazy
    cases hlazy
    obtain ⟨⟨area, pt, ph₂⟩, harea, hheap⟩ := bind_eq_ok.mp hheap
    cases hheap
    obtain ⟨_, _, ⟨ppn, hpt⟩, _⟩ := VmArea.lazy_map_vpn_ok harea
    rw [h.heap_user] at hpt
    exact @shows_mapped _ _ _ ⟨ppn, _⟩ hpt.self

theorem mmap_shows (h : Laid ms) (hnone : ms.translate (floor va) = none)
    (hwindow : ¬ ms.Windowed va) (hlazy : ms.check_lazy ph va = .ok (c, ms', ph')) :
    ms'.Shows (floor va) prot ↔ ∃ page ∈ ms.mmap_manager.mmap_map[floor va]?,
      (PTEFlags.from_map_ports page.prot).Grants prot := by
  rw [check_lazy_unmapped ph h hnone, if_neg fun hstack => hwindow (Or.inl hstack),
    if_neg fun hheap => hwindow (Or.inr hheap)] at hlazy
  split at hlazy
  · obtain ⟨⟨ms₁, ph₁⟩, hmmap, hlazy⟩ := map_eq_ok.mp hlazy
    cases hlazy
    exact lazy_mmap_shows hmmap
  · cases hlazy
    exact shows_unmapped hnone

theorem lasts_unmapped (h : Laid ms) (hnone : ms.translate vpn = none) : ms.Lasts vpn prot ↔
    (∃ page ∈ ms.mmap_manager.mmap_map[vpn]?, (PTEFlags.from_map_ports page.prot).Grants prot) ∧
      (ms.InWindow vpn → window_flags.Grants prot) := by
  rw [Lasts, shows_unmapped hnone]
  constructor
  · rintro ⟨hshows, hlasts⟩
    refine ⟨hshows, ?_⟩
    rintro ⟨va, rfl, hwindow⟩
    -- with three frames to allocate the fault is served
    let ph : Phys := ⟨StackFrameAllocator.new.init 0 3, fun _ _ => 0⟩
    have hframes : 3 ≤ ph.allocator.available := by decide
    have hserved : ms.Served ph va := by
      rcases em (ms.OnStack va) with hstack | hstack
      · exact stack_served h hnone hframes hstack
      · exact heap_served h hnone hframes hstack (hwindow.resolve_left hstack)
    obtain ⟨ms', ph', hlazy, _⟩ := hserved
    exact (window_shows h hnone hwindow hlazy).mp (hlasts ph va 0 ms' ph' rfl hlazy)
  · rintro ⟨hshows, hgrants⟩
    refine ⟨hshows, ?_⟩
    rintro ph va c ms' ph' rfl hlazy
    rcases em (ms.Windowed va) with hwindow | hwindow
    · exact (window_shows h hnone hwindow hlazy).mpr (hgrants ⟨va, rfl, hwindow⟩)
    · exact (mmap_shows h hnone hwindow hlazy).mpr hshows

/-- A copy-on-write fault adds the W bit and leaves the other two. -/
theorem cow_alloc_flags (hpte : ms.translate vpn = some pte)
    (h : ms.cow_alloc ph vpn pte.ppn = .ok (ms', ph')) : ∃ pte', ms'.translate vpn = some pte' ∧
      pte'.flags.r = pte.flags.r ∧ pte'.flags.w = true ∧ pte'.flags.x = pte.flags.x := by
  have hfind : ms.page_table.find_pte vpn = some pte := hpte
  have hv : pte.flags.v = true := PageTable.is_valid_of_find_pte hfind
  have hcow := h
  unfold MemorySet.cow_alloc at h
  obtain ⟨n, hone, h⟩ := bind_eq_ok.mp h
  rcases eq_or_ne n 1 with rfl | hn
  · rw [cow_alloc_alone hpte hone] at hcow
    cases hcow
    have hvalid : pte.flags.restored.v = true := by simp [PTEFlags.restored, hv]
    have htranslate := translate_reflag hpte hvalid vpn
    rw [if_pos rfl] at htranslate
    exact ⟨_, htranslate, by simp [PTEFlags.restored, PTEFlags.W]⟩
  · rw [if_neg hn] at h
    obtain ⟨⟨frame, ph₁⟩, _, h⟩ := bind_eq_ok.mp h
    simp only [PageTable.remap_cow, PageTable.update_pte_of_find hfind, bind, Except.bind, pure,
      Except.pure] at h
    have hentered : ms.page_table.Entered vpn ⟨frame.ppn, pte.flags ||| PTEFlags.W⟩
        (ms.page_table.set_entry vpn ⟨frame.ppn, pte.flags ||| PTEFlags.W⟩) :=
      PageTable.find_pte_update hfind (by simp [PageTableEntry.is_valid, hv])
    obtain ⟨htable, _⟩ := insert_cow_ok h (by
      rw [MemorySet.translate, PageTable.translate, hentered.self]
      rfl)
    refine ⟨⟨frame.ppn, pte.flags ||| PTEFlags.W⟩, ?_, by simp [PTEFlags.W]⟩
    rw [MemorySet.translate, htable]
    exact hentered.self

theorem lasts_mapped (hpte : ms.translate vpn = some pte) : ms.Lasts vpn prot ↔
    pte.flags.Grants prot ∧ (pte.is_cow = true → prot.testBit 1 = true) := by
  rw [Lasts, shows_mapped hpte]
  constructor
  · rintro ⟨hgrants, hlasts⟩
    refine ⟨hgrants, fun hcow => ?_⟩
    -- with no other tracker on the frame the page gets the W bit back
    let allocator : StackFrameAllocator :=
      { StackFrameAllocator.new with refcounter := Std.TreeMap.insert ∅ pte.ppn 1 }
    let ph : Phys := ⟨allocator, fun _ _ => 0⟩
    have hone : ph.allocator.enquire_ref pte.ppn = .ok 1 := by
      simp [ph, allocator, StackFrameAllocator.enquire_ref]
    have hfloor : floor (vpn * PAGE_SIZE) = vpn := Nat.mul_div_cancel vpn (by decide)
    have halloc := cow_alloc_alone hpte hone
    have hlazy : ms.check_lazy ph (vpn * PAGE_SIZE) =
        .ok (0, ms.reflag vpn pte pte.flags.restored, ph) := by
      simp only [check_lazy, hfloor, hpte, hcow, if_true, halloc]
      rfl
    obtain ⟨pte', hpte', _, hw, _⟩ := cow_alloc_flags hpte halloc
    have hshows := (shows_mapped hpte').mp (hlasts ph _ _ _ _ hfloor hlazy)
    exact hshows.2.1.symm.trans hw
  · rintro ⟨hgrants, hcow⟩
    refine ⟨hgrants, ?_⟩
    rintro ph va c ms' ph' rfl hlazy
    simp only [check_lazy, hpte] at hlazy
    split at hlazy
    · rename_i hmarked
      obtain ⟨⟨ms₁, ph₁⟩, halloc, hlazy⟩ := map_eq_ok.mp hlazy
      cases hlazy
      obtain ⟨pte', hpte', hr, hw, hx⟩ := cow_alloc_flags hpte halloc
      refine (shows_mapped hpte').mpr ⟨hr.trans hgrants.1, ?_, hx.trans hgrants.2.2⟩
      rw [hw, hcow hmarked]
    · cases hlazy
      exact (shows_mapped hpte).mpr hgrants

end Faults

section Call

variable {ms ms' : MemorySet} {prot v : Nat} {vpns : List Nat} {range : VPNRange}

theorem grants_mprotect (prot : Nat) : (mprotect_flags prot).Grants prot := by
  simp [mprotect_flags, PTEFlags.Grants, PTEFlags.from_map_permission, mprotect_perm, PTEFlags.V]

theorem grants_from_bits {perm : MmapProts} (h : MmapProts.from_bits prot = some perm) :
    (PTEFlags.from_map_ports perm).Grants prot := by
  unfold MmapProts.from_bits at h
  split at h
  · cases h
    exact ⟨rfl, rfl, rfl⟩
  · cases h

theorem Reprotected.windowed (h : Reprotected prot vpns ms ms') (v : Nat) :
    ms'.InWindow v ↔ ms.InWindow v := by
  simp only [InWindow, Windowed, OnStack, heap_end, h.keeps.stack_start, h.keeps.stack_end,
    h.keeps.brk_start]

/-- The page is in the range or it is not; the loop gets to those that are. -/
theorem Reprotected.shows_unmapped (h : Reprotected prot vpns ms ms')
    (hchangeable : ∀ v ∈ vpns, ms.Changeable prot v) (hnone : ms.translate v = none) :
    (∃ page ∈ ms'.mmap_manager.mmap_map[v]?, (PTEFlags.from_map_ports page.prot).Grants prot) ↔
      v ∈ vpns ∨ ∃ page ∈ ms.mmap_manager.mmap_map[v]?,
        (PTEFlags.from_map_ports page.prot).Grants prot := by
  rw [h.page v]
  rcases em (v ∈ vpns) with hv | hv
  · refine iff_of_true ?_ (Or.inl hv)
    rcases hchangeable v hv with hsome | ⟨hbits, _, hpage⟩
    · rw [hnone] at hsome
      cases hsome
    · obtain ⟨perm, hperm⟩ := Option.isSome_iff_exists.mp hbits
      obtain ⟨page, hpage⟩ := Option.isSome_iff_exists.mp hpage
      refine ⟨page.set_prot perm, ?_, grants_from_bits hperm⟩
      simp [hpage, hv, hnone, MmapPage.reprotect, hperm]
  · simp [hv]

theorem Reprotected.lasts_iff (h : Reprotected prot range.vpns ms ms') (hms : Laid ms)
    (hchangeable : ∀ v ∈ range.vpns, ms.Changeable prot v) (v : Nat) :
    ms'.Lasts v prot ↔ ms.Suited range prot v := by
  have htranslate := h.translate v
  have hmem : index v ∈ range.vpns.map index ↔ ∃ w ∈ range, index w = index v := by
    simp only [List.mem_map, VPNRange.mem_vpns]
  unfold Suited
  cases hpte : ms.translate v with
  | none =>
    rw [lasts_unmapped (hms.keeps h.keeps) ((h.unmapped v).mpr hpte),
      h.shows_unmapped hchangeable hpte, h.windowed v, VPNRange.mem_vpns]
  | some pte =>
    rw [hpte, Option.map_some] at htranslate
    rw [lasts_mapped htranslate]
    dsimp only
    rw [← hmem]
    split
    · rename_i hin
      refine iff_of_true ⟨grants_mprotect prot, ?_⟩ (Or.inl hin)
      intro hcow
      cases hcow
    · rename_i hout
      rw [or_iff_right hout]

/-- The call does all or nothing if and only if it is permitted. -/
theorem protects_iff (h : Laid ms) (addr length prot : Nat) :
    ms.Protects addr length prot ↔ ms.MprotectPermitted addr length prot := by
  have hcall {range : VPNRange} (hrange : mprotect_range addr length = .ok range) :
      ms.sys_mprotect addr length prot =
        mprotect_pages (mprotect_flags prot) prot range.vpns ms := by
    rw [sys_mprotect, hrange]
    rfl
  constructor
  · rintro ⟨r, ms', hok, hr⟩
    obtain ⟨range, hrange, _⟩ := bind_eq_ok.mp hok
    rw [hcall hrange] at hok
    refine ⟨range, hrange, ?_⟩
    rcases changeable_prefix ms prot range.vpns with hall | ⟨before, v, after, hsplit, hbefore, hv⟩
    · left
      obtain ⟨ms₁, hprotected, hloop⟩ := mprotect_changeable hall []
      rw [List.append_nil] at hloop
      cases hok.symm.trans hloop
      exact ⟨fun v hv => hall v (VPNRange.mem_vpns.mpr hv),
        fun v hasked => (hprotected.lasts_iff h hall v).mp (hr v hasked)⟩
    · right
      obtain ⟨ms₁, hprotected, hloop⟩ := mprotect_changeable hbefore (v :: after)
      rw [hsplit, hloop] at hok
      have hout := mprotect_unchangeable (fun hv₁ => hv ((hprotected.changeable v).mp hv₁)) hok
      have hstop := mprotect_outside hout after
      cases hok.symm.trans hstop
      exact ⟨before, v, after, hsplit, (hprotected.outside v).mp hout, fun w hw => ⟨hbefore w hw,
        hprotected.unaltered hw (hbefore w hw) (hr w).1 (hr w).2⟩⟩
  · rintro ⟨range, hrange, ⟨hall, hsuited⟩ | ⟨before, v, after, hsplit, hout, hbefore⟩⟩
    · have hall' : ∀ v ∈ range.vpns, ms.Changeable prot v :=
        fun v hv => hall v (VPNRange.mem_vpns.mp hv)
      obtain ⟨ms', hprotected, hloop⟩ := mprotect_changeable hall' []
      rw [List.append_nil] at hloop
      exact ⟨_, ms', (hcall hrange).trans hloop,
        fun v hasked => (hprotected.lasts_iff h hall' v).mpr (hsuited v hasked)⟩
    · obtain ⟨ms', hprotected, hloop⟩ :=
        mprotect_changeable (fun w hw => (hbefore w hw).1) (v :: after)
      rw [← hsplit, mprotect_outside ((hprotected.outside v).mpr hout) after] at hloop
      have hsame := fun w hw => (hbefore w hw).2
      exact ⟨_, ms', (hcall hrange).trans hloop,
        fun v => ⟨hprotected.translate_same hsame v, hprotected.prot_same hsame v⟩⟩

end Call

end MemorySet

namespace Machine

variable {text : KernelImage} {r : Nat} {ops : List MachineOp}

/-- In every state of a run, a change of protection does all or nothing if and only if it is
permitted. -/
theorem mprotect_protects : ∀ m ∈ states step (boot text r) ops, m.Every fun ms =>
    ∀ addr length prot, ms.Protects addr length prot ↔ ms.MprotectPermitted addr length prot :=
  fun m hm pid ms hms => MemorySet.protects_iff (laid ops m hm pid ms hms)

theorem mprotect_protects_page : ∃ m ms, run step (boot image 64) [.spawn one_page] = .ok m ∧
    m.space 0 = .ok ms ∧ ms.Protects 0x10000 4096 1 := by
  obtain ⟨m, hm, hspace⟩ : ∃ m, run step (boot image 64) [.spawn one_page] = .ok m ∧
      Meets (m.space 0) (fun _ => False) fun ms => (ms.translate 0x10).isSome :=
    Meets.exists_ok (by decide +kernel)
  obtain ⟨ms, hms, hmapped⟩ := hspace.exists_ok
  obtain ⟨pte, hpte⟩ := Option.isSome_iff_exists.mp hmapped
  refine ⟨m, ms, hm, hms, ?_⟩
  refine (mprotect_protects m (mem_states_of_run hm) 0 ms (space_ok hms) _ _ _).mpr
    ⟨⟨0x10, 0x11, by decide⟩, by rfl, Or.inl ⟨fun v hv => ?_, fun v hv => ?_⟩⟩
  · obtain rfl : v = 0x10 := by
      have := VPNRange.mem_def.mp hv
      dsimp only at this
      omega
    exact Or.inl hmapped
  · obtain ⟨va, hle, hlt, rfl⟩ := hv
    have hva : floor (virt_addr va) = 0x10 := by
      simp only [floor, virt_addr, PAGE_SIZE]
      split <;> omega
    rw [hva, MemorySet.Suited, hpte]
    exact Or.inl ⟨0x10, by decide, rfl⟩

/-- The page before the end of the program is changed before the next one is turned down. -/
theorem mprotect_halfway : ∃ m ms, run step (boot image 64) [.spawn one_page] = .ok m ∧
    m.space 0 = .ok ms ∧ ¬ ms.Protects 0x10000 8192 1 := by
  obtain ⟨m, hm, hspace⟩ : ∃ m, run step (boot image 64) [.spawn one_page] = .ok m ∧
      Meets (m.space 0) (fun _ => False) fun ms =>
        Meets (ms.sys_mprotect 0x10000 8192 1) (fun _ => False) fun s =>
          Meets s.1 (fun _ => True) (fun _ => False) ∧ s.2.translate 0x10 ≠ ms.translate 0x10 :=
    Meets.exists_ok (by decide +kernel)
  obtain ⟨ms, hms, hprotect⟩ := hspace.exists_ok
  obtain ⟨⟨r, ms'⟩, hok, hr, hne⟩ := hprotect.exists_ok
  refine ⟨m, ms, hm, hms, ?_⟩
  rintro ⟨r₁, ms₁, hok₁, hsame⟩
  cases hok.symm.trans hok₁
  cases r with
  | error e => exact hne (hsame 0x10).1
  | ok c => exact hr

end Machine

end MyGOS.Mm
