import MyGOS.Mm.LocalSteps

/-!
# Steps of the memory system calls

`remove` drops trackers and leaves the entries alone, so it keeps the pages
tracked only on a range of which no page maps a frame of the mmap manager
(`Clear`). `push` over such pages would make them pages that a fork does not
share.
-/

namespace MyGOS.Mm

open Outcome

def MemorySet.with_mmap (ms : MemorySet) (m : MmapManager) : MemorySet :=
  { ms with mmap_manager := m }

/-- No page of `[start, start + len)` maps a frame of the mmap manager. -/
def MemorySet.Clear (ms : MemorySet) (start len : Nat) : Prop :=
  match VPNRange.from_va start ((start + len) % 2 ^ 64) with
  | .ok range => ms.Untouched range
  | .error _ => True

instance (ms : MemorySet) (start len : Nat) : Decidable (ms.Clear start len) := by
  unfold MemorySet.Clear
  split <;> infer_instance

section WithMmap

variable {text : KernelImage} {E : Multiset Nat} {ms : MemorySet} {ph ph' : Phys} {vpn : Nat}
  {m m' : MmapManager}

/-- Another mmap manager, which still has the trackers of the mapped pages. -/
structure Remapped (ms : MemorySet) (m' : MmapManager) : Prop where
  slots : m'.frame_map.slots ≤ ms.mmap_slots
  kept : ∀ v pte, ms.translate v = some pte → (index v, pte.ppn) ∈ ms.mmap_slots →
    (index v, pte.ppn) ∈ m'.frame_map.slots
  valid : ∀ k, (ms.with_mmap m').MmapValid k → ms.MmapValid k
  manager : ms.mmap_manager.WellFormed → m'.WellFormed

theorem Tracked.with_mmap (hT : Tracked text ms) (h : Remapped ms m') :
    Tracked text (ms.with_mmap m') where
  mapped v pte hv := by
    refine (hT.mapped v pte hv).imp_right fun hmem => ?_
    rw [MemorySet.slots_mmap, Multiset.mem_add] at hmem ⊢
    exact hmem.imp_left (h.kept v pte hv)
  mmap_valid v hv := by
    obtain ⟨pte, hpte, hslot⟩ := hT.mmap_valid v (h.valid _ hv)
    exact ⟨pte, hpte, h.kept v pte hpte hslot⟩
  cow_apart v pte hv hcow hvalid := hT.cow_apart v pte hv hcow (h.valid _ hvalid)
  area_mapped := hT.area_mapped
  kinds := hT.kinds
  framed_stack := hT.framed_stack
  framed_heap := hT.framed_heap
  no_shm := hT.no_shm
  manager := h.manager hT.manager

theorem CowKept.with_mmap (hslots : m'.frame_map.slots ≤ ms.mmap_slots)
    (hvalid : ∀ k, ms.MmapValid k → (ms.with_mmap m').MmapValid k) :
    CowKept E ms (ms.with_mmap m') where
  writes v pte hv hw := Or.inl ⟨v, pte, hv, hw, rfl⟩
  shares hs := by
    have hshare {k : Nat} (h : ms.Shareable k) : (ms.with_mmap m').Shareable k :=
      h.imp_right fun h => h.imp_right (hvalid k)
    constructor
    · exact fun v pte hv hcow => hshare (hs.cow v pte hv hcow)
    · exact fun v pte hv hslot => hshare (hs.mmap v pte hv (Multiset.mem_of_le hslots hslot))

theorem owned_with_mmap (ms : MemorySet) (m : MmapManager) (E : Multiset Nat) :
    (ms.with_mmap m).owned + E = m.frame_map.owned + (ms.page_table.owned +
      (MemorySet.area_slots ms.map_areas + ms.user_stack_areas.frame_map.slots +
        ms.heap_areas.frame_map.slots).map Prod.snd + E) := by
  rw [MemorySet.owned, MemorySet.slots_mmap, Multiset.map_add, FrameMap.owned]
  simp only [MemorySet.with_mmap]
  ac_rfl

/-- One page that maps no frame of the mmap manager. -/
theorem remove_page_meets (hT : Tracked text ms) (h : Owned ph.allocator (ms.owned + E))
    (hclear : ∀ pte ∈ ms.translate vpn, (index vpn, pte.ppn) ∉ ms.mmap_slots) :
    Meets (MmapManager.remove_page (ms.mmap_manager, ph) vpn) (fun _ => False) fun r =>
      LocalStep text E ms ph (ms.with_mmap r.1) r.2 ∧ Remapped ms r.1 ∧
        ∀ k, ms.MmapValid k → (ms.with_mmap r.1).MmapValid k := by
  have hsame : ms = ms.with_mmap ms.mmap_manager := rfl
  rw [hsame, owned_with_mmap] at h
  obtain ⟨m', ph', hremove, hmoves, hslots, _, hget⟩ := FrameMap.remove_frame_spec h vpn
  have hkept : ∀ e ∈ ms.mmap_slots, e.1 ≠ index vpn → e ∈ m'.slots := by
    rintro ⟨k, p⟩ hmem hne
    obtain ⟨v, rfl, hv⟩ := FrameMap.mem_slots.mp hmem
    refine FrameMap.mem_slots.mpr ⟨v, rfl, ?_⟩
    rw [hget v, if_neg]
    · exact hv
    · rintro rfl
      exact hne rfl
  have hmapped : ∀ v pte, ms.translate v = some pte → (index v, pte.ppn) ∈ ms.mmap_slots →
      (index v, pte.ppn) ∈ m'.slots := by
    intro v pte hv hslot
    refine hkept _ hslot fun heq => ?_
    have htranslate : ms.translate vpn = some pte := (PageTable.find_pte_congr _ heq).symm.trans hv
    refine hclear pte htranslate ?_
    rwa [← show index v = index vpn from heq]
  unfold MmapManager.remove_page
  rw [hremove]
  have hremapped : Remapped ms { ms.mmap_manager with
      mmap_map := ms.mmap_manager.mmap_map.erase vpn, frame_map := m' } := by
    refine ⟨hslots, hmapped, ?_, ?_⟩
    · rintro k ⟨v, page, hv, hvalid, rfl⟩
      refine ⟨v, page, ?_, hvalid, rfl⟩
      rw [MemorySet.with_mmap, Std.TreeMap.getElem?_erase] at hv
      split at hv
      · cases hv
      · exact hv
    · intro hm
      have hold {v : Nat} {page : MmapPage}
          (hv : (ms.mmap_manager.mmap_map.erase vpn)[v]? = some page) :
          ms.mmap_manager.mmap_map[v]? = some page := by
        rw [Std.TreeMap.getElem?_erase] at hv
        split at hv
        · cases hv
        · exact hv
      exact ⟨fun v page hv => hm.keyed v page (hold hv), hm.start_aligned, hm.top_aligned,
        fun v page hv => hm.touched v page (hold hv)⟩
  refine ⟨⟨hT.with_mmap hremapped, ⟨?_, hmoves.base⟩, ?_⟩, hremapped, ?_⟩
  · rw [owned_with_mmap]
    exact hmoves.owned
  · nth_rewrite 1 [hsame]
    rw [owned_with_mmap, owned_with_mmap]
    exact Calm.of_le (add_le_add_left (Multiset.map_le_map hslots) _)
  · rintro k ⟨v, page, hv, hvalid, rfl⟩
    refine ⟨v, page, ?_, hvalid, rfl⟩
    rw [MemorySet.with_mmap, Std.TreeMap.getElem?_erase, if_neg]
    · exact hv
    · intro heq
      obtain ⟨pte, hpte, hslot⟩ := hT.mmap_valid v ⟨v, page, hv, hvalid, rfl⟩
      rw [Std.LawfulEqCmp.eq_of_compare heq] at hclear
      exact hclear pte hpte hslot

/-- What a call that changes only the mmap manager does. -/
structure MmapStep (text : KernelImage) (E : Multiset Nat) (ms : MemorySet) (ph : Phys)
    (m : MmapManager) (ph' : Phys) : Prop where
  step : LocalStep text E ms ph (ms.with_mmap m) ph'
  slots : m.frame_map.slots ≤ ms.mmap_slots
  valid : ∀ k, ms.MmapValid k → (ms.with_mmap m).MmapValid k

theorem remove_meets (hT : Tracked text ms) (h : Owned ph.allocator (ms.owned + E))
    {start len : Nat} (hclear : ms.Clear start len) :
    Meets (ms.mmap_manager.remove ph start len) (fun _ => True) fun r =>
      MmapStep text E ms ph r.1 r.2 := by
  unfold MmapManager.remove
  unfold MemorySet.Clear at hclear
  cases hrange : VPNRange.from_va start ((start + len) % 2 ^ 64) with
  | error e => trivial
  | ok range =>
    rw [hrange] at hclear
    refine Meets.foldlM (f := MmapManager.remove_page) (E := fun _ => True)
      (I := fun vpns s => (∀ vpn ∈ vpns, vpn ∈ range.vpns) ∧ MmapStep text E ms ph s.1 s.2)
      ?_ range.vpns (ms.mmap_manager, ph) ⟨fun _ hv => hv, LocalStep.refl hT h, le_refl _,
        fun _ hv => hv⟩ |>.mono fun _ hs => hs.2
    rintro vpn vpns ⟨m, ph₁⟩ ⟨hmem, hstep⟩
    have hclear' : ∀ pte ∈ (ms.with_mmap m).translate vpn,
        (index vpn, pte.ppn) ∉ (ms.with_mmap m).mmap_slots := fun pte hpte hslot =>
      hclear vpn (hmem vpn List.mem_cons_self) pte hpte (Multiset.mem_of_le hstep.slots hslot)
    refine ((remove_page_meets hstep.step.tracked hstep.step.moves.owned hclear').mono_error
      fun _ => False.elim).mono ?_
    rintro ⟨m', ph₂⟩ ⟨hstep', hremapped, hvalid⟩
    exact ⟨fun v hv => hmem v (List.mem_cons_of_mem _ hv), hstep.step.trans hstep',
      hremapped.slots.trans hstep.slots, fun k hk => hvalid k (hstep.valid k hk)⟩

end WithMmap

section Syscalls

variable {text : KernelImage} {E : Multiset Nat} {ms : MemorySet} {ph : Phys} {m' : MmapManager}
  {start len addr length prot flags offset : Nat} {fd : Option File}

/-- A new mapping; over pages that map a frame of the mmap manager it would take those out of
what a fork shares. -/
theorem push_steps (hT : Tracked text ms) (h : Owned ph.allocator (ms.owned + E))
    {p : MmapProts} {f : MmapFlags} {file : Option File}
    (hstart : page_offset start = 0) (hlen : page_offset len = 0) :
    Meets (ms.mmap_manager.push start len p f offset file) (fun _ => True) fun r =>
      LocalStep text E ms ph (ms.with_mmap r.2) ph ∧
        (ms.Clear start len → CowKept E ms (ms.with_mmap r.2)) := by
  cases hpush : ms.mmap_manager.push start len p f offset file with
  | error e => trivial
  | ok r =>
    obtain ⟨a, m'⟩ := r
    obtain ⟨rfl, hp⟩ := MmapManager.push_spec hpush
    have hslots : m'.frame_map.slots = ms.mmap_slots := by
      rw [hp.frame_map]
      rfl
    have hremapped : Remapped ms m' := by
      refine ⟨hslots.le, fun v pte hv hslot => by rwa [hslots], ?_, hp.wellFormed hstart hlen⟩
      rintro k ⟨v, page, hv, hvalid, rfl⟩
      exact ⟨v, page, hp.page v page hv hvalid, hvalid, rfl⟩
    have howned : (ms.with_mmap m').owned = ms.owned := by
      simp only [MemorySet.owned, MemorySet.slots_mmap, MemorySet.with_mmap, hp.frame_map]
    refine ⟨⟨hT.with_mmap hremapped, ⟨by rwa [howned], rfl⟩, by rw [howned]; exact Calm.refl _⟩,
      fun hclear => CowKept.with_mmap hslots.le ?_⟩
    rintro k ⟨v, page, hv, hvalid, rfl⟩
    refine ⟨v, page, ?_, hvalid, rfl⟩
    have hrange : ∃ r, VPNRange.from_va a ((a + len) % 2 ^ 64) = .ok r := by
      unfold MmapManager.push at hpush
      obtain ⟨r, hr, _⟩ := Outcome.bind_eq_ok.mp hpush
      exact ⟨r, hr⟩
    obtain ⟨r, hr⟩ := hrange
    unfold MemorySet.Clear at hclear
    rw [hr] at hclear
    rw [MemorySet.with_mmap, hp.kept r hr v]
    · exact hv
    · intro hmem
      obtain ⟨pte, hpte, hslot⟩ := hT.mmap_valid v ⟨v, page, hv, hvalid, rfl⟩
      exact hclear v (VPNRange.mem_vpns.mpr hmem) pte hpte hslot

/-- The place of a new mapping. -/
def MemorySet.mmap_place (ms : MemorySet) (addr : Nat) (flags : MmapFlags) : Nat :=
  if flags.fixed then virt_addr addr else if addr = 0 then ms.mmap_manager.mmap_top else 0

theorem page_offset_virt_addr (h : page_offset addr = 0) : page_offset (virt_addr addr) = 0 := by
  simp only [page_offset, PAGE_SIZE, virt_addr] at *
  split <;> omega

theorem mmap_steps (hT : Tracked text ms) (h : Owned ph.allocator (ms.owned + E))
    {p : MmapProts} {f : MmapFlags} (hlen : page_offset len = 0)
    (hfixed : f.fixed = true → ms.Clear (virt_addr addr) len) :
    Meets (ms.mmap ph addr len p f fd offset) (fun _ => True) fun r =>
      LocalStep text E ms ph r.2.1 r.2.2 ∧
        (ms.Clear (ms.mmap_place addr f) len → CowKept E ms r.2.1) := by
  unfold MemorySet.mmap MemorySet.mmap_place
  dsimp only
  split
  · trivial
  · rename_i haligned
    have haligned : page_offset addr = 0 := not_not.mp haligned
    cases hf : f.fixed with
    | true =>
      rw [hf] at hfixed
      simp only [if_true]
      refine (remove_meets hT h (hfixed rfl)).bind ?_
      rintro ⟨m, ph₁⟩ hstep
      simp only [pure_bind]
      refine (push_steps hstep.step.tracked hstep.step.moves.owned
        (page_offset_virt_addr haligned) hlen).bind ?_
      rintro ⟨a, m'⟩ ⟨hstep', hkept⟩
      refine ⟨hstep.step.trans hstep', fun hclear => ?_⟩
      refine (CowKept.with_mmap hstep.slots hstep.valid).trans (hkept ?_) hstep'.calm
      unfold MemorySet.Clear at hclear ⊢
      split at hclear
      · exact fun v hv pte hpte hslot =>
          hclear v hv pte hpte (Multiset.mem_of_le hstep.slots hslot)
      · trivial
    | false =>
      simp only [Bool.false_eq_true, if_false]
      refine Meets.bind (Q := fun r => r = (if addr = 0 then ms.mmap_manager.mmap_top else 0,
        ms.mmap_manager, ph)) rfl ?_
      rintro _ rfl
      refine (push_steps hT h ?_ hlen).bind fun r hr => hr
      split
      · exact hT.manager.top_aligned
      · rfl

/-- The length in whole pages. -/
def padded (length : Nat) : Nat :=
  (length + if length % PAGE_SIZE = 0 then 0 else PAGE_SIZE - length % PAGE_SIZE) % 2 ^ 64

theorem page_offset_padded (length : Nat) : page_offset (padded length) = 0 := by
  unfold padded
  split <;> simp only [page_offset, PAGE_SIZE] at * <;> omega

theorem sys_mmap_steps (hT : Tracked text ms) (h : Owned ph.allocator (ms.owned + E))
    (hfixed : ∀ f ∈ MmapFlags.from_bits flags, f.fixed = true →
      ms.Clear (virt_addr addr) (padded length)) :
    Meets (ms.sys_mmap ph addr length prot flags fd offset) (fun _ => True) fun r =>
      LocalStep text E ms ph r.2.1 r.2.2 ∧
        ((∀ f ∈ MmapFlags.from_bits flags, ms.Clear (ms.mmap_place addr f) (padded length)) →
          CowKept E ms r.2.1) := by
  unfold MemorySet.sys_mmap
  split
  · exact ⟨LocalStep.refl hT h, fun _ => CowKept.refl ms⟩
  · dsimp only
    split
    · trivial
    · trivial
    · rename_i p f hp hf
      split
      · exact ⟨LocalStep.refl hT h, fun _ => CowKept.refl ms⟩
      · refine (mmap_steps hT h (page_offset_padded length) (hfixed f hf)).bind ?_
        exact fun r hr => ⟨hr.1, fun hclear => hr.2 (hclear f hf)⟩

theorem sys_munmap_steps (hT : Tracked text ms) (h : Owned ph.allocator (ms.owned + E))
    (hclear : ms.Clear addr length) :
    Meets (ms.sys_munmap ph addr length) (fun _ => True) fun r =>
      LocalStep text E ms ph r.2.1 r.2.2 ∧ CowKept E ms r.2.1 := by
  refine (remove_meets hT h hclear).bind ?_
  exact fun r hr => ⟨hr.step, CowKept.with_mmap hr.slots hr.valid⟩

/-- Only `brk` changes. -/
theorem brk_steps (hT : Tracked text ms) (h : Owned ph.allocator (ms.owned + E)) (brk : Nat) :
    LocalStep text E ms ph { ms with brk := brk } ph ∧ CowKept E ms { ms with brk := brk } := by
  refine ⟨⟨?_, Moves.refl h, Calm.refl _⟩, ?_, ?_⟩
  · exact ⟨hT.mapped, hT.mmap_valid, hT.cow_apart, hT.area_mapped, hT.kinds, hT.framed_stack,
      hT.framed_heap, hT.no_shm, hT.manager⟩
  · exact fun v pte hv hw => Or.inl ⟨v, pte, hv, hw, rfl⟩
  · exact fun hs => ⟨hs.cow, hs.mmap⟩

theorem grow_proc_meets (ms : MemorySet) (grow_size : Int) :
    Meets (ms.grow_proc grow_size) (fun _ => True) fun r => ∃ brk, r.2 = { ms with brk := brk } := by
  unfold MemorySet.grow_proc
  dsimp only
  split <;> split <;> first | trivial | exact ⟨_, rfl⟩

theorem sys_brk_steps (hT : Tracked text ms) (h : Owned ph.allocator (ms.owned + E)) (brk : Nat) :
    Meets (ms.sys_brk brk) (fun _ => True) fun r =>
      LocalStep text E ms ph r.2 ph ∧ CowKept E ms r.2 := by
  unfold MemorySet.sys_brk
  refine (grow_proc_meets ms 0).bind ?_
  rintro ⟨former, _⟩ ⟨b, rfl⟩
  dsimp only
  split
  · exact brk_steps hT h b
  · refine (grow_proc_meets _ _).bind ?_
    rintro ⟨a, _⟩ ⟨b', rfl⟩
    exact brk_steps hT h b'

end Syscalls

section Mprotect

variable {text : KernelImage} {E : Multiset Nat} {ms : MemorySet} {ph : Phys}

/-- The pages that the loop of `sys_mprotect` comes to before it fails. -/
def MemorySet.mprotect_reached (ms : MemorySet) (vpns : List Nat) : List Nat :=
  vpns.takeWhile fun vpn => (ms.translate vpn).isSome ||
    decide (ms.mmap_manager.mmap_start ≤ vpn * PAGE_SIZE % 2 ^ 64 ∧
      vpn * PAGE_SIZE % 2 ^ 64 < ms.mmap_manager.mmap_top)

/-- The pages that it comes to and that are mapped have their frame for themselves. -/
def MemorySet.Unshared (ms : MemorySet) (M : Multiset Nat) (vpns : List Nat) : Prop :=
  ∀ vpn ∈ ms.mprotect_reached vpns, ∀ pte ∈ ms.translate vpn, M.count pte.ppn ≤ 1

instance (ms : MemorySet) (M : Multiset Nat) (vpns : List Nat) :
    Decidable (ms.Unshared M vpns) :=
  inferInstanceAs (Decidable (∀ vpn ∈ ms.mprotect_reached vpns, ∀ pte ∈ ms.translate vpn, _))

theorem set_prot_steps (hT : Tracked text ms) (h : Owned ph.allocator (ms.owned + E)) {vpn : Nat}
    {page : MmapPage} (hpage : ms.mmap_manager.mmap_map[vpn]? = some page) (prot : MmapProts) :
    let m' := { ms.mmap_manager with
      mmap_map := ms.mmap_manager.mmap_map.insert vpn (page.set_prot prot) }
    LocalStep text E ms ph (ms.with_mmap m') ph ∧ CowKept E ms (ms.with_mmap m') := by
  intro m'
  have hvalid (k : Nat) : (ms.with_mmap m').MmapValid k ↔ ms.MmapValid k := by
    constructor
    · rintro ⟨v, page', hv, hvalid, rfl⟩
      rw [MemorySet.with_mmap, Std.TreeMap.getElem?_insert] at hv
      split at hv
      · rename_i heq
        cases hv
        rw [← Std.LawfulEqCmp.eq_of_compare heq]
        exact ⟨vpn, page, hpage, hvalid, rfl⟩
      · exact ⟨v, page', hv, hvalid, rfl⟩
    · rintro ⟨v, page', hv, hvalid, rfl⟩
      rcases eq_or_ne vpn v with rfl | hne
      · cases hpage.symm.trans hv
        exact ⟨vpn, page.set_prot prot, Std.TreeMap.getElem?_insert_self, hvalid, rfl⟩
      · refine ⟨v, page', ?_, hvalid, rfl⟩
        rw [MemorySet.with_mmap, Std.TreeMap.getElem?_insert, if_neg]
        · exact hv
        · exact fun heq => hne (Std.LawfulEqCmp.eq_of_compare heq)
  have hm : m'.WellFormed := by
    refine hT.manager.insert (hT.manager.keyed vpn page hpage) fun hv => ?_
    exact hT.manager.touched vpn page hpage hv
  have hremapped : Remapped ms m' :=
    ⟨le_refl _, fun _ _ _ hslot => hslot, fun k => (hvalid k).mp, fun _ => hm⟩
  exact ⟨⟨hT.with_mmap hremapped, Moves.refl h, Calm.refl _⟩,
    CowKept.with_mmap (le_refl _) fun k => (hvalid k).mpr⟩

/-- The induction is on the pages to come; what the loop did to the earlier ones changes neither
which pages are mapped nor the bounds of the mappings. -/
theorem mprotect_pages_steps {flags : PTEFlags} (prot : Nat) (hv : flags.v = true)
    (hcow : flags.cow = false) (vpns : List Nat) (hT : Tracked text ms)
    (h : Owned ph.allocator (ms.owned + E)) :
    Meets (MemorySet.mprotect_pages flags prot vpns ms) (fun _ => True) fun r =>
      LocalStep text E ms ph r.2 ph ∧
        ((flags.w = true → ms.Unshared (ms.owned + E) vpns) → CowKept E ms r.2) := by
  induction vpns generalizing ms with
  | nil => exact ⟨LocalStep.refl hT h, fun _ => CowKept.refl ms⟩
  | cons vpn vpns ih =>
    unfold MemorySet.mprotect_pages
    split
    · rename_i pte hpte
      have hpte : ms.translate vpn = some pte := hpte
      have hcow' : flags.cow = true → pte.is_cow = true := by simp [hcow]
      have hstep := hT.localStep_reflag h hpte hv hcow'
      refine (ih hstep.tracked h).mono ?_
      rintro ⟨r, ms'⟩ ⟨hstep', hkept⟩
      refine ⟨hstep.trans hstep', fun hshare => ?_⟩
      have hisSome (v : Nat) : ((ms.reflag vpn pte flags).translate v).isSome =
          (ms.translate v).isSome := by
        rw [MemorySet.translate_reflag hpte hv]
        split
        · rename_i heq
          rw [show ms.translate v = ms.translate vpn from PageTable.find_pte_congr _ heq, hpte]
          rfl
        · rfl
      have hreached : ms.mprotect_reached (vpn :: vpns) =
          vpn :: (ms.reflag vpn pte flags).mprotect_reached vpns := by
        rw [MemorySet.mprotect_reached, List.takeWhile_cons, hpte]
        simp only [MemorySet.mprotect_reached, hisSome]
        rfl
      refine CowKept.trans (CowKept.reflag hpte hv hcow' fun hw => ?_) (hkept fun hw => ?_)
        hstep'.calm
      · exact hshare hw vpn (by rw [hreached]; exact List.mem_cons_self) pte hpte
      · intro v hmem pte' hpte'
        rw [Option.mem_def, MemorySet.translate_reflag hpte hv] at hpte'
        have hmem' : v ∈ ms.mprotect_reached (vpn :: vpns) := by
          rw [hreached]
          exact List.mem_cons_of_mem _ hmem
        split at hpte'
        · cases hpte'
          exact hshare hw vpn (by rw [hreached]; exact List.mem_cons_self) pte hpte
        · exact hshare hw v hmem' pte' hpte'
    · rename_i hnone
      have hnone : ms.translate vpn = none := hnone
      dsimp only
      split
      · trivial
      · rename_i perm hperm
        split
        · rename_i hbounds
          split
          · trivial
          · rename_i page hpage
            obtain ⟨hstep, hkept⟩ := set_prot_steps hT h hpage perm
            refine (ih hstep.tracked h).mono ?_
            rintro ⟨r, ms'⟩ ⟨hstep', hkept'⟩
            refine ⟨hstep.trans hstep', fun hshare => hkept.trans (hkept' fun hw => ?_)
              hstep'.calm⟩
            intro v hmem pte' hpte'
            refine hshare hw v ?_ pte' hpte'
            rw [MemorySet.mprotect_reached, List.takeWhile_cons, if_pos]
            · exact List.mem_cons_of_mem _ hmem
            · rw [decide_eq_true hbounds, Bool.or_true]
        · exact ⟨LocalStep.refl hT h, fun _ => CowKept.refl ms⟩

theorem sys_mprotect_steps (hT : Tracked text ms) (h : Owned ph.allocator (ms.owned + E))
    (addr length prot : Nat) :
    Meets (ms.sys_mprotect addr length prot) (fun _ => True) fun r =>
      LocalStep text E ms ph r.2 ph ∧
        ((prot.testBit 1 = true → ∀ range, MemorySet.mprotect_range addr length = .ok range →
          ms.Unshared (ms.owned + E) range.vpns) → CowKept E ms r.2) := by
  unfold MemorySet.sys_mprotect
  dsimp only
  cases hrange : MemorySet.mprotect_range addr length with
  | error e => trivial
  | ok range =>
    refine (mprotect_pages_steps prot rfl rfl range.vpns hT h).mono ?_
    rintro r ⟨hstep, hkept⟩
    refine ⟨hstep, fun hshare => hkept fun hw => hshare ?_ range rfl⟩
    simpa [PTEFlags.from_map_permission, MemorySet.mprotect_perm, PTEFlags.V] using hw

end Mprotect

end MyGOS.Mm
