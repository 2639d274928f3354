import MyGOS.Mm.ForkLayout

/-!
# Where the frames of a page table come from

The allocator gives out the frames behind `base`. A fork adds entries for such
frames, for the trampolines and for what the parent maps, so it keeps every
relation between pages and frames that allows these.
-/

namespace MyGOS.Mm

open Outcome

/-- The frames to allocate and the counted ones lie behind `base`. -/
structure FramesFrom (base : Nat) (a : StackFrameAllocator) : Prop where
  current : base ≤ a.current
  recycled : ∀ ppn ∈ a.recycled, base ≤ ppn
  counted : ∀ ppn c, a.refcounter[ppn]? = some c → base ≤ ppn

theorem Owned.frames_from {a : StackFrameAllocator} {M : Multiset Nat} (h : Owned a M) :
    FramesFrom a.base_num a where
  current := Exact.base_le h
  recycled ppn hppn := ((h.recycled ppn).mp hppn).1.1
  counted ppn _ hc := (h.inRange ppn (Exact.live_of_counter h hc).2).1

namespace FramesFrom

variable {base ppn : Nat} {a a' : StackFrameAllocator} {ph ph' : Phys} {frame : FrameTracker}

theorem counter (h : FramesFrom base a) (hppn : base ≤ ppn) (c : UInt8) :
    FramesFrom base { a with refcounter := a.refcounter.insert ppn c } := by
  refine ⟨h.current, h.recycled, fun q d hq => ?_⟩
  rw [Std.TreeMap.getElem?_insert] at hq
  split at hq
  · rename_i heq
    rwa [← Std.LawfulEqCmp.compare_eq_iff_eq.mp heq]
  · exact h.counted q d hq

theorem alloc (h : FramesFrom base a) (ha : a.alloc = some (ppn, a')) :
    base ≤ ppn ∧ FramesFrom base a' := by
  unfold StackFrameAllocator.alloc at ha
  split at ha
  · rename_i top rest hrec
    cases ha
    have htop : base ≤ ppn := h.recycled ppn (by rw [hrec]; exact List.mem_cons_self)
    refine ⟨htop, h.current, fun q hq => h.recycled q ?_, (h.counter htop 0).counted⟩
    rw [hrec]
    exact List.mem_cons_of_mem _ hq
  · split at ha
    · cases ha
    · cases ha
      exact ⟨h.current, Nat.le_succ_of_le h.current, h.recycled,
        (h.counter h.current 0).counted⟩

theorem add_ref (h : FramesFrom base a) (ha : a.add_ref ppn = .ok a') : FramesFrom base a' := by
  unfold StackFrameAllocator.add_ref at ha
  split at ha
  · cases ha
  · rename_i c hc
    cases ha
    exact h.counter (h.counted ppn c hc) _

theorem dealloc (h : FramesFrom base a) (ha : a.dealloc ppn = .ok a') : FramesFrom base a' := by
  unfold StackFrameAllocator.dealloc at ha
  split at ha
  · cases ha
  · rename_i c hc
    have hppn := h.counted ppn c hc
    split at ha
    · cases ha
    · split at ha
      · split at ha
        · cases ha
        · cases ha
          refine ⟨h.current, fun q hq => ?_, fun q d hq => ?_⟩
          · rcases List.mem_cons.mp hq with rfl | hq
            · exact hppn
            · exact h.recycled q hq
          · rw [Std.TreeMap.getElem?_erase] at hq
            split at hq
            · cases hq
            · exact h.counted q d hq
      · cases ha
        exact h.counter hppn _

theorem alloc_frame (h : FramesFrom base ph.allocator) (ha : ph.alloc_frame = .ok (frame, ph')) :
    base ≤ frame.ppn ∧ FramesFrom base ph'.allocator := by
  obtain ⟨r, hr, ha⟩ := bind_eq_ok.mp ha
  cases r with
  | none => cases ha
  | some r =>
    cases ha
    unfold StackFrameAllocator.alloc_frame at hr
    split at hr
    · cases hr
    · rename_i ppn a₁ halloc
      obtain ⟨a₂, hadd, hr⟩ := bind_eq_ok.mp hr
      cases hr
      obtain ⟨hppn, h₁⟩ := h.alloc halloc
      exact ⟨hppn, h₁.add_ref hadd⟩

theorem from_ppn (h : FramesFrom base ph.allocator) (hf : ph.from_ppn ppn = .ok (frame, ph')) :
    FramesFrom base ph'.allocator := by
  obtain ⟨a, ha, hf⟩ := bind_eq_ok.mp hf
  cases hf
  exact h.add_ref ha

theorem drop (h : FramesFrom base ph.allocator) (hd : ph.drop frame = .ok ph') :
    FramesFrom base ph'.allocator := by
  obtain ⟨a, ha, hd⟩ := bind_eq_ok.mp hd
  cases hd
  exact h.dealloc ha

section Tables

variable {pt pt' : PageTable} {i vpn : Nat} {m m' : FrameMap}

theorem create_dir (h : FramesFrom base ph.allocator) (hc : pt.create_dir ph i = .ok (pt', ph')) :
    FramesFrom base ph'.allocator := by
  unfold PageTable.create_dir at hc
  split at hc
  · cases hc
    exact h
  · obtain ⟨⟨frame, ph₁⟩, halloc, hc⟩ := bind_eq_ok.mp hc
    cases hc
    exact (h.alloc_frame halloc).2

theorem create_tab (h : FramesFrom base ph.allocator) (hc : pt.create_tab ph i = .ok (pt', ph')) :
    FramesFrom base ph'.allocator := by
  unfold PageTable.create_tab at hc
  split at hc
  · cases hc
    exact h
  · obtain ⟨⟨frame, ph₁⟩, halloc, hc⟩ := bind_eq_ok.mp hc
    cases hc
    exact (h.alloc_frame halloc).2

theorem find_pte_create (h : FramesFrom base ph.allocator)
    (hc : pt.find_pte_create ph vpn = .ok (pt', ph')) : FramesFrom base ph'.allocator := by
  obtain ⟨⟨pt₁, ph₁⟩, hdir, htab⟩ := bind_eq_ok.mp hc
  exact (h.create_dir hdir).create_tab htab

theorem map {flags : PTEFlags} (h : FramesFrom base ph.allocator)
    (hm : pt.map ph vpn ppn flags = .ok (pt', ph')) : FramesFrom base ph'.allocator := by
  obtain ⟨⟨pt₁, ph₁⟩, hcreate, hm⟩ := bind_eq_ok.mp hm
  dsimp only at hm
  split at hm
  · cases hm
  · cases hm
    exact h.find_pte_create hcreate

theorem update_pte {f : PageTableEntry → PageTableEntry} (h : FramesFrom base ph.allocator)
    (hu : pt.update_pte ph vpn f = .ok (pt', ph')) : FramesFrom base ph'.allocator := by
  obtain ⟨⟨pt₁, ph₁⟩, hcreate, hu⟩ := bind_eq_ok.mp hu
  cases hu
  exact h.find_pte_create hcreate

theorem insert_frame (h : FramesFrom base ph.allocator)
    (hi : m.insert_frame ph vpn frame = .ok (m', ph')) : FramesFrom base ph'.allocator := by
  unfold FrameMap.insert_frame at hi
  split at hi
  · cases hi
    exact h
  · obtain ⟨ph₁, hdrop, hi⟩ := bind_eq_ok.mp hi
    cases hi
    exact h.drop hdrop

theorem drops {frames : List FrameTracker} (h : FramesFrom base ph.allocator)
    (hd : frames.foldlM Phys.drop ph = .ok ph') : FramesFrom base ph'.allocator :=
  foldlM_ok (I := fun _ ph => FramesFrom base ph.allocator)
    (fun _ _ _ _ h hstep => h.drop hstep) h hd

theorem drop_map (h : FramesFrom base ph.allocator) (hd : m.drop ph = .ok ph') :
    FramesFrom base ph'.allocator :=
  foldlM_ok (I := fun _ ph => FramesFrom base ph.allocator)
    (fun _ _ _ _ h hstep => h.drop hstep) h hd

theorem drop_areas {areas : List VmArea} (h : FramesFrom base ph.allocator)
    (hd : areas.foldlM (fun ph area => area.frame_map.drop ph) ph = .ok ph') :
    FramesFrom base ph'.allocator :=
  foldlM_ok (I := fun _ ph => FramesFrom base ph.allocator)
    (fun _ _ _ _ h hstep => h.drop_map hstep) h hd

theorem drop_space {ms : MemorySet} (h : FramesFrom base ph.allocator)
    (hd : ms.drop ph = .ok ph') : FramesFrom base ph'.allocator := by
  obtain ⟨ph₁, h₁, hd⟩ := bind_eq_ok.mp hd
  obtain ⟨ph₂, h₂, hd⟩ := bind_eq_ok.mp hd
  obtain ⟨ph₃, h₃, hd⟩ := bind_eq_ok.mp hd
  obtain ⟨ph₄, h₄, hd⟩ := bind_eq_ok.mp hd
  obtain ⟨ph₅, h₅, hd⟩ := bind_eq_ok.mp hd
  exact (((((h.drops h₁).drop_areas h₂).drop_map h₃).drop_map h₄).drop_areas h₅).drop_map hd

theorem clone (h : FramesFrom base ph.allocator) (hc : m.clone ph = .ok (m', ph')) :
    FramesFrom base ph'.allocator := by
  refine foldlM_ok (I := fun _ s => FramesFrom base s.2.allocator) ?_ h hc
  rintro e _ ⟨m₁, ph₁⟩ ⟨m₂, ph₂⟩ h hstep
  obtain ⟨⟨frame, ph₃⟩, hfrom, hstep⟩ := bind_eq_ok.mp hstep
  cases hstep
  exact h.from_ppn hfrom

end Tables

end FramesFrom

/-- Every page is mapped to a frame that `Q` allows it. -/
def PageTable.Within (Q : Nat → Nat → Prop) (pt : PageTable) : Prop :=
  ∀ v pte, pt.find_pte v = some pte → Q (index v) pte.ppn

/-- `Q` allows the frames behind `base` everywhere, and the trampolines in their places. -/
structure Allows (text : KernelImage) (base : Nat) (Q : Nat → Nat → Prop) : Prop where
  frame : ∀ i ppn, base ≤ ppn → Q i ppn
  strampoline : Q (index (floor TRAMPOLINE)) text.strampoline
  user_sigreturn : Q (index (floor SIGNAL_TRAMPOLINE)) text.user_sigreturn

/-- Both tables of a copy on write. -/
structure CowState.Within (base : Nat) (Q : Nat → Nat → Prop) (s : CowState) : Prop where
  frames : FramesFrom base s.ph.allocator
  parent : s.parent.Within Q
  child : s.child.Within Q

section Within

variable {text : KernelImage} {base vpn : Nat} {Q : Nat → Nat → Prop} {pt pt' : PageTable}
  {pte : PageTableEntry} {ph ph' : Phys} {s s' : CowState} {area area' : VmArea}

theorem PageTable.Within.entered (h : pt.Within Q) (hpt : pt.Entered vpn pte pt')
    (hq : Q (index vpn) pte.ppn) : pt'.Within Q := by
  intro v pte' hv
  rw [hpt v] at hv
  split at hv
  · rename_i heq
    cases hv
    rwa [heq]
  · exact h v pte' hv

theorem PageTable.Within.map {ppn : Nat} {flags : PTEFlags} (h : pt.Within Q)
    (hq : Q (index vpn) ppn) (hm : pt.map ph vpn ppn flags = .ok (pt', ph')) : pt'.Within Q :=
  h.entered (PageTable.map_ok hm).2 hq

theorem PageTable.within_new (h : PageTable.new ph = .ok (pt, ph')) : pt.Within Q := by
  obtain ⟨⟨frame, ph₁⟩, _, h⟩ := bind_eq_ok.mp h
  cases h
  intro v pte hv
  cases hv

namespace CowState.Within

theorem share_page (h : s.Within base Q) (hpte : s.parent.find_pte vpn = some pte)
    (hs : s.share_page vpn pte = .ok s') : s'.Within base Q := by
  have hq := h.parent vpn pte hpte
  obtain ⟨hparent, _, hchild, _⟩ := share_page_entered hpte hs
  refine ⟨?_, h.parent.entered hparent hq, h.child.entered hchild hq⟩
  obtain ⟨⟨par₁, ph₁⟩, hflags, hs⟩ := bind_eq_ok.mp hs
  obtain ⟨⟨par₂, ph₂⟩, hcow, hs⟩ := bind_eq_ok.mp hs
  obtain ⟨⟨child₁, ph₃⟩, hmap, hs⟩ := bind_eq_ok.mp hs
  obtain ⟨⟨child₂, ph₄⟩, hcow', hs⟩ := bind_eq_ok.mp hs
  cases hs
  exact (((h.frames.update_pte hflags).update_pte hcow).map hmap).update_pte hcow'

theorem track_page (h : s.Within base Q) (hpte : s.parent.find_pte vpn = some pte)
    (hs : s.track_page vpn pte = .ok s') : s'.Within base Q := by
  obtain ⟨s₁, hshare, hs⟩ := bind_eq_ok.mp hs
  obtain ⟨⟨frame, ph₁⟩, hfrom, hs⟩ := bind_eq_ok.mp hs
  obtain ⟨⟨m, ph₂⟩, hinsert, hs⟩ := bind_eq_ok.mp hs
  cases hs
  have h₁ := h.share_page hpte hshare
  exact ⟨(h₁.frames.from_ppn hfrom).insert_frame hinsert, h₁.parent, h₁.child⟩

theorem track_mapped (h : s.Within base Q) (hs : s.track_mapped vpn = .ok s') :
    s'.Within base Q := by
  unfold CowState.track_mapped at hs
  split at hs
  · cases hs
  · rename_i pte hpte
    exact h.track_page hpte hs

theorem track_lazy (h : s.Within base Q) (hs : s.track_lazy vpn = .ok s') :
    s'.Within base Q := by
  unfold CowState.track_lazy at hs
  split at hs
  · cases hs
    exact h
  · rename_i pte hpte
    exact h.track_page hpte hs

theorem share_mmap {e : Nat × MmapPage} (h : s.Within base Q) (hs : s.share_mmap e = .ok s') :
    s'.Within base Q := by
  unfold CowState.share_mmap at hs
  split at hs
  · split at hs
    · cases hs
      exact h
    · rename_i pte hpte
      exact h.share_page hpte hs
  · cases hs
    exact h

theorem copy_page (h : s.Within base Q) (hs : s.copy_page vpn = .ok s') : s'.Within base Q := by
  unfold CowState.copy_page at hs
  split at hs
  · cases hs
    exact ⟨h.frames, h.parent, h.child⟩
  · cases hs

theorem share_shm (h : s.Within base Q) (hs : s.share_shm vpn = .ok s') : s'.Within base Q := by
  unfold CowState.share_shm at hs
  split at hs
  · cases hs
    exact h
  · rename_i pte hpte
    obtain ⟨⟨child, ph₁⟩, hmap, hs⟩ := bind_eq_ok.mp hs
    cases hs
    exact ⟨h.frames.map hmap, h.parent, h.child.map (h.parent vpn pte hpte) hmap⟩

theorem copy_shm_areas {areas : List VmArea} (h : s.Within base Q)
    (hs : areas.foldlM CowState.copy_shm_area s = .ok s') : s'.Within base Q :=
  foldlM_ok (I := fun _ s => s.Within base Q) (fun _ _ _ _ h hstep =>
    foldlM_ok (I := fun _ s => s.Within base Q) (fun _ _ _ _ h hstep => h.share_shm hstep)
      h hstep) h hs

theorem copy_lazy_area (h : s.Within base Q) (hs : s.copy_lazy_area area = .ok (s', area')) :
    s'.Within base Q := by
  obtain ⟨s₁, hloop, hs⟩ := bind_eq_ok.mp hs
  cases hs
  exact foldlM_ok (I := fun _ s => s.Within base Q) (fun _ _ _ _ h hstep => h.track_lazy hstep)
    ⟨h.frames, h.parent, h.child⟩ hloop

end CowState.Within

/-- The pages of a framed area get frames of the allocator. -/
theorem inflate_within (hQ : Allows text base Q) (hframed : area.map_type = .Framed)
    (hf : FramesFrom base ph.allocator) (hpt : pt.Within Q)
    (h : area.inflate_pagetable pt ph = .ok (area', pt', ph')) :
    area'.map_type = .Framed ∧ FramesFrom base ph'.allocator ∧ pt'.Within Q := by
  refine foldlM_ok (I := fun _ s => s.1.map_type = .Framed ∧ FramesFrom base s.2.2.allocator ∧
    s.2.1.Within Q) ?_ ⟨hframed, hf, hpt⟩ h
  rintro vpn _ ⟨area₁, pt₁, ph₁⟩ ⟨area₂, pt₂, ph₂⟩ ⟨hframed, hf, hpt⟩ hstep
  unfold VmArea.inflate_page at hstep
  dsimp only at hstep hframed
  split at hstep
  · rename_i hidentical
    cases hframed.symm.trans hidentical
  · obtain ⟨⟨frame, ph₃⟩, halloc, hstep⟩ := bind_eq_ok.mp hstep
    dsimp only at hstep
    split at hstep
    · cases hstep
    · obtain ⟨⟨pt₃, ph₄⟩, hmap, hstep⟩ := bind_eq_ok.mp hstep
      cases hstep
      obtain ⟨hframe, hf₁⟩ := hf.alloc_frame halloc
      exact ⟨hframed, hf₁.map hmap, hpt.map (hQ.frame _ _ hframe) hmap⟩

theorem CowState.Within.copy_area {acc acc' : List VmArea} (hQ : Allows text base Q)
    (hframed : area.map_type = .Framed) (h : s.Within base Q)
    (hacc : ∀ a ∈ acc, a.map_type = .Framed)
    (hs : CowState.copy_area (s, acc) area = .ok (s', acc')) :
    s'.Within base Q ∧ ∀ a ∈ acc', a.map_type = .Framed := by
  have hsnoc {a' : VmArea} (ha' : a'.map_type = .Framed) (a : VmArea) (ha : a ∈ acc ++ [a']) :
      a.map_type = .Framed := by
    rcases List.mem_append.mp ha with ha | ha
    · exact hacc a ha
    · rwa [List.mem_singleton.mp ha]
  unfold CowState.copy_area at hs
  dsimp only at hs
  split at hs
  · obtain ⟨⟨new_area, child, ph₁⟩, hinflate, hs⟩ := bind_eq_ok.mp hs
    obtain ⟨s₁, hcopy, hs⟩ := bind_eq_ok.mp hs
    cases hs
    have hnew : area.from_another.map_type = .Framed := hframed
    obtain ⟨hframed', hf, hchild⟩ := inflate_within hQ hnew h.frames h.child hinflate
    exact ⟨foldlM_ok (I := fun _ s => s.Within base Q) (fun _ _ _ _ h hstep => h.copy_page hstep)
      ⟨hf, h.parent, hchild⟩ hcopy, hsnoc hframed'⟩
  all_goals try cases hs
  all_goals
    obtain ⟨s₁, htrack, hs⟩ := bind_eq_ok.mp hs
    cases hs
    exact ⟨foldlM_ok (I := fun _ s => s.Within base Q)
      (fun _ _ _ _ h hstep => h.track_mapped hstep) ⟨h.frames, h.parent, h.child⟩ htrack,
      hsnoc hframed⟩

theorem CowState.Within.copy_areas {areas acc acc' : List VmArea} (hQ : Allows text base Q)
    (hframed : ∀ a ∈ areas, a.map_type = .Framed) (h : s.Within base Q)
    (hacc : ∀ a ∈ acc, a.map_type = .Framed)
    (hs : areas.foldlM CowState.copy_area (s, acc) = .ok (s', acc')) :
    s'.Within base Q ∧ ∀ a ∈ acc', a.map_type = .Framed := by
  refine (foldlM_ok (I := fun areas r => (∀ a ∈ areas, a.map_type = .Framed) ∧
    r.1.Within base Q ∧ ∀ a ∈ r.2, a.map_type = .Framed) ?_ ⟨hframed, h, hacc⟩ hs).2
  rintro area areas ⟨s₁, acc₁⟩ ⟨s₂, acc₂⟩ ⟨hframed, h, hacc⟩ hstep
  obtain ⟨harea, hareas⟩ := List.forall_mem_cons.mp hframed
  exact ⟨hareas, h.copy_area hQ harea hacc hstep⟩

end Within

section Fork

variable {text : KernelImage} {base : Nat} {Q : Nat → Nat → Prop} {ms par child : MemorySet}
  {ph ph' : Phys}

theorem new_bare_within (hf : FramesFrom base ph.allocator)
    (h : MemorySet.new_bare ph = .ok (ms, ph')) :
    FramesFrom base ph'.allocator ∧ ms.page_table.Within Q := by
  obtain ⟨⟨pt, ph₁⟩, hnew, h⟩ := bind_eq_ok.mp h
  obtain ⟨heap, _, h⟩ := bind_eq_ok.mp h
  obtain ⟨stack, _, h⟩ := bind_eq_ok.mp h
  cases h
  refine ⟨?_, PageTable.within_new hnew⟩
  obtain ⟨⟨frame, ph₂⟩, halloc, hnew⟩ := bind_eq_ok.mp hnew
  cases hnew
  exact (hf.alloc_frame halloc).2

/-- A fork keeps both page tables within what the parent's was in. -/
theorem from_copy_on_write_within (hQ : Allows text base Q) (hf : FramesFrom base ph.allocator)
    (hpt : ms.page_table.Within Q) (hframed : ∀ area ∈ ms.map_areas, area.map_type = .Framed)
    (h : ms.from_copy_on_write text ph = .ok (par, child, ph')) :
    FramesFrom base ph'.allocator ∧ par.page_table.Within Q ∧ child.page_table.Within Q ∧
      par = { ms with page_table := par.page_table } ∧
      ∀ area ∈ child.map_areas, area.map_type = .Framed := by
  obtain ⟨⟨ms₁, ph₁⟩, hbare, h⟩ := bind_eq_ok.mp h
  obtain ⟨⟨ms₂, ph₂⟩, htramp, h⟩ := bind_eq_ok.mp h
  obtain ⟨⟨ms₃, ph₃⟩, hsig, h⟩ := bind_eq_ok.mp h
  obtain ⟨⟨s₄, areas⟩, hareas, h⟩ := bind_eq_ok.mp h
  obtain ⟨⟨m, ph₅⟩, hclone, h⟩ := bind_eq_ok.mp h
  obtain ⟨s₆, hmmap, h⟩ := bind_eq_ok.mp h
  obtain ⟨⟨s₇, stack⟩, hstack, h⟩ := bind_eq_ok.mp h
  obtain ⟨⟨s₈, heap⟩, hheap, h⟩ := bind_eq_ok.mp h
  obtain ⟨s₉, hshm, h⟩ := bind_eq_ok.mp h
  cases h
  obtain ⟨hf₁, hpt₁⟩ := new_bare_within hf hbare
  obtain ⟨⟨pt₂, ph₂'⟩, hmap₂, htramp⟩ := bind_eq_ok.mp htramp
  cases htramp
  obtain ⟨⟨pt₃, ph₃'⟩, hmap₃, hsig⟩ := bind_eq_ok.mp hsig
  cases hsig
  have hstart : CowState.Within base Q ⟨ms.page_table, pt₃, ph₃, ∅⟩ :=
    ⟨(hf₁.map hmap₂).map hmap₃, hpt, (hpt₁.map hQ.strampoline hmap₂).map hQ.user_sigreturn hmap₃⟩
  obtain ⟨h₄, hframed₄⟩ := hstart.copy_areas hQ hframed
    (fun _ h => absurd h List.not_mem_nil) hareas
  have hf₅ : FramesFrom base ph₅.allocator := by
    obtain ⟨⟨map, ph₅'⟩, hmap, hclone⟩ := bind_eq_ok.mp hclone
    cases hclone
    exact h₄.frames.clone hmap
  have h₆ : s₆.Within base Q := foldlM_ok (I := fun _ s => s.Within base Q)
    (fun _ _ _ _ h hstep => h.share_mmap hstep) ⟨hf₅, h₄.parent, h₄.child⟩ hmmap
  have h₉ := ((h₆.copy_lazy_area hstack).copy_lazy_area hheap).copy_shm_areas hshm
  exact ⟨h₉.frames, h₉.parent, h₉.child, rfl, hframed₄⟩

end Fork

end MyGOS.Mm
