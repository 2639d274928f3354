import MyGOS.Mm.FrameOrigins

/-!
# Memory that a fork leaves alone

Frames below those of the allocator keep their bytes, whatever the allocator
gives out and takes back. A fork keeps the entries of the pages that lie in none
of the regions it shares, and copies those of the shared segments.
-/

namespace MyGOS.Mm

open Outcome

/-- Frames below `base` have the same bytes. -/
def SameBelow (base : Nat) (ph ph' : Phys) : Prop := ∀ q < base, ph'.bytes q = ph.bytes q

section Below

variable {base vpn ppn : Nat} {ph ph' ph'' : Phys} {frame : FrameTracker}

theorem SameBelow.refl (base : Nat) (ph : Phys) : SameBelow base ph ph := fun _ _ => rfl

theorem SameBelow.of_eq (h : ph'.bytes = ph.bytes) : SameBelow base ph ph' :=
  fun q _ => congrFun h q

theorem SameBelow.trans (h : SameBelow base ph ph') (h' : SameBelow base ph' ph'') :
    SameBelow base ph ph'' :=
  fun q hq => (h' q hq).trans (h q hq)

theorem alloc_frame_below (hf : FramesFrom base ph.allocator)
    (h : ph.alloc_frame = .ok (frame, ph')) : SameBelow base ph ph' := by
  obtain ⟨hle, _⟩ := hf.alloc_frame h
  obtain ⟨r, _, h⟩ := bind_eq_ok.mp h
  cases r with
  | none => cases h
  | some r =>
    cases h
    exact fun q hq => Function.update_of_ne (by omega) _ _

theorem from_ppn_bytes (h : ph.from_ppn ppn = .ok (frame, ph')) : ph'.bytes = ph.bytes := by
  obtain ⟨a, _, h⟩ := bind_eq_ok.mp h
  cases h
  rfl

theorem drop_bytes (h : ph.drop frame = .ok ph') : ph'.bytes = ph.bytes := by
  obtain ⟨a, _, h⟩ := bind_eq_ok.mp h
  cases h
  rfl

section Tables

variable {pt pt' : PageTable} {i : Nat} {m m' : FrameMap}

theorem create_dir_below (hf : FramesFrom base ph.allocator)
    (h : pt.create_dir ph i = .ok (pt', ph')) : SameBelow base ph ph' := by
  unfold PageTable.create_dir at h
  split at h
  · cases h
    exact .refl base ph
  · obtain ⟨⟨frame, ph₁⟩, halloc, h⟩ := bind_eq_ok.mp h
    cases h
    exact alloc_frame_below hf halloc

theorem create_tab_below (hf : FramesFrom base ph.allocator)
    (h : pt.create_tab ph i = .ok (pt', ph')) : SameBelow base ph ph' := by
  unfold PageTable.create_tab at h
  split at h
  · cases h
    exact .refl base ph
  · obtain ⟨⟨frame, ph₁⟩, halloc, h⟩ := bind_eq_ok.mp h
    cases h
    exact alloc_frame_below hf halloc

theorem find_pte_create_below (hf : FramesFrom base ph.allocator)
    (h : pt.find_pte_create ph vpn = .ok (pt', ph')) : SameBelow base ph ph' := by
  obtain ⟨⟨pt₁, ph₁⟩, hdir, htab⟩ := bind_eq_ok.mp h
  exact (create_dir_below hf hdir).trans (create_tab_below (hf.create_dir hdir) htab)

theorem map_below {flags : PTEFlags} (hf : FramesFrom base ph.allocator)
    (h : pt.map ph vpn ppn flags = .ok (pt', ph')) : SameBelow base ph ph' := by
  obtain ⟨⟨pt₁, ph₁⟩, hcreate, h⟩ := bind_eq_ok.mp h
  dsimp only at h
  split at h
  · cases h
  · cases h
    exact find_pte_create_below hf hcreate

theorem update_pte_below {f : PageTableEntry → PageTableEntry}
    (hf : FramesFrom base ph.allocator) (h : pt.update_pte ph vpn f = .ok (pt', ph')) :
    SameBelow base ph ph' := by
  obtain ⟨⟨pt₁, ph₁⟩, hcreate, h⟩ := bind_eq_ok.mp h
  cases h
  exact find_pte_create_below hf hcreate

theorem insert_frame_bytes (h : m.insert_frame ph vpn frame = .ok (m', ph')) :
    ph'.bytes = ph.bytes := by
  unfold FrameMap.insert_frame at h
  split at h
  · cases h
    rfl
  · obtain ⟨ph₁, hdrop, h⟩ := bind_eq_ok.mp h
    cases h
    exact drop_bytes hdrop

theorem drop_map_bytes (h : m.drop ph = .ok ph') : ph'.bytes = ph.bytes :=
  foldlM_ok (I := fun _ s => s.bytes = ph.bytes)
    (fun _ _ _ _ hs hstep => (drop_bytes hstep).trans hs) rfl h

theorem drop_areas_bytes {areas : List VmArea}
    (h : areas.foldlM (fun ph area => area.frame_map.drop ph) ph = .ok ph') :
    ph'.bytes = ph.bytes :=
  foldlM_ok (I := fun _ s => s.bytes = ph.bytes)
    (fun _ _ _ _ hs hstep => (drop_map_bytes hstep).trans hs) rfl h

theorem drop_space_bytes {ms : MemorySet} (h : ms.drop ph = .ok ph') : ph'.bytes = ph.bytes := by
  obtain ⟨ph₁, h₁, h⟩ := bind_eq_ok.mp h
  obtain ⟨ph₂, h₂, h⟩ := bind_eq_ok.mp h
  obtain ⟨ph₃, h₃, h⟩ := bind_eq_ok.mp h
  obtain ⟨ph₄, h₄, h⟩ := bind_eq_ok.mp h
  obtain ⟨ph₅, h₅, h⟩ := bind_eq_ok.mp h
  have htable : ph₁.bytes = ph.bytes :=
    foldlM_ok (I := fun _ s => s.bytes = ph.bytes)
      (fun _ _ _ _ hs hstep => (drop_bytes hstep).trans hs) rfl h₁
  calc
    ph'.bytes = ph₅.bytes := drop_map_bytes h
    _ = ph₄.bytes := drop_areas_bytes h₅
    _ = ph₃.bytes := drop_map_bytes h₄
    _ = ph₂.bytes := drop_map_bytes h₃
    _ = ph₁.bytes := drop_areas_bytes h₂
    _ = ph.bytes := htable

theorem clone_bytes (h : m.clone ph = .ok (m', ph')) : ph'.bytes = ph.bytes := by
  refine foldlM_ok (I := fun _ s => s.2.bytes = ph.bytes) ?_ rfl h
  rintro e _ ⟨m₁, ph₁⟩ ⟨m₂, ph₂⟩ hs hstep
  obtain ⟨⟨frame, ph₃⟩, hfrom, hstep⟩ := bind_eq_ok.mp hstep
  cases hstep
  exact (from_ppn_bytes hfrom).trans hs

end Tables

end Below

/-- The frames `K` lie below the allocator's, and `Q` allows them at the pages `S` only. -/
structure Reserved (base : Nat) (Q : Nat → Nat → Prop) (K S : Nat → Prop) : Prop where
  below : ∀ q, K q → q < base
  page : ∀ i ppn, Q i ppn → K ppn → S i

/-- So far a fork of the table `pt` has left alone the frames `K` and the parent's pages `S`. -/
structure CowState.Spares (base : Nat) (Q : Nat → Nat → Prop) (K S : Nat → Prop) (pt : PageTable)
    (ph : Phys) (s : CowState) : Prop where
  within : s.Within base Q
  bytes : ∀ q, K q → s.ph.bytes q = ph.bytes q
  parent : ∀ v, S (index v) → s.parent.find_pte v = pt.find_pte v

namespace CowState.Spares

variable {base vpn : Nat} {Q : Nat → Nat → Prop} {K S : Nat → Prop} {pt : PageTable}
  {pte : PageTableEntry} {ph ph' : Phys} {s s' : CowState} {area area' : VmArea}

/-- The parent keeps its table in this part. -/
theorem keep (hr : Reserved base Q K S) (h : s.Spares base Q K S pt ph)
    (hwithin : s'.Within base Q) (hbelow : SameBelow base s.ph s'.ph)
    (hparent : s'.parent = s.parent) : s'.Spares base Q K S pt ph where
  within := hwithin
  bytes q hq := (hbelow q (hr.below q hq)).trans (h.bytes q hq)
  parent v hv := by
    rw [hparent]
    exact h.parent v hv

theorem share_page (hr : Reserved base Q K S) (h : s.Spares base Q K S pt ph)
    (hpte : s.parent.find_pte vpn = some pte) (hvpn : ¬ S (index vpn))
    (hs : s.share_page vpn pte = .ok s') : s'.Spares base Q K S pt ph := by
  have hentered := (share_page_entered hpte hs).1
  have hwithin := h.within.share_page hpte hs
  obtain ⟨⟨par₁, ph₁⟩, hflags, hs⟩ := bind_eq_ok.mp hs
  obtain ⟨⟨par₂, ph₂⟩, hcow, hs⟩ := bind_eq_ok.mp hs
  obtain ⟨⟨child₁, ph₃⟩, hmap, hs⟩ := bind_eq_ok.mp hs
  obtain ⟨⟨child₂, ph₄⟩, hcow', hs⟩ := bind_eq_ok.mp hs
  cases hs
  have hf₁ := h.within.frames.update_pte hflags
  have hf₂ := hf₁.update_pte hcow
  have hbelow := ((update_pte_below h.within.frames hflags).trans
    (update_pte_below hf₁ hcow)).trans
      ((map_below hf₂ hmap).trans (update_pte_below (hf₂.map hmap) hcow'))
  refine ⟨hwithin, fun q hq => (hbelow q (hr.below q hq)).trans (h.bytes q hq), fun v hv => ?_⟩
  rw [hentered v, if_neg]
  · exact h.parent v hv
  · intro heq
    exact hvpn (heq ▸ hv)

theorem track_page (hr : Reserved base Q K S) (h : s.Spares base Q K S pt ph)
    (hpte : s.parent.find_pte vpn = some pte) (hvpn : ¬ S (index vpn))
    (hs : s.track_page vpn pte = .ok s') : s'.Spares base Q K S pt ph := by
  have hwithin := h.within.track_page hpte hs
  obtain ⟨s₁, hshare, hs⟩ := bind_eq_ok.mp hs
  obtain ⟨⟨frame, ph₁⟩, hfrom, hs⟩ := bind_eq_ok.mp hs
  obtain ⟨⟨m, ph₂⟩, hinsert, hs⟩ := bind_eq_ok.mp hs
  cases hs
  exact keep hr (h.share_page hr hpte hvpn hshare) hwithin
    (.of_eq ((insert_frame_bytes hinsert).trans (from_ppn_bytes hfrom))) rfl

theorem track_mapped (hr : Reserved base Q K S) (h : s.Spares base Q K S pt ph)
    (hvpn : ¬ S (index vpn)) (hs : s.track_mapped vpn = .ok s') : s'.Spares base Q K S pt ph := by
  unfold CowState.track_mapped at hs
  split at hs
  · cases hs
  · next pte hpte => exact h.track_page hr hpte hvpn hs

theorem track_lazy (hr : Reserved base Q K S) (h : s.Spares base Q K S pt ph)
    (hvpn : ¬ S (index vpn)) (hs : s.track_lazy vpn = .ok s') : s'.Spares base Q K S pt ph := by
  unfold CowState.track_lazy at hs
  split at hs
  · cases hs
    exact h
  · next pte hpte => exact h.track_page hr hpte hvpn hs

theorem share_mmap (hr : Reserved base Q K S) {e : Nat × MmapPage}
    (h : s.Spares base Q K S pt ph) (hvpn : e.2.valid = true → ¬ S (index e.1))
    (hs : s.share_mmap e = .ok s') : s'.Spares base Q K S pt ph := by
  unfold CowState.share_mmap at hs
  split at hs
  · next hvalid =>
    split at hs
    · cases hs
      exact h
    · next pte hpte => exact h.share_page hr hpte (hvpn hvalid) hs
  · cases hs
    exact h

/-- The page that is overwritten is one of the child, at a page that is not in `S`. -/
theorem copy_page (hr : Reserved base Q K S) (h : s.Spares base Q K S pt ph)
    (hvpn : ¬ S (index vpn)) (hs : s.copy_page vpn = .ok s') : s'.Spares base Q K S pt ph := by
  have hwithin := h.within.copy_page hs
  unfold CowState.copy_page at hs
  split at hs
  · next src dst hsrc hdst =>
    cases hs
    have hfree : ¬ K dst.ppn := fun hq => hvpn (hr.page _ _ (h.within.child vpn dst hdst) hq)
    refine ⟨hwithin, fun q hq => ?_, h.parent⟩
    have hne : q ≠ dst.ppn := by
      rintro rfl
      exact hfree hq
    exact (Function.update_of_ne hne _ _).trans (h.bytes q hq)
  · cases hs

theorem share_shm (hr : Reserved base Q K S) (h : s.Spares base Q K S pt ph)
    (hs : s.share_shm vpn = .ok s') : s'.Spares base Q K S pt ph := by
  have hwithin := h.within.share_shm hs
  unfold CowState.share_shm at hs
  split at hs
  · cases hs
    exact h
  · next pte hpte =>
    obtain ⟨⟨child, ph₁⟩, hmap, hs⟩ := bind_eq_ok.mp hs
    cases hs
    exact keep hr h hwithin (map_below h.within.frames hmap) rfl

/-- A loop over pages that are not in `S`. -/
theorem pages {f : CowState → Nat → Except Panic CowState} {vpns : List Nat}
    (hf : ∀ {s s' : CowState} {vpn}, s.Spares base Q K S pt ph → ¬ S (index vpn) →
      f s vpn = .ok s' → s'.Spares base Q K S pt ph)
    (h : s.Spares base Q K S pt ph) (hvpns : ∀ v ∈ vpns, ¬ S (index v))
    (hs : vpns.foldlM f s = .ok s') : s'.Spares base Q K S pt ph := by
  refine (foldlM_ok (I := fun vpns s => (∀ v ∈ vpns, ¬ S (index v)) ∧
    s.Spares base Q K S pt ph) ?_ ⟨hvpns, h⟩ hs).2
  rintro vpn vpns s₁ s₂ ⟨hvpns, h⟩ hstep
  obtain ⟨hvpn, hvpns⟩ := List.forall_mem_cons.mp hvpns
  exact ⟨hvpns, hf h hvpn hstep⟩

theorem copy_lazy_area (hr : Reserved base Q K S) (h : s.Spares base Q K S pt ph)
    (harea : ∀ v ∈ area.vpn_range.vpns, ¬ S (index v))
    (hs : s.copy_lazy_area area = .ok (s', area')) : s'.Spares base Q K S pt ph := by
  obtain ⟨s₁, hloop, hs⟩ := bind_eq_ok.mp hs
  cases hs
  have hstart : CowState.Spares base Q K S pt ph { s with frame_map := ∅ } :=
    ⟨⟨h.within.frames, h.within.parent, h.within.child⟩, h.bytes, h.parent⟩
  exact pages (fun h => h.track_lazy hr) hstart harea hloop

theorem inflate_below {pt' : PageTable} (hf : FramesFrom base ph.allocator)
    (hframed : area.map_type = .Framed)
    (h : area.inflate_pagetable pt ph = .ok (area', pt', ph')) : SameBelow base ph ph' := by
  refine (foldlM_ok (I := fun _ s => s.1.map_type = .Framed ∧ FramesFrom base s.2.2.allocator ∧
    SameBelow base ph s.2.2) ?_ ⟨hframed, hf, .refl base ph⟩ h).2.2
  rintro vpn _ ⟨area₁, pt₁, ph₁⟩ ⟨area₂, pt₂, ph₂⟩ ⟨hframed, hf, hbelow⟩ hstep
  unfold VmArea.inflate_page at hstep
  dsimp only at hstep hframed
  split at hstep
  · next hidentical => cases hframed.symm.trans hidentical
  · obtain ⟨⟨frame, ph₃⟩, halloc, hstep⟩ := bind_eq_ok.mp hstep
    dsimp only at hstep
    split at hstep
    · cases hstep
    · obtain ⟨⟨pt₃, ph₄⟩, hmap, hstep⟩ := bind_eq_ok.mp hstep
      cases hstep
      obtain ⟨_, hf₁⟩ := hf.alloc_frame halloc
      exact ⟨hframed, hf₁.map hmap,
        (hbelow.trans (alloc_frame_below hf halloc)).trans (map_below hf₁ hmap)⟩

theorem copy_area {text : KernelImage} {acc acc' : List VmArea} (hQ : Allows text base Q)
    (hr : Reserved base Q K S) (hframed : area.map_type = .Framed)
    (harea : ∀ v ∈ area.vpn_range.vpns, ¬ S (index v)) (h : s.Spares base Q K S pt ph)
    (hs : CowState.copy_area (s, acc) area = .ok (s', acc')) : s'.Spares base Q K S pt ph := by
  unfold CowState.copy_area at hs
  dsimp only at hs
  split at hs
  · obtain ⟨⟨new_area, child, ph₁⟩, hinflate, hs⟩ := bind_eq_ok.mp hs
    obtain ⟨s₁, hcopy, hs⟩ := bind_eq_ok.mp hs
    cases hs
    have hnew : area.from_another.map_type = .Framed := hframed
    obtain ⟨_, hf, hchild⟩ := inflate_within hQ hnew h.within.frames h.within.child hinflate
    have hstart : CowState.Spares base Q K S pt ph { s with child := child, ph := ph₁ } :=
      keep hr h ⟨hf, h.within.parent, hchild⟩ (inflate_below h.within.frames hnew hinflate) rfl
    exact pages (fun h => h.copy_page hr) hstart harea hcopy
  all_goals try cases hs
  all_goals
    obtain ⟨s₁, htrack, hs⟩ := bind_eq_ok.mp hs
    cases hs
    have hstart : CowState.Spares base Q K S pt ph { s with frame_map := ∅ } :=
      ⟨⟨h.within.frames, h.within.parent, h.within.child⟩, h.bytes, h.parent⟩
    exact pages (fun h => h.track_mapped hr) hstart harea htrack

end CowState.Spares

section Shm

variable {vpn : Nat} {s s' : CowState} {pte : PageTableEntry}

theorem PageTableEntry.or_v_of_valid (h : pte.is_valid = true) :
    (⟨pte.ppn, pte.flags ||| PTEFlags.V⟩ : PageTableEntry) = pte := by
  have hv : pte.flags.v = true := h
  have hflags : pte.flags ||| PTEFlags.V = pte.flags := by
    obtain ⟨ppn, v, r, w, x, u, g, a, d, cow⟩ := pte
    cases hv
    simp [PTEFlags.V, OrOp.or, HOr.hOr]
  rw [hflags]

theorem share_shm_found (h : s.share_shm vpn = .ok s') : s'.parent = s.parent ∧
    ∀ pte, s.parent.find_pte vpn = some pte → s'.child.find_pte vpn = some pte := by
  unfold CowState.share_shm at h
  split at h
  · next hnone =>
    cases h
    refine ⟨rfl, fun pte hpte => ?_⟩
    cases hpte.symm.trans hnone
  · next pte hpte =>
    obtain ⟨⟨child, ph₁⟩, hmap, h⟩ := bind_eq_ok.mp h
    cases h
    refine ⟨rfl, fun pte' hpte' => ?_⟩
    cases hpte.symm.trans hpte'
    rw [(PageTable.map_ok hmap).2 vpn, if_pos rfl,
      PageTableEntry.or_v_of_valid (PageTable.is_valid_of_find_pte hpte')]

/-- The pages of a shared segment have the same entries in both tables. -/
theorem copy_shm_found {vpns : List Nat} (h : vpns.foldlM CowState.share_shm s = .ok s') :
    s'.parent = s.parent ∧ ∀ v ∈ vpns, ∀ pte, s.parent.find_pte v = some pte →
      s'.child.find_pte v = some pte := by
  induction vpns generalizing s with
  | nil =>
    cases h
    exact ⟨rfl, fun v hv => absurd hv List.not_mem_nil⟩
  | cons vpn vpns ih =>
    rw [List.foldlM_cons] at h
    obtain ⟨s₁, hshare, h⟩ := bind_eq_ok.mp h
    obtain ⟨hparent, hfound⟩ := share_shm_found hshare
    obtain ⟨hparent', hfound'⟩ := ih h
    have hlater := copies_loop (fun h => share_shm_ok h) _ h
    refine ⟨hparent'.trans hparent, fun v hv pte hpte => ?_⟩
    obtain rfl | hv := List.mem_cons.mp hv
    · exact hlater.child v pte (hfound pte hpte)
    · exact hfound' v hv pte (hparent ▸ hpte)

theorem copy_shm_areas_found {areas : List VmArea}
    (h : areas.foldlM CowState.copy_shm_area s = .ok s') :
    s'.parent = s.parent ∧ ∀ area ∈ areas, ∀ v ∈ area.vpn_range, ∀ pte,
      s.parent.find_pte v = some pte → s'.child.find_pte v = some pte := by
  induction areas generalizing s with
  | nil =>
    cases h
    exact ⟨rfl, fun v hv => absurd hv List.not_mem_nil⟩
  | cons area areas ih =>
    rw [List.foldlM_cons] at h
    obtain ⟨s₁, hcopy, h⟩ := bind_eq_ok.mp h
    obtain ⟨hparent, hfound⟩ := copy_shm_found hcopy
    obtain ⟨hparent', hfound'⟩ := ih h
    have hlater := copies_loop (fun h => copy_shm_area_ok h) _ h
    refine ⟨hparent'.trans hparent, fun a ha v hv pte hpte => ?_⟩
    obtain rfl | ha := List.mem_cons.mp ha
    · exact hlater.child v pte (hfound v (VPNRange.mem_vpns.mpr hv) pte hpte)
    · exact hfound' a ha v hv pte (hparent ▸ hpte)

end Shm

/-- A page that a fork copies or shares. -/
def MemorySet.Forks (ms : MemorySet) (i : Nat) : Prop := ms.InRegion i ∨ ms.MmapValid i

/-- What a fork leaves of the frames `K` and of the pages `S`. -/
structure ForkSpares (K S : Nat → Prop) (ms : MemorySet) (ph : Phys) (par child : MemorySet)
    (ph' : Phys) : Prop where
  bytes : ∀ q, K q → ph'.bytes q = ph.bytes q
  parent : ∀ v, S (index v) → par.translate v = ms.translate v
  child : ∀ area ∈ ms.shm_areas, ∀ v ∈ area.vpn_range, S (index v) → ∀ pte,
    ms.translate v = some pte → child.translate v = some pte

section Fork

variable {text : KernelImage} {base : Nat} {Q : Nat → Nat → Prop} {K S : Nat → Prop}
  {ms par child : MemorySet} {ph ph' : Phys}

theorem from_copy_on_write_spares (hQ : Allows text base Q) (hr : Reserved base Q K S)
    (hf : FramesFrom base ph.allocator) (hpt : ms.page_table.Within Q)
    (hframed : ∀ area ∈ ms.map_areas, area.map_type = .Framed) (hS : ∀ i, ms.Forks i → ¬ S i)
    (h : ms.from_copy_on_write text ph = .ok (par, child, ph')) :
    ForkSpares K S ms ph par child ph' := by
  obtain ⟨⟨ms₁, ph₁⟩, hbare, h⟩ := bind_eq_ok.mp h
  obtain ⟨⟨ms₂, ph₂⟩, htramp, h⟩ := bind_eq_ok.mp h
  obtain ⟨⟨ms₃, ph₃⟩, hsig, h⟩ := bind_eq_ok.mp h
  obtain ⟨⟨s₄, areas⟩, hareas, h⟩ := bind_eq_ok.mp h
  obtain ⟨⟨m, ph₅⟩, hclone, h⟩ := bind_eq_ok.mp h
  obtain ⟨s₆, hmmap, h⟩ := bind_eq_ok.mp h
  obtain ⟨⟨s₇, stack⟩, hstack, h⟩ := bind_eq_ok.mp h
  obtain ⟨⟨s₈, heap⟩, hheap, h⟩ := bind_eq_ok.mp h
  obtain ⟨s₉, hshm, h⟩ := bind_eq_ok.mp h
  cases h
  have harea (area : VmArea) (ha : area ∈ ms.map_areas) (v : Nat) (hv : v ∈ area.vpn_range.vpns) :
      ¬ S (index v) :=
    hS _ (Or.inl (Or.inl ⟨area.from_another, List.mem_map_of_mem ha, trivial, v,
      VPNRange.mem_vpns.mp hv, rfl⟩))
  have hstackPages (v : Nat) (hv : v ∈ ms.user_stack_areas.vpn_range.vpns) : ¬ S (index v) :=
    hS _ (Or.inl (Or.inr (Or.inl ⟨v, VPNRange.mem_vpns.mp hv, rfl⟩)))
  have hheapPages (v : Nat) (hv : v ∈ ms.heap_areas.vpn_range.vpns) : ¬ S (index v) :=
    hS _ (Or.inl (Or.inr (Or.inr ⟨v, VPNRange.mem_vpns.mp hv, rfl⟩)))
  -- the new table with its trampolines
  obtain ⟨hf₁, hpt₁⟩ := new_bare_within (Q := Q) hf hbare
  have hbelow₁ : SameBelow base ph ph₁ := by
    obtain ⟨⟨pt, ph₁'⟩, hnew, hbare⟩ := bind_eq_ok.mp hbare
    obtain ⟨heap, _, hbare⟩ := bind_eq_ok.mp hbare
    obtain ⟨stack, _, hbare⟩ := bind_eq_ok.mp hbare
    cases hbare
    obtain ⟨⟨frame, ph₂⟩, halloc, hnew⟩ := bind_eq_ok.mp hnew
    cases hnew
    exact alloc_frame_below hf halloc
  obtain ⟨⟨pt₂, ph₂'⟩, hmap₂, htramp⟩ := bind_eq_ok.mp htramp
  cases htramp
  obtain ⟨⟨pt₃, ph₃'⟩, hmap₃, hsig⟩ := bind_eq_ok.mp hsig
  cases hsig
  have hf₂ := hf₁.map hmap₂
  have hbelow₃ := (hbelow₁.trans (map_below hf₁ hmap₂)).trans (map_below hf₂ hmap₃)
  have hstart : CowState.Spares base Q K S ms.page_table ph ⟨ms.page_table, pt₃, ph₃, ∅⟩ :=
    ⟨⟨hf₂.map hmap₃, hpt, (hpt₁.map hQ.strampoline hmap₂).map hQ.user_sigreturn hmap₃⟩,
      fun q hq => hbelow₃ q (hr.below q hq), fun _ _ => rfl⟩
  -- the regions, the mappings, the stack and the heap
  have h₄ : s₄.Spares base Q K S ms.page_table ph := by
    refine (foldlM_ok (I := fun rest r => (∀ a ∈ rest, a ∈ ms.map_areas) ∧
      CowState.Spares base Q K S ms.page_table ph r.1) ?_ ⟨fun _ h => h, hstart⟩ hareas).2
    rintro area rest ⟨s, acc⟩ ⟨s', acc'⟩ ⟨hrest, h⟩ hstep
    obtain ⟨ha, hrest⟩ := List.forall_mem_cons.mp hrest
    exact ⟨hrest, h.copy_area hQ hr (hframed area ha) (harea area ha) hstep⟩
  obtain ⟨⟨map, ph₅'⟩, hmap, hclone⟩ := bind_eq_ok.mp hclone
  cases hclone
  have h₅ : CowState.Spares base Q K S ms.page_table ph { s₄ with ph := ph₅ } :=
    .keep hr h₄ ⟨h₄.within.frames.clone hmap, h₄.within.parent, h₄.within.child⟩
      (.of_eq (clone_bytes hmap)) rfl
  have h₆ : s₆.Spares base Q K S ms.page_table ph := by
    refine (foldlM_ok (I := fun rest s =>
      (∀ e ∈ rest, e ∈ ms.mmap_manager.mmap_map.toList) ∧
        CowState.Spares base Q K S ms.page_table ph s) ?_ ⟨fun _ h => h, h₅⟩ hmmap).2
    rintro e rest s s' ⟨hrest, h⟩ hstep
    obtain ⟨he, hrest⟩ := List.forall_mem_cons.mp hrest
    exact ⟨hrest, h.share_mmap hr (fun hvalid => hS _ (Or.inr ⟨e.1, e.2,
      Std.TreeMap.mem_toList_iff_getElem?_eq_some.mp he, hvalid, rfl⟩)) hstep⟩
  have h₈ := (h₆.copy_lazy_area hr hstackPages hstack).copy_lazy_area hr hheapPages hheap
  have h₉ : s₉.Spares base Q K S ms.page_table ph :=
    foldlM_ok (I := fun _ s => CowState.Spares base Q K S ms.page_table ph s)
      (fun _ _ _ _ h hstep => foldlM_ok (I := fun _ s =>
        CowState.Spares base Q K S ms.page_table ph s)
        (fun _ _ _ _ h hstep => h.share_shm hr hstep) h hstep) h₈ hshm
  refine ⟨h₉.bytes, h₉.parent, fun area harea v hv hin pte hpte => ?_⟩
  exact (copy_shm_areas_found hshm).2 area harea v hv pte ((h₈.parent v hin).trans hpte)

end Fork

end MyGOS.Mm
