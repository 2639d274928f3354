import MyGOS.Mm.Fork

/-!
# After a fork

Parent and child are tracked, the pages a fork shares are exactly the mapped
ones that are `Shareable`, and a frame that got a tracker of the child is one
of a shared page or of the mmap manager.
-/

namespace MyGOS.Mm

namespace MemorySet

variable {text : KernelImage} {ms : MemorySet} {k v p : Nat} {pte : PageTableEntry}

theorem mem_mapped_keys {pt : PageTable} {vpns : List Nat} :
    k ∈ mapped_keys pt vpns ↔ ∃ v ∈ vpns, (pt.find_pte v).isSome ∧ index v = k := by
  simp [mapped_keys, mapped_vpns, and_assoc]

theorem mem_mapped_ppns {pt : PageTable} {vpns : List Nat} :
    p ∈ mapped_ppns pt vpns ↔ ∃ v ∈ vpns, ∃ pte, pt.find_pte v = some pte ∧ pte.ppn = p := by
  simp [mapped_ppns]

theorem mem_sum_map {α β : Type} {f : α → Multiset β} {l : List α} {b : β} :
    b ∈ (l.map f).sum ↔ ∃ a ∈ l, b ∈ f a := by
  induction l with
  | nil => simp
  | cons a l ih => simp [ih]

theorem mem_valid_vpns {entries : List (Nat × MmapPage)} :
    v ∈ valid_vpns entries ↔ ∃ page, (v, page) ∈ entries ∧ page.valid = true := by
  simp [valid_vpns]

theorem mem_valid_keys (hT : Tracked text ms) (h : ms.MmapValid k) : k ∈ ms.valid_keys := by
  obtain ⟨vpn, page, hpage, hvalid, rfl⟩ := h
  obtain ⟨pte, hpte, _⟩ := hT.mmap_valid vpn ⟨vpn, page, hpage, hvalid, rfl⟩
  refine mem_mapped_keys.mpr ⟨vpn, mem_valid_vpns.mpr ⟨page, ?_, hvalid⟩, ?_, rfl⟩
  · exact Std.TreeMap.mem_toList_iff_getElem?_eq_some.mpr hpage
  · exact Option.isSome_iff_exists.mpr ⟨pte, hpte⟩

theorem mmapValid_of_mem (h : k ∈ ms.valid_keys) : ms.MmapValid k := by
  obtain ⟨vpn, hvpn, _, rfl⟩ := mem_mapped_keys.mp h
  obtain ⟨page, hpage, hvalid⟩ := mem_valid_vpns.mp hvpn
  exact ⟨vpn, page, Std.TreeMap.mem_toList_iff_getElem?_eq_some.mp hpage, hvalid, rfl⟩

theorem inArea_of_mem {q : VmAreaType → Prop} {areas : List VmArea}
    (hsub : ∀ area ∈ areas, area ∈ ms.map_areas ∧ q area.area_type)
    (h : k ∈ areas.flatMap area_keys) : ms.InArea q k := by
  obtain ⟨area, harea, hk⟩ := List.mem_flatMap.mp h
  obtain ⟨vpn, hvpn, rfl⟩ := List.mem_map.mp hk
  obtain ⟨hmem, htype⟩ := hsub area harea
  exact ⟨area.from_another, List.mem_map_of_mem hmem, htype, vpn, VPNRange.mem_vpns.mp hvpn, rfl⟩

theorem mem_of_inArea {q : VmAreaType → Prop} {areas : List VmArea}
    (hsub : ∀ area ∈ ms.map_areas, q area.area_type → area ∈ areas) (h : ms.InArea q k) :
    k ∈ areas.flatMap area_keys := by
  obtain ⟨area', harea', htype, vpn, hvpn, rfl⟩ := h
  obtain ⟨area, harea, rfl⟩ := List.mem_map.mp harea'
  exact List.mem_flatMap.mpr ⟨area, hsub area harea htype,
    List.mem_map_of_mem (VPNRange.mem_vpns.mpr hvpn)⟩

theorem mem_shared_areas {areas : List VmArea} {area : VmArea} :
    area ∈ shared_areas areas ↔ area ∈ areas ∧ area.area_type ≠ .TrapContext := by
  simp [shared_areas]

/-- A page of the stack or the heap that is mapped. -/
theorem mem_of_inLazy (hv : (ms.translate v).isSome) (h : ms.InLazy (index v)) :
    index v ∈ ms.stack_keys ∨ index v ∈ ms.heap_keys := by
  have hmapped (vpn : Nat) (heq : index vpn = index v) :
      (ms.page_table.find_pte vpn).isSome := by
    rw [PageTable.find_pte_congr _ heq]
    exact hv
  rcases h with ⟨vpn, hvpn, heq⟩ | ⟨vpn, hvpn, heq⟩
  · exact Or.inl (mem_mapped_keys.mpr ⟨vpn, VPNRange.mem_vpns.mpr hvpn, hmapped vpn heq, heq⟩)
  · exact Or.inr (mem_mapped_keys.mpr ⟨vpn, VPNRange.mem_vpns.mpr hvpn, hmapped vpn heq, heq⟩)

theorem mem_shared_keys (hT : Tracked text ms) (hv : (ms.translate v).isSome)
    (h : ms.Shareable (index v)) : index v ∈ ms.shared_keys := by
  simp only [shared_keys, List.mem_append]
  rcases h with harea | hlazy | hvalid
  · refine Or.inl (Or.inl (Or.inl (mem_of_inArea ?_ harea)))
    exact fun area harea htype => mem_shared_areas.mpr ⟨harea, htype⟩
  · rcases mem_of_inLazy hv hlazy with hmem | hmem
    · exact Or.inl (Or.inr hmem)
    · exact Or.inr hmem
  · exact Or.inl (Or.inl (Or.inr (mem_valid_keys hT hvalid)))

theorem shareable_of_mem (h : k ∈ ms.shared_keys) : ms.Shareable k := by
  simp only [shared_keys, List.mem_append] at h
  rcases h with ((harea | hvalid) | hstack) | hheap
  · exact Or.inl (inArea_of_mem (fun area => mem_shared_areas.mp) harea)
  · exact Or.inr (Or.inr (mmapValid_of_mem hvalid))
  · obtain ⟨vpn, hvpn, _, rfl⟩ := mem_mapped_keys.mp hstack
    exact Or.inr (Or.inl (Or.inl ⟨vpn, VPNRange.mem_vpns.mp hvpn, rfl⟩))
  · obtain ⟨vpn, hvpn, _, rfl⟩ := mem_mapped_keys.mp hheap
    exact Or.inr (Or.inl (Or.inr ⟨vpn, VPNRange.mem_vpns.mp hvpn, rfl⟩))

/-- The frames that get a tracker of the child. -/
theorem mem_cow_shares (h : p ∈ ms.cow_shares) :
    (∃ v pte, index v ∈ ms.shared_keys ∧ ms.translate v = some pte ∧ pte.ppn = p) ∨
      ∃ k, (k, p) ∈ ms.mmap_slots := by
  simp only [cow_shares, Multiset.mem_add] at h
  simp only [shared_keys, List.mem_append]
  rcases h with ((harea | hmmap) | hstack) | hheap
  · left
    obtain ⟨area, hmem, hp⟩ := mem_sum_map.mp harea
    obtain ⟨v, hv, pte, hpte, rfl⟩ := mem_mapped_ppns.mp hp
    exact ⟨v, pte, Or.inl (Or.inl (Or.inl (List.mem_flatMap.mpr
      ⟨area, hmem, List.mem_map_of_mem hv⟩))), hpte, rfl⟩
  · right
    obtain ⟨⟨k, q⟩, hmem, rfl⟩ := Multiset.mem_map.mp hmmap
    exact ⟨k, hmem⟩
  · left
    obtain ⟨v, hv, pte, hpte, rfl⟩ := mem_mapped_ppns.mp hstack
    refine ⟨v, pte, Or.inl (Or.inr (mem_mapped_keys.mpr ⟨v, hv, ?_, rfl⟩)), hpte, rfl⟩
    exact Option.isSome_iff_exists.mpr ⟨pte, hpte⟩
  · left
    obtain ⟨v, hv, pte, hpte, rfl⟩ := mem_mapped_ppns.mp hheap
    refine ⟨v, pte, Or.inr (mem_mapped_keys.mpr ⟨v, hv, ?_, rfl⟩), hpte, rfl⟩
    exact Option.isSome_iff_exists.mpr ⟨pte, hpte⟩

/-- With no page in two regions, a touched page of a mapping is in no other region. -/
theorem apart_of_nodup (hT : Tracked text ms) (hnodup : ms.cow_keys.Nodup)
    (hvalid : ms.MmapValid (index v)) : ¬ ms.InRegion (index v) := by
  have hmem := mem_valid_keys hT hvalid
  obtain ⟨pte, hpte, _⟩ := hT.mmap_valid v hvalid
  simp only [cow_keys, List.nodup_append] at hnodup
  obtain ⟨⟨⟨_, _, hareas⟩, _, hstack⟩, _, hheap⟩ := hnodup
  rintro (harea | hlazy)
  · have harea' := mem_of_inArea (fun _ h _ => h) harea
    exact hareas _ (List.mem_append_right _ harea') _ hmem rfl
  · rcases mem_of_inLazy (Option.isSome_iff_exists.mpr ⟨pte, hpte⟩) hlazy with hlazy | hlazy
    · exact hstack _ (List.mem_append_right _ hmem) _ hlazy rfl
    · exact hheap _ (List.mem_append_left _ (List.mem_append_right _ hmem)) _ hlazy rfl

end MemorySet

section Forked

variable {text : KernelImage} {E : Multiset Nat} {ms par child : MemorySet} {ph ph' : Phys}
  {v p : Nat} {pte : PageTableEntry}

theorem Forked.parent_slots (hf : Forked text E ms ph par child ph') : par.slots = ms.slots := by
  rw [hf.parent]
  rfl

theorem Forked.parent_owned' (hf : Forked text E ms ph par child ph') : par.owned = ms.owned := by
  rw [MemorySet.owned, hf.parent_owned, hf.parent_slots, MemorySet.owned]

/-- An entry of the parent has the frame it had. -/
theorem Forked.parent_pte (hf : Forked text E ms ph par child ph')
    (hv : par.translate v = some pte) : ∃ pte₀, ms.translate v = some pte₀ ∧ pte.ppn = pte₀.ppn ∧
      (index v ∈ ms.shared_keys ∧ pte = pte₀.cowed ∨ index v ∉ ms.shared_keys ∧ pte = pte₀) := by
  rw [hf.parent_translate v] at hv
  split at hv
  · rename_i hmem
    obtain ⟨pte₀, hpte₀, rfl⟩ := Option.map_eq_some_iff.mp hv
    exact ⟨pte₀, hpte₀, rfl, Or.inl ⟨hmem, rfl⟩⟩
  · rename_i hmem
    exact ⟨pte, hv, rfl, Or.inr ⟨hmem, rfl⟩⟩

theorem Forked.parent_mapped (hf : Forked text E ms ph par child ph') {pte₀ : PageTableEntry}
    (hv : ms.translate v = some pte₀) : ∃ pte, par.translate v = some pte ∧ pte.ppn = pte₀.ppn := by
  rw [hf.parent_translate v, hv]
  split
  · exact ⟨_, rfl, rfl⟩
  · exact ⟨_, rfl, rfl⟩

theorem Forked.child_mmapValid (hf : Forked text E ms ph par child ph') (k : Nat) :
    child.MmapValid k ↔ ms.MmapValid k := by
  unfold MemorySet.MmapValid
  rw [hf.mappings.map]

theorem Forked.parent_tracked (hf : Forked text E ms ph par child ph') (hT : Tracked text ms) :
    Tracked text par := by
  have hpar := hf.parent
  constructor
  · intro v pte hv
    obtain ⟨pte₀, hpte₀, heq, _⟩ := hf.parent_pte hv
    rw [hf.parent_slots, heq]
    exact (hT.mapped v pte₀ hpte₀).imp_left fun htramp => htramp.congr rfl heq
  · intro v hvalid
    rw [hpar] at hvalid
    obtain ⟨pte₀, hpte₀, hslot⟩ := hT.mmap_valid v hvalid
    obtain ⟨pte, hpte, heq⟩ := hf.parent_mapped hpte₀
    refine ⟨pte, hpte, ?_⟩
    rw [hpar, heq]
    exact hslot
  · intro v pte _ _ hvalid
    rw [hpar] at hvalid ⊢
    have hvalid : ms.MmapValid (index v) := hvalid
    exact (MemorySet.apart_of_nodup hT hf.nodup hvalid :)
  · intro v harea
    rw [hpar] at harea
    obtain ⟨pte₀, hpte₀⟩ := Option.isSome_iff_exists.mp (hT.area_mapped v harea)
    obtain ⟨pte, hpte, _⟩ := hf.parent_mapped hpte₀
    exact Option.isSome_iff_exists.mpr ⟨pte, hpte⟩
  · rw [hpar]
    exact hT.kinds
  · rw [hpar]
    exact hT.framed_stack
  · rw [hpar]
    exact hT.framed_heap
  · rw [hpar]
    exact hT.no_shm
  · rw [hpar]
    exact hT.manager

theorem Forked.child_tracked (hf : Forked text E ms ph par child ph') (hT : Tracked text ms) :
    Tracked text child := by
  constructor
  · intro v pte hv
    rcases Decidable.em (index v ∈ ms.shared_keys) with hmem | hmem
    · obtain ⟨pte₀, _, hpte, hslot⟩ := hf.child_shared v hmem
      cases hpte.symm.trans hv
      exact Or.inr hslot
    · exact (hf.child_own v pte hv hmem).2.imp_right And.left
  · intro v hvalid
    rw [hf.child_mmapValid] at hvalid
    have hmem : index v ∈ ms.shared_keys := by
      obtain ⟨pte, hpte, _⟩ := hT.mmap_valid v hvalid
      exact MemorySet.mem_shared_keys hT (Option.isSome_iff_exists.mpr ⟨pte, hpte⟩)
        (Or.inr (Or.inr hvalid))
    obtain ⟨pte₀, hpte₀, hpte, _⟩ := hf.child_shared v hmem
    obtain ⟨pte₁, hpte₁, hslot⟩ := hT.mmap_valid v hvalid
    cases hpte₁.symm.trans hpte₀
    refine ⟨_, hpte, ?_⟩
    rw [hf.mmap_slots]
    exact hslot
  · intro v pte _ _ hvalid
    rw [hf.child_mmapValid] at hvalid
    rw [hf.regions.inRegion]
    exact MemorySet.apart_of_nodup hT hf.nodup hvalid
  · intro v harea
    rw [hf.regions.inArea] at harea
    rw [hf.child_mapped]
    simp only [MemorySet.cow_keys, List.mem_append]
    exact Or.inl (Or.inl (Or.inl (Or.inr (MemorySet.mem_of_inArea (fun _ h _ => h) harea))))
  · rw [hf.regions.areas]
    exact hT.kinds
  · exact (congrArg VmArea.map_type hf.regions.stack :).trans hT.framed_stack
  · exact (congrArg VmArea.map_type hf.regions.heap :).trans hT.framed_heap
  · exact hf.regions.shm.trans hT.no_shm
  · exact hf.mappings.wellFormed hT.manager

theorem Forked.child_shareable (hf : Forked text E ms ph par child ph') {k : Nat}
    (h : ms.Shareable k) : child.Shareable k := by
  unfold MemorySet.Shareable
  rwa [hf.regions.inArea, hf.regions.inLazy, hf.child_mmapValid]

theorem Forked.parent_shares (hf : Forked text E ms ph par child ph') (hs : ms.Shares) :
    par.Shares := by
  have hshare {k : Nat} (h : ms.Shareable k) : par.Shareable k := by
    rw [hf.parent]
    exact h
  have hmmap : par.mmap_slots = ms.mmap_slots := by
    rw [hf.parent]
    rfl
  constructor
  · intro v pte hv hcow
    obtain ⟨pte₀, hpte₀, _, ⟨hmem, _⟩ | ⟨_, rfl⟩⟩ := hf.parent_pte hv
    · exact hshare (MemorySet.shareable_of_mem hmem)
    · exact hshare (hs.cow v pte hpte₀ hcow)
  · intro v pte hv hslot
    obtain ⟨pte₀, hpte₀, heq, _⟩ := hf.parent_pte hv
    rw [hmmap, heq] at hslot
    exact hshare (hs.mmap v pte₀ hpte₀ hslot)

/-- A frame of the child's own is none of anybody else. -/
theorem Forked.own_fresh (hf : Forked text E ms ph par child ph') (hbase :
    ph.allocator.base_num = text.ekernel) (hv : child.translate v = some pte)
    (hmem : index v ∉ ms.shared_keys) : pte.ppn ∉ ms.owned + E := by
  rcases (hf.child_own v pte hv hmem).2 with htramp | ⟨_, hfresh⟩
  · intro howned
    have hlt := htramp.lt
    have hle := hf.owned.base_le (Multiset.mem_add.mpr (Or.inr howned))
    rw [hf.base, hbase] at hle
    omega
  · exact hfresh

theorem mem_owned_of_slots {k : Nat} (h : (k, p) ∈ ms.slots) : p ∈ ms.owned :=
  Multiset.mem_add.mpr (Or.inr (Multiset.mem_map_of_mem Prod.snd h))

theorem mem_slots_of_mmap {k : Nat} (h : (k, p) ∈ ms.mmap_slots) : (k, p) ∈ ms.slots := by
  rw [ms.slots_mmap]
  exact Multiset.mem_add.mpr (Or.inl h)

theorem Forked.child_shares (hf : Forked text E ms ph par child ph')
    (hbase : ph.allocator.base_num = text.ekernel) : child.Shares := by
  constructor
  · intro v pte hv hcow
    rcases Decidable.em (index v ∈ ms.shared_keys) with hmem | hmem
    · exact hf.child_shareable (MemorySet.shareable_of_mem hmem)
    · rw [(hf.child_own v pte hv hmem).1] at hcow
      cases hcow
  · intro v pte hv hslot
    rcases Decidable.em (index v ∈ ms.shared_keys) with hmem | hmem
    · exact hf.child_shareable (MemorySet.shareable_of_mem hmem)
    · rw [hf.mmap_slots] at hslot
      refine absurd ?_ (hf.own_fresh hbase hv hmem)
      exact Multiset.mem_add.mpr (Or.inl (mem_owned_of_slots (mem_slots_of_mmap hslot)))

/-- Two trackers under different indices. -/
theorem two_le_count_slots {s : Multiset (Nat × Nat)} {k k' : Nat} (h : (k, p) ∈ s)
    (h' : (k', p) ∈ s) (hne : k ≠ k') : 2 ≤ (s.map Prod.snd).count p := by
  obtain ⟨R, rfl⟩ := Multiset.exists_cons_of_mem h
  have hmem : (k', p) ∈ R := by
    refine (Multiset.mem_cons.mp h').resolve_left fun heq => hne ?_
    cases heq
    rfl
  have hpos : 0 < (R.map Prod.snd).count p :=
    Multiset.count_pos.mpr (Multiset.mem_map_of_mem Prod.snd hmem)
  rw [Multiset.map_cons, Multiset.count_cons_self]
  omega

theorem two_le_count {k k' : Nat} (h : (k, p) ∈ ms.slots) (h' : (k', p) ∈ ms.slots)
    (hne : k ≠ k') : 2 ≤ ms.owned.count p := by
  have htwo := two_le_count_slots h h' hne
  rw [MemorySet.owned, Multiset.count_add]
  omega

/-- A frame that the child has a tracker of and that a page of the parent outside the shared ones
maps has more than one tracker in the parent. -/
theorem Forked.not_shared (hf : Forked text E ms ph par child ph') (hT : Tracked text ms)
    (hs : ms.Shares) (hbase : ph.allocator.base_num = text.ekernel)
    (hv : ms.translate v = some pte) (hmem : index v ∉ ms.shared_keys)
    (howned : pte.ppn ∈ ms.owned) (hchild : pte.ppn ∈ child.owned) :
    2 ≤ ms.owned.count pte.ppn := by
  have hF : pte.ppn ∈ ms.owned + E := Multiset.mem_add.mpr (Or.inl howned)
  have hnot (v : Nat) (pte' : PageTableEntry) (heq : pte'.ppn = pte.ppn) :
      ¬ IsTrampoline text v pte' := by
    intro htramp
    have hlt := htramp.lt
    have hle := hf.owned.base_le (Multiset.mem_add.mpr (Or.inr hF))
    rw [hf.base, hbase] at hle
    omega
  have hslot := (hT.mapped v pte hv).resolve_left (hnot v pte rfl)
  have hshares : pte.ppn ∈ ms.cow_shares :=
    Multiset.count_pos.mp ((Multiset.count_pos.mpr hchild).trans_le (hf.extra.shared _ hF))
  rcases MemorySet.mem_cow_shares hshares with ⟨v', pte', hmem', hv', heq⟩ | ⟨k, hk⟩
  · have hslot' := (hT.mapped v' pte' hv').resolve_left (hnot v' pte' heq)
    rw [heq] at hslot'
    refine two_le_count hslot hslot' fun hindex => hmem ?_
    rwa [hindex]
  · refine two_le_count hslot (mem_slots_of_mmap hk) ?_
    rintro rfl
    refine hmem (MemorySet.mem_shared_keys hT (Option.isSome_iff_exists.mpr ⟨pte, hv⟩) ?_)
    exact hs.mmap v pte hv hk

/-- Nobody else's frame gets a tracker, except those the parent owns. -/
theorem Forked.mem_owned (hf : Forked text E ms ph par child ph') (hT : Tracked text ms)
    (hbase : ph.allocator.base_num = text.ekernel) (hF : p ∈ ms.owned + E)
    (hchild : p ∈ child.owned) : p ∈ ms.owned := by
  have hshares : p ∈ ms.cow_shares :=
    Multiset.count_pos.mp ((Multiset.count_pos.mpr hchild).trans_le (hf.extra.shared _ hF))
  rcases MemorySet.mem_cow_shares hshares with ⟨v, pte, _, hv, rfl⟩ | ⟨k, hk⟩
  · refine (hT.mapped_owned hv).resolve_left fun htramp => ?_
    have hlt := htramp.lt
    have hle := hf.owned.base_le (Multiset.mem_add.mpr (Or.inr hF))
    rw [hf.base, hbase] at hle
    omega
  · exact mem_owned_of_slots (mem_slots_of_mmap hk)

end Forked

end MyGOS.Mm
