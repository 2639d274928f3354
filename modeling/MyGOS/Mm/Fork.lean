import MyGOS.Mm.CowShare

/-!
# Copy on write of a whole address space

What `from_copy_on_write` leaves behind when it returns, and why it may not
return: there is no frame left, or two regions have a page in common.
-/

namespace MyGOS.Mm

open Outcome

namespace MemorySet

def area_keys (area : VmArea) : List Nat := area.vpn_range.vpns.map index

/-- The areas whose pages are shared with the child. -/
def shared_areas (areas : List VmArea) : List VmArea :=
  areas.filter fun area => decide (area.area_type ≠ .TrapContext)

def valid_keys (ms : MemorySet) : List Nat :=
  mapped_keys ms.page_table (valid_vpns ms.mmap_manager.mmap_map.toList)

def stack_keys (ms : MemorySet) : List Nat :=
  mapped_keys ms.page_table ms.user_stack_areas.vpn_range.vpns

def heap_keys (ms : MemorySet) : List Nat :=
  mapped_keys ms.page_table ms.heap_areas.vpn_range.vpns

/-- The indices of the pages that `from_copy_on_write` maps in the child, in their order. -/
def cow_keys (ms : MemorySet) : List Nat :=
  [index (floor TRAMPOLINE), index (floor SIGNAL_TRAMPOLINE)] ++ ms.map_areas.flatMap area_keys ++
    ms.valid_keys ++ ms.stack_keys ++ ms.heap_keys

/-- Those of the pages that it shares. -/
def shared_keys (ms : MemorySet) : List Nat :=
  (shared_areas ms.map_areas).flatMap area_keys ++ ms.valid_keys ++ ms.stack_keys ++ ms.heap_keys

def area_ppns (pt : PageTable) (areas : List VmArea) : Multiset Nat :=
  ((shared_areas areas).map fun area => mapped_ppns pt area.vpn_range.vpns).sum

/-- The frames that get a tracker of the child, once for each tracker. -/
def cow_shares (ms : MemorySet) : Multiset Nat :=
  area_ppns ms.page_table ms.map_areas + ms.mmap_manager.frame_map.owned +
    mapped_ppns ms.page_table ms.user_stack_areas.vpn_range.vpns +
    mapped_ppns ms.page_table ms.heap_areas.vpn_range.vpns

end MemorySet

section Clone

variable {M : Multiset Nat} {ph : Phys}

/-- The induction is on the trackers to come, whose keys are new ones. -/
theorem clone_loop (l : List (Nat × FrameTracker)) :
    ∀ {acc : FrameMap} {M : Multiset Nat} {ph : Phys}, (l.map Prod.fst).Nodup →
      (∀ e ∈ l, acc[e.1]? = none) → Owned ph.allocator M → (∀ e ∈ l, e.2.ppn ∈ M) →
      (∀ p, M.count p + (l.map fun e => e.2.ppn).count p ≤ 255) →
      Meets (l.foldlM (fun s e => do
        let (frame, ph) ← s.2.from_ppn e.2.ppn
        return (s.1.insert e.1 frame, ph)) (acc, ph)) (fun _ => False) fun r =>
        r.1.slots = ↑(l.map fun e => (index e.1, e.2.ppn)) + acc.slots ∧
          Owned r.2.allocator (↑(l.map fun e => e.2.ppn) + M) ∧
          r.2.allocator.base_num = ph.allocator.base_num ∧ r.2.bytes = ph.bytes := by
  induction l with
  | nil =>
    intro acc M ph _ _ h _ _
    refine ⟨?_, ?_, rfl, rfl⟩
    · simp
    · simpa using h
  | cons e l ih =>
    intro acc M ph hnodup hnone h hmem hcount
    rw [List.map_cons, List.nodup_cons] at hnodup
    have hlt : M.count e.2.ppn < 255 := by
      have := hcount e.2.ppn
      rw [List.map_cons, List.count_cons_self] at this
      omega
    rw [List.foldlM_cons]
    refine (((Phys.from_ppn_meets h hlt).mono_error fun _ he =>
      he (hmem e List.mem_cons_self)).bind (Q := _) (S := fun r : FrameMap × Phys =>
        r.1 = acc.insert e.1 e.2 ∧ r.2.allocator.base_num = ph.allocator.base_num ∧
          Owned r.2.allocator (e.2.ppn ::ₘ M) ∧ r.2.bytes = ph.bytes) ?_).bind ?_
    · rintro ⟨frame, ph₁⟩ ⟨rfl, _, hbase, howned, hbytes⟩
      exact ⟨rfl, hbase, howned, hbytes⟩
    · rintro ⟨acc', ph₁⟩ ⟨rfl, hbase, howned, hbytes⟩
      have hnone' : ∀ e' ∈ l, (acc.insert e.1 e.2)[e'.1]? = none := by
        intro e' he'
        rw [Std.TreeMap.getElem?_insert, if_neg]
        · exact hnone e' (List.mem_cons_of_mem _ he')
        · intro heq
          refine hnodup.1 ?_
          rw [Std.LawfulEqCmp.eq_of_compare heq]
          exact List.mem_map_of_mem he'
      have hcount' : ∀ p, (e.2.ppn ::ₘ M).count p + (l.map fun e => e.2.ppn).count p ≤ 255 := by
        intro p
        have := hcount p
        rw [List.map_cons, List.count_cons] at this
        rw [Multiset.count_cons]
        rcases eq_or_ne p e.2.ppn with rfl | hne
        · simp only [BEq.rfl, if_true] at this ⊢
          omega
        · simp only [hne, beq_false_of_ne hne.symm, if_false] at this ⊢
          simp only [Bool.false_eq_true, if_false] at this
          omega
      refine (ih hnodup.2 hnone' howned (fun e' he' => Multiset.mem_cons_of_mem
        (hmem e' (List.mem_cons_of_mem _ he'))) hcount').mono ?_
      rintro ⟨m', ph₂⟩ ⟨hslots, howned', hbase', hbytes'⟩
      refine ⟨?_, ?_, hbase'.trans hbase, hbytes'.trans hbytes⟩
      · rw [hslots, FrameMap.slots_insert,
          FrameMap.slots_erase_of_none (hnone e List.mem_cons_self), List.map_cons,
          ← Multiset.cons_coe, Multiset.add_cons, Multiset.cons_add]
      · rwa [List.map_cons, ← Multiset.cons_coe, Multiset.cons_add, ← Multiset.add_cons]

/-- Cloning a frame map gives the same slots again. -/
theorem FrameMap.clone_meets {m : FrameMap} (h : Owned ph.allocator M)
    (hmem : ∀ p ∈ m.owned, p ∈ M) (hcount : ∀ p, M.count p + m.owned.count p ≤ 255) :
    Meets (m.clone ph) (fun _ => False) fun r =>
      r.1.slots = m.slots ∧ Owned r.2.allocator (m.owned + M) ∧
        r.2.allocator.base_num = ph.allocator.base_num ∧ r.2.bytes = ph.bytes := by
  have howned : m.owned = ↑(m.toList.map fun e => e.2.ppn) := by
    rw [FrameMap.owned, FrameMap.slots, Multiset.map_coe, List.map_map]
    rfl
  rw [howned] at hmem hcount ⊢
  refine (@clone_loop m.toList ∅ M ph (FrameMap.nodup_keys_toList m)
    (by simp) h (fun e he => hmem _ (List.mem_map_of_mem (f := fun e => e.2.ppn) he))
    (by simpa using hcount)).mono ?_
  rintro r ⟨hslots, hrest⟩
  rw [FrameMap.slots_empty, add_zero] at hslots
  exact ⟨hslots, hrest⟩

end Clone

section Start

variable {text : KernelImage} {F : Multiset Nat} {ph₀ ph : Phys} {pt : PageTable}
  {find : Nat → Option PageTableEntry}

/-- The child before the first region: nothing but page table nodes. -/
structure Bare (F : Multiset Nat) (ph₀ : Phys) (find : Nat → Option PageTableEntry)
    (pt : PageTable) (ph : Phys) : Prop where
  find : ∀ v, pt.find_pte v = find v
  owned : Owned ph.allocator (pt.owned + F)
  base : ph.allocator.base_num = ph₀.allocator.base_num
  extra : Extra F 0 pt.owned
  quiet : Quiet F ph₀ ph

theorem Bare.new (h : Owned ph₀.allocator F) :
    Meets (PageTable.new ph₀) (· = .outOfMemory) fun r => Bare F ph₀ (fun _ => none) r.1 r.2 := by
  refine (Phys.alloc_frame_meets h).bind ?_
  rintro ⟨frame, ph⟩ ⟨hfresh, hle, hbase, howned, hbytes⟩
  refine ⟨fun _ => rfl, howned, hbase, ⟨?_, ?_⟩, Quiet.of_update hfresh hle fun q hq => ?_⟩
  · intro p hp
    have hne : p ≠ frame.ppn := fun heq => hfresh (heq ▸ hp)
    simp [PageTable.owned, hne]
  · intro p _
    simp only [PageTable.owned, List.map_cons, List.map_nil, Multiset.coe_singleton,
      Multiset.count_singleton]
    split <;> omega
  · rw [hbytes, Function.update_of_ne hq]

/-- A trampoline page. -/
theorem Bare.map (h : Bare F ph₀ find pt ph) {vpn ppn : Nat} {flags : PTEFlags}
    (hnone : find vpn = none) :
    Meets (pt.map ph vpn ppn flags) (· = .outOfMemory) fun r =>
      Bare F ph₀ (fun v => if index v = index vpn then some ⟨ppn, flags ||| PTEFlags.V⟩
        else find v) r.1 r.2 := by
  refine ((PageTable.map_meets h.owned vpn ppn flags).mono_error fun e he => ?_).mono ?_
  · refine he.resolve_right fun hsome => ?_
    rw [h.find, hnone] at hsome
    cases hsome
  · rintro ⟨pt', ph'⟩ ⟨_, hgrows, hfind⟩
    refine ⟨fun v => ?_, hgrows.moves.owned, hgrows.moves.base.trans h.base,
      h.extra.calm hgrows.calm, h.quiet.trans (hgrows.quiet.mono fun q hq => ?_) h.base⟩
    · rw [hfind v, h.find v]
    · exact Multiset.mem_add.mpr (Or.inr hq)

theorem Bare.new_bare (h : Owned ph₀.allocator F) :
    Meets (MemorySet.new_bare ph₀) (· = .outOfMemory) fun r =>
      Bare F ph₀ (fun _ => none) r.1.page_table r.2 := by
  refine (Bare.new h).bind ?_
  rintro ⟨pt, ph⟩ hbare
  exact hbare

theorem Bare.map_trampoline {ms : MemorySet} (h : Bare F ph₀ find ms.page_table ph)
    (hnone : find (floor TRAMPOLINE) = none) :
    Meets (ms.map_trampoline text ph) (· = .outOfMemory) fun r =>
      Bare F ph₀ (fun v => if index v = index (floor TRAMPOLINE) then
        some ⟨text.strampoline, PTEFlags.R ||| PTEFlags.X ||| PTEFlags.V⟩ else find v)
        r.1.page_table r.2 := by
  refine (h.map hnone).bind ?_
  rintro ⟨pt, ph⟩ hbare
  exact hbare

theorem Bare.map_signal_trampoline {ms : MemorySet} (h : Bare F ph₀ find ms.page_table ph)
    (hnone : find (floor SIGNAL_TRAMPOLINE) = none) :
    Meets (ms.map_signal_trampoline text ph) (· = .outOfMemory) fun r =>
      Bare F ph₀ (fun v => if index v = index (floor SIGNAL_TRAMPOLINE) then
        some ⟨text.user_sigreturn, PTEFlags.R ||| PTEFlags.X ||| PTEFlags.U ||| PTEFlags.V⟩
        else find v) r.1.page_table r.2 := by
  refine (h.map hnone).bind ?_
  rintro ⟨pt, ph⟩ hbare
  exact hbare

/-- With both trampolines the loops start. -/
theorem Bare.sharing (par : PageTable) {f g : PTEFlags} (hf : f.cow = false) (hg : g.cow = false)
    (h₃ : Bare F ph₀ (fun v => if index v = index (floor SIGNAL_TRAMPOLINE) then
      some ⟨text.user_sigreturn, g⟩ else if index v = index (floor TRAMPOLINE) then
      some ⟨text.strampoline, f⟩ else none) pt ph) :
    Sharing text F par ph₀ [index (floor TRAMPOLINE), index (floor SIGNAL_TRAMPOLINE)] [] 0 0
      ⟨par, pt, ph, ∅⟩ := by
  refine ⟨fun v => ?_, rfl, fun v hv => ?_, fun v pte hv _ => ?_, fun v => ?_, ?_, ?_, ?_, ?_,
    h₃.base, ?_, h₃.quiet⟩
  · rfl
  · cases hv
  · rw [h₃.find v] at hv
    split at hv
    · rename_i heq
      cases hv
      exact ⟨hg, Or.inl (Or.inr ⟨heq, rfl⟩)⟩
    · split at hv
      · rename_i heq
        cases hv
        exact ⟨hf, Or.inl (Or.inl ⟨heq, rfl⟩)⟩
      · cases hv
  · rw [h₃.find v, List.mem_cons, List.mem_singleton]
    split
    · rename_i heq
      simp [heq]
    · rename_i hne
      split
      · rename_i heq
        simp [heq]
      · rename_i hne'
        simp [hne, hne']
  · intro k hk
    cases hk
  · decide
  · simp
  · simpa using h₃.owned
  · simpa using h₃.extra

end Start

section Areas

variable {text : KernelImage} {F B : Multiset Nat} {ph₀ : Phys} {par : PageTable}
  {done shared : List Nat} {R : Multiset (Nat × Nat)} {s : CowState} {vpns : List Nat}

theorem Sharing.with_map (h : Sharing text F par ph₀ done shared R B s) (m : FrameMap) :
    Sharing text F par ph₀ done shared R B { s with frame_map := m } :=
  ⟨h.parent, h.parent_owned, h.child_shared, h.child_own, h.child_mapped, h.subset, h.nodup,
    h.trampolines, h.owned, h.base, h.extra, h.quiet⟩

theorem mapped_keys_eq (h : ∀ v ∈ vpns, (par.find_pte v).isSome) :
    mapped_keys par vpns = vpns.map index := by
  rw [mapped_keys, mapped_vpns, List.filter_eq_self.mpr h]

theorem not_nodup_append {k l m : List Nat} (h : ¬ (k ++ l).Nodup) : ¬ (k ++ (l ++ m)).Nodup := by
  intro hnodup
  rw [← List.append_assoc] at hnodup
  exact h (List.nodup_append.mp hnodup).1

theorem shared_areas_cons (area : VmArea) (areas : List VmArea) :
    MemorySet.shared_areas (area :: areas) =
      MemorySet.shared_areas [area] ++ MemorySet.shared_areas areas := by
  rw [MemorySet.shared_areas, MemorySet.shared_areas, MemorySet.shared_areas, ← List.filter_append]
  rfl

theorem area_ppns_cons (area : VmArea) (areas : List VmArea) :
    MemorySet.area_ppns par (area :: areas) =
      MemorySet.area_ppns par [area] + MemorySet.area_ppns par areas := by
  rw [MemorySet.area_ppns, shared_areas_cons, List.map_append, List.sum_append]
  rfl

/-- A trap context is copied, any other area is shared. -/
theorem Sharing.copy_area {area : VmArea} {areas : List VmArea}
    (hpar : ∀ v pte, par.find_pte v = some pte → IsTrampoline text v pte ∨ pte.ppn ∈ F)
    (hkind : area.map_type = .Framed ∧ (area.area_type = .Elf ∨ area.area_type = .TrapContext))
    (hmapped : ∀ v ∈ area.vpn_range.vpns, (par.find_pte v).isSome)
    (h : Sharing text F par ph₀ done shared (MemorySet.area_slots areas) B s)
    (hcount : ∀ p, F.count p + (B + MemorySet.area_ppns par [area]).count p ≤ 255) :
    Meets (CowState.copy_area (s, areas) area)
      (fun e => e = .outOfMemory ∨ ¬ (done ++ MemorySet.area_keys area).Nodup) fun r =>
      Sharing text F par ph₀ (done ++ MemorySet.area_keys area)
        (shared ++ (MemorySet.shared_areas [area]).flatMap MemorySet.area_keys)
        (MemorySet.area_slots r.2) (B + MemorySet.area_ppns par [area]) r.1 ∧
        r.2.map VmArea.from_another = areas.map VmArea.from_another ++ [area.from_another] := by
  have hslots (area' : VmArea) : MemorySet.area_slots (areas ++ [area']) =
      MemorySet.area_slots areas + area'.frame_map.slots := by
    simp [MemorySet.area_slots]
  rcases hkind.2 with htype | htype
  · have hkeys := mapped_keys_eq hmapped
    have hppns : MemorySet.area_ppns par [area] = mapped_ppns par area.vpn_range.vpns := by
      simp [MemorySet.area_ppns, MemorySet.shared_areas, htype]
    have hshared : (MemorySet.shared_areas [area]).flatMap MemorySet.area_keys =
        area.vpn_range.vpns.map index := by
      simp [MemorySet.shared_areas, htype, MemorySet.area_keys]
    simp only [CowState.copy_area, htype]
    rw [hppns] at hcount ⊢
    rw [hshared, MemorySet.area_keys, ← hkeys]
    have hstart : Sharing text F par ph₀ done shared
        (MemorySet.area_slots areas + FrameMap.slots ∅) B { s with frame_map := ∅ } := by
      rw [FrameMap.slots_empty, add_zero]
      exact h.with_map ∅
    refine (Sharing.track_loop (f := CowState.track_mapped) ?_ ?_ hpar hstart hcount).bind ?_
    · intro s vpn pte hpte
      have htranslate : s.parent.translate vpn = some pte := hpte
      rw [CowState.track_mapped, htranslate]
    · intro s vpn hvpn hnone
      have hsome := hmapped vpn hvpn
      rw [hnone] at hsome
      cases hsome
    · intro r hr
      refine ⟨?_, ?_⟩
      · rw [hslots]
        exact hr
      · rw [List.map_append]
        rfl
  · have hppns : MemorySet.area_ppns par [area] = 0 := by
      simp [MemorySet.area_ppns, MemorySet.shared_areas, htype]
    have hshared : (MemorySet.shared_areas [area]).flatMap MemorySet.area_keys = [] := by
      simp [MemorySet.shared_areas, htype]
    simp only [CowState.copy_area, htype]
    rw [hppns, hshared, add_zero, List.append_nil, MemorySet.area_keys]
    refine (@Sharing.inflate _ _ _ _ _ _ _ _ _ area.from_another h hkind.1 rfl).bind ?_
    rintro ⟨area', child, ph⟩ ⟨hsame, hsharing, hdst⟩
    refine ((hsharing.copy_loop hmapped hdst).mono_error fun _ => False.elim).bind fun r hr => ?_
    refine ⟨?_, ?_⟩
    · rw [hslots]
      exact hr
    · rw [List.map_append, List.map_singleton, hsame]
      rfl

theorem Sharing.copy_areas {areas acc : List VmArea}
    (hpar : ∀ v pte, par.find_pte v = some pte → IsTrampoline text v pte ∨ pte.ppn ∈ F)
    (hkind : ∀ area ∈ areas, area.map_type = .Framed ∧
      (area.area_type = .Elf ∨ area.area_type = .TrapContext))
    (hmapped : ∀ area ∈ areas, ∀ v ∈ area.vpn_range.vpns, (par.find_pte v).isSome)
    (h : Sharing text F par ph₀ done shared (MemorySet.area_slots acc) B s)
    (hcount : ∀ p, F.count p + (B + MemorySet.area_ppns par areas).count p ≤ 255) :
    Meets (areas.foldlM CowState.copy_area (s, acc)) (fun e => e = .outOfMemory ∨
        ¬ (done ++ areas.flatMap MemorySet.area_keys).Nodup) fun r =>
      Sharing text F par ph₀ (done ++ areas.flatMap MemorySet.area_keys)
        (shared ++ (MemorySet.shared_areas areas).flatMap MemorySet.area_keys)
        (MemorySet.area_slots r.2) (B + MemorySet.area_ppns par areas) r.1 ∧
        r.2.map VmArea.from_another =
          acc.map VmArea.from_another ++ areas.map VmArea.from_another := by
  induction areas generalizing s acc done shared B with
  | nil =>
    have hppns : MemorySet.area_ppns par [] = 0 := rfl
    rw [hppns]
    simpa [MemorySet.shared_areas] using h
  | cons area areas ih =>
    rw [area_ppns_cons, ← add_assoc] at hcount ⊢
    rw [List.foldlM_cons, List.flatMap_cons, shared_areas_cons, List.flatMap_append]
    have hcount' (p : Nat) : F.count p + (B + MemorySet.area_ppns par [area]).count p ≤ 255 := by
      have := hcount p
      rw [Multiset.count_add] at this
      omega
    refine ((h.copy_area hpar (hkind area List.mem_cons_self) (hmapped area List.mem_cons_self)
      hcount').mono_error ?_).bind ?_
    · exact fun e he => he.imp_right not_nodup_append
    · rintro ⟨s', acc'⟩ ⟨hsharing, hsame⟩
      rw [← List.append_assoc, ← List.append_assoc]
      refine (ih (fun a ha => hkind a (List.mem_cons_of_mem _ ha))
        (fun a ha => hmapped a (List.mem_cons_of_mem _ ha)) hsharing hcount).mono ?_
      rintro r ⟨hr, hsame'⟩
      refine ⟨hr, ?_⟩
      rw [hsame', hsame, List.append_assoc]
      rfl

/-- The trackers of the mmap manager are cloned before its pages are shared. -/
theorem Sharing.clone {m : MmapManager} (h : Sharing text F par ph₀ done shared R B s)
    (hmem : ∀ p ∈ m.frame_map.owned, p ∈ F)
    (hcount : ∀ p, F.count p + (B + m.frame_map.owned).count p ≤ 255) :
    Meets (m.clone s.ph) (fun _ => False) fun r =>
      SameMappings m r.1 ∧ r.1.frame_map.slots = m.frame_map.slots ∧
        Sharing text F par ph₀ done shared (R + m.frame_map.slots) (B + m.frame_map.owned)
          { s with ph := r.2 } := by
  have hcount' : ∀ p, (s.child.owned + R.map Prod.snd + F).count p +
      m.frame_map.owned.count p ≤ 255 := by
    intro p
    have hp := hcount p
    rw [Multiset.count_add] at hp ⊢
    rcases Decidable.em (p ∈ F) with hF | hF
    · have := h.extra.shared p hF
      omega
    · have := h.extra.fresh p hF
      rw [Multiset.count_eq_zero.mpr hF, Multiset.count_eq_zero.mpr fun hm => hF (hmem p hm)]
      omega
  refine (FrameMap.clone_meets h.owned (fun p hp => Multiset.mem_add.mpr (Or.inr (hmem p hp)))
    hcount').bind ?_
  rintro ⟨m', ph⟩ ⟨hslots, howned, hbase, hbytes⟩
  have hR : s.child.owned + (R + m.frame_map.slots).map Prod.snd =
      s.child.owned + R.map Prod.snd + m.frame_map.owned := by
    rw [Multiset.map_add, FrameMap.owned, add_assoc]
  refine ⟨⟨rfl, rfl, rfl⟩, hslots, h.parent, h.parent_owned, fun v hv => ?_, fun v pte hv hnot => ?_, h.child_mapped,
    h.subset, h.nodup, h.trampolines, ?_, hbase.trans h.base, ?_, ?_⟩
  · obtain ⟨pte, hpte, hfind, hslot⟩ := h.child_shared v hv
    exact ⟨pte, hpte, hfind, Multiset.mem_add.mpr (Or.inl hslot)⟩
  · obtain ⟨hcow, hown⟩ := h.child_own v pte hv hnot
    exact ⟨hcow, hown.imp_right fun hown => ⟨Multiset.mem_add.mpr (Or.inl hown.1), hown.2⟩⟩
  · rw [hR]
    convert howned using 1
    ac_rfl
  · rw [hR]
    exact h.extra.add hmem
  · exact h.quiet.trans (fun q _ => congrFun hbytes q) h.base

/-- The stack or the heap. -/
theorem Sharing.copy_lazy_area {area : VmArea}
    (hpar : ∀ v pte, par.find_pte v = some pte → IsTrampoline text v pte ∨ pte.ppn ∈ F)
    (h : Sharing text F par ph₀ done shared R B s)
    (hcount : ∀ p, F.count p + (B + mapped_ppns par area.vpn_range.vpns).count p ≤ 255) :
    Meets (s.copy_lazy_area area) (fun e => e = .outOfMemory ∨
        ¬ (done ++ mapped_keys par area.vpn_range.vpns).Nodup) fun r =>
      r.2.from_another = area.from_another ∧
        Sharing text F par ph₀ (done ++ mapped_keys par area.vpn_range.vpns)
          (shared ++ mapped_keys par area.vpn_range.vpns) (R + r.2.frame_map.slots)
          (B + mapped_ppns par area.vpn_range.vpns) r.1 := by
  have hstart : Sharing text F par ph₀ done shared (R + FrameMap.slots ∅) B
      { s with frame_map := ∅ } := by
    rw [FrameMap.slots_empty, add_zero]
    exact h.with_map ∅
  refine (Sharing.track_loop (f := CowState.track_lazy) ?_ ?_ hpar hstart hcount).bind ?_
  · intro s vpn pte hpte
    have htranslate : s.parent.translate vpn = some pte := hpte
    rw [CowState.track_lazy, htranslate]
  · intro s vpn _ _ hnone
    have htranslate : s.parent.translate vpn = none := hnone
    rw [CowState.track_lazy, htranslate]
  · exact fun r hr => ⟨rfl, hr⟩

end Areas

section CopyOnWrite

variable {text : KernelImage} {E : Multiset Nat} {ms par child : MemorySet} {ph ph' : Phys}

/-- What a fork of `ms` leaves: the parent `par` and the child. `E` are the trackers of everybody
else. -/
structure Forked (text : KernelImage) (E : Multiset Nat) (ms : MemorySet) (ph : Phys)
    (par child : MemorySet) (ph' : Phys) : Prop where
  parent : par = { ms with page_table := par.page_table }
  parent_owned : par.page_table.owned = ms.page_table.owned
  parent_translate : ∀ v, par.translate v = if index v ∈ ms.shared_keys then
    (ms.translate v).map PageTableEntry.cowed else ms.translate v
  child_shared : ∀ v, index v ∈ ms.shared_keys → ∃ pte, ms.translate v = some pte ∧
    child.translate v = some pte.cowed ∧ (index v, pte.ppn) ∈ child.slots
  child_own : ∀ v pte, child.translate v = some pte → index v ∉ ms.shared_keys →
    pte.is_cow = false ∧
      (IsTrampoline text v pte ∨ (index v, pte.ppn) ∈ child.slots ∧ pte.ppn ∉ ms.owned + E)
  child_mapped : ∀ v, (child.translate v).isSome ↔ index v ∈ ms.cow_keys
  regions : SameRegions ms child
  mappings : SameMappings ms.mmap_manager child.mmap_manager
  mmap_slots : child.mmap_slots = ms.mmap_slots
  nodup : ms.cow_keys.Nodup
  owned : Owned ph'.allocator (child.owned + (ms.owned + E))
  base : ph'.allocator.base_num = ph.allocator.base_num
  extra : Extra (ms.owned + E) ms.cow_shares child.owned
  quiet : Quiet (ms.owned + E) ph ph'

theorem Tracked.mapped_owned (hT : Tracked text ms) {v : Nat} {pte : PageTableEntry}
    (hv : ms.translate v = some pte) : IsTrampoline text v pte ∨ pte.ppn ∈ ms.owned :=
  (hT.mapped v pte hv).imp_right fun hmem =>
    Multiset.mem_add.mpr (Or.inr (Multiset.mem_map_of_mem Prod.snd hmem))

theorem Tracked.shares_slots (hT : Tracked text ms) :
    ∀ e ∈ ms.mmap_manager.mmap_map.toList, e.2.valid = true →
      ∀ pte, ms.page_table.find_pte e.1 = some pte → (index e.1, pte.ppn) ∈ ms.mmap_slots := by
  rintro ⟨vpn, page⟩ he hvalid pte hpte
  rw [Std.TreeMap.mem_toList_iff_getElem?_eq_some] at he
  obtain ⟨pte', hpte', hslot⟩ := hT.mmap_valid vpn ⟨vpn, page, he, hvalid, rfl⟩
  cases hpte.symm.trans hpte'
  exact hslot

theorem from_copy_on_write_meets (hT : Tracked text ms) (h : Owned ph.allocator (ms.owned + E))
    (hcount : ∀ p, (ms.owned + E).count p + ms.cow_shares.count p ≤ 255) :
    Meets (MemorySet.from_copy_on_write text ms ph)
      (fun e => e = .outOfMemory ∨ ¬ ms.cow_keys.Nodup) fun r =>
      Forked text E ms ph r.1 r.2.1 r.2.2 := by
  have hpar : ∀ v pte, ms.page_table.find_pte v = some pte →
      IsTrampoline text v pte ∨ pte.ppn ∈ ms.owned + E := fun v pte hv =>
    (hT.mapped_owned hv).imp_right fun hmem => Multiset.mem_add.mpr (Or.inl hmem)
  have hkind : ∀ area ∈ ms.map_areas, area.map_type = .Framed ∧
      (area.area_type = .Elf ∨ area.area_type = .TrapContext) := fun area harea =>
    hT.kinds area.from_another (List.mem_map_of_mem harea)
  have hmapped : ∀ area ∈ ms.map_areas, ∀ v ∈ area.vpn_range.vpns,
      (ms.page_table.find_pte v).isSome := fun area harea v hv =>
    hT.area_mapped v ⟨area.from_another, List.mem_map_of_mem harea, trivial, v,
      VPNRange.mem_vpns.mp hv, rfl⟩
  have hmmap : ∀ p ∈ ms.mmap_manager.frame_map.owned, p ∈ ms.owned + E := by
    intro p hp
    refine Multiset.mem_add.mpr (Or.inl (Multiset.mem_add.mpr (Or.inr ?_)))
    rw [ms.slots_mmap, Multiset.map_add]
    exact Multiset.mem_add.mpr (Or.inl hp)
  have hpart {B : Multiset Nat} (hB : B ≤ ms.cow_shares) (p : Nat) :
      (ms.owned + E).count p + B.count p ≤ 255 :=
    (Nat.add_le_add_left (Multiset.count_le_of_le p hB) _).trans (hcount p)
  have hstackLe := Multiset.le_add_right (MemorySet.area_ppns ms.page_table ms.map_areas +
    ms.mmap_manager.frame_map.owned + mapped_ppns ms.page_table ms.user_stack_areas.vpn_range.vpns)
    (mapped_ppns ms.page_table ms.heap_areas.vpn_range.vpns)
  have hmmapLe := (Multiset.le_add_right (MemorySet.area_ppns ms.page_table ms.map_areas +
    ms.mmap_manager.frame_map.owned) _).trans hstackLe
  have hareasLe := (Multiset.le_add_right (MemorySet.area_ppns ms.page_table ms.map_areas)
    _).trans hmmapLe
  -- the regions are copied in the order of `cow_keys`
  have hcopied {ks : List Nat} (hks : ks <+: ms.cow_keys) (e : Panic)
      (he : e = .outOfMemory ∨ ¬ ks.Nodup) : e = .outOfMemory ∨ ¬ ms.cow_keys.Nodup :=
    he.imp_right fun hnot hnodup => hnot (hks.sublist.nodup hnodup)
  unfold MemorySet.from_copy_on_write
  refine ((Bare.new_bare h).mono_error fun _ he => Or.inl he).bind ?_
  rintro ⟨ms₁, ph₁⟩ h₁
  refine ((h₁.map_trampoline rfl).mono_error fun _ he => Or.inl he).bind ?_
  rintro ⟨ms₂, ph₂⟩ h₂
  refine ((h₂.map_signal_trampoline (if_neg (by decide))).mono_error fun _ he => Or.inl he).bind ?_
  rintro ⟨ms₃, ph₃⟩ h₃
  have hstart := Bare.sharing ms.page_table rfl rfl h₃
  refine ((@Sharing.copy_areas _ _ _ _ _ _ _ _ _ [] hpar hkind hmapped hstart
    (hpart (by rwa [zero_add]))).mono_error (hcopied ?_)).bind ?_
  · simp only [MemorySet.cow_keys, List.append_assoc, List.prefix_append_right_inj,
      List.prefix_append]
  rintro ⟨s₄, areas⟩ ⟨h₄, hareas⟩
  rw [zero_add, List.nil_append] at h₄
  refine ((h₄.clone hmmap (hpart hmmapLe)).mono_error fun _ => False.elim).bind ?_
  rintro ⟨m, ph₅⟩ ⟨hmappings, hslots, h₅⟩
  refine ((h₅.mmap_loop ms.mmap_manager.mmap_map.toList fun e he hvalid pte hpte =>
    Multiset.mem_add.mpr (Or.inr (hT.shares_slots e he hvalid pte hpte))).mono_error
      (hcopied ?_)).bind ?_
  · simp only [MemorySet.cow_keys, MemorySet.valid_keys, List.append_assoc,
      List.prefix_append_right_inj, List.prefix_append]
  rintro s₆ h₆
  refine ((h₆.copy_lazy_area hpar (hpart hstackLe)).mono_error (hcopied ?_)).bind ?_
  · simp only [MemorySet.cow_keys, MemorySet.valid_keys, MemorySet.stack_keys, List.append_assoc,
      List.prefix_append_right_inj, List.prefix_append]
  rintro ⟨s₇, stack⟩ ⟨hstack, h₇⟩
  refine ((h₇.copy_lazy_area hpar (hpart (le_refl _))).mono_error (hcopied ?_)).bind ?_
  · simp only [MemorySet.cow_keys, MemorySet.valid_keys, MemorySet.stack_keys,
      MemorySet.heap_keys, List.append_assoc, List.prefix_refl]
  rintro ⟨s₈, heap⟩ ⟨hheap, h₈⟩
  have hshm : ms.shm_areas.foldlM CowState.copy_shm_area s₈ = .ok s₈ := by
    rw [hT.no_shm]
    rfl
  dsimp only
  rw [hshm]
  have hR : MemorySet.area_slots areas + m.frame_map.slots + stack.frame_map.slots +
      heap.frame_map.slots =
      MemorySet.area_slots areas + ms.mmap_manager.frame_map.slots + stack.frame_map.slots +
        heap.frame_map.slots := by
    rw [hslots]
  rw [← hR] at h₈
  refine ⟨rfl, h₈.parent_owned, h₈.parent, h₈.child_shared, h₈.child_own, h₈.child_mapped,
    ⟨hareas, hstack, hheap, ?_⟩, hmappings, hslots, h₈.nodup, h₈.owned, h₈.base, h₈.extra,
    h₈.quiet⟩
  rw [hT.no_shm]
  rfl

end CopyOnWrite

end MyGOS.Mm
