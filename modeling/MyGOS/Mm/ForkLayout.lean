import MyGOS.Mm.Layout

/-!
# The layout after a fork

What `from_copy_on_write` does to the entries of both page tables, whatever the
trackers are: an entry of the parent stays or loses the W bit for the COW bit,
and the child has the same entry.
-/

namespace MyGOS.Mm

open Outcome

theorem PageTableEntry.cowed_cowed (pte : PageTableEntry) : pte.cowed.cowed = pte.cowed := by
  simp [cowed, set_cow, set_flags, PTEFlags.without]

/-- What a part of the copying does to the tables: entries of the parent are shared, and the
child gets new ones. -/
structure Copies (s s' : CowState) : Prop where
  parent : ∀ v, s'.parent.find_pte v = s.parent.find_pte v ∨
    ∃ pte, s.parent.find_pte v = some pte ∧ s'.parent.find_pte v = some pte.cowed
  child : ∀ v pte, s.child.find_pte v = some pte → s'.child.find_pte v = some pte
  origin : ∀ v, (s'.child.find_pte v).isSome →
    (s.child.find_pte v).isSome ∨ (s.parent.find_pte v).isSome

/-- The page has been shared since `s`. -/
def SharedSince (s s' : CowState) (v : Nat) : Prop :=
  ∃ pte, s.parent.find_pte v = some pte ∧ s'.parent.find_pte v = some pte.cowed ∧
    s'.child.find_pte v = some pte.cowed

section Copies

variable {s s' s'' : CowState} {v vpn : Nat} {pte : PageTableEntry} {vpns : List Nat}

theorem Copies.of_eq (hparent : s'.parent = s.parent) (hchild : s'.child = s.child) :
    Copies s s' :=
  ⟨fun v => Or.inl (by rw [hparent]), fun v pte hv => by rwa [hchild],
    fun v hv => Or.inl (by rwa [hchild] at hv)⟩

theorem Copies.refl (s : CowState) : Copies s s := Copies.of_eq rfl rfl

theorem Copies.trans (h : Copies s s') (h' : Copies s' s'') : Copies s s'' := by
  refine ⟨fun v => ?_, fun v pte hv => h'.child v pte (h.child v pte hv), fun v hv => ?_⟩
  · rcases h.parent v with hv | ⟨pte, hpte, hv⟩
    · rcases h'.parent v with hv' | ⟨pte', hpte', hv'⟩
      · exact Or.inl (hv'.trans hv)
      · exact Or.inr ⟨pte', hv ▸ hpte', hv'⟩
    · refine Or.inr ⟨pte, hpte, ?_⟩
      rcases h'.parent v with hv' | ⟨pte', hpte', hv'⟩
      · exact hv'.trans hv
      · cases hv.symm.trans hpte'
        rwa [PageTableEntry.cowed_cowed] at hv'
  · rcases h'.origin v hv with hchild | hparent
    · exact h.origin v hchild
    · right
      rcases h.parent v with hv' | ⟨pte, hpte, _⟩
      · rwa [← hv']
      · rw [hpte]
        rfl

theorem Copies.parent_isSome (h : Copies s s') (hv : (s.parent.find_pte v).isSome) :
    (s'.parent.find_pte v).isSome := by
  rcases h.parent v with hv' | ⟨pte, _, hv'⟩
  · rwa [hv']
  · rw [hv']
    rfl

theorem SharedSince.later (h : SharedSince s s' v) (h' : Copies s' s'') : SharedSince s s'' v := by
  obtain ⟨pte, hpte, hparent, hchild⟩ := h
  refine ⟨pte, hpte, ?_, h'.child v _ hchild⟩
  rcases h'.parent v with hv | ⟨pte', hpte', hv⟩
  · exact hv.trans hparent
  · cases hparent.symm.trans hpte'
    rwa [PageTableEntry.cowed_cowed] at hv

theorem SharedSince.earlier (h : Copies s s') (h' : SharedSince s' s'' v) : SharedSince s s'' v := by
  obtain ⟨pte, hpte, hparent, hchild⟩ := h'
  rcases h.parent v with hv | ⟨pte', hpte', hv⟩
  · exact ⟨pte, hv ▸ hpte, hparent, hchild⟩
  · cases hv.symm.trans hpte
    rw [PageTableEntry.cowed_cowed] at hparent hchild
    exact ⟨pte', hpte', hparent, hchild⟩

theorem SharedSince.child_isSome (h : SharedSince s s' v) : (s'.child.find_pte v).isSome := by
  obtain ⟨pte, _, _, hchild⟩ := h
  rw [hchild]
  rfl

/-- The flags of an entry are changed. -/
theorem update_flags_ok {pt pt' : PageTable} {ph ph' : Phys} {f : PageTableEntry → PageTableEntry}
    (hpte : pt.find_pte vpn = some pte) (hvalid : (f pte).is_valid = true)
    (h : pt.update_pte ph vpn f = .ok (pt', ph')) : pt.Entered vpn (f pte) pt' := by
  rw [PageTable.update_pte_of_find hpte] at h
  cases h
  exact PageTable.find_pte_update hpte hvalid

/-- Both tables get the COW entry. -/
theorem share_page_entered (hpte : s.parent.find_pte vpn = some pte)
    (h : s.share_page vpn pte = .ok s') :
    s.parent.Entered vpn pte.cowed s'.parent ∧ s.child.find_pte vpn = none ∧
      s.child.Entered vpn pte.cowed s'.child ∧ s'.frame_map = s.frame_map := by
  have hvalid := PageTable.is_valid_of_find_pte hpte
  have hvalid' : pte.cowed.is_valid = true := by rw [PageTableEntry.is_valid_cowed, hvalid]
  obtain ⟨⟨par₁, ph₁⟩, hflags, h⟩ := bind_eq_ok.mp h
  obtain ⟨⟨par₂, ph₂⟩, hcow, h⟩ := bind_eq_ok.mp h
  obtain ⟨⟨child₁, ph₃⟩, hmap, h⟩ := bind_eq_ok.mp h
  obtain ⟨⟨child₂, ph₄⟩, hcow', h⟩ := bind_eq_ok.mp h
  cases h
  have hparent₁ := update_flags_ok hpte (by
    simpa [PageTableEntry.is_valid, PageTableEntry.set_flags, PTEFlags.W] using hvalid) hflags
  have hparent₂ := update_flags_ok hparent₁.self hvalid' hcow
  obtain ⟨hnone, hchild₁⟩ := PageTable.map_ok hmap
  have hchild₁ : s.child.Entered vpn _ child₁ := hchild₁
  have hchild₂ := update_flags_ok hchild₁.self (by
    rw [PageTableEntry.cowed_of_valid hvalid]
    exact hvalid') hcow'
  rw [PageTableEntry.cowed_of_valid hvalid] at hchild₂
  refine ⟨fun v => ?_, hnone, fun v => ?_, rfl⟩
  · rw [hparent₂ v, hparent₁ v]
    split <;> rfl
  · rw [hchild₂ v, hchild₁ v]
    split <;> rfl

theorem share_page_ok (hpte : s.parent.find_pte vpn = some pte)
    (h : s.share_page vpn pte = .ok s') :
    Copies s s' ∧ SharedSince s s' vpn ∧ s'.frame_map = s.frame_map ∧
      s.child.find_pte vpn = none := by
  obtain ⟨hparent, hnone, hchild, hframes⟩ := share_page_entered hpte h
  refine ⟨⟨fun v => ?_, fun v pte' hv => ?_, fun v hv => ?_⟩,
    ⟨pte, hpte, hparent.self, hchild.self⟩, hframes, hnone⟩
  · rw [hparent v]
    split
    · rename_i heq
      exact Or.inr ⟨pte, (PageTable.find_pte_congr _ heq).trans hpte, rfl⟩
    · exact Or.inl rfl
  · rw [hchild v]
    split
    · rename_i heq
      rw [PageTable.find_pte_congr _ heq, hnone] at hv
      cases hv
    · exact hv
  · rw [hchild v] at hv
    split at hv
    · rename_i heq
      exact Or.inr (by rw [PageTable.find_pte_congr _ heq, hpte]; rfl)
    · exact Or.inl hv

theorem track_page_ok (hpte : s.parent.find_pte vpn = some pte)
    (h : s.track_page vpn pte = .ok s') :
    Copies s s' ∧ SharedSince s s' vpn ∧
      (s.frame_map.Mapped s.child → s'.frame_map.Mapped s'.child) := by
  obtain ⟨s₁, hshare, h⟩ := bind_eq_ok.mp h
  obtain ⟨⟨frame, ph₁⟩, _, h⟩ := bind_eq_ok.mp h
  obtain ⟨⟨m, ph₂⟩, hinsert, h⟩ := bind_eq_ok.mp h
  cases h
  obtain ⟨hcopies, hshared, hframes, _⟩ := share_page_ok hpte hshare
  refine ⟨hcopies.trans (Copies.of_eq rfl rfl), hshared.later (Copies.of_eq rfl rfl), fun hm => ?_⟩
  rw [FrameMap.insert_frame_ok hinsert, hframes]
  refine hm.insert (fun v hv => ?_) hshared.child_isSome frame
  obtain ⟨pte', hpte'⟩ := Option.isSome_iff_exists.mp hv
  rw [hcopies.child v pte' hpte']
  rfl

/-- A loop over pages, each of which it shares if the parent has it; a `strict` one stops where
the parent does not. -/
theorem track_loop_ok {f : CowState → Nat → Except Panic CowState} {Q : CowState → Prop}
    {strict : Prop} (hf : ∀ {s s' v}, f s v = .ok s' → Q s → Copies s s' ∧
      (strict ∨ (s.parent.find_pte v).isSome → SharedSince s s' v) ∧ Q s') :
    ∀ {vpns : List Nat} {s s' : CowState}, vpns.foldlM f s = .ok s' → Q s → Copies s s' ∧
      (∀ v ∈ vpns, strict ∨ (s.parent.find_pte v).isSome → SharedSince s s' v) ∧ Q s' := by
  intro vpns
  induction vpns with
  | nil =>
    intro s s' h hQ
    cases h
    exact ⟨Copies.refl s, fun v hv => absurd hv List.not_mem_nil, hQ⟩
  | cons vpn vpns ih =>
    intro s s' h hQ
    rw [List.foldlM_cons] at h
    obtain ⟨s₁, hs₁, h⟩ := bind_eq_ok.mp h
    obtain ⟨hcopies, hshared, hQ₁⟩ := hf hs₁ hQ
    obtain ⟨hcopies', hshared', hQ'⟩ := ih h hQ₁
    refine ⟨hcopies.trans hcopies', fun v hv hsome => ?_, hQ'⟩
    rcases List.mem_cons.mp hv with rfl | hv
    · exact (hshared hsome).later hcopies'
    · exact SharedSince.earlier hcopies
        (hshared' v hv (hsome.imp_right hcopies.parent_isSome))

theorem track_mapped_ok (h : s.track_mapped v = .ok s') : Copies s s' ∧ SharedSince s s' v := by
  unfold CowState.track_mapped at h
  split at h
  · cases h
  · rename_i pte hpte
    obtain ⟨hcopies, hshared, _⟩ := track_page_ok hpte h
    exact ⟨hcopies, hshared⟩

theorem track_lazy_ok (h : s.track_lazy v = .ok s') :
    Copies s s' ∧ ((s.parent.find_pte v).isSome → SharedSince s s' v) ∧
      (s.frame_map.Mapped s.child → s'.frame_map.Mapped s'.child) := by
  unfold CowState.track_lazy at h
  split at h
  · rename_i hnone
    cases h
    refine ⟨Copies.refl s, fun hsome => ?_, id⟩
    rw [show s.parent.find_pte v = none from hnone] at hsome
    cases hsome
  · rename_i pte hpte
    obtain ⟨hcopies, hshared, hframes⟩ := track_page_ok hpte h
    exact ⟨hcopies, fun _ => hshared, hframes⟩

theorem share_mmap_ok {e : Nat × MmapPage} (h : s.share_mmap e = .ok s') :
    Copies s s' ∧ (e.2.valid = true → (s.parent.find_pte e.1).isSome → SharedSince s s' e.1) := by
  unfold CowState.share_mmap at h
  split at h
  · split at h
    · rename_i hnone
      cases h
      refine ⟨Copies.refl s, fun _ hsome => ?_⟩
      rw [show s.parent.find_pte e.1 = none from hnone] at hsome
      cases hsome
    · rename_i pte hpte
      obtain ⟨hcopies, hshared, _⟩ := share_page_ok hpte h
      exact ⟨hcopies, fun _ _ => hshared⟩
  · rename_i hvalid
    cases h
    exact ⟨Copies.refl s, fun hv => absurd hv hvalid⟩

end Copies

section Inflate

variable {area area' : VmArea} {pt pt' : PageTable} {ph ph' : Phys} {vpn : Nat} {vpns : List Nat}

theorem inflate_page_ok (h : VmArea.inflate_page (area, pt, ph) vpn = .ok (area', pt', ph')) :
    area'.from_another = area.from_another ∧ pt.find_pte vpn = none ∧ ∃ ppn, pt.Entered vpn
      ⟨ppn, PTEFlags.from_map_permission area.permission ||| PTEFlags.V⟩ pt' := by
  unfold VmArea.inflate_page at h
  dsimp only at h
  split at h
  · obtain ⟨⟨pt₁, ph₁⟩, hmap, h⟩ := bind_eq_ok.mp h
    cases h
    obtain ⟨hnone, hpt⟩ := PageTable.map_ok hmap
    exact ⟨rfl, hnone, _, hpt⟩
  · obtain ⟨⟨frame, ph₁⟩, _, h⟩ := bind_eq_ok.mp h
    dsimp only at h
    split at h
    · cases h
    · obtain ⟨⟨pt₁, ph₂⟩, hmap, h⟩ := bind_eq_ok.mp h
      cases h
      obtain ⟨hnone, hpt⟩ := PageTable.map_ok hmap
      exact ⟨rfl, hnone, _, hpt⟩

/-- The pages of the area are mapped; those that were mapped stay as they are. -/
theorem inflate_loop_ok (vpns : List Nat) : ∀ {area area' : VmArea} {pt pt' : PageTable}
    {ph ph' : Phys}, vpns.foldlM VmArea.inflate_page (area, pt, ph) = .ok (area', pt', ph') →
      area'.from_another = area.from_another ∧
      (∀ v pte, pt.find_pte v = some pte → pt'.find_pte v = some pte) ∧
      (∀ v ∈ vpns, ∃ ppn, pt'.find_pte v =
        some ⟨ppn, PTEFlags.from_map_permission area.permission ||| PTEFlags.V⟩) ∧
      ∀ v, (pt'.find_pte v).isSome → (pt.find_pte v).isSome ∨ ∃ w ∈ vpns, index v = index w := by
  induction vpns with
  | nil =>
    intro area area' pt pt' ph ph' h
    cases h
    exact ⟨rfl, fun _ _ hv => hv, fun v hv => absurd hv List.not_mem_nil, fun v hv => Or.inl hv⟩
  | cons vpn vpns ih =>
    intro area area' pt pt' ph ph' h
    rw [List.foldlM_cons] at h
    obtain ⟨⟨area₁, pt₁, ph₁⟩, hpage, h⟩ := bind_eq_ok.mp h
    obtain ⟨hsame, hnone, ppn, hpt⟩ := inflate_page_ok hpage
    obtain ⟨hsame', hkept, hnew, horigin⟩ := ih h
    have hperm : area₁.permission = area.permission := (congrArg VmArea.permission hsame :)
    refine ⟨hsame'.trans hsame, fun v pte hv => hkept v pte ?_, fun v hv => ?_, fun v hv => ?_⟩
    · rw [hpt v, if_neg]
      · exact hv
      · intro heq
        rw [PageTable.find_pte_congr _ heq, hnone] at hv
        cases hv
    · rcases List.mem_cons.mp hv with rfl | hv
      · exact ⟨ppn, hkept v _ hpt.self⟩
      · rw [← hperm]
        exact hnew v hv
    · rcases horigin v hv with hv | ⟨w, hw, heq⟩
      · rw [hpt v] at hv
        split at hv
        · rename_i heq
          exact Or.inr ⟨vpn, List.mem_cons_self, heq⟩
        · exact Or.inl hv
      · exact Or.inr ⟨w, List.mem_cons_of_mem _ hw, heq⟩

end Inflate

section Areas

variable {s s' : CowState} {area : VmArea} {areas acc acc' : List VmArea}

/-- The pages of an area are in the child: those of a trap context anew, the others shared. -/
def AreaCopied (s s' : CowState) (area : VmArea) : Prop :=
  ∀ v ∈ area.vpn_range, area.area_type = .TrapContext ∧ (s'.child.find_pte v).isSome ∨
    area.area_type ≠ .TrapContext ∧ SharedSince s s' v

theorem AreaCopied.later {s'' : CowState} (h : AreaCopied s s' area) (h' : Copies s' s'') :
    AreaCopied s s'' area := by
  intro v hv
  rcases h v hv with ⟨htype, hsome⟩ | ⟨htype, hshared⟩
  · obtain ⟨pte, hpte⟩ := Option.isSome_iff_exists.mp hsome
    exact Or.inl ⟨htype, Option.isSome_iff_exists.mpr ⟨pte, h'.child v pte hpte⟩⟩
  · exact Or.inr ⟨htype, hshared.later h'⟩

theorem AreaCopied.earlier {s₀ : CowState} (h : Copies s₀ s) (h' : AreaCopied s s' area) :
    AreaCopied s₀ s' area := fun v hv =>
  (h' v hv).imp_right fun hshared => ⟨hshared.1, SharedSince.earlier h hshared.2⟩

theorem track_area_ok (h : area.vpn_range.vpns.foldlM CowState.track_mapped s = .ok s') :
    Copies s s' ∧ ∀ v ∈ area.vpn_range, SharedSince s s' v := by
  have hpage {s s' : CowState} {v : Nat} (h : s.track_mapped v = .ok s') (_ : True) :
      Copies s s' ∧ (True ∨ (s.parent.find_pte v).isSome → SharedSince s s' v) ∧ True := by
    obtain ⟨hcopies, hshared⟩ := track_mapped_ok h
    exact ⟨hcopies, fun _ => hshared, trivial⟩
  obtain ⟨hcopies, hshared, _⟩ := track_loop_ok hpage h trivial
  exact ⟨hcopies, fun v hv => hshared v (VPNRange.mem_vpns.mpr hv) (Or.inl trivial)⟩

theorem copy_pages_ok (vpns : List Nat) : ∀ {s s' : CowState},
    vpns.foldlM CowState.copy_page s = .ok s' → s'.parent = s.parent ∧ s'.child = s.child ∧
      ∀ v ∈ vpns, (s.parent.find_pte v).isSome := by
  induction vpns with
  | nil =>
    intro s s' h
    cases h
    exact ⟨rfl, rfl, fun v hv => absurd hv List.not_mem_nil⟩
  | cons vpn vpns ih =>
    intro s s' h
    rw [List.foldlM_cons] at h
    obtain ⟨s₁, hpage, h⟩ := bind_eq_ok.mp h
    unfold CowState.copy_page at hpage
    split at hpage
    · rename_i src dst hsrc _
      cases hpage
      obtain ⟨hparent, hchild, hsome⟩ := ih h
      refine ⟨hparent, hchild, fun v hv => ?_⟩
      rcases List.mem_cons.mp hv with rfl | hv
      · exact Option.isSome_iff_exists.mpr ⟨src, hsrc⟩
      · exact hsome v hv
    · cases hpage

theorem copy_area_ok (h : CowState.copy_area (s, acc) area = .ok (s', acc')) :
    Copies s s' ∧ AreaCopied s s' area ∧
      ∃ new_area, acc' = acc ++ [new_area] ∧ new_area.from_another = area.from_another := by
  unfold CowState.copy_area at h
  dsimp only at h
  split at h
  · rename_i htype
    obtain ⟨⟨new_area, child, ph⟩, hinflate, h⟩ := bind_eq_ok.mp h
    obtain ⟨s₁, hcopy, h⟩ := bind_eq_ok.mp h
    cases h
    obtain ⟨hsame, hkept, hnew, horigin⟩ := inflate_loop_ok _ hinflate
    obtain ⟨hparent, hchild, hsome⟩ := copy_pages_ok _ hcopy
    refine ⟨⟨fun v => Or.inl (by rw [hparent]), fun v pte hv => ?_, fun v hv => ?_⟩,
      fun v hv => Or.inl ⟨htype, ?_⟩, new_area, rfl, hsame⟩
    · rw [hchild]
      exact hkept v pte hv
    · rw [hchild] at hv
      refine (horigin v hv).imp_right ?_
      rintro ⟨w, hw, heq⟩
      rw [PageTable.find_pte_congr _ heq]
      exact hsome w hw
    · obtain ⟨ppn, hppn⟩ := hnew v (VPNRange.mem_vpns.mpr hv)
      rw [hchild]
      exact Option.isSome_iff_exists.mpr ⟨_, hppn⟩
  all_goals try cases h
  all_goals
    rename_i htype
    obtain ⟨s₁, htrack, h⟩ := bind_eq_ok.mp h
    cases h
    obtain ⟨hcopies, hshared⟩ := track_area_ok htrack
    have hcopies₀ : Copies s { s with frame_map := ∅ } := Copies.of_eq rfl rfl
    refine ⟨hcopies₀.trans hcopies, fun v hv => Or.inr ⟨by rw [htype]; decide, ?_⟩, _, rfl, rfl⟩
    exact SharedSince.earlier hcopies₀ (hshared v hv)

theorem copy_areas_ok (areas : List VmArea) : ∀ {s s' : CowState} {acc acc' : List VmArea},
    areas.foldlM CowState.copy_area (s, acc) = .ok (s', acc') →
      Copies s s' ∧ (∀ area ∈ areas, AreaCopied s s' area) ∧
        acc'.map VmArea.from_another =
          acc.map VmArea.from_another ++ areas.map VmArea.from_another := by
  induction areas with
  | nil =>
    intro s s' acc acc' h
    cases h
    exact ⟨Copies.refl s, fun _ h => absurd h List.not_mem_nil, by simp⟩
  | cons area areas ih =>
    intro s s' acc acc' h
    rw [List.foldlM_cons] at h
    obtain ⟨⟨s₁, acc₁⟩, harea, h⟩ := bind_eq_ok.mp h
    obtain ⟨hcopies, hcopied, new_area, rfl, hsame⟩ := copy_area_ok harea
    obtain ⟨hcopies', hcopied', hareas⟩ := ih h
    refine ⟨hcopies.trans hcopies', fun a ha => ?_, ?_⟩
    · rcases List.mem_cons.mp ha with rfl | ha
      · exact hcopied.later hcopies'
      · exact AreaCopied.earlier hcopies (hcopied' a ha)
    · rw [hareas, List.map_append, List.map_singleton, hsame, List.map_cons, List.append_assoc]
      rfl

theorem share_mmaps_ok (entries : List (Nat × MmapPage)) : ∀ {s s' : CowState},
    entries.foldlM CowState.share_mmap s = .ok s' → Copies s s' ∧
      ∀ e ∈ entries, e.2.valid = true → (s.parent.find_pte e.1).isSome →
        SharedSince s s' e.1 := by
  induction entries with
  | nil =>
    intro s s' h
    cases h
    exact ⟨Copies.refl s, fun _ h => absurd h List.not_mem_nil⟩
  | cons e entries ih =>
    intro s s' h
    rw [List.foldlM_cons] at h
    obtain ⟨s₁, he, h⟩ := bind_eq_ok.mp h
    obtain ⟨hcopies, hshared⟩ := share_mmap_ok he
    obtain ⟨hcopies', hshared'⟩ := ih h
    refine ⟨hcopies.trans hcopies', fun e' he' hvalid hsome => ?_⟩
    rcases List.mem_cons.mp he' with rfl | he'
    · exact (hshared hvalid hsome).later hcopies'
    · exact SharedSince.earlier hcopies (hshared' e' he' hvalid (hcopies.parent_isSome hsome))

theorem copy_lazy_area_ok {new_area : VmArea}
    (h : s.copy_lazy_area area = .ok (s', new_area)) :
    Copies s s' ∧ (∀ v ∈ area.vpn_range, (s.parent.find_pte v).isSome → SharedSince s s' v) ∧
      new_area.from_another = area.from_another ∧ new_area.frame_map.Mapped s'.child := by
  obtain ⟨s₁, htrack, h⟩ := bind_eq_ok.mp h
  cases h
  have hpage {s s' : CowState} {v : Nat} (h : s.track_lazy v = .ok s')
      (hQ : s.frame_map.Mapped s.child) : Copies s s' ∧
        (False ∨ (s.parent.find_pte v).isSome → SharedSince s s' v) ∧
        s'.frame_map.Mapped s'.child := by
    obtain ⟨hcopies, hshared, hframes⟩ := track_lazy_ok h
    exact ⟨hcopies, fun hsome => hshared (hsome.resolve_left id), hframes hQ⟩
  have hcopies₀ : Copies s { s with frame_map := ∅ } := Copies.of_eq rfl rfl
  have hempty : FrameMap.Mapped ∅ s.child := fun v hv => by simp at hv
  obtain ⟨hcopies, hshared, hframes⟩ := track_loop_ok hpage htrack hempty
  refine ⟨hcopies₀.trans hcopies, fun v hv hsome => ?_, rfl, hframes⟩
  exact SharedSince.earlier hcopies₀ (hshared v (VPNRange.mem_vpns.mpr hv) (Or.inr hsome))

theorem share_shm_ok {vpn : Nat} (h : s.share_shm vpn = .ok s') : Copies s s' := by
  unfold CowState.share_shm at h
  split at h
  · cases h
    exact Copies.refl s
  · rename_i pte hpte
    obtain ⟨⟨child, ph⟩, hmap, h⟩ := bind_eq_ok.mp h
    cases h
    obtain ⟨hnone, hchild⟩ := PageTable.map_ok hmap
    refine ⟨fun v => Or.inl rfl, fun v pte' hv => ?_, fun v hv => ?_⟩
    · rw [hchild v, if_neg]
      · exact hv
      · intro heq
        rw [PageTable.find_pte_congr _ heq, hnone] at hv
        cases hv
    · rw [hchild v] at hv
      split at hv
      · rename_i heq
        exact Or.inr (by rw [PageTable.find_pte_congr _ heq]; exact Option.isSome_iff_exists.mpr ⟨pte, hpte⟩)
      · exact Or.inl hv

theorem copies_loop {α : Type} {f : CowState → α → Except Panic CowState}
    (hf : ∀ {s s' a}, f s a = .ok s' → Copies s s') (l : List α) :
    ∀ {s s' : CowState}, l.foldlM f s = .ok s' → Copies s s' := by
  induction l with
  | nil =>
    intro s s' h
    cases h
    exact Copies.refl s
  | cons a l ih =>
    intro s s' h
    rw [List.foldlM_cons] at h
    obtain ⟨s₁, ha, h⟩ := bind_eq_ok.mp h
    exact (hf ha).trans (ih h)

theorem copy_shm_area_ok (h : s.copy_shm_area area = .ok s') : Copies s s' :=
  copies_loop share_shm_ok _ h

end Areas

/-- The page is shared by parent and child, neither of which may write to it. -/
def BothCowed (ms parent child : MemorySet) (v : Nat) : Prop :=
  ∃ pte, ms.translate v = some pte ∧ parent.translate v = some pte.cowed ∧
    child.translate v = some pte.cowed

/-- A fork of `ms`. -/
structure ForkedInto (ms parent child : MemorySet) : Prop where
  parent_same : parent = { ms with page_table := parent.page_table }
  parent_pte : ∀ v, parent.translate v = ms.translate v ∨
    ∃ pte, ms.translate v = some pte ∧ parent.translate v = some pte.cowed
  areas : child.map_areas.map VmArea.from_another = ms.map_areas.map VmArea.from_another
  area_pages : ∀ area ∈ ms.map_areas, ∀ v ∈ area.vpn_range,
    area.area_type = .TrapContext ∧ (child.translate v).isSome ∨
      area.area_type ≠ .TrapContext ∧ BothCowed ms parent child v
  child_pte : ∀ v, (child.translate v).isSome →
    (ms.translate v).isSome ∨ ∃ w ∈ trampolines, index v = index w
  trampolines : ∀ v ∈ trampolines, (child.translate v).isSome
  mmap_pages : ∀ (v : Nat) (page : MmapPage), ms.mmap_manager.mmap_map[v]? = some page →
    page.valid = true → (ms.translate v).isSome → BothCowed ms parent child v
  stack : child.user_stack_areas.from_another = ms.user_stack_areas.from_another
  stack_frames : child.user_stack_areas.frame_map.Mapped child.page_table
  heap : child.heap_areas.from_another = ms.heap_areas.from_another
  heap_frames : child.heap_areas.frame_map.Mapped child.page_table
  records : SameMappings ms.mmap_manager child.mmap_manager
  mmap_frames : ∀ v : Nat, (child.mmap_manager.frame_map[v]?).isSome →
    (ms.mmap_manager.frame_map[v]?).isSome
  brk_start : child.brk_start = ms.brk_start
  brk : child.brk = ms.brk
  stack_start : child.user_stack_start = ms.user_stack_start
  stack_end : child.user_stack_end = ms.user_stack_end
  shm : child.shm_areas = ms.shm_areas.map VmArea.from_another

section Fork

variable {text : KernelImage} {ms parent child : MemorySet} {ph ph' : Phys} {m m' : MmapManager}

/-- The trackers of a clone stand under pages that had one. -/
theorem clone_frames_ok {frames frames' : FrameMap} (h : frames.clone ph = .ok (frames', ph'))
    (v : Nat) (hv : (frames'[v]?).isSome) : (frames[v]?).isSome := by
  have hloop := foldlM_ok (I := fun (rest : List (Nat × FrameTracker)) (s : FrameMap × Phys) =>
    (∀ e ∈ rest, (frames[e.1]?).isSome) ∧ ∀ v : Nat, (s.1[v]?).isSome → (frames[v]?).isSome)
    ?_ (s := (∅, ph)) ?_ h
  · exact hloop.2 v hv
  · rintro e rest s t ⟨hrest, hs⟩ he
    obtain ⟨⟨frame, ph₁⟩, _, he⟩ := bind_eq_ok.mp he
    cases he
    obtain ⟨hhead, hrest⟩ := List.forall_mem_cons.mp hrest
    refine ⟨hrest, fun v hv => ?_⟩
    rw [Std.TreeMap.getElem?_insert] at hv
    split at hv
    · rename_i heq
      rwa [← Std.LawfulEqCmp.eq_of_compare heq]
    · exact hs v hv
  · refine ⟨fun e he => ?_, fun v hv => by simp at hv⟩
    rw [Std.TreeMap.mem_toList_iff_getElem?_eq_some.mp he]
    rfl

theorem clone_ok (h : m.clone ph = .ok (m', ph')) : SameMappings m m' ∧
    ∀ v : Nat, (m'.frame_map[v]?).isSome → (m.frame_map[v]?).isSome := by
  obtain ⟨⟨frame_map, ph₁⟩, hclone, h⟩ := bind_eq_ok.mp h
  cases h
  exact ⟨⟨rfl, rfl, rfl⟩, clone_frames_ok hclone⟩

theorem new_bare_unmapped {bare : MemorySet} (h : MemorySet.new_bare ph = .ok (bare, ph'))
    (v : Nat) : bare.translate v = none := by
  obtain ⟨⟨pt, ph₁⟩, hpt, h⟩ := bind_eq_ok.mp h
  obtain ⟨heap, _, h⟩ := bind_eq_ok.mp h
  obtain ⟨stack, _, h⟩ := bind_eq_ok.mp h
  cases h
  obtain ⟨⟨frame, ph₂⟩, _, hpt⟩ := bind_eq_ok.mp hpt
  cases hpt
  rfl

/-- The table of a new address space has the trampolines only. -/
theorem trampolines_ok {bare tramp new : MemorySet} {ph₁ ph₂ ph₃ : Phys}
    (hbare : MemorySet.new_bare ph = .ok (bare, ph₁))
    (htramp : bare.map_trampoline text ph₁ = .ok (tramp, ph₂))
    (hsignal : tramp.map_signal_trampoline text ph₂ = .ok (new, ph₃)) :
    (∀ v ∈ trampolines, (new.translate v).isSome) ∧
      ∀ v, (new.translate v).isSome → ∃ w ∈ trampolines, index v = index w := by
  obtain ⟨⟨pt, _⟩, hmap, htramp⟩ := bind_eq_ok.mp htramp
  cases htramp
  obtain ⟨⟨pt', _⟩, hmap', hsignal⟩ := bind_eq_ok.mp hsignal
  cases hsignal
  obtain ⟨_, hpt⟩ := PageTable.map_ok hmap
  obtain ⟨_, hpt'⟩ := PageTable.map_ok hmap'
  have hfind (v : Nat) : (pt'.find_pte v).isSome ↔ ∃ w ∈ trampolines, index v = index w := by
    rw [hpt' v, hpt v, show bare.page_table.find_pte v = none from new_bare_unmapped hbare v]
    simp only [trampolines, List.mem_cons, List.not_mem_nil, or_false, exists_eq_or_imp,
      exists_eq_left]
    split_ifs <;> simp_all
  exact ⟨fun v hv => (hfind v).mpr ⟨v, hv, rfl⟩, fun v => (hfind v).mp⟩

theorem from_copy_on_write_ok
    (h : ms.from_copy_on_write text ph = .ok (parent, child, ph')) :
    ForkedInto ms parent child := by
  obtain ⟨⟨bare, ph₁⟩, hbare, h⟩ := bind_eq_ok.mp h
  obtain ⟨⟨tramp, ph₂⟩, htramp, h⟩ := bind_eq_ok.mp h
  obtain ⟨⟨new, ph₃⟩, hsignal, h⟩ := bind_eq_ok.mp h
  obtain ⟨⟨s₁, map_areas⟩, hareas, h⟩ := bind_eq_ok.mp h
  obtain ⟨⟨mmap_manager, ph₄⟩, hclone, h⟩ := bind_eq_ok.mp h
  obtain ⟨s₂, hmmap, h⟩ := bind_eq_ok.mp h
  obtain ⟨⟨s₃, stack⟩, hstack, h⟩ := bind_eq_ok.mp h
  obtain ⟨⟨s₄, heap⟩, hheap, h⟩ := bind_eq_ok.mp h
  obtain ⟨s₅, hshm, h⟩ := bind_eq_ok.mp h
  cases h
  obtain ⟨hcopies₁, hcopied, hsame⟩ := copy_areas_ok _ hareas
  obtain ⟨hcopies₂, hmmapped⟩ := share_mmaps_ok _ hmmap
  have hcloned : Copies s₁ { s₁ with ph := ph₄ } := Copies.of_eq rfl rfl
  have hcopies₂ := hcloned.trans hcopies₂
  obtain ⟨hcopies₃, _, hstackSame, hstackFrames⟩ := copy_lazy_area_ok hstack
  obtain ⟨hcopies₄, _, hheapSame, hheapFrames⟩ := copy_lazy_area_ok hheap
  have hcopies₅ := copies_loop copy_shm_area_ok _ hshm
  have hcopies := hcopies₁.trans (hcopies₂.trans (hcopies₃.trans (hcopies₄.trans hcopies₅)))
  obtain ⟨htrampolines, hnew⟩ := trampolines_ok hbare htramp hsignal
  have hkept {t t' : CowState} (ht : Copies t t') {m : FrameMap} (hm : m.Mapped t.child) :
      m.Mapped t'.child := by
    intro v hv
    obtain ⟨pte, hpte⟩ := Option.isSome_iff_exists.mp (hm v hv)
    exact Option.isSome_iff_exists.mpr ⟨pte, ht.child v pte hpte⟩
  constructor
  · rfl
  · exact hcopies.parent
  · simpa using hsame
  · intro area harea v hv
    exact (hcopied area harea).later
      (hcopies₂.trans (hcopies₃.trans (hcopies₄.trans hcopies₅))) v hv
  · exact fun v hv => (hcopies.origin v hv).symm.imp_right (hnew v)
  · intro v hv
    obtain ⟨pte, hpte⟩ := Option.isSome_iff_exists.mp (htrampolines v hv)
    exact Option.isSome_iff_exists.mpr ⟨pte, hcopies.child v pte hpte⟩
  · intro v page hpage hvalid hsome
    have hmem : (v, page) ∈ ms.mmap_manager.mmap_map.toList :=
      Std.TreeMap.mem_toList_iff_getElem?_eq_some.mpr hpage
    have hshared := hmmapped (v, page) hmem hvalid (hcopies₁.parent_isSome hsome)
    exact SharedSince.earlier (hcopies₁.trans hcloned)
      (hshared.later (hcopies₃.trans (hcopies₄.trans hcopies₅)))
  · exact hstackSame
  · exact hkept (hcopies₄.trans hcopies₅) hstackFrames
  · exact hheapSame
  · exact hkept hcopies₅ hheapFrames
  · exact (clone_ok hclone).1
  · exact (clone_ok hclone).2
  · rfl
  · rfl
  · rfl
  · rfl
  · rfl

theorem cowed_u (pte : PageTableEntry) : pte.cowed.flags.u = pte.flags.u := by
  simp [PageTableEntry.cowed, PageTableEntry.set_cow, PageTableEntry.set_flags, PTEFlags.W]

theorem ForkedInto.parent_keeps (h : ForkedInto ms parent child) : Keeps ms parent := by
  rw [h.parent_same]
  refine Keeps.table fun v pte hv => ?_
  rcases h.parent_pte v with hsame | ⟨pte', hpte', hcowed⟩
  · exact ⟨pte, hsame.trans hv, id⟩
  · cases hv.symm.trans hpte'
    exact ⟨_, hcowed, fun hu => by rwa [cowed_u]⟩

theorem ForkedInto.child_laid (h : ForkedInto ms parent child) (hl : Laid ms) : Laid child := by
  have hstackRange : child.user_stack_areas.vpn_range = ms.user_stack_areas.vpn_range :=
    (congrArg VmArea.vpn_range h.stack :)
  have hheapRange : child.heap_areas.vpn_range = ms.heap_areas.vpn_range :=
    (congrArg VmArea.vpn_range h.heap :)
  have hrecords : SameRecords ms.mmap_manager child.mmap_manager :=
    ⟨h.records.start, h.records.top, fun v => by rw [h.records.map]⟩
  constructor
  · exact h.stack_start.trans hl.stack_start
  · exact h.stack_end.trans hl.stack_end
  · rw [h.stack_start, h.stack_end, hstackRange]
    exact hl.stack_range
  · exact (congrArg VmArea.map_type h.stack :).trans hl.stack_framed
  · exact (congrArg VmArea.permission h.stack :).trans hl.stack_user
  · exact h.stack_frames
  · rw [h.brk_start]
    exact hl.heap_limit
  · rw [h.brk_start, hheapRange]
    exact hl.heap_range
  · exact (congrArg VmArea.map_type h.heap :).trans hl.heap_framed
  · exact (congrArg VmArea.permission h.heap :).trans hl.heap_user
  · exact h.heap_frames
  · rw [h.areas]
    exact hl.kinds
  · rw [h.areas]
    intro area harea v hv
    obtain ⟨old, hold, rfl⟩ := List.mem_map.mp harea
    rcases h.area_pages old hold v hv with ⟨htype, hsome⟩ | ⟨_, pte, hpte, _, hchild⟩
    · obtain ⟨pte, hpte⟩ := Option.isSome_iff_exists.mp hsome
      refine ⟨pte, hpte, fun helf => ?_⟩
      cases htype.symm.trans helf
    · obtain ⟨pte', hpte', hu⟩ := hl.area_mapped _ harea v hv
      cases hpte.symm.trans hpte'
      exact ⟨_, hchild, fun helf => by rw [cowed_u, hu helf]⟩
  · exact h.trampolines
  · rw [h.shm, hl.no_shm]
    rfl
  · exact hrecords.sound hl.manager

/-- A page that is not mapped before a fork is not mapped in the child. -/
theorem ForkedInto.child_unmapped (h : ForkedInto ms parent child) (hl : Laid ms) {v : Nat}
    (hv : ms.translate v = none) : child.translate v = none := by
  rw [← Option.not_isSome_iff_eq_none] at hv ⊢
  intro hchild
  rcases h.child_pte v hchild with hsome | ⟨w, hw, heq⟩
  · exact hv hsome
  · refine hv ?_
    rw [MemorySet.translate, PageTable.translate, PageTable.find_pte_congr _ heq]
    exact hl.trampolines w hw

end Fork

end MyGOS.Mm
