import MyGOS.Mm.CowFault

/-!
# Steps of one address space

Each operation on one address space keeps its pages tracked, and, where its
guard holds, gives the W bit to no page with a shared frame.
-/

namespace MyGOS.Mm

open Outcome

namespace MemorySet

/-- The index belongs to a page that a fork shares. -/
def Shareable (ms : MemorySet) (k : Nat) : Prop :=
  ms.InArea (· ≠ .TrapContext) k ∨ ms.InLazy k ∨ ms.MmapValid k

/-- Pages marked COW, and pages with their frame at the mmap manager, are shared by a fork. -/
structure Shares (ms : MemorySet) : Prop where
  cow : ∀ vpn pte, ms.translate vpn = some pte → pte.is_cow = true → ms.Shareable (index vpn)
  mmap : ∀ vpn pte, ms.translate vpn = some pte → (index vpn, pte.ppn) ∈ ms.mmap_slots →
    ms.Shareable (index vpn)

/-- No page of the range maps a frame of the mmap manager. -/
def Untouched (ms : MemorySet) (range : VPNRange) : Prop :=
  ∀ vpn ∈ range.vpns, ∀ pte ∈ ms.translate vpn, (index vpn, pte.ppn) ∉ ms.mmap_slots

instance (ms : MemorySet) (range : VPNRange) : Decidable (ms.Untouched range) :=
  inferInstanceAs (Decidable (∀ vpn ∈ range.vpns, ∀ pte ∈ ms.translate vpn, _))

end MemorySet

/-- An operation after which a page with the W bit is one that had it, or has its frame for
itself. -/
structure CowKept (E : Multiset Nat) (ms ms' : MemorySet) : Prop where
  writes : ∀ v pte, ms'.translate v = some pte → pte.writable = true →
    (∃ v₀ pte₀, ms.translate v₀ = some pte₀ ∧ pte₀.writable = true ∧ pte₀.ppn = pte.ppn) ∨
      (ms'.owned + E).count pte.ppn ≤ 1
  shares : ms.Shares → ms'.Shares

section

variable {text : KernelImage} {E : Multiset Nat} {ms ms' ms'' : MemorySet} {ph ph' ph'' : Phys}
  {vpn p : Nat} {flags : PTEFlags} {pte : PageTableEntry} {m' : MmapManager}

theorem CowKept.refl (ms : MemorySet) : CowKept E ms ms :=
  ⟨fun v pte hv hw => Or.inl ⟨v, pte, hv, hw, rfl⟩, id⟩

theorem CowKept.trans (h : CowKept E ms ms') (h' : CowKept E ms' ms'')
    (hcalm : Calm (ms'.owned + E) (ms''.owned + E)) : CowKept E ms ms'' where
  writes v pte hv hw := by
    rcases h'.writes v pte hv hw with ⟨v', pte', hv', hw', heq⟩ | hone
    · rcases h.writes v' pte' hv' hw' with ⟨v₀, pte₀, hv₀, hw₀, heq₀⟩ | hone
      · exact Or.inl ⟨v₀, pte₀, hv₀, hw₀, heq₀.trans heq⟩
      · rw [heq] at hone
        have := hcalm pte.ppn
        exact Or.inr (by omega)
    · exact Or.inr hone
  shares hs := h'.shares (h.shares hs)

theorem Faulted.localStep (hf : Faulted E ms ph vpn p flags ms' ph') (hT : Tracked text ms') :
    LocalStep text E ms ph ms' ph' :=
  ⟨hT, hf.moves, hf.calm⟩

theorem Faulted.shareable (hf : Faulted E ms ph vpn p flags ms' ph') {k : Nat}
    (hk : k ≠ index vpn) (h : ms.Shareable k) : ms'.Shareable k := by
  unfold MemorySet.Shareable
  rwa [hf.regions.inArea, hf.regions.inLazy, hf.valid k hk]

/-- A fault whose own page is shareable if it is COW or the mmap manager's. -/
theorem Faulted.cowKept (hf : Faulted E ms ph vpn p flags ms' ph')
    (hown : ms.Shares → flags.cow = true ∨ (index vpn, p) ∈ ms'.mmap_slots →
      ms'.Shareable (index vpn)) : CowKept E ms ms' where
  writes v pte hv hw := by
    rw [hf.translate v] at hv
    split at hv
    · cases hv
      exact Or.inr hf.count_le
    · exact Or.inl ⟨v, pte, hv, hw, rfl⟩
  shares hs := by
    constructor
    · intro v pte hv hcow
      rw [hf.translate v] at hv
      split at hv
      · rename_i heq
        cases hv
        rw [heq]
        exact hown hs (Or.inl hcow)
      · rename_i hne
        exact hf.shareable hne (hs.cow v pte hv hcow)
    · intro v pte hv hslot
      rw [hf.translate v] at hv
      split at hv
      · rename_i heq
        cases hv
        rw [heq] at hslot ⊢
        exact hown hs (Or.inr hslot)
      · rename_i hne
        exact hf.shareable hne (hs.mmap v pte hv ((hf.mmap (index v, pte.ppn) hne).mp hslot))

/-- Changed flags of a page: a W bit needs a frame without sharers. -/
theorem CowKept.reflag (hpte : ms.translate vpn = some pte) (hv : flags.v = true)
    (hcow : flags.cow = true → pte.is_cow = true)
    (hone : flags.w = true → (ms.owned + E).count pte.ppn ≤ 1) :
    CowKept E ms (ms.reflag vpn pte flags) where
  writes v pte' hv' hw := by
    rw [MemorySet.translate_reflag hpte hv] at hv'
    split at hv'
    · cases hv'
      exact Or.inr (hone hw)
    · exact Or.inl ⟨v, pte', hv', hw, rfl⟩
  shares hs := by
    constructor
    · intro v pte' hv' hcow'
      rw [MemorySet.translate_reflag hpte hv] at hv'
      split at hv'
      · rename_i heq
        cases hv'
        rw [heq]
        exact hs.cow vpn pte hpte (hcow hcow')
      · exact hs.cow v pte' hv' hcow'
    · intro v pte' hv' hslot
      rw [MemorySet.translate_reflag hpte hv] at hv'
      split at hv'
      · rename_i heq
        cases hv'
        rw [heq] at hslot ⊢
        exact hs.mmap vpn pte hpte hslot
      · exact hs.mmap v pte' hv' hslot

theorem Tracked.localStep_reflag (hT : Tracked text ms) (h : Owned ph.allocator (ms.owned + E))
    (hpte : ms.translate vpn = some pte) (hv : flags.v = true)
    (hcow : flags.cow = true → pte.is_cow = true) :
    LocalStep text E ms ph (ms.reflag vpn pte flags) ph :=
  ⟨hT.reflag hpte hv hcow, Moves.refl h, Calm.refl _⟩

theorem restored_v (hpte : ms.translate vpn = some pte) : pte.flags.restored.v = true := by
  have hv : pte.flags.v = true := PageTable.is_valid_of_find_pte hpte
  rw [PTEFlags.restored, PTEFlags.or_v]
  exact Bool.or_eq_true_iff.mpr (Or.inl hv)

/-- A fault is such a step. -/
theorem Served.steps (hT : Tracked text ms) (h : Owned ph.allocator (ms.owned + E))
    (hs : Served text E ms ph vpn ms' ph') (hT' : Tracked text ms') :
    LocalStep text E ms ph ms' ph' ∧ CowKept E ms ms' := by
  cases hs with
  | refused => exact ⟨LocalStep.refl hT h, CowKept.refl ms⟩
  | alone pte hpte hcow hone =>
    exact ⟨hT.localStep_reflag h hpte (restored_v hpte) fun _ => hcow,
      CowKept.reflag hpte (restored_v hpte) (fun _ => hcow) fun _ => hone.le⟩
  | copied pte p _ _ hpte hcow hcopied =>
    refine ⟨hcopied.faulted.localStep hT', hcopied.faulted.cowKept fun hshares _ => ?_⟩
    have hshare := hshares.cow vpn pte hpte hcow
    unfold MemorySet.Shareable MemorySet.MmapValid at hshare ⊢
    rwa [hcopied.faulted.regions.inArea, hcopied.faulted.regions.inLazy, hcopied.mappings.map]
  | touched p flags _ _ ht =>
    refine ⟨ht.localStep hT', ht.cowKept fun _ hown => ?_⟩
    rcases hown with hcow | hslot
    · rw [ht.not_cow] at hcow
      cases hcow
    · exact Or.inr (Or.inr (ht.slot hslot))

end

end MyGOS.Mm
