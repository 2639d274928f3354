import MyGOS.Mm.LocalSteps

/-!
# Sharing pages copy on write

The loops of `from_copy_on_write`. `Sharing` is their common invariant: which
pages the child has (`done`), which of them are shared with the parent
(`shared`), and what the trackers of the child are.
-/

namespace MyGOS.Mm

open Outcome

/-- What becomes of an entry of the parent, and what the child gets. -/
def PageTableEntry.cowed (pte : PageTableEntry) : PageTableEntry :=
  (pte.set_flags (pte.flags.without PTEFlags.W)).set_cow

theorem PageTableEntry.is_valid_cowed (pte : PageTableEntry) :
    pte.cowed.is_valid = pte.is_valid := by
  simp [cowed, is_valid, set_cow, set_flags, PTEFlags.W]

theorem PageTableEntry.writable_cowed (pte : PageTableEntry) : pte.cowed.writable = false := by
  simp [cowed, writable, set_cow, set_flags, PTEFlags.W]

theorem PageTableEntry.cowed_of_valid {pte : PageTableEntry} (h : pte.is_valid = true) :
    PageTableEntry.set_cow ⟨pte.ppn, pte.flags.without PTEFlags.W ||| PTEFlags.V⟩ = pte.cowed := by
  have hv : pte.flags.v = true := h
  simp [cowed, set_cow, set_flags, PTEFlags.W, PTEFlags.V, PTEFlags.without, hv, HOr.hOr, OrOp.or]

/-- The trackers `A` are at most `B` on the frames of `F`, and one on each other frame. -/
structure Extra (F B A : Multiset Nat) : Prop where
  shared : ∀ p ∈ F, A.count p ≤ B.count p
  fresh : ∀ p, p ∉ F → A.count p ≤ 1

namespace Extra

variable {F B A A' : Multiset Nat} {p : Nat}

theorem calm (h : Extra F B A) (hcalm : Calm (A + F) (A' + F)) : Extra F B A' := by
  constructor
  · intro q hq
    have hle := hcalm q
    have hpos := Multiset.count_pos.mpr hq
    have hq' := h.shared q hq
    rw [Multiset.count_add, Multiset.count_add] at hle
    omega
  · intro q hq
    have hle := hcalm q
    have hq' := h.fresh q hq
    rw [Multiset.count_add, Multiset.count_add, Multiset.count_eq_zero.mpr hq] at hle
    omega

/-- One tracker more for a frame of `F`. -/
theorem cons (h : Extra F B A) (hp : p ∈ F) (hle : A' ≤ p ::ₘ A) : Extra F (p ::ₘ B) A' := by
  constructor
  · intro q hq
    refine (Multiset.count_le_of_le q hle).trans ?_
    rw [Multiset.count_cons, Multiset.count_cons]
    exact Nat.add_le_add_right (h.shared q hq) _
  · intro q hq
    refine (Multiset.count_le_of_le q hle).trans ?_
    rw [Multiset.count_cons_of_ne]
    · exact h.fresh q hq
    · rintro rfl
      exact hq hp

theorem add (h : Extra F B A) {C : Multiset Nat} (hC : ∀ p ∈ C, p ∈ F) :
    Extra F (B + C) (A + C) := by
  constructor
  · intro q hq
    rw [Multiset.count_add, Multiset.count_add]
    exact Nat.add_le_add_right (h.shared q hq) _
  · intro q hq
    rw [Multiset.count_add, Multiset.count_eq_zero.mpr fun hmem => hq (hC q hmem), add_zero]
    exact h.fresh q hq

end Extra

section SharePage

variable {G : Multiset Nat} {s : CowState} {vpn : Nat} {pte : PageTableEntry}

theorem share_page_meets (hpte : s.parent.find_pte vpn = some pte)
    (h : Owned s.ph.allocator (s.child.owned + G)) :
    Meets (s.share_page vpn pte)
      (fun e => e = .outOfMemory ∨ (s.child.find_pte vpn).isSome) fun r =>
      s.child.find_pte vpn = none ∧ r.frame_map = s.frame_map ∧
        r.parent = s.parent.set_entry vpn pte.cowed ∧ PageTable.Grows G s.child s.ph r.child r.ph ∧
        ∀ v, r.child.find_pte v =
          if index v = index vpn then some pte.cowed else s.child.find_pte v := by
  have hvalid := PageTable.is_valid_of_find_pte hpte
  have hvalid' : (pte.set_flags (pte.flags.without PTEFlags.W)).is_valid = true := by
    rw [← hvalid]
    simp [PageTableEntry.is_valid, PageTableEntry.set_flags, PTEFlags.W]
  have hfind := PageTable.find_pte_update hpte hvalid' vpn
  rw [if_pos rfl] at hfind
  simp only [CowState.share_page, PageTable.set_flags, PageTable.set_cow,
    PageTable.update_pte_of_find hpte, PageTable.update_pte_of_find hfind, bind, Except.bind]
  refine (PageTable.map_meets h vpn pte.ppn (pte.flags.without PTEFlags.W)).bind ?_
  rintro ⟨child, ph⟩ ⟨hnone, hgrows, hchild⟩
  have hmapped := hchild vpn
  rw [if_pos rfl] at hmapped
  dsimp only at hmapped ⊢
  rw [PageTable.update_pte_of_find hmapped, PageTableEntry.cowed_of_valid hvalid]
  refine ⟨hnone, rfl, ?_, ⟨hgrows.moves, hgrows.calm, hgrows.le, hgrows.quiet⟩, fun v => ?_⟩
  · simp only [PageTable.set_entry, Function.update_idem]
    rfl
  · rw [PageTable.find_pte_update hmapped (by rw [PageTableEntry.is_valid_cowed, hvalid])]
    split
    · rfl
    · rename_i hne
      rw [hchild v, if_neg hne]

end SharePage

/-- The state of a copy on write: `par` is the parent's table before it, `F` are the trackers of
everybody else (the parent's among them), `R` are the child's, and `B` the frames that got one. -/
structure Sharing (text : KernelImage) (F : Multiset Nat) (par : PageTable) (ph₀ : Phys)
    (done shared : List Nat) (R : Multiset (Nat × Nat)) (B : Multiset Nat) (s : CowState) :
    Prop where
  parent : ∀ v, s.parent.find_pte v =
    if index v ∈ shared then (par.find_pte v).map PageTableEntry.cowed else par.find_pte v
  parent_owned : s.parent.owned = par.owned
  child_shared : ∀ v, index v ∈ shared → ∃ pte, par.find_pte v = some pte ∧
    s.child.find_pte v = some pte.cowed ∧ (index v, pte.ppn) ∈ R
  child_own : ∀ v pte, s.child.find_pte v = some pte → index v ∉ shared →
    pte.is_cow = false ∧ (IsTrampoline text v pte ∨ (index v, pte.ppn) ∈ R ∧ pte.ppn ∉ F)
  child_mapped : ∀ v, (s.child.find_pte v).isSome ↔ index v ∈ done
  subset : ∀ k ∈ shared, k ∈ done
  nodup : done.Nodup
  trampolines : index (floor TRAMPOLINE) ∈ done ∧ index (floor SIGNAL_TRAMPOLINE) ∈ done
  owned : Owned s.ph.allocator (s.child.owned + R.map Prod.snd + F)
  base : s.ph.allocator.base_num = ph₀.allocator.base_num
  extra : Extra F B (s.child.owned + R.map Prod.snd)
  quiet : Quiet F ph₀ s.ph

section Loops

variable {text : KernelImage} {F B B' : Multiset Nat} {par : PageTable} {ph₀ : Phys}
  {done shared : List Nat} {R R' R₀ : Multiset (Nat × Nat)} {s r : CowState} {vpn : Nat}
  {pte pte' : PageTableEntry} {vpns : List Nat}

/-- One page more is shared; its tracker is among `R'`. -/
theorem Sharing.share (h : Sharing text F par ph₀ done shared R B s)
    (hpte : par.find_pte vpn = some pte) (hnew : index vpn ∉ done)
    (hparent : r.parent = s.parent.set_entry vpn pte.cowed)
    (hchild : ∀ v, r.child.find_pte v =
      if index v = index vpn then some pte.cowed else s.child.find_pte v)
    (hslot : (index vpn, pte.ppn) ∈ R') (hkeep : ∀ e ∈ R, e.1 ≠ index vpn → e ∈ R')
    (howned : Owned r.ph.allocator (r.child.owned + R'.map Prod.snd + F))
    (hbase : r.ph.allocator.base_num = s.ph.allocator.base_num)
    (hextra : Extra F B' (r.child.owned + R'.map Prod.snd)) (hquiet : Quiet F s.ph r.ph) :
    Sharing text F par ph₀ (done ++ [index vpn]) (shared ++ [index vpn]) R' B' r where
  parent v := by
    have hfind : s.parent.find_pte vpn = some pte := by
      rw [h.parent, if_neg fun hmem => hnew (h.subset _ hmem)]
      exact hpte
    have hvalid : pte.cowed.is_valid = true := by
      rw [PageTableEntry.is_valid_cowed]
      exact PageTable.is_valid_of_find_pte hpte
    rw [hparent, PageTable.find_pte_update hfind hvalid]
    split
    · rename_i heq
      rw [if_pos (by simp [heq]), PageTable.find_pte_congr par heq, hpte]
      rfl
    · rename_i hne
      simp only [h.parent v, List.mem_append, List.mem_singleton, hne, or_false]
  parent_owned := by
    rw [hparent]
    exact h.parent_owned
  child_shared v hv := by
    rw [hchild v]
    split
    · rename_i heq
      refine ⟨pte, ?_, rfl, ?_⟩
      · rw [PageTable.find_pte_congr par heq]
        exact hpte
      · rwa [heq]
    · rename_i hne
      rw [List.mem_append, List.mem_singleton] at hv
      obtain ⟨pte', hpte', hfind, hmem⟩ := h.child_shared v (hv.resolve_right hne)
      exact ⟨pte', hpte', hfind, hkeep _ hmem hne⟩
  child_own v pte' hv hnot := by
    rw [List.mem_append, List.mem_singleton, not_or] at hnot
    rw [hchild v, if_neg hnot.2] at hv
    obtain ⟨hcow, hown⟩ := h.child_own v pte' hv hnot.1
    exact ⟨hcow, hown.imp_right fun ⟨hmem, hfresh⟩ => ⟨hkeep _ hmem hnot.2, hfresh⟩⟩
  child_mapped v := by
    rw [hchild v, List.mem_append, List.mem_singleton]
    split
    · rename_i heq
      simp [heq]
    · rename_i hne
      simp [h.child_mapped v, hne]
  subset k hk := by
    rw [List.mem_append] at hk ⊢
    exact hk.imp_left (h.subset k)
  nodup := by
    rw [List.nodup_append]
    refine ⟨h.nodup, List.nodup_singleton _, ?_⟩
    rintro k hk k' hk' rfl
    exact hnew (List.mem_singleton.mp hk' ▸ hk)
  trampolines := ⟨List.mem_append_left _ h.trampolines.1, List.mem_append_left _ h.trampolines.2⟩
  owned := howned
  base := hbase.trans h.base
  extra := hextra
  quiet := h.quiet.trans hquiet h.base

/-- A page of the parent that may be shared is no trampoline. -/
theorem Sharing.mem_of_new (h : Sharing text F par ph₀ done shared R B s)
    (hpar : ∀ v pte, par.find_pte v = some pte → IsTrampoline text v pte ∨ pte.ppn ∈ F)
    (hpte : par.find_pte vpn = some pte) (hnew : index vpn ∉ done) : pte.ppn ∈ F := by
  rcases hpar vpn pte hpte with (⟨hv, _⟩ | ⟨hv, _⟩) | hmem
  · exact absurd (hv ▸ h.trampolines.1) hnew
  · exact absurd (hv ▸ h.trampolines.2) hnew
  · exact hmem

/-- `share_page` in a state of the loops. -/
theorem Sharing.share_page (h : Sharing text F par ph₀ done shared R B s)
    (hpte : par.find_pte vpn = some pte) (hfind : s.parent.find_pte vpn = some pte') :
    Meets (s.share_page vpn pte') (fun e => e = .outOfMemory ∨ index vpn ∈ done) fun r =>
      index vpn ∉ done ∧ pte' = pte ∧ r.frame_map = s.frame_map ∧
        r.parent = s.parent.set_entry vpn pte.cowed ∧
        PageTable.Grows (R.map Prod.snd + F) s.child s.ph r.child r.ph ∧
        ∀ v, r.child.find_pte v =
          if index v = index vpn then some pte.cowed else s.child.find_pte v := by
  have howned := h.owned
  rw [add_assoc] at howned
  refine ((share_page_meets hfind howned).mono_error ?_).mono ?_
  · exact fun e he => he.imp_right (h.child_mapped vpn).mp
  · rintro r ⟨hnone, hmap, hparent, hgrows, hchild⟩
    have hnew : index vpn ∉ done := by
      rw [← h.child_mapped vpn, hnone]
      simp
    have heq : pte' = pte := by
      rw [h.parent, if_neg fun hmem => hnew (h.subset _ hmem)] at hfind
      exact Option.some.inj (hfind.symm.trans hpte)
    subst heq
    exact ⟨hnew, rfl, hmap, hparent, hgrows, hchild⟩

theorem Sharing.extra_grows (h : Sharing text F par ph₀ done shared R B s)
    (hgrows : PageTable.Grows (R.map Prod.snd + F) s.child s.ph r.child r.ph) :
    Extra F B (r.child.owned + R.map Prod.snd) := by
  have hcalm := hgrows.calm
  rw [← add_assoc, ← add_assoc] at hcalm
  exact h.extra.calm hcalm

theorem quiet_grows (hgrows : PageTable.Grows (R.map Prod.snd + F) s.child s.ph r.child r.ph) :
    Quiet F s.ph r.ph :=
  hgrows.quiet.mono fun q hq => by
    simp only [Multiset.mem_add]
    exact Or.inr (Or.inr hq)

theorem Sharing.track_page (h : Sharing text F par ph₀ done shared (R₀ + s.frame_map.slots) B s)
    (hpar : ∀ v pte, par.find_pte v = some pte → IsTrampoline text v pte ∨ pte.ppn ∈ F)
    (hpte : par.find_pte vpn = some pte) (hfind : s.parent.find_pte vpn = some pte')
    (hcount : F.count pte.ppn + B.count pte.ppn < 255) :
    Meets (s.track_page vpn pte') (fun e => e = .outOfMemory ∨ index vpn ∈ done) fun r =>
      Sharing text F par ph₀ (done ++ [index vpn]) (shared ++ [index vpn])
        (R₀ + r.frame_map.slots) (pte.ppn ::ₘ B) r := by
  unfold CowState.track_page
  refine (h.share_page hpte hfind).bind ?_
  rintro s₁ ⟨hnew, rfl, hmap, hparent, hgrows, hchild⟩
  have hmem := h.mem_of_new hpar hpte hnew
  have hextra := h.extra_grows hgrows
  have howned := hgrows.moves.owned
  rw [← add_assoc] at howned
  have hlt : (s₁.child.owned + (R₀ + s.frame_map.slots).map Prod.snd + F).count pte'.ppn < 255 := by
    have := hextra.shared _ hmem
    rw [Multiset.count_add]
    omega
  refine ((Phys.from_ppn_meets howned hlt).mono_error fun e he => ?_).bind ?_
  · exact absurd (Multiset.mem_add.mpr (Or.inr hmem)) he
  · rintro ⟨frame, ph₂⟩ ⟨rfl, _, hbase, howned₂, hbytes⟩
    dsimp only at hbase howned₂ hbytes ⊢
    have howned₃ : Owned ph₂.allocator (pte'.ppn ::ₘ (s₁.frame_map.owned +
        (s₁.child.owned + R₀.map Prod.snd + F))) := by
      rw [hmap]
      convert howned₂ using 2
      rw [Multiset.map_add, FrameMap.owned]
      ac_rfl
    obtain ⟨m', ph₃, hinsert, hmoves, hput, hbytes₃⟩ :=
      @FrameMap.insert_frame_spec _ _ ⟨pte'.ppn⟩ _ howned₃ vpn
    rw [hinsert]
    have hput' := hput.add R₀
    rw [hmap, add_comm, add_comm m'.slots] at hput'
    have hle : s₁.child.owned + (R₀ + m'.slots).map Prod.snd ≤
        pte'.ppn ::ₘ (s₁.child.owned + (R₀ + s.frame_map.slots).map Prod.snd) := by
      rw [← Multiset.add_cons]
      exact add_le_add_right hput'.owned_le _
    refine h.share (r := ⟨s₁.parent, s₁.child, ph₃, m'⟩) hpte hnew hparent hchild hput'.mem
      (fun e he hne => (hput'.mem_iff hne).mpr he) ?_ ?_ (hextra.cons hmem hle) ?_
    · convert hmoves.owned using 1
      rw [Multiset.map_add, FrameMap.owned]
      ac_rfl
    · exact hmoves.base.trans (hbase.trans hgrows.moves.base)
    · intro q hq
      rw [hbytes₃, hbytes]
      exact quiet_grows hgrows q hq

/-- The pages of a list that are mapped. -/
def mapped_vpns (pt : PageTable) (vpns : List Nat) : List Nat :=
  vpns.filter fun vpn => (pt.find_pte vpn).isSome

def mapped_keys (pt : PageTable) (vpns : List Nat) : List Nat := (mapped_vpns pt vpns).map index

/-- The frames of the pages of a list. -/
def mapped_ppns (pt : PageTable) (vpns : List Nat) : Multiset Nat :=
  ↑(vpns.filterMap fun vpn => (pt.find_pte vpn).map PageTableEntry.ppn)

theorem mapped_keys_cons_none (h : par.find_pte vpn = none) :
    mapped_keys par (vpn :: vpns) = mapped_keys par vpns := by
  simp [mapped_keys, mapped_vpns, h]

theorem mapped_keys_cons_some (h : par.find_pte vpn = some pte) :
    mapped_keys par (vpn :: vpns) = index vpn :: mapped_keys par vpns := by
  simp [mapped_keys, mapped_vpns, h]

theorem mapped_ppns_cons_none (h : par.find_pte vpn = none) :
    mapped_ppns par (vpn :: vpns) = mapped_ppns par vpns := by
  simp [mapped_ppns, h]

theorem mapped_ppns_cons_some (h : par.find_pte vpn = some pte) :
    mapped_ppns par (vpn :: vpns) = pte.ppn ::ₘ mapped_ppns par vpns := by
  simp [mapped_ppns, h]

/-- The index of a page that the child has already. -/
theorem not_nodup_of_mem {k : Nat} {ks : List Nat} (h : k ∈ done) : ¬ (done ++ k :: ks).Nodup := by
  intro hnodup
  exact (List.nodup_append.mp hnodup).2.2 k h k List.mem_cons_self rfl

theorem Sharing.find_parent (h : Sharing text F par ph₀ done shared R B s) (v : Nat) :
    (s.parent.find_pte v).isSome = (par.find_pte v).isSome := by
  rw [h.parent v]
  split
  · exact Option.isSome_map
  · rfl

/-- The loops of the areas, the stack and the heap: `f` is `track_mapped` or `track_lazy`. -/
theorem Sharing.track_loop {f : CowState → Nat → Except Panic CowState}
    (hsome : ∀ s vpn pte, s.parent.find_pte vpn = some pte → f s vpn = s.track_page vpn pte)
    (hnone : ∀ s, ∀ vpn ∈ vpns, par.find_pte vpn = none → s.parent.find_pte vpn = none →
      f s vpn = .ok s)
    (hpar : ∀ v pte, par.find_pte v = some pte → IsTrampoline text v pte ∨ pte.ppn ∈ F)
    (h : Sharing text F par ph₀ done shared (R₀ + s.frame_map.slots) B s)
    (hcount : ∀ p, F.count p + (B + mapped_ppns par vpns).count p ≤ 255) :
    Meets (vpns.foldlM f s)
      (fun e => e = .outOfMemory ∨ ¬ (done ++ mapped_keys par vpns).Nodup) fun r =>
      Sharing text F par ph₀ (done ++ mapped_keys par vpns) (shared ++ mapped_keys par vpns)
        (R₀ + r.frame_map.slots) (B + mapped_ppns par vpns) r := by
  induction vpns generalizing s done shared B with
  | nil => simpa [mapped_keys, mapped_vpns, mapped_ppns] using h
  | cons vpn vpns ih =>
    have hisSome := h.find_parent vpn
    rw [List.foldlM_cons]
    cases hpte : par.find_pte vpn with
    | none =>
      rw [hpte] at hisSome
      rw [mapped_keys_cons_none hpte, mapped_ppns_cons_none hpte]
      rw [mapped_ppns_cons_none hpte] at hcount
      rw [hnone s vpn List.mem_cons_self hpte (by simpa using hisSome)]
      exact ih (fun s v hv => hnone s v (List.mem_cons_of_mem _ hv)) h hcount
    | some pte =>
      rw [hpte] at hisSome
      obtain ⟨pte', hpte'⟩ := Option.isSome_iff_exists.mp hisSome
      rw [mapped_keys_cons_some hpte, mapped_ppns_cons_some hpte]
      rw [mapped_ppns_cons_some hpte] at hcount
      have hlt : F.count pte.ppn + B.count pte.ppn < 255 := by
        have := hcount pte.ppn
        rw [Multiset.count_add, Multiset.count_cons_self] at this
        omega
      rw [hsome s vpn pte' hpte']
      refine ((h.track_page hpar hpte hpte' hlt).mono_error ?_).bind fun r hr => ?_
      · exact fun e he => he.imp_right not_nodup_of_mem
      · rw [Multiset.add_cons, ← Multiset.cons_add] at hcount ⊢
        rw [List.append_cons, List.append_cons shared]
        exact ih (fun s v hv => hnone s v (List.mem_cons_of_mem _ hv)) hr hcount

/-- The pages of the mappings that were touched. -/
def valid_vpns (entries : List (Nat × MmapPage)) : List Nat :=
  (entries.filter fun e => e.2.valid).map Prod.fst

/-- The loop over the pages of the mappings, whose trackers the child has already. -/
theorem Sharing.mmap_loop (entries : List (Nat × MmapPage))
    (h : Sharing text F par ph₀ done shared R B s)
    (hslots : ∀ e ∈ entries, e.2.valid = true → ∀ pte, par.find_pte e.1 = some pte →
      (index e.1, pte.ppn) ∈ R) :
    Meets (entries.foldlM CowState.share_mmap s)
      (fun e => e = .outOfMemory ∨ ¬ (done ++ mapped_keys par (valid_vpns entries)).Nodup) fun r =>
      Sharing text F par ph₀ (done ++ mapped_keys par (valid_vpns entries))
        (shared ++ mapped_keys par (valid_vpns entries)) R B r := by
  induction entries generalizing s done shared with
  | nil => simpa [mapped_keys, mapped_vpns, valid_vpns] using h
  | cons e entries ih =>
    have hslots' : ∀ e ∈ entries, e.2.valid = true → ∀ pte, par.find_pte e.1 = some pte →
        (index e.1, pte.ppn) ∈ R := fun e he => hslots e (List.mem_cons_of_mem _ he)
    have hisSome := h.find_parent e.1
    rw [List.foldlM_cons]
    cases hvalid : e.2.valid with
    | false =>
      have hkeys : valid_vpns (e :: entries) = valid_vpns entries := by simp [valid_vpns, hvalid]
      simp only [CowState.share_mmap, hvalid, hkeys]
      exact ih h hslots'
    | true =>
      have hkeys : valid_vpns (e :: entries) = e.1 :: valid_vpns entries := by
        simp [valid_vpns, hvalid]
      rw [hkeys]
      cases hpte : par.find_pte e.1 with
      | none =>
        rw [hpte] at hisSome
        have hparent : s.parent.translate e.1 = none :=
          Option.isNone_iff_eq_none.mp (Option.isSome_eq_false_iff.mp hisSome)
        rw [mapped_keys_cons_none hpte]
        simp only [CowState.share_mmap, hvalid, hparent]
        exact ih h hslots'
      | some pte =>
        rw [hpte] at hisSome
        obtain ⟨pte', hpte'⟩ := Option.isSome_iff_exists.mp hisSome
        have hparent : s.parent.translate e.1 = some pte' := hpte'
        rw [mapped_keys_cons_some hpte]
        simp only [CowState.share_mmap, hvalid, hparent, if_true]
        refine ((h.share_page hpte hpte').mono_error ?_).bind ?_
        · exact fun e he => he.imp_right not_nodup_of_mem
        · rintro r ⟨hnew, rfl, _, hparent', hgrows, hchild⟩
          rw [List.append_cons, List.append_cons shared]
          refine ih (h.share hpte hnew hparent' hchild
            (hslots e List.mem_cons_self hvalid _ hpte) (fun _ he _ => he) ?_
            hgrows.moves.base (h.extra_grows hgrows) (quiet_grows hgrows)) hslots'
          have howned := hgrows.moves.owned
          rwa [← add_assoc] at howned

/-- The trap context of the child gets frames of its own. -/
theorem Sharing.inflate {area : VmArea} (h : Sharing text F par ph₀ done shared R B s)
    (hmap : area.map_type = .Framed) (hempty : area.frame_map = ∅) :
    Meets (area.inflate_pagetable s.child s.ph) (fun e => e = .outOfMemory ∨
        ¬ (done ++ area.vpn_range.vpns.map index).Nodup) fun r =>
      r.1.from_another = area.from_another ∧
        Sharing text F par ph₀ (done ++ area.vpn_range.vpns.map index) shared
          (R + r.1.frame_map.slots) B { s with child := r.2.1, ph := r.2.2 } ∧
        ∀ v ∈ area.vpn_range.vpns, ∃ dst, r.2.1.find_pte v = some dst ∧ dst.ppn ∉ F ∧
          ph₀.allocator.base_num ≤ dst.ppn := by
  have howned : Owned s.ph.allocator
      (s.child.owned + area.frame_map.owned + (R.map Prod.snd + F)) := by
    rw [hempty, FrameMap.owned, FrameMap.slots_empty, Multiset.map_zero, add_zero, ← add_assoc]
    exact h.owned
  refine ((VmArea.inflate_pagetable_meets howned hmap hempty).mono_error ?_).mono ?_
  · intro e he
    refine he.imp_right fun hnot hnodup => hnot ?_
    rw [List.nodup_append] at hnodup
    refine ⟨hnodup.2.1, fun vpn hvpn => ?_⟩
    rw [← Option.not_isSome_iff_eq_none, h.child_mapped vpn]
    exact fun hmem => hnodup.2.2 _ hmem _ (List.mem_map_of_mem hvpn) rfl
  · rintro ⟨area', child, ph⟩ hi
    have hdisjoint : ∀ k ∈ area.vpn_range.vpns.map index, k ∉ done := by
      intro k hk hmem
      obtain ⟨vpn, hvpn, rfl⟩ := List.mem_map.mp hk
      have hsome := (h.child_mapped vpn).mpr hmem
      rw [hi.unmapped vpn hvpn] at hsome
      cases hsome
    have hF : ∀ p, p ∉ s.child.owned + area.frame_map.owned + (R.map Prod.snd + F) → p ∉ F := by
      intro p hp hmem
      simp only [Multiset.mem_add] at hp
      exact hp (Or.inr (Or.inr hmem))
    have hchildOwned : child.owned + (R + area'.frame_map.slots).map Prod.snd + F =
        child.owned + area'.frame_map.owned + (R.map Prod.snd + F) := by
      rw [Multiset.map_add, FrameMap.owned]
      ac_rfl
    have hcalm := hi.calm
    rw [hempty, FrameMap.owned, FrameMap.slots_empty, Multiset.map_zero, add_zero, ← add_assoc,
      ← hchildOwned] at hcalm
    refine ⟨by rw [hi.same]; rfl, ⟨h.parent, h.parent_owned, fun v hv => ?_, fun v pte hv hnot => ?_,
      fun v => ?_, fun k hk => List.mem_append_left _ (h.subset k hk), ?_,
      ⟨List.mem_append_left _ h.trampolines.1, List.mem_append_left _ h.trampolines.2⟩, ?_,
      hi.moves.base.trans h.base, h.extra.calm hcalm, ?_⟩, fun v hv => ?_⟩
    · obtain ⟨pte, hpte, hfind, hslot⟩ := h.child_shared v hv
      refine ⟨pte, hpte, ?_, Multiset.mem_add.mpr (Or.inl hslot)⟩
      dsimp only
      rw [hi.old v fun hmem => hdisjoint _ hmem (h.subset _ hv)]
      exact hfind
    · dsimp only at hv
      rcases Decidable.em (index v ∈ area.vpn_range.vpns.map index) with hin | hin
      · obtain ⟨p, hfresh, hslot, hp⟩ := hi.new v hin
        cases hp.symm.trans hv
        exact ⟨rfl, Or.inr ⟨Multiset.mem_add.mpr (Or.inr hslot), hF p hfresh⟩⟩
      · rw [hi.old v hin] at hv
        obtain ⟨hcow, hown⟩ := h.child_own v pte hv hnot
        exact ⟨hcow, hown.imp_right fun hown =>
          ⟨Multiset.mem_add.mpr (Or.inl hown.1), hown.2⟩⟩
    · rw [List.mem_append]
      rcases Decidable.em (index v ∈ area.vpn_range.vpns.map index) with hin | hin
      · obtain ⟨p, _, _, hp⟩ := hi.new v hin
        dsimp only
        rw [hp]
        simp [hin]
      · dsimp only
        rw [hi.old v hin, h.child_mapped v]
        simp [hin]
    · rw [List.nodup_append]
      exact ⟨h.nodup, hi.nodup, fun k hk k' hk' heq => hdisjoint k' hk' (heq ▸ hk)⟩
    · rw [hchildOwned]
      exact hi.moves.owned
    · refine h.quiet.trans (hi.quiet.mono fun q hq => ?_) h.base
      simp only [Multiset.mem_add]
      exact Or.inr (Or.inr hq)
    · obtain ⟨p, hfresh, hslot, hp⟩ := hi.new v (List.mem_map_of_mem hv)
      refine ⟨_, hp, hF p hfresh, ?_⟩
      rw [← h.base, ← hi.moves.base]
      refine hi.moves.owned.base_le ?_
      simp only [Multiset.mem_add, FrameMap.owned]
      exact Or.inl (Or.inr (Multiset.mem_map_of_mem Prod.snd hslot))

/-- Its bytes are copied to them. -/
theorem Sharing.copy_loop (h : Sharing text F par ph₀ done shared R B s)
    (hmapped : ∀ v ∈ vpns, (par.find_pte v).isSome)
    (hdst : ∀ v ∈ vpns, ∃ dst, s.child.find_pte v = some dst ∧ dst.ppn ∉ F ∧
      ph₀.allocator.base_num ≤ dst.ppn) :
    Meets (vpns.foldlM CowState.copy_page s) (fun _ => False) fun r =>
      Sharing text F par ph₀ done shared R B r := by
  induction vpns generalizing s with
  | nil => exact h
  | cons v vpns ih =>
    obtain ⟨src, hsrc⟩ : ∃ src, s.parent.translate v = some src := by
      rw [← Option.isSome_iff_exists]
      exact (h.find_parent v).trans (hmapped v List.mem_cons_self)
    obtain ⟨dst, hdst', hF, hbase⟩ := hdst v List.mem_cons_self
    have hchild : s.child.translate v = some dst := hdst'
    rw [List.foldlM_cons]
    simp only [CowState.copy_page, hsrc, hchild]
    refine ih ?_ (fun v hv => hmapped v (List.mem_cons_of_mem _ hv))
      fun v hv => hdst v (List.mem_cons_of_mem _ hv)
    exact ⟨h.parent, h.parent_owned, h.child_shared, h.child_own, h.child_mapped, h.subset, h.nodup,
      h.trampolines, h.owned, h.base, h.extra,
      h.quiet.trans (Quiet.of_update hF (h.base ▸ hbase)
        fun q hq => Function.update_of_ne hq _ _) h.base⟩

end Loops

end MyGOS.Mm
