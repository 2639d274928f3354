import MyGOS.Mm.MmapUse

/-!
# Write protection and forks

A fork takes the W bit from every page and marks it COW, whether it had the W
bit or not; a fault on a COW page gives it the W bit. So a page that was mapped
without it loses its protection with the first fork, in the parent as in the
child, and no later fork or fault brings it back.
-/

namespace MyGOS.Mm

open Outcome StepSystem

namespace MemorySet

/-- A page of the program or of its interpreter. -/
def FromElf (ms : MemorySet) (v : Nat) : Prop :=
  ∃ area ∈ ms.map_areas, area.area_type = .Elf ∧ v ∈ area.vpn_range

instance (ms : MemorySet) (v : Nat) : Decidable (ms.FromElf v) :=
  inferInstanceAs (Decidable (∃ area ∈ ms.map_areas, area.area_type = .Elf ∧ v ∈ area.vpn_range))

/-- A page of the program, or a touched page of a mapping. -/
def Held (ms : MemorySet) (v : Nat) : Prop := ms.FromElf v ∨ ms.mmap_manager.Valid v

/-- Such a page that is mapped without write permission. -/
def ReadOnly (ms : MemorySet) (v : Nat) : Prop :=
  ms.Held v ∧ ∃ pte ∈ ms.translate v, pte.writable = false ∧ pte.is_cow = false

/-- A store to the address is refused: the fault is turned down, and the page has no W bit. -/
def Protected (ms : MemorySet) (ph : Phys) (va : Nat) : Prop :=
  (∃ c ms' ph', c ≠ 0 ∧ ms.check_lazy ph va = .ok (c, ms', ph')) ∧
    ∀ pte ∈ ms.translate (floor va), pte.writable = false

/-- The page can be written to, if not at once then after a fault. -/
def Exposed (ms : MemorySet) (v : Nat) : Prop :=
  ∃ pte, ms.translate v = some pte ∧ (pte.is_cow = true ∨ pte.writable = true)

section Pages

variable {ms ms' parent child : MemorySet} {ph ph' : Phys} {v va : Nat} {c : Int}

theorem fromElf_congr (h : ms'.map_areas.map VmArea.from_another =
    ms.map_areas.map VmArea.from_another) (hv : ms.FromElf v) : ms'.FromElf v := by
  obtain ⟨area, harea, htype, hrange⟩ := hv
  have hmem := List.mem_map_of_mem (f := VmArea.from_another) harea
  rw [← h] at hmem
  obtain ⟨area', harea', hsame⟩ := List.mem_map.mp hmem
  have htype' : area'.area_type = area.area_type := (congrArg VmArea.area_type hsame :)
  have hrange' : area'.vpn_range = area.vpn_range := (congrArg VmArea.vpn_range hsame :)
  exact ⟨area', harea', htype'.trans htype, hrange' ▸ hrange⟩

theorem Exposed.isSome (h : ms.Exposed v) : (ms.translate v).isSome := by
  obtain ⟨pte, hpte, _⟩ := h
  rw [hpte]
  rfl

/-- A fault on an exposed page is served; it is not turned down unless the page has the W bit. -/
theorem Exposed.not_protected (h : ms.Exposed (floor va)) : ¬ ms.Protected ph va := by
  rintro ⟨⟨c, ms', ph', hc, hlazy⟩, hprotected⟩
  obtain ⟨pte, hpte, hcow | hw⟩ := h
  · unfold check_lazy at hlazy
    simp only [hpte, hcow, if_true] at hlazy
    obtain ⟨s, _, hzero⟩ := map_eq_ok.mp hlazy
    exact hc (congrArg Prod.fst hzero).symm
  · cases hw.symm.trans (hprotected pte hpte)

/-- After a fault that the kernel survives an exposed page has the W bit. -/
theorem Exposed.writable (h : ms.Exposed (floor va))
    (hlazy : ms.check_lazy ph va = .ok (c, ms', ph')) :
    ∃ pte ∈ ms'.translate (floor va), pte.writable = true := by
  obtain ⟨pte, hpte, hopen⟩ := h
  obtain ⟨_, ⟨hc, rfl, _⟩ | ⟨_, pte', hpt, hw⟩⟩ := check_lazy_ok hlazy
  · have hexposed : ms'.Exposed (floor va) := ⟨pte, hpte, hopen⟩
    refine ⟨pte, hpte, by_contra fun hw => ?_⟩
    refine hexposed.not_protected ⟨⟨c, _, _, hc, hlazy⟩, fun pte' hpte' => ?_⟩
    cases hpte.symm.trans hpte'
    exact Bool.eq_false_iff.mpr hw
  · exact ⟨pte', hpt.self, hw (by rw [hpte]; rfl)⟩

theorem Exposed.check_lazy (h : ms.Exposed v) (hlazy : ms.check_lazy ph va = .ok (c, ms', ph')) :
    ms'.Exposed v := by
  obtain ⟨pte, hpte, hopen⟩ := h
  obtain ⟨_, ⟨_, rfl, _⟩ | ⟨_, pte', hpt, hw⟩⟩ := check_lazy_ok hlazy
  · exact ⟨pte, hpte, hopen⟩
  · have hv := hpt v
    split at hv
    · rename_i heq
      refine ⟨pte', hv, Or.inr (hw ?_)⟩
      rw [translate, PageTable.translate, ← PageTable.find_pte_congr _ heq,
        show ms.page_table.find_pte v = some pte from hpte]
      rfl
    · exact ⟨pte, hv.trans hpte, hopen⟩

theorem Held.check_lazy (h : ms.Held v) (hm : ms.mmap_manager.Sound)
    (hlazy : ms.check_lazy ph va = .ok (c, ms', ph')) : ms'.Held v :=
  h.imp (fromElf_congr (check_lazy_ok hlazy).1.regions.areas)
    ((check_lazy_tracks hm hlazy).valid v)

/-- Both sides of a fork hold the pages, and all those that were mapped are COW. -/
theorem Held.fork (h : ms.Held v) (hsome : (ms.translate v).isSome)
    (hf : ForkedInto ms parent child) :
    (parent.Held v ∧ parent.Exposed v) ∧ child.Held v ∧ child.Exposed v := by
  have hcowed : BothCowed ms parent child v := by
    rcases h with ⟨area, harea, htype, hv⟩ | ⟨page, hpage, hvalid⟩
    · rcases hf.area_pages area harea v hv with ⟨htrap, _⟩ | ⟨_, hcowed⟩
      · cases htype.symm.trans htrap
      · exact hcowed
    · exact hf.mmap_pages v page hpage hvalid hsome
  obtain ⟨pte, _, hparent, hchild⟩ := hcowed
  refine ⟨⟨?_, pte.cowed, hparent, Or.inl rfl⟩, ?_, pte.cowed, hchild, Or.inl rfl⟩
  · rw [hf.parent_same]
    exact h
  · refine h.imp (fromElf_congr hf.areas) fun hvalid => ?_
    unfold MmapManager.Valid
    rw [hf.records.map]
    exact hvalid

end Pages

end MemorySet

namespace Machine

/-- The programs that descend from a fork; a new one descends if its parent does. -/
def kin (m : Machine) (family : Nat → Prop) : MachineOp → Nat → Prop
  | .fork pid => Function.update family m.spaces.length (family pid)
  | _ => family

def kin_step (s : Machine × (Nat → Prop)) (op : MachineOp) :
    Except Panic (Machine × (Nat → Prop)) := do
  let m ← s.1.step op
  return (m, s.1.kin s.2 op)

def ForkOrFault : MachineOp → Prop
  | .fork _ | .check_lazy _ _ => True
  | _ => False

/-- The page is exposed in the whole family. -/
def FamilyExposed (v : Nat) (s : Machine × (Nat → Prop)) : Prop :=
  s.1.Every Laid ∧ ∀ q, s.2 q → ∀ ms, s.1.spaces[q]? = some (some ms) → ms.Held v ∧ ms.Exposed v

section Family

variable {m m' : Machine} {pid v : Nat} {ms : MemorySet} {op : MachineOp}

theorem exposed_step {s t : Machine × (Nat → Prop)} (h : FamilyExposed v s) (hop : ForkOrFault op)
    (hs : kin_step s op = .ok t) : FamilyExposed v t := by
  obtain ⟨m', hm, hs⟩ := bind_eq_ok.mp hs
  cases hs
  refine ⟨(laid_preserves fun _ _ => True).step h.1 trivial hm, fun q hq ms' hms' => ?_⟩
  dsimp only at hq hms'
  cases step_origin hm hms' with
  | other hms hchanged =>
    refine h.2 q ?_ ms' hms
    cases op with
    | fork pid =>
      have hne : q ≠ s.1.spaces.length := fun heq => hchanged (by simp [changed, heq])
      simpa only [kin, Function.update_of_ne hne] using hq
    | check_lazy pid va => exact hq
    | _ => exact hop.elim
  | parent hms hfork =>
    rw [kin, Function.update_of_ne (lt_of_space hms).ne] at hq
    obtain ⟨hheld, hexposed⟩ := h.2 _ hq _ hms
    exact (hheld.fork hexposed.isSome (from_copy_on_write_ok hfork)).1
  | child hms hfork =>
    rw [kin, Function.update_self] at hq
    obtain ⟨hheld, hexposed⟩ := h.2 _ hq _ hms
    exact (hheld.fork hexposed.isSome (from_copy_on_write_ok hfork)).2
  | check_lazy hms hlazy =>
    obtain ⟨hheld, hexposed⟩ := h.2 _ hq _ hms
    exact ⟨hheld.check_lazy (h.1 _ _ hms).manager hlazy, hexposed.check_lazy hlazy⟩
  | _ => exact hop.elim

end Family

variable {text : KernelImage} {r : Nat} {ops ops' : List MachineOp} {m m' : Machine} {pid va : Nat}
  {ms : MemorySet}

instance (op : MachineOp) : Decidable (ForkOrFault op) := by
  unfold ForkOrFault
  split <;> infer_instance

theorem exposed_fork (hlaid : m.Every Laid) (hms : m.spaces[pid]? = some (some ms))
    (hread : ms.ReadOnly (floor va)) (hfork : m.step (.fork pid) = .ok m') :
    FamilyExposed (floor va) (m', fun q => q = pid ∨ q = m.spaces.length) := by
  obtain ⟨hheld, pte, hpte, _⟩ := hread
  have hsome : (ms.translate (floor va)).isSome := Option.isSome_iff_exists.mpr ⟨pte, hpte⟩
  refine ⟨(laid_preserves fun _ _ => True).step hlaid trivial hfork, fun q hq ms' hms' => ?_⟩
  cases step_origin hfork hms' with
  | other _ hchanged =>
    refine absurd ?_ hchanged
    simpa only [changed, List.mem_cons, List.not_mem_nil, or_false] using hq
  | parent hms₁ hforked =>
    cases hms.symm.trans hms₁
    exact (hheld.fork hsome (from_copy_on_write_ok hforked)).1
  | child hms₁ hforked =>
    cases hms.symm.trans hms₁
    exact (hheld.fork hsome (from_copy_on_write_ok hforked)).2

/-- Whatever faults and forks come after a fork, no program of the family is refused a store to a
page that was mapped without write permission before it. -/
theorem fork_exposes (hm : m ∈ states step (boot text r) ops)
    (hms : m.spaces[pid]? = some (some ms)) (hread : ms.ReadOnly (floor va))
    (hfork : m.step (.fork pid) = .ok m')
    (hops : Guarded kin_step (fun _ => ForkOrFault)
      (m', fun q => q = pid ∨ q = m.spaces.length) ops') :
    ∀ s ∈ states kin_step (m', fun q => q = pid ∨ q = m.spaces.length) ops',
      ∀ q, s.2 q → ∀ ms', s.1.spaces[q]? = some (some ms') →
        ¬ ms'.Protected s.1.ph va ∧ ∀ c ms'' ph'',
          ms'.check_lazy s.1.ph va = .ok (c, ms'', ph'') →
            ∃ pte ∈ ms''.translate (floor va), pte.writable = true := by
  intro s hs q hq ms' hms'
  have hfamily := invariant (FamilyExposed (floor va))
    (fun _ _ _ h hop hstep => exposed_step h hop hstep)
    (exposed_fork (laid ops m hm) hms hread hfork) hops s hs
  have hexposed := (hfamily.2 q hq ms' hms').2
  exact ⟨hexposed.not_protected, fun _ _ _ hlazy => hexposed.writable hlazy⟩

def text_page : ElfFile := ⟨zeros, [⟨0x10000, 0x1000, 0, 0, true, false, true⟩], none⟩

/-- A program that has one page of text is forked, and the child stores to the page. -/
theorem forked_text : ∃ m ms m' child ms' ph', run step (boot image 64) [.spawn text_page] = .ok m ∧
    m.spaces[0]? = some (some ms) ∧ ms.ReadOnly (floor 0x10000) ∧ m.step (.fork 0) = .ok m' ∧
    m.spaces.length = 1 ∧ m'.spaces[1]? = some (some child) ∧
    child.check_lazy m'.ph 0x10000 = .ok (0, ms', ph') := by
  obtain ⟨m, hm, hspace, hfork⟩ : ∃ m, run step (boot image 64) [.spawn text_page] = .ok m ∧
      Meets (m.space 0) (fun _ => False) (fun ms => m.spaces.length = 1 ∧ ms.FromElf 0x10 ∧
        ∃ pte ∈ ms.translate 0x10, pte.writable = false ∧ pte.is_cow = false) ∧
      Meets (m.step (.fork 0)) (fun _ => False) fun m' =>
        Meets (m'.space 1) (fun _ => False) fun child =>
          Meets (child.check_lazy m'.ph 0x10000) (fun _ => False) fun r => r.1 = 0 := by
    rw [step_eq]
    exact Meets.exists_ok (by decide +kernel)
  obtain ⟨ms, hms, hlen, helf, hpte⟩ := hspace.exists_ok
  obtain ⟨m', hm', hchild⟩ := hfork.exists_ok
  obtain ⟨child, hchild, hlazy⟩ := hchild.exists_ok
  obtain ⟨⟨c, ms', ph'⟩, hlazy, rfl⟩ := hlazy.exists_ok
  exact ⟨m, ms, m', child, ms', ph', hm, space_ok hms, ⟨Or.inl helf, hpte⟩, hm', hlen,
    space_ok hchild, hlazy⟩

theorem fork_exposes_text : ∃ m ms m', run step (boot image 64) [.spawn text_page] = .ok m ∧
    m.spaces[0]? = some (some ms) ∧ m.step (.fork 0) = .ok m' ∧
    ∀ s ∈ states kin_step (m', fun q => q = 0 ∨ q = m.spaces.length) [.check_lazy 1 0x10000],
      ∀ q, s.2 q → ∀ ms', s.1.spaces[q]? = some (some ms') →
        ¬ ms'.Protected s.1.ph 0x10000 ∧ ∀ c ms'' ph'',
          ms'.check_lazy s.1.ph 0x10000 = .ok (c, ms'', ph'') →
            ∃ pte ∈ ms''.translate (floor 0x10000), pte.writable = true := by
  obtain ⟨m, ms, m', _, _, _, hm, hms, hread, hfork, _⟩ := forked_text
  refine ⟨m, ms, m', hm, hms, hfork, fork_exposes (mem_states_of_run hm) hms hread hfork ?_⟩
  refine ⟨trivial, ?_⟩
  split <;> trivial

/-- The store of the child takes effect. -/
theorem child_writes_text : ∃ m ms m' child, run step (boot image 64) [.spawn text_page] = .ok m ∧
    m.spaces[0]? = some (some ms) ∧ ms.ReadOnly (floor 0x10000) ∧ m.step (.fork 0) = .ok m' ∧
    m'.spaces[1]? = some (some child) ∧ ¬ child.Protected m'.ph 0x10000 ∧
    ∃ ms' ph', child.check_lazy m'.ph 0x10000 = .ok (0, ms', ph') ∧
      ∃ pte ∈ ms'.translate (floor 0x10000), pte.writable = true := by
  obtain ⟨m, ms, m', child, ms', ph', hm, hms, hread, hfork, hlen, hchild, hlazy⟩ := forked_text
  have hfamily := exposed_fork (laid _ m (mem_states_of_run hm)) hms hread hfork
  have hexposed := (hfamily.2 1 (Or.inr hlen.symm) child hchild).2
  exact ⟨m, ms, m', child, hm, hms, hread, hfork, hchild, hexposed.not_protected, ms', ph', hlazy,
    hexposed.writable hlazy⟩

end Machine

end MyGOS.Mm
