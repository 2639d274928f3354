import MyGOS.Mm.LayoutRuns
import MyGOS.Mm.MappingSafety

/-!
# Where `mmap` puts a mapping

A `sys_mmap` without an address takes the high-water mark `mmap_top`. The mark
is right when it lies above every page in use, and it rises only for mappings
that start at it or above. The ledger is the history of the calls, kept beside
the machine; nothing in the kernel reads it.
-/

namespace MyGOS.Mm

open Outcome StepSystem

/-- One of the bytes `[start, start + len)` lies in the page `v`. -/
def Touches (start len v : Nat) : Prop :=
  0 < len ∧ v * PAGE_SIZE < start + len ∧ start < (v + 1) * PAGE_SIZE

instance (start len v : Nat) : Decidable (Touches start len v) :=
  inferInstanceAs (Decidable (_ ∧ _))

inductive MmapEvent where
  | mapped (start len : Nat)
  | unmapped (start len : Nat)

/-- The page was mapped and not unmapped since; the last event stands first. -/
def InUse : List MmapEvent → Nat → Prop
  | [], _ => False
  | .mapped start len :: events, v => Touches start len v ∨ InUse events v
  | .unmapped start len :: events, v => ¬ Touches start len v ∧ InUse events v

instance InUse.decidable : ∀ events v, Decidable (InUse events v)
  | [], _ => inferInstanceAs (Decidable False)
  | .mapped start len :: events, v =>
    have := InUse.decidable events v
    inferInstanceAs (Decidable (Touches start len v ∨ InUse events v))
  | .unmapped start len :: events, v =>
    have := InUse.decidable events v
    inferInstanceAs (Decidable (¬ Touches start len v ∧ InUse events v))

/-- The events of each program. -/
abbrev Ledger := Nat → List MmapEvent

namespace Machine

/-- What a step adds to the ledger. A fork and `exec_busybox` copy the mappings of a program, an
`exec` and a new program have none. -/
def account (m : Machine) (ledger : Ledger) : MachineOp → Ledger
  | .spawn _ => Function.update ledger m.spaces.length []
  | .exec pid _ => Function.update ledger pid []
  | .exec_busybox pid busybox => Function.update ledger pid (ledger busybox)
  | .fork pid => Function.update ledger m.spaces.length (ledger pid)
  | .sys_mmap pid addr length prot flags fd offset =>
    match m.space pid with
    | .error _ => ledger
    | .ok ms =>
      match ms.sys_mmap m.ph addr length prot flags fd offset with
      | .ok (.ok a, _) => Function.update ledger pid (.mapped a.toNat length :: ledger pid)
      | _ => ledger
  | .sys_munmap pid addr length =>
    Function.update ledger pid (.unmapped addr length :: ledger pid)
  | _ => ledger

def ledger_step (s : Machine × Ledger) (op : MachineOp) : Except Panic (Machine × Ledger) := do
  let m ← s.1.step op
  return (m, s.1.account s.2 op)

/-- A `sys_mmap` without an address gets pages that are not in use. -/
def MmapFresh (s : Machine × Ledger) : Prop :=
  ∀ (pid : Nat) (ms : MemorySet), s.1.spaces[pid]? = some (some ms) →
    ∀ length prot flags fd offset f a ms' ph', MmapFlags.from_bits flags = some f →
      f.fixed = false →
      ms.sys_mmap s.1.ph 0 length prot flags fd offset = .ok (.ok a, ms', ph') →
      ∀ v, InUse (s.2 pid) v → ¬ Touches a.toNat length v

/-- The mapping does not reach from below the mark to above it, and its length can be padded. -/
def StaysBeside (ms : MemorySet) (addr length : Nat) (f : MmapFlags) : Prop :=
  length + PAGE_SIZE ≤ 2 ^ 64 ∧ (ms.mmap_manager.mmap_top ≤ ms.mmap_place addr f ∨
    ms.mmap_place addr f + length ≤ ms.mmap_manager.mmap_top)

instance (ms : MemorySet) (addr length : Nat) (f : MmapFlags) :
    Decidable (StaysBeside ms addr length f) :=
  inferInstanceAs (Decidable (_ ∧ _))

def MmapPermitted (s : Machine × Ledger) : MachineOp → Prop
  | .sys_mmap pid addr length _ flags _ _ => s.1.AtSpace pid fun ms =>
    ∀ f ∈ MmapFlags.from_bits flags, StaysBeside ms addr length f
  | _ => True

instance (s : Machine × Ledger) (op : MachineOp) : Decidable (MmapPermitted s op) :=
  match op with
  | .sys_mmap pid addr length _ flags _ _ => inferInstanceAs (Decidable (s.1.AtSpace pid fun ms =>
    ∀ f ∈ MmapFlags.from_bits flags, StaysBeside ms addr length f))
  | .spawn _ | .exec _ _ | .exec_busybox _ _ | .fork _ | .exit _ | .check_lazy _ _
  | .sys_munmap _ _ _ | .sys_brk _ _ | .sys_mprotect _ _ _ _ | .user_store _ _ _
  | .write_user _ _ _ _ | .hold | .release _ => inferInstanceAs (Decidable True)

/-- The mark of an address space lies above the pages in use. -/
def MarkAbove (ms : MemorySet) (events : List MmapEvent) : Prop :=
  ms.mmap_manager.Sound ∧ ∀ v, InUse events v → v < floor ms.mmap_manager.mmap_top

def Marked (s : Machine × Ledger) : Prop :=
  ∀ (pid : Nat) (ms : MemorySet), s.1.spaces[pid]? = some (some ms) → MarkAbove ms (s.2 pid)

section Placement

variable {m m' : Machine} {ledger : Ledger} {pid q : Nat} {ms ms' : MemorySet} {op : MachineOp}
  {ph ph' : Phys} {events : List MmapEvent} {addr length prot flags offset : Nat}
  {fd : Option File} {f : MmapFlags} {a : Int}

theorem account_other (hq : q ∉ m.changed op) : m.account ledger op q = ledger q := by
  cases op
  case sys_mmap pid addr length prot flags fd offset =>
    have hne : q ≠ pid := by simpa [changed] using hq
    cases hspace : m.space pid with
    | error e => simp only [account, hspace]
    | ok ms =>
      simp only [account, hspace]
      rcases ms.sys_mmap m.ph addr length prot flags fd offset with e | ⟨e | a, s⟩
      · rfl
      · rfl
      · exact Function.update_of_ne hne _ _
  case exec_busybox pid busybox =>
    have hne : q ≠ pid := fun heq => hq (by simp [changed, heq])
    exact Function.update_of_ne hne _ _
  case fork pid =>
    have hne : q ≠ m.spaces.length := fun heq => hq (by simp [changed, heq])
    exact Function.update_of_ne hne _ _
  case spawn elf =>
    have hne : q ≠ m.spaces.length := by simpa [changed] using hq
    exact Function.update_of_ne hne _ _
  case exec pid elf =>
    have hne : q ≠ pid := by simpa [changed] using hq
    exact Function.update_of_ne hne _ _
  case sys_munmap pid addr length =>
    have hne : q ≠ pid := by simpa [changed] using hq
    exact Function.update_of_ne hne _ _
  all_goals rfl

theorem MarkAbove.keeps (h : MarkAbove ms events) (hk : Keeps ms ms') : MarkAbove ms' events :=
  ⟨hk.records.sound h.1, fun v hv => hk.records.top ▸ h.2 v hv⟩

theorem MarkAbove.of_load {text : KernelImage} {elf : ElfFile}
    (h : MemorySet.load_elf text elf ph = .ok (ms, ph')) : MarkAbove ms [] := by
  refine ⟨(load_elf_laid h).manager, fun v hv => hv.elim⟩

theorem MarkAbove.of_fork {text : KernelImage} {parent child : MemorySet}
    (h : MarkAbove ms events) (hfork : ms.from_copy_on_write text ph = .ok (parent, child, ph')) :
    MarkAbove parent events ∧ MarkAbove child events := by
  have hforked := from_copy_on_write_ok hfork
  have hrecords : SameRecords ms.mmap_manager child.mmap_manager :=
    ⟨hforked.records.start, hforked.records.top, fun v => by rw [hforked.records.map]⟩
  exact ⟨h.keeps hforked.parent_keeps, hrecords.sound h.1, fun v hv => hrecords.top ▸ h.2 v hv⟩

theorem le_virt_addr {value : Nat} (h : value < 2 ^ 64) : value ≤ virt_addr value := by
  unfold virt_addr
  split <;> omega

theorem padded_of_le (h : length + PAGE_SIZE ≤ 2 ^ 64) :
    length ≤ padded length ∧ padded length < length + PAGE_SIZE ∧ padded length < 2 ^ 64 := by
  unfold padded
  split <;> simp only [PAGE_SIZE] at * <;> omega

theorem place_lt (hm : ms.mmap_manager.Sound) (addr : Nat) (f : MmapFlags) :
    ms.mmap_place addr f < 2 ^ 64 := by
  unfold MemorySet.mmap_place
  split
  · exact virt_addr_lt addr
  · split
    · exact hm.top_lt
    · decide

/-- A mapping that is made does not reach over the end of the address space. -/
theorem end_lt {start len : Nat} {range : VPNRange} (hstart : page_offset start = 0)
    (hlen : page_offset len = 0) (hlt : start < 2 ^ 64) (hlen' : len < 2 ^ 64)
    (h : MmapManager.pages start len = .ok range) : start + len < 2 ^ 64 := by
  have hle := range.start_le
  rw [(MmapManager.pages_start h).1, (MmapManager.pages_start h).2] at hle
  simp only [page_offset, floor, ceil, PAGE_SIZE] at *
  omega

theorem lt_floor {v top : Nat} (h : v * PAGE_SIZE < top) (htop : page_offset top = 0) :
    v < floor top := by
  simp only [page_offset, floor, PAGE_SIZE] at *
  omega

/-- The mark after a mapping. -/
theorem mark_of_mmapped (h : Mmapped ms ph addr length prot flags fd offset a ms' ph')
    (hm : ms.mmap_manager.Sound) : ∃ f, MmapFlags.from_bits flags = some f ∧
      a = (ms.mmap_place addr f : Nat) ∧
      ms.mmap_place addr f + padded length < 2 ^ 64 ∧
      ms'.mmap_manager.mmap_top = if ms.mmap_manager.mmap_top ≤ ms.mmap_place addr f then
        virt_addr (ms.mmap_place addr f + padded length) else ms.mmap_manager.mmap_top := by
  obtain ⟨hlength, haligned, f, p, m₁, m₂, hf, _, _, ha, hfixed, hpush, rfl⟩ := h
  have htop₁ : m₁.mmap_top = ms.mmap_manager.mmap_top := by
    rcases hfixed with ⟨_, hremove⟩ | ⟨_, rfl, _⟩
    · obtain ⟨_, _, _, htop, _⟩ := MmapManager.remove_ok hremove
      exact htop
    · rfl
  obtain ⟨_, range, hrange, hsame, _⟩ := MmapManager.push_ok hpush
  have hend := end_lt (page_offset_mmap_place hm haligned f) (page_offset_padded length)
    (place_lt hm addr f) (Nat.mod_lt _ (by decide)) hrange
  refine ⟨f, hf, ha, hend, ?_⟩
  rw [Nat.mod_eq_of_lt hend, htop₁] at hsame
  exact congrArg MmapManager.mmap_top hsame

theorem MarkAbove.of_mmap (h : MarkAbove ms events)
    (hm : Mmapped ms ph addr length prot flags fd offset a ms' ph')
    (hstays : ∀ f ∈ MmapFlags.from_bits flags, StaysBeside ms addr length f) :
    MarkAbove ms' (.mapped a.toNat length :: events) := by
  have hsound := hm.sound h.1
  obtain ⟨f, hf, rfl, hend, htop⟩ := mark_of_mmapped hm h.1
  obtain ⟨hlength, hplace⟩ := hstays f hf
  obtain ⟨hle, _, _⟩ := padded_of_le hlength
  have hvirt := le_virt_addr hend
  refine ⟨hsound, ?_⟩
  rintro v (⟨_, hv, _⟩ | hv)
  · refine lt_floor ?_ hsound.top_aligned
    rw [Int.toNat_natCast] at hv
    rw [htop]
    split
    · omega
    · rename_i hbelow
      exact lt_of_lt_of_le hv (hplace.resolve_left hbelow)
  · refine (h.2 v hv).trans_le (Nat.div_le_div_right ?_)
    rw [htop]
    split
    · omega
    · exact le_refl _

/-- A mapping that is made otherwise leaves the mark in the middle of it, or below. -/
theorem mark_in_use (h : MarkAbove ms events)
    (hm : Mmapped ms ph addr length prot flags fd offset a ms' ph')
    (hlength : length < 2 ^ 64)
    (hstays : ¬ ∀ f ∈ MmapFlags.from_bits flags, StaysBeside ms addr length f) :
    InUse (.mapped a.toNat length :: events) (floor ms'.mmap_manager.mmap_top) := by
  have hsound := h.1
  have hnonzero := hm.nonzero
  obtain ⟨f, hf, rfl, hend, htop⟩ := mark_of_mmapped hm h.1
  have hstays : ¬ StaysBeside ms addr length f := by
    intro hf'
    refine hstays fun f' hf'' => ?_
    cases hf.symm.trans hf''
    exact hf'
  have hplace := page_offset_mmap_place hsound hm.aligned f
  rw [Int.toNat_natCast, htop]
  left
  split
  · rename_i hge
    have hlong : 2 ^ 64 < length + PAGE_SIZE := by
      by_contra hshort
      exact hstays ⟨not_lt.mp hshort, Or.inl hge⟩
    have hpadded : padded length = 0 := by
      unfold padded
      split <;> simp only [PAGE_SIZE] at * <;> omega
    have hvirt : virt_addr (ms.mmap_place addr f) = ms.mmap_place addr f := by
      unfold MemorySet.mmap_place
      split
      · exact MmapManager.virt_addr_virt_addr addr
      · split
        · exact hsound.top_virt
        · decide
    rw [hpadded, Nat.add_zero, hvirt]
    simp only [Touches, page_offset, floor, PAGE_SIZE] at *
    omega
  · rename_i hbelow
    have hover : ms.mmap_manager.mmap_top < ms.mmap_place addr f + length := by
      by_contra hunder
      have hunder := not_lt.mp hunder
      refine hstays ⟨?_, Or.inr hunder⟩
      have htop := hsound.top_lt
      have haligned := hsound.top_aligned
      simp only [page_offset, PAGE_SIZE] at *
      omega
    have haligned := hsound.top_aligned
    simp only [Touches, page_offset, floor, PAGE_SIZE] at *
    omega

theorem space_eq (h : m.spaces[pid]? = some (some ms)) : m.space pid = .ok ms := by
  simp only [space, h]

theorem marked_step {s t : Machine × Ledger} (h : Marked s) (hp : MmapPermitted s op)
    (hs : ledger_step s op = .ok t) : Marked t := by
  obtain ⟨m', hm, hs⟩ := bind_eq_ok.mp hs
  cases hs
  intro q ms' hq
  show MarkAbove ms' (s.1.account s.2 op q)
  cases step_origin hm hq with
  | other hms hchanged =>
    rw [account_other hchanged]
    exact h q ms' hms
  | spawn hload =>
    simp only [account, Function.update_self]
    exact MarkAbove.of_load hload
  | exec hload =>
    simp only [account, Function.update_self]
    exact MarkAbove.of_load hload
  | busybox hms hfork hne =>
    simp only [account, Function.update_of_ne hne]
    exact ((h _ _ hms).of_fork hfork).1
  | exec_busybox hms hfork =>
    simp only [account, Function.update_self]
    exact ((h _ _ hms).of_fork hfork).2
  | parent hms hfork =>
    simp only [account, Function.update_of_ne (lt_of_space hms).ne]
    exact ((h _ _ hms).of_fork hfork).1
  | child hms hfork =>
    simp only [account, Function.update_self]
    exact ((h _ _ hms).of_fork hfork).2
  | check_lazy hms hlazy => exact (h _ _ hms).keeps (check_lazy_ok hlazy).1
  | @sys_mmap pid addr length prot flags offset fd ms ms' r ph hms hmmap =>
    simp only [account, space_eq hms, hmmap]
    cases r with
    | error e =>
      obtain ⟨rfl, _⟩ := sys_mmap_error hmmap
      exact h _ _ hms
    | ok a =>
      simp only [Function.update_self]
      exact (h _ _ hms).of_mmap (sys_mmap_ok hmmap) (AtSpace.of_space hp hms)
  | sys_munmap hms hmunmap =>
    simp only [account, Function.update_self]
    obtain ⟨m₁, hremove, rfl⟩ := sys_munmap_ok hmunmap
    obtain ⟨_, _, _, htop, _⟩ := MmapManager.remove_ok hremove
    refine ⟨(h _ _ hms).1.remove hremove, fun v hv => ?_⟩
    simp only [MemorySet.with_mmap, htop]
    exact (h _ _ hms).2 v hv.2
  | sys_brk hms hbrk =>
    have hold := h _ _ hms
    obtain ⟨b, rfl⟩ := sys_brk_ok hbrk
    exact hold
  | sys_mprotect hms hprotect => exact (h _ _ hms).keeps (sys_mprotect_keeps hprotect)
  | write_user hms hwrite =>
    exact write_user_keeps (P := fun ms => MarkAbove ms (s.2 q))
      (fun h hlazy => h.keeps (check_lazy_ok hlazy).1) (h _ _ hms) hwrite

/-- A new mapping starts at the mark. -/
theorem Marked.fresh {s : Machine × Ledger} (h : Marked s) : MmapFresh s := by
  intro pid ms hms length prot flags fd offset f a ms' ph' hf hfixed hmmap v hv htouches
  obtain ⟨hsound, hmark⟩ := h pid ms hms
  obtain ⟨_, _, f', _, _, _, hf', _, _, rfl, _⟩ := sys_mmap_ok hmmap
  cases hf.symm.trans hf'
  have hlt := hmark v hv
  have hstart := htouches.2.2
  have htop := hsound.top_aligned
  simp only [MemorySet.mmap_place, hfixed, Bool.false_eq_true, if_false, if_true,
    Int.toNat_natCast] at hstart
  simp only [page_offset, floor, PAGE_SIZE] at *
  omega

end Placement

variable {text : KernelImage} {r : Nat} {ops : List MachineOp}

/-- Nobody has mapped anything yet. -/
def booted (text : KernelImage) (r : Nat) : Machine × Ledger := (boot text r, fun _ => [])

theorem mmap_fresh (hops : Guarded ledger_step MmapPermitted (booted text r) ops) :
    ∀ s ∈ states ledger_step (booted text r) ops, MmapFresh s := by
  have hmarked : Marked (booted text r) := by
    intro pid ms hms
    simp [booted, boot] at hms
  intro s hs
  exact (invariant Marked (fun _ _ _ h hp hstep => marked_step h hp hstep) hmarked hops s hs).fresh

def map_below_and_above : List MachineOp :=
  [.spawn one_page, .sys_mmap 0 0 8192 3 0x22 none 0, .sys_mmap 0 (MMAP_BASE + 4096) 4096 3 0x32 none 0,
    .sys_munmap 0 MMAP_BASE 4096, .sys_mmap 0 0x70000000 4096 3 0x32 none 0,
    .sys_mmap 0 0 4096 3 0x22 none 0]

theorem mmap_fresh_below_and_above :
    Guarded ledger_step MmapPermitted (booted image 64) map_below_and_above ∧
      ∀ s ∈ states ledger_step (booted image 64) map_below_and_above, MmapFresh s := by
  have hguarded : Guarded ledger_step MmapPermitted (booted image 64) map_below_and_above := by
    decide +kernel
  exact ⟨hguarded, mmap_fresh hguarded⟩

/-- A fixed mapping across the mark, and the mapping that is then put over its second page. -/
theorem mmap_overlaps : ∃ s, run ledger_step (booted image 64)
    [.spawn one_page, .sys_mmap 0 (MMAP_BASE - 4096) 8192 3 0x32 none 0] = .ok s ∧
      ¬ MmapFresh s := by
  obtain ⟨s, hs, hspace⟩ : ∃ s, run ledger_step (booted image 64)
      [.spawn one_page, .sys_mmap 0 (MMAP_BASE - 4096) 8192 3 0x32 none 0] = .ok s ∧
      Meets (s.1.space 0) (fun _ => False) fun ms =>
        Meets (ms.sys_mmap s.1.ph 0 4096 3 0x22 none 0) (fun _ => False) fun r =>
          Meets r.1 (fun _ => False) fun a => a = MMAP_BASE ∧ InUse (s.2 0) (floor MMAP_BASE) :=
    Meets.exists_ok (by decide +kernel)
  obtain ⟨ms, hms, hmmap⟩ := hspace.exists_ok
  obtain ⟨⟨result, ms', ph'⟩, hmmap, hresult⟩ := hmmap.exists_ok
  obtain ⟨a, rfl, rfl, hused⟩ := hresult.exists_ok
  refine ⟨s, hs, fun hfresh => ?_⟩
  exact hfresh 0 ms (space_ok hms) 4096 3 0x22 none 0 _ _ ms' ph' rfl rfl hmmap _ hused (by decide)

end Machine

end MyGOS.Mm
