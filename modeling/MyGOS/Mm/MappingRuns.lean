import MyGOS.Mm.Reachable

/-!
# Runs of the machine

`Permits` leaves out the calls that drop trackers of pages still mapped
(`sys_munmap`, and `sys_mmap` with MAP_FIXED, over a touched page) and the forks
that wrap a reference counter; `PermitsCow` also the calls that hand out the W
bit to a shared page (`sys_mprotect`) or hide a touched page from the forks.
-/

namespace MyGOS.Mm

open Outcome

namespace Machine

/-- What holds of the address space of `pid`, if there is one. -/
def AtSpace (m : Machine) (pid : Nat) (P : MemorySet → Prop) : Prop :=
  match m.space pid with
  | .ok ms => P ms
  | .error _ => True

instance (m : Machine) (pid : Nat) (P : MemorySet → Prop) [DecidablePred P] :
    Decidable (m.AtSpace pid P) := by
  unfold AtSpace
  split <;> infer_instance

/-- A fork of `pid` takes no reference counter over its limit. -/
def NoWrap (m : Machine) (pid : Nat) : Prop :=
  m.AtSpace pid fun ms => ∀ p ∈ ms.cow_shares, m.live.count p + ms.cow_shares.count p ≤ 255

def Permits (m : Machine) : MachineOp → Prop
  | .fork pid => m.NoWrap pid
  | .exec_busybox _ busybox => m.NoWrap busybox
  | .sys_munmap pid addr length => m.AtSpace pid fun ms => ms.Clear addr length
  | .sys_mmap pid addr length _ flags _ _ => m.AtSpace pid fun ms =>
    ∀ f ∈ MmapFlags.from_bits flags, f.fixed = true → ms.Clear (virt_addr addr) (padded length)
  | _ => True

/-- `PROT_WRITE` is only given to pages that have their frame for themselves. -/
def MprotectAlone (m : Machine) (pid addr length prot : Nat) : Prop :=
  m.AtSpace pid fun ms =>
    match MemorySet.mprotect_range addr length with
    | .ok range => prot.testBit 1 = true → ms.Unshared m.live range.vpns
    | .error _ => True

def PermitsCow (m : Machine) (op : MachineOp) : Prop :=
  m.Permits op ∧ match op with
    | .sys_mmap pid addr length _ flags _ _ => m.AtSpace pid fun ms =>
      ∀ f ∈ MmapFlags.from_bits flags, ms.Clear (ms.mmap_place addr f) (padded length)
    | .sys_mprotect pid addr length prot => m.MprotectAlone pid addr length prot
    | _ => True

instance (m : Machine) (pid : Nat) : Decidable (m.NoWrap pid) :=
  inferInstanceAs (Decidable (m.AtSpace pid _))

instance (m : Machine) (op : MachineOp) : Decidable (m.Permits op) :=
  match op with
  | .fork pid => inferInstanceAs (Decidable (m.NoWrap pid))
  | .exec_busybox _ busybox => inferInstanceAs (Decidable (m.NoWrap busybox))
  | .sys_munmap pid _ _ => inferInstanceAs (Decidable (m.AtSpace pid _))
  | .sys_mmap pid _ _ _ _ _ _ => inferInstanceAs (Decidable (m.AtSpace pid _))
  | .spawn _ | .exec _ _ | .exit _ | .check_lazy _ _ | .sys_brk _ _ | .sys_mprotect _ _ _ _
  | .user_store _ _ _ | .write_user _ _ _ _ | .hold | .release _ => inferInstanceAs (Decidable True)

instance (m : Machine) (pid addr length prot : Nat) :
    Decidable (m.MprotectAlone pid addr length prot) :=
  have (ms : MemorySet) : Decidable (match MemorySet.mprotect_range addr length with
      | .ok range => prot.testBit 1 = true → ms.Unshared m.live range.vpns
      | .error _ => True) := by
    split <;> infer_instance
  inferInstanceAs (Decidable (m.AtSpace pid _))

instance (m : Machine) (op : MachineOp) : Decidable (m.PermitsCow op) :=
  have : Decidable (match op with
      | .sys_mmap pid addr length _ flags _ _ => m.AtSpace pid fun ms =>
        ∀ f ∈ MmapFlags.from_bits flags, ms.Clear (ms.mmap_place addr f) (padded length)
      | .sys_mprotect pid addr length prot => m.MprotectAlone pid addr length prot
      | _ => True) := by
    split <;> infer_instance
  inferInstanceAs (Decidable (_ ∧ _))

variable {m m' : Machine} {pid : Nat} {ms : MemorySet} {P : MemorySet → Prop}

theorem AtSpace.of_space (h : m.AtSpace pid P) (hms : m.spaces[pid]? = some (some ms)) : P ms := by
  unfold AtSpace space at h
  rw [hms] at h
  exact h

theorem NoWrap.count_le (h : m.NoWrap pid) (hbooks : Books 0 m)
    (hms : m.spaces[pid]? = some (some ms)) (p : Nat) :
    (ms.owned + m.others pid).count p + ms.cow_shares.count p ≤ 255 := by
  rw [← live_split hms]
  rcases Decidable.em (p ∈ ms.cow_shares) with hmem | hmem
  · exact h.of_space hms p hmem
  · rw [Multiset.count_eq_zero.mpr hmem, add_zero]
    have howned := hbooks.owned
    rw [zero_add] at howned
    exact howned.count_le p

end Machine

section Steps

variable {m : Machine} {pid : Nat}

/-- What every step promises. -/
def Kept (m : Machine) (op : MachineOp) (m' : Machine) : Prop :=
  Books 0 m' ∧ (m.PermitsCow op → Cow 0 m → Cow 0 m')

theorem Books.kept_local {op : MachineOp} {ms ms' : MemorySet} {ph' : Phys} (h : Books 0 m)
    (hms : m.spaces[pid]? = some (some ms))
    (hs : LocalStep m.text (m.others pid) ms m.ph ms' ph')
    (hk : m.PermitsCow op → CowKept (m.others pid) ms ms') : Kept m op (m.put pid (ms', ph')) :=
  ⟨h.local_step hms hs, fun hp hcow => hcow.local_step h hms hs (hk hp)⟩

theorem Loading.fits {text : KernelImage} {ms : MemorySet} {ph : Phys} {m' : Machine}
    (h : Loading text m.live ms ph) (hlive : m'.live = m.live) : Fits ms.owned ms m' where
  shares := h.shares
  alone v pte hv hw := by
    rw [hlive]
    exact h.alone v pte hv hw

/-- A new program image, still outside of the table. -/
theorem Books.loaded {ms : MemorySet} {ph : Phys} (h : Books 0 m)
    (hl : Loading m.text m.live ms ph)
    (hbase : ph.allocator.base_num = m.ph.allocator.base_num) :
    Books ms.owned { m with ph := ph } :=
  ⟨hl.owned, hbase.trans h.base, h.tracked⟩

theorem Cow.loaded {ms : MemorySet} {ph : Phys} (h : Cow 0 m) (hl : Loading m.text m.live ms ph) :
    Cow ms.owned { m with ph := ph } := by
  refine ⟨h.shares, fun pid ms' hms' v pte hv hw => ?_⟩
  have hone := h.alone pid ms' hms' v pte hv hw
  rw [zero_add] at hone
  exact (hl.calm pte.ppn).trans (max_le hone (le_refl 1))

theorem spawn_meets (h : Books 0 m) (elf : ElfFile) :
    Meets (m.step (.spawn elf)) (fun _ => True) (Kept m (.spawn elf)) := by
  have howned := h.owned
  rw [zero_add] at howned
  refine (load_elf_meets m.text elf howned).bind ?_
  rintro ⟨ms, ph⟩ ⟨hl, hbase⟩
  exact ⟨(h.loaded hl hbase).push hl.tracked, fun _ hcow => (hcow.loaded hl).push (hl.fits rfl)⟩

theorem exec_meets (h : Books 0 m) (pid : Nat) (elf : ElfFile) :
    Meets (m.step (.exec pid elf)) (fun _ => True) (Kept m (.exec pid elf)) := by
  have howned := h.owned
  rw [zero_add] at howned
  refine (load_elf_meets m.text elf howned).bind ?_
  rintro ⟨ms, ph⟩ ⟨hl, hbase⟩
  refine ((h.loaded hl hbase).replace hl.tracked).mono ?_
  exact fun m' hm' => ⟨hm'.1, fun _ hcow => hm'.2 (hcow.loaded hl) (hl.fits rfl)⟩

theorem fork_meets (h : Books 0 m) (hwrap : m.NoWrap pid) {ms : MemorySet}
    (hms : m.spaces[pid]? = some (some ms)) :
    Meets (ms.from_copy_on_write m.text m.ph) (fun e => e = .outOfMemory ∨ ¬ ms.cow_keys.Nodup)
      fun r => Forked m.text (m.others pid) ms m.ph r.1 r.2.1 r.2.2 := by
  have howned := h.owned_split hms
  rw [zero_add] at howned
  exact from_copy_on_write_meets (h.tracked pid ms hms) howned (hwrap.count_le h hms)

theorem step_fork_meets (h : Books 0 m) (hwrap : m.NoWrap pid) :
    Meets (m.step (.fork pid)) (fun _ => True) (Kept m (.fork pid)) := by
  refine (m.space_meets pid).bind fun ms hms => ?_
  refine ((fork_meets h hwrap hms).mono_error fun _ _ => trivial).bind ?_
  rintro ⟨par, child, ph⟩ hf
  obtain ⟨hbooks, hT, hcow⟩ := h.fork hms hf
  refine ⟨hbooks.push hT, fun _ hc => ?_⟩
  exact (hcow hc).1.push (hcow hc).2

theorem step_busybox_meets {busybox : Nat} (h : Books 0 m) (hwrap : m.NoWrap busybox) (pid : Nat) :
    Meets (m.step (.exec_busybox pid busybox)) (fun _ => True)
      (Kept m (.exec_busybox pid busybox)) := by
  refine (m.space_meets busybox).bind fun ms hms => ?_
  refine ((fork_meets h hwrap hms).mono_error fun _ _ => trivial).bind ?_
  rintro ⟨par, child, ph⟩ hf
  obtain ⟨hbooks, hT, hcow⟩ := h.fork hms hf
  refine (@Books.replace (m.put busybox (par, ph)) _ _ ph hbooks hT).mono ?_
  exact fun m' hm' => ⟨hm'.1, fun _ hc => hm'.2 (hcow hc).1 (hcow hc).2⟩

theorem exit_meets (h : Books 0 m) (pid : Nat) :
    Meets (m.step (.exit pid)) (fun _ => True) (Kept m (.exit pid)) := by
  refine (m.space_meets pid).bind fun ms hms => ?_
  have howned := h.owned_split hms
  rw [zero_add] at howned
  refine ((MemorySet.drop_meets (h.tracked pid ms hms).no_shm howned).mono_error
    fun _ _ => trivial).bind fun ph' hmoves => ?_
  have hlive : Machine.live { m with ph := ph', spaces := m.spaces.set pid none } =
      m.others pid := rfl
  have hspace {q : Nat} {ms' : MemorySet}
      (hq : (m.spaces.set pid none)[q]? = some (some ms')) : m.spaces[q]? = some (some ms') := by
    rw [List.getElem?_set] at hq
    split at hq
    · split at hq <;> cases hq
    · exact hq
  refine ⟨⟨?_, hmoves.base.trans h.base, fun q ms' hq => h.tracked q ms' (hspace hq)⟩,
    fun _ hcow => ⟨fun q ms' hq => hcow.shares q ms' (hspace hq), fun q ms' hq v pte hv hw => ?_⟩⟩
  · rw [hlive]
    exact hmoves.owned
  · have hone := hcow.alone q ms' (hspace hq) v pte hv hw
    rw [hlive]
    rw [Machine.live_split hms] at hone
    exact (Multiset.count_le_of_le _ (add_le_add_right (Multiset.le_add_left _ _) _)).trans hone

theorem hold_meets (h : Books 0 m) :
    Meets (m.step .hold) (fun _ => True) (Kept m .hold) := by
  have howned := h.owned
  rw [zero_add] at howned
  refine ((Phys.alloc_frame_meets howned).mono_error fun _ _ => trivial).bind ?_
  rintro ⟨frame, ph⟩ ⟨hfresh, _, hbase, howned', _⟩
  have hlive : Machine.live { m with ph := ph, held := frame :: m.held } = frame.ppn ::ₘ m.live := by
    simp only [Machine.live, Machine.held_owned, List.map_cons, ← Multiset.cons_coe,
      Multiset.add_cons]
  refine ⟨⟨?_, hbase.trans h.base, h.tracked⟩,
    fun _ hcow => ⟨hcow.shares, fun q ms hq v pte hv hw => ?_⟩⟩
  · rw [zero_add, hlive]
    exact howned'
  · have hone := hcow.alone q ms hq v pte hv hw
    rw [zero_add] at hone ⊢
    rw [hlive]
    exact (Calm.cons hfresh pte.ppn).trans (max_le hone (le_refl 1))

theorem release_meets (h : Books 0 m) (ppn : Nat) :
    Meets (m.step (.release ppn)) (fun _ => True) (Kept m (.release ppn)) := by
  simp only [Machine.step]
  split
  · rename_i hmem
    have hlive : m.live = ppn ::ₘ Machine.live { m with held := m.held.erase ⟨ppn⟩ } := by
      have hperm := (List.perm_cons_erase hmem).map FrameTracker.ppn
      simp only [Machine.live, Machine.held_owned]
      rw [Multiset.coe_eq_coe.mpr hperm, List.map_cons, ← Multiset.cons_coe, Multiset.add_cons]
    have howned := h.owned
    rw [zero_add, hlive] at howned
    obtain ⟨ph', hdrop, hbase, howned', _⟩ := @Phys.drop_spec _ _ ⟨ppn⟩ howned
    rw [hdrop]
    refine ⟨⟨?_, hbase.trans h.base, h.tracked⟩,
    fun _ hcow => ⟨hcow.shares, fun q ms hq v pte hv hw => ?_⟩⟩
    · rw [zero_add]
      exact howned'
    · have hone := hcow.alone q ms hq v pte hv hw
      rw [zero_add] at hone ⊢
      rw [hlive] at hone
      exact (Multiset.count_le_of_le _ (Multiset.le_cons_self _ _)).trans hone
  · trivial

theorem user_store_allocator (ms : MemorySet) (ph : Phys) (va : Nat) (byte : UInt8) :
    ((Machine.user_store ms ph va byte).getD ph).allocator = ph.allocator := by
  unfold Machine.user_store
  split
  · split <;> rfl
  · rfl

theorem step_meets (h : Books 0 m) (op : MachineOp) (hp : m.Permits op) :
    Meets (m.step op) (fun _ => True) (Kept m op) := by
  have hsplit {pid : Nat} {ms : MemorySet} (hms : m.spaces[pid]? = some (some ms)) :
      Tracked m.text ms ∧ Owned m.ph.allocator (ms.owned + m.others pid) := by
    refine ⟨h.tracked pid ms hms, ?_⟩
    have howned := h.owned_split hms
    rwa [zero_add] at howned
  cases op with
  | spawn elf => exact spawn_meets h elf
  | exec pid elf => exact exec_meets h pid elf
  | exec_busybox pid busybox => exact step_busybox_meets h hp pid
  | fork pid => exact step_fork_meets h hp
  | exit pid => exact exit_meets h pid
  | check_lazy pid va =>
    refine (m.space_meets pid).bind fun ms hms => ?_
    obtain ⟨hT, howned⟩ := hsplit hms
    refine (check_lazy_meets hT howned va).bind ?_
    rintro ⟨_, ms', ph'⟩ ⟨hT', hserved⟩
    obtain ⟨hstep, hkept⟩ := hserved.steps hT howned hT'
    exact h.kept_local hms hstep fun _ => hkept
  | sys_mmap pid addr length prot flags fd offset =>
    refine (m.space_meets pid).bind fun ms hms => ?_
    obtain ⟨hT, howned⟩ := hsplit hms
    refine (sys_mmap_steps hT howned (Machine.AtSpace.of_space hp hms)).bind ?_
    rintro ⟨_, ms', ph'⟩ ⟨hstep, hkept⟩
    exact h.kept_local hms hstep fun hc => hkept (Machine.AtSpace.of_space hc.2 hms)
  | sys_munmap pid addr length =>
    refine (m.space_meets pid).bind fun ms hms => ?_
    obtain ⟨hT, howned⟩ := hsplit hms
    refine (sys_munmap_steps hT howned (Machine.AtSpace.of_space hp hms)).bind ?_
    rintro ⟨_, ms', ph'⟩ ⟨hstep, hkept⟩
    exact h.kept_local hms hstep fun _ => hkept
  | sys_brk pid brk =>
    refine (m.space_meets pid).bind fun ms hms => ?_
    obtain ⟨hT, howned⟩ := hsplit hms
    refine (sys_brk_steps hT howned brk).bind ?_
    rintro ⟨_, ms'⟩ ⟨hstep, hkept⟩
    exact h.kept_local hms hstep fun _ => hkept
  | sys_mprotect pid addr length prot =>
    refine (m.space_meets pid).bind fun ms hms => ?_
    obtain ⟨hT, howned⟩ := hsplit hms
    refine (sys_mprotect_steps hT howned addr length prot).bind ?_
    rintro ⟨_, ms'⟩ ⟨hstep, hkept⟩
    refine h.kept_local hms hstep fun hc => hkept fun hw range hrange => ?_
    have hshare := Machine.AtSpace.of_space hc.2 hms
    rw [hrange] at hshare
    rw [← Machine.live_split hms]
    exact hshare hw
  | user_store pid va byte =>
    refine (m.space_meets pid).bind fun ms hms => ?_
    refine ⟨⟨?_, ?_, h.tracked⟩, fun _ hcow => ⟨hcow.shares, hcow.alone⟩⟩
    · rw [user_store_allocator]
      exact h.owned
    · rw [user_store_allocator]
      exact h.base
  | write_user pid ptr len data =>
    refine (m.space_meets pid).bind fun ms hms => ?_
    obtain ⟨hT, howned⟩ := hsplit hms
    refine (write_user_steps hT howned ptr len data).bind ?_
    rintro ⟨ms', ph'⟩ ⟨hstep, hkept⟩
    exact h.kept_local hms hstep fun _ => hkept
  | hold => exact hold_meets h
  | release ppn => exact release_meets h ppn

end Steps

end MyGOS.Mm
