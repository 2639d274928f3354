import MyGOS.Mm.LayoutRuns
import MyGOS.Mm.MappingSafety

/-!
# The program break

`sys_brk` turns its argument into a signed difference and checks the sum in one
direction only: against the limit when the difference is positive, against the
start of the heap when it is not. A request outside of the heap is refused by a
panic, or, from `2 ^ 63` bytes away on, not refused at all.
-/

namespace MyGOS.Mm

open Outcome StepSystem

namespace MemorySet

def InHeap (ms : MemorySet) (addr : Nat) : Prop :=
  ms.brk_start ≤ addr ∧ addr ≤ ms.brk_start + USER_HEAP_SIZE

/-- The break is in the heap, and the heap in the address space. -/
def BrkInHeap (ms : MemorySet) : Prop :=
  ms.InHeap ms.brk ∧ ms.brk_start + USER_HEAP_SIZE < 2 ^ 64

/-- A request in the heap is met, another one leaves the break alone; neither panics. -/
def BrkAnswers (ms : MemorySet) (brk : Nat) : Prop :=
  ∃ r ms', ms.sys_brk brk = .ok (r, ms') ∧ ms'.BrkInHeap ∧
    (ms.InHeap brk → r = .ok (brk : Int) ∧ ms'.brk = brk) ∧
    (¬ ms.InHeap brk → ms'.brk = ms.brk)

/-- The requests that get such an answer; 0 asks for the break and moves nothing. -/
def BrkPermits (ms : MemorySet) (brk : Nat) : Prop :=
  if brk = 0 then 0 < ms.brk_start ∨ ms.brk = 0 else ms.InHeap brk

instance (ms : MemorySet) (addr : Nat) : Decidable (ms.InHeap addr) :=
  inferInstanceAs (Decidable (_ ∧ _))

instance (ms : MemorySet) (brk : Nat) : Decidable (ms.BrkPermits brk) := by
  unfold BrkPermits
  infer_instance

variable {ms ms' : MemorySet} {brk : Nat} {r : Result}

/-- The wrapping sum is the request again. -/
theorem grown_addr {former : Nat} (hbrk : brk < 2 ^ 64) (hformer : former < 2 ^ 64) :
    (((former : Int) + as_isize ((brk + 2 ^ 64 - former) % 2 ^ 64)) % 2 ^ 64).toNat = brk := by
  unfold as_isize
  split <;> omega

theorem grow_proc_to {grow_size : Int}
    (haddr : (((ms.brk : Int) + grow_size) % 2 ^ 64).toNat = brk)
    (hlimit : ms.brk_start + USER_HEAP_SIZE < 2 ^ 64) :
    ms.grow_proc grow_size =
      if 0 < grow_size then
        if ms.brk_start + USER_HEAP_SIZE < brk then .error (.brkOutOfRange brk)
        else .ok (brk, { ms with brk := brk })
      else if brk < ms.brk_start then .error (.brkOutOfRange brk)
      else .ok (brk, { ms with brk := brk }) := by
  unfold grow_proc
  rw [haddr, Nat.mod_eq_of_lt hlimit]

theorem grow_proc_zero (h : ms.BrkInHeap) : ms.grow_proc 0 = .ok (ms.brk, ms) := by
  obtain ⟨⟨hstart, hend⟩, hlimit⟩ := h
  have haddr : (((ms.brk : Int) + 0) % 2 ^ 64).toNat = ms.brk := by omega
  rw [grow_proc_to haddr hlimit, if_neg (lt_irrefl 0), if_neg (Nat.not_lt.mpr hstart)]

theorem sys_brk_zero (h : ms.BrkInHeap) : ms.sys_brk 0 = .ok (.ok (ms.brk : Int), ms) := by
  unfold sys_brk
  rw [grow_proc_zero h]
  rfl

theorem sys_brk_eq (h : ms.BrkInHeap) (hbrk : brk < 2 ^ 64) (hzero : brk ≠ 0) :
    ms.sys_brk brk =
      if 0 < as_isize ((brk + 2 ^ 64 - ms.brk) % 2 ^ 64) then
        if ms.brk_start + USER_HEAP_SIZE < brk then .error (.brkOutOfRange brk)
        else .ok (.ok (brk : Int), { ms with brk := brk })
      else if brk < ms.brk_start then .error (.brkOutOfRange brk)
      else .ok (.ok (brk : Int), { ms with brk := brk }) := by
  have hmoved : ms.sys_brk brk =
      ms.grow_proc (as_isize ((brk + 2 ^ 64 - ms.brk) % 2 ^ 64)) >>=
        fun p => .ok (.ok (p.1 : Int), p.2) := by
    unfold sys_brk
    rw [grow_proc_zero h, ok_bind]
    exact if_neg hzero
  rw [hmoved, grow_proc_to (grown_addr hbrk (h.1.2.trans_lt h.2)) h.2]
  generalize as_isize ((brk + 2 ^ 64 - ms.brk) % 2 ^ 64) = grow_size
  generalize ms.brk_start + USER_HEAP_SIZE = limit
  split_ifs <;> rfl

theorem sys_brk_inside (h : ms.BrkInHeap) (hzero : brk ≠ 0) (hin : ms.InHeap brk) :
    ms.sys_brk brk = .ok (.ok (brk : Int), { ms with brk := brk }) := by
  rw [sys_brk_eq h (hin.2.trans_lt h.2) hzero]
  rw [if_neg (Nat.not_lt.mpr hin.1), if_neg (Nat.not_lt.mpr hin.2), ite_self]

/-- Outside of the heap the call panics, or the break follows the request. -/
theorem sys_brk_outside (h : ms.BrkInHeap) (hbrk : brk < 2 ^ 64) (hzero : brk ≠ 0)
    (hr : ms.sys_brk brk = .ok (r, ms')) : ms'.brk = brk := by
  rw [sys_brk_eq h hbrk hzero] at hr
  split at hr <;> split at hr <;> cases hr <;> rfl

theorem brkAnswers_iff (h : ms.BrkInHeap) (hbrk : brk < 2 ^ 64) :
    ms.BrkAnswers brk ↔ ms.BrkPermits brk := by
  unfold BrkPermits
  split
  · rename_i hzero
    subst hzero
    have hin : ms.InHeap 0 ↔ ms.brk_start = 0 := by
      simp only [InHeap]
      omega
    constructor
    · rintro ⟨r, ms', hr, _, hmet, _⟩
      rw [sys_brk_zero h] at hr
      cases hr
      rcases Nat.eq_zero_or_pos ms.brk_start with hstart | hstart
      · exact Or.inr (hmet (hin.mpr hstart)).2
      · exact Or.inl hstart
    · intro hquery
      refine ⟨_, ms, sys_brk_zero h, h, fun h0 => ?_, fun _ => rfl⟩
      have hstart := hin.mp h0
      have hzero : ms.brk = 0 := hquery.resolve_left (by omega)
      rw [hzero]
      exact ⟨rfl, rfl⟩
  · rename_i hzero
    constructor
    · rintro ⟨r, ms', hr, _, _, hleft⟩
      by_contra hout
      have hsame := hleft hout
      rw [sys_brk_outside h hbrk hzero hr] at hsame
      exact hout (hsame ▸ h.1)
    · intro hin
      exact ⟨_, _, sys_brk_inside h hzero hin, ⟨hin, h.2⟩, fun _ => ⟨rfl, rfl⟩,
        fun hout => absurd hin hout⟩

theorem BrkInHeap.keeps (h : ms.BrkInHeap) (hk : Keeps ms ms') : ms'.BrkInHeap := by
  unfold BrkInHeap InHeap
  rw [hk.brk, hk.brk_start]
  exact h

end MemorySet

namespace Machine

variable {text : KernelImage} {r : Nat} {ops : List MachineOp}

/-- No call of `sys_brk` asks for a break outside of the caller's heap. -/
def BrkPermitted (m : Machine) : MachineOp → Prop
  | .sys_brk pid brk => m.AtSpace pid fun ms => ms.BrkPermits brk
  | _ => True

instance (m : Machine) (op : MachineOp) : Decidable (m.BrkPermitted op) :=
  match op with
  | .sys_brk pid brk => inferInstanceAs (Decidable (m.AtSpace pid fun ms => ms.BrkPermits brk))
  | .spawn _ | .exec _ _ | .exec_busybox _ _ | .fork _ | .exit _ | .check_lazy _ _
  | .sys_mmap _ _ _ _ _ _ _ | .sys_munmap _ _ _ | .sys_mprotect _ _ _ _ | .user_store _ _ _
  | .write_user _ _ _ _ | .hold | .release _ => inferInstanceAs (Decidable True)

theorem brk_preserves : Preserves BrkPermitted MemorySet.BrkInHeap where
  load {text elf ph ms ph'} h := by
    refine ⟨?_, (load_elf_laid h).heap_limit⟩
    unfold MemorySet.InHeap
    rw [(load_elf_fresh h).1]
    exact ⟨le_refl _, Nat.le_add_right _ _⟩
  fork {text ms ph parent child ph'} h hfork := by
    have hforked := from_copy_on_write_ok hfork
    refine ⟨h.keeps hforked.parent_keeps, ?_⟩
    unfold MemorySet.BrkInHeap MemorySet.InHeap
    rw [hforked.brk, hforked.brk_start]
    exact h
  check_lazy h hlazy := h.keeps (check_lazy_ok hlazy).1
  sys_mmap {m pid ms ms' ph' addr length prot flags fd offset r} _ _ h hmmap := by
    cases r with
    | error e =>
      obtain ⟨rfl, _⟩ := sys_mmap_error hmmap
      exact h
    | ok a =>
      obtain ⟨_, _, f, p, m₁, m₂, _, _, _, _, _, _, rfl⟩ := sys_mmap_ok hmmap
      exact h
  sys_munmap h hmunmap := by
    obtain ⟨m, _, rfl⟩ := sys_munmap_ok hmunmap
    exact h
  sys_brk {m pid ms ms' brk r} hms hC h hbrk := by
    have hpermits : ms.BrkPermits brk := AtSpace.of_space hC hms
    unfold MemorySet.BrkPermits at hpermits
    split at hpermits
    · rename_i hzero
      rw [hzero, MemorySet.sys_brk_zero h] at hbrk
      cases hbrk
      exact h
    · rename_i hzero
      rw [MemorySet.sys_brk_inside h hzero hpermits] at hbrk
      cases hbrk
      exact ⟨hpermits, h.2⟩
  sys_mprotect h hprotect := h.keeps (sys_mprotect_keeps hprotect)

/-- Along such a run the break of every program is in its heap, and the next call gets the right
answer if and only if it is permitted too. -/
theorem brk_in_heap (hops : Guarded step BrkPermitted (boot text r) ops) :
    ∀ m ∈ states step (boot text r) ops, m.Every fun ms => ms.InHeap ms.brk ∧
      ∀ brk < 2 ^ 64, ms.BrkAnswers brk ↔ ms.BrkPermits brk := by
  intro m hm pid ms hms
  have h := brk_preserves.every hops m hm pid ms hms
  exact ⟨h.1, fun brk hbrk => MemorySet.brkAnswers_iff h hbrk⟩

def grow_and_ask : List MachineOp :=
  [.spawn one_page, .sys_brk 0 0x13000, .sys_brk 0 0, .sys_brk 0 0x12000]

theorem brk_in_heap_grown : Guarded step BrkPermitted (boot image 64) grow_and_ask ∧
    ∀ m ∈ states step (boot image 64) grow_and_ask, m.Every fun ms => ms.InHeap ms.brk ∧
      ∀ brk < 2 ^ 64, ms.BrkAnswers brk ↔ ms.BrkPermits brk := by
  have hguarded : Guarded step BrkPermitted (boot image 64) grow_and_ask := by decide +kernel
  exact ⟨hguarded, brk_in_heap hguarded⟩

/-- A break far above the heap is taken, one just above it stops the kernel. -/
theorem brk_leaves_heap :
    (∃ m, run step (boot image 64) [.spawn one_page, .sys_brk 0 (2 ^ 63 + 0x12000)] = .ok m ∧
      ¬ m.Every fun ms => ms.InHeap ms.brk) ∧
    run step (boot image 64) [.spawn one_page, .sys_brk 0 (0x12001 + USER_HEAP_SIZE)] =
      .error (.brkOutOfRange (0x12001 + USER_HEAP_SIZE)) := by
  constructor
  · obtain ⟨m, hm, hspace⟩ : ∃ m, run step (boot image 64)
        [.spawn one_page, .sys_brk 0 (2 ^ 63 + 0x12000)] = .ok m ∧
        Meets (m.space 0) (fun _ => False) fun ms => ¬ ms.InHeap ms.brk :=
      Meets.exists_ok (by decide +kernel)
    obtain ⟨ms, hms, hout⟩ := hspace.exists_ok
    exact ⟨m, hm, fun hevery => hout (hevery 0 ms (space_ok hms))⟩
  · have hpanic : Meets (run step (boot image 64)
        [.spawn one_page, .sys_brk 0 (0x12001 + USER_HEAP_SIZE)])
        (· = .brkOutOfRange (0x12001 + USER_HEAP_SIZE)) fun _ => False := by decide +kernel
    cases hrun : run step (boot image 64)
        [.spawn one_page, .sys_brk 0 (0x12001 + USER_HEAP_SIZE)] with
    | error e =>
      rw [hrun] at hpanic
      exact congrArg Except.error hpanic
    | ok m =>
      rw [hrun] at hpanic
      exact hpanic.elim

end Machine

end MyGOS.Mm
