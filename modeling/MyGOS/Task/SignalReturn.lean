import MyGOS.Task.Signal

/-!
# Signal frames

A delivery pushes a frame that `sys_sigreturn` reads back. `sys_sigreturn`
reads it through `translated_ref`, which does not cross pages, and takes the
whole trap context from it.
-/

namespace MyGOS.Task

open Mm LittleEndian Outcome

namespace TrapContext

variable (cx : TrapContext) (i : Fin 32) (v : BitVec 64)

@[simp] theorem set_x_x_self : (cx.set_x i v).x i = v := Function.update_self ..

theorem set_x_x_of_ne {j : Fin 32} (h : j ≠ i) : (cx.set_x i v).x j = cx.x j :=
  Function.update_of_ne h ..

@[simp] theorem set_x_sepc : (cx.set_x i v).sepc = cx.sepc := rfl

end TrapContext

namespace Signals

/-- The bytes that a delivery takes below the stack pointer. -/
def FRAME : Nat := UContext.SIZE + SigInfo.SIZE + SignalContext.SIZE

/-- The two structures of a frame at `sp`, as the process sees them. -/
structure Frame (mem : UserMemory) (sp : Nat) (sc : SignalContext) (pc : BitVec 64) : Prop where
  context : ∀ i, i < SignalContext.SIZE → mem.view (sp + i) = sc.bytes[i]?
  ucontext : ∀ i, i < UContext.SIZE → mem.view (sp + SignalContext.SIZE + SigInfo.SIZE + i) =
    (UContext.empty.set_greps 1 pc).bytes[i]?

/-- Neither of the structures of a frame at `sp` crosses a page. -/
def Fits (sp : Nat) : Prop :=
  (sp + SignalContext.SIZE + SigInfo.SIZE) % PAGE_SIZE + UContext.SIZE ≤ PAGE_SIZE ∧
    sp % PAGE_SIZE + SignalContext.SIZE ≤ PAGE_SIZE

instance (sp : Nat) : Decidable (Fits sp) := inferInstanceAs (Decidable (_ ∧ _))

/-- What a delivery leaves in the registers and the mask. -/
def entered (s : Signals) (signum : Nat) (sa : SigActionRecord) : Signals :=
  let cx := s.trap_cx.set_x 10 (.ofNat 64 signum)
  let cx := cx.set_x 2 (cx.x 2 - .ofNat 64 UContext.SIZE)
  let ucontext_ptr := cx.x 2
  let cx := cx.set_x 2 (cx.x 2 - .ofNat 64 SigInfo.SIZE)
  let cx := (cx.set_x 11 (cx.x 2)).set_x 12 ucontext_ptr
  let cx := cx.set_x 2 (cx.x 2 - .ofNat 64 SignalContext.SIZE)
  { s with
    trap_cx := { cx.set_x 1 (.ofNat 64 SIGNAL_TRAMPOLINE) with sepc := sa.sa_handler }
    sigmask := (if sa.nodefer then sa.sa_mask else sa.sa_mask.add signum) ||| s.sigmask }

variable {s u : Signals} {mem mem' : UserMemory} {sp : BitVec 64} {sa : SigActionRecord}
  {sc : SignalContext} {pc : BitVec 64} {lo hi : Nat}

theorem toNat_sub_of_le {a : BitVec 64} {n : Nat} (h : n ≤ a.toNat) :
    (a - .ofNat 64 n).toNat = a.toNat - n := by
  have hlt := a.isLt
  have hn : (BitVec.ofNat 64 n).toNat = n := by
    rw [BitVec.toNat_ofNat]
    exact Nat.mod_eq_of_lt (by omega)
  rw [BitVec.toNat_sub_of_le (by rw [BitVec.le_def, hn]; exact h), hn]

/-- The three stack pointers of a delivery. -/
theorem frame_pointers (h : FRAME ≤ sp.toNat) :
    (sp - .ofNat 64 UContext.SIZE).toNat = sp.toNat - UContext.SIZE ∧
      (sp - .ofNat 64 UContext.SIZE - .ofNat 64 SigInfo.SIZE - .ofNat 64 SignalContext.SIZE).toNat =
        sp.toNat - FRAME := by
  simp only [FRAME, UContext.SIZE, SigInfo.SIZE, SignalContext.SIZE] at h ⊢
  have hucontext := toNat_sub_of_le (a := sp) (n := 952) (by omega)
  have hsiginfo := toNat_sub_of_le (a := sp - .ofNat 64 952) (n := 36) (by omega)
  have hcontext := toNat_sub_of_le (a := sp - .ofNat 64 952 - .ofNat 64 36) (n := 568) (by omega)
  omega

@[simp] theorem entered_sp (s : Signals) (signum : Nat) (sa : SigActionRecord) :
    (s.entered signum sa).trap_cx.x 2 = s.trap_cx.x 2 - .ofNat 64 UContext.SIZE -
      .ofNat 64 SigInfo.SIZE - .ofNat 64 SignalContext.SIZE := by
  simp [entered, TrapContext.set_x_x_of_ne]

/-- A delivery to a stack that is mapped. -/
theorem deliver_stack (hstack : mem.ms.Stack lo hi) (hlo : lo + FRAME ≤ (s.trap_cx.x 2).toNat)
    (hhi : (s.trap_cx.x 2).toNat ≤ hi) (signum : Nat) (sa : SigActionRecord) :
    ∃ ph', s.deliver mem signum sa = .ok (s.entered signum sa, ⟨mem.ms, ph'⟩) ∧
      Frame ⟨mem.ms, ph'⟩ ((s.trap_cx.x 2).toNat - FRAME) ⟨s.trap_cx, s.sigmask⟩ s.trap_cx.sepc ∧
      ∀ va, (s.trap_cx.x 2).toNat ≤ va → va < hi → mem.ms.view ph' va = mem.view va := by
  obtain ⟨hucontext, hcontext⟩ := frame_pointers (show FRAME ≤ (s.trap_cx.x 2).toNat by omega)
  generalize hsp : (s.trap_cx.x 2).toNat = sp at *
  have hulen := (UContext.empty.set_greps 1 s.trap_cx.sepc).length_bytes
  have hclen := (SignalContext.mk s.trap_cx s.sigmask).length_bytes
  generalize huc : (UContext.empty.set_greps 1 s.trap_cx.sepc).bytes = uc at hulen
  generalize hsc : (SignalContext.mk s.trap_cx s.sigmask).bytes = sc at hclen
  simp only [FRAME, UContext.SIZE, SigInfo.SIZE, SignalContext.SIZE] at *
  have hune : uc ≠ [] := List.ne_nil_of_length_pos (by omega)
  have hcne : sc ≠ [] := List.ne_nil_of_length_pos (by omega)
  obtain ⟨ph₁, hcopy₁, hview₁⟩ := hstack.copyout mem.ph hune (show lo ≤ sp - 952 by omega)
    (by omega)
  obtain ⟨ph₂, hcopy₂, hview₂⟩ := hstack.copyout ph₁ hcne (show lo ≤ sp - 1556 by omega)
    (by omega)
  refine ⟨ph₂, ?_, ⟨fun i hbyte => ?_, fun i hbyte => ?_⟩, fun va hle hlt => ?_⟩
  · have hout₁ : mem.copyout (s.trap_cx.x 2 - .ofNat 64 952) uc = .ok ⟨mem.ms, ph₁⟩ := by
      rw [UserMemory.copyout, hucontext, hcopy₁]
      rfl
    have hout₂ : UserMemory.copyout ⟨mem.ms, ph₁⟩ (s.trap_cx.x 2 - .ofNat 64 952 - .ofNat 64 36 -
        .ofNat 64 568) sc = .ok ⟨mem.ms, ph₂⟩ := by
      rw [UserMemory.copyout, hcontext, hcopy₂]
      rfl
    simp only [deliver, entered, UContext.SIZE, SigInfo.SIZE, SignalContext.SIZE,
      TrapContext.set_x_x_self, TrapContext.set_x_sepc, huc, hsc,
      TrapContext.set_x_x_of_ne _ _ _ (by decide : (2 : Fin 32) ≠ 10),
      TrapContext.set_x_x_of_ne _ _ _ (by decide : (2 : Fin 32) ≠ 11),
      TrapContext.set_x_x_of_ne _ _ _ (by decide : (2 : Fin 32) ≠ 12), hout₁]
    simp only [bind, Except.bind, hout₂]
    rfl
  · simp only [SignalContext.SIZE] at hbyte
    have hplace : sp - (952 + 36 + 568) + i - (sp - 1556) = i := by omega
    rw [UserMemory.view, hview₂ _ (by omega) (by omega), if_pos (by omega), hplace, hsc]
  · simp only [UContext.SIZE, SigInfo.SIZE, SignalContext.SIZE] at hbyte ⊢
    have hplace : sp - (952 + 36 + 568) + 568 + 36 + i - (sp - 952) = i := by omega
    rw [UserMemory.view, hview₂ _ (by omega) (by omega), if_neg (by omega),
      hview₁ _ (by omega) (by omega), if_pos (by omega), hplace, huc]
  · rw [hview₂ va (by omega) hlt, if_neg (by omega), hview₁ va (by omega) hlt, if_neg (by omega)]
    rfl

theorem object_of_view {ptr : BitVec 64} {l : List UInt8} (hpos : l ≠ [])
    (hpage : ptr.toNat % PAGE_SIZE + l.length ≤ PAGE_SIZE) (huser : ptr.toNat < 2 ^ 39)
    (hview : ∀ i, i < l.length → mem.view (ptr.toNat + i) = l[i]?) :
    mem.object ptr l.length = .ok l := by
  have hlen := List.length_pos_iff.mpr hpos
  have hmapped : mem.ms.translate (floor ptr.toNat) ≠ none := by
    intro hnone
    have hzero := hview 0 hlen
    rw [UserMemory.view, MemorySet.view, Nat.add_zero, hnone, List.getElem?_eq_getElem hlen] at hzero
    cases hzero
  obtain ⟨place, hplace, hobject⟩ := translated_ref_mapped mem.ph hlen hpage huser hmapped
  have heq : mem.ph.object place l.length = l := by
    apply List.ext_getElem?
    intro i
    by_cases hi : i < l.length
    · rw [hobject i hi]
      exact hview i hi
    · rw [List.getElem?_eq_none (by simp [Phys.object]; omega), List.getElem?_eq_none (by omega)]
  rw [UserMemory.object, hplace]
  exact congrArg Except.ok heq

theorem object_crosses {ptr : BitVec 64} {size : Nat} (h : PAGE_SIZE < ptr.toNat % PAGE_SIZE + size)
    (l : List UInt8) : mem.object ptr size ≠ .ok l := by
  rw [UserMemory.object, translated_ref_cross h]
  exact nofun

/-- Where `sys_sigreturn` looks for the `UContext`. -/
theorem ucontext_pointer (huser : sp.toNat + FRAME ≤ 2 ^ 38) :
    (sp + .ofNat 64 SignalContext.SIZE + .ofNat 64 SigInfo.SIZE).toNat =
      sp.toNat + SignalContext.SIZE + SigInfo.SIZE := by
  simp only [FRAME, UContext.SIZE, SigInfo.SIZE, SignalContext.SIZE] at *
  rw [BitVec.toNat_add, BitVec.toNat_add, BitVec.toNat_ofNat, BitVec.toNat_ofNat]
  omega

/-- The return from a frame that is as the delivery left it. -/
theorem sys_sigreturn_frame (h : Frame mem (u.trap_cx.x 2).toNat sc pc)
    (hfits : Fits (u.trap_cx.x 2).toNat) (huser : (u.trap_cx.x 2).toNat + FRAME ≤ 2 ^ 38) :
    u.sys_sigreturn mem =
      .ok { u with trap_cx := { sc.context with sepc := pc }, sigmask := sc.mask } := by
  have hptr := ucontext_pointer huser
  have hulen := (UContext.empty.set_greps 1 pc).length_bytes
  have hclen := sc.length_bytes
  obtain ⟨hufits, hcfits⟩ := hfits
  have hune : (UContext.empty.set_greps 1 pc).bytes ≠ [] :=
    List.ne_nil_of_length_pos (by rw [hulen]; decide)
  have hcne : sc.bytes ≠ [] := List.ne_nil_of_length_pos (by rw [hclen]; decide)
  have hucontext : mem.object (u.trap_cx.x 2 + .ofNat 64 SignalContext.SIZE +
      .ofNat 64 SigInfo.SIZE) UContext.SIZE = .ok (UContext.empty.set_greps 1 pc).bytes := by
    rw [← hulen]
    apply object_of_view hune
    · rw [hptr, hulen]
      exact hufits
    · rw [hptr]
      simp only [FRAME] at huser
      omega
    · rw [hptr, hulen]
      exact h.ucontext
  have hcontext : mem.object (u.trap_cx.x 2) SignalContext.SIZE = .ok sc.bytes := by
    rw [← hclen]
    apply object_of_view hcne
    · rw [hclen]
      exact hcfits
    · omega
    · rw [hclen]
      exact h.context
  have hpc : UContext.greps_of (UContext.empty.set_greps 1 pc).bytes 1 = pc := by
    rw [UContext.greps_of_bytes, UContext.set_greps_self]
  rw [sys_sigreturn]
  simp only [hucontext, hcontext, bind, Except.bind, hpc, SignalContext.of_bytes_bytes]
  rfl

/-- A structure of the frame that crosses a page. -/
theorem sys_sigreturn_crosses (hfits : ¬ Fits (u.trap_cx.x 2).toNat)
    (huser : (u.trap_cx.x 2).toNat + FRAME ≤ 2 ^ 38) (t : Signals) :
    u.sys_sigreturn mem ≠ .ok t := by
  have hptr := ucontext_pointer huser
  intro ht
  rw [sys_sigreturn] at ht
  obtain ⟨l, hucontext, ht⟩ := bind_eq_ok.mp ht
  obtain ⟨l', hcontext, -⟩ := bind_eq_ok.mp ht
  rw [Fits, not_and_or, Nat.not_le, Nat.not_le] at hfits
  rcases hfits with hcross | hcross
  · rw [← hptr] at hcross
    exact object_crosses hcross l hucontext
  · exact object_crosses hcross l' hcontext

/-- What a handler leaves that returns with the stack pointer it was entered with, the frame
untouched. -/
structure Untouched (s u : Signals) (mem umem : UserMemory) (lo hi : Nat) : Prop where
  sp : u.trap_cx.x 2 = s.trap_cx.x 2
  view : ∀ va, lo ≤ va → va < hi → umem.view va = mem.view va

theorem Frame.of_view {sp : Nat} (h : Frame mem sp sc pc)
    (hview : ∀ va, sp ≤ va → va < sp + FRAME → mem'.view va = mem.view va) :
    Frame mem' sp sc pc := by
  constructor
  · intro i hi
    rw [hview _ (Nat.le_add_right sp i)]
    · exact h.context i hi
    · simp only [FRAME, UContext.SIZE, SigInfo.SIZE, SignalContext.SIZE] at *
      omega
  · intro i hi
    rw [hview _ (by omega)]
    · exact h.ucontext i hi
    · simp only [FRAME, UContext.SIZE, SigInfo.SIZE, SignalContext.SIZE] at *
      omega

variable {sigactions : SigActions} {signum : Nat} {s₁ : Signals}

theorem exec_signal_handlers_handler (h : s.take_signal sigactions = .ok (.handler signum sa, s₁)) :
    s.exec_signal_handlers sigactions mem =
      (s₁.deliver mem signum sa).map fun r => (some r.1, r.2) := by
  rw [exec_signal_handlers, h]
  simp only [bind, Except.bind]
  cases s₁.deliver mem signum sa with
  | error e => rfl
  | ok r => rfl

theorem take_loop_keeps (fuel : Nat) {taken : Taken} {t : Signals}
    (h : s.take_loop sigactions fuel = .ok (taken, t)) :
    t.trap_cx = s.trap_cx ∧ t.sigmask = s.sigmask := by
  induction fuel generalizing s with
  | zero => cases h
  | succ fuel ih =>
    rw [take_loop] at h
    split at h
    · cases h
      exact ⟨rfl, rfl⟩
    · split at h
      · dsimp only at h
        split at h
        · have hrest := ih h
          exact hrest
        · split at h <;> cases h <;> exact ⟨rfl, rfl⟩
      · cases h

theorem take_signal_keeps {taken : Taken} (h : s.take_signal sigactions = .ok (taken, s₁)) :
    s₁.trap_cx = s.trap_cx ∧ s₁.sigmask = s.sigmask := by
  rw [take_signal] at h
  split at h
  · cases h
    exact ⟨rfl, rfl⟩
  · exact take_loop_keeps 64 h

/-- `sys_sigreturn` undoes the delivery if and only if no structure of the frame crosses a page. -/
theorem sigreturn_restores_iff (h : s.take_signal sigactions = .ok (.handler signum sa, s₁))
    (hsp : FRAME ≤ (s.trap_cx.x 2).toNat)
    (hstack : mem.ms.Stack ((s.trap_cx.x 2).toNat - FRAME) (s.trap_cx.x 2).toNat) :
    (∃ s' mem', s.exec_signal_handlers sigactions mem = .ok (some s', mem') ∧
      ∀ u umem, Untouched s' u mem' umem ((s.trap_cx.x 2).toNat - FRAME) (s.trap_cx.x 2).toNat →
        ∃ t, u.sys_sigreturn umem = .ok t ∧ t.trap_cx.x = s.trap_cx.x ∧
          t.trap_cx.sepc = s.trap_cx.sepc ∧ t.sigmask = s.sigmask) ↔
      Fits ((s.trap_cx.x 2).toNat - FRAME) := by
  obtain ⟨hcx, hmask⟩ := take_signal_keeps h
  have hexec := @exec_signal_handlers_handler _ mem _ _ _ _ h
  have huser := hstack.user
  obtain ⟨ph', hdeliver, hframe, -⟩ := @deliver_stack s₁ mem _ _ hstack
    (by rw [hcx]; omega) (by rw [hcx]) signum sa
  have hsp' : ((s₁.entered signum sa).trap_cx.x 2).toNat = (s.trap_cx.x 2).toNat - FRAME := by
    rw [entered_sp, hcx]
    exact (frame_pointers hsp).2
  rw [hcx, hmask] at hframe
  constructor
  · rintro ⟨s', mem', hok, hreturn⟩
    rw [hexec, hdeliver] at hok
    cases hok
    obtain ⟨t, ht, -⟩ := hreturn (s₁.entered signum sa) ⟨mem.ms, ph'⟩ ⟨rfl, fun _ _ _ => rfl⟩
    by_contra hfits
    rw [← hsp'] at hfits
    exact sys_sigreturn_crosses hfits (by rw [hsp']; omega) t ht
  · intro hfits
    refine ⟨s₁.entered signum sa, ⟨mem.ms, ph'⟩, by rw [hexec, hdeliver]; rfl, ?_⟩
    rintro u umem ⟨husp, hview⟩
    rw [← hsp', ← husp] at hfits hframe
    have hsum : (u.trap_cx.x 2).toNat + FRAME = (s.trap_cx.x 2).toNat := by
      rw [husp, hsp']
      omega
    refine ⟨_, sys_sigreturn_frame (hframe.of_view fun va hle hlt => ?_) hfits (by omega), rfl, rfl,
      rfl⟩
    exact hview va (by omega) (by omega)

/-- An address space that maps each page to the frame of its number. -/
def flat (ph : Phys) : UserMemory where
  ms := {
    page_table := ⟨0, [], fun _ => some 0, fun _ => some 0, fun v =>
      ⟨v, { v := true, r := true, w := true, u := true }⟩⟩
    map_areas := []
    mmap_manager := .new MMAP_BASE MMAP_BASE
    heap_areas := ⟨.UserHeap, ⟨0, 0, Nat.le_refl 0⟩, .Framed, MemorySet.user_rw, none, 0, ∅⟩
    shm_areas := []
    shm_top := SHM_BASE
    brk_start := 0
    brk := 0
    user_stack_areas := ⟨.UserStack, ⟨0, 0, Nat.le_refl 0⟩, .Framed, MemorySet.user_rw, none, 0, ∅⟩
    user_stack_start := 0
    user_stack_end := 0 }
  ph := ph

theorem flat_stack (ph : Phys) {lo hi : Nat} (hhi : hi ≤ 2 ^ 38) : (flat ph).ms.Stack lo hi := by
  have htranslate : ∀ va, (flat ph).ms.translate (floor va) =
      some ⟨index (floor va), { v := true, r := true, w := true, u := true }⟩ := fun va => rfl
  constructor
  · exact hhi
  · intro va _ _
    rw [htranslate]
    exact nofun
  · intro va va' pte pte' _ hlt _ hlt' hpte hpte' heq
    rw [htranslate] at hpte hpte'
    cases hpte
    cases hpte'
    simp only [index, floor, PAGE_SIZE] at heq ⊢
    omega

/-- A task with `SIGUSR1` pending and a handler for it, its stack pointer at `sp`. -/
def usr1_pending (sp : BitVec 64) : Signals :=
  ⟨⟨fun _ => sp, 0, 0x10000, 0, 0, 0, 0, fun _ => 0⟩, 0, SigSet.of_signum 10⟩

def usr1_action : SigActionRecord := ⟨0x20000, 4, 0, 0⟩

theorem usr1_taken (sp : BitVec 64) : (usr1_pending sp).take_signal (fun _ => usr1_action) =
    .ok (.handler 10 usr1_action, { usr1_pending sp with pending_signals := 0 }) := by
  have hpending : (usr1_pending sp).pending_signals ≠ 0 := (by decide : SigSet.of_signum 10 ≠ 0)
  have hfetch : ((usr1_pending sp).pending_signals.difference (usr1_pending sp).sigmask).fetch =
      some 10 := (by decide : ((SigSet.of_signum 10).difference 0).fetch = some 10)
  have hsub : (usr1_pending sp).pending_signals.sub 10 = 0 :=
    (by decide : (SigSet.of_signum 10).sub 10 = 0)
  have hlt : 10 < 64 := by decide
  have hign : usr1_action.sa_handler.toNat ≠ SIG_IGN := by decide
  have hdfl : usr1_action.sa_handler.toNat ≠ SIG_DFL := by decide
  rw [take_signal, if_neg hpending, take_loop, hfetch]
  simp only [dif_pos hlt, if_neg hign, if_neg hdfl, hsub]

/-- Memory without a frame to allocate, every byte of it `byte`. -/
def uniform (byte : UInt8) : Phys := ⟨⟨0, 0, 0, [], ∅⟩, fun _ _ => byte⟩

/-- The same stack pointer, 512 bytes into a page. -/
theorem sigreturn_panics : ∃ s' mem',
    (usr1_pending 0xefff_f200).exec_signal_handlers (fun _ => usr1_action) (flat (uniform 0)) =
      .ok (some s', mem') ∧ ∀ t, s'.sys_sigreturn mem' ≠ .ok t := by
  have hstack := @flat_stack (uniform 0) (0xefff_f200 - FRAME) 0xefff_f200 (by decide)
  obtain ⟨ph', hdeliver, -⟩ := @deliver_stack { usr1_pending 0xefff_f200 with pending_signals := 0 }
    (flat (uniform 0)) _ _ hstack (by decide) (by decide) 10 usr1_action
  refine ⟨entered { usr1_pending 0xefff_f200 with pending_signals := 0 } 10 usr1_action,
    ⟨(flat (uniform 0)).ms, ph'⟩, ?_, sys_sigreturn_crosses ?_ ?_⟩
  · rw [exec_signal_handlers_handler (usr1_taken _), hdeliver]
    rfl
  · rw [entered_sp]
    decide
  · rw [entered_sp]
    decide

/-- A stack pointer at the end of a page leaves the frame inside that page. -/
theorem sigreturn_restores_usr1 : ∃ s' mem',
    (usr1_pending 0xf000_0000).exec_signal_handlers (fun _ => usr1_action) (flat (uniform 0)) =
      .ok (some s', mem') ∧
    ∀ u umem, Untouched s' u mem' umem (0xf000_0000 - FRAME) 0xf000_0000 →
      ∃ t, u.sys_sigreturn umem = .ok t ∧ t.trap_cx.x = (usr1_pending 0xf000_0000).trap_cx.x ∧
        t.trap_cx.sepc = 0x10000 ∧ t.sigmask = 0 :=
  (sigreturn_restores_iff (usr1_taken 0xf000_0000) (by decide)
    (flat_stack (uniform 0) (by decide))).mpr (by decide)

section Kernel

/-- The bits `SIE`, `SPIE` and `SPP` of `sstatus`. -/
def SSTATUS_KERNEL : BitVec 64 := 0x122

/-- The fields of a trap context that user mode has no access to. -/
def kernel_only (cx : TrapContext) : List (BitVec 64) :=
  [cx.sstatus &&& SSTATUS_KERNEL, cx.kernel_satp, cx.kernel_sp, cx.trap_handler, cx.executor_id]

/-- `sys_sigreturn` keeps the kernel-only fields if and only if user memory holds their values,
256 bytes behind the stack pointer and from 272 bytes on. -/
theorem sigreturn_keeps_kernel_iff (u : Signals) (mem : UserMemory) :
    (∀ t, u.sys_sigreturn mem = .ok t → kernel_only t.trap_cx = kernel_only u.trap_cx) ↔
      ∀ uc l, mem.object (u.trap_cx.x 2 + .ofNat 64 SignalContext.SIZE + .ofNat 64 SigInfo.SIZE)
          UContext.SIZE = .ok uc → mem.object (u.trap_cx.x 2) SignalContext.SIZE = .ok l →
        [word l 256 &&& SSTATUS_KERNEL, word l 272, word l 280, word l 288, word l 296] =
          kernel_only u.trap_cx := by
  constructor
  · intro h uc l huc hl
    apply h { u with
      trap_cx := { TrapContext.of_bytes l with sepc := UContext.greps_of uc 1 }
      sigmask := word l 560 }
    rw [sys_sigreturn, huc]
    simp only [bind, Except.bind, hl]
    rfl
  · intro h t ht
    rw [sys_sigreturn] at ht
    obtain ⟨uc, huc, ht⟩ := bind_eq_ok.mp ht
    obtain ⟨l, hl, ht⟩ := bind_eq_ok.mp ht
    cases ht
    exact h uc l huc hl

/-- A return through a stack of ones. -/
theorem sigreturn_takes_kernel : ∃ t,
    (usr1_pending 0xefff_e000).sys_sigreturn (flat (uniform 0xff)) = .ok t ∧
      t.trap_cx.kernel_satp = 0xffff_ffff_ffff_ffff ∧
      kernel_only t.trap_cx ≠ kernel_only (usr1_pending 0xefff_e000).trap_cx :=
  Meets.exists_ok (by decide +kernel)

end Kernel

end Signals

end MyGOS.Task
