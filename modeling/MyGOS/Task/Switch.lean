import MyGOS.Basic
import MyGOS.Lib.RiscV
import Mathlib.Data.Fin.VecNotation
import Mathlib.Tactic.FinCases
import Mathlib.Data.Fintype.Basic

/-!
# Switching from one kernel stack to another

`__switch` leaves the registers that a function keeps for its caller in the
context of the thread that calls it, and takes those of the next: a task, or the
loop of a hart. Each thread finds what it left, on whatever hart it goes on.
-/

namespace MyGOS.Task

open RiscV Outcome StepSystem

abbrev s0 : Reg := 8
abbrev s1 : Reg := 9
abbrev s2 : Reg := 18
abbrev s3 : Reg := 19
abbrev s4 : Reg := 20
abbrev s5 : Reg := 21
abbrev s6 : Reg := 22
abbrev s7 : Reg := 23
abbrev s8 : Reg := 24
abbrev s9 : Reg := 25
abbrev s10 : Reg := 26
abbrev s11 : Reg := 27

structure TaskContext where
  ra : Word
  sp : Word
  s : Fin 12 → Word

/-- The registers of `s`. -/
def s_reg : Fin 12 → Reg := ![s0, s1, s2, s3, s4, s5, s6, s7, s8, s9, s10, s11]

def switch_out : List Instr :=
  [.sd ra 0 a0, .sd sp 1 a0, .sd s0 2 a0, .sd s1 3 a0, .sd s2 4 a0, .sd s3 5 a0, .sd s4 6 a0,
    .sd s5 7 a0, .sd s6 8 a0, .sd s7 9 a0, .sd s8 10 a0, .sd s9 11 a0, .sd s10 12 a0, .sd s11 13 a0]

/-- `ret` is a jump to `ra`. -/
def switch_in : List Instr :=
  [.ld ra 0 a1, .ld sp 1 a1, .ld s0 2 a1, .ld s1 3 a1, .ld s2 4 a1, .ld s3 5 a1, .ld s4 6 a1,
    .ld s5 7 a1, .ld s6 8 a1, .ld s7 9 a1, .ld s8 10 a1, .ld s9 11 a1, .ld s10 12 a1, .ld s11 13 a1,
    .jr ra]

def __switch : List Instr := switch_out ++ switch_in

namespace TaskContext

/-- The context in its words, as `repr(C)` lays it out. -/
def of_slots (k : Fin 14 → Word) : TaskContext := ⟨k 0, k 1, fun i => k ⟨2 + i, by omega⟩⟩

def slots (cx : TaskContext) (i : Fin 14) : Word :=
  if i = 0 then cx.ra else if i = 1 then cx.sp else cx.s (Fin.ofNat 12 (i - 2))

def of_hart (h : Hart) : TaskContext := ⟨h.x RiscV.ra, h.x RiscV.sp, fun i => h.x (s_reg i)⟩

/-- `readied_for_switching`: the task starts in `trap_return`. -/
def readied_for_switching (trap_return kstack_ptr : Word) : TaskContext :=
  ⟨trap_return, kstack_ptr, fun _ => 0⟩

theorem of_slots_slots (cx : TaskContext) : of_slots cx.slots = cx := by
  have hs : (fun i : Fin 12 => cx.slots ⟨2 + i, by omega⟩) = cx.s := by
    funext i
    fin_cases i <;> rfl
  rw [of_slots, hs]
  rfl

end TaskContext

/-- The registers of a context, and their places. -/
def callee_saved : List Reg := [ra, sp, s0, s1, s2, s3, s4, s5, s6, s7, s8, s9, s10, s11]

def cx_slot (r : Reg) : Fin 14 := Fin.ofNat 14 (callee_saved.idxOf r)

theorem switch_out_eq : switch_out = callee_saved.map fun r => .sd r (cx_slot r) a0 := rfl

theorem switch_in_eq :
    switch_in = (callee_saved.map fun r => .ld r (cx_slot r) a1) ++ [.jr ra] := rfl

theorem cx_slot_inj : ∀ r ∈ callee_saved, ∀ r' ∈ callee_saved, cx_slot r = cx_slot r' → r = r' := by
  decide

/-- The slots of a context by their registers. -/
theorem TaskContext.of_slots_eq {k : Fin 14 → Word} {v : Reg → Word}
    (h : ∀ r ∈ callee_saved, k (cx_slot r) = v r) :
    of_slots k = ⟨v RiscV.ra, v RiscV.sp, fun i => v (s_reg i)⟩ := by
  have hs : ∀ i, s_reg i ∈ callee_saved ∧ cx_slot (s_reg i) = ⟨2 + i, by omega⟩ := by decide
  unfold of_slots
  congr
  · exact h RiscV.ra (by decide)
  · exact h RiscV.sp (by decide)
  · funext i
    obtain ⟨hmem, hslot⟩ := hs i
    rw [← h _ hmem, hslot]

section Code

variable {w : Window 14} {h : Hart} {k : Fin 14 → Word}

theorem switch_out_run (hsatp : h.csr .satp = w.token) (ha0 : h.x a0 = w.va) :
    ∃ k', run (execute w.port) (h, k) switch_out = .ok (h, k') ∧
      TaskContext.of_slots k' = .of_hart h := by
  obtain ⟨k', hrun, hstored⟩ := Window.run_sd cx_slot callee_saved k hsatp ha0 cx_slot_inj
  refine ⟨k', ?_, TaskContext.of_slots_eq hstored.reg⟩
  rw [switch_out_eq]
  exact hrun

theorem switch_in_run (hsatp : h.csr .satp = w.token) (ha1 : h.x a1 = w.va) :
    ∃ h', run (execute w.port) (h, k) switch_in = .ok (h', k) ∧
      TaskContext.of_hart h' = .of_slots k ∧ h'.pc = (TaskContext.of_slots k).ra ∧
      h'.csr = h.csr := by
  obtain ⟨x, hrun, hloaded⟩ :=
    Window.run_ld cx_slot callee_saved k hsatp ha1 (by decide) (by decide)
  have hcx : TaskContext.of_slots k = .of_hart { h with x := x } :=
    TaskContext.of_slots_eq fun r hr => (hloaded.reg r hr).symm
  refine ⟨{ h with x := x, pc := x ra }, ?_, hcx.symm, ?_, rfl⟩
  · rw [switch_in_eq, run_append hrun]
    rfl
  · rw [hcx]
    rfl

end Code

/-- The contexts of the threads, all in the kernel's address space, none in another. -/
structure SwitchPlaces (κ : Type) where
  translate : Word → Word → Option Word
  token : Word
  window : κ → Window 14
  in_kernel : ∀ k, (window k).token = token
  mapped : ∀ k, (window k).Mapped translate
  apart : ∀ k l, k ≠ l → (window k).Apart (window l)

/-- The harts, the memory, and the thread that each hart runs. -/
structure Threads (ι κ : Type) where
  harts : ι → Hart
  memory : Memory
  current : ι → κ

/-- A thread leaves anything in the registers; a new context is written for a thread that runs
nowhere; a thread switches to another, by `schedule` or by `run_task`. -/
inductive ThreadOp (ι : Type) {κ : Type} (p : SwitchPlaces κ) where
  | compute (i : ι) (h : Hart)
  | ready (k : κ) (trap_return kstack_ptr : Word)
  | store (a : {a : Word // ∀ k (j : Fin 14), a ≠ place (p.window k).pa j}) (v : Word)
  | switch (i : ι) (k : κ)

inductive SwitchStop where
  | fault (e : Fault)
  | unready

/-- What a thread finds in its registers, and where it goes on. -/
inductive Found where
  | regs (cx : TaskContext)
  | resumed (pc : Word)
  | nothing

section Machines

variable {ι κ : Type} {p : SwitchPlaces κ}

/-- A context for each thread. -/
structure ThreadContexts (ι κ : Type) where
  contexts : κ → TaskContext
  current : ι → κ

section Steps

variable [Fintype ι] [DecidableEq ι] [DecidableEq κ]

def thread_step (s : Threads ι κ) : ThreadOp ι p → Except SwitchStop (Threads ι κ × Found)
  | .compute i h =>
    let h' := h.set_csr .satp ((s.harts i).csr .satp)
    .ok ({ s with harts := Function.update s.harts i h' }, .regs (.of_hart (s.harts i)))
  | .ready k trap_return kstack_ptr =>
    if ∃ i, s.current i = k then .error .unready
    else
      let cx := TaskContext.readied_for_switching trap_return kstack_ptr
      .ok ({ s with memory := (p.window k).put s.memory cx.slots }, .nothing)
  | .store a v => .ok ({ s with memory := Function.update s.memory a v }, .nothing)
  | .switch i k =>
    if ∃ j, s.current j = k then .error .unready
    else
      let h := ((s.harts i).set_x a0 (p.window (s.current i)).va).set_x a1 (p.window k).va
      match run (execute (physical p.translate)) (h, s.memory) __switch with
      | .ok (h, m) => .ok (⟨Function.update s.harts i h, m, Function.update s.current i k⟩,
          .resumed h.pc)
      | .error e => .error (.fault e)

/-- The same with registers of its own for each thread. -/
def coroutine_step (v : ThreadContexts ι κ) :
    ThreadOp ι p → Except SwitchStop (ThreadContexts ι κ × Found)
  | .compute i h =>
    .ok ({ v with contexts := Function.update v.contexts (v.current i) (.of_hart h) },
      .regs (v.contexts (v.current i)))
  | .ready k trap_return kstack_ptr =>
    if ∃ i, v.current i = k then .error .unready
    else
      let cx := TaskContext.readied_for_switching trap_return kstack_ptr
      .ok ({ v with contexts := Function.update v.contexts k cx }, .nothing)
  | .store _ _ => .ok (v, .nothing)
  | .switch i k =>
    if ∃ j, v.current j = k then .error .unready
    else .ok ({ v with current := Function.update v.current i k }, .resumed (v.contexts k).ra)

end Steps

/-- The harts and the memory have the contexts. -/
structure Keeps (p : SwitchPlaces κ) (s : Threads ι κ) (v : ThreadContexts ι κ) : Prop where
  current : s.current = v.current
  stopped : ∀ k, (∀ i, v.current i ≠ k) →
    TaskContext.of_slots ((p.window k).get s.memory) = v.contexts k
  running : ∀ i, TaskContext.of_hart (s.harts i) = v.contexts (v.current i)
  satp : ∀ i, (s.harts i).csr .satp = p.token
  single : Function.Injective v.current

/-- The registers that `__switch` takes its arguments in are not saved. -/
theorem TaskContext.of_hart_arguments (h : Hart) (v v' : Word) :
    of_hart ((h.set_x a0 v).set_x a1 v') = of_hart h := by
  have hs : ∀ i, s_reg i ≠ a0 ∧ s_reg i ≠ a1 := by decide
  have hx : ∀ r : Reg, r ≠ a0 → r ≠ a1 → ((h.set_x a0 v).set_x a1 v').x r = h.x r := by
    intro r hr hr'
    rw [Hart.set_x_of_ne _ _ hr', Hart.set_x_of_ne _ _ hr]
  unfold of_hart
  rw [hx _ (by decide) (by decide), hx _ (by decide) (by decide)]
  congr
  exact funext fun i => hx _ (hs i).1 (hs i).2

section Runs

variable {s : Threads ι κ} {v : ThreadContexts ι κ}

/-- Memory that changes in the context of a thread that runs nowhere. -/
theorem Keeps.edited [DecidableEq κ] (hk : Keeps p s v) {k : κ} (hcurrent : ∀ i, v.current i ≠ k)
    {m : Memory} {cx : TaskContext}
    (hmem : ∀ l, l ≠ k → (p.window l).get m = (p.window l).get s.memory)
    (hcx : TaskContext.of_slots ((p.window k).get m) = cx) : Keeps p { s with memory := m }
      { v with contexts := Function.update v.contexts k cx } := by
  refine ⟨hk.current, fun l hl => ?_, fun i => ?_, hk.satp, hk.single⟩
  · dsimp only
    obtain rfl | hne := eq_or_ne l k
    · rw [hcx, Function.update_self]
    · rw [hmem l hne, Function.update_of_ne hne]
      exact hk.stopped l hl
  · dsimp only
    rw [Function.update_of_ne (hcurrent i)]
    exact hk.running i

variable [Fintype ι] [DecidableEq ι] [DecidableEq κ]

/-- The thread that is left keeps its registers, and the next has its own. -/
theorem Keeps.switch_step (hk : Keeps p s v) (i : ι) (k : κ) :
    Follows (fun _ => False) (Keeps p) (thread_step s (.switch (p := p) i k))
      (coroutine_step v (.switch (p := p) i k)) := by
  unfold thread_step coroutine_step
  dsimp only
  rw [hk.current]
  split
  · exact .inr rfl
  · next hfree =>
    push Not at hfree
    obtain ⟨h, hh⟩ : ∃ h, h = ((s.harts i).set_x a0 (p.window (v.current i)).va).set_x a1
      (p.window k).va := ⟨_, rfl⟩
    have hcsr : h.csr .satp = p.token := by simp [hh, hk.satp i]
    have ha0 : h.x a0 = (p.window (v.current i)).va := by simp (disch := decide) [hh]
    have ha1 : h.x a1 = (p.window k).va := by simp (disch := decide) [hh]
    have hregs : TaskContext.of_hart h = v.contexts (v.current i) := by
      rw [hh, TaskContext.of_hart_arguments, hk.running]
    obtain ⟨left, hout, hleft⟩ := @switch_out_run _ h ((p.window (v.current i)).get s.memory)
      (hcsr.trans (p.in_kernel _).symm) ha0
    obtain ⟨m, hm⟩ : ∃ m, m = (p.window (v.current i)).put s.memory left := ⟨_, rfl⟩
    have hmem : ∀ l, l ≠ v.current i → (p.window l).get m = (p.window l).get s.memory := by
      intro l hl
      rw [hm]
      exact Window.get_put_of_apart (p.apart l _ hl) ..
    obtain ⟨h', hin, hregs', hpc, hcsr'⟩ := @switch_in_run _ h ((p.window k).get m)
      (hcsr.trans (p.in_kernel _).symm) ha1
    have hnext : TaskContext.of_slots ((p.window k).get m) = v.contexts k := by
      rw [hmem k (hfree i).symm]
      exact hk.stopped k hfree
    have hrun : run (execute (physical p.translate)) (h, s.memory) __switch = .ok (h', m) := by
      have hin' := Window.run_physical (p.mapped k) hin
      rw [Window.put_get] at hin'
      have hout' := Window.run_physical (p.mapped _) hout
      rw [← hm] at hout'
      exact (run_append hout' _).trans hin'
    rw [← hh, hrun]
    refine follows_ok_ok.mpr ⟨?_, rfl, fun l hl => ?_, fun j => ?_, fun j => ?_, ?_⟩
    · rw [hpc, hnext]
    · dsimp only at hl ⊢
      obtain rfl | hne := eq_or_ne l (v.current i)
      · rw [hm, Window.get_put, hleft, hregs]
      · rw [hmem l hne]
        apply hk.stopped
        intro j hj
        obtain rfl | hji := eq_or_ne j i
        · exact hne hj.symm
        · exact hl j ((Function.update_of_ne hji ..).trans hj)
    · dsimp only
      obtain rfl | hji := eq_or_ne j i
      · rw [Function.update_self, Function.update_self, hregs', hnext]
      · rw [Function.update_of_ne hji, Function.update_of_ne hji]
        exact hk.running j
    · dsimp only
      obtain rfl | hji := eq_or_ne j i
      · rw [Function.update_self, hcsr', hcsr]
      · rw [Function.update_of_ne hji]
        exact hk.satp j
    · intro a b hab
      dsimp only at hab
      obtain rfl | ha := eq_or_ne a i
      · obtain rfl | hb := eq_or_ne b a
        · rfl
        · rw [Function.update_self, Function.update_of_ne hb] at hab
          exact absurd hab.symm (hfree b)
      · rw [Function.update_of_ne ha] at hab
        obtain rfl | hb := eq_or_ne b i
        · rw [Function.update_self] at hab
          exact absurd hab (hfree a)
        · rw [Function.update_of_ne hb] at hab
          exact hk.single hab

theorem Keeps.step (hk : Keeps p s v) (op : ThreadOp ι p) :
    Follows (fun _ => False) (Keeps p) (thread_step s op) (coroutine_step v op) := by
  cases op with
  | switch i k => exact hk.switch_step i k
  | compute i h =>
    refine follows_ok_ok.mpr ⟨congrArg Found.regs (hk.running i), hk.current, fun k hfree => ?_,
      fun j => ?_, fun j => ?_, hk.single⟩
    · dsimp only
      rw [Function.update_of_ne (hfree i).symm]
      exact hk.stopped k hfree
    · dsimp only
      obtain rfl | hji := eq_or_ne j i
      · rw [Function.update_self, Function.update_self]
        rfl
      · rw [Function.update_of_ne hji, Function.update_of_ne fun heq => hji (hk.single heq)]
        exact hk.running j
    · dsimp only
      obtain rfl | hji := eq_or_ne j i
      · rw [Function.update_self, Hart.set_csr_self, hk.satp]
      · rw [Function.update_of_ne hji, hk.satp]
  | ready k trap_return kstack_ptr =>
    unfold thread_step coroutine_step
    dsimp only
    rw [hk.current]
    split
    · exact .inr rfl
    · next hfree =>
      push Not at hfree
      have hedited := hk.edited hfree (fun l hl => Window.get_put_of_apart (p.apart l k hl) ..)
        ((congrArg TaskContext.of_slots (Window.get_put ..)).trans
          (TaskContext.of_slots_slots (.readied_for_switching trap_return kstack_ptr)))
      rw [hk.current] at hedited
      exact follows_ok_ok.mpr ⟨rfl, hedited⟩
  | store a w =>
    refine follows_ok_ok.mpr ⟨rfl, hk.current, fun k hfree => ?_, hk.running, hk.satp, hk.single⟩
    dsimp only
    rw [Window.get_update (a.2 k)]
    exact hk.stopped k hfree

/-- Whatever the harts switch between, each thread finds the registers that it left and goes on
where it stopped. -/
theorem coroutines (hk : Keeps p s v) (ops : List (ThreadOp ι p)) :
    Follows (fun _ => False) (Keeps p) (observe thread_step s ops)
      (observe coroutine_step v ops) :=
  Follows.observe (fun _ _ op hk _ => hk.step op) hk (Guarded.of_forall (fun _ _ => trivial) ops s)

end Runs

section OneHart

/-- The loop of a hart, and a task. -/
def switch_window (k : Bool) : Window 14 where
  token := 8
  va := if k then 0x80a00100 else 0x80a00000
  pa := if k then 0x80a00100 else 0x80a00000
  size := by decide

def two_threads : SwitchPlaces Bool where
  translate _ va := some va
  token := 8
  window := switch_window
  in_kernel _ := rfl
  mapped _ _ := rfl
  apart k l hne := by
    have hapart : (switch_window false).Apart (switch_window true) :=
      Window.apart_of_le (by decide) (by decide)
    cases k with
    | false =>
      cases l with
      | false => exact absurd rfl hne
      | true => exact hapart
    | true =>
      cases l with
      | false => exact hapart.symm
      | true => exact absurd rfl hne

def idle_hart : Threads Unit Bool where
  harts _ := ⟨.of fun _ => 0, fun _ => 0, fun c => if c = .satp then 8 else 0, 0⟩
  memory _ := 0
  current _ := false

def idle_contexts : ThreadContexts Unit Bool where
  contexts _ := ⟨0, 0, fun _ => 0⟩
  current _ := false

theorem keeps_idle : Keeps two_threads idle_hart idle_contexts where
  current := rfl
  stopped _ _ := rfl
  running i := by
    have hx : (Registers.of fun _ => 0) = ⟨fun _ => 0, rfl⟩ := Registers.of_eq fun _ _ => rfl
    unfold TaskContext.of_hart idle_hart
    rw [hx]
    rfl
  satp _ := rfl
  single _ _ _ := rfl

theorem coroutines_idle : Keeps two_threads idle_hart idle_contexts ∧
    ∀ ops : List (ThreadOp Unit two_threads), Follows (fun _ => False) (Keeps two_threads)
      (observe thread_step idle_hart ops) (observe coroutine_step idle_contexts ops) :=
  ⟨keeps_idle, coroutines keeps_idle⟩

end OneHart

end Machines

end MyGOS.Task
