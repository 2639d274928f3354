import MyGOS.Task.Trampoline
import Mathlib.Data.Fintype.Basic

/-!
# Every task has a hart of its own

User programs compute on the harts and trap to the kernel, which edits trap
contexts and sends each hart to whatever task comes next. What a program sees
is what it would see if the hart were its own: a machine with one trap context
for each task, in which nothing but the program and the edits of its context
changes its registers. The kernel finds the number of the hart in `tp`.
-/

namespace MyGOS.Task

open RiscV Outcome StepSystem

/-- The trap contexts of the tasks, each mapped in its own address space, in frames of its own. -/
structure TrapPlaces (τ : Type) where
  translate : Word → Word → Option Word
  window : τ → Window 70
  mapped : ∀ t, (window t).Mapped translate
  apart : ∀ t u, t ≠ u → (window t).Apart (window u)

/-- A word that is in no trap context. -/
def TrapPlaces.Free {τ : Type} (p : TrapPlaces τ) (a : Word) : Prop :=
  ∀ t (i : Fin 70), a ≠ place (p.window t).pa i

/-- What a user program computes with. -/
structure UserRegs where
  x : Registers
  f : Reg → Word
  pc : Word

def user_regs (h : Hart) : UserRegs := ⟨h.x, h.f, h.pc⟩

def set_user_regs (h : Hart) (u : UserRegs) : Hart := { h with x := u.x, f := u.f, pc := u.pc }

/-- The harts, the memory, and the task whose program a hart runs, none in the kernel. -/
structure Cpus (ι τ : Type) where
  harts : ι → Hart
  memory : Memory
  running : ι → Option τ

/-- What the harts do. A program computes any function of its registers; kernel code leaves
anything in the registers except `tp`, and memory outside the trap contexts is anybody's. -/
inductive CpuOp (ι : Type) {τ : Type} (p : TrapPlaces τ) where
  | user (i : ι) (g : UserRegs → UserRegs)
  | trap (i : ι)
  | kernel (i : ι) (h : Hart)
  | edit (t : τ) (g : TrapContext → TrapContext)
  | store (a : {a : Word // p.Free a}) (v : Word)
  | trap_return (i : ι) (t : τ)

inductive CpuStop where
  | fault (e : Fault)
  | unready

/-- What is seen of a step: the registers a program starts from, where the kernel is entered, the
number of the hart, and the context before an edit. -/
inductive Shown where
  | regs (u : UserRegs)
  | landed (satp sp tp pc : Word)
  | hart (tp : Word)
  | context (cx : TrapContext)
  | nothing

section Machines

variable {ι τ : Type} {p : TrapPlaces τ}

section Steps

variable [Fintype ι] [DecidableEq ι] [DecidableEq τ]

/-- The code of the trampoline on the harts and the memory. -/
def cpu_step (s : Cpus ι τ) : CpuOp ι p → Except CpuStop (Cpus ι τ × Shown)
  | .user i g =>
    match s.running i with
    | some _ =>
      let h := s.harts i
      .ok ({ s with harts := Function.update s.harts i (set_user_regs h (g (user_regs h))) },
        .regs (user_regs h))
    | none => .error .unready
  | .trap i =>
    match s.running i with
    | some _ =>
      match run (execute (physical p.translate)) ((s.harts i).trap, s.memory) user_trapvec with
      | .ok (h, m) => .ok (⟨Function.update s.harts i h, m, Function.update s.running i none⟩,
          .landed (h.csr .satp) (h.x sp) (h.x tp) h.pc)
      | .error e => .error (.fault e)
    | none => .error .unready
  | .kernel i h =>
    match s.running i with
    | some _ => .error .unready
    | none => .ok ({ s with harts := Function.update s.harts i (h.set_x tp ((s.harts i).x tp)) },
        .hart ((s.harts i).x tp))
  | .edit t g =>
    if ∃ i, s.running i = some t then .error .unready
    else
      let cx := TrapContext.of_slots ((p.window t).get s.memory)
      .ok ({ s with memory := (p.window t).put s.memory (g cx).slots }, .context cx)
  | .store a v => .ok ({ s with memory := Function.update s.memory a v }, .nothing)
  | .trap_return i t =>
    if s.running i = none ∧ ¬ ∃ j, s.running j = some t then
      let h := ((s.harts i).set_x a0 (p.window t).va).set_x a1 (p.window t).token
      match run (execute (physical p.translate)) (h, s.memory) user_trapret with
      | .ok (h, m) =>
        .ok (⟨Function.update s.harts i h, m, Function.update s.running i (some t)⟩, .nothing)
      | .error e => .error (.fault e)
    else .error .unready

/-- A machine with one context for each task. -/
structure VirtualCpus (ι τ : Type) where
  contexts : τ → TrapContext
  running : ι → Option τ

namespace TrapContext

def user_regs (cx : TrapContext) : UserRegs := ⟨.of cx.x, cx.freg, cx.sepc⟩

/-- The context of a program that has come to these registers. -/
def computed (cx : TrapContext) (u : UserRegs) : TrapContext :=
  { cx with x := fun r => if r = x0 then cx.x x0 else u.x r, freg := u.f, sepc := u.pc }

end TrapContext

/-- `id i` is the number of the hart `i`. -/
def virtual_step (id : ι → Word) (v : VirtualCpus ι τ) :
    CpuOp ι p → Except CpuStop (VirtualCpus ι τ × Shown)
  | .user i g =>
    match v.running i with
    | some t =>
      let u := (v.contexts t).user_regs
      .ok ({ v with contexts := Function.update v.contexts t ((v.contexts t).computed (g u)) },
        .regs u)
    | none => .error .unready
  | .trap i =>
    match v.running i with
    | some t =>
      let cx := v.contexts t
      .ok (⟨Function.update v.contexts t { cx with sstatus := Hart.trap_status cx.sstatus },
        Function.update v.running i none⟩,
        .landed cx.kernel_satp cx.kernel_sp (id i) cx.trap_handler)
    | none => .error .unready
  | .kernel i _ =>
    match v.running i with
    | some _ => .error .unready
    | none => .ok (v, .hart (id i))
  | .edit t g =>
    if ∃ i, v.running i = some t then .error .unready
    else .ok ({ v with contexts := Function.update v.contexts t (g (v.contexts t)) },
      .context (v.contexts t))
  | .store _ _ => .ok (v, .nothing)
  | .trap_return i t =>
    if v.running i = none ∧ ¬ ∃ j, v.running j = some t then
      let cx := v.contexts t
      .ok (⟨Function.update v.contexts t
        { cx with sstatus := Hart.sret_status cx.sstatus, executor_id := id i },
        Function.update v.running i (some t)⟩, .nothing)
    else .error .unready

end Steps

/-- The program runs on the hart: its registers are there, the rest of its context in memory. -/
structure InUser (w : Window 70) (h : Hart) (kept cx : TrapContext) : Prop where
  cx : cx = { kept.computed (user_regs h) with sstatus := h.csr .sstatus }
  satp : h.csr .satp = w.token
  sscratch : h.csr .sscratch = w.va

/-- The harts and the memory have the contexts. -/
structure Represents (p : TrapPlaces τ) (id : ι → Word) (s : Cpus ι τ) (v : VirtualCpus ι τ) :
    Prop where
  running : s.running = v.running
  stopped : ∀ t, (∀ i, v.running i ≠ some t) →
    TrapContext.of_slots ((p.window t).get s.memory) = v.contexts t
  user : ∀ i t, v.running i = some t → InUser (p.window t) (s.harts i)
    (.of_slots ((p.window t).get s.memory)) (v.contexts t)
  owner : ∀ i t, v.running i = some t → (v.contexts t).executor_id = id i
  kernel : ∀ i, v.running i = none → (s.harts i).x tp = id i
  single : ∀ i j t, v.running i = some t → v.running j = some t → i = j

section InUser

variable {w : Window 70} {h : Hart} {kept cx : TrapContext}

theorem InUser.user_regs_eq (hu : InUser w h kept cx) : cx.user_regs = user_regs h := by
  rw [hu.cx]
  unfold TrapContext.user_regs TrapContext.computed user_regs
  dsimp only
  rw [Registers.of_eq fun r hr => if_neg hr]

/-- The program goes on. -/
theorem InUser.computed (hu : InUser w h kept cx) (u : UserRegs) :
    InUser w (set_user_regs h u) kept (cx.computed u) := by
  refine ⟨?_, hu.satp, hu.sscratch⟩
  rw [hu.cx]
  rfl

/-- What `user_trapvec` saves. -/
theorem InUser.saved (hu : InUser w h kept cx) :
    kept.saved h.trap = { cx with sstatus := Hart.trap_status cx.sstatus } := by
  rw [hu.cx]
  unfold TrapContext.saved TrapContext.computed Hart.trap user_regs
  simp

/-- The kernel is entered where the context says. -/
theorem InUser.landed (hu : InUser w h kept cx) {h' : Hart} (hl : Landed h' kept) :
    Landed h' cx := by
  rw [hu.cx]
  exact ⟨hl.satp, hl.sp, hl.tp, hl.pc⟩

theorem Resumed.in_user (hr : Resumed w h kept) :
    InUser w h kept { kept with sstatus := Hart.sret_status kept.sstatus } := by
  refine ⟨?_, hr.satp, hr.sscratch⟩
  have hx : (fun r => if r = x0 then kept.x x0 else h.x r) = kept.x := by
    funext r
    split
    · next heq => rw [heq]
    · next hne => exact hr.x r hne
  unfold TrapContext.computed user_regs
  dsimp only
  rw [hx, hr.f, hr.pc, hr.sstatus]

end InUser

section Runs

variable {id : ι → Word} {s : Cpus ι τ} {v : VirtualCpus ι τ} {i : ι} {t : τ}

/-- A step on one hart and the context of one task, which has no other hart. -/
theorem Represents.moved [DecidableEq ι] [DecidableEq τ] (hr : Represents p id s v) {h : Hart}
    {m : Memory} {cx : TrapContext} {x : Option τ} (hi : ∀ u, v.running i = some u → u = t)
    (ht : ∀ j, v.running j = some t → j = i)
    (hmem : ∀ u, u ≠ t → (p.window u).get m = (p.window u).get s.memory)
    (hx : x = none ∧ TrapContext.of_slots ((p.window t).get m) = cx ∧ h.x tp = id i ∨
      x = some t ∧ InUser (p.window t) h (.of_slots ((p.window t).get m)) cx ∧
        cx.executor_id = id i) :
    Represents p id ⟨Function.update s.harts i h, m, Function.update s.running i x⟩
      ⟨Function.update v.contexts t cx, Function.update v.running i x⟩ := by
  have hrunning : ∀ j u, Function.update v.running i x j = some u →
      j = i ∧ u = t ∧ x = some t ∨ j ≠ i ∧ u ≠ t ∧ v.running j = some u := by
    intro j u hj
    obtain rfl | hne := eq_or_ne j i
    · rw [Function.update_self] at hj
      obtain ⟨rfl, -⟩ | ⟨rfl, -⟩ := hx
      · cases hj
      · cases hj
        exact .inl ⟨rfl, rfl, rfl⟩
    · rw [Function.update_of_ne hne] at hj
      refine .inr ⟨hne, ?_, hj⟩
      rintro rfl
      exact hne (ht j hj)
  constructor
  · exact congrArg (Function.update · i x) hr.running
  · intro u hu
    dsimp only at hu ⊢
    obtain rfl | hne := eq_or_ne u t
    · obtain ⟨-, hcx, -⟩ | ⟨rfl, -⟩ := hx
      · rw [hcx, Function.update_self]
      · exact absurd (Function.update_self ..) (hu i)
    · rw [hmem u hne, Function.update_of_ne hne]
      apply hr.stopped
      intro j hj
      obtain rfl | hji := eq_or_ne j i
      · exact hne (hi u hj)
      · exact hu j ((Function.update_of_ne hji ..).trans hj)
  · intro j u hj
    dsimp only at hj ⊢
    obtain ⟨rfl, rfl, hsome⟩ | ⟨hji, hne, hj⟩ := hrunning j u hj
    · obtain ⟨hnone, -⟩ | ⟨-, huser, -⟩ := hx
      · cases hnone.symm.trans hsome
      · rw [Function.update_self, Function.update_self]
        exact huser
    · rw [Function.update_of_ne hji, Function.update_of_ne hne, hmem u hne]
      exact hr.user j u hj
  · intro j u hj
    dsimp only at hj ⊢
    obtain ⟨rfl, rfl, hsome⟩ | ⟨hji, hne, hj⟩ := hrunning j u hj
    · obtain ⟨hnone, -⟩ | ⟨-, -, howner⟩ := hx
      · cases hnone.symm.trans hsome
      · rw [Function.update_self, howner]
    · rw [Function.update_of_ne hne]
      exact hr.owner j u hj
  · intro j hj
    dsimp only at hj ⊢
    obtain rfl | hji := eq_or_ne j i
    · rw [Function.update_self] at hj ⊢
      obtain ⟨-, -, htp⟩ | ⟨hsome, -⟩ := hx
      · exact htp
      · cases hsome.symm.trans hj
    · rw [Function.update_of_ne hji] at hj ⊢
      exact hr.kernel j hj
  · intro j k u hj hk
    obtain ⟨rfl, hu, -⟩ | ⟨-, hne, hj⟩ := hrunning j u hj
    · obtain ⟨rfl, -⟩ | ⟨-, hne, -⟩ := hrunning k u hk
      · rfl
      · exact absurd hu hne
    · obtain ⟨-, hu, -⟩ | ⟨-, -, hk⟩ := hrunning k u hk
      · exact absurd hu hne
      · exact hr.single j k u hj hk

/-- A hart that is in the kernel. -/
theorem Represents.computed [DecidableEq ι] (hr : Represents p id s v)
    (hi : v.running i = none) {h : Hart} (htp : h.x tp = id i) :
    Represents p id { s with harts := Function.update s.harts i h } v := by
  refine ⟨hr.running, hr.stopped, fun j u hj => ?_, hr.owner, fun j hj => ?_, hr.single⟩
  · have hne : j ≠ i := by
      rintro rfl
      cases hi.symm.trans hj
    dsimp only
    rw [Function.update_of_ne hne]
    exact hr.user j u hj
  · dsimp only
    obtain rfl | hne := eq_or_ne j i
    · rw [Function.update_self, htp]
    · rw [Function.update_of_ne hne]
      exact hr.kernel j hj

/-- Memory that changes in the context of a stopped task. -/
theorem Represents.edited [DecidableEq τ] (hr : Represents p id s v)
    (ht : ∀ i, v.running i ≠ some t) {m : Memory} {cx : TrapContext}
    (hmem : ∀ u, u ≠ t → (p.window u).get m = (p.window u).get s.memory)
    (hcx : TrapContext.of_slots ((p.window t).get m) = cx) :
    Represents p id { s with memory := m }
      { v with contexts := Function.update v.contexts t cx } := by
  have hne : ∀ i u, v.running i = some u → u ≠ t := by
    rintro i u hi rfl
    exact ht i hi
  refine ⟨hr.running, fun u hu => ?_, fun i u hi => ?_, fun i u hi => ?_, hr.kernel, hr.single⟩
  · dsimp only
    obtain rfl | hut := eq_or_ne u t
    · rw [hcx, Function.update_self]
    · rw [hmem u hut, Function.update_of_ne hut]
      exact hr.stopped u hu
  · dsimp only
    rw [hmem u (hne i u hi), Function.update_of_ne (hne i u hi)]
    exact hr.user i u hi
  · dsimp only
    rw [Function.update_of_ne (hne i u hi)]
    exact hr.owner i u hi

theorem Represents.stored (hr : Represents p id s v) {m : Memory}
    (hmem : ∀ u, (p.window u).get m = (p.window u).get s.memory) :
    Represents p id { s with memory := m } v := by
  refine ⟨hr.running, fun u hu => ?_, fun i u hi => ?_, hr.owner, hr.kernel, hr.single⟩
  · dsimp only
    rw [hmem u]
    exact hr.stopped u hu
  · dsimp only
    rw [hmem u]
    exact hr.user i u hi

variable [Fintype ι] [DecidableEq ι] [DecidableEq τ]

/-- A program computes on its own registers. -/
theorem Represents.user_step (hr : Represents p id s v) (i : ι) (g : UserRegs → UserRegs) :
    Follows (fun _ => False) (Represents p id) (cpu_step s (.user (p := p) i g))
      (virtual_step id v (.user (p := p) i g)) := by
  unfold cpu_step virtual_step
  dsimp only
  rw [congrFun hr.running i]
  cases hi : v.running i with
  | none => exact .inr rfl
  | some t =>
    have huser := hr.user i t hi
    have hown : ∀ u, v.running i = some u → u = t := fun u hu => Option.some.inj (hu.symm.trans hi)
    have hself : ∀ f : ι → Option τ, f i = some t → Function.update f i (some t) = f := by
      intro f hf
      rw [← hf, Function.update_eq_self]
    have hmoved := hr.moved hown (fun j hj => hr.single j i t hj hi) (fun _ _ => rfl)
      (.inr ⟨rfl, huser.computed (g (user_regs (s.harts i))), hr.owner i t hi⟩)
    rw [hself _ ((congrFun hr.running i).trans hi), hself _ hi, ← huser.user_regs_eq] at hmoved
    dsimp only
    rw [← huser.user_regs_eq]
    exact follows_ok_ok.mpr ⟨rfl, hmoved⟩

/-- A trap saves the registers of the program and enters the kernel of this hart. -/
theorem Represents.trap_step (hr : Represents p id s v) (i : ι) :
    Follows (fun _ => False) (Represents p id) (cpu_step s (.trap (p := p) i))
      (virtual_step id v (.trap (p := p) i)) := by
  unfold cpu_step virtual_step
  dsimp only
  rw [congrFun hr.running i]
  cases hi : v.running i with
  | none => exact .inr rfl
  | some t =>
    have huser := hr.user i t hi
    have hown : ∀ u, v.running i = some u → u = t := fun u hu => Option.some.inj (hu.symm.trans hi)
    have hsatp : (s.harts i).trap.csr .satp = (p.window t).token := huser.satp
    have hscratch : (s.harts i).trap.csr .sscratch = (p.window t).va := huser.sscratch
    obtain ⟨h, k, hrun, hsaved, hlanded⟩ := @user_trapvec_run _ _ ((p.window t).get s.memory) hsatp
      hscratch
    rw [huser.saved] at hsaved
    replace hlanded := huser.landed hlanded
    have htp := hlanded.tp.trans (hr.owner i t hi)
    rw [Window.run_physical (p.mapped t) hrun]
    dsimp only
    refine follows_ok_ok.mpr ⟨?_, ?_⟩
    · rw [hlanded.satp, hlanded.sp, htp, hlanded.pc]
    · apply hr.moved hown (fun j hj => hr.single j i t hj hi)
        (fun u hu => Window.get_put_of_apart (p.apart u t hu) ..)
      refine .inl ⟨rfl, ?_, htp⟩
      rw [Window.get_put, hsaved]

/-- The hart goes to a task that has none. -/
theorem Represents.return_step (hr : Represents p id s v) (i : ι) (t : τ) :
    Follows (fun _ => False) (Represents p id) (cpu_step s (.trap_return (p := p) i t))
      (virtual_step id v (.trap_return (p := p) i t)) := by
  unfold cpu_step virtual_step
  dsimp only
  rw [hr.running]
  split
  · next hfree =>
    obtain ⟨hi, ht⟩ := hfree
    push Not at ht
    obtain ⟨h, hh⟩ : ∃ h, h = ((s.harts i).set_x a0 (p.window t).va).set_x a1 (p.window t).token :=
      ⟨_, rfl⟩
    have ha0 : h.x a0 = (p.window t).va := by simp (disch := decide) [hh]
    have ha1 : h.x a1 = (p.window t).token := by simp (disch := decide) [hh]
    have htp : h.x tp = id i := by simp (disch := decide) [hh, hr.kernel i hi]
    obtain ⟨h', k, hrun, hcx, hresumed⟩ := @user_trapret_run _ _ ((p.window t).get s.memory) ha0 ha1
    rw [hr.stopped t ht, htp] at hcx
    have huser := hresumed.in_user
    rw [hcx] at huser
    rw [← hh, Window.run_physical (p.mapped t) hrun]
    dsimp only
    have hmem : ∀ u, u ≠ t → (p.window u).get ((p.window t).put s.memory k) =
        (p.window u).get s.memory := fun u hu => Window.get_put_of_apart (p.apart u t hu) ..
    have hafter : InUser (p.window t) h'
        (.of_slots ((p.window t).get ((p.window t).put s.memory k)))
        { v.contexts t with
          sstatus := Hart.sret_status (v.contexts t).sstatus, executor_id := id i } := by
      rw [Window.get_put, hcx]
      exact huser
    have hmoved := hr.moved (fun u hu => by cases hi.symm.trans hu) (fun j hj => absurd hj (ht j))
      hmem (.inr ⟨rfl, hafter, rfl⟩)
    rw [hr.running] at hmoved
    exact follows_ok_ok.mpr ⟨rfl, hmoved⟩
  · exact .inr rfl

/-- One step of the harts is one of the machine with a context for each task. -/
theorem Represents.step (hr : Represents p id s v) (op : CpuOp ι p) :
    Follows (fun _ => False) (Represents p id) (cpu_step s op) (virtual_step id v op) := by
  cases op with
  | user i g => exact hr.user_step i g
  | trap i => exact hr.trap_step i
  | trap_return i t => exact hr.return_step i t
  | kernel i h =>
    unfold cpu_step virtual_step
    dsimp only
    rw [congrFun hr.running i]
    cases hi : v.running i with
    | some t => exact .inr rfl
    | none =>
      have htp := hr.kernel i hi
      refine follows_ok_ok.mpr ⟨congrArg Shown.hart htp, hr.computed hi ?_⟩
      rw [Hart.set_x_self _ _ (by decide), htp]
  | edit t g =>
    unfold cpu_step virtual_step
    dsimp only
    rw [hr.running]
    split
    · exact .inr rfl
    · next ht =>
      push Not at ht
      have hcx := hr.stopped t ht
      have hput : TrapContext.of_slots ((p.window t).get ((p.window t).put s.memory
          (g (v.contexts t)).slots)) = g (v.contexts t) := by
        rw [Window.get_put, TrapContext.of_slots_slots]
      have hedited := hr.edited ht
        (fun u hu => Window.get_put_of_apart (p.apart u t hu) ..) hput
      rw [hr.running] at hedited
      rw [hcx]
      exact follows_ok_ok.mpr ⟨rfl, hedited⟩
  | store a w =>
    exact follows_ok_ok.mpr ⟨rfl, hr.stored fun u => Window.get_update (a.2 u) _ _⟩

end Runs

section TwoTasks

/-- The context of a process is in the page below the signal trampoline, in a frame of its own. -/
def context_window (t : Bool) : Window 70 where
  token := if t then 2 else 1
  va := 0xffffffffffffd000
  pa := if t then 0x80801000 else 0x80800000
  size := by decide

theorem place_sub_add (a b : Word) (i : Nat) : place a i - a + b = place b i := by
  rw [place, place, add_sub_cancel_left, add_comm]

def two_contexts : TrapPlaces Bool where
  translate satp va :=
    if satp = 1 then some (va - 0xffffffffffffd000 + 0x80800000)
    else if satp = 2 then some (va - 0xffffffffffffd000 + 0x80801000) else none
  window := context_window
  mapped t i := by
    cases t with
    | false => exact congrArg some (place_sub_add ..)
    | true => exact congrArg some (place_sub_add ..)
  apart t u hne := by
    have hapart : (context_window false).Apart (context_window true) :=
      Window.apart_of_le (by decide) (by decide)
    cases t with
    | false =>
      cases u with
      | false => exact absurd rfl hne
      | true => exact hapart
    | true =>
      cases u with
      | false => exact hapart.symm
      | true => exact absurd rfl hne

def hart_id (i : Bool) : Word := if i then 1 else 0

/-- Both harts are in the kernel. -/
def two_harts : Cpus Bool Bool where
  harts i := ⟨.of fun r => if r = tp then hart_id i else 0, fun _ => 0, fun _ => 0, 0⟩
  memory _ := 0
  running _ := none

def two_virtual : VirtualCpus Bool Bool where
  contexts t := .of_slots ((context_window t).get two_harts.memory)
  running _ := none

theorem represents_two : Represents two_contexts hart_id two_harts two_virtual where
  running := rfl
  stopped _ _ := rfl
  user i t h := by cases h
  owner i t h := by cases h
  kernel i _ := by
    cases i with
    | false => rfl
    | true => rfl
  single i j t h := by cases h

end TwoTasks

end Machines

end MyGOS.Task
