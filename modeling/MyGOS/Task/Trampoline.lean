import MyGOS.Lib.RiscV
import MyGOS.Task.TrapContext

/-!
# The trampoline

`user_trapvec` leaves the registers of a user program in its trap context and goes to the
kernel; `user_trapret` takes them back. Each task keeps its own registers this
way, on whatever hart it runs and whatever the others do in between.
-/

namespace MyGOS.Task

open RiscV Outcome StepSystem

/-- The registers of `.rept 28` with `n` from 4 on. -/
def rept28 : List Reg := (List.range 28).map fun i => Fin.ofNat 32 (4 + i)

def x_slot (n : Reg) : Fin 70 := ⟨n, by omega⟩

/-- The slots of the floating-point registers are counted by `m`, from 38 on. -/
def f_slot (n : Reg) : Fin 70 := ⟨38 + n, by omega⟩

def STORE_X (n : Reg) : Instr := .sd n (x_slot n) sp

def LOAD_X (n : Reg) : Instr := .ld n (x_slot n) sp

def STORE_FP (n : Reg) : Instr := .fsd n (f_slot n) sp

def LOAD_FP (n : Reg) : Instr := .fld n (f_slot n) sp

def user_trapvec : List Instr :=
  List.flatten
    [[.csrrw sp .sscratch sp, .sd ra 1 sp, .sd gp 3 sp],
      rept28.map STORE_X,
      [.csrr t0 .sstatus, .csrr t1 .sepc, .sd t0 32 sp, .sd t1 33 sp, .csrr t2 .sscratch,
        .sd t2 2 sp],
      (List.finRange 32).map STORE_FP,
      [.ld t0 34 sp, .ld t1 36 sp, .ld tp 37 sp, .ld sp 35 sp, .csrw .satp t0, .sfence_vma,
        .jr t1]]

def user_trapret : List Instr :=
  List.flatten
    [[.csrw .satp a1, .sfence_vma, .csrw .sscratch a0, .mv sp a0, .ld t0 32 sp, .ld t1 33 sp,
        .csrw .sstatus t0, .csrw .sepc t1],
      (List.finRange 32).map LOAD_FP,
      [.sd tp 37 sp, .ld ra 1 sp, .ld gp 3 sp],
      rept28.map LOAD_X,
      [.ld sp 2 sp, .sret]]

/-- The trap context in its words, as `repr(C)` lays it out. -/
def TrapContext.of_slots (s : Fin 70 → Word) : TrapContext where
  x i := s (x_slot i)
  sstatus := s 32
  sepc := s 33
  kernel_satp := s 34
  kernel_sp := s 35
  trap_handler := s 36
  executor_id := s 37
  freg i := s (f_slot i)

/-- The context with what the hart has in its registers. -/
def TrapContext.saved (cx : TrapContext) (h : Hart) : TrapContext :=
  { cx with
    x := fun r => if r = x0 then cx.x x0 else h.x r
    sstatus := h.csr .sstatus
    sepc := h.csr .sepc
    freg := h.f }

/-- The hart is where the context sends the kernel. -/
structure Landed (h : Hart) (cx : TrapContext) : Prop where
  satp : h.csr .satp = cx.kernel_satp
  sp : h.x sp = cx.kernel_sp
  tp : h.x tp = cx.executor_id
  pc : h.pc = cx.trap_handler

/-- The hart has the registers of the context, and the context is where the next trap looks. -/
structure Resumed (w : Window 70) (h : Hart) (cx : TrapContext) : Prop where
  x : ∀ r, r ≠ x0 → h.x r = cx.x r
  f : h.f = cx.freg
  pc : h.pc = cx.sepc
  sstatus : h.csr .sstatus = Hart.sret_status cx.sstatus
  satp : h.csr .satp = w.token
  sscratch : h.csr .sscratch = w.va

/-- The words that `repr(C)` lays out. -/
def TrapContext.slots (cx : TrapContext) (i : Fin 70) : Word := cx.words.getD i 0

/-- The layout of the assembly code is that of the structure. -/
theorem TrapContext.of_slots_slots (cx : TrapContext) : of_slots cx.slots = cx := by
  have hget : ∀ (i : Fin 70) v, cx.words[i.val]? = some v → cx.slots i = v := by
    intro i v hv
    rw [slots, List.getD_eq_getElem?_getD, hv, Option.getD_some]
  have hfield : ∀ i v, i < 6 → [cx.sstatus, cx.sepc, cx.kernel_satp, cx.kernel_sp,
      cx.trap_handler, cx.executor_id][i]? = some v → ∀ j : Fin 70, j.val = 32 + i →
      cx.slots j = v := by
    intro i v hi hv j hj
    apply hget
    rw [hj, cx.words_field hi, hv]
  have hx : (fun i => cx.slots (x_slot i)) = cx.x := funext fun i => hget _ _ (cx.words_x i)
  have hfreg : (fun i => cx.slots (f_slot i)) = cx.freg :=
    funext fun i => hget _ _ (cx.words_freg i)
  rw [of_slots, hx, hfreg, hfield 0 _ (by decide) rfl 32 rfl, hfield 1 _ (by decide) rfl 33 rfl,
    hfield 2 _ (by decide) rfl 34 rfl, hfield 3 _ (by decide) rfl 35 rfl,
    hfield 4 _ (by decide) rfl 36 rfl, hfield 5 _ (by decide) rfl 37 rfl]

section Slots

variable {s s' : Fin 70 → Word} {v : Reg → Word}

/-- Where only registers change. -/
theorem TrapContext.of_slots_congr (h : ∀ i : Fin 70, 32 ≤ i.val → i.val < 38 → s' i = s i) :
    of_slots s' =
      { of_slots s with x := fun r => s' (x_slot r), freg := fun r => s' (f_slot r) } := by
  unfold of_slots
  rw [h 32 (by decide) (by decide), h 33 (by decide) (by decide), h 34 (by decide) (by decide),
    h 35 (by decide) (by decide), h 36 (by decide) (by decide), h 37 (by decide) (by decide)]

theorem x_slot_inj {r r' : Reg} (h : x_slot r = x_slot r') : r = r' := Fin.ext (Fin.mk.inj h)

theorem f_slot_inj {r r' : Reg} (h : f_slot r = f_slot r') : r = r' :=
  Fin.ext (Nat.add_left_cancel (Fin.mk.inj h))

theorem f_slot_le (r : Reg) : 32 ≤ (f_slot r).val :=
  (by decide : 32 ≤ 38).trans (Nat.le_add_right ..)

theorem x_slot_ne {i : Fin 70} (hi : 32 ≤ i.val) (r : Reg) : i ≠ x_slot r := by
  rintro rfl
  exact absurd r.isLt (not_lt.mpr hi)

theorem f_slot_ne {i : Fin 70} (hi : i.val < 38) (r : Reg) : i ≠ f_slot r := by
  rintro rfl
  exact absurd hi (not_lt.mpr (Nat.le_add_right ..))

theorem TrapContext.of_slots_update_x (r : Reg) (v : Word) :
    of_slots (Function.update s (x_slot r) v) = (of_slots s).set_x r v := by
  rw [of_slots_congr fun i hi _ => Function.update_of_ne (x_slot_ne hi r) .., set_x]
  dsimp only
  congr
  · funext r'
    obtain rfl | hr := eq_or_ne r' r
    · rw [Function.update_self, Function.update_self]
    · rw [Function.update_of_ne hr, Function.update_of_ne fun heq => hr (x_slot_inj heq), of_slots]
  · exact funext fun r' => Function.update_of_ne (x_slot_ne (f_slot_le r') r) ..

/-- A slot between the registers. -/
theorem TrapContext.of_slots_update_field {i : Fin 70} (hi : 32 ≤ i.val) (hi' : i.val < 38)
    (v : Word) : of_slots (Function.update s i v) =
      { of_slots s with
        sstatus := Function.update s i v 32
        sepc := Function.update s i v 33
        kernel_satp := Function.update s i v 34
        kernel_sp := Function.update s i v 35
        trap_handler := Function.update s i v 36
        executor_id := Function.update s i v 37 } := by
  unfold of_slots
  congr
  · exact funext fun r => Function.update_of_ne (x_slot_ne hi r).symm ..
  · exact funext fun r => Function.update_of_ne (f_slot_ne hi' r).symm ..

theorem TrapContext.of_slots_sstatus (v : Word) :
    of_slots (Function.update s 32 v) = { of_slots s with sstatus := v } :=
  of_slots_update_field (by decide) (by decide) v

theorem TrapContext.of_slots_sepc (v : Word) :
    of_slots (Function.update s 33 v) = { of_slots s with sepc := v } :=
  of_slots_update_field (by decide) (by decide) v

theorem TrapContext.of_slots_executor_id (v : Word) :
    of_slots (Function.update s 37 v) = { of_slots s with executor_id := v } :=
  of_slots_update_field (by decide) (by decide) v

theorem TrapContext.of_slots_stored_x {rs : List Reg} (h : Window.Stored v x_slot rs s s') :
    of_slots s' = { of_slots s with x := fun r => if r ∈ rs then v r else (of_slots s).x r } := by
  have hne : ∀ i : Fin 70, 32 ≤ i.val → s' i = s i :=
    fun i hi => h.other i fun r _ => x_slot_ne hi r
  rw [of_slots_congr fun i hi _ => hne i hi]
  dsimp only
  congr
  · funext r
    split
    · next hmem => exact h.reg r hmem
    · next hmem => exact h.other _ fun r' hr' heq => hmem (x_slot_inj heq ▸ hr')
  · exact funext fun r => hne _ (f_slot_le r)

theorem TrapContext.of_slots_stored_freg (h : Window.Stored v f_slot (List.finRange 32) s s') :
    of_slots s' = { of_slots s with freg := v } := by
  have hne : ∀ i : Fin 70, i.val < 38 → s' i = s i :=
    fun i hi => h.other i fun r _ => f_slot_ne hi r
  rw [of_slots_congr fun i _ hi => hne i hi]
  dsimp only
  congr
  · exact funext fun r => hne _ (r.isLt.trans (by decide))
  · exact funext fun r => h.reg r (List.mem_finRange r)

end Slots

section Code

variable {w : Window 70} {h : Hart} {s : Fin 70 → Word}

theorem mem_rept28 : ∀ r, r ∈ rept28 ↔ 4 ≤ r := by decide

theorem notMem_rept28 {r : Reg} (hr : r < 4) : r ∉ rept28 := by
  rw [mem_rept28]
  exact not_le.mpr hr

/-- What the stores of `user_trapvec` leave in the trap context. -/
theorem TrapContext.of_slots_saved {s₂ s' : Fin 70 → Word} {h₁ : Hart}
    (hx : ∀ r, r ≠ sp → h₁.x r = h.x r)
    (hgeneral : Window.Stored h₁.x x_slot rept28
      (Function.update (Function.update s 1 (h₁.x ra)) 3 (h₁.x gp)) s₂)
    (hfloat : Window.Stored h.f f_slot (List.finRange 32) (Function.update (Function.update
      (Function.update s₂ 32 (h.csr .sstatus)) 33 (h.csr .sepc)) 2 (h.x sp)) s') :
    of_slots s' = (of_slots s).saved h := by
  have hra : of_slots (Function.update (Function.update s 1 (h₁.x ra)) 3 (h₁.x gp)) =
      ((of_slots s).set_x ra (h₁.x ra)).set_x gp (h₁.x gp) :=
    (of_slots_update_x gp _).trans (congrArg (set_x · gp _) (of_slots_update_x ra _))
  have hsp : ∀ s v, of_slots (Function.update s 2 v) = (of_slots s).set_x sp v :=
    fun s v => of_slots_update_x sp v
  rw [of_slots_stored_freg hfloat, hsp, of_slots_sepc, of_slots_sstatus,
    of_slots_stored_x hgeneral, hra]
  unfold saved set_x
  dsimp only
  congr
  funext r
  by_cases hr : r = sp
  · rw [hr, Function.update_self]
    rfl
  rw [Function.update_of_ne hr]
  split
  · next hmem =>
    have hzero : r ≠ x0 := by
      rintro rfl
      exact notMem_rept28 (by decide) hmem
    rw [if_neg hzero, hx r hr]
  · next hmem =>
    have hlow : ∀ r : Reg, ¬ 4 ≤ r → r ≠ sp → r = 0 ∨ r = ra ∨ r = gp := by decide
    rw [mem_rept28] at hmem
    obtain rfl | rfl | rfl := hlow r hmem hr
    · rfl
    · exact hx _ hr
    · exact hx _ hr

theorem run_swap (hsatp : h.csr .satp = w.token) (hscratch : h.csr .sscratch = w.va) :
    Meets (run (execute w.port) (h, s) [.csrrw sp .sscratch sp, .sd ra 1 sp, .sd gp 3 sp])
      (fun _ => False) fun t =>
        t.2 = Function.update (Function.update s 1 (h.x ra)) 3 (h.x gp) ∧
        (∀ r, r ≠ sp → t.1.x r = h.x r) ∧ t.1.x sp = w.va ∧ t.1.f = h.f ∧
        (∀ c, c ≠ .sscratch → t.1.csr c = h.csr c) ∧ t.1.csr .sscratch = h.x sp := by
  simp (disch := first | decide | simp (disch := decide) [hsatp, hscratch]) only [run_cons,
    execute_csrrw, Window.execute_sd, ok_bind, run_nil, meets_ok]
  simp (disch := decide) only [hscratch, Hart.set_x_self, Hart.set_x_of_ne, Hart.set_x_csr,
    Hart.set_csr_self, Hart.set_csr_x, true_and]
  refine ⟨rfl, fun r hr => ?_, rfl, fun c hc => ?_, trivial⟩
  · rw [Hart.set_x_of_ne _ _ hr, Hart.set_csr_x]
  · exact Hart.set_csr_of_ne _ _ hc

theorem run_status (hsatp : h.csr .satp = w.token) (hbase : h.x sp = w.va) :
    Meets (run (execute w.port) (h, s) [.csrr t0 .sstatus, .csrr t1 .sepc, .sd t0 32 sp,
        .sd t1 33 sp, .csrr t2 .sscratch, .sd t2 2 sp]) (fun _ => False) fun t =>
      t.2 = Function.update (Function.update (Function.update s 32 (h.csr .sstatus)) 33
        (h.csr .sepc)) 2 (h.csr .sscratch) ∧
      t.1.x sp = w.va ∧ t.1.csr = h.csr ∧ t.1.f = h.f := by
  simp (disch := first | decide | simp (disch := decide) [hsatp, hbase]) only [run_cons,
    execute_csrr, Window.execute_sd, ok_bind, run_nil, meets_ok]
  simp (disch := decide) [hbase]

/-- The hart goes to the kernel. -/
theorem run_enter (hsatp : h.csr .satp = w.token) (hbase : h.x sp = w.va) :
    Meets (run (execute w.port) (h, s) [.ld t0 34 sp, .ld t1 36 sp, .ld tp 37 sp, .ld sp 35 sp,
        .csrw .satp t0, .sfence_vma, .jr t1]) (fun _ => False) fun t =>
      t.2 = s ∧ Landed t.1 (.of_slots s) := by
  simp (disch := first | decide | simp (disch := decide) [hsatp, hbase]) only [run_cons,
    Window.execute_ld, ok_bind, execute_csrw, execute_sfence_vma, execute_jr, run_nil, meets_ok]
  refine ⟨trivial, ?_, ?_, ?_, ?_⟩
  all_goals simp (disch := decide)
  all_goals rfl

/-- The registers of the user program are in the trap context, and the hart is in the kernel. -/
theorem user_trapvec_run (hsatp : h.csr .satp = w.token) (hscratch : h.csr .sscratch = w.va) :
    ∃ h' s', run (execute w.port) (h, s) user_trapvec = .ok (h', s') ∧
      TrapContext.of_slots s' = (TrapContext.of_slots s).saved h ∧ Landed h' (.of_slots s) := by
  obtain ⟨⟨h₁, s₁⟩, hswap, hs₁, hx₁, hbase₁, hf₁, hcsr₁, hscratch₁⟩ :=
    (@run_swap w h s hsatp hscratch).exists_ok
  have hsatp₁ : h₁.csr .satp = w.token := (hcsr₁ _ (by decide)).trans hsatp
  obtain ⟨s₂, hgeneral, hs₂⟩ :=
    Window.run_sd x_slot rept28 s₁ hsatp₁ hbase₁ fun _ _ _ _ => x_slot_inj
  obtain ⟨⟨h₃, s₃⟩, hstatus, hs₃, hbase₃, hcsr₃, hf₃⟩ :=
    (@run_status w h₁ s₂ hsatp₁ hbase₁).exists_ok
  have hsatp₃ : h₃.csr .satp = w.token := (congrFun hcsr₃ _).trans hsatp₁
  obtain ⟨s₄, hfloat, hs₄⟩ := Window.run_fsd f_slot (List.finRange 32) s₃ hsatp₃ hbase₃
    fun _ _ _ _ => f_slot_inj
  obtain ⟨⟨h₅, s₅⟩, henter, hs₅, hlanded⟩ := (@run_enter w h₃ s₄ hsatp₃ hbase₃).exists_ok
  dsimp only at hs₁ hx₁ hbase₁ hf₁ hcsr₁ hscratch₁ hs₃ hbase₃ hcsr₃ hf₃ hs₅ hlanded
  subst hs₅
  have hsaved : TrapContext.of_slots s₅ = (TrapContext.of_slots s).saved h := by
    apply TrapContext.of_slots_saved hx₁
    · rw [hx₁ ra (by decide), hx₁ gp (by decide), ← hs₁]
      exact hs₂
    · rw [← hcsr₁ .sstatus (by decide), ← hcsr₁ .sepc (by decide), ← hscratch₁, ← hs₃, ← hf₁, ← hf₃]
      exact hs₄
  have hcode : run (execute w.port) (h, s) user_trapvec = .ok (h₅, s₅) := by
    have hgeneral' : run (execute w.port) (h₁, s₁) (rept28.map STORE_X) = .ok (h₁, s₂) := hgeneral
    have hfloat' : run (execute w.port) (h₃, s₃) ((List.finRange 32).map STORE_FP) = .ok (h₃, s₅) :=
      hfloat
    rw [user_trapvec, List.flatten_cons, run_append hswap, List.flatten_cons, run_append hgeneral',
      List.flatten_cons, run_append hstatus, List.flatten_cons, run_append hfloat',
      List.flatten_singleton]
    exact henter
  refine ⟨h₅, s₅, hcode, hsaved, ?_⟩
  rw [hsaved] at hlanded
  exact ⟨hlanded.satp, hlanded.sp, hlanded.tp, hlanded.pc⟩

theorem run_resume (ha0 : h.x a0 = w.va) (ha1 : h.x a1 = w.token) :
    Meets (run (execute w.port) (h, s) [.csrw .satp a1, .sfence_vma, .csrw .sscratch a0, .mv sp a0,
        .ld t0 32 sp, .ld t1 33 sp, .csrw .sstatus t0, .csrw .sepc t1]) (fun _ => False) fun t =>
      t.2 = s ∧ t.1.x sp = w.va ∧ t.1.x tp = h.x tp ∧ t.1.csr .satp = w.token ∧
      t.1.csr .sscratch = w.va ∧ t.1.csr .sstatus = s 32 ∧ t.1.csr .sepc = s 33 := by
  simp (disch := first | decide | simp (disch := decide) [ha0, ha1]) only [run_cons, execute_csrw,
    execute_sfence_vma, execute_mv, Window.execute_ld, ok_bind, run_nil, meets_ok]
  simp (disch := decide) [ha0, ha1]

/-- `tp`, the number of the hart, goes to the context. -/
theorem run_owner (hsatp : h.csr .satp = w.token) (hbase : h.x sp = w.va) :
    Meets (run (execute w.port) (h, s) [.sd tp 37 sp, .ld ra 1 sp, .ld gp 3 sp]) (fun _ => False)
      fun t => t.2 = Function.update s 37 (h.x tp) ∧ t.1.x sp = w.va ∧ t.1.x ra = s 1 ∧
        t.1.x gp = s 3 ∧ t.1.f = h.f ∧ t.1.csr = h.csr := by
  simp (disch := first | decide | simp (disch := decide) [hsatp, hbase]) only [run_cons,
    Window.execute_sd, Window.execute_ld, ok_bind, run_nil, meets_ok]
  simp (disch := decide) [hbase]

/-- The stack pointer comes last, and the hart is in the user program. -/
theorem run_leave (hsatp : h.csr .satp = w.token) (hbase : h.x sp = w.va) :
    Meets (run (execute w.port) (h, s) [.ld sp 2 sp, .sret]) (fun _ => False) fun t =>
      t.2 = s ∧ t.1.x sp = s 2 ∧ (∀ r, r ≠ sp → t.1.x r = h.x r) ∧ t.1.f = h.f ∧
      t.1.pc = h.csr .sepc ∧ t.1.csr .sstatus = Hart.sret_status (h.csr .sstatus) ∧
      ∀ c, c ≠ .sstatus → t.1.csr c = h.csr c := by
  simp (disch := first | decide | simp (disch := decide) [hsatp, hbase]) only [run_cons,
    Window.execute_ld, execute_sret, ok_bind, run_nil, meets_ok]
  simp (disch := decide) only [Hart.set_x_self, Hart.set_x_csr, Hart.set_csr_self, Hart.set_csr_x,
    Hart.set_csr_f, Hart.set_x_f, true_and]
  exact ⟨rfl, fun r hr => Hart.set_x_of_ne _ _ hr, fun c hc => Hart.set_csr_of_ne _ _ hc⟩

/-- The registers of the context are those of the hart. -/
theorem user_trapret_run (ha0 : h.x a0 = w.va) (ha1 : h.x a1 = w.token) :
    ∃ h' s', run (execute w.port) (h, s) user_trapret = .ok (h', s') ∧
      TrapContext.of_slots s' = { TrapContext.of_slots s with executor_id := h.x tp } ∧
      Resumed w h' (.of_slots s') := by
  obtain ⟨⟨h₁, s₁⟩, hresume, hs₁, hbase₁, htp₁, hsatp₁, hscratch₁, hstatus₁, hsepc₁⟩ :=
    (@run_resume w h s ha0 ha1).exists_ok
  dsimp only at hs₁ hbase₁ htp₁ hsatp₁ hscratch₁ hstatus₁ hsepc₁
  subst hs₁
  obtain ⟨f, hfloat, hf⟩ := Window.run_fld f_slot (List.finRange 32) s₁ hsatp₁ hbase₁
  obtain ⟨⟨h₃, s₃⟩, howner, hs₃, hbase₃, hra₃, hgp₃, hf₃, hcsr₃⟩ :=
    (@run_owner w { h₁ with f := f } s₁ hsatp₁ hbase₁).exists_ok
  dsimp only at hs₃ hbase₃ hra₃ hgp₃ hf₃ hcsr₃
  have hsatp₃ : h₃.csr .satp = w.token := (congrFun hcsr₃ _).trans hsatp₁
  obtain ⟨x, hgeneral, hx⟩ := Window.run_ld x_slot rept28 s₃ hsatp₃ hbase₃
    (notMem_rept28 (by decide)) (notMem_rept28 (by decide))
  have hbase₄ : ({ h₃ with x := x } : Hart).x sp = w.va :=
    (hx.other sp (notMem_rept28 (by decide))).trans hbase₃
  obtain ⟨⟨h₅, s₅⟩, hleave, hs₅, hsp₅, hx₅, hf₅, hpc₅, hstatus₅, hcsr₅⟩ :=
    (@run_leave w { h₃ with x := x } s₃ hsatp₃ hbase₄).exists_ok
  dsimp only at hs₅ hsp₅ hx₅ hf₅ hpc₅ hstatus₅ hcsr₅
  subst hs₅
  have hcode : run (execute w.port) (h, s₁) user_trapret = .ok (h₅, s₅) := by
    have hgeneral' : run (execute w.port) (h₃, s₅) (rept28.map LOAD_X) =
        .ok ({ h₃ with x := x }, s₅) := hgeneral
    have hfloat' : run (execute w.port) (h₁, s₁) ((List.finRange 32).map LOAD_FP) =
        .ok ({ h₁ with f := f }, s₁) := hfloat
    rw [user_trapret, List.flatten_cons, run_append hresume, List.flatten_cons, run_append hfloat',
      List.flatten_cons, run_append howner, List.flatten_cons, run_append hgeneral',
      List.flatten_singleton]
    exact hleave
  have hcx : TrapContext.of_slots s₅ = { TrapContext.of_slots s₁ with executor_id := h.x tp } := by
    rw [hs₃, ← htp₁]
    exact TrapContext.of_slots_executor_id _
  refine ⟨h₅, s₅, hcode, hcx, fun r hr => ?_, ?_, ?_, ?_, ?_, ?_⟩
  · by_cases hsp : r = sp
    · rw [hsp]
      exact hsp₅
    rw [hx₅ r hsp]
    by_cases hmem : r ∈ rept28
    · exact hx.reg r hmem
    · have hlow : ∀ r : Reg, ¬ 4 ≤ r → r ≠ x0 → r ≠ sp → r = ra ∨ r = gp := by decide
      rw [hcx]
      refine (hx.other r hmem).trans ?_
      rw [mem_rept28] at hmem
      obtain rfl | rfl := hlow r hmem hr hsp
      · exact hra₃
      · exact hgp₃
  · rw [hcx]
    refine (hf₅.trans hf₃).trans (funext fun r => ?_)
    exact hf.reg r (List.mem_finRange r)
  · rw [hcx]
    exact (hpc₅.trans (congrFun hcsr₃ _)).trans hsepc₁
  · rw [hcx]
    refine hstatus₅.trans (congrArg Hart.sret_status ?_)
    exact (congrFun hcsr₃ _).trans hstatus₁
  · exact ((hcsr₅ _ (by decide)).trans (congrFun hcsr₃ _)).trans hsatp₁
  · exact ((hcsr₅ _ (by decide)).trans (congrFun hcsr₃ _)).trans hscratch₁

end Code

end MyGOS.Task
