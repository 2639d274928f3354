import MyGOS.Lib.StepSystem
import Mathlib.Data.BitVec

/-!
# A hart that runs straight-line code

The instructions of RV64 with which a kernel saves and restores registers. Words
are loaded and stored through a port: the memory behind the translation that
`satp` selects, or one window of it. Code that runs on a window runs in the
memory around it, and changes nothing but the window.
-/

namespace RiscV

open Outcome StepSystem

abbrev Word := BitVec 64

abbrev Reg := Fin 32

abbrev x0 : Reg := ⟨0, by decide⟩

/-- The words at aligned physical addresses. -/
abbrev Memory := Word → Word

/-- The integer registers. The register `x0` is zero. -/
structure Registers where
  val : Reg → Word
  zero : val x0 = 0

namespace Registers

instance : CoeFun Registers fun _ => Reg → Word := ⟨val⟩

@[ext] theorem ext {x y : Registers} (h : ∀ r, x r = y r) : x = y := by
  cases x
  cases y
  congr
  exact funext h

/-- A write to `x0` is lost. -/
def set (x : Registers) (r : Reg) (v : Word) : Registers where
  val := if r = x0 then x.val else Function.update x.val r v
  zero := by
    split
    · exact x.zero
    · next hne => rw [Function.update_of_ne (Ne.symm hne), x.zero]

@[simp] theorem set_self (x : Registers) {r : Reg} (hr : r ≠ x0) (v : Word) :
    x.set r v r = v := by
  show (if r = x0 then x.val else Function.update x.val r v) r = v
  rw [if_neg hr, Function.update_self]

theorem set_of_ne (x : Registers) {r r' : Reg} (hr : r' ≠ r) (v : Word) : x.set r v r' = x r' := by
  unfold set
  dsimp only
  split
  · rfl
  · exact Function.update_of_ne hr ..

/-- The registers with these values, whatever is given for `x0`. -/
def of (v : Reg → Word) : Registers := ⟨Function.update v x0 0, Function.update_self ..⟩

theorem of_eq {v : Reg → Word} {x : Registers} (h : ∀ r, r ≠ x0 → v r = x r) : of v = x := by
  apply ext
  intro r
  obtain rfl | hr := eq_or_ne r x0
  · exact (of v).zero.trans x.zero.symm
  · exact (Function.update_of_ne hr ..).trans (h r hr)

end Registers

inductive Csr where
  | sstatus | sepc | sscratch | satp
  deriving DecidableEq

abbrev ra : Reg := ⟨1, by decide⟩
abbrev sp : Reg := ⟨2, by decide⟩
abbrev gp : Reg := ⟨3, by decide⟩
abbrev tp : Reg := ⟨4, by decide⟩
abbrev t0 : Reg := ⟨5, by decide⟩
abbrev t1 : Reg := ⟨6, by decide⟩
abbrev t2 : Reg := ⟨7, by decide⟩
abbrev a0 : Reg := ⟨10, by decide⟩
abbrev a1 : Reg := ⟨11, by decide⟩

/-- A hart. The program counter is where the last jump went: straight-line code does not ask. -/
structure Hart where
  x : Registers
  f : Reg → Word
  csr : Csr → Word
  pc : Word

/-- The displacement of a load or a store is `i` words. -/
inductive Instr where
  | sd (src : Reg) (i : Nat) (base : Reg)
  | ld (dst : Reg) (i : Nat) (base : Reg)
  | fsd (src : Reg) (i : Nat) (base : Reg)
  | fld (dst : Reg) (i : Nat) (base : Reg)
  | mv (dst src : Reg)
  | csrr (dst : Reg) (csr : Csr)
  | csrw (csr : Csr) (src : Reg)
  | csrrw (dst : Reg) (csr : Csr) (src : Reg)
  | sfence_vma
  | jr (src : Reg)
  | sret

inductive Fault where
  | page_fault (va : Word)

/-- Where words are loaded from and stored to: the value of `satp`, an address, and the word. -/
structure Port (μ : Type) where
  load : μ → Word → Word → Except Fault Word
  store : μ → Word → Word → Word → Except Fault μ

/-- The address of the word `i` of a row. -/
def place (base : Word) (i : Nat) : Word := base + BitVec.ofNat 64 (8 * i)

namespace Hart

def set_x (h : Hart) (r : Reg) (v : Word) : Hart := { h with x := h.x.set r v }

def set_f (h : Hart) (r : Reg) (v : Word) : Hart := { h with f := Function.update h.f r v }

def set_csr (h : Hart) (c : Csr) (v : Word) : Hart := { h with csr := Function.update h.csr c v }

/-- `SPIE` takes the value of `SIE`; `SIE` and `SPP` are cleared. -/
def trap_status (status : Word) : Word := (status &&& ~~~(0x122 : Word)) ||| ((status &&& 2) <<< 4)

/-- `SIE` takes the value of `SPIE`, which is set; `SPP` is cleared. -/
def sret_status (status : Word) : Word :=
  (status &&& ~~~(0x122 : Word)) ||| ((status >>> 4) &&& 2) ||| 0x20

/-- What a trap from user mode does before the first instruction of its handler. -/
def trap (h : Hart) : Hart :=
  (h.set_csr .sepc h.pc).set_csr .sstatus (trap_status (h.csr .sstatus))

section Fields

variable (h : Hart) (r : Reg) (c : Csr) (v : Word)

@[simp] theorem set_x_csr : (h.set_x r v).csr = h.csr := rfl

@[simp] theorem set_x_f : (h.set_x r v).f = h.f := rfl

@[simp] theorem set_f_x : (h.set_f r v).x = h.x := rfl

@[simp] theorem set_f_csr : (h.set_f r v).csr = h.csr := rfl

@[simp] theorem set_csr_x : (h.set_csr c v).x = h.x := rfl

@[simp] theorem set_csr_f : (h.set_csr c v).f = h.f := rfl

@[simp] theorem set_csr_self : (h.set_csr c v).csr c = v := Function.update_self ..

variable {r c}

@[simp] theorem set_csr_of_ne {c' : Csr} (hc : c' ≠ c) : (h.set_csr c v).csr c' = h.csr c' :=
  Function.update_of_ne hc ..

@[simp] theorem set_x_self (hr : r ≠ x0) : (h.set_x r v).x r = v := Registers.set_self _ hr v

@[simp] theorem set_x_of_ne {r' : Reg} (hr : r' ≠ r) : (h.set_x r v).x r' = h.x r' :=
  Registers.set_of_ne _ hr v

end Fields

end Hart

variable {μ ν : Type}

/-- One instruction. -/
def execute (port : Port μ) (s : Hart × μ) : Instr → Except Fault (Hart × μ)
  | .sd src i base => do
    let m ← port.store s.2 (s.1.csr .satp) (place (s.1.x base) i) (s.1.x src)
    return (s.1, m)
  | .ld dst i base => do
    let v ← port.load s.2 (s.1.csr .satp) (place (s.1.x base) i)
    return (s.1.set_x dst v, s.2)
  | .fsd src i base => do
    let m ← port.store s.2 (s.1.csr .satp) (place (s.1.x base) i) (s.1.f src)
    return (s.1, m)
  | .fld dst i base => do
    let v ← port.load s.2 (s.1.csr .satp) (place (s.1.x base) i)
    return (s.1.set_f dst v, s.2)
  | .mv dst src => .ok (s.1.set_x dst (s.1.x src), s.2)
  | .csrr dst csr => .ok (s.1.set_x dst (s.1.csr csr), s.2)
  | .csrw csr src => .ok (s.1.set_csr csr (s.1.x src), s.2)
  | .csrrw dst csr src => .ok ((s.1.set_csr csr (s.1.x src)).set_x dst (s.1.csr csr), s.2)
  | .sfence_vma => .ok s
  | .jr src => .ok ({ s.1 with pc := s.1.x src }, s.2)
  | .sret => .ok ({ s.1.set_csr .sstatus (Hart.sret_status (s.1.csr .sstatus)) with
      pc := s.1.csr .sepc }, s.2)

section Moves

variable (port : Port μ) (h : Hart) (m : μ)

@[simp] theorem execute_mv (dst src : Reg) :
    execute port (h, m) (.mv dst src) = .ok (h.set_x dst (h.x src), m) := rfl

@[simp] theorem execute_csrr (dst : Reg) (c : Csr) :
    execute port (h, m) (.csrr dst c) = .ok (h.set_x dst (h.csr c), m) := rfl

@[simp] theorem execute_csrw (c : Csr) (src : Reg) :
    execute port (h, m) (.csrw c src) = .ok (h.set_csr c (h.x src), m) := rfl

@[simp] theorem execute_csrrw (dst : Reg) (c : Csr) (src : Reg) :
    execute port (h, m) (.csrrw dst c src) =
    .ok ((h.set_csr c (h.x src)).set_x dst (h.csr c), m) := rfl

@[simp] theorem execute_sfence_vma : execute port (h, m) .sfence_vma = .ok (h, m) := rfl

@[simp] theorem execute_jr (src : Reg) :
    execute port (h, m) (.jr src) = .ok ({ h with pc := h.x src }, m) :=
  rfl

@[simp] theorem execute_sret : execute port (h, m) .sret =
    .ok ({ h.set_csr .sstatus (Hart.sret_status (h.csr .sstatus)) with pc := h.csr .sepc }, m) :=
  rfl

end Moves

/-- What the first port does, the second does to a bigger memory. -/
structure Embeds (p : Port μ) (q : Port ν) (put : μ → ν) : Prop where
  load : ∀ m satp va v, p.load m satp va = .ok v → q.load (put m) satp va = .ok v
  store : ∀ m satp va v m', p.store m satp va v = .ok m' → q.store (put m) satp va v = .ok (put m')

section Embedding

variable {p : Port μ} {q : Port ν} {put : μ → ν}

theorem Embeds.execute (he : Embeds p q put) {h h' : Hart} {m m' : μ} {a : Instr}
    (hok : execute p (h, m) a = .ok (h', m')) : execute q (h, put m) a = .ok (h', put m') := by
  cases a with
  | sd src i base | fsd src i base =>
    obtain ⟨m₁, hm, hok⟩ := bind_eq_ok.mp hok
    cases hok
    exact bind_eq_ok.mpr ⟨_, he.store _ _ _ _ _ hm, rfl⟩
  | ld dst i base | fld dst i base =>
    obtain ⟨v, hv, hok⟩ := bind_eq_ok.mp hok
    cases hok
    exact bind_eq_ok.mpr ⟨_, he.load _ _ _ _ hv, rfl⟩
  | mv dst src | csrr dst csr | csrw csr src | csrrw dst csr src | sfence_vma | jr src | sret =>
    cases hok
    rfl

/-- Code that runs on a part of the memory runs the same in the whole of it. -/
theorem Embeds.run (he : Embeds p q put) {code : List Instr} {h h' : Hart} {m m' : μ}
    (hok : run (RiscV.execute p) (h, m) code = .ok (h', m')) :
    run (RiscV.execute q) (h, put m) code = .ok (h', put m') := by
  induction code generalizing h m with
  | nil =>
    cases hok
    rfl
  | cons a code ih =>
    rw [run_cons] at hok ⊢
    obtain ⟨⟨h₁, m₁⟩, ha, hrest⟩ := bind_eq_ok.mp hok
    exact bind_eq_ok.mpr ⟨_, he.execute ha, ih hrest⟩

end Embedding

/-- The memory behind a translation. -/
def physical (translate : Word → Word → Option Word) : Port Memory where
  load m satp va :=
    match translate satp va with
    | some pa => .ok (m pa)
    | none => .error (.page_fault va)
  store m satp va v :=
    match translate satp va with
    | some pa => .ok (Function.update m pa v)
    | none => .error (.page_fault va)

/-- A row of `n` words, at `va` in the address space of `token` and at `pa` in memory. -/
structure Window (n : Nat) where
  token : Word
  va : Word
  pa : Word
  size : n ≤ 2 ^ 61

namespace Window

variable {n : Nat} (w : Window n) {translate : Word → Word → Option Word}

/-- The number of the word at an address, counted from `base`. -/
def slot (base a : Word) (n : Nat) : Option (Fin n) :=
  if h : (a - base).toNat % 8 = 0 ∧ (a - base).toNat / 8 < n then some ⟨_, h.2⟩ else none

/-- The window alone. -/
def port : Port (Fin n → Word) where
  load s satp va :=
    match slot w.va va n with
    | some i => if satp = w.token then .ok (s i) else .error (.page_fault va)
    | none => .error (.page_fault va)
  store s satp va v :=
    match slot w.va va n with
    | some i => if satp = w.token then .ok (Function.update s i v) else .error (.page_fault va)
    | none => .error (.page_fault va)

def get (m : Memory) (i : Fin n) : Word := m (place w.pa i)

def put (m : Memory) (s : Fin n → Word) (a : Word) : Word :=
  match slot w.pa a n with
  | some i => s i
  | none => m a

/-- Where the translation takes the words of the window. -/
def Mapped (translate : Word → Word → Option Word) : Prop :=
  ∀ i : Fin n, translate w.token (place w.va i) = some (place w.pa i)

/-- No word of one window is one of the other. -/
def Apart {k : Nat} (w : Window n) (w' : Window k) : Prop :=
  ∀ (i : Fin n) (j : Fin k), place w.pa i ≠ place w'.pa j

section Slots

variable {w} {base a : Word} {i : Fin n}

theorem slot_place (hn : n ≤ 2 ^ 61) (i : Fin n) : slot base (place base i) n = some i := by
  have hsub : (place base i - base).toNat = 8 * i := by
    rw [place, add_sub_cancel_left, BitVec.toNat_ofNat]
    omega
  have hslot : 8 * i.val % 8 = 0 ∧ 8 * i.val / 8 < n := by omega
  unfold slot
  simp only [hsub]
  rw [dif_pos hslot]
  congr
  omega

theorem eq_place (h : slot base a n = some i) : a = place base i := by
  unfold slot at h
  split at h
  · next hslot =>
    cases h
    have hmul : 8 * ((a - base).toNat / 8) = (a - base).toNat := by omega
    rw [place]
    dsimp only
    rw [hmul, BitVec.ofNat_toNat, BitVec.setWidth_eq, add_sub_cancel]
  · cases h

end Slots

variable {w} {m : Memory} {s s' : Fin n → Word}

theorem put_place (m : Memory) (s : Fin n → Word) (i : Fin n) : w.put m s (place w.pa i) = s i := by
  rw [put, slot_place w.size]

theorem put_of_ne {a : Word} (h : ∀ i : Fin n, a ≠ place w.pa i) : w.put m s a = m a := by
  unfold put
  split
  · next hslot => exact absurd (eq_place hslot) (h _)
  · rfl

@[simp] theorem get_put (m : Memory) (s : Fin n → Word) : w.get (w.put m s) = s :=
  funext fun i => put_place m s i

@[simp] theorem put_get (m : Memory) : w.put m (w.get m) = m := by
  funext a
  unfold put
  split
  · next hslot => rw [get, ← eq_place hslot]
  · rfl

theorem get_put_of_apart {k : Nat} {w' : Window k} (h : w.Apart w') (m : Memory)
    (s : Fin k → Word) : w.get (w'.put m s) = w.get m :=
  funext fun i => put_of_ne (h i)

theorem get_update {a : Word} (h : ∀ i : Fin n, a ≠ place w.pa i) (m : Memory) (v : Word) :
    w.get (Function.update m a v) = w.get m :=
  funext fun i => Function.update_of_ne (Ne.symm (h i)) ..

theorem apart_of_le {k : Nat} {w' : Window k} (hle : w.pa.toNat + 8 * n ≤ w'.pa.toNat)
    (hlt : w'.pa.toNat + 8 * k ≤ 2 ^ 64) : w.Apart w' := by
  intro i j heq
  have hval := congrArg BitVec.toNat heq
  unfold place at hval
  rw [BitVec.toNat_add, BitVec.toNat_add, BitVec.toNat_ofNat, BitVec.toNat_ofNat] at hval
  omega

theorem Apart.symm {k : Nat} {w' : Window k} (h : w.Apart w') : w'.Apart w :=
  fun i j heq => h j i heq.symm

theorem put_update (m : Memory) (s : Fin n → Word) (i : Fin n) (v : Word) :
    w.put m (Function.update s i v) = Function.update (w.put m s) (place w.pa i) v := by
  funext a
  by_cases ha : a = place w.pa i
  · rw [ha, put_place, Function.update_self, Function.update_self]
  · rw [Function.update_of_ne ha]
    unfold put
    split
    · next j hslot =>
      have hne : j ≠ i := by
        rintro rfl
        exact ha (eq_place hslot)
      rw [Function.update_of_ne hne]
    · rfl

/-- Code that runs on the window runs in memory. -/
theorem put_port (hw : w.Mapped translate) : Embeds w.port (physical translate) (w.put m) where
  load s satp va v h := by
    unfold port at h
    dsimp only at h
    split at h
    · next i hslot =>
      split at h
      · next heq =>
        cases h
        unfold physical
        dsimp only
        rw [heq, eq_place hslot, hw i]
        dsimp only
        rw [put_place]
      · cases h
    · cases h
  store s satp va v s' h := by
    unfold port at h
    dsimp only at h
    split at h
    · next i hslot =>
      split at h
      · next heq =>
        cases h
        unfold physical
        dsimp only
        rw [heq, eq_place hslot, hw i]
        dsimp only
        rw [put_update]
      · cases h
    · cases h

theorem run_physical (hw : w.Mapped translate) {code : List Instr} {h h' : Hart}
    (hok : run (execute w.port) (h, w.get m) code = .ok (h', s)) :
    run (execute (physical translate)) (h, m) code = .ok (h', w.put m s) := by
  have hrun := (put_port (m := m) hw).run hok
  rwa [put_get] at hrun

section Accesses

variable {h : Hart} {base : Reg} {i : Nat} (hsatp : h.csr .satp = w.token) (hbase : h.x base = w.va)
include hsatp hbase

theorem load_place (s : Fin n → Word) (hi : i < n) :
    w.port.load s (h.csr .satp) (place (h.x base) i) = .ok (s ⟨i, hi⟩) := by
  have hslot := @slot_place n w.va w.size ⟨i, hi⟩
  dsimp only at hslot
  unfold port
  dsimp only
  rw [hbase, hslot, hsatp]
  exact if_pos rfl

theorem store_place (s : Fin n → Word) (hi : i < n) (v : Word) :
    w.port.store s (h.csr .satp) (place (h.x base) i) v = .ok (Function.update s ⟨i, hi⟩ v) := by
  have hslot := @slot_place n w.va w.size ⟨i, hi⟩
  dsimp only at hslot
  unfold port
  dsimp only
  rw [hbase, hslot, hsatp]
  exact if_pos rfl

theorem execute_sd (s : Fin n → Word) (hi : i < n) (src : Reg) :
    execute w.port (h, s) (.sd src i base) = .ok (h, Function.update s ⟨i, hi⟩ (h.x src)) :=
  bind_eq_ok.mpr ⟨_, store_place hsatp hbase s hi _, rfl⟩

theorem execute_fsd (s : Fin n → Word) (hi : i < n) (src : Reg) :
    execute w.port (h, s) (.fsd src i base) = .ok (h, Function.update s ⟨i, hi⟩ (h.f src)) :=
  bind_eq_ok.mpr ⟨_, store_place hsatp hbase s hi _, rfl⟩

theorem execute_ld (s : Fin n → Word) (hi : i < n) (dst : Reg) :
    execute w.port (h, s) (.ld dst i base) = .ok (h.set_x dst (s ⟨i, hi⟩), s) :=
  bind_eq_ok.mpr ⟨_, load_place hsatp hbase s hi, rfl⟩

theorem execute_fld (s : Fin n → Word) (hi : i < n) (dst : Reg) :
    execute w.port (h, s) (.fld dst i base) = .ok (h.set_f dst (s ⟨i, hi⟩), s) :=
  bind_eq_ok.mpr ⟨_, load_place hsatp hbase s hi, rfl⟩

end Accesses

/-- The registers `rs` go to their slots. -/
structure Stored (v : Reg → Word) (number : Reg → Fin n) (rs : List Reg) (s s' : Fin n → Word) :
    Prop where
  reg : ∀ r ∈ rs, s' (number r) = v r
  other : ∀ i, (∀ r ∈ rs, i ≠ number r) → s' i = s i

/-- The registers `rs` come from their slots. -/
structure Loaded (number : Reg → Fin n) (rs : List Reg) (s : Fin n → Word) (v v' : Reg → Word) :
    Prop where
  reg : ∀ r ∈ rs, v' r = s (number r)
  other : ∀ r, r ∉ rs → v' r = v r

section Blocks

variable {h : Hart} {base r : Reg} {number : Reg → Fin n} {rs : List Reg} {v v' : Reg → Word}

theorem Stored.nil : Stored v number [] s s :=
  ⟨fun _ hr => absurd hr List.not_mem_nil, fun _ _ => rfl⟩

theorem Stored.cons (hinj : ∀ r' ∈ rs, number r = number r' → r = r')
    (h : Stored v number rs (Function.update s (number r) (v r)) s') :
    Stored v number (r :: rs) s s' := by
  constructor
  · intro r' hr'
    by_cases hmem : r' ∈ rs
    · exact h.reg r' hmem
    · obtain rfl := (List.mem_cons.mp hr').resolve_right hmem
      rw [h.other (number r') fun r hr heq => hmem (hinj r hr heq ▸ hr)]
      exact Function.update_self ..
  · intro i hi
    rw [h.other i fun r' hr' => hi r' (List.mem_cons_of_mem _ hr')]
    exact Function.update_of_ne (hi r List.mem_cons_self) ..

theorem Loaded.nil : Loaded number [] s v v :=
  ⟨fun _ hr => absurd hr List.not_mem_nil, fun _ _ => rfl⟩

theorem Loaded.cons {v₁ : Reg → Word} (hr : v₁ r = s (number r))
    (hne : ∀ r', r' ≠ r → v₁ r' = v r') (h : Loaded number rs s v₁ v') :
    Loaded number (r :: rs) s v v' := by
  constructor
  · intro r' hr'
    by_cases hmem : r' ∈ rs
    · exact h.reg r' hmem
    · obtain rfl := (List.mem_cons.mp hr').resolve_right hmem
      rw [h.other r' hmem, hr]
  · intro r' hr'
    rw [List.mem_cons, not_or] at hr'
    rw [h.other r' hr'.2, hne r' hr'.1]

variable (number rs)

/-- A block of stores. -/
theorem run_sd (s : Fin n → Word) (hsatp : h.csr .satp = w.token) (hbase : h.x base = w.va)
    (hinj : ∀ r ∈ rs, ∀ r' ∈ rs, number r = number r' → r = r') :
    ∃ s', run (execute w.port) (h, s) (rs.map fun r => .sd r (number r) base) = .ok (h, s') ∧
      Stored h.x number rs s s' := by
  induction rs generalizing s with
  | nil => exact ⟨s, rfl, .nil⟩
  | cons r rs ih =>
    have hmem : ∀ r' ∈ rs, r' ∈ r :: rs := fun r' => List.mem_cons_of_mem r
    obtain ⟨s', hrun, hs'⟩ := ih (Function.update s (number r) (h.x r)) fun r₁ hr₁ r₂ hr₂ =>
      hinj r₁ (hmem _ hr₁) r₂ (hmem _ hr₂)
    refine ⟨s', ?_, hs'.cons fun r' hr' => hinj r List.mem_cons_self r' (hmem _ hr')⟩
    rw [List.map_cons, run_cons, execute_sd hsatp hbase s (number r).isLt]
    exact hrun

theorem run_fsd (s : Fin n → Word) (hsatp : h.csr .satp = w.token) (hbase : h.x base = w.va)
    (hinj : ∀ r ∈ rs, ∀ r' ∈ rs, number r = number r' → r = r') :
    ∃ s', run (execute w.port) (h, s) (rs.map fun r => .fsd r (number r) base) = .ok (h, s') ∧
      Stored h.f number rs s s' := by
  induction rs generalizing s with
  | nil => exact ⟨s, rfl, .nil⟩
  | cons r rs ih =>
    have hmem : ∀ r' ∈ rs, r' ∈ r :: rs := fun r' => List.mem_cons_of_mem r
    obtain ⟨s', hrun, hs'⟩ := ih (Function.update s (number r) (h.f r)) fun r₁ hr₁ r₂ hr₂ =>
      hinj r₁ (hmem _ hr₁) r₂ (hmem _ hr₂)
    refine ⟨s', ?_, hs'.cons fun r' hr' => hinj r List.mem_cons_self r' (hmem _ hr')⟩
    rw [List.map_cons, run_cons, execute_fsd hsatp hbase s (number r).isLt]
    exact hrun

/-- A block of loads, which does not load its base. -/
theorem run_ld (s : Fin n → Word) (hsatp : h.csr .satp = w.token) (hbase : h.x base = w.va)
    (hrs : x0 ∉ rs) (hne : base ∉ rs) :
    ∃ x, run (execute w.port) (h, s) (rs.map fun r => .ld r (number r) base) =
      .ok ({ h with x := x }, s) ∧ Loaded number rs s h.x x := by
  induction rs generalizing h with
  | nil => exact ⟨h.x, rfl, .nil⟩
  | cons r rs ih =>
    rw [List.mem_cons, not_or] at hrs hne
    have hset : ∀ r', r' ≠ r → (h.set_x r (s (number r))).x r' = h.x r' :=
      fun r' hr' => Registers.set_of_ne _ hr' _
    have hbase' : (h.set_x r (s (number r))).x base = w.va := (hset base hne.1).trans hbase
    obtain ⟨x, hrun, hx⟩ := @ih (h.set_x r (s (number r))) hsatp hbase' hrs.2 hne.2
    refine ⟨x, ?_, hx.cons (Registers.set_self _ (Ne.symm hrs.1) _) hset⟩
    rw [List.map_cons, run_cons, execute_ld hsatp hbase s (number r).isLt]
    exact hrun

theorem run_fld (s : Fin n → Word) (hsatp : h.csr .satp = w.token) (hbase : h.x base = w.va) :
    ∃ f, run (execute w.port) (h, s) (rs.map fun r => .fld r (number r) base) =
      .ok ({ h with f := f }, s) ∧ Loaded number rs s h.f f := by
  induction rs generalizing h with
  | nil => exact ⟨h.f, rfl, .nil⟩
  | cons r rs ih =>
    have hbase' : (h.set_f r (s (number r))).x base = w.va := hbase
    obtain ⟨f, hrun, hf⟩ := @ih (h.set_f r (s (number r))) hsatp hbase'
    refine ⟨f, ?_, hf.cons (Function.update_self ..) fun r' hr' => Function.update_of_ne hr' ..⟩
    rw [List.map_cons, run_cons, execute_fld hsatp hbase s (number r).isLt]
    exact hrun

end Blocks

end Window

end RiscV
