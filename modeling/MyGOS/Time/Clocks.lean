import MyGOS.Time.TimeVal
import Mathlib.Algebra.Order.Ring.Rat
import Mathlib.Data.Rat.Cast.Order
import Mathlib.Tactic.Linarith
import Mathlib.Tactic.NormNum

/-!
# The clocks of the kernel

They all read one tick counter, and each divides it by the frequency of the
board in an order of its own.
-/

namespace MyGOS.Time

inductive Board where
  | qemu
  | cvitex
deriving DecidableEq, Repr

def Board.CLOCK_FREQ : Board → Nat
  | .qemu => 12500000
  | .cvitex => 25000000

variable (b : Board) (ticks : Nat)

def get_time_ms : Nat := ticks / (b.CLOCK_FREQ / MSEC_PER_SEC)

def get_time_ns : Nat := ticks / (b.CLOCK_FREQ / USEC_PER_SEC) * MSEC_PER_SEC % 2 ^ 64

def get_time_us : Nat := ticks / (b.CLOCK_FREQ / USEC_PER_SEC)

def get_time_s : Nat := ticks / b.CLOCK_FREQ

def get_timeval : TimeVal :=
  ⟨ticks / b.CLOCK_FREQ, ticks % b.CLOCK_FREQ * USEC_PER_SEC % 2 ^ 64 / b.CLOCK_FREQ⟩

/-- The seconds and nanoseconds that `sys_clock_gettime` writes, unless the pointer is null. -/
def sys_clock_gettime : Nat × Nat :=
  (ticks / b.CLOCK_FREQ, ticks % b.CLOCK_FREQ * (NSEC_PER_SEC / b.CLOCK_FREQ) % 2 ^ 64)

theorem clock_freq_pos : 0 < b.CLOCK_FREQ := by
  cases b <;> decide

/-- Not even a whole second of ticks overflows in `get_timeval`. -/
theorem get_timeval_eq : get_timeval b ticks =
    ⟨ticks / b.CLOCK_FREQ, ticks % b.CLOCK_FREQ * USEC_PER_SEC / b.CLOCK_FREQ⟩ := by
  have hlt : ticks % b.CLOCK_FREQ * USEC_PER_SEC < 2 ^ 64 := by
    cases b <;> simp only [Board.CLOCK_FREQ, USEC_PER_SEC] <;> omega
  rw [get_timeval, Nat.mod_eq_of_lt hlt]

@[simp] theorem get_timeval_normal : (get_timeval b ticks).Normal := by
  rw [get_timeval_eq]
  cases b <;> simp only [TimeVal.Normal, Board.CLOCK_FREQ, USEC_PER_SEC] <;> omega

theorem micros_get_timeval :
    (get_timeval b ticks).micros = ticks * USEC_PER_SEC / b.CLOCK_FREQ := by
  rw [get_timeval_eq]
  cases b <;> simp only [TimeVal.micros, Board.CLOCK_FREQ, USEC_PER_SEC] <;> omega

theorem micros_get_timeval_mono {s t : Nat} (h : s ≤ t) :
    (get_timeval b s).micros ≤ (get_timeval b t).micros := by
  rw [micros_get_timeval, micros_get_timeval]
  exact Nat.div_le_div_right (Nat.mul_le_mul_right _ h)

section Agreement

/-- The time since boot that the counter stands for, in microseconds. -/
def elapsed : ℚ := ticks * USEC_PER_SEC / b.CLOCK_FREQ

/-- What the clocks report, each in microseconds. -/
def readings : List ℚ :=
  [get_time_us b ticks, get_time_ns b ticks / MSEC_PER_SEC, (get_timeval b ticks).micros,
    (sys_clock_gettime b ticks).1 * USEC_PER_SEC + (sys_clock_gettime b ticks).2 / MSEC_PER_SEC]

/-- Less than two microseconds off the time since boot, and off one another. -/
def Agree : Prop :=
  (∀ x ∈ readings b ticks, |x - elapsed b ticks| < 2) ∧
    ∀ x ∈ readings b ticks, ∀ y ∈ readings b ticks, |x - y| < 2

/-- `get_time_us` takes 12 ticks for a microsecond that has 12.5 on the one board;
on the other the product of `get_time_ns` wraps. -/
def Board.InStep : Board → Nat → Prop
  | .qemu, ticks => ticks < 300 ∨ ticks < 600 ∧ (ticks - 300) / 12 ≤ 2 * (ticks - 300) / 25
  | .cvitex, ticks => ticks < 25 * (2 ^ 64 / 1000 + 1)

variable {b ticks}

theorem elapsed_window :
    ((get_timeval b ticks).micros : ℚ) ≤ elapsed b ticks ∧
      elapsed b ticks < (get_timeval b ticks).micros + 1 := by
  have hfreq : (0 : ℚ) < b.CLOCK_FREQ := by exact_mod_cast clock_freq_pos b
  rw [elapsed, le_div_iff₀ hfreq, div_lt_iff₀ hfreq, micros_get_timeval]
  constructor
  · exact_mod_cast Nat.div_mul_le_self _ _
  · exact_mod_cast Nat.lt_mul_of_div_lt (Nat.lt_succ_self _) (clock_freq_pos b)

/-- A second has a whole number of nanoseconds for each tick. -/
theorem sys_clock_gettime_exact :
    (sys_clock_gettime b ticks).1 * USEC_PER_SEC + (sys_clock_gettime b ticks).2 / MSEC_PER_SEC =
      elapsed b ticks := by
  have hticks := Nat.div_add_mod ticks b.CLOCK_FREQ
  have hmod := Nat.mod_lt ticks (clock_freq_pos b)
  have hns : (sys_clock_gettime b ticks).2 =
      ticks % b.CLOCK_FREQ * (NSEC_PER_SEC / b.CLOCK_FREQ) := by
    cases b <;> simp only [sys_clock_gettime, Board.CLOCK_FREQ, NSEC_PER_SEC] at hmod ⊢ <;> omega
  rw [hns, elapsed]
  nth_rewrite 3 [← hticks]
  cases b <;> simp only [sys_clock_gettime, Board.CLOCK_FREQ, USEC_PER_SEC, NSEC_PER_SEC,
    MSEC_PER_SEC] <;> push_cast <;> linarith

theorem inStep_iff : b.InStep ticks ↔
    get_time_us b ticks ≤ (get_timeval b ticks).micros + 1 ∧
      get_time_us b ticks * MSEC_PER_SEC < 2 ^ 64 := by
  rw [micros_get_timeval]
  cases b with
  | qemu =>
    simp only [Board.InStep, get_time_us, Board.CLOCK_FREQ, USEC_PER_SEC, MSEC_PER_SEC]
    rcases Nat.lt_or_ge ticks 300 with hlt | hge
    · omega
    · -- 300 ticks are 25 microseconds of the one clock and 24 of the other
      have hus : ticks / (12500000 / 1000000) = (ticks - 300) / 12 + 25 := by omega
      have hmicros : ticks * 1000000 / 12500000 = 2 * (ticks - 300) / 25 + 24 := by omega
      rw [hus, hmicros]
      omega
  | cvitex =>
    simp only [Board.InStep, get_time_us, Board.CLOCK_FREQ, USEC_PER_SEC, MSEC_PER_SEC]
    omega

theorem micros_le_get_time_us : (get_timeval b ticks).micros ≤ get_time_us b ticks := by
  rw [micros_get_timeval]
  cases b <;> simp only [get_time_us, Board.CLOCK_FREQ, USEC_PER_SEC] <;> omega

theorem Board.InStep.window (h : b.InStep ticks) : ∀ x ∈ elapsed b ticks :: readings b ticks,
    ((get_timeval b ticks).micros : ℚ) ≤ x ∧ x ≤ (get_timeval b ticks).micros + 1 := by
  obtain ⟨hle, hlt⟩ := inStep_iff.mp h
  have hus : ((get_timeval b ticks).micros : ℚ) ≤ get_time_us b ticks ∧
      (get_time_us b ticks : ℚ) ≤ (get_timeval b ticks).micros + 1 :=
    ⟨by exact_mod_cast micros_le_get_time_us, by exact_mod_cast hle⟩
  have hns : (get_time_ns b ticks / MSEC_PER_SEC : ℚ) = get_time_us b ticks := by
    rw [show get_time_ns b ticks = get_time_us b ticks * MSEC_PER_SEC from Nat.mod_eq_of_lt hlt]
    norm_num [MSEC_PER_SEC]
  obtain ⟨helapsed, hlast⟩ := @elapsed_window b ticks
  simp only [readings, List.forall_mem_cons, List.not_mem_nil, IsEmpty.forall_iff, implies_true,
    and_true, hns, sys_clock_gettime_exact]
  exact ⟨⟨helapsed, hlast.le⟩, hus, hus, ⟨le_rfl, by linarith⟩, helapsed, hlast.le⟩

theorem clocks_agree_iff (b : Board) (ticks : Nat) : Agree b ticks ↔ b.InStep ticks := by
  constructor
  · rintro ⟨-, h⟩
    have hus := abs_lt.mp (h (get_time_us b ticks) (by simp [readings])
      (get_timeval b ticks).micros (by simp [readings]))
    have hns := abs_lt.mp (h (get_time_us b ticks) (by simp [readings])
      (get_time_ns b ticks / MSEC_PER_SEC) (by simp [readings]))
    rw [inStep_iff]
    constructor
    · have hlt : (get_time_us b ticks : ℚ) < ((get_timeval b ticks).micros + 2 : Nat) := by
        push_cast
        linarith [hus.2]
      have := Nat.cast_lt.mp hlt
      omega
    · by_contra hwrap
      have hle : get_time_ns b ticks + 2 ^ 64 ≤ get_time_us b ticks * MSEC_PER_SEC := by
        change get_time_us b ticks * MSEC_PER_SEC % 2 ^ 64 + 2 ^ 64 ≤ _
        omega
      have hle : (get_time_ns b ticks + 2 ^ 64 : ℚ) ≤ get_time_us b ticks * MSEC_PER_SEC := by
        exact_mod_cast hle
      norm_num [MSEC_PER_SEC] at hns hle
      linarith [hns.2]
  · intro h
    obtain ⟨helapsed, hread⟩ := List.forall_mem_cons.mp h.window
    constructor
    · intro x hx
      rw [abs_lt]
      constructor <;> linarith [(hread x hx).1, (hread x hx).2]
    · intro x hx y hy
      rw [abs_lt]
      constructor <;> linarith [(hread x hx).1, (hread x hx).2, (hread y hy).1, (hread y hy).2]

/-- A second after the boot `get_time_us` is ahead by more than 40 milliseconds. -/
theorem clocks_drift : ¬ Agree .qemu 12500000 := by
  rw [Agree]
  intro h
  have hmem : (1041666 : ℚ) ∈ readings .qemu 12500000 := by
    simp [readings, get_time_us, Board.CLOCK_FREQ, USEC_PER_SEC]
  have hlt := (abs_lt.mp (h.1 _ hmem)).2
  norm_num [elapsed, Board.CLOCK_FREQ, USEC_PER_SEC] at hlt

end Agreement

end MyGOS.Time
