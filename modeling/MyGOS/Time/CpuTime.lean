import MyGOS.Time.Clocks

/-!
# Accounted time

A trap adds to the user time, the return from it to the system time. Each takes
the difference from the moment the other one kept, and a new task has both
moments at zero: its first return adds all the time since the boot.
-/

namespace MyGOS.Time

/-- The time fields of a task. -/
structure TaskTimes where
  utime : TimeVal
  stime : TimeVal
  last_enter_umode_time : TimeVal
  last_enter_smode_time : TimeVal
deriving DecidableEq, Repr

namespace TaskTimes

/-- As `new` and `fork` make them. -/
def new : TaskTimes := ⟨.zero, .zero, .zero, .zero⟩

/-- The part of `trap_return` that accounts. The clock is read twice. -/
def trap_return (t : TaskTimes) (now again : TimeVal) : TaskTimes :=
  let diff := now - t.last_enter_smode_time
  { t with
    stime := t.stime + diff
    last_enter_umode_time := again }

/-- The part of `user_trap_handler` that accounts. -/
def user_trap_handler (t : TaskTimes) (now again : TimeVal) : TaskTimes :=
  let diff := now - t.last_enter_umode_time
  { t with
    utime := t.utime + diff
    last_enter_smode_time := again }

end TaskTimes

inductive Mode where
  | smode
  | umode
deriving DecidableEq, Repr

/-- The two clock readings of a trap or of a return from it. -/
structure Passage where
  now : Nat
  again : Nat
deriving DecidableEq, Repr

/-- A task leaves the mode it is in. -/
def Mode.pass (b : Board) (p : Passage) : Mode × TaskTimes → Mode × TaskTimes
  | (.smode, t) => (.umode, t.trap_return (get_timeval b p.now) (get_timeval b p.again))
  | (.umode, t) => (.smode, t.user_trap_handler (get_timeval b p.now) (get_timeval b p.again))

/-- The times of a task after each passage, with the counter at the moment they change. -/
def accounts (b : Board) : Mode × TaskTimes → List Passage → List (Nat × TaskTimes)
  | _, [] => []
  | s, p :: ps => (p.now, (Mode.pass b p s).2) :: accounts b (Mode.pass b p s) ps

/-- The readings do not go back, and fit the counter. -/
def Forward : Nat → List Passage → Prop
  | _, [] => True
  | t, p :: ps => t ≤ p.now ∧ p.now ≤ p.again ∧ p.again < 2 ^ 64 ∧ Forward p.again ps

instance Forward.decidable : ∀ t ps, Decidable (Forward t ps)
  | _, [] => inferInstanceAs (Decidable True)
  | t, p :: ps =>
    have : Decidable (Forward p.again ps) := Forward.decidable p.again ps
    inferInstanceAs
      (Decidable (t ≤ p.now ∧ p.now ≤ p.again ∧ p.again < 2 ^ 64 ∧ Forward p.again ps))

namespace TaskTimes

def micros (t : TaskTimes) : Nat := t.utime.micros + t.stime.micros

/-- No more time is accounted than has passed since the counter read `born`. -/
def Within (b : Board) (born now : Nat) (t : TaskTimes) : Prop :=
  t.micros ≤ (get_timeval b now - get_timeval b born).micros

end TaskTimes

/-- The moment from which the next passage takes its difference. -/
def kept_moment : Mode × TaskTimes → TimeVal
  | (.smode, t) => t.last_enter_smode_time
  | (.umode, t) => t.last_enter_umode_time

/-- All that is accounted lies before the kept moment. -/
structure Accounted (b : Board) (now : Nat) (s : Mode × TaskTimes) : Prop where
  utime : s.2.utime.Normal
  stime : s.2.stime.Normal
  kept : (kept_moment s).Normal
  micros : s.2.micros ≤ (kept_moment s).micros
  past : (kept_moment s).micros ≤ (get_timeval b now).micros

variable {b : Board} {born now : Nat} {s : Mode × TaskTimes} {p : Passage} {ps : List Passage}

theorem accounted_new (b : Board) (now : Nat) : Accounted b now (.smode, .new) where
  utime := TimeVal.normal_zero
  stime := TimeVal.normal_zero
  kept := TimeVal.normal_zero
  micros := by decide
  past := Nat.zero_le _

/-- The seconds of the clock are far from overflowing. -/
theorem micros_get_timeval_lt (h : now < 2 ^ 64) :
    (get_timeval b now).micros < 2 ^ 64 * USEC_PER_SEC := by
  rw [micros_get_timeval, Nat.div_lt_iff_lt_mul (clock_freq_pos b)]
  calc
    now * USEC_PER_SEC < 2 ^ 64 * USEC_PER_SEC := Nat.mul_lt_mul_of_pos_right h (by decide)
    _ ≤ 2 ^ 64 * USEC_PER_SEC * b.CLOCK_FREQ := Nat.le_mul_of_pos_right _ (clock_freq_pos b)

/-- A length that ends at `total` grows by what lies between the kept moment and the clock. -/
theorem micros_add_diff {total m : TimeVal} {other : Nat} (htotal : total.Normal) (hm : m.Normal)
    (hle : total.micros + other ≤ m.micros) (hpast : m.micros ≤ (get_timeval b now).micros)
    (hnow : now < 2 ^ 64) : (total + (get_timeval b now - m)).micros =
      total.micros + ((get_timeval b now).micros - m.micros) := by
  have hdiff := (get_timeval_normal b now).micros_sub hm
  have hlt := micros_get_timeval_lt (b := b) hnow
  rw [htotal.micros_add ((get_timeval_normal b now).sub hm) (by omega), hdiff]

theorem Accounted.pass (h : Accounted b now s) (hp : now ≤ p.now) (hagain : p.now ≤ p.again)
    (hlt : p.again < 2 ^ 64) : Accounted b p.again (Mode.pass b p s) ∧
      (Mode.pass b p s).2.micros ≤ (get_timeval b p.now).micros := by
  obtain ⟨mode, t⟩ := s
  have hpast := h.past.trans (micros_get_timeval_mono b hp)
  have hmono := micros_get_timeval_mono b hagain
  have hmicros := h.micros
  have hnow : p.now < 2 ^ 64 := by omega
  cases mode with
  | smode =>
    have hsum : (Mode.pass b p (.smode, t)).2.micros ≤ (get_timeval b p.now).micros := by
      have hadd := micros_add_diff h.stime h.kept ((Nat.add_comm _ _).trans_le hmicros) hpast hnow
      simp only [Mode.pass, TaskTimes.trap_return, TaskTimes.micros, kept_moment] at *
      omega
    refine ⟨?_, hsum⟩
    constructor
    · exact h.utime
    · exact TimeVal.Normal.add _ _
    · exact get_timeval_normal b _
    · exact hsum.trans hmono
    · exact le_rfl
  | umode =>
    have hsum : (Mode.pass b p (.umode, t)).2.micros ≤ (get_timeval b p.now).micros := by
      have hadd := micros_add_diff h.utime h.kept hmicros hpast hnow
      simp only [Mode.pass, TaskTimes.user_trap_handler, TaskTimes.micros, kept_moment] at *
      omega
    refine ⟨?_, hsum⟩
    constructor
    · exact TimeVal.Normal.add _ _
    · exact h.stime
    · exact get_timeval_normal b _
    · exact hsum.trans hmono
    · exact le_rfl

/-- Over a whole run no more is accounted than the clock reads: the time since the boot. -/
theorem Accounted.run (h : Accounted b now s) (hps : Forward now ps) :
    ∀ e ∈ accounts b s ps, e.2.micros ≤ (get_timeval b e.1).micros := by
  induction ps generalizing now s with
  | nil => simp [accounts]
  | cons p ps ih =>
    obtain ⟨hp, hagain, hlt, hps⟩ := hps
    obtain ⟨hpass, hle⟩ := h.pass hp hagain hlt
    intro e he
    rcases List.mem_cons.mp he with rfl | he
    · exact hle
    · exact ih hpass hps e he

theorem micros_trap_return (t : TaskTimes) (now again : TimeVal) :
    (t.trap_return now again).micros =
      t.utime.micros + (t.stime + (now - t.last_enter_smode_time)).micros := rfl

/-- The first return accounts the time since the boot. -/
theorem micros_first_return (hnow : p.now < 2 ^ 64) :
    (Mode.pass b p (.smode, .new)).2.micros = (get_timeval b p.now).micros := by
  have hpast : TimeVal.zero.micros ≤ (get_timeval b p.now).micros := by simp
  have hadd := micros_add_diff TimeVal.normal_zero TimeVal.normal_zero (Nat.add_zero _).le hpast hnow
  rw [TimeVal.micros_zero, Nat.zero_add, Nat.sub_zero] at hadd
  rw [Mode.pass, micros_trap_return, TaskTimes.new, TimeVal.micros_zero, Nat.zero_add, hadd]

theorem micros_born_eq_zero_iff :
    (get_timeval b born).micros = 0 ↔ born * USEC_PER_SEC < b.CLOCK_FREQ := by
  rw [micros_get_timeval, Nat.div_eq_zero_iff_lt (clock_freq_pos b)]

/-- A task that has returned to user mode is within its lifetime only if it was created in the
first microsecond. -/
theorem accounted_within_lifetime_iff (hps : Forward born ps) :
    (∀ e ∈ accounts b (.smode, .new) ps, e.2.Within b born e.1) ↔
      ps = [] ∨ born * USEC_PER_SEC < b.CLOCK_FREQ := by
  have hsub (e : Nat × TaskTimes) : e.2.Within b born e.1 ↔
      e.2.micros ≤ (get_timeval b e.1).micros - (get_timeval b born).micros := by
    rw [TaskTimes.Within, (get_timeval_normal b _).micros_sub (get_timeval_normal b _)]
  simp only [hsub, ← micros_born_eq_zero_iff]
  constructor
  · intro h
    cases ps with
    | nil => exact Or.inl rfl
    | cons p ps =>
      obtain ⟨hborn, hagain, hlt, -⟩ := hps
      have hfirst := h (p.now, (Mode.pass b p (.smode, .new)).2) List.mem_cons_self
      have hmono := micros_get_timeval_mono b hborn
      rw [micros_first_return (by omega)] at hfirst
      dsimp only at hfirst
      exact Or.inr (by omega)
  · rintro (rfl | hborn)
    · simp [accounts]
    · simpa only [hborn, Nat.sub_zero] using (accounted_new b born).run hps

/-- Created a second after the boot, and back in user mode at once: a second of system time. -/
theorem accounted_beyond_lifetime : Forward 12500000 [⟨12500000, 12500000⟩] ∧
    ¬ ∀ e ∈ accounts .qemu (.smode, .new) [⟨12500000, 12500000⟩],
      e.2.Within .qemu 12500000 e.1 := by
  constructor
  · decide
  · intro h
    exact absurd (h _ List.mem_cons_self) (by unfold TaskTimes.Within; decide)

theorem accounted_within_lifetime_iff_boot :
    Forward 0 [⟨0, 0⟩, ⟨12500000, 12500001⟩] ∧
      ∀ e ∈ accounts .qemu (.smode, .new) [⟨0, 0⟩, ⟨12500000, 12500001⟩],
        e.2.Within .qemu 0 e.1 := by
  have hps : Forward 0 [⟨0, 0⟩, ⟨12500000, 12500001⟩] := by decide
  exact ⟨hps, (accounted_within_lifetime_iff hps).mpr (Or.inr (by decide))⟩

end MyGOS.Time
