import Mathlib.Data.List.Basic
import Mathlib.Algebra.GroupWithZero.Nat

/-!
# Points and lengths of time

`usize` arithmetic wraps. The order is the derived one, first the seconds and then
the microseconds; it is that of the lengths only where the microseconds stay
below a second, which the callers of `setitimer` need not ensure.
-/

namespace MyGOS.Time

def MSEC_PER_SEC : Nat := 1000
def USEC_PER_SEC : Nat := 1000000
def NSEC_PER_SEC : Nat := 1000000000

structure TimeVal where
  sec : Nat
  usec : Nat
deriving DecidableEq, Repr

namespace TimeVal

def zero : TimeVal := ⟨0, 0⟩

def add (t u : TimeVal) : TimeVal :=
  let sec := (t.sec + u.sec) % 2 ^ 64
  let usec := (t.usec + u.usec) % 2 ^ 64
  ⟨(sec + usec / USEC_PER_SEC) % 2 ^ 64, usec % USEC_PER_SEC⟩

def sub (t u : TimeVal) : TimeVal :=
  if t.sec < u.sec then zero
  else if t.sec = u.sec then
    if t.usec < u.usec then zero else ⟨0, t.usec - u.usec⟩
  else if t.usec < u.usec then
    ⟨t.sec - u.sec - 1, (USEC_PER_SEC + t.usec + (2 ^ 64 - u.usec)) % 2 ^ 64⟩
  else ⟨t.sec - u.sec, t.usec - u.usec⟩

instance : Add TimeVal := ⟨add⟩

instance : Sub TimeVal := ⟨sub⟩

instance : LT TimeVal := ⟨fun t u => t.sec < u.sec ∨ t.sec = u.sec ∧ t.usec < u.usec⟩

theorem lt_def {t u : TimeVal} : t < u ↔ t.sec < u.sec ∨ t.sec = u.sec ∧ t.usec < u.usec := Iff.rfl

instance : DecidableLT TimeVal := fun _ _ => decidable_of_iff _ lt_def.symm

/-- The derived `Ord::cmp`. -/
def cmp (t u : TimeVal) : Ordering := (compare t.sec u.sec).then (compare t.usec u.usec)

instance : Ord TimeVal := ⟨cmp⟩

/-- The length of a `TimeVal`. -/
def micros (t : TimeVal) : Nat := t.sec * USEC_PER_SEC + t.usec

def Normal (t : TimeVal) : Prop := t.usec < USEC_PER_SEC

instance (t : TimeVal) : Decidable t.Normal := inferInstanceAs (Decidable (_ < _))

variable {t u v : TimeVal}

@[simp] theorem micros_zero : zero.micros = 0 := rfl

theorem normal_zero : zero.Normal := by decide

theorem micros_pos (h : t ≠ zero) : 0 < t.micros := by
  obtain ⟨sec, usec⟩ := t
  simp only [zero, ne_eq, mk.injEq, not_and_or] at h
  simp only [micros, USEC_PER_SEC]
  omega

theorem Normal.lt_iff (ht : t.Normal) (hu : u.Normal) : t < u ↔ t.micros < u.micros := by
  simp only [Normal, micros, USEC_PER_SEC, lt_def] at *
  omega

/-- Two normal `TimeVal`s of one length are the same. -/
theorem Normal.eq_of_micros (ht : t.Normal) (hu : u.Normal) (h : t.micros = u.micros) : t = u := by
  obtain ⟨sec, usec⟩ := t
  obtain ⟨sec', usec'⟩ := u
  simp only [Normal, micros, USEC_PER_SEC, mk.injEq] at *
  omega

theorem Normal.compare_eq (ht : t.Normal) (hu : u.Normal) :
    compare t u = compare t.micros u.micros := by
  change (compare t.sec u.sec).then (compare t.usec u.usec) = _
  rcases hsec : compare t.sec u.sec with _ | _ | _
  · have hlt : t < u := Or.inl (Nat.compare_eq_lt.mp hsec)
    rw [Nat.compare_eq_lt.mpr ((ht.lt_iff hu).mp hlt)]
    rfl
  · have heq : t.sec = u.sec := Nat.compare_eq_eq.mp hsec
    rcases husec : compare t.usec u.usec with _ | _ | _
    · have hlt : t < u := Or.inr ⟨heq, Nat.compare_eq_lt.mp husec⟩
      rw [Nat.compare_eq_lt.mpr ((ht.lt_iff hu).mp hlt)]
      rfl
    · rw [micros, micros, heq, Nat.compare_eq_eq.mp husec, Nat.compare_eq_eq.mpr rfl]
      rfl
    · have hlt : u < t := Or.inr ⟨heq.symm, Nat.compare_eq_gt.mp husec⟩
      rw [Nat.compare_eq_gt.mpr ((hu.lt_iff ht).mp hlt)]
      rfl
  · have hlt : u < t := Or.inl (Nat.compare_eq_gt.mp hsec)
    rw [Nat.compare_eq_gt.mpr ((hu.lt_iff ht).mp hlt)]
    rfl

theorem Normal.sub (ht : t.Normal) (hu : u.Normal) : (t - u).Normal := by
  change (TimeVal.sub t u).Normal
  simp only [Normal, USEC_PER_SEC, TimeVal.sub, zero] at *
  split_ifs <;> dsimp only <;> omega

/-- Subtraction stops at zero. -/
theorem Normal.micros_sub (ht : t.Normal) (hu : u.Normal) :
    (t - u).micros = t.micros - u.micros := by
  have hborrow : (USEC_PER_SEC + t.usec + (2 ^ 64 - u.usec)) % 2 ^ 64 =
      USEC_PER_SEC + t.usec - u.usec := by
    simp only [Normal, USEC_PER_SEC] at *
    omega
  change (TimeVal.sub t u).micros = _
  rw [TimeVal.sub, hborrow]
  clear hborrow
  simp only [Normal, USEC_PER_SEC, zero, micros] at *
  split_ifs <;> simp only [Nat.zero_mul] <;> omega

theorem Normal.add (t u : TimeVal) : (t + u).Normal := Nat.mod_lt _ (by decide)

theorem Normal.micros_add (ht : t.Normal) (hu : u.Normal)
    (h : t.micros + u.micros < 2 ^ 64 * USEC_PER_SEC) :
    (t + u).micros = t.micros + u.micros := by
  change (TimeVal.add t u).micros = _
  simp only [Normal, USEC_PER_SEC, TimeVal.add, micros] at *
  omega

/-- The seconds of the sum, with what the microseconds carry, are a `usize`. -/
def Fits (t u : TimeVal) : Prop := t.sec + u.sec + (t.usec + u.usec) / USEC_PER_SEC < 2 ^ 64

instance (t u : TimeVal) : Decidable (t.Fits u) := inferInstanceAs (Decidable (_ < _))

theorem fits_iff : t.Fits u ↔ t.micros + u.micros < 2 ^ 64 * USEC_PER_SEC := by
  simp only [Fits, micros, USEC_PER_SEC]
  omega

theorem micros_add_lt (t u : TimeVal) : (t + u).micros < 2 ^ 64 * USEC_PER_SEC := by
  change (TimeVal.add t u).micros < _
  simp only [TimeVal.add, micros, USEC_PER_SEC]
  omega

theorem Normal.micros_add_iff (ht : t.Normal) (hu : u.Normal) :
    (t + u).micros = t.micros + u.micros ↔ t.Fits u := by
  rw [fits_iff]
  constructor
  · intro h
    exact h ▸ micros_add_lt t u
  · exact ht.micros_add hu

/-- The sum of two lengths is taken back to the first by the second. A sum that wraps around is
shorter than the second length, so that nothing is left of it. -/
theorem Normal.add_sub_iff (ht : t.Normal) (hu : u.Normal) (hsec : t.sec + u.sec < 2 ^ 64) :
    t + u - u = t ↔ t.Fits u := by
  have hsub := (Normal.add t u).micros_sub hu
  constructor
  · intro h
    rw [h] at hsub
    rcases Nat.eq_zero_or_pos t.micros with hzero | hpos
    · rw [fits_iff, hzero, Nat.zero_add]
      simp only [Normal, micros, USEC_PER_SEC] at hu ⊢
      omega
    · rw [← ht.micros_add_iff hu]
      omega
  · intro h
    refine (Normal.sub (Normal.add t u) hu).eq_of_micros ht ?_
    rw [hsub, (ht.micros_add_iff hu).mpr h, Nat.add_sub_cancel]

/-- Normal `TimeVal`s are ordered, subtracted and added as their lengths are, and the sum is exact
as long as the seconds have room for the carry. -/
theorem arithmetic_exact (ht : t.Normal) (hu : u.Normal) (hsec : t.sec + u.sec < 2 ^ 64) :
    (t + u).Normal ∧ (t - u).Normal ∧ (t - u).micros = t.micros - u.micros ∧
      compare t u = compare t.micros u.micros ∧ (t < u ↔ t.micros < u.micros) ∧
      ((t + u).micros = t.micros + u.micros ↔ t.Fits u) ∧ (t + u - u = t ↔ t.Fits u) :=
  ⟨Normal.add t u, ht.sub hu, ht.micros_sub hu, ht.compare_eq hu, ht.lt_iff hu,
    ht.micros_add_iff hu, ht.add_sub_iff hu hsec⟩

theorem arithmetic_exact_borrow : ((⟨2, 1⟩ : TimeVal) - ⟨0, 999999⟩).micros = 1000002 ∧
    ((⟨2, 1⟩ : TimeVal) + ⟨0, 999999⟩).micros = 3000000 ∧
    (⟨2, 1⟩ : TimeVal) + ⟨0, 999999⟩ - ⟨0, 999999⟩ = ⟨2, 1⟩ := by
  obtain ⟨-, -, hsub, -, -, hadd, hback⟩ :=
    @arithmetic_exact ⟨2, 1⟩ ⟨0, 999999⟩ (by decide) (by decide) (by decide)
  exact ⟨hsub, hadd.mpr (by decide), hback.mpr (by decide)⟩

/-- The seconds are added without overflow, and the carry wraps them around. -/
theorem add_carry_wraps : ∃ t u : TimeVal, t = ⟨2 ^ 64 - 1, 999999⟩ ∧ u = ⟨0, 1⟩ ∧ t.Normal ∧
    u.Normal ∧ t.sec + u.sec < 2 ^ 64 ∧ t + u = zero ∧
    (t + u).micros ≠ t.micros + u.micros ∧ t + u - u ≠ t :=
  ⟨_, _, rfl, rfl, by decide⟩

end TimeVal

structure TimeSpec where
  tv_sec : Nat
  tv_nsec : Nat
deriving DecidableEq, Repr

namespace TimeSpec

def into_ns (t : TimeSpec) : Nat := (t.tv_sec * NSEC_PER_SEC % 2 ^ 64 + t.tv_nsec) % 2 ^ 64

/-- The length of a `TimeSpec`. -/
def nanos (t : TimeSpec) : Nat := t.tv_sec * NSEC_PER_SEC + t.tv_nsec

theorem into_ns_eq (t : TimeSpec) : t.into_ns = t.nanos % 2 ^ 64 := Nat.mod_add_mod _ _ _

theorem into_ns_of_lt {t : TimeSpec} (h : t.nanos < 2 ^ 64) : t.into_ns = t.nanos :=
  t.into_ns_eq.trans (Nat.mod_eq_of_lt h)

end TimeSpec

end MyGOS.Time
