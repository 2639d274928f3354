import MyGOS.Task.Kernel
import MyGOS.Task.SignalMasks

/-!
# Signals that are sent by number

`sys_kill` and `sys_tkill` shift a bit by the number that comes from the user.
The shift wraps at 64, so a number above 64 stands for the signal of its
remainder, unless there is none.
-/

namespace MyGOS.Task

namespace SigSet

/-- The last bit is no signal's. -/
def from_bits (bits : BitVec 64) : Option SigSet :=
  if bits.getLsbD 63 then none else some bits

theorem from_bits_twoPow {j : Nat} (hj : j < 64) :
    from_bits (BitVec.twoPow 64 j) = if j = 63 then none else some (BitVec.twoPow 64 j) := by
  rw [from_bits, BitVec.getLsbD_twoPow]
  rcases eq_or_ne j 63 with rfl | hne
  · rfl
  · simp [hne]

end SigSet

namespace Calls

/-- A call that sends a signal to the task `pid`; `missing` is its result where there is none. -/
def send {w : Nat} (k : Kernel) (missing : Except Errno Int) (pid : Nat) (signal : BitVec w) :
    Except Errno Int × Kernel :=
  if signal = 0#w then (.ok 0, k)
  else
    let signal := 1#64 <<< ((signal - 1#w).toNat % 64)
    if pid ∈ k.pid2tcb then
      match SigSet.from_bits signal with
      | some flag =>
        (.ok 0, k.modify pid fun t => { t with pending_signals := t.pending_signals ||| flag })
      | none => (.error .EINVAL, k)
    else (missing, k)

def sys_kill (k : Kernel) (pid : Nat) (signal : BitVec 32) : Except Errno Int × Kernel :=
  send k (.ok 0) pid signal

def sys_tkill (k : Kernel) (current tid : Nat) (signal : BitVec 64) : Except Errno Int × Kernel :=
  send k (.error .ESRCH) (if tid = 0 then current else tid) signal

/-- The number is taken for what it is. -/
def Sends (k : Kernel) (pid signal : Nat) (r : Except Errno Int × Kernel) : Prop :=
  if signal = 0 then r.2 = k
  else if signal ≤ 63 then r.2 = k.modify pid fun t =>
    { t with pending_signals := t.pending_signals ||| BitVec.twoPow 64 (signal - 1) }
  else r = (.error .EINVAL, k)

variable {w : Nat} {k : Kernel} {pid : Nat} {missing : Except Errno Int}

theorem toNat_pos {signal : BitVec w} (h : signal ≠ 0#w) : 0 < signal.toNat :=
  Nat.pos_of_ne_zero fun hzero => h (BitVec.eq_of_toNat_eq (hzero.trans BitVec.toNat_zero.symm))

theorem toNat_pred {signal : BitVec w} (h : signal ≠ 0#w) :
    (signal - 1#w).toNat = signal.toNat - 1 := by
  have hone : (1#w).toNat = 1 := by
    rw [BitVec.toNat_ofNat]
    exact Nat.mod_eq_of_lt (Nat.lt_of_le_of_lt (toNat_pos h) signal.isLt)
  rw [BitVec.toNat_sub_of_le, hone]
  rw [BitVec.le_def, hone]
  exact toNat_pos h

/-- What a number other than 0 does. -/
theorem send_eq {signal : BitVec w} (hpid : pid ∈ k.pid2tcb) (h : signal ≠ 0#w) :
    send k missing pid signal =
      if signal.toNat % 64 = 0 then (.error .EINVAL, k)
      else (.ok 0, k.modify pid fun t => { t with
        pending_signals := t.pending_signals ||| BitVec.twoPow 64 ((signal.toNat - 1) % 64) }) := by
  have hpos := toNat_pos h
  unfold send
  rw [if_neg h, if_pos hpid]
  rw [toNat_pred h, ← BitVec.twoPow_eq, SigSet.from_bits_twoPow (Nat.mod_lt _ (by decide))]
  rcases eq_or_ne (signal.toNat % 64) 0 with hzero | hne
  · have hlast : (signal.toNat - 1) % 64 = 63 := by omega
    rw [if_pos hlast, if_pos hzero]
  · have hlast : (signal.toNat - 1) % 64 ≠ 63 := by omega
    rw [if_neg hlast, if_neg hne]

theorem send_iff {signal : BitVec w} (hpid : pid ∈ k.pid2tcb) :
    Sends k pid signal.toNat (send k missing pid signal) ↔
      signal.toNat ≤ 64 ∨ signal.toNat % 64 = 0 := by
  rcases eq_or_ne signal 0#w with rfl | hne
  · rw [Sends, if_pos BitVec.toNat_zero, send, if_pos rfl, BitVec.toNat_zero]
    exact iff_of_true rfl (Or.inl (Nat.zero_le _))
  have hpos := toNat_pos hne
  rw [Sends, if_neg hpos.ne', send_eq hpid hne]
  rcases Nat.lt_or_ge 63 signal.toNat with hhigh | hlow
  · rw [if_neg (by omega)]
    constructor
    · intro heq
      split at heq
      · exact Or.inr ‹_›
      · cases heq
    · intro hmod
      rw [if_pos (by omega)]
  · rw [if_pos hlow, if_neg (by omega), Nat.mod_eq_of_lt (by omega)]
    exact iff_of_true rfl (Or.inl (by omega))

/-- The scheduler's model of the call does the same to the tasks. -/
theorem sys_kill_eq (k : Kernel) (pid : Nat) (signal : BitVec 32) :
    (sys_kill k pid signal).2 = k.sys_kill pid signal.toNat := by
  unfold Kernel.sys_kill
  dsimp only
  rcases eq_or_ne signal 0#32 with rfl | hne
  · rfl
  have hpos := toNat_pos hne
  rcases Classical.em (pid ∈ k.pid2tcb) with hpid | hpid
  · rw [sys_kill, send_eq hpid hne]
    split
    · rw [if_pos (Or.inr (Or.inr (by omega)))]
    · rw [if_neg]
      · have hsignum : SigSet.of_signum ((signal.toNat - 1) % 64 + 1) =
            BitVec.twoPow 64 ((signal.toNat - 1) % 64) :=
          SigSet.of_signum_eq (Nat.succ_pos _) (by omega)
        simp only [SigSet.add, hsignum]
      · rintro (hzero | hgone | hlast)
        · exact hpos.ne' hzero
        · exact hgone hpid
        · omega
  · rw [if_pos (Or.inr (Or.inl hpid)), sys_kill, send, if_neg hne, if_neg hpid]

/-- For every task, both calls take a number for what it is if and only if it is at most 64 or
divisible by 64. -/
theorem sent_as_numbered_iff (k : Kernel) (pid : Nat) (hpid : pid ∈ k.pid2tcb) :
    (∀ signal : BitVec 32, Sends k pid signal.toNat (sys_kill k pid signal) ↔
      signal.toNat ≤ 64 ∨ signal.toNat % 64 = 0) ∧
    ∀ (current tid : Nat) (signal : BitVec 64), (if tid = 0 then current else tid) = pid →
      (Sends k pid signal.toNat (sys_tkill k current tid signal) ↔
        signal.toNat ≤ 64 ∨ signal.toNat % 64 = 0) := by
  constructor
  · intro signal
    exact send_iff hpid
  · rintro current tid signal rfl
    exact send_iff hpid

theorem initproc_sent_as_numbered : Sends Kernel.boot 0 9 (sys_kill Kernel.boot 0 9) :=
  ((sent_as_numbered_iff Kernel.boot 0 (by decide)).1 9).mpr (Or.inl (by decide))

/-- The number 65 is taken for `SIGHUP`. -/
theorem sent_as_other : ¬ Sends Kernel.boot 0 65 (sys_kill Kernel.boot 0 65) ∧
    ¬ Sends Kernel.boot 0 65 (sys_tkill Kernel.boot 0 0 65) := by
  have hpid : 0 ∈ Kernel.boot.pid2tcb := by decide
  constructor
  · intro hsends
    have hle : (65#32).toNat ≤ 64 ∨ (65#32).toNat % 64 = 0 := (send_iff hpid).mp hsends
    exact absurd hle (by decide)
  · intro hsends
    have hle : (65#64).toNat ≤ 64 ∨ (65#64).toNat % 64 = 0 := (send_iff hpid).mp hsends
    exact absurd hle (by decide)

end Calls

end MyGOS.Task
