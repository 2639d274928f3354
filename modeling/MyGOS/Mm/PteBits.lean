import MyGOS.Mm.PageTable
import Mathlib.Tactic.IntervalCases

/-!
# The bits of a page table entry

An entry is one word: the flags in the low ten bits and the frame above them.
`entry` reads the two parts, and each update of the bits is one of the parts.
-/

namespace MyGOS.Mm

namespace PTEFlags

def bits (flags : PTEFlags) : BitVec 64 :=
  (BitVec.ofBoolListLE [flags.v, flags.r, flags.w, flags.x, flags.u, flags.g, flags.a, flags.d,
    flags.cow]).setWidth 64

/-- The flags whose bits are set, whatever the other bits are. -/
def of_bits_truncate (bits : BitVec 64) : PTEFlags where
  v := bits.getLsbD 0
  r := bits.getLsbD 1
  w := bits.getLsbD 2
  x := bits.getLsbD 3
  u := bits.getLsbD 4
  g := bits.getLsbD 5
  a := bits.getLsbD 6
  d := bits.getLsbD 7
  cow := bits.getLsbD 8

/-- `PTEFlags::from_bits`: none but the nine flags. -/
def from_bits (bits : BitVec 64) : Option PTEFlags :=
  if bits &&& ~~~0x1ff = 0 then some (of_bits_truncate bits) else none

end PTEFlags

/-- The `bits` of a `PageTableEntry`. -/
abbrev PteBits := BitVec 64

namespace PteBits

def PTEFLAGS_MASK : BitVec 64 := 0b1111111111

def new (ppn : Nat) (flags : PTEFlags) : PteBits := BitVec.ofNat 64 ppn <<< 10 ||| flags.bits

def ppn (pte : PteBits) : Nat := (pte >>> 10 &&& BitVec.ofNat 64 (2 ^ 44 - 1)).toNat

def flags (pte : PteBits) : Except Panic PTEFlags :=
  match PTEFlags.from_bits (pte &&& PTEFLAGS_MASK) with
  | some flags => .ok flags
  | none => .error (.unsupportedBits pte.toNat)

def is_valid (pte : PteBits) : Except Panic Bool := do
  return (← pte.flags).v

def set_flags (pte : PteBits) (flags : PTEFlags) : PteBits :=
  pte &&& 0xfffffffffffffc00 ||| flags.bits

def set_cow (pte : PteBits) : PteBits := pte ||| (1 : BitVec 64) <<< 8

def reset_cow (pte : PteBits) : PteBits := pte &&& ~~~((1 : BitVec 64) <<< 8)

/-- No bit is set that `PTEFlags` does not know, so `flags` does not panic. -/
def Clean (pte : PteBits) : Prop := pte.getLsbD 9 = false

/-- The flags of a clean entry. -/
abbrev pte_flags (pte : PteBits) : PTEFlags := PTEFlags.of_bits_truncate pte

variable {pte : PteBits} {n : Nat} {fl : PTEFlags}

theorem getLsbD_flags_bits (fl : PTEFlags) (i : Nat) : fl.bits.getLsbD i =
    [fl.v, fl.r, fl.w, fl.x, fl.u, fl.g, fl.a, fl.d, fl.cow].getD i false := by
  rw [PTEFlags.bits, BitVec.getLsbD_setWidth, BitVec.getLsbD_ofBoolListLE]
  by_cases hi : i < 64
  · simp [hi]
  · rw [decide_eq_false hi, Bool.false_and, List.getD_eq_getElem?_getD,
      List.getElem?_eq_none (by simp; omega), Option.getD_none]

theorem of_bits_truncate_congr {b b' : BitVec 64} (h : ∀ i < 9, b.getLsbD i = b'.getLsbD i) :
    PTEFlags.of_bits_truncate b = PTEFlags.of_bits_truncate b' := by
  simp only [PTEFlags.of_bits_truncate, h 0 (by decide), h 1 (by decide), h 2 (by decide),
    h 3 (by decide), h 4 (by decide), h 5 (by decide), h 6 (by decide), h 7 (by decide),
    h 8 (by decide)]

theorem of_bits_truncate_bits (fl : PTEFlags) : PTEFlags.of_bits_truncate fl.bits = fl := by
  simp only [PTEFlags.of_bits_truncate, getLsbD_flags_bits]
  rfl

theorem toNat_flags_bits_lt (fl : PTEFlags) : fl.bits.toNat < 2 ^ 9 := by
  have hlt := (BitVec.ofBoolListLE
    [fl.v, fl.r, fl.w, fl.x, fl.u, fl.g, fl.a, fl.d, fl.cow]).isLt
  rw [PTEFlags.bits, BitVec.toNat_setWidth]
  exact Nat.lt_of_le_of_lt (Nat.mod_le _ _) hlt

theorem flags_eq (h : pte.Clean) : pte.flags = .ok pte.pte_flags := by
  have hmask : pte &&& PTEFLAGS_MASK &&& ~~~0x1ff = 0 := by
    have htwo : PTEFLAGS_MASK &&& ~~~0x1ff = BitVec.twoPow 64 9 := by decide
    rw [BitVec.and_assoc, htwo, BitVec.and_twoPow, h]
    rfl
  have hbits : PTEFlags.of_bits_truncate (pte &&& PTEFLAGS_MASK) = pte.pte_flags := by
    simp [PTEFlags.of_bits_truncate, PTEFLAGS_MASK]
  rw [flags, PTEFlags.from_bits, if_pos hmask, hbits]

theorem is_valid_eq (h : pte.Clean) : pte.is_valid = .ok (pte.getLsbD 0) := by
  rw [is_valid, flags_eq h]
  rfl

theorem ppn_eq (pte : PteBits) : pte.ppn = (pte.toNat >>> 10) % 2 ^ 44 := by
  rw [ppn, BitVec.toNat_and, BitVec.toNat_ushiftRight, BitVec.toNat_ofNat,
    Nat.mod_eq_of_lt (by decide), Nat.and_two_pow_sub_one_eq_mod]

theorem ppn_new (h : n < 2 ^ 44) (fl : PTEFlags) : (new n fl).ppn = n := by
  have hfl := toNat_flags_bits_lt fl
  have hzero : fl.bits.toNat >>> 10 = 0 := by
    rw [Nat.shiftRight_eq_div_pow]
    exact Nat.div_eq_of_lt (by omega)
  rw [ppn_eq, new, BitVec.toNat_or, BitVec.toNat_shiftLeft, BitVec.toNat_ofNat,
    Nat.mod_eq_of_lt (by omega : n < 2 ^ 64), Nat.shiftLeft_eq,
    Nat.mod_eq_of_lt (by omega : n * 2 ^ 10 < 2 ^ 64), Nat.shiftRight_or_distrib, hzero, Nat.or_zero, Nat.shiftRight_eq_div_pow,
    Nat.mul_div_cancel _ (by decide), Nat.mod_eq_of_lt h]

theorem getLsbD_new_low (n : Nat) (fl : PTEFlags) {i : Nat} (hi : i < 10) :
    (new n fl).getLsbD i = fl.bits.getLsbD i := by
  rw [new, BitVec.getLsbD_or, BitVec.getLsbD_shiftLeft, decide_eq_true hi]
  simp

theorem clean_new (n : Nat) (fl : PTEFlags) : (new n fl).Clean := by
  rw [Clean, getLsbD_new_low n fl (by decide), getLsbD_flags_bits]
  rfl

theorem pte_flags_new (n : Nat) (fl : PTEFlags) : (new n fl).pte_flags = fl := by
  rw [pte_flags, of_bits_truncate_congr fun i hi => getLsbD_new_low n fl (by omega),
    of_bits_truncate_bits]

theorem set_flags_ppn (pte : PteBits) (fl : PTEFlags) : (pte.set_flags fl).ppn = pte.ppn := by
  have hzero : fl.bits.toNat >>> 10 = 0 := by
    have hfl := toNat_flags_bits_lt fl
    rw [Nat.shiftRight_eq_div_pow]
    exact Nat.div_eq_of_lt (by omega)
  have hmask : (0xfffffffffffffc00 : BitVec 64).toNat >>> 10 = 2 ^ 54 - 1 := by decide
  have hlt : pte.toNat >>> 10 < 2 ^ 54 := by
    have := pte.isLt
    rw [Nat.shiftRight_eq_div_pow]
    omega
  rw [ppn_eq, ppn_eq, set_flags, BitVec.toNat_or, BitVec.toNat_and, Nat.shiftRight_or_distrib,
    hzero, Nat.or_zero, Nat.shiftRight_and_distrib, hmask, Nat.and_two_pow_sub_one_eq_mod,
    Nat.mod_eq_of_lt hlt]

theorem set_flags_low (pte : PteBits) (fl : PTEFlags) {i : Nat} (hi : i < 10) :
    (pte.set_flags fl).getLsbD i = fl.bits.getLsbD i := by
  have hmask : (0xfffffffffffffc00 : BitVec 64).getLsbD i = false := by
    interval_cases i <;> decide
  rw [set_flags, BitVec.getLsbD_or, BitVec.getLsbD_and, hmask, Bool.and_false, Bool.false_or]

theorem getLsbD_set_cow (pte : PteBits) (i : Nat) :
    pte.set_cow.getLsbD i = (pte.getLsbD i || decide (8 = i)) := by
  have htwo : (1 : BitVec 64) <<< 8 = BitVec.twoPow 64 8 := by decide
  rw [set_cow, htwo, BitVec.getLsbD_or, BitVec.getLsbD_twoPow, decide_eq_true (by decide : 8 < 64),
    Bool.true_and]

theorem getLsbD_reset_cow (pte : PteBits) {i : Nat} (hi : i < 64) :
    pte.reset_cow.getLsbD i = (pte.getLsbD i && !decide (8 = i)) := by
  have htwo : (1 : BitVec 64) <<< 8 = BitVec.twoPow 64 8 := by decide
  rw [reset_cow, htwo, BitVec.getLsbD_and, BitVec.getLsbD_not, BitVec.getLsbD_twoPow,
    decide_eq_true hi, decide_eq_true (by decide : 8 < 64), Bool.true_and, Bool.true_and]

theorem set_cow_ppn (pte : PteBits) : pte.set_cow.ppn = pte.ppn := by
  have hzero : ((1 : BitVec 64) <<< 8).toNat >>> 10 = 0 := by decide
  rw [ppn_eq, ppn_eq, set_cow, BitVec.toNat_or, Nat.shiftRight_or_distrib, hzero, Nat.or_zero]

theorem reset_cow_ppn (pte : PteBits) : pte.reset_cow.ppn = pte.ppn := by
  have hmask : (~~~((1 : BitVec 64) <<< 8)).toNat >>> 10 = 2 ^ 54 - 1 := by decide
  have hlt : pte.toNat >>> 10 < 2 ^ 54 := by
    have := pte.isLt
    rw [Nat.shiftRight_eq_div_pow]
    omega
  rw [ppn_eq, ppn_eq, reset_cow, BitVec.toNat_and, Nat.shiftRight_and_distrib, hmask,
    Nat.and_two_pow_sub_one_eq_mod, Nat.mod_eq_of_lt hlt]

/-- What an entry says: its frame and its flags. -/
def entry (pte : PteBits) : PageTableEntry := ⟨pte.ppn, pte.pte_flags⟩

theorem entry_new (h : n < 2 ^ 44) (fl : PTEFlags) : (new n fl).entry = ⟨n, fl⟩ := by
  rw [entry, ppn_new h, pte_flags_new]

theorem entry_set_flags (pte : PteBits) (fl : PTEFlags) :
    (pte.set_flags fl).entry = pte.entry.set_flags fl := by
  have hflags : (pte.set_flags fl).pte_flags = fl := by
    rw [pte_flags, of_bits_truncate_congr fun i hi => set_flags_low pte fl (by omega),
      of_bits_truncate_bits]
  rw [entry, set_flags_ppn, hflags]
  rfl

theorem entry_set_cow (pte : PteBits) : pte.set_cow.entry = pte.entry.set_cow := by
  have hflags : pte.set_cow.pte_flags = { pte.pte_flags with cow := true } := by
    simp only [PTEFlags.of_bits_truncate, getLsbD_set_cow]
    simp
  rw [entry, set_cow_ppn, hflags]
  rfl

theorem entry_reset_cow (pte : PteBits) : pte.reset_cow.entry = pte.entry.reset_cow := by
  have hflags : pte.reset_cow.pte_flags = { pte.pte_flags with cow := false } := by
    simp only [PTEFlags.of_bits_truncate, getLsbD_reset_cow, Nat.reduceLT]
    simp
  rw [entry, reset_cow_ppn, hflags]
  rfl

theorem Clean.set_flags (pte : PteBits) (fl : PTEFlags) : (pte.set_flags fl).Clean := by
  rw [Clean, set_flags_low pte fl (by decide), getLsbD_flags_bits]
  rfl

theorem Clean.set_cow (h : pte.Clean) : pte.set_cow.Clean := by
  rw [Clean, getLsbD_set_cow, h]
  rfl

theorem Clean.reset_cow (h : pte.Clean) : pte.reset_cow.Clean := by
  rw [Clean, getLsbD_reset_cow pte (by decide), h]
  rfl

end PteBits

end MyGOS.Mm
