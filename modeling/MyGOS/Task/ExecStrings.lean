import MyGOS.Fat32.Names
import MyGOS.Lib.CMemory
import MyGOS.Mm.BufferViews

/-!
# The strings that `sys_exec` reads

`translated_str` makes a character of each byte, and `as_bytes` encodes these
characters. The bytes below 128 come back as they were; any other byte comes
back as two.
-/

namespace MyGOS.Task

open Mm Outcome CMemory
open LittleEndian (bytes value value_bytes length_bytes)
open Fat32 (char_of_byte utf8EncodeChar_ne_zero)

/-- A `String` is the list of its characters; this is `as_bytes`. -/
def as_bytes (s : List Char) : List UInt8 := Fat32.Name.as_bytes s

/-- Addresses repeat after this many bytes. -/
def ADDRESSES : Nat := 2 ^ 39

/-- A string without an end fills the kernel heap, at the latest when the addresses repeat. -/
def str_loop (ms : MemorySet) (ph : Phys) : (fuel va : Nat) → Except Panic (List Char)
  | 0, _ => .error .outOfMemory
  | fuel + 1, va =>
    match ms.page_table.translate_va (virt_addr va) with
    | none => .error (.notTranslated (floor (virt_addr va)))
    | some (ppn, offset) =>
      if ph.bytes ppn offset = 0 then .ok []
      else do
        let string ← str_loop ms ph fuel ((va + 1) % 2 ^ 64)
        return char_of_byte (ph.bytes ppn offset) :: string

def translated_str (s : MemorySet × Phys) (ptr : Nat) : Except Panic (List Char) :=
  str_loop s.1 s.2 ADDRESSES ptr

/-- The loop over the pointers, up to a null. -/
def strs_loop : (fuel ptr : Nat) → MemorySet × Phys →
    Except Panic (List (List Char) × MemorySet × Phys)
  | 0, _, _ => .error .outOfMemory
  | fuel + 1, ptr, s => do
    let (b, s) ← copyin s.1 s.2 (bytes 8 0) ptr
    if value b = 0 then return ([], s)
    else
      let str ← translated_str s (value b)
      let (strs, s) ← strs_loop fuel ((ptr + 8) % 2 ^ 64) s
      return (str :: strs, s)

/-- `argv` or `envp`, which may be null. -/
def read_strs (ptr : Nat) (s : MemorySet × Phys) :
    Except Panic (List (List Char) × MemorySet × Phys) :=
  if ptr = 0 then .ok ([], s) else strs_loop ADDRESSES ptr s

section Latin

theorem char_of_byte_val (b : UInt8) : (char_of_byte b).val.toNat = b.toNat := by
  have hlt := b.toNat_lt
  have hvalid : b.toNat.isValidChar := Or.inl (by omega)
  rw [char_of_byte, Char.ofNat, dif_pos hvalid]
  rfl

theorem utf8EncodeChar_low {b : UInt8} (h : b < 128) :
    String.utf8EncodeChar (char_of_byte b) = [b] := by
  have hlt : b.toNat < 128 := h
  rw [String.utf8EncodeChar]
  simp only [char_of_byte_val]
  rw [if_pos (by omega), UInt8.ofNat_toNat]

theorem length_utf8EncodeChar_high {b : UInt8} (h : ¬ b < 128) :
    (String.utf8EncodeChar (char_of_byte b)).length = 2 := by
  have hlt : ¬ b.toNat < 128 := h
  have hlt' := b.toNat_lt
  rw [String.utf8EncodeChar]
  simp only [char_of_byte_val]
  rw [if_neg (by omega), if_pos (by omega)]
  rfl

/-- What the kernel makes of a string of bytes. -/
def latin (l : List UInt8) : List Char := l.map char_of_byte

theorem as_bytes_cons (c : Char) (s : List Char) :
    as_bytes (c :: s) = String.utf8EncodeChar c ++ as_bytes s := rfl

theorem length_le_as_bytes_latin (l : List UInt8) : l.length ≤ (as_bytes (latin l)).length := by
  induction l with
  | nil => exact Nat.zero_le _
  | cons b l ih =>
    rw [latin, List.map_cons, as_bytes_cons, List.length_cons, List.length_append]
    rw [latin] at ih
    by_cases h : b < 128
    · rw [utf8EncodeChar_low h, List.length_singleton]
      omega
    · rw [length_utf8EncodeChar_high h]
      omega

/-- By induction on the bytes: the first one that is not ASCII makes the rest too long. -/
theorem as_bytes_latin_iff (l : List UInt8) : as_bytes (latin l) = l ↔ ∀ b ∈ l, b < 128 := by
  induction l with
  | nil => exact ⟨fun _ _ hb => absurd hb List.not_mem_nil, fun _ => rfl⟩
  | cons b l ih =>
    rw [latin, List.map_cons, as_bytes_cons, ← latin, List.forall_mem_cons, ← ih]
    by_cases h : b < 128
    · rw [utf8EncodeChar_low h, List.singleton_append, List.cons_inj_right]
      exact ⟨fun htail => ⟨h, htail⟩, And.right⟩
    · refine ⟨fun heq => ?_, fun hall => absurd hall.1 h⟩
      have hlen := congrArg List.length heq
      rw [List.length_append, length_utf8EncodeChar_high h, List.length_cons] at hlen
      have hle := length_le_as_bytes_latin l
      omega

theorem char_of_byte_ne_zero {b : UInt8} (h : b ≠ 0) : char_of_byte b ≠ '\x00' := by
  intro heq
  have hval := char_of_byte_val b
  rw [heq] at hval
  exact h (UInt8.toNat_inj.mp hval.symm)

theorem zero_notMem_as_bytes_latin {l : List UInt8} (h : 0 ∉ l) : 0 ∉ as_bytes (latin l) := by
  intro hmem
  obtain ⟨c, hc, hzero⟩ := List.mem_flatMap.mp hmem
  obtain ⟨b, hb, rfl⟩ := List.mem_map.mp hc
  refine utf8EncodeChar_ne_zero (char_of_byte_ne_zero fun hb0 => ?_) 0 hzero rfl
  rw [hb0] at hb
  exact h hb

theorem map_as_bytes_latin_iff (strs : List (List UInt8)) :
    strs.map (fun l => as_bytes (latin l)) = strs ↔ ∀ l ∈ strs, ∀ b ∈ l, b < 128 := by
  have hid := List.map_inj_left (f := fun l => as_bytes (latin l)) (g := id) (l := strs)
  rw [List.map_id] at hid
  rw [hid]
  exact forall₂_congr fun l _ => as_bytes_latin_iff l

end Latin

section Read

variable {ms : MemorySet} {ph : Phys} {ptr va fuel : Nat} {l : List UInt8}

/-- A string of the caller: user addresses of mapped pages, and a zero after the last byte. -/
structure StringAt (ms : MemorySet) (ph : Phys) (ptr : Nat) (l : List UInt8) : Prop where
  pos : ptr ≠ 0
  user : ptr + l.length < 2 ^ 38
  no_zero : 0 ∉ l
  holds : Holds (ms.view ph) ptr (l ++ [0])

/-- An array of strings of the caller; a null pointer passes none. -/
def Passed (ms : MemorySet) (ph : Phys) (ptr : Nat) (strs : List (List UInt8)) : Prop :=
  if ptr = 0 then strs = []
  else ptr + 8 * (strs.length + 1) ≤ 2 ^ 38 ∧
    ∃ ptrs, Holds (ms.view ph) ptr (word_row ptrs ++ bytes 8 0) ∧
      List.Forall₂ (StringAt ms ph) ptrs strs

theorem Passed.no_zero {strs : List (List UInt8)} (h : Passed ms ph ptr strs) :
    ∀ l ∈ strs, 0 ∉ l := by
  rw [Passed] at h
  split at h
  · rw [h]
    exact fun l hl => absurd hl List.not_mem_nil
  · obtain ⟨_, ptrs, _, hstrs⟩ := h
    clear * - hstrs
    induction hstrs with
    | nil => exact fun l hl => absurd hl List.not_mem_nil
    | cons hstr _ ih => exact List.forall_mem_cons.mpr ⟨hstr.no_zero, ih⟩

theorem translate_va_of_view {b : UInt8} (h : ms.view ph va = some b) :
    ∃ place : Nat × Nat, ms.page_table.translate_va va = some place ∧
      ph.bytes place.1 place.2 = b := by
  rw [view_eq_map] at h
  exact Option.map_eq_some_iff.mp h

/-- The loop stops at the zero, by induction on the bytes before it. -/
theorem str_loop_holds : ∀ {l : List UInt8} {fuel ptr : Nat},
    Holds (ms.view ph) ptr (l ++ [0]) → 0 ∉ l → ptr + l.length < 2 ^ 38 → l.length < fuel →
      str_loop ms ph fuel ptr = .ok (latin l) := by
  intro l
  induction l with
  | nil =>
    intro fuel ptr h _ huser hfuel
    obtain ⟨k, rfl⟩ := Nat.exists_eq_add_of_lt hfuel
    obtain ⟨place, hplace, hbyte⟩ := translate_va_of_view (holds_cons.mp h).1
    rw [str_loop, virt_addr_of_lt (by omega), hplace]
    dsimp only
    rw [if_pos hbyte]
    rfl
  | cons b l ih =>
    intro fuel ptr h hzero huser hfuel
    obtain ⟨hne, hzero'⟩ := not_or.mp (mt List.mem_cons.mpr hzero)
    obtain ⟨hb, hl⟩ := holds_cons.mp h
    obtain ⟨place, hplace, hbyte⟩ := translate_va_of_view hb
    rw [List.length_cons] at huser hfuel
    obtain ⟨k, rfl⟩ : ∃ k, fuel = k + 1 := ⟨fuel - 1, by omega⟩
    rw [str_loop, virt_addr_of_lt (by omega), hplace]
    dsimp only
    rw [if_neg (by rw [hbyte]; exact Ne.symm hne), Nat.mod_eq_of_lt (by omega),
      ih hl hzero' (by omega) (by omega), hbyte]
    rfl

theorem StringAt.translated_str (h : StringAt ms ph ptr l) :
    translated_str (ms, ph) ptr = .ok (latin l) := by
  have huser := h.user
  exact str_loop_holds h.holds h.no_zero huser (by rw [ADDRESSES]; omega)

theorem backed_of_holds {data : List UInt8} (h : Holds (ms.view ph) ptr data)
    (huser : ptr + data.length ≤ 2 ^ 38) : ms.Backed ptr data.length where
  user := huser
  mapped va hle hlt hnone := by
    have hview := h (va - ptr) (by omega)
    rw [Nat.add_sub_cancel' hle, MemorySet.view, hnone, Option.map_none,
      List.getElem?_eq_getElem (by omega)] at hview
    cases hview

theorem seen_of_holds {data : List UInt8} (h : Holds (ms.view ph) ptr data) :
    ms.seen ph ptr data.length = data := by
  induction data generalizing ptr with
  | nil => rfl
  | cons b data ih =>
    obtain ⟨hb, hdata⟩ := holds_cons.mp h
    have htail := ih hdata
    rw [MemorySet.seen] at htail ⊢
    rw [List.length_cons, List.range'_succ, List.map_cons, htail, hb]
    rfl

theorem copyin_word {w : Nat} (h : Holds (ms.view ph) ptr (bytes 8 w)) (huser : ptr + 8 ≤ 2 ^ 38) :
    copyin ms ph (bytes 8 0) ptr = .ok (bytes 8 w, ms, ph) := by
  have hlen : (bytes 8 0).length = (bytes 8 w).length := by rw [length_bytes, length_bytes]
  have hbacked : ms.Backed ptr (bytes 8 0).length := by
    rw [hlen]
    exact backed_of_holds h (by rwa [length_bytes])
  rw [copyin_backed hbacked ph (by rw [length_bytes]; decide), hlen, seen_of_holds h]

theorem value_word {w : Nat} (h : w < 2 ^ 64) : value (bytes 8 w) = w := by
  rw [value_bytes]
  exact Nat.mod_eq_of_lt h

/-- The loop reads each string and leaves the memory as it is, by induction on the pointers. -/
theorem strs_loop_holds {ptrs : List Nat} {strs : List (List UInt8)}
    (hstrs : List.Forall₂ (StringAt ms ph) ptrs strs) : ∀ {fuel ptr : Nat},
    Holds (ms.view ph) ptr (word_row ptrs ++ bytes 8 0) → ptr + 8 * (strs.length + 1) ≤ 2 ^ 38 →
      strs.length < fuel → strs_loop fuel ptr (ms, ph) = .ok (strs.map latin, ms, ph) := by
  induction hstrs with
  | nil =>
    intro fuel ptr h huser hfuel
    obtain ⟨fuel, rfl⟩ : ∃ k, fuel = k + 1 := ⟨fuel - 1, by omega⟩
    rw [strs_loop, copyin_word h (by rw [List.length_nil] at huser; omega)]
    simp only [ok_bind]
    rw [value_word (by decide), if_pos rfl]
    rfl
  | @cons p l ptrs strs hstr hstrs ih =>
    intro fuel ptr h huser hfuel
    obtain ⟨fuel, rfl⟩ : ∃ k, fuel = k + 1 := ⟨fuel - 1, by omega⟩
    have hrow : word_row (p :: ptrs) ++ bytes 8 0 = bytes 8 p ++ (word_row ptrs ++ bytes 8 0) :=
      List.append_assoc _ _ _
    rw [hrow] at h
    obtain ⟨hhead, htail⟩ := holds_append.mp h
    rw [length_bytes] at htail
    rw [List.length_cons] at huser hfuel
    have hp := hstr.user
    rw [strs_loop, copyin_word hhead (by omega)]
    simp only [ok_bind]
    rw [value_word (by omega), if_neg hstr.pos, hstr.translated_str, Nat.mod_eq_of_lt (by omega)]
    simp only [ok_bind]
    rw [ih htail (by omega) (by omega)]
    rfl

theorem Passed.read_strs {strs : List (List UInt8)} (h : Passed ms ph ptr strs) :
    read_strs ptr (ms, ph) = .ok (strs.map latin, ms, ph) := by
  rw [Passed] at h
  rw [Task.read_strs]
  split at h
  · rename_i hnull
    rw [if_pos hnull, h]
    rfl
  · rename_i hnull
    obtain ⟨huser, ptrs, hholds, hstrs⟩ := h
    rw [if_neg hnull]
    exact strs_loop_holds hstrs hholds huser (by rw [ADDRESSES]; omega)

end Read

end MyGOS.Task
