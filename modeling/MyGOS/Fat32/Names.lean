import MyGOS.Fat32.NewEntries

/-!
# Names without zeros

A name that a program can pass has no `'\0'`. Neither have its parts nor its
short form, so that the first byte of a new entry is not zero.
-/

namespace MyGOS.Fat32

theorem toNat_toUpper (c : Char) :
    c.toUpper.toNat = if 97 ≤ c.toNat ∧ c.toNat ≤ 122 then c.toNat - 32 else c.toNat := by
  have hiff : 'a'.val ≤ c.val ∧ c.val ≤ 'z'.val ↔ 97 ≤ c.toNat ∧ c.toNat ≤ 122 := Iff.rfl
  have hval : c.val.toNat = c.toNat := rfl
  unfold Char.toUpper
  split
  · next h =>
    have hin := hiff.mp h
    have hsum : (c.val + ('A'.val - 'a'.val)).toNat = c.toNat - 32 := by
      rw [UInt32.toNat_add, show ('A'.val - 'a'.val).toNat = 2 ^ 32 - 32 by decide]
      omega
    rw [if_pos hin]
    exact hsum
  · next h => rw [if_neg (mt hiff.mpr h)]

/-- A character below the letters is not the upper case of another one. -/
theorem toUpper_eq_of_lt {c x : Char} (h : c.toUpper = x) (hlt : x.toNat < 65) : c = x := by
  have hnat := congrArg Char.toNat h
  rw [toNat_toUpper] at hnat
  apply Char.ext
  apply UInt32.toNat.inj
  show c.toNat = x.toNat
  split at hnat
  · omega
  · exact hnat

theorem toUpper_eq_zero {c : Char} (h : c.toUpper = '\x00') : c = '\x00' :=
  toUpper_eq_of_lt h (by decide)

theorem toNat_char_of_byte (b : UInt8) : (char_of_byte b).toNat = b.toNat := by
  have hb := b.toNat_lt
  have hvalid : b.toNat.isValidChar := Or.inl (hb.trans (by decide))
  unfold char_of_byte Char.ofNat
  rw [dif_pos hvalid]
  rfl

theorem char_of_byte_ne_zero {b : UInt8} (h : b ≠ 0) : char_of_byte b ≠ '\x00' := by
  intro hc
  have hnat := congrArg Char.toNat hc
  rw [toNat_char_of_byte] at hnat
  exact h (UInt8.toNat.inj hnat)

theorem ofNat_ne_zero {n : Nat} (h : n % 256 ≠ 0) : UInt8.ofNat n ≠ 0 := by
  intro hzero
  have hnat := congrArg UInt8.toNat hzero
  rw [UInt8.toNat_ofNat'] at hnat
  exact h hnat

theorem byte_to_uppercase_ne_zero {b : UInt8} (h : b ≠ 0) : byte_to_uppercase b ≠ 0 := by
  unfold byte_to_uppercase
  split
  · next hin =>
    have hle : (97 : UInt8).toNat ≤ b.toNat := hin.1
    intro hzero
    have hnat := congrArg UInt8.toNat hzero
    rw [UInt8.toNat_sub_of_le _ _ (UInt8.le_iff_toNat_le.mpr (le_trans (by decide) hle))] at hnat
    have h97 : (97 : UInt8).toNat = 97 := rfl
    have h32 : (32 : UInt8).toNat = 32 := rfl
    have h0 : (0 : UInt8).toNat = 0 := rfl
    omega
  · exact h

theorem utf8EncodeChar_ne_zero {c : Char} (h : c ≠ '\x00') :
    ∀ b ∈ String.utf8EncodeChar c, b ≠ 0 := by
  have hc : c.val.toNat ≠ 0 := fun h0 => h (Char.ext (UInt32.toNat.inj h0))
  unfold String.utf8EncodeChar
  simp only
  split
  · exact List.forall_mem_singleton.mpr (ofNat_ne_zero (by omega))
  · -- the bytes of the longer forms have their highest bit
    split <;> [skip; split] <;> intro b hb <;>
      simp only [List.mem_cons, List.not_mem_nil, or_false] at hb
    · rcases hb with rfl | rfl <;> exact ofNat_ne_zero (by omega)
    · rcases hb with rfl | rfl | rfl <;> exact ofNat_ne_zero (by omega)
    · rcases hb with rfl | rfl | rfl | rfl <;> exact ofNat_ne_zero (by omega)

namespace Name

variable {name : Name}

theorem as_bytes_ne_zero (h : '\x00' ∉ name) : ∀ b ∈ name.as_bytes, b ≠ 0 := by
  intro b hb
  obtain ⟨c, hc, hb⟩ := List.mem_flatMap.mp hb
  apply utf8EncodeChar_ne_zero _ b hb
  rintro rfl
  exact h hc

theorem to_ascii_uppercase_notMem (h : '\x00' ∉ name) : '\x00' ∉ name.to_ascii_uppercase := by
  intro hmem
  obtain ⟨c, hc, hupper⟩ := List.mem_map.mp hmem
  rw [toUpper_eq_zero hupper] at hc
  exact h hc

/-- The parts of a name consist of its characters. -/
theorem mem_of_mem_split {sep c : Char} {part : Name} (hpart : part ∈ name.split sep)
    (hc : c ∈ part) : c ∈ name := by
  induction name generalizing part with
  | nil =>
    rw [split, List.mem_singleton] at hpart
    rwa [hpart] at hc
  | cons x name ih =>
    rw [split] at hpart
    split at hpart
    · rcases List.mem_cons.mp hpart with rfl | hpart
      · exact absurd hc List.not_mem_nil
      · exact List.mem_cons_of_mem _ (ih hpart hc)
    · split at hpart
      · rw [List.mem_singleton] at hpart
        subst hpart
        rw [List.mem_singleton] at hc
        exact hc ▸ List.mem_cons_self
      · next part' parts hsplit =>
        rcases List.mem_cons.mp hpart with rfl | hpart
        · rcases List.mem_cons.mp hc with rfl | hc
          · exact List.mem_cons_self
          · exact List.mem_cons_of_mem _ (ih (hsplit ▸ List.mem_cons_self) hc)
        · exact List.mem_cons_of_mem _ (ih (hsplit ▸ List.mem_cons_of_mem _ hpart) hc)

end Name

theorem mem_of_mem_split_name_ext {name : Name} {c : Char}
    (h : c ∈ (split_name_ext name).1 ∨ c ∈ (split_name_ext name).2) : c ∈ name := by
  unfold split_name_ext at h
  split at h
  · next hdot => simpa [hdot] using h
  · split at h
    · next hdots => simpa [hdots] using h
    · split at h
      · next hsplit =>
        apply h.elim
        · exact Name.mem_of_mem_split (hsplit ▸ List.mem_cons_self)
        · exact Name.mem_of_mem_split (hsplit ▸ List.mem_cons_of_mem _ List.mem_cons_self)
      · next hshort =>
        cases hsplit : name.split '.' with
        | nil => simp [hsplit] at h
        | cons part parts =>
          rw [hsplit, List.headD_cons] at h
          exact h.elim (Name.mem_of_mem_split (hsplit ▸ List.mem_cons_self))
            fun hc => absurd hc List.not_mem_nil

theorem split_name_ext_notMem {name : Name} (h : '\x00' ∉ name) :
    '\x00' ∉ (split_name_ext name).1 ∧ '\x00' ∉ (split_name_ext name).2 :=
  ⟨fun hc => h (mem_of_mem_split_name_ext (Or.inl hc)),
    fun hc => h (mem_of_mem_split_name_ext (Or.inr hc))⟩

theorem short_field_ne_zero {bytes : List UInt8} (h : ∀ b ∈ bytes, b ≠ 0) (size : Nat) :
    ∀ b ∈ short_field size bytes, b ≠ 0 := by
  intro b hb
  obtain ⟨i, -, rfl⟩ := List.mem_map.mp hb
  cases hget : bytes[i]? with
  | none => decide
  | some b =>
    exact byte_to_uppercase_ne_zero (h b (List.mem_of_getElem? hget))

theorem generate_short_name_notMem {name : Name} (h : '\x00' ∉ name) :
    '\x00' ∉ generate_short_name name := by
  obtain ⟨hname, hext⟩ := split_name_ext_notMem h
  have hupper : ∀ b : UInt8, b ≠ 0 → (char_of_byte b).toUpper ≠ '\x00' :=
    fun b hb hc => char_of_byte_ne_zero hb (toUpper_eq_zero hc)
  intro hmem
  simp only [generate_short_name, List.mem_append, List.mem_map] at hmem
  rcases hmem with ((⟨b, hb, hc⟩ | hmem) | hmem) | ⟨i, -, hc⟩
  · exact hupper b (Name.as_bytes_ne_zero hname b (List.mem_of_mem_take hb)) hc
  · exact absurd hmem (by decide)
  · exact absurd (List.eq_of_mem_replicate hmem) (by decide)
  · cases hget : (split_name_ext name).2.as_bytes[i]? with
    | none =>
      rw [hget] at hc
      exact absurd hc (by decide)
    | some b =>
      rw [hget] at hc
      exact hupper b (Name.as_bytes_ne_zero hext b (List.mem_of_getElem? hget)) hc

namespace FileSystem

/-- The name from which the short entry is made. -/
theorem short_name_notMem {name : Name} (h : '\x00' ∉ name) :
    '\x00' ∉ if is_long name then generate_short_name name else name := by
  split
  · exact generate_short_name_notMem h
  · exact h

theorem short_entry_is_empty {name : Name} (h : '\x00' ∉ name) (file_type : VirtFileType) :
    ¬ (short_entry name file_type).is_empty := by
  obtain ⟨hname, -⟩ := split_name_ext_notMem (short_name_notMem h)
  have hfield := short_field_ne_zero (Name.as_bytes_ne_zero hname) 8
  generalize hn : (if is_long name then generate_short_name name else name) = short_name
    at hfield
  have hbyte : (short_entry name file_type) 0 = (((short_field 8
      (split_name_ext short_name).1.as_bytes)[0]?).map byte_to_uppercase).getD SPACE := by
    rw [← hn]
    rfl
  rw [Dirent.is_empty, decide_eq_true_eq, hbyte]
  cases hget : (short_field 8 (split_name_ext short_name).1.as_bytes)[0]? with
  | none => decide
  | some b => exact byte_to_uppercase_ne_zero (hfield b (List.mem_of_getElem? hget))

theorem short_entry_attr (name : Name) (file_type : VirtFileType) :
    (short_entry name file_type).attr = file_type.attr := rfl

theorem short_entry_first_cluster (name : Name) (file_type : VirtFileType) :
    (short_entry name file_type).first_cluster = NEW_VIRT_FILE_CLUSTER :=
  Dirent.first_cluster_new _ _ _ _ (by decide)

theorem short_entry_file_size (name : Name) (file_type : VirtFileType) :
    (short_entry name file_type).file_size = 0 := rfl

theorem file_type_attr_ne (file_type : VirtFileType) : file_type.attr ≠ ATTR_LONG_NAME := by
  cases file_type <;> decide

end FileSystem

end MyGOS.Fat32
