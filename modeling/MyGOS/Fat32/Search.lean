import MyGOS.Fat32.Append
import MyGOS.Fat32.Names

/-!
# Searches after other records

A search depends on the names and attributes of the records only. When the
records of a new name come after all others, what was found is still found, and
the new name is found at its own records or not at all.
-/

namespace MyGOS.Fat32

open FileSystem

namespace Dirent

/-- The name and the attributes are the same, and all of a long entry is. -/
structure Same (e e' : Dirent) : Prop where
  byte : ∀ i : Fin 32, i < 20 → e' i = e i
  long : e.attr = ATTR_LONG_NAME → e' = e

namespace Same

variable {e e' e'' : Dirent}

theorem refl (e : Dirent) : Same e e := ⟨fun _ _ => rfl, fun _ => rfl⟩

theorem attr (h : Same e e') : e'.attr = e.attr := h.byte 11 (by decide)

theorem trans (h : Same e e') (h' : Same e' e'') : Same e e'' where
  byte i hi := (h'.byte i hi).trans (h.byte i hi)
  long hlong := (h'.long (h.attr.trans hlong)).trans (h.long hlong)

theorem order (h : Same e e') : e'.order = e.order := h.byte 0 (by decide)

theorem is_deleted (h : Same e e') : e'.is_deleted = e.is_deleted := by
  rw [Dirent.is_deleted, Dirent.is_deleted, h.byte 0 (by decide)]

theorem is_empty (h : Same e e') : e'.is_empty = e.is_empty := by
  rw [Dirent.is_empty, Dirent.is_empty, h.byte 0 (by decide)]

theorem check_sum (h : Same e e') : e'.check_sum = e.check_sum :=
  congrArg UInt8.toNat (h.byte 13 (by decide))

theorem name (h : Same e e') : e'.name = e.name := by
  apply List.map_congr_left
  intro i _
  have hi := i.isLt
  exact h.byte _ (show i.val < 20 by omega)

theorem extension (h : Same e e') : e'.extension = e.extension := by
  apply List.map_congr_left
  intro i _
  have hi := i.isLt
  exact h.byte _ (show 8 + i.val < 20 by omega)

theorem gen_check_sum (h : Same e e') : e'.gen_check_sum = e.gen_check_sum := by
  rw [Dirent.gen_check_sum, Dirent.gen_check_sum, h.name, h.extension]

theorem get_name_uppercase (h : Same e e') : e'.get_name_uppercase = e.get_name_uppercase := by
  rw [Dirent.get_name_uppercase, Dirent.get_name_uppercase, h.name, h.extension]

/-- A short entry with another first cluster or size. -/
theorem of_short (h : ∀ i : Fin 32, i < 20 → e' i = e i) (hattr : e.attr ≠ ATTR_LONG_NAME) :
    Same e e' := ⟨h, fun hlong => absurd hlong hattr⟩

end Same

end Dirent

section Congr

variable {r r' : Nat → Dirent}

theorem pieces_match_congr {pieces : List (List Nat)} {k : Nat}
    (h : ∀ i, k < i → i ≤ k + pieces.length → (r i).Same (r' i)) :
    pieces_match r' k pieces = pieces_match r k pieces := by
  induction pieces generalizing k with
  | nil => rfl
  | cons piece pieces ih =>
    rw [List.length_cons] at h
    have hnext := h (k + 1) (Nat.lt_succ_self k) (by omega)
    rw [pieces_match, pieces_match, hnext.attr, ih fun i hi hi' => h i (by omega) (by omega)]
    by_cases hlong : (r (k + 1)).attr = ATTR_LONG_NAME
    · rw [hnext.long hlong]
    · simp only [hlong, false_and, and_false]

theorem lfn_match_congr {name : Name} {k : Nat}
    (h : ∀ i, k ≤ i → i ≤ k + (long_name_split name).length → (r i).Same (r' i)) :
    lfn_match r' name k = lfn_match r name k := by
  have hhead := h k le_rfl (Nat.le_add_right ..)
  have hlde := h (k + ((long_name_split name).length - 1)) (Nat.le_add_right ..) (by omega)
  have hsde := h (k + (long_name_split name).length) (Nat.le_add_right ..) le_rfl
  have hpieces : pieces_match r' k (long_name_split name).dropLast.reverse =
      pieces_match r k (long_name_split name).dropLast.reverse := by
    apply pieces_match_congr
    intro i hi hi'
    rw [List.length_reverse, List.length_dropLast] at hi'
    exact h i hi.le (by omega)
  rw [lfn_match, lfn_match, hpieces]
  simp only [hhead.attr, hhead.order, hlde.check_sum, hsde.is_deleted, hsde.gen_check_sum]
  by_cases hlong : (r k).attr = ATTR_LONG_NAME
  · rw [hhead.long hlong]
  · simp only [hlong, false_and]

theorem sfn_match_congr {name : Name} {k : Nat} (h : (r k).Same (r' k)) :
    sfn_match r' name k = sfn_match r name k := by
  rw [sfn_match, sfn_match, h.is_deleted, h.get_name_uppercase]

theorem name_match_congr {name : Name} {k : Nat}
    (h : ∀ i, k ≤ i → i ≤ k + lde_cnt name → (r i).Same (r' i)) :
    name_match r' name k = name_match r name k := by
  unfold name_match lde_cnt at *
  split
  · next hlong =>
    rw [if_pos hlong] at h
    exact lfn_match_congr h
  · exact sfn_match_congr (h k le_rfl (Nat.le_add_right ..))

end Congr

section Run

variable {r : Nat → Dirent} {name : Name} {k : Nat}

theorem pieces_match_attr {pieces : List (List Nat)} {k : Nat} (h : pieces_match r k pieces)
    {i : Nat} (hi : k < i) (hi' : i ≤ k + pieces.length) : (r i).attr = ATTR_LONG_NAME := by
  induction pieces generalizing k with
  | nil =>
    rw [List.length_nil] at hi'
    omega
  | cons piece pieces ih =>
    rw [List.length_cons] at hi'
    rw [pieces_match, decide_eq_true_eq] at h
    by_cases heq : i = k + 1
    · rw [heq]
      exact h.2.1
    · exact ih h.2.2 (by omega) (by omega)

/-- What matches a long name is a run of long entries. -/
theorem lfn_match_attr (h : lfn_match r name k) {i : Nat} (hi : k ≤ i)
    (hi' : i < k + (long_name_split name).length) : (r i).attr = ATTR_LONG_NAME := by
  rw [lfn_match, decide_eq_true_eq] at h
  obtain ⟨⟨hattr, -⟩, -, -, hpieces, -⟩ := h
  by_cases heq : i = k
  · rw [heq]
    exact hattr
  · apply pieces_match_attr hpieces (by omega)
    rw [List.length_reverse, List.length_dropLast]
    omega

theorem lookup_eq_some {n : Nat} : lookup r n name = some k ↔
    name_match r name k ∧ k + lde_cnt name < n ∧ ∀ j < k, ¬ name_match r name j := by
  rw [lookup, List.find?_range_eq_some]
  simp [List.mem_range, Nat.lt_sub_iff_add_lt]

theorem lookup_eq_none {n : Nat} : lookup r n name = none ↔
    ∀ k, k + lde_cnt name < n → ¬ name_match r name k := by
  rw [lookup, List.find?_range_eq_none]
  simp [Nat.lt_sub_iff_add_lt]

end Run

theorem lookup_congr {r r' : Nat → Dirent} {n : Nat} {name : Name}
    (h : ∀ k < n, (r k).Same (r' k)) : lookup r' n name = lookup r n name := by
  have hmatch : ∀ k, k + lde_cnt name < n → name_match r' name k = name_match r name k := by
    intro k hk
    apply name_match_congr
    exact fun i _ hi => h i (by omega)
  cases hfound : lookup r n name with
  | none =>
    rw [lookup_eq_none] at hfound ⊢
    intro k hk
    rw [hmatch k hk]
    exact hfound k hk
  | some k =>
    rw [lookup_eq_some] at hfound ⊢
    obtain ⟨hm, hk, hfirst⟩ := hfound
    refine ⟨(hmatch k hk).trans hm, hk, fun j hj => ?_⟩
    rw [hmatch j (by omega)]
    exact hfirst j hj

/-- The records before `n` are in use and those after it were never used. A long entry is not the
last one. -/
structure Listed (r : Nat → Dirent) (cnt n : Nat) : Prop where
  le : n ≤ cnt
  in_use : ∀ k < n, ¬ (r k).is_empty
  blank : ∀ k, n ≤ k → k < cnt → r k = .blank
  last : ∀ k, k + 1 = n → (r k).attr ≠ ATTR_LONG_NAME

namespace Listed

variable {r r' : Nat → Dirent} {cnt cnt' n k : Nat} {name : Name}

theorem end_index (h : Listed r cnt n) : end_index r cnt = n := by
  rw [Fat32.end_index]
  by_cases hlt : n < cnt
  · have hfind : (List.range cnt).find? (fun k => (r k).is_empty) = some n := by
      rw [List.find?_range_eq_some]
      refine ⟨?_, List.mem_range.mpr hlt, ?_⟩
      · rw [h.blank n le_rfl hlt]
        rfl
      · intro j hj
        simpa using h.in_use j hj
    rw [hfind]
    rfl
  · obtain rfl : n = cnt := le_antisymm h.le (not_lt.mp hlt)
    have hfind : (List.range n).find? (fun k => (r k).is_empty) = none := by
      rw [List.find?_range_eq_none]
      intro j hj
      simpa using h.in_use j hj
    rw [hfind]
    rfl

theorem congr (h : Listed r cnt n) (hr : ∀ k < cnt, r' k = r k) : Listed r' cnt n where
  le := h.le
  in_use k hk := by
    rw [hr k (hk.trans_le h.le)]
    exact h.in_use k hk
  blank k hk hk' := (hr k hk').trans (h.blank k hk hk')
  last k hk := by
    have hle := h.le
    rw [hr k (by omega)]
    exact h.last k hk

theorem blank_attr : Dirent.blank.attr ≠ ATTR_LONG_NAME := by decide

theorem blank_match (hname : '\x00' ∉ name) (hk : r k = .blank) :
    ¬ sfn_match r name.to_ascii_uppercase k := by
  intro h
  rw [sfn_match, decide_eq_true_eq, hk] at h
  apply Name.to_ascii_uppercase_notMem hname
  rw [h.2]
  decide

/-- What matches a long name ends before the records that were never used. -/
theorem run_lt (h : Listed r cnt n) (hlong : is_long name) (hm : lfn_match r name k)
    (hk : k + (long_name_split name).length < cnt) : k + (long_name_split name).length < n := by
  have hpos := List.length_pos_iff.mpr (long_name_split_of_is_long hlong)
  by_contra hge
  by_cases hkn : k < n
  · apply h.last (n - 1) (by omega)
    exact lfn_match_attr hm (by omega) (by omega)
  · have hattr := lfn_match_attr hm le_rfl (by omega)
    rw [h.blank k (not_lt.mp hkn) (by omega)] at hattr
    exact blank_attr hattr

theorem match_lt (h : Listed r cnt n) (hname : '\x00' ∉ name) (hm : name_match r name k)
    (hk : k + lde_cnt name < cnt) : k + lde_cnt name < n := by
  unfold name_match at hm
  unfold lde_cnt at *
  split at hm
  · next hlong =>
    rw [if_pos hlong] at hk ⊢
    exact h.run_lt hlong hm hk
  · next hshort =>
    rw [if_neg hshort] at hk ⊢
    by_contra hge
    exact blank_match hname (h.blank k (by omega) (by omega)) hm

/-- What was found is found again, when records come after the others. -/
theorem lookup_some (h : Listed r cnt n) (hsame : ∀ k < n, (r k).Same (r' k)) (hcnt : cnt ≤ cnt')
    (hname : '\x00' ∉ name) (hfound : lookup r cnt name = some k) :
    lookup r' cnt' name = some k := by
  rw [lookup_eq_some] at hfound ⊢
  obtain ⟨hm, hk, hfirst⟩ := hfound
  have hlt := h.match_lt hname hm hk
  have hcongr : ∀ j ≤ k, name_match r' name j = name_match r name j := by
    intro j hj
    apply name_match_congr
    exact fun i _ hi => hsame i (by omega)
  refine ⟨?_, by omega, ?_⟩
  · rw [hcongr k le_rfl]
    exact hm
  · intro j hj
    rw [hcongr j hj.le]
    exact hfirst j hj

end Listed

/-- An order that is not that of the first long entry. -/
theorem order_xor_le : ∀ m < 256, UInt8.ofNat m &&& LAST_LONG_ENTRY ≠ 0 →
    (UInt8.ofNat m ^^^ LAST_LONG_ENTRY).toNat ≤ m := by
  decide +kernel

theorem order_or_ne_zero : ∀ m < 256, UInt8.ofNat m ||| LAST_LONG_ENTRY ≠ 0 := by
  decide +kernel

/-- The records of a new name, which are written after the others; the first cluster and the size
of the short entry may be set later. -/
structure Extends (r r' : Nat → Dirent) (cnt n : Nat) (name : Name) (file_type : VirtFileType) :
    Prop where
  le : n + (lfn_vec name).length < cnt
  old : ∀ k < n, (r k).Same (r' k)
  lde : ∀ i < (lfn_vec name).length, (long_entries name (short_entry name file_type))[i]? =
    some (r' (n + i))
  sde : (short_entry name file_type).Same (r' (n + (lfn_vec name).length))
  blank : ∀ k, n + (lfn_vec name).length < k → k < cnt → r' k = .blank

/-- Where a new name is found. -/
def own_index (name : Name) (n : Nat) : Nat := n + (lfn_vec name).length - lde_cnt name

theorem own_index_add {name : Name} (hsplit : long_name_split name ≠ []) (n : Nat) :
    own_index name n + lde_cnt name = n + (lfn_vec name).length := by
  have hpos := length_lfn_vec name hsplit
  have hle : lde_cnt name ≤ (lfn_vec name).length := by
    unfold lde_cnt
    split
    · next hlong => rw [lfn_vec_of_is_long name hlong]
    · exact Nat.zero_le _
  unfold own_index
  omega

namespace Extends

variable {r r' : Nat → Dirent} {cnt cnt' n k i : Nat} {name : Name} {file_type : VirtFileType}

theorem lde_attr (h : Extends r r' cnt n name file_type) (hi : i < (lfn_vec name).length) :
    (r' (n + i)).attr = ATTR_LONG_NAME ∧
      (r' (n + i)).order = lde_order (lfn_vec name).length i := by
  have hget := h.lde i hi
  rw [getElem_long_entries _ _ hi, Option.some.injEq] at hget
  rw [← hget]
  exact ⟨Dirent.attr_new_form_name_slice .., Dirent.order_new_form_name_slice ..⟩

theorem sde_attr (h : Extends r r' cnt n name file_type) :
    (r' (n + (lfn_vec name).length)).attr ≠ ATTR_LONG_NAME := by
  rw [h.sde.attr]
  exact file_type_attr_ne file_type

theorem order_ne_zero {c i : Nat} (hc : c < 256) (hi : i < c) : lde_order c i ≠ 0 := by
  unfold lde_order
  split
  · exact order_or_ne_zero _ (by omega)
  · exact ofNat_ne_zero (by omega)

/-- The records are listed again. -/
theorem listed (h : Extends r r' cnt n name file_type) (hl : Listed r cnt' n)
    (hname : '\x00' ∉ name) (hcnt : (lfn_vec name).length < 256) :
    Listed r' cnt (n + (lfn_vec name).length + 1) where
  le := h.le
  in_use k hk := by
    by_cases hkn : k < n
    · rw [(h.old k hkn).is_empty]
      exact hl.in_use k hkn
    · obtain ⟨i, rfl⟩ := Nat.exists_eq_add_of_le (not_lt.mp hkn)
      by_cases hi : i < (lfn_vec name).length
      · have horder := (h.lde_attr hi).2
        rw [Dirent.is_empty, decide_eq_true_eq]
        have hne := order_ne_zero hcnt hi
        rw [← horder] at hne
        exact hne
      · obtain rfl : i = (lfn_vec name).length := by omega
        rw [h.sde.is_empty]
        exact short_entry_is_empty hname file_type
  blank k hk hk' := h.blank k (by omega) hk'
  last k hk := by
    obtain rfl : k = n + (lfn_vec name).length := by omega
    exact h.sde_attr

/-- A new long name matches at its first record only. -/
theorem lfn_match_eq (h : Extends r r' cnt n name file_type) (hl : Listed r cnt' n)
    (hlong : is_long name) (hcnt : (lfn_vec name).length < 256)
    (hnone : ∀ k, k + (long_name_split name).length < n → ¬ lfn_match r name k)
    (hm : lfn_match r' name k) (hk : k + (long_name_split name).length < cnt) : k = n := by
  have hvec := lfn_vec_of_is_long name hlong
  have hpos := List.length_pos_iff.mpr (long_name_split_of_is_long hlong)
  rw [← hvec] at hnone hpos
  have hattr := fun i => @lfn_match_attr r' name k hm i
  rw [← hvec] at hattr hk
  by_cases hold : k + (lfn_vec name).length < n
  · have hcongr : lfn_match r' name k = lfn_match r name k := by
      apply lfn_match_congr
      intro i _ hi
      rw [← hvec] at hi
      exact h.old i (by omega)
    rw [hcongr] at hm
    exact absurd hm (hnone k hold)
  by_cases hkn : k < n
  · -- the run would go over the last of the old records
    have hlast := hattr (n - 1) (by omega) (by omega)
    rw [(h.old (n - 1) (by omega)).attr] at hlast
    exact absurd hlast (hl.last (n - 1) (by omega))
  obtain ⟨i, rfl⟩ := Nat.exists_eq_add_of_le (not_lt.mp hkn)
  have hhead := hattr (n + i) le_rfl (by omega)
  by_cases hi : i < (lfn_vec name).length
  · by_contra hne
    have hi0 : i ≠ 0 := by
      rintro rfl
      exact hne rfl
    have horder := (h.lde_attr hi).2
    rw [lde_order, if_neg hi0] at horder
    rw [lfn_match, decide_eq_true_eq] at hm
    obtain ⟨-, hbits, hcount, -⟩ := hm
    rw [horder, not_or] at hbits
    rw [horder, ← hvec] at hcount
    have hle := order_xor_le ((lfn_vec name).length - i) (by omega) hbits.1
    omega
  · exfalso
    by_cases hsde : i = (lfn_vec name).length
    · subst hsde
      exact h.sde_attr hhead
    · rw [h.blank (n + i) (by omega) (by omega)] at hhead
      exact Listed.blank_attr hhead

/-- The one long entry of a short name is not read as a short entry of this name. -/
theorem lde_match {c : Char} {cs : Name} (hname : '\x00' ∉ c :: cs) {sum : Nat}
    (hk : r' k = .new_form_name_slice (lde_order 1 0) ((long_name_split (c :: cs)).headD []) sum) :
    ¬ sfn_match r' (Name.to_ascii_uppercase (c :: cs)) k := by
  intro hm
  rw [sfn_match, decide_eq_true_eq] at hm
  obtain ⟨-, hupper⟩ := hm
  have hbytes : ∃ rest, (r' k).name = r' k 0 :: r' k 1 :: r' k 2 :: rest := ⟨_, rfl⟩
  obtain ⟨rest, hbytes⟩ := hbytes
  have h0 : r' k 0 = 0x41 := by
    rw [hk]
    rfl
  have h0' : decide (r' k 0 ≠ SPACE) = true := by
    rw [h0]
    decide
  rw [Dirent.get_name_uppercase, hbytes, List.takeWhile_cons, if_pos h0', h0] at hupper
  -- the first character is an `A`, so that the unit of the first piece is below 256
  have hhead : c.toUpper = 'A' := (List.cons.inj hupper).1
  have hnat := congrArg Char.toNat hhead
  rw [toNat_toUpper] at hnat
  have hA : 'A'.toNat = 65 := rfl
  have hc : c.toNat = 65 ∨ c.toNat = 97 := by
    rw [hA] at hnat
    split at hnat
    · omega
    · omega
  have hunit : ((long_name_split (c :: cs)).headD []).getD 0 0 = c.toNat := by
    have hencode : Name.encode_utf16_char c = [c.toNat] := if_pos (by omega)
    obtain ⟨units, hunits⟩ : ∃ units, padded_units (c :: cs) = c.toNat :: units := by
      rw [padded_units, Name.encode_utf16, List.flatMap_cons, hencode]
      split
      · exact ⟨_, rfl⟩
      · exact ⟨_, rfl⟩
    rw [long_name_split_eq, hunits, List.toChunks_cons (by decide)]
    rfl
  have h1 : r' k 1 = UInt8.ofNat c.toNat := by
    rw [hk, ← hunit]
    rfl
  have h2 : r' k 2 = UInt8.ofNat (c.toNat / 2 ^ 8) := by
    rw [hk, ← hunit]
    rfl
  have h1' : decide (r' k 1 ≠ SPACE) = true := by
    rw [h1]
    rcases hc with hc | hc <;> rw [hc] <;> decide
  have h2' : r' k 2 = 0 := by
    rw [h2]
    rcases hc with hc | hc <;> rw [hc] <;> decide
  rw [List.takeWhile_cons, if_pos h1', List.takeWhile_cons, h2', if_pos (by decide)] at hupper
  apply Name.to_ascii_uppercase_notMem hname
  rw [hupper]
  simp [char_of_byte]

/-- A new short name matches at its short entry only. -/
theorem sfn_match_eq (h : Extends r r' cnt n name file_type)
    (hsplit : long_name_split name ≠ []) (hshort : ¬ is_long name) (hname : '\x00' ∉ name)
    (hnone : ∀ k < n, ¬ sfn_match r name.to_ascii_uppercase k)
    (hm : sfn_match r' name.to_ascii_uppercase k) (hk : k < cnt) : k = n + 1 := by
  obtain ⟨piece, pieces, hpieces⟩ := List.exists_cons_of_ne_nil hsplit
  have hvec : lfn_vec name = [piece] := by
    rw [lfn_vec, if_neg hshort, hpieces]
    rfl
  have hlen : (lfn_vec name).length = 1 := congrArg List.length hvec
  by_cases hold : k < n
  · rw [sfn_match_congr (h.old k hold)] at hm
    exact absurd hm (hnone k hold)
  by_cases hkn : k = n
  · exfalso
    subst hkn
    obtain ⟨c, cs, rfl⟩ : ∃ c cs, name = c :: cs := by
      cases name with
      | nil => exact absurd rfl hsplit
      | cons c cs => exact ⟨c, cs, rfl⟩
    have hget := h.lde 0 (by omega)
    rw [getElem_long_entries _ _ (by omega), Option.some.injEq] at hget
    apply lde_match hname _ hm
    · exact (short_entry (c :: cs) file_type).gen_check_sum
    · rw [Nat.add_zero] at hget
      rw [← hget]
      simp only [hvec, hpieces]
      rfl
  · by_contra hne
    exact Listed.blank_match hname (h.blank k (by omega) hk) hm

/-- A new name is found at its own records, or not at all. -/
theorem lookup_new (h : Extends r r' cnt n name file_type) (hl : Listed r cnt' n)
    (hsplit : long_name_split name ≠ []) (hname : '\x00' ∉ name)
    (hcnt : (lfn_vec name).length < 256) (hnone : lookup r cnt' name = none) :
    lookup r' cnt name = none ∨ lookup r' cnt name = some (own_index name n) := by
  rw [lookup_eq_none] at hnone
  cases hfound : lookup r' cnt name with
  | none => exact Or.inl rfl
  | some k =>
    rw [lookup_eq_some] at hfound
    obtain ⟨hm, hk, -⟩ := hfound
    refine Or.inr (congrArg some ?_)
    have hown := own_index_add hsplit n
    have hle := hl.le
    unfold name_match at hnone hm
    unfold lde_cnt at hnone hk hown
    split at hm
    · next hlong =>
      simp only [if_pos hlong] at hnone hk hown
      have hkn := h.lfn_match_eq hl hlong hcnt (fun k hk => hnone k (by omega)) hm hk
      rw [lfn_vec_of_is_long name hlong] at hown
      omega
    · next hshort =>
      simp only [if_neg hshort] at hnone hk hown
      have hkn := h.sfn_match_eq hsplit hshort hname (fun k hk => hnone k (by omega)) hm hk
      have hlen : (lfn_vec name).length = 1 := by
        have hpos := length_lfn_vec name hsplit
        rw [lfn_vec, if_neg hshort, List.length_take] at hpos ⊢
        omega
      omega

end Extends

end MyGOS.Fat32
