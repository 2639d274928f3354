import MyGOS.Fat32.Dir
import MyGOS.Fat32.EntryFields
import MyGOS.Lib.Chunks
import Mathlib.Data.List.FinRange
import Mathlib.Data.List.GetD

/-!
# The entries of a new name

The long entries hold the pieces of a name, the last one first, and the sum of
the short entry that comes after them.
-/

namespace MyGOS.Fat32

theorem ceil_mul_ge {n : Nat} (m : Nat) (hn : 0 < n) : m ≤ (m + n - 1) / n * n := by
  have hdiv := Nat.lt_mul_div_succ (m + n - 1) hn
  rw [Nat.mul_add, Nat.mul_one, Nat.mul_comm] at hdiv
  omega

namespace Name

theorem encode_utf16_char_lt (c : Char) : ∀ unit ∈ encode_utf16_char c, unit < 2 ^ 16 := by
  have hc : c.toNat < 0x110000 := by
    obtain h | h := c.valid
    · exact lt_trans h (by decide)
    · exact h.2
  unfold encode_utf16_char
  split
  · next hlt => exact List.forall_mem_singleton.mpr hlt
  · refine List.forall_mem_cons.mpr ⟨?_, List.forall_mem_singleton.mpr ?_⟩
    · omega
    · omega

theorem encode_utf16_lt (name : Name) : ∀ unit ∈ name.encode_utf16, unit < 2 ^ 16 := by
  intro unit hunit
  obtain ⟨c, -, hc⟩ := List.mem_flatMap.mp hunit
  exact encode_utf16_char_lt c unit hc

end Name

section Pieces

variable (name : Name)

/-- The units of a name and its padding. -/
def padded_units : List Nat :=
  let units := name.encode_utf16
  let lfn_cnt := (units.length + LONG_NAME_LEN_CAP - 1) / LONG_NAME_LEN_CAP
  if units.length < lfn_cnt * LONG_NAME_LEN_CAP then
    units ++ [0] ++ List.replicate (lfn_cnt * LONG_NAME_LEN_CAP - (units.length + 1)) 0xFFFF
  else units

theorem long_name_split_eq : long_name_split name = (padded_units name).toChunks LONG_NAME_LEN_CAP :=
  rfl

theorem length_padded_units : (padded_units name).length = LONG_NAME_LEN_CAP *
    ((name.encode_utf16.length + LONG_NAME_LEN_CAP - 1) / LONG_NAME_LEN_CAP) := by
  have hge := ceil_mul_ge name.encode_utf16.length (by decide : 0 < LONG_NAME_LEN_CAP)
  rw [padded_units, Nat.mul_comm LONG_NAME_LEN_CAP]
  split
  · next hlt =>
    rw [List.length_append, List.length_append, List.length_singleton, List.length_replicate]
    omega
  · next hle => omega

theorem padded_units_lt : ∀ unit ∈ padded_units name, unit < 2 ^ 16 := by
  have hunits := name.encode_utf16_lt
  unfold padded_units
  simp only []
  split
  · rw [List.forall_mem_append, List.forall_mem_append]
    refine ⟨⟨hunits, ?_⟩, ?_⟩
    · simp
    · intro unit hunit
      rw [List.eq_of_mem_replicate hunit]
      decide
  · exact hunits

theorem length_long_name_split : (long_name_split name).length =
    (name.encode_utf16.length + LONG_NAME_LEN_CAP - 1) / LONG_NAME_LEN_CAP :=
  (List.toChunks_of_length_mul (by decide) (length_padded_units name)).1

/-- A piece fills a long entry. -/
theorem length_of_mem_long_name_split {piece : List Nat} (h : piece ∈ long_name_split name) :
    piece.length = LONG_NAME_LEN_CAP :=
  (List.toChunks_of_length_mul (by decide) (length_padded_units name)).2 piece h

theorem lt_of_mem_long_name_split {piece : List Nat} (h : piece ∈ long_name_split name) :
    ∀ unit ∈ piece, unit < 2 ^ 16 := by
  intro unit hunit
  apply padded_units_lt name
  rw [← List.toChunks_flatten (by decide : 0 < LONG_NAME_LEN_CAP) (padded_units name)]
  exact List.mem_flatten.mpr ⟨piece, h, hunit⟩

end Pieces

namespace Dirent

section Long

variable (order : UInt8) (name_array : List Nat) (sum : Nat)

theorem order_new_form_name_slice : (new_form_name_slice order name_array sum).order = order := rfl

theorem attr_new_form_name_slice :
    (new_form_name_slice order name_array sum).attr = ATTR_LONG_NAME := rfl

theorem check_sum_new_form_name_slice (h : sum < 2 ^ 8) :
    (new_form_name_slice order name_array sum).check_sum = sum := by
  have hbyte : (new_form_name_slice order name_array sum).check_sum = (UInt8.ofNat sum).toNat := rfl
  rw [hbyte, UInt8.toNat_ofNat', Nat.mod_eq_of_lt h]

/-- Where a unit is in a long entry. -/
theorem unit_pos_find (j : Fin 13) :
    ((unit_pos j).castSucc ≠ 0 ∧ (unit_pos j).castSucc ≠ 13 ∧ (List.finRange 13).find? (fun j' =>
      (unit_pos j').castSucc = (unit_pos j).castSucc ∨
        (unit_pos j').succ = (unit_pos j).castSucc) = some j) ∧
    ((unit_pos j).succ ≠ 0 ∧ (unit_pos j).succ ≠ 13 ∧ (unit_pos j).castSucc ≠ (unit_pos j).succ ∧
      (List.finRange 13).find? (fun j' => (unit_pos j').castSucc = (unit_pos j).succ ∨
        (unit_pos j').succ = (unit_pos j).succ) = some j) := by
  revert j
  decide

theorem le_u16_unit_pos (j : Fin 13) (h : name_array.getD j 0 < 2 ^ 16) :
    (new_form_name_slice order name_array sum).le_u16 (unit_pos j) = name_array.getD j 0 := by
  obtain ⟨⟨h0, h13, hfind⟩, h0', h13', hne, hfind'⟩ := unit_pos_find j
  have hlow : new_form_name_slice order name_array sum (unit_pos j).castSucc =
      UInt8.ofNat (name_array.getD j 0) := by
    simp only [new_form_name_slice, if_neg h0, if_neg h13, hfind, if_true]
  have hhigh : new_form_name_slice order name_array sum (unit_pos j).succ =
      UInt8.ofNat (name_array.getD j 0 / 2 ^ 8) := by
    simp only [new_form_name_slice, if_neg h0', if_neg h13', hfind', if_neg hne]
  rw [le_u16, hlow, hhigh, UInt8.toNat_ofNat', UInt8.toNat_ofNat']
  omega

/-- The piece of a name is read from its long entry. -/
theorem name_utf16_new_form_name_slice (hlen : name_array.length = LONG_NAME_LEN_CAP)
    (hlt : ∀ unit ∈ name_array, unit < 2 ^ 16) :
    (new_form_name_slice order name_array sum).name_utf16 = name_array := by
  rw [name_utf16]
  apply List.ext_getElem
  · rw [List.length_map, List.length_finRange, hlen]
    rfl
  · intro i hi hi'
    rw [List.length_map, List.length_finRange] at hi
    rw [List.getElem_map, List.getElem_finRange]
    have hget : name_array.getD i 0 = name_array[i] := List.getD_eq_getElem _ _ hi'
    have hunit := le_u16_unit_pos order name_array sum ⟨i, hi⟩ (by
      show name_array.getD i 0 < 2 ^ 16
      rw [hget]
      exact hlt _ (List.getElem_mem hi'))
    exact hunit.trans hget

end Long

theorem gen_check_sum_lt (e : Dirent) : e.gen_check_sum < 2 ^ 8 := by
  rw [gen_check_sum]
  have hfold : ∀ (bytes : List UInt8) (n : Nat), n < 2 ^ 8 → bytes.foldl
      (fun sum b => (sum % 2 * 2 ^ 7 + sum / 2 + b.toNat) % 256) n < 2 ^ 8 := by
    intro bytes
    induction bytes with
    | nil => exact fun _ hn => hn
    | cons b bytes ih => exact fun _ _ => ih _ (Nat.mod_lt _ (by decide))
  exact hfold _ 0 (by decide)

section Short

variable (cluster : Nat) (name extension : List UInt8) (create_type : VirtFileType)

theorem attr_new : (new cluster name extension create_type).attr = create_type.attr := rfl

theorem first_cluster_new (h : cluster < 2 ^ 32) :
    (new cluster name extension create_type).first_cluster = cluster :=
  first_cluster_set_first_cluster _ _ h

theorem file_size_new : (new cluster name extension create_type).file_size = 0 := rfl

end Short

end Dirent

section Written

variable (name : Name) (sde : Dirent)

/-- The pieces that are written. -/
def lfn_vec : List (List Nat) :=
  if FileSystem.is_long name then long_name_split name else (long_name_split name).take 1

theorem mem_lfn_vec {piece : List Nat} (h : piece ∈ lfn_vec name) : piece ∈ long_name_split name := by
  unfold lfn_vec at h
  split at h
  · exact h
  · exact List.mem_of_mem_take h

theorem lfn_vec_of_is_long (h : FileSystem.is_long name) : lfn_vec name = long_name_split name :=
  if_pos h

theorem length_lfn_vec (h : long_name_split name ≠ []) : 0 < (lfn_vec name).length := by
  have hpos := List.length_pos_iff.mpr h
  unfold lfn_vec
  split
  · exact hpos
  · rw [List.length_take]
    omega

namespace FileSystem

theorem length_long_entries : (long_entries name sde).length = (lfn_vec name).length := by
  rw [long_entries, List.length_mapIdx, List.length_reverse]
  rfl

/-- The order of a long entry, counted from the front. -/
def lde_order (cnt i : Nat) : UInt8 :=
  if i = 0 then UInt8.ofNat (cnt - i) ||| LAST_LONG_ENTRY else UInt8.ofNat (cnt - i)

theorem getElem_long_entries {i : Nat} (h : i < (lfn_vec name).length) :
    (long_entries name sde)[i]? = some (.new_form_name_slice (lde_order (lfn_vec name).length i)
      (lfn_vec name)[(lfn_vec name).length - 1 - i] sde.gen_check_sum) := by
  rw [long_entries, List.getElem?_mapIdx]
  have hrev : (lfn_vec name).reverse[i]? = some (lfn_vec name)[(lfn_vec name).length - 1 - i] := by
    rw [List.getElem?_eq_getElem (by rwa [List.length_reverse]), List.getElem_reverse]
  exact congrArg _ hrev

end FileSystem

end Written

end MyGOS.Fat32
