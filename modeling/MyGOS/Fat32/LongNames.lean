import MyGOS.Fat32.Listing
import MyGOS.Fat32.LegalNames
import MyGOS.Fat32.Groups

/-!
# Long names in their entries

A name is cut after every 13 units, and each piece is decoded alone. It is read
back as it was unless a cut is between the two units of a character.
-/

namespace MyGOS.Fat32

/-- No cut is inside a character. -/
def Unsplit (name : Name) : Prop :=
  ∀ (before : Name) (c : Char) (after : Name), name = before ++ c :: after → 0x10000 ≤ c.toNat →
    ¬ LONG_NAME_LEN_CAP ∣ before.encode_utf16.length + 1

/-- The pieces of `name` are in the long entries from `k` on, the last piece first. -/
structure HoldsName (r : Nat → Dirent) (k : Nat) (name : Name) (sum : Nat) : Prop where
  first : name_before r k = none
  lde : ∀ i (hi : i < (long_name_split name).length),
    r (k + i) = .new_form_name_slice (FileSystem.lde_order (long_name_split name).length i)
      (long_name_split name)[(long_name_split name).length - 1 - i] sum

section Units

variable {n : Nat} {parts : List (List Nat)} {name : Name}

/-- A pair is cut when its first unit is the last one of a part. -/
theorem paired_iff (hn : 0 < n) (h : Filled n parts) : Paired parts ↔
    ∀ i u v, n ∣ i + 1 → parts.flatten[i]? = some u → parts.flatten[i + 1]? = some v →
      ¬ (high_surrogate u ∧ low_surrogate v) := by
  induction parts with
  | nil =>
    refine iff_of_true trivial fun i u v _ hu => ?_
    cases hu
  | cons part parts ih =>
    obtain ⟨hle, hfull, hrest⟩ := h
    rw [Paired, ih hrest, List.flatten_cons]
    constructor
    · rintro ⟨hnot, hpaired⟩ i u v hdvd hu hv ⟨hhigh, hlow⟩
      have hi := Nat.le_of_dvd (Nat.succ_pos i) hdvd
      rw [List.getElem?_append_right (by omega)] at hv
      have hlen : part.length = n := by
        apply hfull
        rintro rfl
        cases hv
      rcases Nat.eq_or_lt_of_le hi with heq | hlt
      · rw [List.getElem?_append_left (by omega)] at hu
        refine hnot ⟨⟨u, ?_, hhigh⟩, v, ?_, hlow⟩
        · rw [Option.mem_def, List.getLast?_eq_getElem?, hlen, heq]
          exact hu
        · rw [Option.mem_def, List.head?_eq_getElem?, ← hv]
          congr 1
          omega
      · rw [List.getElem?_append_right (by omega)] at hu
        refine hpaired (i - part.length) u v ?_ hu ?_ ⟨hhigh, hlow⟩
        · rw [hlen, ← Nat.sub_add_comm (by omega)]
          exact Nat.dvd_sub hdvd (Nat.dvd_refl n)
        · rw [← Nat.sub_add_comm (by omega)]
          exact hv
    · intro hall
      refine ⟨?_, fun i u v hdvd hu hv => ?_⟩
      · rintro ⟨⟨u, hu, hhigh⟩, v, hv, hlow⟩
        have hlen : part.length = n := by
          apply hfull
          rintro rfl
          cases hv
        rw [Option.mem_def, List.getLast?_eq_getElem?] at hu
        rw [Option.mem_def, List.head?_eq_getElem?] at hv
        refine hall (n - 1) u v ?_ ?_ ?_ ⟨hhigh, hlow⟩
        · rw [Nat.sub_add_cancel hn]
        · rw [List.getElem?_append_left (by omega), ← hlen]
          exact hu
        · rw [Nat.sub_add_cancel hn, List.getElem?_append_right (by omega), hlen, Nat.sub_self]
          exact hv
      · have hlen : part.length = n := by
          apply hfull
          rintro rfl
          cases hu
        refine hall (n + i) u v ?_ ?_ ?_
        · rw [Nat.add_assoc]
          exact Nat.dvd_add (Nat.dvd_refl n) hdvd
        · rw [List.getElem?_append_right (by omega), hlen, Nat.add_sub_cancel_left]
          exact hu
        · rw [List.getElem?_append_right (by omega), hlen, Nat.add_assoc, Nat.add_sub_cancel_left]
          exact hv

/-- The two units of a character outside of the basic plane. -/
theorem encode_utf16_char_pair {c : Char} (h : 0x10000 ≤ c.toNat) :
    ∃ u v, Name.encode_utf16_char c = [u, v] ∧ high_surrogate u ∧ low_surrogate v := by
  have hlt : c.toNat < 0x110000 := by
    have hvalid : c.toNat < 0xD800 ∨ 0xDFFF < c.toNat ∧ c.toNat < 0x110000 := c.valid
    omega
  refine ⟨_, _, if_neg (not_lt.mpr h), ?_, ?_⟩
  · unfold high_surrogate
    omega
  · unfold low_surrogate
    omega

/-- A high surrogate is the first unit of such a character. -/
theorem exists_char_of_high {i u : Nat} (hu : name.encode_utf16[i]? = some u)
    (hhigh : high_surrogate u) : ∃ (before : Name) (c : Char) (after : Name),
      name = before ++ c :: after ∧ 0x10000 ≤ c.toNat ∧ before.encode_utf16.length = i := by
  induction name generalizing i with
  | nil => cases hu
  | cons c cs ih =>
    have hcons : Name.encode_utf16 (c :: cs) =
      Name.encode_utf16_char c ++ Name.encode_utf16 cs := rfl
    rw [hcons] at hu
    rcases Nat.lt_or_ge i (Name.encode_utf16_char c).length with hi | hi
    · rw [List.getElem?_append_left hi] at hu
      rcases Nat.lt_or_ge c.toNat 0x10000 with hlt | hge
      · have hvalid : c.toNat < 0xD800 ∨ 0xDFFF < c.toNat ∧ c.toNat < 0x110000 := c.valid
        have hmem := List.mem_of_getElem? hu
        rw [Name.encode_utf16_char, if_pos hlt, List.mem_singleton] at hmem
        unfold high_surrogate at hhigh
        omega
      · obtain ⟨u', v, hpair, -, hlow⟩ := encode_utf16_char_pair hge
        rw [hpair] at hu hi
        cases i with
        | zero => exact ⟨[], c, cs, rfl, hge, rfl⟩
        | succ i =>
          obtain rfl : i = 0 := Nat.lt_one_iff.mp (Nat.lt_of_succ_lt_succ hi)
          obtain rfl : v = u := Option.some.inj hu
          exact absurd hhigh.2 (not_lt.mpr hlow.1)
    · rw [List.getElem?_append_right hi] at hu
      obtain ⟨before, c', after, rfl, hc, hlen⟩ := ih hu
      refine ⟨c :: before, c', after, rfl, hc, ?_⟩
      have hcons' : Name.encode_utf16 (c :: before) =
        Name.encode_utf16_char c ++ before.encode_utf16 := rfl
      rw [hcons', List.length_append, hlen]
      omega

theorem paired_name_parts_iff (hzero : '\x00' ∉ name) :
    Paired (name_parts name) ↔ Unsplit name := by
  obtain ⟨hflat, hfilled⟩ := name_parts_eq hzero
  rw [paired_iff (by decide) hfilled, hflat]
  constructor
  · rintro h before c after rfl hc hdvd
    obtain ⟨u, v, hpair, hhigh, hlow⟩ := encode_utf16_char_pair hc
    have hunits : Name.encode_utf16 (before ++ c :: after) =
        before.encode_utf16 ++ u :: v :: Name.encode_utf16 after := by
      rw [Name.encode_utf16, List.flatMap_append, List.flatMap_cons, hpair]
      rfl
    refine h before.encode_utf16.length u v hdvd ?_ ?_ ⟨hhigh, hlow⟩
    · rw [hunits, List.getElem?_append_right le_rfl, Nat.sub_self]
      rfl
    · rw [hunits, List.getElem?_append_right (Nat.le_add_right _ 1), Nat.add_sub_cancel_left]
      rfl
  · rintro h i u v hdvd hu - ⟨hhigh, -⟩
    obtain ⟨before, c, after, heq, hc, rfl⟩ := exists_char_of_high hu hhigh
    exact h before c after heq hc hdvd

end Units

section Records

variable {r : Nat → Dirent} {k sum : Nat} {name : Name}

theorem HoldsName.long_name (h : HoldsName r k name sum) {i : Nat}
    (hi : i < (long_name_split name).length) : (r (k + i)).long_name =
      .from_utf16_lossy (((long_name_split name)[(long_name_split name).length - 1 - i]).takeWhile
        (· ≠ 0)) := by
  have hpiece := List.getElem_mem (l := long_name_split name)
    (n := (long_name_split name).length - 1 - i) (by omega)
  rw [h.lde i hi, Dirent.long_name, Dirent.name_utf16_new_form_name_slice _ _ _
    (length_of_mem_long_name_split name hpiece) (lt_of_mem_long_name_split name hpiece)]

/-- The entries from the `i`-th on hold the pieces from the first on. -/
theorem HoldsName.run_name (h : HoldsName r k name sum) {m i : Nat}
    (hm : i + m = (long_name_split name).length) :
    run_name r m (k + i) = ((long_name_split name).take m).flatMap fun piece =>
      Name.from_utf16_lossy (piece.takeWhile (· ≠ 0)) := by
  induction m generalizing i with
  | zero => rfl
  | succ m ih =>
    have hget : (long_name_split name).length - 1 - i = m := by omega
    rw [MyGOS.Fat32.run_name, Nat.add_assoc, ih (by omega), h.long_name (by omega),
      List.take_add_one, List.flatMap_append, List.getElem?_eq_getElem (by omega)]
    simp only [hget, Option.toList_some, List.flatMap_singleton]

/-- Both readers put the same name together. -/
theorem HoldsName.name_before (h : HoldsName r k name sum)
    (hpos : 0 < (long_name_split name).length) (hlt : (long_name_split name).length < 64) :
    name_before r (k + (long_name_split name).length) =
      some (MyGOS.Fat32.run_name r (long_name_split name).length k) := by
  have hlong : ∀ i < (long_name_split name).length,
      ¬ ((r (k + i)).is_deleted ∨ (r (k + i)).attr ≠ ATTR_LONG_NAME) := by
    intro i hi hor
    have hattr : (r (k + i)).attr = ATTR_LONG_NAME := by
      rw [h.lde i hi]
      exact Dirent.attr_new_form_name_slice ..
    have hdeleted := hor.resolve_right fun hne => hne hattr
    rw [Dirent.is_deleted, decide_eq_true_eq, h.lde i hi] at hdeleted
    exact lde_order_ne_unused hlt hi hdeleted
  have hname := name_before_run hlong
  rw [h.first, Option.getD_none, List.append_nil] at hname
  obtain ⟨m, hm⟩ : ∃ m, (long_name_split name).length = m + 1 := ⟨_, (Nat.sub_add_cancel hpos).symm⟩
  rw [hm] at hname hlong ⊢
  have hlast := hlong m (Nat.lt_succ_self m)
  rw [← Nat.add_assoc, MyGOS.Fat32.name_before, if_neg hlast] at hname ⊢
  exact congrArg some hname

theorem HoldsName.run_name_iff (h : HoldsName r k name sum) (hzero : '\x00' ∉ name) :
    MyGOS.Fat32.run_name r (long_name_split name).length k = name ↔ Unsplit name := by
  have hrun := h.run_name (m := (long_name_split name).length) (i := 0) (Nat.zero_add _)
  rw [List.take_length, ← List.flatMap_map] at hrun
  rw [← paired_name_parts_iff hzero, ← flatMap_name_parts_iff hzero]
  exact Eq.congr_left hrun

/-- A name is read back from its long entries, by `ls_with_attr` and by `dir_info`, if
no cut is inside a character and only then. -/
theorem long_name_iff (hzero : '\x00' ∉ name)
    (hlen : 1 ≤ name.encode_utf16.length ∧ name.encode_utf16.length ≤ 255)
    (h : HoldsName r k name sum) :
    (run_name r (long_name_split name).length k = name ↔ Unsplit name) ∧
      (name_before r (k + (long_name_split name).length) = some name ↔ Unsplit name) := by
  have hcnt := length_long_name_split name
  have hiff := h.run_name_iff hzero
  unfold LONG_NAME_LEN_CAP at hcnt
  rw [h.name_before (by omega) (by omega), Option.some.injEq]
  exact ⟨hiff, hiff⟩

/-- A directory with the long entries of `name` in front. -/
def name_records (name : Name) : Nat → Dirent := fun i =>
  if h : i < (long_name_split name).length then
    .new_form_name_slice (FileSystem.lde_order (long_name_split name).length i)
      (long_name_split name)[(long_name_split name).length - 1 - i] 0
  else .empty

theorem holdsName_name_records (name : Name) : HoldsName (name_records name) 0 name 0 where
  first := rfl
  lde i hi := by
    rw [Nat.zero_add]
    exact dif_pos hi

/-- A name of one letter. -/
theorem long_name_letter : name_before (name_records ['a']) 1 = some ['a'] := by
  have hcnt : (long_name_split ['a']).length = 1 := by decide
  have h := (long_name_iff (by decide) (by decide) (holdsName_name_records ['a'])).2
  rw [hcnt] at h
  refine h.mpr fun before c after heq hc => ?_
  have hmem : c ∈ ['a'] := heq ▸ List.mem_append_right _ List.mem_cons_self
  obtain rfl := List.mem_singleton.mp hmem
  exact absurd hc (by decide)

/-- Twelve letters, and a character whose second unit begins the next record. -/
theorem long_name_split_character :
    ¬∀ (r : Nat → Dirent) (k sum : Nat) (name : Name), '\x00' ∉ name →
      1 ≤ name.encode_utf16.length ∧ name.encode_utf16.length ≤ 255 → HoldsName r k name sum →
      run_name r (long_name_split name).length k = name := by
  intro h
  have hname := h _ 0 0 (List.replicate 12 'a' ++ [Char.ofNat 0x1F600]) (by decide) (by decide)
    (holdsName_name_records _)
  have hunsplit := (holdsName_name_records _).run_name_iff (by decide) |>.mp hname
  exact hunsplit (List.replicate 12 'a') (Char.ofNat 0x1F600) [] rfl (by decide) (by decide)

end Records

end MyGOS.Fat32
