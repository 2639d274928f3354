import MyGOS.Fat32.DirInfo
import MyGOS.Fat32.NewEntries

/-!
# Names in UTF-16 parts

A long name is in parts, each of which is decoded alone. All of them together give
the name back unless the two units of a character are in different parts.
-/

namespace MyGOS.Fat32

def high_surrogate (u : Nat) : Prop := 0xD800 ≤ u ∧ u < 0xDC00

def low_surrogate (u : Nat) : Prop := 0xDC00 ≤ u ∧ u < 0xE000

/-- The units of a pair are in different parts. -/
def Halved (part rest : List Nat) : Prop :=
  (∃ u ∈ part.getLast?, high_surrogate u) ∧ ∃ v ∈ rest.head?, low_surrogate v

instance : DecidablePred high_surrogate := fun _ => inferInstanceAs (Decidable (_ ∧ _))

instance : DecidablePred low_surrogate := fun _ => inferInstanceAs (Decidable (_ ∧ _))

instance (part rest : List Nat) : Decidable (Halved part rest) :=
  inferInstanceAs (Decidable (_ ∧ _))

/-- Each pair is in one part. -/
def Paired : List (List Nat) → Prop
  | [] => True
  | part :: parts => ¬ Halved part parts.flatten ∧ Paired parts

/-- All parts but the last one have `n` units. -/
def Filled (n : Nat) : List (List Nat) → Prop
  | [] => True
  | part :: parts => part.length ≤ n ∧ (parts ≠ [] → part.length = n) ∧ Filled n parts

instance Paired.decidable : (parts : List (List Nat)) → Decidable (Paired parts)
  | [] => inferInstanceAs (Decidable True)
  | part :: parts =>
    have := Paired.decidable parts
    inferInstanceAs (Decidable (¬ Halved part parts.flatten ∧ Paired parts))

/-- The parts of the name in the long entries right before a record, the first one first. -/
def parts_before (r : Nat → Dirent) : Nat → List (List Nat)
  | 0 => []
  | k + 1 =>
    if (r k).is_deleted ∨ (r k).attr ≠ ATTR_LONG_NAME then []
    else (r k).name_utf16.takeWhile (· ≠ 0) :: parts_before r k

/-- The long name of the entry whose short record is `k`. -/
def stored_name (r : Nat → Dirent) (k : Nat) : Name := .from_utf16_lossy (parts_before r k).flatten

namespace Name

theorem from_utf16_lossy_append {part rest : List Nat} (h : ¬ Halved part rest) :
    from_utf16_lossy (part ++ rest) = from_utf16_lossy part ++ from_utf16_lossy rest := by
  fun_induction from_utf16_lossy part with
  | case1 => rfl
  | case2 u =>
    cases rest with
    | nil => rfl
    | cons v rest =>
      rw [List.singleton_append, from_utf16_lossy]
      by_cases hu : u < 0xD800 ∨ 0xE000 ≤ u
      · rw [if_pos hu, if_pos hu]
        rfl
      · have hpair : ¬ (u < 0xDC00 ∧ 0xDC00 ≤ v ∧ v < 0xE000) := fun ⟨hlt, hv⟩ =>
          h ⟨⟨u, rfl, by omega, hlt⟩, v, rfl, hv⟩
        rw [if_neg hu, if_neg hu, if_neg hpair]
        rfl
  | case3 u v us hu ih =>
    rw [List.cons_append, List.cons_append, from_utf16_lossy, if_pos hu]
    exact congrArg _ (ih h)
  | case4 u v us hu hpair ih =>
    rw [List.cons_append, List.cons_append, from_utf16_lossy, if_neg hu, if_pos hpair]
    refine congrArg _ (ih fun ⟨⟨w, hw, hhigh⟩, hlow⟩ => h ⟨⟨w, ?_, hhigh⟩, hlow⟩)
    cases us with
    | nil => cases hw
    | cons u' us => exact hw
  | case5 u v us hu hpair ih =>
    rw [List.cons_append, List.cons_append, from_utf16_lossy, if_neg hu, if_neg hpair]
    exact congrArg _ (ih h)

/-- A pair that is not in one part is two replacement characters. -/
theorem from_utf16_lossy_halved {part rest : List Nat} (h : Halved part rest) :
    ∃ (name : Name) (c : Char) (name' name'' : Name),
      from_utf16_lossy (part ++ rest) = name ++ c :: name' ∧ 0x10000 ≤ c.toNat ∧
      from_utf16_lossy part = name ++ Char.ofNat 0xFFFD :: name'' := by
  obtain ⟨⟨u, hu, hhigh⟩, v, hv, hlow⟩ := h
  obtain ⟨us, rfl⟩ := List.getLast?_eq_some_iff.mp hu
  obtain ⟨vs, rfl⟩ := List.head?_eq_some_iff.mp hv
  have hnot : ∀ us', ¬ Halved us (u :: us') := by
    rintro us' ⟨-, w, hw, hwlow⟩
    cases hw
    exact absurd hhigh.2 (not_lt.mpr hwlow.1)
  have hsurrogate : ¬ (u < 0xD800 ∨ 0xE000 ≤ u) := by
    unfold high_surrogate at hhigh
    omega
  refine ⟨from_utf16_lossy us, Char.ofNat (0x10000 + (u - 0xD800) * 0x400 + (v - 0xDC00)),
    from_utf16_lossy vs, [], ?_, ?_, ?_⟩
  · rw [List.append_assoc, List.singleton_append, from_utf16_lossy_append (hnot _),
      from_utf16_lossy, if_neg hsurrogate, if_pos ⟨hhigh.2, hlow⟩]
  · have hvalid : Nat.isValidChar (0x10000 + (u - 0xD800) * 0x400 + (v - 0xDC00)) := by
      unfold high_surrogate at hhigh
      unfold low_surrogate at hlow
      exact .inr ⟨by omega, by omega⟩
    have hnat : (Char.ofNat (0x10000 + (u - 0xD800) * 0x400 + (v - 0xDC00))).toNat =
        0x10000 + (u - 0xD800) * 0x400 + (v - 0xDC00) := by
      unfold Char.ofNat
      rw [dif_pos hvalid]
      rfl
    omega
  · rw [from_utf16_lossy_append (hnot []), from_utf16_lossy, if_neg hsurrogate]

theorem from_utf16_lossy_flatten {parts : List (List Nat)} (h : Paired parts) :
    from_utf16_lossy parts.flatten = parts.flatMap from_utf16_lossy := by
  induction parts with
  | nil => rfl
  | cons part parts ih =>
    rw [List.flatten_cons, from_utf16_lossy_append h.1, ih h.2, List.flatMap_cons]

theorem from_utf16_lossy_flatten_ne {parts : List (List Nat)} (h : ¬ Paired parts) :
    ∃ (name : Name) (c : Char) (name' name'' : Name),
      from_utf16_lossy parts.flatten = name ++ c :: name' ∧ 0x10000 ≤ c.toNat ∧
      parts.flatMap from_utf16_lossy = name ++ Char.ofNat 0xFFFD :: name'' := by
  induction parts with
  | nil => exact absurd trivial h
  | cons part parts ih =>
    rw [List.flatten_cons, List.flatMap_cons]
    by_cases hhalved : Halved part parts.flatten
    · obtain ⟨name, c, name', name'', hwhole, hc, hpart⟩ := from_utf16_lossy_halved hhalved
      refine ⟨name, c, name', name'' ++ parts.flatMap from_utf16_lossy, hwhole, hc, ?_⟩
      rw [hpart, List.append_assoc, List.cons_append]
    · obtain ⟨name, c, name', name'', hwhole, hc, hpart⟩ := ih fun hp => h ⟨hhalved, hp⟩
      refine ⟨from_utf16_lossy part ++ name, c, name', name'', ?_, hc, ?_⟩
      · rw [from_utf16_lossy_append hhalved, hwhole, List.append_assoc]
      · rw [hpart, List.append_assoc]

end Name

/-- The name that `dir_info` puts together. -/
theorem name_before_parts (r : Nat → Dirent) (k : Nat) :
    (name_before r k).getD [] = (parts_before r k).flatMap Name.from_utf16_lossy ∧
      (name_before r k = none ↔ parts_before r k = []) := by
  induction k with
  | zero => exact ⟨rfl, iff_of_true rfl rfl⟩
  | succ k ih =>
    rw [name_before, parts_before]
    split
    · exact ⟨rfl, iff_of_true rfl rfl⟩
    · refine ⟨?_, iff_of_false (Option.some_ne_none _) (List.cons_ne_nil _ _)⟩
      rw [Option.getD_some, ih.1, List.flatMap_cons]
      rfl

namespace Name

theorem from_utf16_lossy_char (c : Char) (rest : List Nat) :
    from_utf16_lossy (encode_utf16_char c ++ rest) = c :: from_utf16_lossy rest := by
  have hvalid : c.toNat < 0xD800 ∨ 0xDFFF < c.toNat ∧ c.toNat < 0x110000 := c.valid
  have hofNat : Char.ofNat c.toNat = c := Char.ofNat_toNat c
  unfold encode_utf16_char
  split
  · next hlt =>
    have hunit : c.toNat < 0xD800 ∨ 0xE000 ≤ c.toNat := by omega
    cases rest with
    | nil =>
      rw [List.append_nil, from_utf16_lossy.eq_2, if_pos hunit, hofNat]
      rfl
    | cons v rest => rw [List.singleton_append, from_utf16_lossy, if_pos hunit, hofNat]
  · next hge =>
    have hunit : ¬ (0xD800 + (c.toNat - 0x10000) / 0x400 < 0xD800 ∨
        0xE000 ≤ 0xD800 + (c.toNat - 0x10000) / 0x400) := by omega
    have hpair : 0xD800 + (c.toNat - 0x10000) / 0x400 < 0xDC00 ∧
        0xDC00 ≤ 0xDC00 + (c.toNat - 0x10000) % 0x400 ∧
        0xDC00 + (c.toNat - 0x10000) % 0x400 < 0xE000 := by omega
    have hnat : 0x10000 + (0xD800 + (c.toNat - 0x10000) / 0x400 - 0xD800) * 0x400 +
        (0xDC00 + (c.toNat - 0x10000) % 0x400 - 0xDC00) = c.toNat := by omega
    rw [List.cons_append, List.singleton_append, from_utf16_lossy, if_neg hunit, if_pos hpair, hnat,
      hofNat]

/-- A name is read back from its units. -/
theorem from_utf16_lossy_encode_utf16 (name : Name) :
    from_utf16_lossy name.encode_utf16 = name := by
  induction name with
  | nil => rfl
  | cons c cs ih =>
    rw [encode_utf16, List.flatMap_cons, from_utf16_lossy_char]
    exact congrArg _ ih

theorem encode_utf16_ne_zero {name : Name} (h : '\x00' ∉ name) :
    ∀ unit ∈ name.encode_utf16, unit ≠ 0 := by
  intro unit hunit
  obtain ⟨c, hc, hunit⟩ := List.mem_flatMap.mp hunit
  unfold encode_utf16_char at hunit
  split at hunit
  · rw [List.mem_singleton] at hunit
    rintro rfl
    apply h
    have hzero : c = '\x00' := Char.ext (UInt32.toNat.inj hunit.symm)
    rwa [← hzero]
  · simp only [List.mem_cons, List.not_mem_nil, or_false] at hunit
    omega

end Name

/-- The units in each long entry of a name. -/
def name_parts (name : Name) : List (List Nat) :=
  (long_name_split name).map (·.takeWhile (· ≠ 0))

theorem takeWhile_ne_zero {units rest : List Nat} (h : ∀ unit ∈ units, unit ≠ 0)
    (hrest : rest = [] ∨ ∃ pad, rest = 0 :: pad) :
    (units ++ rest).takeWhile (· ≠ 0) = units := by
  rw [List.takeWhile_append_of_pos (by simpa using h)]
  obtain rfl | ⟨pad, rfl⟩ := hrest
  · rw [List.takeWhile_nil, List.append_nil]
  · rw [List.takeWhile_cons_of_neg (by simp), List.append_nil]

/-- The first part of what is padded to whole parts: a whole one, or the rest. -/
theorem chunks_cases {n : Nat} (hn : 0 < n) {units rest : List Nat} {m : Nat}
    (h : ∀ unit ∈ units, unit ≠ 0) (hrest : rest = [] ∨ ∃ pad, rest = 0 :: pad)
    (hlt : rest.length < n) (hlen : (units ++ rest).length = n * (m + 1)) :
    (n ≤ units.length ∧ ((units ++ rest).toChunks n).map (·.takeWhile (· ≠ 0)) =
      units.take n :: ((units.drop n ++ rest).toChunks n).map (·.takeWhile (· ≠ 0))) ∨
    (units.length ≤ n ∧ ((units ++ rest).toChunks n).map (·.takeWhile (· ≠ 0)) = [units]) := by
  have hcons : ∃ u us, units ++ rest = u :: us := by
    cases hnil : units ++ rest with
    | nil =>
      rw [hnil, List.length_nil, Nat.mul_succ] at hlen
      omega
    | cons u us => exact ⟨u, us, rfl⟩
  obtain ⟨u, us, hcons⟩ := hcons
  have hchunks := List.toChunks_cons hn u us
  rw [← hcons] at hchunks
  rw [hchunks, List.map_cons]
  rw [List.length_append, Nat.mul_succ] at hlen
  rcases Nat.lt_or_ge units.length n with hlt' | hle
  · refine .inr ⟨hlt'.le, ?_⟩
    have hm : m = 0 := by
      by_contra hne
      have hmul := Nat.le_mul_of_pos_right n (Nat.pos_of_ne_zero hne)
      omega
    rw [hm, Nat.mul_zero, Nat.zero_add] at hlen
    have hall : (units ++ rest).length ≤ n := by
      rw [List.length_append]
      omega
    rw [List.take_of_length_le hall, List.drop_of_length_le hall, takeWhile_ne_zero h hrest]
    rfl
  · refine .inl ⟨hle, ?_⟩
    have htake : (units.take n).takeWhile (· ≠ 0) = units.take n := by
      have htake := @takeWhile_ne_zero (units.take n) []
        (fun unit hu => h unit (List.mem_of_mem_take hu)) (Or.inl rfl)
      rwa [List.append_nil] at htake
    rw [List.take_append_of_le_length hle, List.drop_append_of_le_length hle, htake]

/-- What is padded to whole parts is in these parts, and only the last one is not full. -/
theorem flatten_chunks {n : Nat} (hn : 0 < n) {units rest : List Nat} {m : Nat}
    (h : ∀ unit ∈ units, unit ≠ 0) (hrest : rest = [] ∨ ∃ pad, rest = 0 :: pad)
    (hlt : rest.length < n) (hlen : (units ++ rest).length = n * m) :
    (((units ++ rest).toChunks n).map (·.takeWhile (· ≠ 0))).flatten = units ∧
    Filled n (((units ++ rest).toChunks n).map (·.takeWhile (· ≠ 0))) := by
  induction m generalizing units with
  | zero =>
    rw [Nat.mul_zero, List.length_append] at hlen
    obtain rfl : units = [] := List.length_eq_zero_iff.mp (by omega)
    obtain rfl : rest = [] := List.length_eq_zero_iff.mp (by omega)
    exact ⟨rfl, trivial⟩
  | succ m ih =>
    obtain ⟨hle, heq⟩ | ⟨hle, heq⟩ := chunks_cases hn h hrest hlt hlen
    · have hlen' : (units.drop n ++ rest).length = n * m := by
        rw [List.length_append, Nat.mul_succ] at hlen
        rw [List.length_append, List.length_drop]
        omega
      obtain ⟨hflat, hfull⟩ := ih (fun unit hu => h unit (List.mem_of_mem_drop hu)) hlen'
      have hlength : (units.take n).length = n := by rw [List.length_take, Nat.min_eq_left hle]
      rw [heq, List.flatten_cons, hflat, List.take_append_drop]
      exact ⟨rfl, hlength.le, fun _ => hlength, hfull⟩
    · rw [heq]
      exact ⟨List.append_nil units, hle, fun hne => absurd rfl hne, trivial⟩

/-- The units of a name are in its parts. -/
theorem name_parts_eq {name : Name} (h : '\x00' ∉ name) :
    (name_parts name).flatten = name.encode_utf16 ∧ Filled LONG_NAME_LEN_CAP (name_parts name) := by
  have hunits := Name.encode_utf16_ne_zero h
  have hlen := length_padded_units name
  have hge := ceil_mul_ge name.encode_utf16.length (by decide : 0 < LONG_NAME_LEN_CAP)
  rw [name_parts, long_name_split_eq]
  rw [padded_units] at hlen ⊢
  split at hlen
  · next hlt =>
    rw [List.append_assoc, List.singleton_append] at hlen ⊢
    rw [if_pos hlt]
    refine flatten_chunks (by decide) hunits (Or.inr ⟨_, rfl⟩) ?_ hlen
    rw [List.length_cons, List.length_replicate]
    have hdiv := Nat.div_mul_le_self (name.encode_utf16.length + LONG_NAME_LEN_CAP - 1)
      LONG_NAME_LEN_CAP
    unfold LONG_NAME_LEN_CAP at *
    omega
  · next hlt =>
    rw [if_neg hlt]
    have hall := @flatten_chunks LONG_NAME_LEN_CAP (by decide) name.encode_utf16 [] _ hunits
      (Or.inl rfl) (by decide) (by rwa [List.append_nil])
    rwa [List.append_nil] at hall

theorem flatten_name_parts {name : Name} (h : '\x00' ∉ name) :
    (name_parts name).flatten = name.encode_utf16 := (name_parts_eq h).1

end MyGOS.Fat32
