import Mathlib.Data.List.TakeWhile
import MyGOS.Fat32.Search

/-!
# Names in short entries

A short entry has the bytes of the name up to the second dot, in upper case; it
is read up to a space, and each byte is a character. So it has the whole name
only if this is ASCII, without spaces, and with one dot at most.
-/

namespace MyGOS.Fat32

open FileSystem

/-- A name that a short entry has as a whole. -/
def ShortForm (name : Name) : Prop :=
  (∀ c ∈ name, c.utf8Size = 1 ∧ c ≠ ' ') ∧ name.count '.' ≤ 1 ∧ name.getLast? ≠ some '.'

instance : DecidablePred ShortForm := fun name =>
  @instDecidableAnd _ _ (List.decidableBAll (fun c => c.utf8Size = 1 ∧ c ≠ ' ') name)
    (inferInstanceAs (Decidable (_ ∧ _)))

/-- The characters that are read from a field with these bytes. -/
def field_name (bytes : List UInt8) : Name :=
  ((bytes.map byte_to_uppercase).takeWhile (· ≠ SPACE)).map char_of_byte

section Bytes

theorem utf8_ascii {c : Char} {b : UInt8} (hb : b ∈ String.utf8EncodeChar c)
    (hlt : b.toNat < 128) : c.toNat = b.toNat := by
  have hval : c.val.toNat = c.toNat := rfl
  have hof : ∀ n : Nat, (UInt8.ofNat n).toNat = n % 256 := fun n => UInt8.toNat_ofNat'
  unfold String.utf8EncodeChar at hb
  simp only at hb
  split at hb
  · rw [List.mem_singleton] at hb
    subst hb
    rw [hof, hval]
    omega
  · -- the bytes of the longer forms have their highest bit
    exfalso
    split at hb <;> [skip; split at hb] <;>
      simp only [List.mem_cons, List.not_mem_nil, or_false] at hb
    · rcases hb with rfl | rfl <;> rw [hof] at hlt <;> omega
    · rcases hb with rfl | rfl | rfl <;> rw [hof] at hlt <;> omega
    · rcases hb with rfl | rfl | rfl | rfl <;> rw [hof] at hlt <;> omega

theorem toNat_of_ascii {c : Char} (h : c.utf8Size = 1) : c.toNat < 128 := by
  have hle := UInt32.le_iff_toNat_le.mp (Char.utf8Size_eq_one_iff.mp h)
  exact Nat.lt_succ_of_le hle

theorem toNat_byte_to_uppercase (b : UInt8) : (byte_to_uppercase b).toNat =
    if 97 ≤ b.toNat ∧ b.toNat ≤ 122 then b.toNat - 32 else b.toNat := by
  have hiff : (97 : UInt8) ≤ b ∧ b ≤ 122 ↔ 97 ≤ b.toNat ∧ b.toNat ≤ 122 := Iff.rfl
  unfold byte_to_uppercase
  split
  · next hin =>
    have hle : (32 : UInt8).toNat ≤ b.toNat := le_trans (by decide) (hiff.mp hin).1
    rw [if_pos (hiff.mp hin), UInt8.toNat_sub_of_le _ _ (UInt8.le_iff_toNat_le.mpr hle)]
    rfl
  · next hin => rw [if_neg (mt hiff.mpr hin)]

theorem byte_to_uppercase_idem (b : UInt8) :
    byte_to_uppercase (byte_to_uppercase b) = byte_to_uppercase b := by
  apply UInt8.toNat.inj
  rw [toNat_byte_to_uppercase, toNat_byte_to_uppercase]
  split
  · split <;> omega
  · rfl

/-- A byte below the letters is that of its character alone. -/
theorem char_of_uppercase {c : Char} {b : UInt8} (hb : b ∈ String.utf8EncodeChar c)
    (hlt : (byte_to_uppercase b).toNat < 65) : c.toNat = (byte_to_uppercase b).toNat := by
  rw [toNat_byte_to_uppercase] at hlt ⊢
  split at hlt
  · omega
  · next hin =>
    rw [if_neg hin]
    exact utf8_ascii hb (by omega)

theorem char_of_uppercase_ascii {c : Char} (h : c.utf8Size = 1) :
    (String.utf8EncodeChar c).map (char_of_byte ∘ byte_to_uppercase) = [c.toUpper] := by
  have hlt := toNat_of_ascii h
  have hbyte : (c.val.toUInt8).toNat = c.toNat := by
    rw [UInt32.toNat_toUInt8]
    exact Nat.mod_eq_of_lt (by show c.toNat < 256; omega)
  rw [String.utf8EncodeChar_eq_singleton h, List.map_singleton]
  congr 1
  apply Char.ext
  apply UInt32.toNat.inj
  show (char_of_byte (byte_to_uppercase c.val.toUInt8)).toNat = c.toUpper.toNat
  rw [toNat_char_of_byte, toNat_byte_to_uppercase, toNat_toUpper, hbyte]

end Bytes

section Fields

theorem append_inj_of_head {α : Type} {stop : α → Prop} {a a' x y : List α}
    (ha : ∀ c ∈ a, ¬ stop c) (ha' : ∀ c ∈ a', ¬ stop c) (hx : ∀ c ∈ x.head?, stop c)
    (hy : ∀ c ∈ y.head?, stop c) (h : a ++ x = a' ++ y) : a = a' ∧ x = y := by
  induction a generalizing a' with
  | nil =>
    cases a' with
    | nil => exact ⟨rfl, h⟩
    | cons c a' =>
      rw [List.nil_append] at h
      rw [h] at hx
      exact absurd (hx c rfl) (ha' c List.mem_cons_self)
  | cons c a ih =>
    cases a' with
    | nil =>
      rw [List.nil_append] at h
      rw [← h] at hy
      exact absurd (hy c rfl) (ha c List.mem_cons_self)
    | cons c' a' =>
      obtain ⟨rfl, htail⟩ := List.cons.inj h
      obtain ⟨rfl, rfl⟩ := ih (fun x hx => ha x (List.mem_cons_of_mem _ hx))
        (fun x hx => ha' x (List.mem_cons_of_mem _ hx)) htail
      exact ⟨rfl, rfl⟩

/-- All characters of a name are ASCII if it has as many characters as bytes. -/
theorem ascii_of_length {name : Name} (h : name.as_bytes.length = name.length) :
    ∀ c ∈ name, c.utf8Size = 1 := by
  have hle : ∀ name : Name, name.length ≤ name.as_bytes.length := by
    intro name
    induction name with
    | nil => exact le_rfl
    | cons c cs ih =>
      have hc := c.utf8Size_pos
      rw [Name.as_bytes] at ih ⊢
      rw [List.flatMap_cons, List.length_append, String.length_utf8EncodeChar, List.length_cons]
      omega
  induction name with
  | nil => exact fun _ hc => absurd hc List.not_mem_nil
  | cons c cs ih =>
    have hc := c.utf8Size_pos
    have hcs := hle cs
    rw [Name.as_bytes] at h ih hcs
    rw [List.flatMap_cons, List.length_append, String.length_utf8EncodeChar, List.length_cons] at h
    intro x hx
    obtain rfl | hx := List.mem_cons.mp hx
    · omega
    · exact ih (by omega) x hx

theorem map_uppercase_ascii {name : Name} (h : ∀ c ∈ name, c.utf8Size = 1) :
    name.as_bytes.map (char_of_byte ∘ byte_to_uppercase) = name.map Char.toUpper := by
  induction name with
  | nil => rfl
  | cons c cs ih =>
    have hcs := ih fun c hc => h c (List.mem_cons_of_mem _ hc)
    rw [Name.as_bytes] at hcs ⊢
    rw [List.flatMap_cons, List.map_append, char_of_uppercase_ascii (h c List.mem_cons_self), hcs]
    rfl

/-- What ends a field that is read, or the name in it. -/
def Stop (c : Char) : Prop := c = ' ' ∨ c = '.'

theorem toUpper_stop {c : Char} (h : Stop c.toUpper) : Stop c :=
  h.imp (fun h => toUpper_eq_of_lt h (by decide)) fun h => toUpper_eq_of_lt h (by decide)

theorem byte_stop {c : Char} {b : UInt8} (hb : b ∈ String.utf8EncodeChar c)
    (h : Stop (char_of_byte (byte_to_uppercase b))) : Stop c := by
  have hval : ∀ x : Char, char_of_byte (byte_to_uppercase b) = x → x.toNat < 65 → c = x := by
    intro x hx hlt
    apply Char.ext
    apply UInt32.toNat.inj
    show c.toNat = x.toNat
    have hnat := congrArg Char.toNat hx
    rw [toNat_char_of_byte] at hnat
    rw [← hnat] at hlt ⊢
    exact char_of_uppercase hb hlt
  exact h.imp (fun h => hval _ h (by decide)) fun h => hval _ h (by decide)

/-- A field is read up to the first space of what was written. -/
theorem field_name_as_bytes (part : Name) : field_name part.as_bytes =
    (Name.as_bytes (part.takeWhile (· ≠ ' '))).map (char_of_byte ∘ byte_to_uppercase) := by
  induction part with
  | nil => rfl
  | cons c cs ih =>
    have hcons : Name.as_bytes (c :: cs) = String.utf8EncodeChar c ++ Name.as_bytes cs :=
      List.flatMap_cons
    rw [field_name] at ih ⊢
    rw [hcons, List.map_append, List.takeWhile_cons]
    by_cases hc : c = ' '
    · subst hc
      rfl
    · have hne : ∀ b ∈ (String.utf8EncodeChar c).map byte_to_uppercase,
          decide (b ≠ SPACE) = true := by
        intro b hb
        obtain ⟨b', hb', rfl⟩ := List.mem_map.mp hb
        rw [decide_eq_true_eq]
        intro hspace
        have hnat : c.toNat = (byte_to_uppercase b').toNat :=
          char_of_uppercase hb' (by rw [hspace]; decide)
        rw [hspace] at hnat
        exact hc (Char.ext (UInt32.toNat.inj hnat))
      have hkeep : decide (c ≠ ' ') = true := decide_eq_true hc
      rw [List.takeWhile_append_of_pos hne, List.map_append, ih, if_pos hkeep, List.map_map]
      exact (List.map_append ..).symm

/-- A part of a name, and what comes after it, against the field and what comes after that. -/
theorem uppercase_append_iff {part tail rest : Name} (hpart : '.' ∉ part)
    (htail : ∀ c ∈ tail.head?, c = '.') (hrest : ∀ c ∈ rest.head?, c = '.') :
    (part ++ tail).to_ascii_uppercase = field_name part.as_bytes ++ rest ↔
      (∀ c ∈ part, c.utf8Size = 1 ∧ c ≠ ' ') ∧ tail.to_ascii_uppercase = rest := by
  constructor
  · intro h
    obtain ⟨kept, cut, rfl, hkept, hcut, hfield⟩ : ∃ kept cut : Name, part = kept ++ cut ∧
        (∀ c ∈ kept, c ≠ ' ') ∧ (∀ c ∈ cut.head?, c = ' ') ∧ field_name part.as_bytes =
          kept.as_bytes.map (char_of_byte ∘ byte_to_uppercase) := by
      refine ⟨part.takeWhile (· ≠ ' '), part.dropWhile (· ≠ ' '),
        List.takeWhile_append_dropWhile.symm, ?_, ?_, field_name_as_bytes part⟩
      · intro c hc
        have hkeep := List.mem_takeWhile_imp hc
        simpa using hkeep
      · intro c hc
        have hnot := List.head?_dropWhile_not (fun c : Char => decide (c ≠ ' ')) part
        rw [hc] at hnot
        simpa using hnot
    have hstop : ∀ c ∈ kept, ¬ Stop c := by
      rintro c hc (hspace | hdot)
      · exact hkept c hc hspace
      · exact hpart (List.mem_append_left _ (hdot ▸ hc))
    have hkept_stop : ∀ c ∈ kept.map Char.toUpper, ¬ Stop c := by
      intro c hc hc'
      obtain ⟨x, hx, rfl⟩ := List.mem_map.mp hc
      exact hstop x hx (toUpper_stop hc')
    have hbytes_stop : ∀ c ∈ kept.as_bytes.map (char_of_byte ∘ byte_to_uppercase), ¬ Stop c := by
      intro c hc hc'
      obtain ⟨b, hb, rfl⟩ := List.mem_map.mp hc
      obtain ⟨x, hx, hb⟩ := List.mem_flatMap.mp hb
      exact hstop x hx (byte_stop hb hc')
    have hcut_stop : ∀ c ∈ ((cut ++ tail).map Char.toUpper).head?, Stop c := by
      cases cut with
      | nil =>
        cases tail with
        | nil => exact fun _ hc => by cases hc
        | cons c tail =>
          obtain rfl := htail c rfl
          rintro _ ⟨⟩
          exact .inr rfl
      | cons c cut =>
        obtain rfl := hcut c rfl
        rintro _ ⟨⟩
        exact .inl rfl
    rw [hfield, List.append_assoc, Name.to_ascii_uppercase, List.map_append] at h
    obtain ⟨hbytes, hrest'⟩ := append_inj_of_head hkept_stop hbytes_stop hcut_stop
      (fun c hc => .inr (hrest c hc)) h
    have hnil : cut = [] := by
      cases cut with
      | nil => rfl
      | cons c cut =>
        obtain rfl := hcut c rfl
        rw [← hrest'] at hrest
        exact absurd (hrest _ rfl) (by decide)
    subst hnil
    have hlen := congrArg List.length hbytes
    rw [List.length_map, List.length_map] at hlen
    have hascii := ascii_of_length hlen.symm
    rw [List.append_nil]
    exact ⟨fun c hc => ⟨hascii c hc, hkept c hc⟩, hrest'⟩
  · rintro ⟨hascii, rfl⟩
    have hall : part.takeWhile (· ≠ ' ') = part :=
      List.takeWhile_eq_self_iff.mpr fun c hc => decide_eq_true (hascii c hc).2
    rw [field_name_as_bytes, hall, map_uppercase_ascii fun c hc => (hascii c hc).1]
    exact List.map_append

end Fields

section Entry

variable {name : Name}

/-- The name and the extension of a name with dots in other places than before. -/
theorem split_name_ext_cons {base ext tail : Name} (hbase : '.' ∉ base) (hext : '.' ∉ ext)
    (htail : tail = [] ∨ ∃ more, tail = '.' :: more) (hdot : base ++ '.' :: (ext ++ tail) ≠ ['.'])
    (hdots : base ++ '.' :: (ext ++ tail) ≠ ['.', '.']) :
    split_name_ext (base ++ '.' :: (ext ++ tail)) = (base, ext) := by
  rw [split_name_ext, if_neg hdot, if_neg hdots, Name.split_append hbase]
  obtain rfl | ⟨more, rfl⟩ := htail
  · rw [List.append_nil, Name.split_of_notMem hext]
  · rw [Name.split_append hext]

theorem split_name_ext_of_notMem (h : '.' ∉ name) : split_name_ext name = (name, []) := by
  have hdot : name ≠ ['.'] := by
    rintro rfl
    exact h List.mem_cons_self
  have hdots : name ≠ ['.', '.'] := by
    rintro rfl
    exact h List.mem_cons_self
  rw [split_name_ext, if_neg hdot, if_neg hdots, Name.split_of_notMem h]
  rfl

theorem takeWhile_append_stop {α : Type} {p : α → Bool} {a b : List α}
    (hb : ∀ c ∈ b.head?, p c = false) : (a ++ b).takeWhile p = a.takeWhile p := by
  induction a with
  | nil =>
    cases b with
    | nil => rfl
    | cons c b =>
      rw [List.nil_append, List.takeWhile_cons, hb c rfl]
      rfl
  | cons c a ih => rw [List.cons_append, List.takeWhile_cons, List.takeWhile_cons, ih]

theorem length_short_field (size : Nat) (bytes : List UInt8) :
    (short_field size bytes).length = size := by
  rw [short_field, List.length_map, List.length_range]

theorem short_field_eq {size : Nat} {bytes : List UInt8} (h : bytes.length ≤ size) :
    short_field size bytes =
      bytes.map byte_to_uppercase ++ List.replicate (size - bytes.length) SPACE := by
  apply List.ext_getElem
  · rw [length_short_field, List.length_append, List.length_map, List.length_replicate]
    omega
  · intro i hi hi'
    simp only [short_field, List.getElem_map, List.getElem_range]
    by_cases hlt : i < bytes.length
    · rw [List.getElem_append_left (by rwa [List.length_map]), List.getElem_map,
        List.getElem?_eq_getElem hlt]
      rfl
    · rw [List.getElem_append_right (by rw [List.length_map]; omega), List.getElem_replicate,
        List.getElem?_eq_none (not_lt.mp hlt)]
      rfl

/-- What is read from a field of a short entry. -/
theorem field_name_short_field {size : Nat} {bytes : List UInt8} (h : bytes.length ≤ size) :
    field_name (short_field size bytes) = field_name bytes := by
  have hidem : byte_to_uppercase ∘ byte_to_uppercase = byte_to_uppercase :=
    funext byte_to_uppercase_idem
  rw [field_name, short_field_eq h, List.map_append, List.map_map, hidem,
    takeWhile_append_stop, field_name]
  intro c hc
  cases hm : size - bytes.length with
  | zero =>
    rw [hm] at hc
    cases hc
  | succ m =>
    rw [hm] at hc
    cases hc
    rfl

theorem name_new (cluster : Nat) {fields : List UInt8} (extension : List UInt8)
    (file_type : VirtFileType) (h : fields.length = 8) :
    (Dirent.new cluster fields extension file_type).name = fields.map byte_to_uppercase := by
  match fields, h with
  | [_, _, _, _, _, _, _, _], _ => rfl

theorem extension_new (cluster : Nat) (fields : List UInt8) {extension : List UInt8}
    (file_type : VirtFileType) (h : extension.length = 3) :
    (Dirent.new cluster fields extension file_type).extension =
      extension.map byte_to_uppercase := by
  match extension, h with
  | [_, _, _], _ => rfl

/-- The name that is compared with a short name. -/
theorem get_name_uppercase_short (hshort : ¬ is_long name) (file_type : VirtFileType) :
    (short_entry name file_type).get_name_uppercase =
      field_name (split_name_ext name).1.as_bytes ++
        if field_name (split_name_ext name).2.as_bytes = [] then []
        else '.' :: field_name (split_name_ext name).2.as_bytes := by
  have hlen : (split_name_ext name).1.as_bytes.length ≤ 8 ∧
      (split_name_ext name).2.as_bytes.length ≤ 3 := by
    rw [is_long, decide_eq_true_eq, not_or, not_lt, not_lt] at hshort
    exact hshort
  have hentry : short_entry name file_type = .new NEW_VIRT_FILE_CLUSTER
      (short_field 8 (split_name_ext name).1.as_bytes)
      (short_field 3 (split_name_ext name).2.as_bytes) file_type := by
    rw [short_entry, if_neg hshort]
    rfl
  have hname := field_name_short_field hlen.1
  have hext := field_name_short_field hlen.2
  rw [field_name] at hname hext
  rw [hentry, Dirent.get_name_uppercase, name_new _ _ _ (length_short_field ..),
    extension_new _ _ _ (length_short_field ..), hname, hext]

theorem exists_part (rest : Name) : ∃ ext tail : Name, rest = ext ++ tail ∧ '.' ∉ ext ∧
    (tail = [] ∨ ∃ more, tail = '.' :: more) := by
  by_cases h : '.' ∈ rest
  · obtain ⟨ext, more, rfl, hext⟩ := List.eq_append_cons_of_mem h
    exact ⟨ext, _, rfl, hext, .inr ⟨more, rfl⟩⟩
  · exact ⟨rest, [], (List.append_nil _).symm, h, .inl rfl⟩

theorem short_form_cons_iff {base ext tail : Name} (hbase : '.' ∉ base) (hext : '.' ∉ ext)
    (htail : tail = [] ∨ ∃ more, tail = '.' :: more) :
    ShortForm (base ++ '.' :: (ext ++ tail)) ↔ (∀ c ∈ base, c.utf8Size = 1 ∧ c ≠ ' ') ∧
      (∀ c ∈ ext, c.utf8Size = 1 ∧ c ≠ ' ') ∧ ext ≠ [] ∧ tail = [] := by
  rw [ShortForm, List.count_append, List.count_eq_zero_of_not_mem hbase, List.count_cons_self,
    List.count_append, List.count_eq_zero_of_not_mem hext, List.getLast?_append_cons]
  obtain rfl | ⟨more, rfl⟩ := htail
  · rw [List.append_nil]
    constructor
    · rintro ⟨hall, -, hlast⟩
      refine ⟨fun c hc => hall c (List.mem_append_left _ hc), fun c hc => hall c
        (List.mem_append_right _ (List.mem_cons_of_mem _ hc)), ?_, rfl⟩
      rintro rfl
      exact hlast rfl
    · rintro ⟨hall, hall', hne, -⟩
      refine ⟨?_, by simp, ?_⟩
      · intro c hc
        obtain hc | hc := List.mem_append.mp hc
        · exact hall c hc
        · obtain rfl | hc := List.mem_cons.mp hc
          · decide
          · exact hall' c hc
      · obtain ⟨c, cs, rfl⟩ := List.exists_cons_of_ne_nil hne
        rw [List.getLast?_cons_cons]
        exact fun h => hext (List.mem_of_getLast? h)
  · rw [List.count_cons_self]
    exact iff_of_false (fun h => by omega) fun h => absurd h.2.2.2 (List.cons_ne_nil _ _)

/-- A short name is read back, in upper case, if it has the form for that. -/
theorem short_form_iff (hshort : ¬ is_long name) (hdot : name ≠ ['.']) (hdots : name ≠ ['.', '.'])
    (file_type : VirtFileType) :
    name.to_ascii_uppercase = (short_entry name file_type).get_name_uppercase ↔
      ShortForm name := by
  rw [get_name_uppercase_short hshort]
  by_cases hmem : '.' ∈ name
  · obtain ⟨base, rest, rfl, hbase⟩ := List.eq_append_cons_of_mem hmem
    obtain ⟨ext, tail, rfl, hext, htail⟩ := exists_part rest
    have hhead : ∀ c ∈ tail.head?, c = '.' := by
      obtain rfl | ⟨more, rfl⟩ := htail
      · exact fun _ hc => by cases hc
      · exact fun c hc => (Option.some.inj hc).symm
    rw [split_name_ext_cons hbase hext htail hdot hdots]
    simp only
    have hdot_head : ∀ c ∈ ('.' :: (ext ++ tail)).head?, c = '.' :=
      fun c hc => (Option.some.inj hc).symm
    rw [uppercase_append_iff hbase hdot_head ?_, short_form_cons_iff hbase hext htail]
    · have happend := @uppercase_append_iff ext tail [] hext hhead fun _ hc => by cases hc
      have hcons : Name.to_ascii_uppercase ('.' :: (ext ++ tail)) =
          '.' :: Name.to_ascii_uppercase (ext ++ tail) := rfl
      rw [List.append_nil] at happend
      refine and_congr_right fun _ => ?_
      rw [hcons]
      constructor
      · intro h
        split at h
        · cases h
        · next hne =>
          obtain ⟨hall, hnil⟩ := happend.mp (List.cons.inj h).2
          refine ⟨hall, ?_, List.map_eq_nil_iff.mp hnil⟩
          rintro rfl
          exact hne rfl
      · rintro ⟨hall, hne, rfl⟩
        have hfield := happend.mpr ⟨hall, rfl⟩
        rw [List.append_nil] at hfield ⊢
        have hne' : Name.to_ascii_uppercase ext ≠ [] := mt List.map_eq_nil_iff.mp hne
        rw [← hfield, if_neg hne']
    · intro c hc
      split at hc
      · cases hc
      · exact (Option.some.inj hc).symm
  · have happend := @uppercase_append_iff name [] [] hmem (fun _ hc => by cases hc)
      (fun _ hc => by cases hc)
    have hlast : name.getLast? ≠ some '.' := fun h => hmem (List.mem_of_getLast? h)
    rw [List.append_nil] at happend
    rw [split_name_ext_of_notMem hmem]
    simp only
    rw [show field_name (Name.as_bytes []) = [] from rfl, if_pos rfl, happend, ShortForm,
      List.count_eq_zero_of_not_mem hmem]
    exact ⟨fun h => ⟨h.1, Nat.zero_le _, hlast⟩, fun h => ⟨h.1, rfl⟩⟩

theorem utf8_ne_unused {c : Char} (h : c.toNat < 256) :
    ∀ b ∈ String.utf8EncodeChar c, b.toNat ≠ 0xE5 := by
  have hval : c.val.toNat = c.toNat := rfl
  have hof : ∀ n : Nat, (UInt8.ofNat n).toNat = n % 256 := fun n => UInt8.toNat_ofNat'
  intro b hb
  unfold String.utf8EncodeChar at hb
  simp only [hval] at hb
  split at hb
  · rw [List.mem_singleton] at hb
    rw [hb, hof]
    omega
  · rw [if_pos (by omega)] at hb
    simp only [List.mem_cons, List.not_mem_nil, or_false] at hb
    rcases hb with rfl | rfl <;> rw [hof] <;> omega

/-- A short entry is not marked as deleted when the characters of its name are bytes. -/
theorem short_entry_is_deleted (file_type : VirtFileType)
    (h : ∀ c ∈ if is_long name then generate_short_name name else name, c.toNat < 256) :
    ¬ (short_entry name file_type).is_deleted := by
  have hchars : ∀ c ∈ (split_name_ext (if is_long name then generate_short_name name else name)).1,
      c.toNat < 256 := fun c hc => h c (mem_of_mem_split_name_ext (.inl hc))
  generalize hn : (if is_long name then generate_short_name name else name) = short_name
    at hchars
  have hbyte : (short_entry name file_type) 0 = (((short_field 8
      (split_name_ext short_name).1.as_bytes)[0]?).map byte_to_uppercase).getD SPACE := by
    rw [← hn]
    rfl
  have hupper : ∀ b : UInt8, b.toNat ≠ 0xE5 → (byte_to_uppercase b).toNat ≠ 0xE5 := by
    intro b hb
    rw [toNat_byte_to_uppercase]
    split <;> omega
  rw [Dirent.is_deleted, decide_eq_true_eq, hbyte]
  cases hget : (short_field 8 (split_name_ext short_name).1.as_bytes)[0]? with
  | none => decide
  | some b =>
    intro heq
    apply hupper b _ (congrArg UInt8.toNat heq)
    obtain ⟨i, -, rfl⟩ := List.mem_map.mp (List.mem_of_getElem? hget)
    cases hbyte : (split_name_ext short_name).1.as_bytes[i]? with
    | none => decide
    | some b =>
      obtain ⟨c, hc, hb⟩ := List.mem_flatMap.mp (List.mem_of_getElem? hbyte)
      exact hupper b (utf8_ne_unused (hchars c hc) b hb)

theorem generate_short_name_lt (name : Name) : ∀ c ∈ generate_short_name name, c.toNat < 256 := by
  have hupper : ∀ b : UInt8, (char_of_byte b).toUpper.toNat < 256 := by
    intro b
    have hb := b.toNat_lt
    rw [toNat_toUpper, toNat_char_of_byte]
    split <;> omega
  intro c hc
  simp only [generate_short_name, List.mem_append, List.mem_map] at hc
  rcases hc with ((⟨b, -, rfl⟩ | hc) | hc) | ⟨i, -, rfl⟩
  · exact hupper b
  · simp only [List.mem_cons, List.not_mem_nil, or_false] at hc
    rcases hc with rfl | rfl <;> decide
  · rw [List.eq_of_mem_replicate hc]
    decide
  · cases (split_name_ext name).2.as_bytes[i]? with
    | none => decide
    | some b => exact hupper b

end Entry

end MyGOS.Fat32
