import MyGOS.Fat32.Utf16
import MyGOS.Fs.Getdents

/-!
# The names of directory entries

The name of an entry comes from the UTF-16 parts in its long records, each of which
is decoded alone, and goes into an array of 64 bytes with a zero behind it. What the
array had there before stays.
-/

namespace MyGOS.Fat32.Name

theorem as_bytes_append (name name' : Name) :
    Name.as_bytes (name ++ name') = name.as_bytes ++ name'.as_bytes := List.flatMap_append

theorem len_lt_append (name : Name) (c : Char) (rest : Name) :
    name.len < Name.len (name ++ c :: rest) := by
  have hpos := List.length_pos_iff.mpr (@String.utf8EncodeChar_ne_nil c)
  rw [len, len, as_bytes_append, List.length_append, as_bytes, as_bytes, List.flatMap_cons,
    List.length_append]
  omega

/-- The encodings of the two differ in their first byte. -/
theorem getD_as_bytes_ne {name name' name'' : Name} {c : Char} (hc : 0x10000 ≤ c.toNat) :
    (Name.as_bytes (name ++ c :: name')).getD name.len 0 ≠
      (Name.as_bytes (name ++ Char.ofNat 0xFFFD :: name'')).getD name.len 0 := by
  have hhead : ∀ (c : Char) name' b bs, String.utf8EncodeChar c = b :: bs →
      (Name.as_bytes (name ++ c :: name')).getD name.len 0 = b := by
    intro c name' b bs hbytes
    have happ : Name.as_bytes (c :: name') = b :: (bs ++ Name.as_bytes name') := by
      rw [as_bytes, List.flatMap_cons, hbytes]
      rfl
    rw [as_bytes_append, happ, len, List.getD_append_right _ _ _ _ le_rfl, Nat.sub_self]
    rfl
  have hval : 0x10000 ≤ c.val.toNat := hc
  have hencode : ∃ n bs, String.utf8EncodeChar c = UInt8.ofNat (n % 8 + 0xF0) :: bs := by
    unfold String.utf8EncodeChar
    simp only
    rw [if_neg (by omega), if_neg (by omega), if_neg (by omega)]
    exact ⟨_, _, rfl⟩
  obtain ⟨n, bs, hencode⟩ := hencode
  rw [hhead c name' _ _ hencode, hhead (Char.ofNat 0xFFFD) name'' 0xEF [0xBF, 0xBD] (by decide)]
  intro heq
  have hnat := congrArg UInt8.toNat heq
  rw [UInt8.toNat_ofNat'] at hnat
  have h239 : UInt8.toNat 0xEF = 239 := rfl
  omega

end MyGOS.Fat32.Name

namespace MyGOS.Nix.Dirent

open Fat32

/-- The array has as many bytes of the name as fit, and zeros behind them. -/
def Holds (d : Dirent) (name : Name) : Prop :=
  ∀ i : Fin NAME_LIMIT, d.d_name i =
    if i.val < min name.len (NAME_LIMIT - 1) then name.as_bytes.getD i 0 else 0

variable {d : Dirent} {name : Name}

theorem init_eq (d : Dirent) (h : name.len < NAME_LIMIT) (offset : Int) (first_clu : Nat) :
    ∃ d', d.init name offset first_clu = .ok d' ∧ ∀ i : Fin NAME_LIMIT, d'.d_name i =
      if i.val < name.len then name.as_bytes.getD i 0
      else if i.val = name.len then 0 else d.d_name i := by
  have hmin : min name.len NAME_LIMIT = name.len := Nat.min_eq_left h.le
  exact ⟨_, by rw [init, fill_name, hmin, if_pos h], fun _ => rfl⟩

theorem init_error (d : Dirent) (h : NAME_LIMIT ≤ name.len) (offset : Int) (first_clu : Nat) :
    d.init name offset first_clu = .error .outOfBounds := by
  rw [init, fill_name, Nat.min_eq_right h, if_neg (lt_irrefl _)]

/-- The array shows the name if nothing was behind it. -/
theorem holds_iff (h : name.len < NAME_LIMIT) {d' : Dirent}
    (hd' : ∀ i : Fin NAME_LIMIT, d'.d_name i =
      if i.val < name.len then name.as_bytes.getD i 0
      else if i.val = name.len then 0 else d.d_name i) :
    d'.Holds name ↔ ∀ i : Fin NAME_LIMIT, name.len < i → d.d_name i = 0 := by
  have hmin : min name.len (NAME_LIMIT - 1) = name.len := Nat.min_eq_left (Nat.le_sub_one_of_lt h)
  constructor
  · intro hholds i hi
    have heq := hholds i
    rw [hd', hmin, if_neg (by omega), if_neg (by omega), if_neg (by omega)] at heq
    exact heq
  · intro hzero i
    rw [hd', hmin]
    split
    · rfl
    · split
      · rfl
      · exact hzero i (by omega)

end MyGOS.Nix.Dirent

namespace MyGOS.Fs.FsState

open Fat32 Outcome

/-- A directory that is open. -/
structure OpenDir (s : FsState) (f : KFile) : Prop where
  layout : s.fs.bpb.Layout
  data : ∀ c ∈ s.fs.cluster_vec (s.inodes f.inode).file, s.fs.bpb.InData c
  is_dir : (s.inodes f.inode).file.is_dir

variable {s : FsState} {h k j : Nat} {js : List Nat} {f : KFile}

theorem dirent_eq (hl : s.OpenDir f) (hr : ListedTo s s h f k)
    (hlive : live_from (s.dir_record f) (s.dir_record_cnt f) k = j :: js) :
    ∃ s', ∀ d, s.dirent h d = do
      let d' ← d.init (live_info (s.dir_record f) j).name
        ((live_info (s.dir_record f) j).offset : Nat) (live_info (s.dir_record f) j).first_cluster
      return ((Nix.Dirent.size : Int), d', s') := by
  obtain ⟨hj, hend, -⟩ := live_from_cons hlive
  have hinfo : s.fs.dir_info (s.inodes f.inode).file (DIRENT_SIZE * k) =
      .ok (some (live_info (s.dir_record f) j)) := by
    have heq := FileSystem.dir_info_eq hl.layout hl.data hl.is_dir hr.le hr.fresh
    rw [show live_from (s.fs.dir_record (s.inodes f.inode).file)
      (s.fs.dir_record_cnt (s.inodes f.inode).file) k = j :: js from hlive] at heq
    exact heq
  obtain ⟨s', hseek, -⟩ := hr.seek hj hend
  refine ⟨s', fun d => ?_⟩
  rw [FsState.dirent, hr.kfile, ok_bind]
  simp only [if_pos hl.is_dir, hinfo, ok_bind]
  have hseek' : s.seek h (live_info (s.dir_record f) j).offset = .ok s' := hseek
  simp only [hseek', ok_bind]

/-- `dirent` fills an entry with the long name of the next live one. -/
def Fills (s : FsState) (h : Nat) (d : Nix.Dirent) (name : Name) : Prop :=
  ∃ d' s', s.dirent h d = .ok ((Nix.Dirent.size : Int), d', s') ∧ d'.Holds name

/-- For each long name of a directory: it is shown if and only if it is shorter than the array,
none of its pairs is in two parts, and the array has zeros behind its length. -/
theorem dirent_fills_iff (hl : s.OpenDir f) (hr : ListedTo s s h f k)
    (hlive : live_from (s.dir_record f) (s.dir_record_cnt f) k = j :: js)
    (hlong : parts_before (s.dir_record f) j ≠ []) (d : Nix.Dirent) :
    s.Fills h d (stored_name (s.dir_record f) j) ↔
      (stored_name (s.dir_record f) j).len < Nix.NAME_LIMIT ∧
      Paired (parts_before (s.dir_record f) j) ∧
      ∀ i : Fin Nix.NAME_LIMIT, (stored_name (s.dir_record f) j).len < i → d.d_name i = 0 := by
  obtain ⟨s', hdirent⟩ := dirent_eq hl hr hlive
  have hname : (live_info (s.dir_record f) j).name =
      (parts_before (s.dir_record f) j).flatMap Name.from_utf16_lossy := by
    obtain ⟨hparts, hnone⟩ := name_before_parts (s.dir_record f) j
    cases hbefore : name_before (s.dir_record f) j with
    | none => exact absurd (hnone.mp hbefore) hlong
    | some name =>
      rw [hbefore] at hparts
      rw [live_info, hbefore]
      exact hparts
  rw [Fills, hdirent, hname]
  constructor
  · rintro ⟨d', s'', hok, hholds⟩
    obtain ⟨d₁, hinit, hret⟩ := bind_eq_ok.mp hok
    cases hret
    have hlt : Name.len ((parts_before (s.dir_record f) j).flatMap Name.from_utf16_lossy) <
        Nix.NAME_LIMIT := by
      by_contra hge
      rw [Nix.Dirent.init_error d (not_lt.mp hge)] at hinit
      cases hinit
    obtain ⟨d₂, hinit', hd₂⟩ := d.init_eq hlt (live_info (s.dir_record f) j).offset
      (live_info (s.dir_record f) j).first_cluster
    obtain rfl : d₂ = d' := Except.ok.inj (hinit'.symm.trans hinit)
    have hpaired : Paired (parts_before (s.dir_record f) j) := by
      by_contra hnot
      obtain ⟨name, c, name', name'', hwhole, hc, hparts⟩ := Name.from_utf16_lossy_flatten_ne hnot
      rw [hparts] at hlt hd₂
      have hcode := Name.len_lt_append name (Char.ofNat 0xFFFD) name''
      have hplace := hholds ⟨name.len, hcode.trans hlt⟩
      rw [hd₂, if_pos hcode, stored_name, hwhole, if_pos] at hplace
      · exact Name.getD_as_bytes_ne hc hplace.symm
      · exact lt_min (Name.len_lt_append name c name')
          (hcode.trans_le (Nat.le_sub_one_of_lt hlt))
    have hstored : stored_name (s.dir_record f) j =
        (parts_before (s.dir_record f) j).flatMap Name.from_utf16_lossy :=
      Name.from_utf16_lossy_flatten hpaired
    rw [hstored] at hholds ⊢
    exact ⟨hlt, hpaired, (Nix.Dirent.holds_iff hlt hd₂).mp hholds⟩
  · rintro ⟨hlt, hpaired, hzero⟩
    have hstored : stored_name (s.dir_record f) j =
        (parts_before (s.dir_record f) j).flatMap Name.from_utf16_lossy :=
      Name.from_utf16_lossy_flatten hpaired
    rw [hstored] at hlt hzero ⊢
    obtain ⟨d', hinit, hd'⟩ := d.init_eq hlt (live_info (s.dir_record f) j).offset
      (live_info (s.dir_record f) j).first_cluster
    refine ⟨d', s', ?_, (Nix.Dirent.holds_iff hlt hd').mpr hzero⟩
    rw [hinit]
    rfl

/-- A root directory with one file, as `create` writes its records. -/
def named_root (name : Name) : FsState :=
  let sde := FileSystem.short_entry name .File
  floppy_root (FileSystem.long_entries name sde ++ [sde])

theorem open_dir_named_root (name : Name) : (named_root name).OpenDir root_file where
  layout := listable_one_entry.layout
  data := listable_one_entry.data
  is_dir := rfl

theorem dirent_fills_iff_twenty :
    (named_root (List.replicate 20 'a')).Fills 0 .new (List.replicate 20 'a') := by
  have hlive : live_from ((named_root (List.replicate 20 'a')).dir_record root_file)
      ((named_root (List.replicate 20 'a')).dir_record_cnt root_file) 0 = [2] := by decide +kernel
  have hname : stored_name ((named_root (List.replicate 20 'a')).dir_record root_file) 2 =
      List.replicate 20 'a' := by decide +kernel
  have hopen : ListedTo (named_root (List.replicate 20 'a')) (named_root (List.replicate 20 'a'))
    0 root_file 0 := .start rfl rfl
  have hfills := (dirent_fills_iff (open_dir_named_root _) hopen hlive (by decide +kernel)
    .new).mpr
      ⟨by rw [hname]; decide +kernel, by decide +kernel, fun _ _ => rfl⟩
  rwa [hname] at hfills

/-- The byte behind the name of 64 bytes is out of bounds. -/
theorem dirent_full_name :
    stored_name ((named_root (List.replicate 64 'a')).dir_record root_file) 5 =
        List.replicate 64 'a' ∧
      (named_root (List.replicate 64 'a')).dirent 0 .new = .error .outOfBounds ∧
      ¬ (named_root (List.replicate 64 'a')).Fills 0 .new (List.replicate 64 'a') := by
  have herror : (named_root (List.replicate 64 'a')).dirent 0 .new = .error .outOfBounds := by
    have hmeets : Meets ((named_root (List.replicate 64 'a')).dirent 0 .new) (· = .outOfBounds)
        fun _ => False := by decide +kernel
    cases hdirent : (named_root (List.replicate 64 'a')).dirent 0 .new with
    | error e => rw [hmeets.error hdirent]
    | ok r => exact (hmeets.of_ok hdirent).elim
  refine ⟨by decide +kernel, herror, ?_⟩
  rintro ⟨d', s', hok, -⟩
  rw [herror] at hok
  cases hok

end MyGOS.Fs.FsState
