import MyGOS.Fat32.Records

/-!
# The entries of a directory

`dir_info` walks over the records from an offset to the next short entry, and
puts the name together from the long entries on its way.
-/

namespace MyGOS.Fat32

/-- `String::from_utf16_lossy`. -/
def Name.from_utf16_lossy : List Nat → Name
  | [] => []
  | [u] => [if u < 0xD800 ∨ 0xE000 ≤ u then Char.ofNat u else Char.ofNat 0xFFFD]
  | u :: v :: us =>
    if u < 0xD800 ∨ 0xE000 ≤ u then Char.ofNat u :: from_utf16_lossy (v :: us)
    else if u < 0xDC00 ∧ 0xDC00 ≤ v ∧ v < 0xE000 then
      Char.ofNat (0x10000 + (u - 0xD800) * 0x400 + (v - 0xDC00)) :: from_utf16_lossy us
    else Char.ofNat 0xFFFD :: from_utf16_lossy (v :: us)

namespace Dirent

def get_name_lowercase (e : Dirent) : Name := e.get_name_uppercase.to_ascii_lowercase

/-- `LongDirEntry::name`. -/
def long_name (e : Dirent) : Name := Name.from_utf16_lossy (e.name_utf16.takeWhile (· ≠ 0))

end Dirent

/-- What `dir_info` returns. -/
structure DirInfo where
  name : Name
  offset : Nat
  first_cluster : Nat
  attr : Nat
deriving DecidableEq, Repr

namespace FileSystem

def dir_info_loop (fs : FileSystem) (dir : VirtFile) :
    Nat → (index : Nat) → (name : Name) → (is_long : Bool) → Except FsPanic (Option DirInfo)
  | 0, _, _, _ => .error .endless
  | fuel + 1, index, name, is_long => do
    match ← fs.read_record dir index with
    | none => return none
    | some entry =>
      if entry.is_empty then return none
      else if entry.is_deleted then dir_info_loop fs dir fuel (index + DIRENT_SIZE) [] false
      else if entry.attr ≠ ATTR_LONG_NAME then
        return some ⟨if is_long then name else entry.get_name_lowercase, index + DIRENT_SIZE,
          entry.first_cluster, entry.attr.toNat⟩
      else dir_info_loop fs dir fuel (index + DIRENT_SIZE) (entry.long_name ++ name) true

def dir_info (fs : FileSystem) (dir : VirtFile) (offset : Nat) :
    Except FsPanic (Option DirInfo) :=
  if dir.is_dir then fs.dir_info_loop dir (fs.record_limit dir) offset [] false else .ok none

end FileSystem

section Live

variable (r : Nat → Dirent)

/-- A short entry that is not deleted. -/
def is_live (k : Nat) : Bool := ¬ (r k).is_deleted ∧ (r k).attr ≠ ATTR_LONG_NAME

/-- The name in the long entries right before a record. -/
def name_before : Nat → Option Name
  | 0 => none
  | k + 1 =>
    if (r k).is_deleted ∨ (r k).attr ≠ ATTR_LONG_NAME then none
    else some ((r k).long_name ++ (name_before k).getD [])

def live_info (k : Nat) : DirInfo where
  name := (name_before r k).getD (r k).get_name_lowercase
  offset := DIRENT_SIZE * (k + 1)
  first_cluster := (r k).first_cluster
  attr := (r k).attr.toNat

/-- The live entries among `n` records, from `k` on. -/
def live_from (n k : Nat) : List Nat :=
  (List.range' k (end_index r n - k)).filter (is_live r)

theorem name_before_of_live {k : Nat} (h : is_live r k) : name_before r (k + 1) = none := by
  rw [name_before, if_pos (.inr (of_decide_eq_true h).2)]

theorem end_index_le (n : Nat) : end_index r n ≤ n := by
  unfold end_index
  cases hfind : (List.range n).find? fun k => (r k).is_empty with
  | none => exact le_rfl
  | some k => exact (List.mem_range.mp (List.mem_of_find?_eq_some hfind)).le

theorem not_empty_of_lt {n k : Nat} (h : k < end_index r n) : ¬ (r k).is_empty := by
  have hn := h.trans_le (end_index_le r n)
  intro hempty
  unfold end_index at h
  cases hfind : (List.range n).find? fun k => (r k).is_empty with
  | none =>
    rw [List.find?_range_eq_none] at hfind
    have := hfind k hn
    simp [hempty] at this
  | some j =>
    rw [hfind, Option.getD_some] at h
    rw [List.find?_range_eq_some] at hfind
    have := hfind.2.2 k h
    simp [hempty] at this

theorem empty_end {n : Nat} (h : end_index r n < n) : (r (end_index r n)).is_empty := by
  unfold end_index at h ⊢
  cases hfind : (List.range n).find? fun k => (r k).is_empty with
  | none =>
    rw [hfind] at h
    exact absurd h (lt_irrefl _)
  | some j => exact @List.find?_some _ (fun k => (r k).is_empty) _ _ hfind

variable {r}

theorem live_from_of_lt {n k : Nat} (h : k < end_index r n) :
    live_from r n k =
      if is_live r k then k :: live_from r n (k + 1) else live_from r n (k + 1) := by
  obtain ⟨m, hm⟩ := Nat.exists_eq_add_of_lt h
  have hk : end_index r n - k = m + 1 := by omega
  have hk' : end_index r n - (k + 1) = m := by omega
  rw [live_from, hk, List.range'_succ, List.filter_cons, live_from, hk']

theorem live_from_of_ge {n k : Nat} (h : end_index r n ≤ k) : live_from r n k = [] := by
  rw [live_from, Nat.sub_eq_zero_of_le h]
  rfl

/-- After its first entry the rest is that behind it. -/
theorem live_from_cons {n k j : Nat} {js : List Nat} (h : live_from r n k = j :: js) :
    is_live r j ∧ j < end_index r n ∧ js = live_from r n (j + 1) := by
  induction hm : end_index r n - k generalizing k with
  | zero =>
    rw [live_from_of_ge (Nat.sub_eq_zero_iff_le.mp hm)] at h
    cases h
  | succ m ih =>
    rw [live_from_of_lt (by omega)] at h
    split at h
    · next hlive =>
      cases h
      exact ⟨hlive, by omega, rfl⟩
    · exact ih h (by omega)

theorem mem_live_from {n k j : Nat} :
    j ∈ live_from r n k ↔ (k ≤ j ∧ j < end_index r n) ∧ is_live r j := by
  rw [live_from, List.mem_filter, List.mem_range'_1]
  constructor
  · rintro ⟨⟨hk, hj⟩, hlive⟩
    exact ⟨⟨hk, by omega⟩, hlive⟩
  · rintro ⟨⟨hk, hj⟩, hlive⟩
    exact ⟨⟨hk, by omega⟩, hlive⟩

theorem nodup_live_from (n k : Nat) : (live_from r n k).Nodup :=
  (List.nodup_range' (h := Nat.one_pos)).filter _

end Live

namespace FileSystem

variable {fs : FileSystem} {dir : VirtFile} (L : fs.bpb.Layout)
  (hdata : ∀ c ∈ fs.cluster_vec dir, fs.bpb.InData c)

include L hdata

/-- The walk from the record `k` ends at the next live entry; `name` and `is_long` are what is
known of the long entries before the record. -/
theorem dir_info_loop_eq {fuel k : Nat}
    (hk : k ≤ end_index (fs.dir_record dir) (fs.dir_record_cnt dir))
    (hfuel : fs.dir_record_cnt dir - k < fuel) :
    fs.dir_info_loop dir fuel (DIRENT_SIZE * k) ((name_before (fs.dir_record dir) k).getD [])
        (name_before (fs.dir_record dir) k).isSome =
      .ok ((live_from (fs.dir_record dir) (fs.dir_record_cnt dir) k).head?.map
        (live_info (fs.dir_record dir))) := by
  induction fuel generalizing k with
  | zero => exact absurd hfuel (Nat.not_lt_zero _)
  | succ fuel ih =>
    have hread : fs.read_record dir (DIRENT_SIZE * k) =
        .ok (if k < fs.dir_record_cnt dir then some (fs.dir_record dir k) else none) :=
      read_record_eq L fs.shows_disk hdata k
    have hle := end_index_le (fs.dir_record dir) (fs.dir_record_cnt dir)
    have hnext : DIRENT_SIZE * k + DIRENT_SIZE = DIRENT_SIZE * (k + 1) := rfl
    rw [dir_info_loop, hread, hnext]
    simp only [bind, Except.bind]
    obtain hlt | rfl := hk.lt_or_eq
    · have ih := @ih (k + 1) hlt (by omega)
      rw [if_pos (hlt.trans_le hle), live_from_of_lt hlt]
      simp only [not_empty_of_lt _ hlt, Bool.false_eq_true, if_false]
      rw [name_before] at ih
      cases hdeleted : (fs.dir_record dir k).is_deleted with
      | true => simpa [is_live, hdeleted] using ih
      | false =>
        by_cases hattr : (fs.dir_record dir k).attr = ATTR_LONG_NAME
        · simpa [is_live, hdeleted, hattr] using ih
        · cases hname : name_before (fs.dir_record dir) k <;>
            simp [is_live, hdeleted, hattr, live_info, hname, pure, Except.pure]
    · rw [live_from_of_ge le_rfl]
      by_cases hin : end_index (fs.dir_record dir) (fs.dir_record_cnt dir) < fs.dir_record_cnt dir
      · rw [if_pos hin]
        simp only [empty_end _ hin, if_true]
        rfl
      · rw [if_neg hin]
        rfl

/-- `dir_info` returns the next live entry, and the offset behind it. -/
theorem dir_info_eq (hdir : dir.is_dir) {k : Nat}
    (hk : k ≤ end_index (fs.dir_record dir) (fs.dir_record_cnt dir))
    (hfresh : name_before (fs.dir_record dir) k = none) :
    fs.dir_info dir (DIRENT_SIZE * k) =
      .ok ((live_from (fs.dir_record dir) (fs.dir_record_cnt dir) k).head?.map
        (live_info (fs.dir_record dir))) := by
  have hlimit : fs.dir_record_cnt dir - k < fs.record_limit dir := by
    rw [record_limit, dir_record_cnt, record_cnt, Nat.mul_comm]
    exact Nat.lt_succ_of_le (Nat.sub_le _ _)
  have hloop := dir_info_loop_eq L hdata hk hlimit
  rw [hfresh] at hloop
  rw [dir_info, if_pos hdir]
  exact hloop

end FileSystem

end MyGOS.Fat32
