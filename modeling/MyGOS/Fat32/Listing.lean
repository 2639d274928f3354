import MyGOS.Fat32.DirInfo
import MyGOS.Fat32.Search

/-!
# Listing a directory

`dir_info` from offset 0 on gives one live entry after the other.
`ls_with_attr` makes one pass over the records: where a long entry is first, its
order says how many records belong to the name.
-/

namespace MyGOS.Fat32

namespace FileSystem

variable (fs : FileSystem) (dir : VirtFile)

/-- What a caller gets that calls `dir_info` until there is no entry, each time with the last
offset. -/
def dir_infos_loop : (fuel offset : Nat) → Except FsPanic (List DirInfo)
  | 0, _ => .error .endless
  | fuel + 1, offset => do
    match ← fs.dir_info dir offset with
    | none => return []
    | some info => return info :: (← dir_infos_loop fuel info.offset)

def dir_infos : Except FsPanic (List DirInfo) := fs.dir_infos_loop dir (fs.record_limit dir) 0

/-- The rest of a long name, whose records are counted by `order`: the last record, its offset and
the name, or `none` when the records end. -/
def ls_long_name : (order offset : Nat) → (entry : Dirent) → (name : Name) →
    Except FsPanic (Option (Nat × Dirent × Name))
  | 0, offset, entry, name => .ok (some (offset, entry, name))
  | order + 1, offset, entry, name => do
    match ← fs.read_record dir (offset + DIRENT_SIZE) with
    | none => return none
    | some next =>
      if next.is_empty then return none
      else ls_long_name order (offset + DIRENT_SIZE) next (entry.long_name ++ name)

def ls_loop : (fuel offset : Nat) → (list : List (Name × UInt8)) →
    Except FsPanic (Except DirError (List (Name × UInt8)))
  | 0, _, _ => .error .endless
  | fuel + 1, offset, list => do
    match ← fs.read_record dir offset with
    | none => return .ok list
    | some entry =>
      if entry.is_empty then return .ok list
      else if entry.is_deleted then ls_loop fuel (offset + DIRENT_SIZE) list
      else if entry.attr ≠ ATTR_LONG_NAME then
        ls_loop fuel (offset + DIRENT_SIZE) (list ++ [(entry.get_name_lowercase, entry.attr)])
      else
        match ← fs.ls_long_name dir (entry.order ^^^ LAST_LONG_ENTRY).toNat offset entry [] with
        | none => return .error .ListLFNIllegal
        | some (offset, entry, name) =>
          ls_loop fuel (offset + DIRENT_SIZE) (list ++ [(name, entry.attr)])

def ls_with_attr : Except FsPanic (Except DirError (List (Name × UInt8))) :=
  if dir.is_dir then fs.ls_loop dir (fs.record_limit dir) 0 [] else .ok (.error .NotDir)

end FileSystem

section Records

variable (r : Nat → Dirent)

/-- The name in `m` records from `k` on, the last one first. -/
def run_name : (m k : Nat) → Name
  | 0, _ => []
  | m + 1, k => run_name m (k + 1) ++ (r k).long_name

/-- The `m` records after `k` are in use. -/
def UsedAfter (n k m : Nat) : Prop := ∀ i, k < i → i ≤ k + m → i < n ∧ ¬ (r i).is_empty

/-- What `ls_with_attr` lists from the record `k` on, when it comes to the end. -/
inductive LsFrom (n : Nat) : Nat → List (Name × UInt8) → Prop where
  | done {k : Nat} (hend : k < n → (r k).is_empty) : LsFrom n k []
  | deleted {k : Nat} {list : List (Name × UInt8)} (hk : k < n) (hdeleted : (r k).is_deleted)
      (hrest : LsFrom n (k + 1) list) : LsFrom n k list
  | short {k : Nat} {list : List (Name × UInt8)} (hk : k < n) (hin_use : ¬ (r k).is_empty)
      (hlive : is_live r k) (hrest : LsFrom n (k + 1) list) :
      LsFrom n k (((r k).get_name_lowercase, (r k).attr) :: list)
  | long {k m : Nat} {list : List (Name × UInt8)} (hk : k < n) (hin_use : ¬ (r k).is_empty)
      (hdeleted : ¬ (r k).is_deleted) (hattr : (r k).attr = ATTR_LONG_NAME)
      (horder : ((r k).order ^^^ LAST_LONG_ENTRY).toNat = m)
      (hrun : UsedAfter r n k m) (hrest : LsFrom n (k + m + 1) list) :
      LsFrom n k ((run_name r m k, (r (k + m)).attr) :: list)

theorem UsedAfter.zero (n k : Nat) : UsedAfter r n k 0 := fun _ hi hi' => absurd hi' (not_le.mpr hi)

variable {r}

theorem UsedAfter.succ_iff {n k m : Nat} : UsedAfter r n k (m + 1) ↔
    (k + 1 < n ∧ ¬ (r (k + 1)).is_empty) ∧ UsedAfter r n (k + 1) m := by
  constructor
  · intro h
    exact ⟨h (k + 1) (Nat.lt_succ_self k) (by omega), fun i hi hi' => h i (by omega) (by omega)⟩
  · rintro ⟨hnext, h⟩ i hi hi'
    obtain rfl | hlt := (Nat.succ_le_of_lt hi).eq_or_lt
    · exact hnext
    · exact h i hlt (by omega)

theorem Dirent.not_empty_of_deleted {e : Dirent} (h : e.is_deleted) : ¬ e.is_empty := by
  rw [Dirent.is_deleted, decide_eq_true_eq] at h
  rw [Dirent.is_empty, decide_eq_true_eq, h]
  decide

/-- The name of a run of long entries, as `dir_info` puts it together. -/
theorem name_before_run {m k : Nat}
    (h : ∀ i < m, ¬ ((r (k + i)).is_deleted ∨ (r (k + i)).attr ≠ ATTR_LONG_NAME)) :
    (name_before r (k + m)).getD [] = run_name r m k ++ (name_before r k).getD [] := by
  induction m generalizing k with
  | zero => rfl
  | succ m ih =>
    have hfirst := h 0 (Nat.succ_pos m)
    have hrest : ∀ i < m, ¬ ((r (k + 1 + i)).is_deleted ∨ (r (k + 1 + i)).attr ≠ ATTR_LONG_NAME) := by
      intro i hi
      have hnext := h (i + 1) (by omega)
      rwa [show k + (i + 1) = k + 1 + i by omega] at hnext
    rw [Nat.add_zero] at hfirst
    rw [show k + (m + 1) = k + 1 + m by omega, ih hrest, run_name, name_before, if_neg hfirst,
      Option.getD_some, List.append_assoc]

theorem run_name_congr {r' : Nat → Dirent} {m k : Nat} (h : ∀ i < m, r' (k + i) = r (k + i)) :
    run_name r' m k = run_name r m k := by
  induction m generalizing k with
  | zero => rfl
  | succ m ih =>
    have hfirst := h 0 (Nat.succ_pos m)
    rw [Nat.add_zero] at hfirst
    rw [run_name, run_name, hfirst, ih]
    intro i hi
    rw [show k + 1 + i = k + (i + 1) by omega]
    exact h (i + 1) (by omega)

theorem name_before_congr {r' : Nat → Dirent} {k : Nat} (h : ∀ i < k, r' i = r i) :
    name_before r' k = name_before r k := by
  induction k with
  | zero => rfl
  | succ k ih =>
    rw [name_before, name_before, h k (Nat.lt_succ_self k), ih fun i hi => h i (by omega)]

theorem live_info_congr {r' : Nat → Dirent} {k : Nat} (h : ∀ i ≤ k, r' i = r i) :
    live_info r' k = live_info r k := by
  rw [live_info, live_info, name_before_congr fun i hi => h i hi.le, h k le_rfl]

/-- What comes after the records in use is listed after them. -/
theorem LsFrom.append {r' : Nat → Dirent} {cnt cnt' n k : Nat} {list more : List (Name × UInt8)}
    (h : LsFrom r cnt k list) (hl : Listed r cnt n) (hk : k ≤ n) (hcnt : n ≤ cnt')
    (hold : ∀ i < n, r' i = r i) (hmore : LsFrom r' cnt' n more) :
    LsFrom r' cnt' k (list ++ more) := by
  have hlt : ∀ i < cnt, ¬ (r i).is_empty → i < n := by
    intro i hi hin_use
    by_contra hge
    rw [hl.blank i (not_lt.mp hge) hi] at hin_use
    exact hin_use rfl
  have hle := hl.le
  induction h with
  | @done k hend =>
    obtain hkn | rfl := hk.lt_or_eq
    · exact absurd (hend (hkn.trans_le hle)) (hl.in_use k hkn)
    · exact hmore
  | @deleted k list hkn hdeleted _ ih =>
    have hkn := hlt k hkn (Dirent.not_empty_of_deleted hdeleted)
    rw [← hold k hkn] at hdeleted
    exact .deleted (hkn.trans_le hcnt) hdeleted (ih hkn)
  | @short k list hkn hin_use hlive _ ih =>
    have hkn := hlt k hkn hin_use
    have hr := hold k hkn
    rw [is_live, ← hr] at hlive
    rw [← hr] at hin_use ⊢
    exact .short (hkn.trans_le hcnt) hin_use hlive (ih hkn)
  | @long k m list hkn hin_use hdeleted hattr horder hrun _ ih =>
    have hkn := hlt k hkn hin_use
    have hlast : k + m < n := by
      obtain rfl | hm := Nat.eq_zero_or_pos m
      · exact hkn
      · have hend := hrun (k + m) (by omega) le_rfl
        exact hlt _ hend.1 hend.2
    have hname : run_name r' m k = run_name r m k :=
      run_name_congr fun i hi => hold (k + i) (by omega)
    have hr := hold k hkn
    rw [← hr] at hin_use hdeleted hattr horder
    rw [← hold (k + m) hlast, ← hname]
    refine .long (hkn.trans_le hcnt) hin_use hdeleted hattr horder ?_ (ih (by omega))
    intro i hi hi'
    rw [hold i (by omega)]
    exact ⟨by omega, hl.in_use i (by omega)⟩

end Records

namespace FileSystem

variable {fs : FileSystem} {dir : VirtFile} (L : fs.bpb.Layout)
  (hdata : ∀ c ∈ fs.cluster_vec dir, fs.bpb.InData c)

include L hdata

theorem dir_infos_loop_eq (hdir : dir.is_dir) {fuel k : Nat}
    (hk : k ≤ end_index (fs.dir_record dir) (fs.dir_record_cnt dir))
    (hfresh : name_before (fs.dir_record dir) k = none) (hfuel : fs.dir_record_cnt dir - k < fuel) :
    fs.dir_infos_loop dir fuel (DIRENT_SIZE * k) =
      .ok ((live_from (fs.dir_record dir) (fs.dir_record_cnt dir) k).map
        (live_info (fs.dir_record dir))) := by
  induction fuel generalizing k with
  | zero => exact absurd hfuel (Nat.not_lt_zero _)
  | succ fuel ih =>
    rw [dir_infos_loop, dir_info_eq L hdata hdir hk hfresh]
    cases hlive : live_from (fs.dir_record dir) (fs.dir_record_cnt dir) k with
    | nil => rfl
    | cons j js =>
      obtain ⟨hj, hjend, hjs⟩ := live_from_cons hlive
      have hmem : j ∈ live_from (fs.dir_record dir) (fs.dir_record_cnt dir) k := by
        rw [hlive]
        exact List.mem_cons_self
      have hkj := (mem_live_from.mp hmem).1.1
      have hle := end_index_le (fs.dir_record dir) (fs.dir_record_cnt dir)
      have hrest := @ih (j + 1) hjend (name_before_of_live _ hj) (by omega)
      rw [← hjs] at hrest
      simp only [List.head?_cons, Option.map_some, bind, Except.bind]
      rw [show (live_info (fs.dir_record dir) j).offset = DIRENT_SIZE * (j + 1) from rfl, hrest]
      rfl

/-- The entries that `dir_info` enumerates are the live ones, each once. -/
theorem dir_infos_eq (hdir : dir.is_dir) :
    fs.dir_infos dir = .ok ((live_from (fs.dir_record dir) (fs.dir_record_cnt dir) 0).map
      (live_info (fs.dir_record dir))) := by
  have hlimit : fs.record_limit dir = fs.dir_record_cnt dir + 1 := by
    rw [record_limit, dir_record_cnt, record_cnt, Nat.mul_comm]
  rw [dir_infos, hlimit]
  exact dir_infos_loop_eq L hdata hdir (Nat.zero_le _) rfl (by omega)

theorem read_record_of_lt {k : Nat} (hk : k < fs.dir_record_cnt dir) :
    fs.read_record dir (DIRENT_SIZE * k) = .ok (some (fs.dir_record dir k)) := by
  rw [read_record_eq L fs.shows_disk hdata k]
  exact congrArg _ (if_pos hk)

theorem read_record_of_ge {k : Nat} (hk : fs.dir_record_cnt dir ≤ k) :
    fs.read_record dir (DIRENT_SIZE * k) = .ok none := by
  rw [read_record_eq L fs.shows_disk hdata k]
  exact congrArg _ (if_neg (not_lt.mpr hk))

theorem ls_long_name_eq {order k : Nat} {name : Name} :
    (UsedAfter (fs.dir_record dir) (fs.dir_record_cnt dir) k order ∧
      fs.ls_long_name dir order (DIRENT_SIZE * k) (fs.dir_record dir k) name =
        .ok (some (DIRENT_SIZE * (k + order), fs.dir_record dir (k + order),
          run_name (fs.dir_record dir) order k ++ name))) ∨
    (¬ UsedAfter (fs.dir_record dir) (fs.dir_record_cnt dir) k order ∧
      fs.ls_long_name dir order (DIRENT_SIZE * k) (fs.dir_record dir k) name = .ok none) := by
  induction order generalizing k name with
  | zero => exact .inl ⟨.zero _ _ k, rfl⟩
  | succ order ih =>
    have hnext : DIRENT_SIZE * k + DIRENT_SIZE = DIRENT_SIZE * (k + 1) := rfl
    rw [ls_long_name, hnext, UsedAfter.succ_iff]
    by_cases hk : k + 1 < fs.dir_record_cnt dir
    · rw [read_record_of_lt L hdata hk]
      simp only [bind, Except.bind]
      by_cases hempty : (fs.dir_record dir (k + 1)).is_empty
      · rw [if_pos hempty]
        exact .inr ⟨fun h => h.1.2 hempty, rfl⟩
      · rw [if_neg hempty]
        obtain ⟨hrun, hok⟩ | ⟨hrun, hok⟩ := @ih (k + 1) ((fs.dir_record dir k).long_name ++ name)
        · refine .inl ⟨⟨⟨hk, hempty⟩, hrun⟩, hok.trans ?_⟩
          rw [run_name, List.append_assoc, Nat.add_assoc, Nat.add_comm 1]
        · exact .inr ⟨fun h => hrun h.2, hok⟩
    · rw [read_record_of_ge L hdata (not_lt.mp hk)]
      exact .inr ⟨fun h => hk h.1.1, rfl⟩

/-- What is listed is as `LsFrom` says. -/
theorem ls_loop_from {fuel k : Nat} {list result : List (Name × UInt8)}
    (hok : fs.ls_loop dir fuel (DIRENT_SIZE * k) list = .ok (.ok result)) :
    ∃ rest, LsFrom (fs.dir_record dir) (fs.dir_record_cnt dir) k rest ∧ result = list ++ rest := by
  induction fuel generalizing k list with
  | zero => cases hok
  | succ fuel ih =>
    rw [ls_loop] at hok
    by_cases hk : k < fs.dir_record_cnt dir
    · rw [read_record_of_lt L hdata hk] at hok
      simp only [bind, Except.bind] at hok
      split at hok
      · next hempty =>
        cases hok
        exact ⟨[], .done fun _ => hempty, (List.append_nil _).symm⟩
      next hempty =>
      split at hok
      · next hdeleted =>
        obtain ⟨rest, hrest, rfl⟩ := @ih (k + 1) _ hok
        exact ⟨rest, .deleted hk hdeleted hrest, rfl⟩
      next hdeleted =>
      split at hok
      · next hattr =>
        obtain ⟨rest, hrest, rfl⟩ := @ih (k + 1) _ hok
        refine ⟨_, .short hk hempty (decide_eq_true ⟨hdeleted, hattr⟩) hrest, ?_⟩
        rw [List.append_assoc, List.singleton_append]
      · next hattr =>
        obtain ⟨hrun, hlong⟩ | ⟨-, hlong⟩ := @ls_long_name_eq fs dir L hdata
          ((fs.dir_record dir k).order ^^^ LAST_LONG_ENTRY).toNat k []
        · rw [hlong] at hok
          obtain ⟨rest, hrest, rfl⟩ := @ih (k + _ + 1) _ hok
          refine ⟨_, .long hk hempty hdeleted (not_not.mp hattr) rfl hrun hrest, ?_⟩
          rw [List.append_nil, List.append_assoc, List.singleton_append]
        · rw [hlong] at hok
          cases hok
    · rw [read_record_of_ge L hdata (not_lt.mp hk)] at hok
      cases hok
      exact ⟨[], .done fun hlt => absurd hlt hk, (List.append_nil _).symm⟩

theorem ls_loop_of_from {k : Nat} {rest : List (Name × UInt8)}
    (h : LsFrom (fs.dir_record dir) (fs.dir_record_cnt dir) k rest) {fuel : Nat}
    (hfuel : fs.dir_record_cnt dir - k < fuel) (list : List (Name × UInt8)) :
    fs.ls_loop dir fuel (DIRENT_SIZE * k) list = .ok (.ok (list ++ rest)) := by
  induction h generalizing fuel list with
  | @done k hend =>
    cases fuel with
    | zero => exact absurd hfuel (Nat.not_lt_zero _)
    | succ fuel =>
      rw [ls_loop, List.append_nil]
      by_cases hk : k < fs.dir_record_cnt dir
      · rw [read_record_of_lt L hdata hk]
        simp only [bind, Except.bind, hend hk, if_true]
        rfl
      · rw [read_record_of_ge L hdata (not_lt.mp hk)]
        rfl
  | @deleted k rest hk hdeleted _ ih =>
    cases fuel with
    | zero => exact absurd hfuel (Nat.not_lt_zero _)
    | succ fuel =>
      have hempty : ¬ (fs.dir_record dir k).is_empty := Dirent.not_empty_of_deleted hdeleted
      rw [ls_loop, read_record_of_lt L hdata hk]
      simp only [bind, Except.bind, hempty, hdeleted, if_true]
      exact ih (by omega) list
  | @short k rest hk hin_use hlive _ ih =>
    cases fuel with
    | zero => exact absurd hfuel (Nat.not_lt_zero _)
    | succ fuel =>
      obtain ⟨hdeleted, hattr⟩ := of_decide_eq_true hlive
      have hrest := ih (show _ < fuel by omega)
        (list ++ [((fs.dir_record dir k).get_name_lowercase, (fs.dir_record dir k).attr)])
      rw [List.append_assoc, List.singleton_append] at hrest
      rw [ls_loop, read_record_of_lt L hdata hk]
      simp only [bind, Except.bind]
      rw [if_neg hin_use, if_neg hdeleted, if_pos hattr]
      exact hrest
  | @long k m rest hk hin_use hdeleted hattr horder hrun _ ih =>
    cases fuel with
    | zero => exact absurd hfuel (Nat.not_lt_zero _)
    | succ fuel =>
      have hrest := ih (show _ < fuel by omega)
        (list ++ [(run_name (fs.dir_record dir) m k, (fs.dir_record dir (k + m)).attr)])
      rw [List.append_assoc, List.singleton_append] at hrest
      rw [ls_loop, read_record_of_lt L hdata hk]
      simp only [bind, Except.bind]
      rw [if_neg hin_use, if_neg hdeleted, if_neg (not_not.mpr hattr), horder]
      obtain ⟨-, hlong⟩ | ⟨hnot, -⟩ := @ls_long_name_eq fs dir L hdata m k []
      · rw [hlong, List.append_nil]
        exact hrest
      · exact absurd hrun hnot

/-- `ls_with_attr` lists the records, or it comes to the end of the directory within a name. -/
theorem ls_with_attr_iff (hdir : dir.is_dir) {list : List (Name × UInt8)} :
    fs.ls_with_attr dir = .ok (.ok list) ↔
      LsFrom (fs.dir_record dir) (fs.dir_record_cnt dir) 0 list := by
  have hlimit : fs.record_limit dir = fs.dir_record_cnt dir + 1 := by
    rw [record_limit, dir_record_cnt, record_cnt, Nat.mul_comm]
  rw [ls_with_attr, if_pos hdir, hlimit]
  constructor
  · intro hok
    obtain ⟨rest, hrest, rfl⟩ := @ls_loop_from fs dir L hdata _ 0 _ _ hok
    exact hrest
  · exact fun h => ls_loop_of_from L hdata h (by omega) []

end FileSystem

end MyGOS.Fat32
