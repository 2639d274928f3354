import MyGOS.Fat32.Mirror
import MyGOS.Lib.Chunks

/-!
# A directory as its records

The clusters of a directory hold records of 32 bytes. What the loops over a
directory read is a function of these records: where a name is found, and where
the next records are written.
-/

namespace MyGOS.Fat32

open Outcome FlatArray

namespace Disk

/-- A record of the directory that has `clusters`. -/
def record (d : Disk) (cluster_size : Nat) (clusters : List Nat) (k : Nat) : Dirent :=
  Block.slice (d.content cluster_size clusters) (DIRENT_SIZE * k) 32

end Disk

/-- The count of records in the clusters. -/
def record_cnt (cluster_size : Nat) (clusters : List Nat) : Nat :=
  cluster_size * clusters.length / DIRENT_SIZE

/-- The place of a record. -/
def record_pos (cluster_size : Nat) (clusters : List Nat) (k : Nat) : DirEntryPos :=
  ⟨clusters.getD (DIRENT_SIZE * k / cluster_size) 0, DIRENT_SIZE * k % cluster_size⟩

namespace BIOSParameterBlock.Layout

variable {bpb : BIOSParameterBlock} (L : bpb.Layout)

include L

theorem dirent_dvd : DIRENT_SIZE ∣ bpb.cluster_size := by
  rw [L.cluster_size]
  exact (by decide : DIRENT_SIZE ∣ BLOCK_SIZE).mul_left _

theorem record_lt {clusters : List Nat} {k : Nat} :
    k < record_cnt bpb.cluster_size clusters ↔
      DIRENT_SIZE * k + DIRENT_SIZE ≤ bpb.cluster_size * clusters.length := by
  obtain ⟨m, hm⟩ := L.dirent_dvd.mul_right clusters.length
  rw [record_cnt, hm, Nat.mul_div_cancel_left _ (by decide)]
  unfold DIRENT_SIZE
  omega

/-- A record is in one cluster. -/
theorem record_bytes (k : Nat) {i : Nat} (hi : i < 32) :
    (DIRENT_SIZE * k + i) / bpb.cluster_size = DIRENT_SIZE * k / bpb.cluster_size ∧
      (DIRENT_SIZE * k + i) % bpb.cluster_size = DIRENT_SIZE * k % bpb.cluster_size + i := by
  have hpos := L.cluster_size_pos
  obtain ⟨m, hm⟩ := L.dirent_dvd
  have hdvd : DIRENT_SIZE ∣ DIRENT_SIZE * k % bpb.cluster_size :=
    (Nat.dvd_mod_iff L.dirent_dvd).mpr (Nat.dvd_mul_right ..)
  obtain ⟨r, hr⟩ := hdvd
  have hlt := Nat.mod_lt (DIRENT_SIZE * k) hpos
  have hin : DIRENT_SIZE * k % bpb.cluster_size + i < bpb.cluster_size := by
    rw [hr] at hlt ⊢
    rw [hm] at hlt ⊢
    unfold DIRENT_SIZE at hlt ⊢
    omega
  have hsplit := Nat.div_add_mod (DIRENT_SIZE * k) bpb.cluster_size
  rw [← hsplit, Nat.add_assoc]
  simp only [Nat.mul_add_div hpos, Nat.mul_add_mod, Nat.mod_mod, Nat.div_eq_of_lt hlt,
    Nat.div_eq_of_lt hin, Nat.mod_eq_of_lt hin, Nat.add_zero, and_self]

end BIOSParameterBlock.Layout

/-- A record is the directory entry at its place. -/
theorem Disk.entry_record_pos (d : Disk) {bpb : BIOSParameterBlock} (L : bpb.Layout)
    (clusters : List Nat) (k : Nat) :
    d.entry (record_pos bpb.cluster_size clusters k) = d.record bpb.cluster_size clusters k := by
  funext i
  obtain ⟨hdiv, hmod⟩ := L.record_bytes k i.isLt
  show d.data _ (_ + i.val) = d.data _ _
  rw [hdiv, hmod]
  rfl

/-- A whole record replaces the buffer. -/
theorem Dirent.fill_slice (e : Dirent) (v : Nat → UInt8) (start : Nat) :
    e.fill (slice v start DIRENT_SIZE) = Block.slice v start 32 := by
  funext i
  have hi : i.val < (slice v start DIRENT_SIZE).length := by
    rw [length_slice]
    exact i.isLt
  rw [fill, List.getD_eq_getElem _ _ hi]
  simp [slice, Block.slice]

section Search

variable (r : Nat → Dirent)

/-- The pieces of a long name after the first one of a run, against the records after `k`. -/
def pieces_match : (k : Nat) → List (List Nat) → Bool
  | _, [] => true
  | k, piece :: pieces => (r (k + 1)).name_utf16 = piece ∧ (r (k + 1)).attr = ATTR_LONG_NAME ∧
      pieces_match (k + 1) pieces

/-- The records from `k` on are the long entries of a name and a short entry. -/
def lfn_match (name : Name) (k : Nat) : Bool :=
  let name_vec := long_name_split name
  let name_cnt := name_vec.length
  ((r k).attr = ATTR_LONG_NAME ∧ (r k).name_utf16 = name_vec.getLastD []) ∧
    ¬ ((r k).order &&& LAST_LONG_ENTRY = 0 ∨ (r k).order = DIR_ENTRY_UNUSED) ∧
    ((r k).order ^^^ LAST_LONG_ENTRY).toNat = name_cnt ∧
    pieces_match r k name_vec.dropLast.reverse ∧
    ¬ (r (k + name_cnt)).is_deleted ∧
    (r (k + (name_cnt - 1))).check_sum = (r (k + name_cnt)).gen_check_sum

/-- The record `k` has a name, in upper case. -/
def sfn_match (name : Name) (k : Nat) : Bool :=
  ¬ (r k).is_deleted ∧ name = (r k).get_name_uppercase

/-- A search for a name stops at the record `k`. -/
def name_match (name : Name) (k : Nat) : Bool :=
  if FileSystem.is_long name then lfn_match r name k else sfn_match r name.to_ascii_uppercase k

/-- The long entries that a search returns with the short one. -/
def lde_cnt (name : Name) : Nat :=
  if FileSystem.is_long name then (long_name_split name).length else 0

/-- Where a search among `n` records stops. -/
def lookup (n : Nat) (name : Name) : Option Nat :=
  (List.range (n - lde_cnt name)).find? (name_match r name)

/-- The first record that was never used. -/
def end_index (n : Nat) : Nat := ((List.range n).find? fun k => (r k).is_empty).getD n

end Search

theorem Name.encode_utf16_ne_nil {name : Name} (h : name ≠ []) : name.encode_utf16 ≠ [] := by
  cases name with
  | nil => exact absurd rfl h
  | cons c cs =>
    intro hnil
    rw [encode_utf16, List.flatMap_cons] at hnil
    have hc := (List.append_eq_nil_iff.mp hnil).1
    unfold encode_utf16_char at hc
    split at hc <;> cases hc

theorem long_name_split_ne_nil {name : Name} (h : name ≠ []) : long_name_split name ≠ [] := by
  have hunits := Name.encode_utf16_ne_nil h
  intro hnil
  have hflat := congrArg List.flatten hnil
  rw [long_name_split, List.toChunks_flatten (by decide)] at hflat
  split at hflat
  · exact absurd hflat (by simp)
  · exact hunits hflat

theorem long_name_split_of_is_long {name : Name} (h : FileSystem.is_long name) :
    long_name_split name ≠ [] := by
  apply long_name_split_ne_nil
  rintro rfl
  exact absurd h (by decide)

namespace FileSystem

variable {fs : FileSystem} {d : Disk} {dir f : VirtFile} {clusters : List Nat}

/-- The records of a directory, as far as a handle has its clusters. -/
def dir_record (fs : FileSystem) (dir : VirtFile) : Nat → Dirent :=
  fs.disk.record fs.bpb.cluster_size (fs.cluster_vec dir)

def dir_record_cnt (fs : FileSystem) (dir : VirtFile) : Nat :=
  record_cnt fs.bpb.cluster_size (fs.cluster_vec dir)

theorem read_record_eq (L : fs.bpb.Layout) (hs : fs.Shows d)
    (hdata : ∀ c ∈ fs.cluster_vec dir, fs.bpb.InData c) (k : Nat) :
    fs.read_record dir (DIRENT_SIZE * k) =
      .ok (if k < record_cnt fs.bpb.cluster_size (fs.cluster_vec dir) then
        some (d.record fs.bpb.cluster_size (fs.cluster_vec dir) k) else none) := by
  rw [read_record, read_at_eq L hs hdata (DIRENT_SIZE * k) DIRENT_SIZE]
  simp only [bind, Except.bind, pure, Except.pure, Except.ok.injEq, length_slice, L.record_lt]
  by_cases hin :
      DIRENT_SIZE * k + DIRENT_SIZE ≤ fs.bpb.cluster_size * (fs.cluster_vec dir).length
  · have hlen : min (DIRENT_SIZE * k + DIRENT_SIZE)
        (fs.bpb.cluster_size * (fs.cluster_vec dir).length) - DIRENT_SIZE * k = DIRENT_SIZE := by
      omega
    rw [hlen, if_pos rfl, if_pos hin, Dirent.fill_slice]
    rfl
  · have hne : min (DIRENT_SIZE * k + DIRENT_SIZE)
        (fs.bpb.cluster_size * (fs.cluster_vec dir).length) - DIRENT_SIZE * k ≠ DIRENT_SIZE := by
      unfold DIRENT_SIZE at hin ⊢
      omega
    rw [if_neg hne, if_neg hin]

section Read

variable (h : Owned fs d dir clusters)

include h

theorem Owned.read_record (k : Nat) : fs.read_record dir (DIRENT_SIZE * k) =
    .ok (if k < record_cnt fs.bpb.cluster_size clusters then
      some (d.record fs.bpb.cluster_size clusters k) else none) := by
  have hvec := h.chained.vec
  rw [read_record_eq h.sees.layout h.sees.shows_disk (hvec.symm ▸ h.chained.data), hvec]

/-- The search for a short name returns the first record that matches. -/
theorem Owned.find_by_sfn_loop {name : Name} {fuel k : Nat}
    (hfuel : record_cnt fs.bpb.cluster_size clusters - k < fuel) :
    fs.find_by_sfn_loop dir name fuel (DIRENT_SIZE * k) =
      match (List.range' k (record_cnt fs.bpb.cluster_size clusters - k)).find?
        (sfn_match (d.record fs.bpb.cluster_size clusters) name) with
      | none => .ok (none, fs)
      | some j => do
        let (f, fs) ← fs.found dir name (DIRENT_SIZE * j) 0
          (d.record fs.bpb.cluster_size clusters j)
        return (some f, fs) := by
  induction fuel generalizing k with
  | zero => exact absurd hfuel (Nat.not_lt_zero _)
  | succ fuel ih =>
    rw [FileSystem.find_by_sfn_loop, h.read_record]
    by_cases hk : k < record_cnt fs.bpb.cluster_size clusters
    · obtain ⟨n, hn⟩ := Nat.exists_eq_add_of_lt hk
      have hcnt : record_cnt fs.bpb.cluster_size clusters - k = n + 1 := by omega
      have hnext : DIRENT_SIZE * k + DIRENT_SIZE = DIRENT_SIZE * (k + 1) := rfl
      rw [if_pos hk, hcnt, List.range'_succ, List.find?_cons]
      simp only [bind, Except.bind]
      by_cases hmatch : ¬ (d.record fs.bpb.cluster_size clusters k).is_deleted ∧
          name = (d.record fs.bpb.cluster_size clusters k).get_name_uppercase
      · rw [if_pos hmatch, sfn_match, decide_eq_true hmatch]
      · have hcnt' : record_cnt fs.bpb.cluster_size clusters - (k + 1) = n := by omega
        rw [if_neg hmatch, sfn_match, decide_eq_false hmatch, hnext, ih (by omega), hcnt']
        rfl
    · have hcnt : record_cnt fs.bpb.cluster_size clusters - k = 0 := by omega
      rw [if_neg hk, hcnt]
      rfl

/-- The run of long entries after the record `k`, when it is in the clusters. -/
theorem Owned.match_ldes {pieces : List (List Nat)} {k : Nat}
    (hk : k + pieces.length < record_cnt fs.bpb.cluster_size clusters) :
    ∃ lde, fs.match_ldes dir (DIRENT_SIZE * k) (d.record fs.bpb.cluster_size clusters k) pieces =
        .ok (some (lde, pieces_match (d.record fs.bpb.cluster_size clusters) k pieces)) ∧
      (pieces_match (d.record fs.bpb.cluster_size clusters) k pieces →
        lde = d.record fs.bpb.cluster_size clusters (k + pieces.length)) := by
  induction pieces generalizing k with
  | nil => exact ⟨_, rfl, fun _ => rfl⟩
  | cons piece pieces ih =>
    rw [List.length_cons] at hk
    have hnext : DIRENT_SIZE * k + DIRENT_SIZE = DIRENT_SIZE * (k + 1) := rfl
    rw [FileSystem.match_ldes, hnext, h.read_record, if_pos (by omega), pieces_match]
    simp only [bind, Except.bind]
    by_cases hne : (d.record fs.bpb.cluster_size clusters (k + 1)).name_utf16 ≠ piece ∨
        (d.record fs.bpb.cluster_size clusters (k + 1)).attr ≠ ATTR_LONG_NAME
    · rw [if_pos hne]
      refine ⟨d.record fs.bpb.cluster_size clusters (k + 1), ?_, ?_⟩
      · rw [decide_eq_false]
        · rfl
        · rintro ⟨hname, hattr, -⟩
          exact hne.elim (· hname) (· hattr)
      · intro hmatch
        obtain ⟨hname, hattr, -⟩ := of_decide_eq_true hmatch
        exact absurd hne (not_or.mpr ⟨not_not.mpr hname, not_not.mpr hattr⟩)
    · obtain ⟨lde, hrun, hlde⟩ := @ih (k + 1) (by omega)
      rw [if_neg hne, hrun]
      rw [not_or, not_not, not_not] at hne
      refine ⟨lde, ?_, ?_⟩
      · simp [hne]
      · intro hmatch
        rw [hlde (of_decide_eq_true hmatch).2.2, List.length_cons]
        congr 1
        omega

/-- A run that would reach behind the clusters does not match. -/
theorem Owned.match_ldes_end {pieces : List (List Nat)} {k : Nat}
    (hk : k < record_cnt fs.bpb.cluster_size clusters)
    (hend : record_cnt fs.bpb.cluster_size clusters ≤ k + pieces.length) (lde : Dirent) :
    fs.match_ldes dir (DIRENT_SIZE * k) lde pieces = .ok none ∨
      ∃ lde', fs.match_ldes dir (DIRENT_SIZE * k) lde pieces = .ok (some (lde', false)) := by
  induction pieces generalizing k lde with
  | nil =>
    rw [List.length_nil] at hend
    omega
  | cons piece pieces ih =>
    rw [List.length_cons] at hend
    have hnext : DIRENT_SIZE * k + DIRENT_SIZE = DIRENT_SIZE * (k + 1) := rfl
    rw [FileSystem.match_ldes, hnext, h.read_record]
    by_cases hk' : k + 1 < record_cnt fs.bpb.cluster_size clusters
    · rw [if_pos hk']
      simp only [bind, Except.bind]
      split
      · exact Or.inr ⟨_, rfl⟩
      · exact ih hk' (by omega) _
    · rw [if_neg hk']
      exact Or.inl rfl

/-- The search for a long name returns the first run that matches. -/
theorem Owned.find_by_lfn_loop {name : Name} (hname : long_name_split name ≠ []) {fuel k : Nat}
    (hfuel : record_cnt fs.bpb.cluster_size clusters - k < fuel) :
    fs.find_by_lfn_loop dir name fuel (DIRENT_SIZE * k) =
      match (List.range' k (record_cnt fs.bpb.cluster_size clusters -
          (long_name_split name).length - k)).find?
        (lfn_match (d.record fs.bpb.cluster_size clusters) name) with
      | none => .ok (none, fs)
      | some j => do
        let (f, fs) ← fs.found dir name (DIRENT_SIZE * j) (long_name_split name).length
          (d.record fs.bpb.cluster_size clusters (j + (long_name_split name).length))
        return (some f, fs) := by
  have hpos : 0 < (long_name_split name).length := List.length_pos_iff.mpr hname
  have hlen : (long_name_split name).dropLast.reverse.length =
      (long_name_split name).length - 1 := by
    rw [List.length_reverse, List.length_dropLast]
  induction fuel generalizing k with
  | zero => exact absurd hfuel (Nat.not_lt_zero _)
  | succ fuel ih =>
    have hnext : DIRENT_SIZE * k + DIRENT_SIZE = DIRENT_SIZE * (k + 1) := rfl
    rw [FileSystem.find_by_lfn_loop, h.read_record]
    by_cases hk : k < record_cnt fs.bpb.cluster_size clusters
    swap
    · have hcnt : record_cnt fs.bpb.cluster_size clusters - (long_name_split name).length - k = 0 := by
        omega
      rw [if_neg hk, hcnt]
      rfl
    rw [if_pos hk]
    simp only [bind, Except.bind]
    have hsde : DIRENT_SIZE * k + (long_name_split name).length * DIRENT_SIZE =
        DIRENT_SIZE * (k + (long_name_split name).length) := by
      unfold DIRENT_SIZE
      omega
    have ih' := ih (k := k + 1) (by omega)
    rw [← hnext] at ih'
    by_cases hin : k + (long_name_split name).length < record_cnt fs.bpb.cluster_size clusters
    · -- the whole run is in the clusters
      obtain ⟨n, hn⟩ := Nat.exists_eq_add_of_lt hin
      have hcnt : record_cnt fs.bpb.cluster_size clusters - (long_name_split name).length - k =
          n + 1 := by omega
      have hcnt' : record_cnt fs.bpb.cluster_size clusters - (long_name_split name).length -
          (k + 1) = n := by omega
      rw [hcnt'] at ih'
      obtain ⟨lde, hrun, hlde⟩ := @Owned.match_ldes _ _ _ _ h
        (long_name_split name).dropLast.reverse k (by rw [hlen]; omega)
      rw [hlen] at hlde
      rw [hcnt, List.range'_succ, List.find?_cons, hrun, hsde, h.read_record, if_pos hin]
      by_cases hmatch : lfn_match (d.record fs.bpb.cluster_size clusters) name k = true
      · rw [hmatch]
        rw [lfn_match] at hmatch
        obtain ⟨hhead, horder, hcount, hpieces, hdeleted, hsum⟩ := of_decide_eq_true hmatch
        rw [if_pos hhead, if_neg horder, if_neg (not_not.mpr hcount), hpieces]
        simp only
        rw [hlde hpieces, if_pos ⟨hdeleted, hsum⟩]
      · rw [Bool.not_eq_true] at hmatch
        rw [hmatch]
        rw [lfn_match] at hmatch
        have hnot := of_decide_eq_false hmatch
        simp only
        split
        · next hhead =>
          split
          · exact ih'
          · next horder =>
            split
            · exact ih'
            · next hcount =>
              cases hpieces : pieces_match (d.record fs.bpb.cluster_size clusters) k
                (long_name_split name).dropLast.reverse with
              | false => exact ih'
              | true =>
                rw [hlde hpieces]
                simp only
                split
                · next hsde =>
                  exact absurd ⟨hhead, horder, not_not.mp hcount, hpieces, hsde⟩ hnot
                · exact ih'
        · exact ih'
    · have hcnt : record_cnt fs.bpb.cluster_size clusters - (long_name_split name).length - k = 0 := by
        omega
      have hcnt' : record_cnt fs.bpb.cluster_size clusters - (long_name_split name).length -
          (k + 1) = 0 := by omega
      rw [hcnt'] at ih'
      rw [hcnt, hsde, h.read_record, if_neg hin]
      split
      · split
        · exact ih'
        · split
          · exact ih'
          · by_cases hend : record_cnt fs.bpb.cluster_size clusters ≤
                k + (long_name_split name).dropLast.reverse.length
            · obtain hnone | ⟨lde, hfalse⟩ := h.match_ldes_end hk hend
                (d.record fs.bpb.cluster_size clusters k)
              · rw [hnone]
                rfl
              · rw [hfalse]
                exact ih'
            · obtain ⟨lde, hrun, -⟩ := @Owned.match_ldes _ _ _ _ h
                (long_name_split name).dropLast.reverse k (not_le.mp hend)
              rw [hrun]
              cases pieces_match (d.record fs.bpb.cluster_size clusters) k
                (long_name_split name).dropLast.reverse with
              | false => exact ih'
              | true => rfl
      · exact ih'

theorem Owned.record_limit :
    fs.record_limit dir = record_cnt fs.bpb.cluster_size clusters + 1 := by
  rw [FileSystem.record_limit, h.chained.vec, record_cnt, Nat.mul_comm]

theorem Owned.find_by_name (hdir : dir.is_dir) (name : Name) :
    fs.find_by_name dir name =
      match lookup (d.record fs.bpb.cluster_size clusters)
        (record_cnt fs.bpb.cluster_size clusters) name with
      | none => .ok (none, fs)
      | some j => do
        let (f, fs) ← fs.found dir (if is_long name then name else name.to_ascii_uppercase)
          (DIRENT_SIZE * j) (lde_cnt name)
          (d.record fs.bpb.cluster_size clusters (j + lde_cnt name))
        return (some f, fs) := by
  rw [FileSystem.find_by_name, if_pos hdir, lookup, lde_cnt, List.range_eq_range']
  by_cases hlong : is_long name
  · have hsplit := long_name_split_of_is_long hlong
    have hmatch : name_match (d.record fs.bpb.cluster_size clusters) name =
        lfn_match (d.record fs.bpb.cluster_size clusters) name := by
      funext k
      exact if_pos hlong
    have hloop := @Owned.find_by_lfn_loop _ _ _ _ h _ hsplit (fs.record_limit dir) 0
      (by rw [h.record_limit]; omega)
    simp only [if_pos hlong, hmatch]
    rw [find_by_lfn, if_neg hsplit]
    exact hloop
  · have hmatch : name_match (d.record fs.bpb.cluster_size clusters) name =
        sfn_match (d.record fs.bpb.cluster_size clusters) name.to_ascii_uppercase := by
      funext k
      exact if_neg hlong
    have hloop := @Owned.find_by_sfn_loop _ _ _ _ h name.to_ascii_uppercase
      (fs.record_limit dir) 0 (by rw [h.record_limit]; omega)
    simp only [if_neg hlong, hmatch]
    exact hloop

/-- The next records are written after the last one in use. -/
theorem Owned.empty_entry_loop {fuel k : Nat} {sde : Dirent}
    (hk : k ≤ record_cnt fs.bpb.cluster_size clusters)
    (hfuel : record_cnt fs.bpb.cluster_size clusters - k < fuel) :
    fs.empty_entry_loop dir fuel (DIRENT_SIZE * k) sde =
      .ok (DIRENT_SIZE * ((List.range' k (record_cnt fs.bpb.cluster_size clusters - k)).find?
        fun j => (d.record fs.bpb.cluster_size clusters j).is_empty).getD
          (record_cnt fs.bpb.cluster_size clusters)) := by
  have hL := h.sees.layout
  induction fuel generalizing k sde with
  | zero => exact absurd hfuel (Nat.not_lt_zero _)
  | succ fuel ih =>
    have hread := read_at_eq hL h.sees.shows_disk (f := dir)
      (h.chained.vec.symm ▸ h.chained.data) (DIRENT_SIZE * k) DIRENT_SIZE
    rw [h.chained.vec] at hread
    rw [FileSystem.empty_entry_loop, hread]
    simp only [bind, Except.bind, length_slice]
    by_cases hlt : k < record_cnt fs.bpb.cluster_size clusters
    · obtain ⟨n, hn⟩ := Nat.exists_eq_add_of_lt hlt
      have hcnt : record_cnt fs.bpb.cluster_size clusters - k = n + 1 := by omega
      have hcnt' : record_cnt fs.bpb.cluster_size clusters - (k + 1) = n := by omega
      have hin := hL.record_lt.mp hlt
      have hlen : min (DIRENT_SIZE * k + DIRENT_SIZE) (fs.bpb.cluster_size * clusters.length) -
          DIRENT_SIZE * k = DIRENT_SIZE := by omega
      have hnext : DIRENT_SIZE * k + DIRENT_SIZE = DIRENT_SIZE * (k + 1) := rfl
      have hrecord : Block.slice (d.content fs.bpb.cluster_size clusters) (DIRENT_SIZE * k) 32 =
          d.record fs.bpb.cluster_size clusters k := rfl
      rw [hlen, Dirent.fill_slice, hrecord, hcnt, List.range'_succ, List.find?_cons]
      cases hempty : (d.record fs.bpb.cluster_size clusters k).is_empty with
      | true =>
        rw [if_pos (Or.inr rfl)]
        rfl
      | false =>
        rw [if_neg (by decide), hnext, ih (by omega) (by omega), hcnt']
    · have hk : k = record_cnt fs.bpb.cluster_size clusters := by omega
      obtain ⟨m, hm⟩ := hL.dirent_dvd.mul_right clusters.length
      have hend : DIRENT_SIZE * k = fs.bpb.cluster_size * clusters.length := by
        rw [hk, record_cnt, hm, Nat.mul_div_cancel_left _ (by decide)]
      have hlen : min (DIRENT_SIZE * k + DIRENT_SIZE) (fs.bpb.cluster_size * clusters.length) -
          DIRENT_SIZE * k = 0 := by omega
      rw [hlen, if_pos (Or.inl rfl), ← hk, Nat.sub_self]
      rfl

theorem Owned.empty_entry_index : fs.empty_entry_index dir =
    .ok (DIRENT_SIZE * end_index (d.record fs.bpb.cluster_size clusters)
      (record_cnt fs.bpb.cluster_size clusters)) := by
  rw [FileSystem.empty_entry_index, h.record_limit, end_index, List.range_eq_range']
  exact h.empty_entry_loop (Nat.zero_le _) (by omega)

end Read

end FileSystem

end MyGOS.Fat32
