import MyGOS.Fat32.Layout
import MyGOS.Fat32.Walkers

/-!
# The operations on the table

Each reads or changes one entry of the FAT, one directory entry or one cluster.
A chain is a linked list of the FAT, and all walks along it see its clusters.
-/

namespace MyGOS.Fat32

open Outcome

/-- The clusters from the first one to the one that has an end mark. -/
abbrev Disk.Chain (d : Disk) (clusters : List Nat) : Prop :=
  Linked d.next (END_OF_CLUSTER ≤ ·) clusters

/-- The entry that is at a place. -/
def Disk.entry (d : Disk) (pos : DirEntryPos) : Dirent :=
  Block.slice (d.data pos.cluster) pos.offset_in_cluster 32

namespace BIOSParameterBlock.Layout

variable {bpb : BIOSParameterBlock} (L : bpb.Layout)

include L

theorem mask {c : Nat} (hc : bpb.InData c) : c % (CLUSTER_MASK + 1) = c := by
  have hlt := L.cluster_lt
  have hin := hc.2
  unfold END_OF_CLUSTER at hlt
  unfold CLUSTER_MASK
  omega

/-- There are no more clusters in a chain than on the volume. -/
theorem length_lt {clusters : List Nat} (hnodup : clusters.Nodup)
    (hdata : ∀ c ∈ clusters, bpb.InData c) : clusters.length < WALK_LIMIT := by
  have hsub : clusters ⊆ List.range (bpb.data_cluster_cnt + 2) :=
    fun c hc => List.mem_range.mpr (hdata c hc).2
  have hlen := (List.subperm_of_subset hnodup hsub).length_le
  have hlt := L.cluster_lt
  rw [List.length_range] at hlen
  unfold END_OF_CLUSTER at hlt
  unfold WALK_LIMIT
  omega

end BIOSParameterBlock.Layout

namespace FileSystem

/-- The device of the file system has the table and the contents of `d`. -/
def Shows (fs : FileSystem) (d : Disk) : Prop := fs.device.Shows fs.bpb d

variable {fs : FileSystem} {d : Disk} (L : fs.bpb.Layout) (hs : fs.Shows d)

section Fat

variable {c : Nat}

include L

theorem cluster_id_pos_eq (c : Nat) :
    fs.cluster_id_pos c = (fs.bpb.rsvd_sec_cnt + c / 128, c % 128 * 4) := by
  rw [cluster_id_pos, BIOSParameterBlock.fat1_offset, L.byts_per_sec]
  unfold BLOCK_SIZE
  congr 1
  · omega
  · omega

omit L in
theorem fat_in_range (c : Nat) : BlockCache.InRange (c % 128 * 4) 4 := by
  unfold BlockCache.InRange BLOCK_SIZE
  omega

include hs

theorem fat_entry_eq (hc : c < fs.bpb.data_cluster_cnt + 2) : fs.fat_entry c = .ok (d.next c) := by
  rw [fat_entry, cluster_id_pos_eq L, BlockDevice.read, if_pos (fat_in_range c)]
  exact congrArg Except.ok (hs.next c hc)

theorem set_next_cluster_eq (hc : c < fs.bpb.data_cluster_cnt + 2) {v : Nat} (hv : v < 2 ^ 32) :
    ∃ device, fs.set_next_cluster c v = .ok { fs with device := device } ∧
      device.Shows fs.bpb (d.set_next c v) := by
  refine ⟨_, ?_, hs.modify_fat L hc hv⟩
  rw [set_next_cluster, cluster_id_pos_eq L]
  simp only [BlockDevice.modify, if_pos (fat_in_range c)]
  rfl

theorem get_next_cluster_eq (hc : c < fs.bpb.data_cluster_cnt + 2) (h2 : 2 ≤ d.next c) :
    fs.get_next_cluster c = .ok (if END_OF_CLUSTER ≤ d.next c then none else some (d.next c)) := by
  rw [get_next_cluster, fat_entry_eq L hs hc]
  simp only [bind, Except.bind, if_neg (not_lt.mpr h2)]
  split
  · rfl
  · rfl

end Fat

section Walks

variable {clusters : List Nat} {c : Nat}

omit hs in
include L in
theorem walkable (hchain : d.Chain clusters) (hdata : ∀ x ∈ clusters, fs.bpb.InData x) :
    Walkable d.next clusters where
  linked := hchain
  ge x hx := (hdata x hx).1
  lt x hx := by
    have hlt := L.cluster_lt
    have hx := (hdata x hx).2
    unfold END_OF_CLUSTER at hlt
    omega

include L hs

theorem entries_eq (hdata : ∀ x ∈ clusters, fs.bpb.InData x) :
    ∀ x ∈ clusters, fs.fat_entry x = .ok (d.next x) :=
  fun x hx => fat_entry_eq L hs (hdata x hx).2

theorem get_cluster_at_eq (hchain : d.Chain (c :: clusters))
    (hdata : ∀ x ∈ c :: clusters, fs.bpb.InData x) (index : Nat) :
    fs.get_cluster_at c index = .ok ((c :: clusters)[index]?) :=
  get_cluster_at_of_entries (entries_eq L hs hdata) (walkable L hchain hdata) index

theorem generate_rest_eq (hchain : d.Chain (c :: clusters))
    (hdata : ∀ x ∈ c :: clusters, fs.bpb.InData x) {fuel : Nat} (hfuel : clusters.length < fuel) :
    fs.generate_rest fuel c = .ok clusters :=
  generate_rest_of_entries (entries_eq L hs hdata) (walkable L hchain hdata)
    (fat1_offset_dvd (L.byts_per_sec ▸ Nat.dvd_refl _)) hfuel

/-- A part of a chain is completed. -/
theorem generate_eq {before : List Nat} (hchain : d.Chain (c :: clusters))
    (hdata : ∀ x ∈ c :: clusters, fs.bpb.InData x) :
    fs.generate (before ++ [c]) = .ok (before ++ c :: clusters) := by
  have hlen := L.length_lt hchain.nodup hdata
  rw [List.length_cons] at hlen
  rw [generate, List.getLast?_concat]
  simp only
  rw [generate_rest_eq L hs hchain hdata (Nat.lt_of_succ_lt hlen)]
  simp [bind, Except.bind, pure, Except.pure]

/-- A whole chain is left as it is. -/
theorem generate_chain (hchain : d.Chain clusters) (hdata : ∀ x ∈ clusters, fs.bpb.InData x) :
    fs.generate clusters = .ok clusters := by
  obtain rfl | ⟨before, c, rfl⟩ := List.eq_nil_or_concat clusters
  · rfl
  · have hlast := hchain.drop before.length
    rw [List.concat_eq_append] at hlast hdata ⊢
    rw [List.drop_left] at hlast
    exact generate_eq L hs hlast fun x hx => hdata x (List.mem_append_right _ hx)

end Walks

section Entries

variable {pos : DirEntryPos}

/-- A place for a directory entry in a data cluster. -/
structure EntryPos (bpb : BIOSParameterBlock) (pos : DirEntryPos) : Prop where
  data : bpb.InData pos.cluster
  aligned : DIRENT_SIZE ∣ pos.offset_in_cluster
  offset_lt : pos.offset_in_cluster < bpb.cluster_size

theorem EntryPos.in_range {bpb : BIOSParameterBlock} (hp : EntryPos bpb pos) :
    BlockCache.InRange (pos.offset_in_cluster % BLOCK_SIZE) 32 := by
  obtain ⟨k, hk⟩ := hp.aligned
  unfold BlockCache.InRange BLOCK_SIZE
  unfold DIRENT_SIZE at hk
  omega

include L

theorem entry_pos_eq (hp : EntryPos fs.bpb pos) : fs.entry_pos pos =
    .ok (fs.bpb.first_sector_of_cluster pos.cluster + pos.offset_in_cluster / BLOCK_SIZE,
      pos.offset_in_cluster % BLOCK_SIZE) := by
  have hlt : pos.cluster < END_OF_CLUSTER := hp.data.2.trans_le L.cluster_lt
  rw [entry_pos, if_pos hlt, L.offset hp.data.1]
  simp only [bind, Except.bind, pure, Except.pure, Except.ok.injEq, Prod.mk.injEq]
  unfold BLOCK_SIZE
  omega

include hs

theorem read_entry_eq (hp : EntryPos fs.bpb pos) :
    fs.device.read (fs.bpb.first_sector_of_cluster pos.cluster + pos.offset_in_cluster / BLOCK_SIZE)
      (pos.offset_in_cluster % BLOCK_SIZE) 32 = .ok (d.entry pos) := by
  rw [BlockDevice.read_eq_ok]
  refine ⟨hp.in_range, ?_⟩
  funext i
  obtain ⟨k, hk⟩ := hp.aligned
  have hlt := hp.offset_lt
  have hi := i.isLt
  have hoff : pos.offset_in_cluster + i < fs.bpb.cluster_size := by
    rw [L.cluster_size] at hlt ⊢
    unfold BLOCK_SIZE at hlt ⊢
    unfold DIRENT_SIZE at hk
    omega
  show d.data pos.cluster (pos.offset_in_cluster + i) = fs.device _ (_ + i)
  rw [← hs.data _ hp.data _ hoff]
  unfold DIRENT_SIZE at hk
  unfold BLOCK_SIZE
  congr 1
  · congr 1
    omega
  · omega

theorem read_sde_eq {f : VirtFile} (hp : EntryPos fs.bpb f.sde_pos) :
    fs.read_sde f = .ok (d.entry f.sde_pos) := by
  have hne : f.sde_pos.cluster ≠ ROOT_DIR_ENTRY_CLUSTER := by
    have h2 := hp.data.1
    unfold ROOT_DIR_ENTRY_CLUSTER
    omega
  rw [read_sde, if_neg hne, entry_pos_eq L hp]
  exact read_entry_eq L hs hp

theorem modify_entry_eq (hp : EntryPos fs.bpb pos) (g : Dirent → Dirent) :
    ∃ device, fs.modify_entry pos g = .ok { fs with device := device } ∧
      device.Shows fs.bpb (d.put pos.cluster pos.offset_in_cluster (g (d.entry pos))) := by
  have hread := BlockDevice.read_eq_ok.mp (read_entry_eq L hs hp)
  refine ⟨_, ?_, hs.modify_data L hp.data hp.offset_lt hp.in_range.1 _⟩
  rw [modify_entry, entry_pos_eq L hp, hread.2]
  simp only [bind, Except.bind, BlockDevice.modify, if_pos hp.in_range]
  rfl

theorem modify_sde_eq {f : VirtFile} (hp : EntryPos fs.bpb f.sde_pos) (g : Dirent → Dirent) :
    ∃ device, fs.modify_sde f g = .ok { fs with device := device } ∧
      device.Shows fs.bpb (d.put f.sde_pos.cluster f.sde_pos.offset_in_cluster
        (g (d.entry f.sde_pos))) := by
  have hne : f.sde_pos.cluster ≠ ROOT_DIR_ENTRY_CLUSTER := by
    have h2 := hp.data.1
    unfold ROOT_DIR_ENTRY_CLUSTER
    omega
  rw [modify_sde, if_neg hne]
  exact modify_entry_eq L hs hp g

end Entries

end FileSystem

end MyGOS.Fat32
