import MyGOS.Fat32.VirtFile
import Mathlib.Algebra.Order.Ring.Nat

/-!
# The volume as a table and clusters

On a volume with sectors of 512 bytes, the `FSInfo` sector, the FAT and the data
region do not overlap. What the program keeps there is then a table of numbers
and the contents of the clusters, each of which changes alone.
-/

namespace MyGOS.Fat32

open Outcome

namespace BIOSParameterBlock

/-- The count of data clusters. -/
def data_cluster_cnt (bpb : BIOSParameterBlock) : Nat :=
  (bpb.tot_sec32 - bpb.first_data_sector) / bpb.sec_per_clus

/-- A FAT32 volume with sectors of 512 bytes. -/
structure Layout (bpb : BIOSParameterBlock) : Prop where
  byts_per_sec : bpb.byts_per_sec = BLOCK_SIZE
  sec_per_clus : 0 < bpb.sec_per_clus
  root_ent_cnt : bpb.root_ent_cnt = 0
  fs_info : bpb.fs_info < bpb.rsvd_sec_cnt
  num_fats : 0 < bpb.num_fats
  fat_sz32 : 4 * (bpb.data_cluster_cnt + 2) ≤ bpb.fat_sz32 * BLOCK_SIZE
  cluster_lt : bpb.data_cluster_cnt + 2 ≤ END_OF_CLUSTER

/-- The number of a data cluster. -/
def InData (bpb : BIOSParameterBlock) (cluster : Nat) : Prop :=
  2 ≤ cluster ∧ cluster < bpb.data_cluster_cnt + 2

theorem data_block_ge (bpb : BIOSParameterBlock) (c n : Nat) :
    bpb.first_data_sector ≤ bpb.first_sector_of_cluster c + n := by
  unfold first_sector_of_cluster
  omega

/-- Different clusters have different sectors. -/
theorem sector_ne {bpb : BIOSParameterBlock} (hpos : 0 < bpb.sec_per_clus) {c c' n n' : Nat}
    (hc : 2 ≤ c) (hc' : 2 ≤ c') (hne : c ≠ c') (hn : n < bpb.sec_per_clus)
    (hn' : n' < bpb.sec_per_clus) :
    bpb.first_sector_of_cluster c + n ≠ bpb.first_sector_of_cluster c' + n' := by
  unfold first_sector_of_cluster
  intro heq
  have hdiv : ∀ m, ∀ n < bpb.sec_per_clus, (m * bpb.sec_per_clus + n) / bpb.sec_per_clus = m := by
    intro m n hn
    rw [Nat.mul_comm, Nat.mul_add_div hpos, Nat.div_eq_of_lt hn, Nat.add_zero]
  have h := hdiv (c - 2) n hn
  have h' := hdiv (c' - 2) n' hn'
  have hsame : (c - 2) * bpb.sec_per_clus + n = (c' - 2) * bpb.sec_per_clus + n' := by omega
  rw [hsame, h'] at h
  omega

namespace Layout

variable {bpb : BIOSParameterBlock} (L : bpb.Layout) {c c' i i' : Nat}

include L

theorem cluster_size : bpb.cluster_size = bpb.sec_per_clus * BLOCK_SIZE := by
  rw [BIOSParameterBlock.cluster_size, L.byts_per_sec]

theorem cluster_size_pos : 0 < bpb.cluster_size := by
  rw [L.cluster_size]
  exact Nat.mul_pos L.sec_per_clus (by decide)

theorem first_data_sector :
    bpb.first_data_sector = bpb.rsvd_sec_cnt + bpb.num_fats * bpb.fat_sz32 := by
  have hroot : bpb.root_dir_sector_cnt = 0 := by
    rw [root_dir_sector_cnt, L.root_ent_cnt, L.byts_per_sec]
    decide
  rw [BIOSParameterBlock.first_data_sector, hroot, Nat.add_zero]

theorem offset (hc : 2 ≤ c) : bpb.offset c = .ok (bpb.first_sector_of_cluster c * BLOCK_SIZE) := by
  rw [BIOSParameterBlock.offset, if_pos hc, first_sector_of_cluster, L.first_data_sector,
    L.byts_per_sec]

theorem fat_sz32_le : bpb.fat_sz32 ≤ bpb.num_fats * bpb.fat_sz32 :=
  Nat.le_mul_of_pos_left _ L.num_fats

/-- The block of a FAT entry is not in the data region. -/
theorem fat_block_lt (hc : c < bpb.data_cluster_cnt + 2) :
    bpb.rsvd_sec_cnt + c / 128 < bpb.first_data_sector := by
  have htable := L.fat_sz32
  have hle := L.fat_sz32_le
  rw [L.first_data_sector]
  unfold BLOCK_SIZE at htable
  omega

theorem block_lt (hi : i < bpb.cluster_size) : i / BLOCK_SIZE < bpb.sec_per_clus := by
  rw [L.cluster_size, Nat.mul_comm] at hi
  exact Nat.div_lt_of_lt_mul hi

/-- Different clusters have different blocks. -/
theorem block_ne (hc : 2 ≤ c) (hc' : 2 ≤ c') (hne : c ≠ c') {n n' : Nat}
    (hn : n < bpb.sec_per_clus) (hn' : n' < bpb.sec_per_clus) :
    bpb.first_sector_of_cluster c + n ≠ bpb.first_sector_of_cluster c' + n' :=
  sector_ne L.sec_per_clus hc hc' hne hn hn'

end Layout

end BIOSParameterBlock

/-- The FAT and the contents of the clusters. -/
structure Disk where
  next : Nat → Nat
  data : Nat → Nat → UInt8

namespace Disk

def set_next (d : Disk) (cluster next_cluster : Nat) : Disk :=
  { d with next := Function.update d.next cluster next_cluster }

/-- Bytes of a cluster are replaced. -/
def put (d : Disk) (cluster offset : Nat) {size : Nat} (v : Fin size → UInt8) : Disk :=
  { d with data := Function.update d.data cluster (Block.splice (d.data cluster) offset v) }

def clear_cluster (d : Disk) (cluster : Nat) : Disk :=
  { d with data := Function.update d.data cluster fun _ => 0 }

section

variable (d : Disk) (c : Nat) {c' : Nat}

@[simp] theorem set_next_next_self (v : Nat) : (d.set_next c v).next c = v :=
  Function.update_self ..

theorem set_next_next_of_ne (h : c' ≠ c) (v : Nat) : (d.set_next c v).next c' = d.next c' :=
  Function.update_of_ne h ..

@[simp] theorem set_next_data (v : Nat) : (d.set_next c v).data = d.data := rfl

variable {size : Nat} (v : Fin size → UInt8) (offset : Nat)

@[simp] theorem put_next : (d.put c offset v).next = d.next := rfl

@[simp] theorem put_data_self : (d.put c offset v).data c = Block.splice (d.data c) offset v :=
  Function.update_self ..

theorem put_data_of_ne (h : c' ≠ c) : (d.put c offset v).data c' = d.data c' :=
  Function.update_of_ne h ..

@[simp] theorem clear_cluster_next : (d.clear_cluster c).next = d.next := rfl

@[simp] theorem clear_cluster_data_self (i : Nat) : (d.clear_cluster c).data c i = 0 := by
  simp [clear_cluster]

theorem clear_cluster_data_of_ne (h : c' ≠ c) : (d.clear_cluster c).data c' = d.data c' :=
  Function.update_of_ne h ..

end

end Disk

/-- The device has the table and the contents of `d` where the volume has room for them. -/
structure BlockDevice.Shows (bpb : BIOSParameterBlock) (device : BlockDevice) (d : Disk) : Prop where
  next : ∀ c < bpb.data_cluster_cnt + 2,
    le_u32 ((device (bpb.rsvd_sec_cnt + c / 128)).slice (c % 128 * 4) 4) = d.next c
  data : ∀ c, bpb.InData c → ∀ i < bpb.cluster_size,
    device (bpb.first_sector_of_cluster c + i / BLOCK_SIZE) (i % BLOCK_SIZE) = d.data c i

theorem le_u32_to_le_u32 {n : Nat} (h : n < 2 ^ 32) : le_u32 (to_le_u32 n) = n := by
  simp only [le_u32, to_le_u32, UInt8.toNat_ofNat']
  show n / 1 % 2 ^ 8 + 2 ^ 8 * (n / 2 ^ 8 % 2 ^ 8) + 2 ^ 16 * (n / 2 ^ 16 % 2 ^ 8) +
    2 ^ 24 * (n / 2 ^ 24 % 2 ^ 8) = n
  omega

namespace BlockDevice.Shows

open BIOSParameterBlock

variable {bpb : BIOSParameterBlock} {device : BlockDevice} {d : Disk} {c : Nat}

theorem modify_fat (L : bpb.Layout) (hs : device.Shows bpb d) (hc : c < bpb.data_cluster_cnt + 2)
    {v : Nat} (hv : v < 2 ^ 32) :
    BlockDevice.Shows bpb (Function.update device (bpb.rsvd_sec_cnt + c / 128)
      ((device (bpb.rsvd_sec_cnt + c / 128)).splice (c % 128 * 4) (to_le_u32 v)))
      (d.set_next c v) where
  next c' hc' := by
    by_cases heq : c' = c
    · subst heq
      have hslice : Block.slice (Block.splice (device (bpb.rsvd_sec_cnt + c' / 128)) (c' % 128 * 4)
          (to_le_u32 v)) (c' % 128 * 4) 4 = to_le_u32 v := by
        funext i
        simp [Block.slice, Block.splice]
      rw [Function.update_self, Disk.set_next_next_self, hslice, le_u32_to_le_u32 hv]
    · rw [Disk.set_next_next_of_ne d c heq, ← hs.next c' hc']
      congr 1
      funext i
      by_cases hblock : bpb.rsvd_sec_cnt + c' / 128 = bpb.rsvd_sec_cnt + c / 128
      · -- another entry of the same block
        rw [hblock, Function.update_self, Block.slice, Block.slice, Block.splice, dif_neg (by omega)]
      · rw [Function.update_of_ne hblock]
  data c' hc' i hi := by
    have hlt := L.fat_block_lt hc
    have hge := data_block_ge bpb c' (i / BLOCK_SIZE)
    rw [Function.update_of_ne (by omega)]
    exact hs.data c' hc' i hi

theorem modify_data (L : bpb.Layout) (hs : device.Shows bpb d) (hc : bpb.InData c)
    {o size : Nat} (ho : o < bpb.cluster_size) (hsize : o % BLOCK_SIZE + size ≤ BLOCK_SIZE)
    (v : Fin size → UInt8) :
    BlockDevice.Shows bpb (Function.update device (bpb.first_sector_of_cluster c + o / BLOCK_SIZE)
      ((device (bpb.first_sector_of_cluster c + o / BLOCK_SIZE)).splice (o % BLOCK_SIZE) v))
      (d.put c o v) where
  next c' hc' := by
    have hlt := L.fat_block_lt hc'
    have hge := data_block_ge bpb c (o / BLOCK_SIZE)
    rw [Function.update_of_ne (by omega)]
    exact hs.next c' hc'
  data c' hc' i hi := by
    by_cases heq : c' = c
    · subst heq
      rw [Disk.put_data_self, Block.splice]
      by_cases hblock : i / BLOCK_SIZE = o / BLOCK_SIZE
      · rw [hblock, Function.update_self, Block.splice]
        unfold BLOCK_SIZE at hblock hsize ⊢
        by_cases hin : o ≤ i ∧ i < o + size
        · rw [dif_pos hin, dif_pos (by omega)]
          congr 2
          omega
        · have hdata := hs.data c' hc' i hi
          unfold BLOCK_SIZE at hdata
          rw [dif_neg hin, dif_neg (by omega), ← hdata, hblock]
      · rw [Function.update_of_ne (by omega), hs.data c' hc' i hi]
        unfold BLOCK_SIZE at hblock hsize
        rw [dif_neg (by omega)]
    · have hne := L.block_ne hc'.1 hc.1 heq (L.block_lt hi) (L.block_lt ho)
      rw [Function.update_of_ne hne, Disk.put_data_of_ne d c v o heq]
      exact hs.data c' hc' i hi

/-- The `FSInfo` sector is not in the FAT and not in the data region. -/
theorem modify_info (L : bpb.Layout) (hs : device.Shows bpb d) (b : Block) :
    BlockDevice.Shows bpb (Function.update device bpb.fs_info b) d where
  next c hc := by
    have hinfo := L.fs_info
    rw [Function.update_of_ne (by omega)]
    exact hs.next c hc
  data c hc i hi := by
    have hinfo := L.fs_info
    have hge := data_block_ge bpb c (i / BLOCK_SIZE)
    have hdata := L.first_data_sector
    rw [Function.update_of_ne (by omega)]
    exact hs.data c hc i hi

end BlockDevice.Shows

end MyGOS.Fat32
