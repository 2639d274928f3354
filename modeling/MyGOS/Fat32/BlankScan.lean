import MyGOS.Fat32.Walkers
import Mathlib.Data.Nat.Find

/-!
# The scan for a free cluster

`find_blank_cluster` reads the FAT block by block. It starts in the middle of a
block, and goes through the entries of the block that are left with the cluster
number counted along. Entry by entry this is `FileSystem.find_blank_cluster`.
-/

namespace MyGOS.Fat32

open Outcome

namespace FATManager

variable (fs : FileSystem)

/-- `(offset..BLOCK_SIZE).step_by(4)` -/
def entry_offsets (offset : Nat) : List Nat := List.range' offset ((BLOCK_SIZE - offset + 3) / 4) 4

/-- The `for` loop over a block: `done`, and the cluster it is left with. -/
def scan_block (buffer : Block) : (offsets : List Nat) → (cluster : Nat) →
    Except FsPanic (Bool × Nat)
  | [], cluster => .ok (false, cluster)
  | i :: offsets, cluster =>
    if BlockCache.InRange i 4 then
      if le_u32 (buffer.slice i 4) = FREE_CLUSTER then .ok (true, cluster)
      else scan_block buffer offsets ((cluster + 1) % 2 ^ 32)
    else .error .outOfBounds

/-- The `loop` over the blocks. -/
def scan_blocks : (fuel cluster : Nat) → Except FsPanic Nat
  | 0, _ => .error .endless
  | fuel + 1, cluster => do
    let (block_id, offset) := fs.cluster_id_pos cluster
    let (done, cluster) ← scan_block (fs.device block_id) (entry_offsets offset) cluster
    if done then return cluster else scan_blocks fuel cluster

def find_blank_cluster (start_from : Nat) : Except FsPanic Nat := do
  return (← scan_blocks fs WALK_LIMIT ((start_from + 1) % 2 ^ 32)) % (CLUSTER_MASK + 1)

section

variable {fs} {buffer : Block} {next : Nat → Nat} {o n c cluster : Nat}

/-- The entries of a block are those of the clusters from `cluster` on. -/
def Entries (buffer : Block) (next : Nat → Nat) (o n cluster : Nat) : Prop :=
  ∀ j < n, o + 4 * j + 4 ≤ BLOCK_SIZE ∧
    le_u32 (buffer.slice (o + 4 * j) 4) = next (cluster + j)

theorem Entries.tail (h : Entries buffer next o (n + 1) cluster) :
    Entries buffer next (o + 4) n (cluster + 1) := by
  intro j hj
  have hnext := h (j + 1) (Nat.succ_lt_succ hj)
  rwa [Nat.mul_add, Nat.mul_one, Nat.add_comm (4 * j) 4, ← Nat.add_assoc o, Nat.add_comm j 1,
    ← Nat.add_assoc cluster] at hnext

/-- A round of the inner loop over an entry that is not free. -/
theorem scan_block_step (h : Entries buffer next o (n + 1) cluster)
    (hne : next cluster ≠ FREE_CLUSTER) (hlt : cluster + 1 < 2 ^ 32) :
    scan_block buffer (List.range' o (n + 1) 4) cluster =
      scan_block buffer (List.range' (o + 4) n 4) (cluster + 1) := by
  obtain ⟨hin, heq⟩ := h 0 (Nat.succ_pos n)
  rw [Nat.mul_zero, Nat.add_zero] at hin heq
  rw [List.range'_succ, scan_block, if_pos ⟨hin, by omega⟩, heq, Nat.add_zero, if_neg hne,
    Nat.mod_eq_of_lt hlt]

/-- The inner loop stops at the first free entry of its block. -/
theorem scan_block_free (h : Entries buffer next o n cluster) (hc : c < cluster + n)
    (hle : cluster ≤ c) (hlt : c < 2 ^ 32) (hzero : next c = FREE_CLUSTER)
    (hne : ∀ x, cluster ≤ x → x < c → next x ≠ FREE_CLUSTER) :
    scan_block buffer (List.range' o n 4) cluster = .ok (true, c) := by
  induction n generalizing o cluster with
  | zero => omega
  | succ n ih =>
    rcases Nat.eq_or_lt_of_le hle with rfl | hcluster
    · obtain ⟨hin, heq⟩ := h 0 (Nat.succ_pos n)
      rw [Nat.mul_zero, Nat.add_zero] at hin heq
      rw [List.range'_succ, scan_block, if_pos ⟨hin, by omega⟩, heq, Nat.add_zero, if_pos hzero]
    · rw [scan_block_step h (hne cluster le_rfl hcluster) (by omega)]
      exact ih h.tail (by omega) hcluster fun x hx => hne x (by omega)

/-- Otherwise it leaves the cluster of the first entry of the next block. -/
theorem scan_block_full (h : Entries buffer next o n cluster) (hlt : cluster + n < 2 ^ 32)
    (hne : ∀ x, cluster ≤ x → x < cluster + n → next x ≠ FREE_CLUSTER) :
    scan_block buffer (List.range' o n 4) cluster = .ok (false, cluster + n) := by
  induction n generalizing o cluster with
  | zero => rfl
  | succ n ih =>
    rw [scan_block_step h (hne cluster le_rfl (by omega)) (by omega),
      ih h.tail (by omega) fun x hx hx' => hne x (by omega) (by omega), Nat.add_right_comm]
    rfl

variable (hfat : 4 ∣ fs.bpb.fat1_offset)

include hfat

/-- What is left of a block holds the entries of as many clusters. -/
theorem entries_of_block (cluster : Nat) :
    ∃ n, 0 < n ∧ entry_offsets (fs.cluster_id_pos cluster).2 =
        List.range' (fs.cluster_id_pos cluster).2 n 4 ∧
      Entries (fs.device (fs.cluster_id_pos cluster).1) fs.next (fs.cluster_id_pos cluster).2 n
        cluster := by
  obtain ⟨k, hk⟩ := hfat
  refine ⟨(BLOCK_SIZE - (fs.cluster_id_pos cluster).2 + 3) / 4, ?_, rfl, fun j hj => ?_⟩
  · have hlt : (fs.cluster_id_pos cluster).2 < BLOCK_SIZE := Nat.mod_lt _ (by decide)
    omega
  · rw [FileSystem.next, FileSystem.cluster_id_pos, FileSystem.cluster_id_pos, hk] at *
    unfold BLOCK_SIZE at *
    simp only at hj ⊢
    have hblock : ((cluster + j) * 4 + 4 * k) / 512 = (cluster * 4 + 4 * k) / 512 := by omega
    have hoffset : ((cluster + j) * 4 + 4 * k) % 512 = (cluster * 4 + 4 * k) % 512 + 4 * j := by
      omega
    exact ⟨by omega, by rw [hblock, hoffset]⟩

theorem scan_blocks_eq {fuel : Nat} (hle : cluster ≤ c) (hfuel : c < cluster + fuel)
    (hlt : c < 2 ^ 32) (hzero : fs.next c = FREE_CLUSTER)
    (hne : ∀ x, cluster ≤ x → x < c → fs.next x ≠ FREE_CLUSTER) :
    scan_blocks fs fuel cluster = .ok c := by
  induction fuel generalizing cluster with
  | zero => omega
  | succ fuel ih =>
    obtain ⟨n, hpos, hoffsets, hentries⟩ := entries_of_block hfat cluster
    rw [scan_blocks]
    simp only [hoffsets]
    rcases Nat.lt_or_ge c (cluster + n) with hc | hc
    · rw [scan_block_free hentries hc hle hlt hzero hne]
      rfl
    · rw [scan_block_full hentries (by omega) fun x hx hx' => hne x hx (by omega)]
      exact ih hc (by omega) fun x hx => hne x (by omega)

theorem scan_blank_eq_of_next {fuel : Nat} (hle : cluster ≤ c) (hfuel : c < cluster + fuel)
    (hzero : fs.next c = FREE_CLUSTER) (hne : ∀ x, cluster ≤ x → x < c → fs.next x ≠ FREE_CLUSTER) :
    fs.scan_blank fuel cluster = .ok c := by
  induction fuel generalizing cluster with
  | zero => omega
  | succ fuel ih =>
    have hentry : fs.fat_entry cluster = .ok (fs.next cluster) := by
      obtain ⟨k, hk⟩ := hfat
      have hrange : BlockCache.InRange (fs.cluster_id_pos cluster).2 4 := by
        rw [FileSystem.cluster_id_pos, hk]
        unfold BlockCache.InRange BLOCK_SIZE
        omega
      rw [FileSystem.fat_entry, BlockDevice.read, if_pos hrange]
      rfl
    rw [FileSystem.scan_blank, hentry, ok_bind]
    rcases Nat.eq_or_lt_of_le hle with rfl | hcluster
    · rw [if_pos hzero]
      rfl
    · rw [if_neg (hne cluster le_rfl hcluster)]
      exact ih hcluster (by omega) fun x hx => hne x (by omega)

end

/-- The scan returns the first free cluster after `start_from`, block by block and
entry by entry. -/
theorem find_blank_cluster_least {fs : FileSystem} (hfat : 4 ∣ fs.bpb.fat1_offset) {s : Nat}
    (h : ∃ c, s < c ∧ c < 2 ^ 28 ∧ fs.next c = FREE_CLUSTER) :
    ∃ c, s < c ∧ c < 2 ^ 28 ∧ fs.next c = FREE_CLUSTER ∧
      (∀ x, s < x → x < c → fs.next x ≠ FREE_CLUSTER) ∧
      find_blank_cluster fs s = .ok c ∧ fs.find_blank_cluster s = .ok c := by
  classical
  obtain ⟨hs, hlt, hzero⟩ := Nat.find_spec h
  have hleast : ∀ x, s < x → x < Nat.find h → fs.next x ≠ FREE_CLUSTER := fun x hx hxc heq =>
    Nat.find_min h hxc ⟨hx, by omega, heq⟩
  generalize Nat.find h = c at hs hlt hzero hleast
  have hstart : (s + 1) % 2 ^ 32 = s + 1 := Nat.mod_eq_of_lt (by omega)
  have hfuel : c < s + 1 + WALK_LIMIT := by
    unfold WALK_LIMIT
    omega
  refine ⟨c, hs, hlt, hzero, hleast, ?_, ?_⟩
  · rw [find_blank_cluster, hstart, scan_blocks_eq hfat hs hfuel (by omega) hzero hleast]
    exact congrArg Except.ok (Nat.mod_eq_of_lt hlt)
  · rw [FileSystem.find_blank_cluster, hstart, scan_blank_eq_of_next hfat hs hfuel hzero hleast]
    exact congrArg Except.ok (Nat.mod_eq_of_lt hlt)

/-- The clusters 2 and 3 are in use. -/
theorem find_blank_cluster_two_clusters :
    find_blank_cluster FileSystem.two_clusters 1 = .ok 4 := by
  have h4 : FileSystem.two_clusters.next 4 = FREE_CLUSTER := by decide +kernel
  have h2 : FileSystem.two_clusters.next 2 ≠ FREE_CLUSTER := by decide +kernel
  have h3 : FileSystem.two_clusters.next 3 ≠ FREE_CLUSTER := by decide +kernel
  obtain ⟨c, hs, -, hzero, hleast, hrun, -⟩ :=
    find_blank_cluster_least (s := 1) (by decide) ⟨4, by decide, by decide, h4⟩
  have hle : c ≤ 4 := not_lt.mp fun hc => hleast 4 (by decide) hc h4
  obtain rfl | rfl | rfl : c = 2 ∨ c = 3 ∨ c = 4 := by omega
  · exact absurd hzero h2
  · exact absurd hzero h3
  · exact hrun

end FATManager

end MyGOS.Fat32
