import MyGOS.Fat32.VirtFile
import MyGOS.Lib.Linked
import Mathlib.Data.List.Perm.Subperm

/-!
# The walks along a chain

Each loop over a chain has its own test for the end and its own mask. On a chain
whose clusters have numbers from 2 on they all see the same clusters.
-/

namespace MyGOS.Fat32

open Outcome

/-- The clusters from the first one to the one whose entry `next` is an end mark. -/
structure Walkable (next : Nat → Nat) (clusters : List Nat) : Prop where
  linked : Linked next (END_OF_CLUSTER ≤ ·) clusters
  ge : ∀ c ∈ clusters, 2 ≤ c
  lt : ∀ c ∈ clusters, c < 2 ^ 28

namespace Walkable

variable {next : Nat → Nat} {c c' : Nat} {clusters : List Nat}

theorem tail (h : Walkable next (c :: clusters)) : Walkable next clusters where
  linked := h.linked.tail
  ge x hx := h.ge x (List.mem_cons_of_mem _ hx)
  lt x hx := h.lt x (List.mem_cons_of_mem _ hx)

theorem mask (h : Walkable next (c :: clusters)) : c % (CLUSTER_MASK + 1) = c :=
  Nat.mod_eq_of_lt (h.lt c List.mem_cons_self)

theorem map_mask (h : Walkable next clusters) :
    clusters.map (· % (CLUSTER_MASK + 1)) = clusters :=
  (List.map_congr_left fun x hx => Nat.mod_eq_of_lt (h.lt x hx)).trans (List.map_id' clusters)

theorem length_lt (h : Walkable next clusters) : clusters.length < WALK_LIMIT := by
  have hsub : clusters ⊆ List.range (2 ^ 28) := fun c hc => List.mem_range.mpr (h.lt c hc)
  have hlen := (List.subperm_of_subset h.linked.nodup hsub).length_le
  rw [List.length_range] at hlen
  unfold WALK_LIMIT
  omega

end Walkable

namespace FileSystem

section Defs

variable (fs : FileSystem)

/-- The entry of a cluster in the FAT. -/
def next (c : Nat) : Nat :=
  le_u32 ((fs.device (fs.cluster_id_pos c).1).slice (fs.cluster_id_pos c).2 4)

/-- The loop of `cluster_chain_tail`. -/
def tail_walk : (fuel curr_cluster : Nat) → Except FsPanic Nat
  | 0, _ => .error .endless
  | fuel + 1, curr_cluster => do
    match ← fs.get_next_cluster curr_cluster with
    | some cluster => tail_walk fuel cluster
    | none => return curr_cluster % (CLUSTER_MASK + 1)

def cluster_chain_tail (start_cluster : Nat) : Except FsPanic Nat :=
  if 2 ≤ start_cluster then fs.tail_walk WALK_LIMIT start_cluster
  else .error (.badCluster start_cluster)

/-- The loop of `cluster_chain_len`. -/
def len_walk : (fuel curr_cluster len : Nat) → Except FsPanic Nat
  | 0, _, _ => .error .endless
  | fuel + 1, curr_cluster, len => do
    match ← fs.get_next_cluster curr_cluster with
    | some next_cluster => len_walk fuel next_cluster (len + 1)
    | none => return len + 1

def cluster_chain_len (start_cluster : Nat) : Except FsPanic Nat :=
  fs.len_walk WALK_LIMIT start_cluster 0

end Defs

variable {fs : FileSystem} {next : Nat → Nat} {c : Nat} {clusters : List Nat}

theorem get_next_cluster_of_entry {v : Nat} (hentry : fs.fat_entry c = .ok v) (h2 : 2 ≤ v) :
    fs.get_next_cluster c = .ok (if END_OF_CLUSTER ≤ v then none else some v) := by
  rw [get_next_cluster, hentry]
  simp only [ok_bind, if_neg (not_lt.mpr h2)]
  split <;> rfl

section Links

variable (hnext : ∀ x ∈ c :: clusters, fs.fat_entry x = .ok (next x))
  (h : Linked next (END_OF_CLUSTER ≤ ·) (c :: clusters)) (hge : ∀ x ∈ clusters, 2 ≤ x)

omit fs next in
theorem forall_tail {p : Nat → Prop} {c' : Nat} (hall : ∀ x ∈ c :: c' :: clusters, p x) :
    ∀ x ∈ c' :: clusters, p x := fun x hx => hall x (List.mem_cons_of_mem _ hx)

include hnext h

theorem generate_rest_linked (hfat : BLOCK_SIZE ∣ fs.bpb.fat1_offset) {fuel : Nat}
    (hfuel : clusters.length < fuel) : fs.generate_rest fuel c = .ok clusters := by
  induction fuel generalizing c clusters with
  | zero => exact absurd hfuel (Nat.not_lt_zero _)
  | succ fuel ih =>
    have hread : le_u32 <$> fs.device.read (fs.bpb.fat1_offset / BLOCK_SIZE + c * 4 / BLOCK_SIZE)
        (c * 4 % BLOCK_SIZE) 4 = .ok (next c) := by
      obtain ⟨k, hk⟩ := hfat
      rw [← hnext c List.mem_cons_self, fat_entry, cluster_id_pos, hk]
      simp only
      rw [Nat.mul_div_cancel_left k (by decide : 0 < BLOCK_SIZE), Nat.add_comm (c * 4),
        Nat.mul_add_mod, Nat.mul_add_div (by decide : 0 < BLOCK_SIZE)]
    rw [generate_rest]
    simp only [hread, ok_bind]
    cases clusters with
    | nil =>
      have hend : END_OF_CLUSTER ≤ next c := h
      rw [if_pos hend]
      rfl
    | cons c' clusters =>
      obtain ⟨heq, hstop, hrest⟩ := h
      rw [heq, if_neg hstop, ih (forall_tail hnext) hrest (Nat.lt_of_succ_lt_succ hfuel)]
      rfl

include hge

/-- One step of a walk. -/
theorem get_next_cluster_linked : fs.get_next_cluster c = .ok clusters.head? := by
  have hentry := hnext c List.mem_cons_self
  cases clusters with
  | nil =>
    have hend : END_OF_CLUSTER ≤ next c := h
    rw [get_next_cluster_of_entry hentry (le_trans (by decide) hend), if_pos hend]
    rfl
  | cons c' clusters =>
    obtain ⟨heq, hstop, -⟩ := h
    rw [heq] at hentry
    rw [get_next_cluster_of_entry hentry (hge c' List.mem_cons_self), if_neg hstop]
    rfl

theorem walk_chain_linked {fuel : Nat} (hfuel : clusters.length < fuel) :
    fs.walk_chain fuel c = .ok ((c :: clusters).map (· % (CLUSTER_MASK + 1))) := by
  induction fuel generalizing c clusters with
  | zero => exact absurd hfuel (Nat.not_lt_zero _)
  | succ fuel ih =>
    rw [walk_chain, get_next_cluster_linked hnext h hge]
    cases clusters with
    | nil => rfl
    | cons c' clusters =>
      simp only [List.head?_cons, ok_bind, ih (forall_tail hnext) h.tail
        (fun x hx => hge x (List.mem_cons_of_mem _ hx)) (Nat.lt_of_succ_lt_succ hfuel)]
      rfl

theorem tail_walk_linked {fuel : Nat} (hfuel : clusters.length < fuel) :
    fs.tail_walk fuel c = .ok (clusters.getLastD c % (CLUSTER_MASK + 1)) := by
  induction fuel generalizing c clusters with
  | zero => exact absurd hfuel (Nat.not_lt_zero _)
  | succ fuel ih =>
    rw [tail_walk, get_next_cluster_linked hnext h hge]
    cases clusters with
    | nil => rfl
    | cons c' clusters =>
      rw [List.getLastD_cons]
      exact ih (forall_tail hnext) h.tail (fun x hx => hge x (List.mem_cons_of_mem _ hx))
        (Nat.lt_of_succ_lt_succ hfuel)

theorem len_walk_linked {fuel : Nat} (hfuel : clusters.length < fuel) (len : Nat) :
    fs.len_walk fuel c len = .ok (len + (c :: clusters).length) := by
  induction fuel generalizing c clusters len with
  | zero => exact absurd hfuel (Nat.not_lt_zero _)
  | succ fuel ih =>
    rw [len_walk, get_next_cluster_linked hnext h hge]
    cases clusters with
    | nil => rfl
    | cons c' clusters =>
      have hrest := ih (forall_tail hnext) h.tail (fun x hx => hge x (List.mem_cons_of_mem _ hx))
        (Nat.lt_of_succ_lt_succ hfuel) (len + 1)
      rw [Nat.add_assoc, Nat.add_comm 1] at hrest
      exact hrest

end Links

section Walks

variable (hnext : ∀ x ∈ c :: clusters, fs.fat_entry x = .ok (next x))
  (h : Walkable next (c :: clusters))

include hnext h

theorem get_cluster_at_of_entries (index : Nat) :
    fs.get_cluster_at c index = .ok ((c :: clusters)[index]?) := by
  induction index generalizing c clusters with
  | zero =>
    rw [get_cluster_at, h.mask]
    rfl
  | succ index ih =>
    rw [get_cluster_at, get_next_cluster_linked hnext h.linked h.tail.ge]
    cases clusters with
    | nil => rfl
    | cons c' clusters => exact ih (forall_tail hnext) h.tail

theorem walk_chain_of_entries {fuel : Nat} (hfuel : clusters.length < fuel) :
    fs.walk_chain fuel c = .ok (c :: clusters) := by
  rw [walk_chain_linked hnext h.linked h.tail.ge hfuel, h.map_mask]

theorem tail_walk_of_entries {fuel : Nat} (hfuel : clusters.length < fuel) :
    fs.tail_walk fuel c = .ok (clusters.getLastD c) := by
  have hmem : clusters.getLastD c ∈ c :: clusters := by
    rw [← List.getLast_eq_getLastD (List.cons_ne_nil _ _)]
    exact List.getLast_mem _
  rw [tail_walk_linked hnext h.linked h.tail.ge hfuel]
  exact congrArg Except.ok (Nat.mod_eq_of_lt (h.lt _ hmem))

theorem len_walk_of_entries {fuel : Nat} (hfuel : clusters.length < fuel) (len : Nat) :
    fs.len_walk fuel c len = .ok (len + (c :: clusters).length) :=
  len_walk_linked hnext h.linked h.tail.ge hfuel len

theorem generate_rest_of_entries (hfat : BLOCK_SIZE ∣ fs.bpb.fat1_offset) {fuel : Nat}
    (hfuel : clusters.length < fuel) : fs.generate_rest fuel c = .ok clusters :=
  generate_rest_linked hnext h.linked hfat hfuel

end Walks

section Addresses

variable (hbytes : BLOCK_SIZE ∣ fs.bpb.byts_per_sec)

include hbytes

theorem fat1_offset_dvd : BLOCK_SIZE ∣ fs.bpb.fat1_offset := Nat.dvd_mul_left_of_dvd hbytes _

theorem fat_entry_of_dvd (c : Nat) : fs.fat_entry c = .ok (fs.next c) := by
  obtain ⟨k, hk⟩ := fat1_offset_dvd hbytes
  have hrange : BlockCache.InRange (fs.cluster_id_pos c).2 4 := by
    rw [cluster_id_pos, hk]
    unfold BlockCache.InRange BLOCK_SIZE
    omega
  rw [fat_entry, BlockDevice.read, if_pos hrange]
  rfl

/-- The block of an offset of a directory is where the cluster of the offset is. -/
theorem dirent_block_pos_of_cluster_pos {f : VirtFile} {o : Nat} {pos : DirEntryPos}
    (hpos : fs.dirent_cluster_pos f o = .ok pos) {offset : Nat}
    (hoffset : fs.bpb.offset pos.cluster = .ok offset) :
    fs.dirent_block_pos f o = .ok ((offset + pos.offset_in_cluster) / BLOCK_SIZE,
      (offset + pos.offset_in_cluster) % BLOCK_SIZE) := by
  have hdvd : BLOCK_SIZE ∣ offset := by
    rw [BIOSParameterBlock.offset] at hoffset
    split at hoffset
    · cases hoffset
      exact Nat.dvd_mul_left_of_dvd hbytes _
    · cases hoffset
  rw [dirent_block_pos, hpos, ok_bind, hoffset, ok_bind, if_pos (Nat.mod_eq_zero_of_dvd hdvd)]
  obtain ⟨k, rfl⟩ := hdvd
  rw [Nat.mul_add_mod, Nat.mul_add_div (by decide : 0 < BLOCK_SIZE),
    Nat.mul_div_cancel_left k (by decide : 0 < BLOCK_SIZE)]
  rfl

end Addresses

/-- All walks along a chain see its clusters, and those along a directory find the one of an
offset. -/
theorem walks_agree {fs : FileSystem} (hbytes : BLOCK_SIZE ∣ fs.bpb.byts_per_sec) {s : Nat}
    {clusters : List Nat} (h : Walkable fs.next (s :: clusters)) :
    fs.generate [s] = .ok (s :: clusters) ∧
    fs.get_all_cluster_id s = .ok (s :: clusters) ∧
    fs.cluster_chain_len s = .ok (s :: clusters).length ∧
    fs.cluster_chain_tail s = .ok ((s :: clusters).getLast (List.cons_ne_nil _ _)) ∧
    (∀ i, fs.get_cluster_at s i = .ok ((s :: clusters)[i]?)) ∧
    ∀ f, fs.first_cluster f = .ok s → ∀ o < (s :: clusters).length * fs.bpb.cluster_size,
      ∃ c offset, (s :: clusters)[o / fs.bpb.cluster_size]? = some c ∧
        fs.dirent_cluster_pos f o = .ok ⟨c, o % fs.bpb.cluster_size⟩ ∧
        fs.bpb.offset c = .ok offset ∧
        fs.dirent_block_pos f o = .ok ((offset + o % fs.bpb.cluster_size) / BLOCK_SIZE,
          (offset + o % fs.bpb.cluster_size) % BLOCK_SIZE) := by
  have hnext : ∀ x ∈ s :: clusters, fs.fat_entry x = .ok (fs.next x) :=
    fun x _ => fat_entry_of_dvd hbytes x
  have hlen : clusters.length < WALK_LIMIT := Nat.lt_of_succ_lt h.length_lt
  have hat := get_cluster_at_of_entries hnext h
  refine ⟨?_, walk_chain_of_entries hnext h hlen, ?_, ?_, hat, fun f hf o ho => ?_⟩
  · rw [generate, List.getLast?_singleton]
    simp only [generate_rest_of_entries hnext h (fat1_offset_dvd hbytes) hlen, ok_bind]
    rfl
  · rw [cluster_chain_len, len_walk_of_entries hnext h hlen, Nat.zero_add]
  · rw [cluster_chain_tail, if_pos (h.ge s List.mem_cons_self), tail_walk_of_entries hnext h hlen,
      List.getLast_eq_getLastD]
  · have hindex : o / fs.bpb.cluster_size < (s :: clusters).length :=
      Nat.div_lt_of_lt_mul (Nat.mul_comm _ _ ▸ ho)
    obtain ⟨c, hc⟩ : ∃ c, (s :: clusters)[o / fs.bpb.cluster_size]? = some c :=
      ⟨_, List.getElem?_eq_getElem hindex⟩
    have h2 := h.ge c (List.mem_of_getElem? hc)
    have hpos : fs.dirent_cluster_pos f o = .ok ⟨c, o % fs.bpb.cluster_size⟩ := by
      rw [dirent_cluster_pos, hf, ok_bind, hat, hc]
      rfl
    obtain ⟨offset, hoffset⟩ : ∃ offset, fs.bpb.offset c = .ok offset := by
      rw [BIOSParameterBlock.offset, if_pos h2]
      exact ⟨_, rfl⟩
    exact ⟨c, offset, hc, hpos, hoffset, dirent_block_pos_of_cluster_pos hbytes hpos hoffset⟩

section Volume

/-- A volume of one FAT sector with these bytes. -/
def of_fat (bytes : List UInt8) : FileSystem where
  device := fun _ i => bytes.getD i 0
  free_cluster_cnt := 0
  bpb :=
    { byts_per_sec := BLOCK_SIZE
      sec_per_clus := 1
      rsvd_sec_cnt := 2
      num_fats := 1
      root_ent_cnt := 0
      tot_sec32 := 16
      fat_sz32 := 1
      root_clus := 2
      fs_info := 1 }
  recycled_cluster := []
  root_dir_entry := .new 2 [] [] .Dir
  chains := fun _ => []
  next_chain := 0

/-- The clusters 2 and 3. -/
def two_clusters : FileSystem :=
  of_fat [0, 0, 0, 0, 0, 0, 0, 0, 3, 0, 0, 0, 0xF8, 0xFF, 0xFF, 0x0F]

theorem walkable_two_clusters : Walkable two_clusters.next [2, 3] where
  linked := by
    constructor
    · decide +kernel
    · exact ⟨by decide, show END_OF_CLUSTER ≤ two_clusters.next 3 by decide +kernel⟩
  ge := by decide
  lt := by decide

theorem walks_agree_two_clusters :
    two_clusters.cluster_chain_len 2 = .ok 2 ∧ two_clusters.cluster_chain_tail 2 = .ok 3 := by
  obtain ⟨-, -, hlen, htail, -, -⟩ := walks_agree (Nat.dvd_refl _) walkable_two_clusters
  exact ⟨hlen, htail⟩

/-- The entry of the cluster 2 is the reserved number 1, whose entry is an end mark. -/
def reserved_number : FileSystem := of_fat [0, 0, 0, 0, 0xF8, 0xFF, 0xFF, 0x0F, 1]

theorem walks_reserved_number :
    Linked reserved_number.next (END_OF_CLUSTER ≤ ·) [2, 1] ∧
      reserved_number.generate [2] = .ok [2, 1] ∧
      reserved_number.get_all_cluster_id 2 = .error (.badCluster 1) ∧
      reserved_number.cluster_chain_len 2 = .error (.badCluster 1) := by
  constructor
  · constructor
    · decide +kernel
    · exact ⟨by decide, show END_OF_CLUSTER ≤ reserved_number.next 1 by decide +kernel⟩
  · decide +kernel

end Volume

end FileSystem

end MyGOS.Fat32
