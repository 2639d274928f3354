import MyGOS.Fat32.Cache
import MyGOS.Lib.Outcome

/-!
# The volume and its FAT

Every handle of the block cache is released at once in this part of the
program, so the device is a plain array of blocks. `FileSystem` is that array
with what the file system keeps in memory; a `ClusterChain` is shared by the
files that hold its `Arc`, which is a number here.
-/

namespace MyGOS.Fat32

def END_OF_CLUSTER : Nat := 0x0FFFFFF8
def CLUSTER_MASK : Nat := 0x0FFFFFFF
def FREE_CLUSTER : Nat := 0
def NEW_VIRT_FILE_CLUSTER : Nat := 0
def ROOT_DIR_ENTRY_CLUSTER : Nat := 0
def DIRENT_SIZE : Nat := 32

/-- A loop over clusters that takes more rounds than there are cluster numbers does not end. -/
def WALK_LIMIT : Nat := 2 ^ 32

/-- The panics of the file systems, under the expression that panics. -/
inductive FsPanic where
  /-- an assertion of the block cache, or an index outside of a slice -/
  | outOfBounds
  /-- "Error loading fat32! Illegal signature" -/
  | badSignature
  /-- `assert!(cluster >= 2)` and its kin -/
  | badCluster (cluster : Nat)
  /-- `unwrap` of a cluster that is not in the chain -/
  | noCluster
  /-- "Alloc Cluster Failed! Out of Space!" -/
  | outOfSpace
  /-- a walk that does not end -/
  | endless
  /-- `assert!(self.is_dir())`, `assert!(!self.is_dir())` -/
  | wrongType
  /-- `unwrap` of the last component of an empty path -/
  | emptyPath
  /-- `expect("read page error")` -/
  | pageError
  /-- `page_cache().as_ref().cloned().unwrap()` -/
  | noPageCache
  /-- a file that is not open -/
  | notOpen
  /-- "capacity overflow" of a `Vec` -/
  | capacity
  /-- `unimplemented!()` -/
  | unimplemented
deriving DecidableEq, Repr

/-- A directory entry, long or short, as it is on the disk. -/
abbrev Dirent := Fin 32 → UInt8

def le_u32 (b : Fin 4 → UInt8) : Nat :=
  (b 0).toNat + 2 ^ 8 * (b 1).toNat + 2 ^ 16 * (b 2).toNat + 2 ^ 24 * (b 3).toNat

def to_le_u32 (n : Nat) : Fin 4 → UInt8 := fun i => UInt8.ofNat (n / 2 ^ (8 * i.val))

namespace BlockDevice

/-- `get_block_cache(..).read().read(..)`. -/
def read (d : BlockDevice) (block_id offset size : Nat) : Except FsPanic (Fin size → UInt8) :=
  if BlockCache.InRange offset size then .ok ((d block_id).slice offset size)
  else .error .outOfBounds

/-- `get_block_cache(..).write().modify(..)`. -/
def modify (d : BlockDevice) (block_id offset : Nat) {size : Nat}
    (f : (Fin size → UInt8) → Fin size → UInt8) : Except FsPanic BlockDevice :=
  if BlockCache.InRange offset size then
    .ok (Function.update d block_id
      ((d block_id).splice offset (f ((d block_id).slice offset size))))
  else .error .outOfBounds

theorem read_eq_ok {d : BlockDevice} {block_id offset size : Nat} {v : Fin size → UInt8} :
    d.read block_id offset size = .ok v ↔
      BlockCache.InRange offset size ∧ v = (d block_id).slice offset size := by
  unfold read
  split
  · next h => simp [h, eq_comm]
  · next h => simp [h]

theorem modify_eq_ok {d d' : BlockDevice} {block_id offset size : Nat}
    {f : (Fin size → UInt8) → Fin size → UInt8} :
    d.modify block_id offset f = .ok d' ↔
      BlockCache.InRange offset size ∧ d' = Function.update d block_id
        ((d block_id).splice offset (f ((d block_id).slice offset size))) := by
  unfold modify
  split
  · next h => simp [h, eq_comm]
  · next h => simp [h]

end BlockDevice

/-- The fields that the file system reads. -/
structure BIOSParameterBlock where
  byts_per_sec : Nat
  sec_per_clus : Nat
  rsvd_sec_cnt : Nat
  num_fats : Nat
  root_ent_cnt : Nat
  tot_sec32 : Nat
  fat_sz32 : Nat
  root_clus : Nat
  fs_info : Nat
deriving DecidableEq

namespace BIOSParameterBlock

def offset (bpb : BIOSParameterBlock) (cluster : Nat) : Except FsPanic Nat :=
  if 2 ≤ cluster then
    .ok ((bpb.rsvd_sec_cnt + bpb.num_fats * bpb.fat_sz32 + (cluster - 2) * bpb.sec_per_clus) *
      bpb.byts_per_sec)
  else .error (.badCluster cluster)

def root_dir_sector_cnt (bpb : BIOSParameterBlock) : Nat :=
  (bpb.root_ent_cnt * 32 % 2 ^ 16 + (bpb.byts_per_sec - 1)) / bpb.byts_per_sec

def first_data_sector (bpb : BIOSParameterBlock) : Nat :=
  bpb.rsvd_sec_cnt + bpb.num_fats * bpb.fat_sz32 + bpb.root_dir_sector_cnt

def first_sector_of_cluster (bpb : BIOSParameterBlock) (cluster : Nat) : Nat :=
  bpb.first_data_sector + (cluster - 2) * bpb.sec_per_clus

def fat1_offset (bpb : BIOSParameterBlock) : Nat := bpb.rsvd_sec_cnt * bpb.byts_per_sec

def cluster_size (bpb : BIOSParameterBlock) : Nat := bpb.sec_per_clus * bpb.byts_per_sec

end BIOSParameterBlock

structure FileSystem where
  device : BlockDevice
  free_cluster_cnt : Nat
  bpb : BIOSParameterBlock
  recycled_cluster : List Nat
  root_dir_entry : Dirent
  /-- the `cluster_vec` of each chain -/
  chains : Nat → List Nat
  next_chain : Nat

namespace FileSystem

section Fat

variable (fs : FileSystem)

/-- `cluster_id_pos`: the block of a FAT entry, and the offset in it. -/
def cluster_id_pos (index : Nat) : Nat × Nat :=
  let offset := index * 4 + fs.bpb.fat1_offset
  (offset / BLOCK_SIZE, offset % BLOCK_SIZE)

def fat_entry (cluster : Nat) : Except FsPanic Nat :=
  le_u32 <$> fs.device.read (fs.cluster_id_pos cluster).1 (fs.cluster_id_pos cluster).2 4

def set_next_cluster (cluster next_cluster : Nat) : Except FsPanic FileSystem := do
  let (block_id, offset_in_block) := fs.cluster_id_pos cluster
  let device ← fs.device.modify block_id offset_in_block fun _ => to_le_u32 next_cluster
  return { fs with device := device }

/-- The loops of `find_blank_cluster`, which read the FAT entry by entry. -/
def scan_blank : (fuel cluster : Nat) → Except FsPanic Nat
  | 0, _ => .error .endless
  | fuel + 1, cluster => do
    if (← fs.fat_entry cluster) = FREE_CLUSTER then return cluster
    else scan_blank fuel (cluster + 1)

def find_blank_cluster (start_from : Nat) : Except FsPanic Nat := do
  return (← fs.scan_blank WALK_LIMIT ((start_from + 1) % 2 ^ 32)) % (CLUSTER_MASK + 1)

def get_blank_cluster (start_from : Nat) : Except FsPanic (Nat × FileSystem) :=
  match fs.recycled_cluster with
  | cluster :: recycled_cluster =>
    .ok (cluster % (CLUSTER_MASK + 1), { fs with recycled_cluster := recycled_cluster })
  | [] => do return (← fs.find_blank_cluster start_from, fs)

def recycle (cluster : Nat) : FileSystem :=
  { fs with recycled_cluster := fs.recycled_cluster ++ [cluster] }

def get_next_cluster (cluster : Nat) : Except FsPanic (Option Nat) := do
  let next_cluster ← fs.fat_entry cluster
  if next_cluster < 2 then .error (.badCluster next_cluster)
  else if END_OF_CLUSTER ≤ next_cluster then return none
  else return some next_cluster

def get_cluster_at (start_cluster : Nat) : (index : Nat) → Except FsPanic (Option Nat)
  | 0 => .ok (some (start_cluster % (CLUSTER_MASK + 1)))
  | index + 1 => do
    match ← fs.get_next_cluster start_cluster with
    | some cluster => get_cluster_at cluster index
    | none => return none

/-- `get_all_cluster_id`. -/
def walk_chain : (fuel cluster : Nat) → Except FsPanic (List Nat)
  | 0, _ => .error .endless
  | fuel + 1, cluster => do
    match ← fs.get_next_cluster cluster with
    | some next_cluster => do
      return cluster % (CLUSTER_MASK + 1) :: (← walk_chain fuel next_cluster)
    | none => return [cluster % (CLUSTER_MASK + 1)]

def get_all_cluster_id (start_cluster : Nat) : Except FsPanic (List Nat) :=
  fs.walk_chain WALK_LIMIT start_cluster

/-- The clusters after the last one of a chain, as `ClusterChain::generate` follows them. -/
def generate_rest : (fuel cluster : Nat) → Except FsPanic (List Nat)
  | 0, _ => .error .endless
  | fuel + 1, cluster => do
    let offset := cluster * 4
    let block_id := fs.bpb.fat1_offset / BLOCK_SIZE + offset / BLOCK_SIZE
    let next_cluster ← le_u32 <$> fs.device.read block_id (offset % BLOCK_SIZE) 4
    if END_OF_CLUSTER ≤ next_cluster then return []
    else return next_cluster :: (← generate_rest fuel next_cluster)

def generate (cluster_vec : List Nat) : Except FsPanic (List Nat) :=
  match cluster_vec.getLast? with
  | none => .ok cluster_vec
  | some cluster => do return cluster_vec ++ (← fs.generate_rest WALK_LIMIT cluster)

/-- `ClusterChain::new`. -/
def new_chain (cluster : Nat) : List Nat := if 2 ≤ cluster then [cluster] else []

end Fat

section Alloc

def set_free_clusters (fs : FileSystem) (cnt : Nat) : Except FsPanic FileSystem := do
  -- `free_count` of the `FSInfo` sector
  let device ← fs.device.modify fs.bpb.fs_info 0 fun b : Fin 512 → UInt8 =>
    fun i => if 488 ≤ i.val ∧ i.val < 492 then UInt8.ofNat (cnt / 2 ^ (8 * (i.val - 488))) else b i
  return { fs with device := device, free_cluster_cnt := cnt }

def clear_block (fs : FileSystem) (block_id : Nat) : Except FsPanic FileSystem := do
  let device ← fs.device.modify block_id 0 fun _ : Fin 512 → UInt8 => fun _ => 0
  return { fs with device := device }

def clear_cluster (fs : FileSystem) (cluster : Nat) : Except FsPanic FileSystem :=
  (List.range fs.bpb.sec_per_clus).foldlM
    (fun fs' i => fs'.clear_block (fs.bpb.first_sector_of_cluster cluster + i)) fs

/-- A blank cluster, cleared; its FAT entry is still free. -/
def take_cluster (fs : FileSystem) (start_from : Nat) : Except FsPanic (Nat × FileSystem) := do
  let (cluster, fs) ← fs.get_blank_cluster start_from
  if cluster < 2 then .error (.badCluster cluster)
  else return (cluster, ← fs.clear_cluster cluster)

/-- The loop of `alloc_cluster_chain`; it returns the last cluster. -/
def append_clusters : (num : Nat) → FileSystem → (curr_cluster_id : Nat) →
    Except FsPanic (Nat × FileSystem)
  | 0, fs, curr_cluster_id => .ok (curr_cluster_id, fs)
  | num + 1, fs, curr_cluster_id => do
    let (cluster_id, fs) ← fs.take_cluster curr_cluster_id
    let fs ← fs.set_next_cluster curr_cluster_id cluster_id
    append_clusters num fs cluster_id

def alloc_cluster_chain (fs : FileSystem) (num start_cluster : Nat) :
    Except FsPanic (Option Nat × FileSystem) :=
  if fs.free_cluster_cnt < num then .ok (none, fs)
  else do
    let free_cluster_cnt := fs.free_cluster_cnt
    let (first_cluster_id, fs) ← fs.take_cluster start_cluster
    let (last_cluster_id, fs) ← append_clusters (num - 1) fs first_cluster_id
    let fs ← fs.set_next_cluster last_cluster_id END_OF_CLUSTER
    return (some first_cluster_id, ← fs.set_free_clusters (free_cluster_cnt - num))

def free_cluster (fs : FileSystem) (cluster : Nat) : Except FsPanic FileSystem := do
  return (← fs.set_next_cluster cluster FREE_CLUSTER).recycle cluster

def dealloc_cluster (fs : FileSystem) (clusters : List Nat) : Except FsPanic FileSystem :=
  if clusters = [] then .ok fs
  else do
    let free_cluster_cnt := fs.free_cluster_cnt
    let fs ← clusters.foldlM free_cluster fs
    fs.set_free_clusters (free_cluster_cnt + clusters.length)

end Alloc

end FileSystem

end MyGOS.Fat32
