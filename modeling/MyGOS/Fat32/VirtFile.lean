import MyGOS.Fat32.Dirent

/-!
# Files and directories on the disk

A `VirtFile` names its directory entries by their place on the disk, and its
clusters by a chain that all its clones share.
-/

namespace MyGOS.Fat32

structure DirEntryPos where
  cluster : Nat
  offset_in_cluster : Nat
deriving DecidableEq, Repr

structure VirtFile where
  name : Name
  sde_pos : DirEntryPos
  lde_pos : List DirEntryPos
  cluster_chain : Nat
  attr : VirtFileType
deriving DecidableEq

def VirtFile.is_dir (f : VirtFile) : Bool := f.attr = .Dir

/-- The root directory, which keeps the first of the chains. -/
def root : VirtFile := ⟨['/'], ⟨ROOT_DIR_ENTRY_CLUSTER, 0⟩, [], 0, .Dir⟩

namespace FileSystem

def cluster_vec (fs : FileSystem) (f : VirtFile) : List Nat := fs.chains f.cluster_chain

def set_cluster_vec (fs : FileSystem) (f : VirtFile) (cluster_vec : List Nat) : FileSystem :=
  { fs with chains := Function.update fs.chains f.cluster_chain cluster_vec }

section Entries

variable (fs : FileSystem)

/-- `sde_pos` and `lde_pos`: the block of an entry, and the offset in it. -/
def entry_pos (pos : DirEntryPos) : Except FsPanic (Nat × Nat) :=
  if pos.cluster < END_OF_CLUSTER then do
    let cluster_offset ← fs.bpb.offset pos.cluster
    let offset := pos.offset_in_cluster + cluster_offset
    return (offset / BLOCK_SIZE, offset % BLOCK_SIZE)
  else .error (.badCluster pos.cluster)

def modify_entry (pos : DirEntryPos) (f : Dirent → Dirent) : Except FsPanic FileSystem := do
  let (block_id, offset_in_block) ← fs.entry_pos pos
  return { fs with device := ← fs.device.modify block_id offset_in_block f }

/-- The root directory has no entry on the disk. -/
def read_sde (f : VirtFile) : Except FsPanic Dirent :=
  if f.sde_pos.cluster = ROOT_DIR_ENTRY_CLUSTER then .ok fs.root_dir_entry
  else do
    let (block_id, offset_in_block) ← fs.entry_pos f.sde_pos
    fs.device.read block_id offset_in_block 32

def modify_sde (f : VirtFile) (g : Dirent → Dirent) : Except FsPanic FileSystem :=
  if f.sde_pos.cluster = ROOT_DIR_ENTRY_CLUSTER then
    .ok { fs with root_dir_entry := g fs.root_dir_entry }
  else fs.modify_entry f.sde_pos g

def file_size (f : VirtFile) : Except FsPanic Nat := Dirent.file_size <$> fs.read_sde f

def first_cluster (f : VirtFile) : Except FsPanic Nat := Dirent.first_cluster <$> fs.read_sde f

def set_first_cluster (f : VirtFile) (cluster : Nat) : Except FsPanic FileSystem :=
  fs.modify_sde f (·.set_first_cluster cluster)

def set_file_size (f : VirtFile) (size : Nat) : Except FsPanic FileSystem :=
  fs.modify_sde f (·.set_file_size size)

/-- The loop of `clear` and `clear_direntry` over the long entries. -/
def delete_ldes (f : VirtFile) : Except FsPanic FileSystem :=
  f.lde_pos.foldlM (fun fs pos => fs.modify_entry pos Dirent.delete_long) fs

def clear_direntry (f : VirtFile) : Except FsPanic FileSystem := do
  (← fs.delete_ldes f).modify_sde f Dirent.delete

/-- The cluster that holds the entry at an offset of a directory, and the offset in it. -/
def dirent_cluster_pos (f : VirtFile) (offset : Nat) : Except FsPanic DirEntryPos := do
  let start_cluster ← fs.first_cluster f
  match ← fs.get_cluster_at start_cluster (offset / fs.bpb.cluster_size) with
  | some cluster => return ⟨cluster, offset % fs.bpb.cluster_size⟩
  | none => .error .noCluster

def dirent_block_pos (f : VirtFile) (offset : Nat) : Except FsPanic (Nat × Nat) := do
  let pos ← fs.dirent_cluster_pos f offset
  let offset_in_disk ← fs.bpb.offset pos.cluster
  if offset_in_disk % BLOCK_SIZE = 0 then
    return (offset_in_disk / BLOCK_SIZE + pos.offset_in_cluster / BLOCK_SIZE,
      pos.offset_in_cluster % BLOCK_SIZE)
  else .error .outOfBounds

def generate_cluster_chain (f : VirtFile) (sde_offset : Nat) : Except FsPanic (List Nat) := do
  let (block_id, offset_in_block) ← fs.dirent_block_pos f sde_offset
  let sde ← fs.device.read block_id offset_in_block 32
  fs.generate (new_chain (Dirent.first_cluster sde))

end Entries

section Read

/-- The blocks of a cluster, as long as there is something to read. The numbers `left` and
`index` are those of the loops; the last `index` comes with the bytes. -/
def read_blocks (d : BlockDevice) (stop : Nat) : List Nat → (left index : Nat) →
    List UInt8 × Nat
  | [], _, index => ([], index)
  | block_id :: ids, left, index =>
    if left ≤ index ∧ index < left + BLOCK_SIZE ∧ index < stop then
      let offset_in_block := index - left
      let len := min (BLOCK_SIZE - offset_in_block) (stop - index)
      let bytes := List.ofFn ((d block_id).slice offset_in_block len)
      if stop ≤ index + len then (bytes, index + len)
      else
        let rest := read_blocks d stop ids (left + BLOCK_SIZE) (index + len)
        (bytes ++ rest.1, rest.2)
    else read_blocks d stop ids (left + BLOCK_SIZE) index

/-- The blocks of a cluster. -/
def blocks_of (bpb : BIOSParameterBlock) (cluster_offset_in_disk : Nat) : List Nat :=
  List.range' (cluster_offset_in_disk / BLOCK_SIZE) bpb.sec_per_clus

/-- The loop over the clusters. -/
def read_clusters (bpb : BIOSParameterBlock) (d : BlockDevice) (stop : Nat) :
    List Nat → (left index : Nat) → Except FsPanic (List UInt8)
  | [], _, _ => .ok []
  | curr_cluster :: clusters, left, index =>
    if index < stop then do
      let cluster_offset_in_disk ← bpb.offset curr_cluster
      let (bytes, index) := read_blocks d stop (blocks_of bpb cluster_offset_in_disk) left index
      let rest ← read_clusters bpb d stop clusters (left + bpb.sec_per_clus * BLOCK_SIZE) index
      return bytes ++ rest
    else .ok []

/-- The bytes that `read_at` puts into a buffer of `len` bytes. -/
def read_at (fs : FileSystem) (f : VirtFile) (offset len : Nat) : Except FsPanic (List UInt8) :=
  if len = 0 then .ok []
  else
    let pre_cluster_cnt := offset / fs.bpb.cluster_size
    read_clusters fs.bpb fs.device (offset + len) ((fs.cluster_vec f).drop pre_cluster_cnt)
      (pre_cluster_cnt * fs.bpb.cluster_size) offset

end Read

section Size

/-- `incerase_size`, once the clusters it needs are counted. -/
def add_clusters (fs : FileSystem) (f : VirtFile) (first_cluster need_cluster_cnt : Nat) :
    Except FsPanic FileSystem := do
  match ← fs.alloc_cluster_chain need_cluster_cnt first_cluster with
  | (none, _) => .error .outOfSpace
  | (some start_cluster, fs) =>
    if first_cluster = NEW_VIRT_FILE_CLUSTER then
      (fs.set_cluster_vec f [start_cluster]).set_first_cluster f start_cluster
    else
      match (fs.cluster_vec f).getLast? with
      | none => .error .noCluster
      | some last_cluster =>
        if last_cluster = NEW_VIRT_FILE_CLUSTER then .error (.badCluster last_cluster)
        else fs.set_next_cluster last_cluster start_cluster

def incerase_size (fs : FileSystem) (f : VirtFile) (new_size : Nat) :
    Except FsPanic FileSystem := do
  let first_cluster ← fs.first_cluster f
  let old_size ← fs.file_size f
  if new_size ≤ old_size then return fs
  else
    let cluster_size := fs.bpb.cluster_size
    let cluster_cnt := (new_size + cluster_size - 1) / cluster_size
    let need_cluster_cnt :=
      if first_cluster = NEW_VIRT_FILE_CLUSTER then cluster_cnt
      else cluster_cnt - (fs.cluster_vec f).length
    let fs ← if need_cluster_cnt = 0 then .ok fs
      else fs.add_clusters f first_cluster need_cluster_cnt
    -- the size of a directory is 0
    let fs ← if f.is_dir then .ok fs else fs.set_file_size f new_size
    return fs.set_cluster_vec f (← fs.generate (fs.cluster_vec f))

/-- The blocks of a cluster, as long as there is something to write. -/
def write_blocks (buf : List UInt8) (offset stop : Nat) : List Nat → (d : BlockDevice) →
    (left index : Nat) → BlockDevice × Nat
  | [], d, _, index => (d, index)
  | block_id :: ids, d, left, index =>
    if left ≤ index ∧ index < left + BLOCK_SIZE ∧ index < stop then
      let offset_in_block := index - left
      let len := min (BLOCK_SIZE - offset_in_block) (stop - index)
      let src : Fin len → UInt8 := fun i => buf.getD (index - offset + i) 0
      let d := Function.update d block_id ((d block_id).splice offset_in_block src)
      if stop ≤ index + len then (d, index + len)
      else write_blocks buf offset stop ids d (left + BLOCK_SIZE) (index + len)
    else write_blocks buf offset stop ids d (left + BLOCK_SIZE) index

def write_clusters (bpb : BIOSParameterBlock) (buf : List UInt8) (offset stop : Nat) :
    List Nat → (d : BlockDevice) → (left index : Nat) → Except FsPanic BlockDevice
  | clusters, d, left, index =>
    if index < stop then
      match clusters with
      | [] => .error .noCluster
      | curr_cluster :: clusters => do
        let cluster_offset_in_disk ← bpb.offset curr_cluster
        let (d, index) := write_blocks buf offset stop (blocks_of bpb cluster_offset_in_disk) d
          left index
        write_clusters bpb buf offset stop clusters d (left + bpb.sec_per_clus * BLOCK_SIZE) index
    else .ok d

/-- `write_at` writes all of its buffer, or panics. -/
def write_at (fs : FileSystem) (f : VirtFile) (offset : Nat) (buf : List UInt8) :
    Except FsPanic (Nat × FileSystem) :=
  if buf = [] then .ok (0, fs)
  else do
    let fs ← fs.incerase_size f (offset + buf.length)
    let pre_cluster_cnt := offset / fs.bpb.cluster_size
    let device ← write_clusters fs.bpb buf offset (offset + buf.length)
      ((fs.cluster_vec f).drop pre_cluster_cnt) fs.device
      (pre_cluster_cnt * fs.bpb.cluster_size) offset
    return (buf.length, { fs with device := device })

def clear_content (fs : FileSystem) (f : VirtFile) : Except FsPanic (Nat × FileSystem) := do
  let first_cluster ← fs.first_cluster f
  let all_clusters ←
    if 2 ≤ first_cluster ∧ first_cluster < END_OF_CLUSTER then fs.get_all_cluster_id first_cluster
    else .ok []
  let fs ← fs.dealloc_cluster all_clusters
  let fs ← fs.set_file_size f 0
  return (all_clusters.length, ← fs.set_first_cluster f NEW_VIRT_FILE_CLUSTER)

def shrink_size (fs : FileSystem) (f : VirtFile) (old_size new_size : Nat) :
    Except FsPanic FileSystem := do
  let cluster_size := fs.bpb.cluster_size
  let left := (new_size + cluster_size - 1) / cluster_size
  let right := (old_size + cluster_size - 1) / cluster_size
  let cluster_vec := fs.cluster_vec f
  if right ≤ cluster_vec.length ∨ right ≤ left then
    let release_cluster_vec := (cluster_vec.take right).drop left
    let fs ← (fs.set_cluster_vec f (cluster_vec.take left)).dealloc_cluster release_cluster_vec
    if f.is_dir then .error .wrongType
    else
      let fs ← fs.set_file_size f new_size
      match (cluster_vec.take left).getLast? with
      | none => .error .noCluster
      | some last_clus =>
        if last_clus < 2 then .error (.badCluster last_clus)
        else fs.set_next_cluster last_clus END_OF_CLUSTER
  else .error .outOfBounds

def modify_size (fs : FileSystem) (f : VirtFile) (new_size : Nat) : Except FsPanic FileSystem := do
  let old_size ← fs.file_size f
  if new_size = 0 then Prod.snd <$> fs.clear_content f
  else if old_size ≤ new_size then fs.incerase_size f new_size
  else fs.shrink_size f old_size new_size

/-- All content, and the directory entries. -/
def clear (fs : FileSystem) (f : VirtFile) : Except FsPanic (Nat × FileSystem) := do
  let first_cluster ← fs.first_cluster f
  let fs ← fs.clear_direntry f
  if 2 ≤ first_cluster ∧ first_cluster < END_OF_CLUSTER then
    let all_clusters := fs.cluster_vec f
    let fs := fs.set_cluster_vec f []
    return (all_clusters.length, ← fs.dealloc_cluster all_clusters)
  else return (0, fs)

end Size

end FileSystem

end MyGOS.Fat32
