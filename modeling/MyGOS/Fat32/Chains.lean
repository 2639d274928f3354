import MyGOS.Fat32.Beside

/-!
# The chains in memory

The allocator reads and writes the FAT; what it does is the same whatever chains
the handles have in memory.
-/

namespace MyGOS.Fat32

open Outcome

namespace FileSystem

/-- The same file system with other chains in memory. -/
def rechained (chains : Nat → List Nat) (fs : FileSystem) : FileSystem :=
  { fs with chains := chains }

section Chains

variable (fs : FileSystem) (chains : Nat → List Nat)

theorem scan_blank_chains (fuel cluster : Nat) :
    (fs.rechained chains).scan_blank fuel cluster = fs.scan_blank fuel cluster := by
  induction fuel generalizing cluster with
  | zero => rfl
  | succ fuel ih =>
    rw [scan_blank, scan_blank]
    simp only [ih]
    rfl

theorem get_blank_cluster_chains (start : Nat) :
    (fs.rechained chains).get_blank_cluster start =
      Prod.map id (rechained chains) <$> fs.get_blank_cluster start := by
  have hfind : (fs.rechained chains).find_blank_cluster start = fs.find_blank_cluster start := by
    rw [find_blank_cluster, find_blank_cluster, scan_blank_chains]
  have hsame : (fs.rechained chains).recycled_cluster = fs.recycled_cluster := rfl
  unfold get_blank_cluster
  rw [hfind, hsame]
  cases fs.recycled_cluster with
  | cons cluster recycled_cluster => rfl
  | nil =>
    cases fs.find_blank_cluster start with
    | error e => rfl
    | ok cluster => rfl

/-- A device that is put into the file system. -/
theorem put_device_chains (put : FileSystem → BlockDevice → FileSystem) {x : Except FsPanic BlockDevice}
    (h : ∀ device, put (fs.rechained chains) device = (put fs device).rechained chains) :
    (do return put (fs.rechained chains) (← x)) =
      rechained chains <$> (do return put fs (← x)) := by
  cases x with
  | error e => rfl
  | ok device => exact congrArg Except.ok (h device)

theorem set_next_cluster_chains (cluster next_cluster : Nat) :
    (fs.rechained chains).set_next_cluster cluster next_cluster =
      rechained chains <$> fs.set_next_cluster cluster next_cluster :=
  put_device_chains fs chains (fun fs device => { fs with device := device }) fun _ => rfl

theorem clear_block_chains (block_id : Nat) : (fs.rechained chains).clear_block block_id =
    rechained chains <$> fs.clear_block block_id :=
  put_device_chains fs chains (fun fs device => { fs with device := device }) fun _ => rfl

theorem set_free_clusters_chains (cnt : Nat) : (fs.rechained chains).set_free_clusters cnt =
    rechained chains <$> fs.set_free_clusters cnt :=
  put_device_chains fs chains
    (fun fs device => { fs with device := device, free_cluster_cnt := cnt }) fun _ => rfl

theorem clear_cluster_chains (cluster : Nat) : (fs.rechained chains).clear_cluster cluster =
    rechained chains <$> fs.clear_cluster cluster := by
  have hblocks : ∀ bpb : BIOSParameterBlock, ∀ blocks : List Nat, ∀ fs : FileSystem,
      blocks.foldlM (fun fs i => fs.clear_block (bpb.first_sector_of_cluster cluster + i))
        (fs.rechained chains) = rechained chains <$>
      blocks.foldlM (fun fs i => fs.clear_block (bpb.first_sector_of_cluster cluster + i)) fs := by
    intro bpb blocks
    induction blocks with
    | nil => exact fun _ => rfl
    | cons i blocks ih =>
      intro fs
      rw [List.foldlM_cons, List.foldlM_cons, clear_block_chains]
      exact map_bind_map ih
  exact hblocks fs.bpb (List.range fs.bpb.sec_per_clus) fs

theorem take_cluster_chains (start : Nat) : (fs.rechained chains).take_cluster start =
    Prod.map id (rechained chains) <$> fs.take_cluster start := by
  rw [take_cluster, take_cluster, get_blank_cluster_chains]
  apply map_bind_map
  rintro ⟨cluster, fs⟩
  simp only [Prod.map, id]
  split
  · rfl
  · rw [clear_cluster_chains]
    exact map_bind_map fun _ => rfl

theorem append_clusters_chains (num curr : Nat) :
    append_clusters num (fs.rechained chains) curr =
      Prod.map id (rechained chains) <$> append_clusters num fs curr := by
  induction num generalizing fs curr with
  | zero => rfl
  | succ num ih =>
    rw [append_clusters, append_clusters, take_cluster_chains]
    apply map_bind_map
    rintro ⟨cluster, fs⟩
    simp only [Prod.map, id, set_next_cluster_chains]
    exact map_bind_map fun fs => ih fs cluster

/-- The allocator does not look at the chains in memory. -/
theorem alloc_cluster_chain_chains (num start : Nat) :
    (fs.rechained chains).alloc_cluster_chain num start =
      Prod.map id (rechained chains) <$> fs.alloc_cluster_chain num start := by
  unfold alloc_cluster_chain
  change (if fs.free_cluster_cnt < num then _ else _) = _
  split
  · rfl
  · rw [take_cluster_chains]
    apply map_bind_map
    rintro ⟨first, fs'⟩
    simp only [Prod.map, id, append_clusters_chains]
    apply map_bind_map
    rintro ⟨last, fs'⟩
    simp only [Prod.map, id, set_next_cluster_chains]
    apply map_bind_map
    intro fs'
    rw [set_free_clusters_chains]
    exact map_bind_map fun _ => rfl

theorem walk_chain_chains (fuel cluster : Nat) :
    (fs.rechained chains).walk_chain fuel cluster = fs.walk_chain fuel cluster := by
  induction fuel generalizing cluster with
  | zero => rfl
  | succ fuel ih =>
    rw [walk_chain, walk_chain]
    simp only [ih]
    rfl

theorem dealloc_cluster_chains (clusters : List Nat) :
    (fs.rechained chains).dealloc_cluster clusters =
      rechained chains <$> fs.dealloc_cluster clusters := by
  have hfold : ∀ fs : FileSystem, clusters.foldlM free_cluster (fs.rechained chains) =
      rechained chains <$> clusters.foldlM free_cluster fs := by
    induction clusters with
    | nil => exact fun _ => rfl
    | cons c clusters ih =>
      intro fs
      rw [List.foldlM_cons, List.foldlM_cons, free_cluster, free_cluster, set_next_cluster_chains,
        bind_assoc, bind_assoc]
      exact map_bind_map fun fs => ih (fs.recycle c)
  unfold dealloc_cluster
  split
  · rfl
  · rw [hfold]
    exact map_bind_map fun fs' => set_free_clusters_chains fs' chains _

theorem modify_sde_chains (f : VirtFile) (g : Dirent → Dirent) :
    (fs.rechained chains).modify_sde f g = rechained chains <$> fs.modify_sde f g := by
  unfold modify_sde
  split
  · rfl
  · unfold modify_entry
    change (fs.entry_pos f.sde_pos >>= _) = _
    cases fs.entry_pos f.sde_pos with
    | error e => rfl
    | ok pos => exact put_device_chains fs chains (fun fs device => { fs with device := device }) fun _ => rfl

theorem clear_content_chains (f : VirtFile) : (fs.rechained chains).clear_content f =
    Prod.map id (rechained chains) <$> fs.clear_content f := by
  have hall : ∀ cluster, (fs.rechained chains).get_all_cluster_id cluster =
      fs.get_all_cluster_id cluster := walk_chain_chains fs chains WALK_LIMIT
  have hrest : ∀ clusters : List Nat, (do
      let fs ← (fs.rechained chains).dealloc_cluster clusters
      let fs ← fs.set_file_size f 0
      return (clusters.length, ← fs.set_first_cluster f NEW_VIRT_FILE_CLUSTER)) =
    Prod.map id (rechained chains) <$> (do
      let fs ← fs.dealloc_cluster clusters
      let fs ← fs.set_file_size f 0
      return (clusters.length, ← fs.set_first_cluster f NEW_VIRT_FILE_CLUSTER)) := by
    intro clusters
    rw [dealloc_cluster_chains]
    apply map_bind_map
    intro fs₁
    rw [set_file_size, set_file_size, modify_sde_chains]
    apply map_bind_map
    intro fs₂
    rw [set_first_cluster, set_first_cluster, modify_sde_chains]
    exact map_bind_map fun _ => rfl
  unfold clear_content
  change (fs.first_cluster f >>= _) = _
  cases fs.first_cluster f with
  | error e => rfl
  | ok first_cluster =>
    simp only [hall, ok_bind]
    split
    · cases fs.get_all_cluster_id first_cluster with
      | error e => rfl
      | ok clusters => exact hrest clusters
    · exact hrest []

end Chains

end FileSystem

end MyGOS.Fat32
