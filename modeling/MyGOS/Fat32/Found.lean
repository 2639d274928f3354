import MyGOS.Fat32.Append

/-!
# The handles that a search returns

A handle is made from a record: its place, those of the long entries before it,
and the chain that starts at its first cluster.
-/

namespace MyGOS.Fat32

open Outcome

namespace FileSystem

/-- The clusters of an entry are a chain of the FAT. -/
structure EntryChain (fs : FileSystem) (d : Disk) (e : Dirent) (clusters : List Nat) : Prop where
  chain : d.Chain clusters
  data : ∀ c ∈ clusters, fs.bpb.InData c
  first_cluster : e.first_cluster = clusters.headD NEW_VIRT_FILE_CLUSTER

variable {fs fs' : FileSystem} {d : Disk} {dir f : VirtFile} {clusters chain : List Nat}
  {k : Nat} {name : Name}

theorem EntryChain.generate {e : Dirent} (h : EntryChain fs d e chain) (hs : Sees fs d) :
    fs.generate (new_chain e.first_cluster) = .ok chain := by
  rw [h.first_cluster]
  cases chain with
  | nil => rfl
  | cons c chain =>
    have hc := (h.data c List.mem_cons_self).1
    rw [List.headD_cons, new_chain, if_pos hc]
    exact @generate_eq fs d hs.layout hs.shows_disk chain c [] h.chain h.data

section Places

variable (h : Owned fs d dir clusters) (hk : k < record_cnt fs.bpb.cluster_size clusters)

include h hk

/-- The cluster that has a record. -/
theorem Owned.record_cluster : (record_pos fs.bpb.cluster_size clusters k).cluster ∈ clusters := by
  have hin := h.sees.layout.record_lt.mp hk
  have hlt : DIRENT_SIZE * k / fs.bpb.cluster_size < clusters.length := by
    apply Nat.div_lt_of_lt_mul
    unfold DIRENT_SIZE at hin ⊢
    omega
  rw [record_pos, List.getD_eq_getElem _ _ hlt]
  exact List.getElem_mem hlt

theorem Owned.record_entry_pos : EntryPos fs.bpb (record_pos fs.bpb.cluster_size clusters k) where
  data := h.chained.data _ (h.record_cluster hk)
  aligned := (Nat.dvd_mod_iff h.sees.layout.dirent_dvd).mpr (Nat.dvd_mul_right ..)
  offset_lt := Nat.mod_lt _ h.sees.layout.cluster_size_pos

theorem Owned.dirent_cluster_pos :
    fs.dirent_cluster_pos dir (DIRENT_SIZE * k) = .ok (record_pos fs.bpb.cluster_size clusters k) := by
  have hmem := h.record_cluster hk
  have hin := h.sees.layout.record_lt.mp hk
  have hlt : DIRENT_SIZE * k / fs.bpb.cluster_size < clusters.length := by
    apply Nat.div_lt_of_lt_mul
    unfold DIRENT_SIZE at hin ⊢
    omega
  rw [FileSystem.dirent_cluster_pos, h.sees.first_cluster h.sde_pos, h.first_cluster]
  cases clusters with
  | nil => exact absurd hmem List.not_mem_nil
  | cons c clusters =>
    simp only [bind, Except.bind, List.headD_cons]
    rw [get_cluster_at_eq h.sees.layout h.sees.shows_disk h.chained.chain h.chained.data,
      List.getElem?_eq_getElem hlt]
    rw [record_pos, List.getD_eq_getElem _ _ hlt]
    rfl

theorem Owned.generate_cluster_chain : fs.generate_cluster_chain dir (DIRENT_SIZE * k) =
    fs.generate (new_chain (d.record fs.bpb.cluster_size clusters k).first_cluster) := by
  have hL := h.sees.layout
  have hpos := h.record_entry_pos hk
  have hmod : fs.bpb.first_sector_of_cluster (record_pos fs.bpb.cluster_size clusters k).cluster *
      BLOCK_SIZE % BLOCK_SIZE = 0 := Nat.mul_mod_left ..
  have hblock : fs.dirent_block_pos dir (DIRENT_SIZE * k) =
      .ok (fs.bpb.first_sector_of_cluster (record_pos fs.bpb.cluster_size clusters k).cluster +
        (record_pos fs.bpb.cluster_size clusters k).offset_in_cluster / BLOCK_SIZE,
      (record_pos fs.bpb.cluster_size clusters k).offset_in_cluster % BLOCK_SIZE) := by
    rw [dirent_block_pos, h.dirent_cluster_pos hk]
    simp only [bind, Except.bind]
    rw [hL.offset hpos.data.1]
    simp only [hmod, if_true, Nat.mul_div_cancel _ (by decide : 0 < BLOCK_SIZE)]
    rfl
  rw [FileSystem.generate_cluster_chain, hblock]
  simp only [bind, Except.bind]
  rw [read_entry_eq hL h.sees.shows_disk hpos, d.entry_record_pos hL]

end Places

/-- What a search makes of the records that it found. -/
theorem Owned.found (h : Owned fs d dir clusters) {j cnt : Nat}
    (hj : j + cnt < record_cnt fs.bpb.cluster_size clusters) (name : Name) (sde : Dirent)
    (hchain : EntryChain fs d (d.record fs.bpb.cluster_size clusters (j + cnt)) chain) :
    fs.found dir name (DIRENT_SIZE * j) cnt sde =
      .ok (fs.new_file name (record_pos fs.bpb.cluster_size clusters (j + cnt))
        ((List.range cnt).map fun i => record_pos fs.bpb.cluster_size clusters (j + i)) chain sde) := by
  have hoff : ∀ i, DIRENT_SIZE * j + i * DIRENT_SIZE = DIRENT_SIZE * (j + i) := by
    intro i
    rw [Nat.mul_add, Nat.mul_comm i]
  have hmap : (List.range cnt).mapM (fun i =>
      fs.dirent_cluster_pos dir (DIRENT_SIZE * j + i * DIRENT_SIZE)) =
      .ok ((List.range cnt).map fun i => record_pos fs.bpb.cluster_size clusters (j + i)) := by
    apply mapM_eq_ok
    intro i hi
    rw [hoff]
    have hi := List.mem_range.mp hi
    exact h.dirent_cluster_pos (by omega)
  rw [FileSystem.found, hoff, h.dirent_cluster_pos hj]
  simp only [bind, Except.bind]
  rw [hmap]
  simp only
  rw [h.generate_cluster_chain hj, hchain.generate h.sees]
  rfl

section NewFile

variable {sde_pos : DirEntryPos} {lde_pos : List DirEntryPos} {sde : Dirent}
  {cluster_vec : List Nat}

theorem Sees.new_file (h : Sees fs d) :
    Sees (fs.new_file name sde_pos lde_pos cluster_vec sde).2 d :=
  ⟨⟨h.layout, h.shows_disk, h.recycled, h.reserved⟩, h.root⟩

/-- A handle that is not the new one keeps its clusters. -/
theorem Owned.new_file (h : Owned fs d f clusters) (hlt : f.cluster_chain < fs.next_chain) :
    Owned (fs.new_file name sde_pos lde_pos cluster_vec sde).2 d f clusters where
  sees := h.sees.new_file
  sde_pos := h.sde_pos
  chained := ⟨(Function.update_of_ne hlt.ne ..).trans h.chained.vec, h.chained.chain, h.chained.data⟩
  apart := h.apart
  in_use := h.in_use
  first_cluster := h.first_cluster
  file_size := h.file_size
  dir_size := h.dir_size

/-- The handle of a record. -/
theorem Owned.record_handle (h : Owned fs d dir clusters)
    (hk : k < record_cnt fs.bpb.cluster_size clusters)
    (hchain : EntryChain fs d (d.record fs.bpb.cluster_size clusters k) chain)
    (hdisjoint : ∀ c ∈ chain, c ∉ clusters)
    (hsize : (d.record fs.bpb.cluster_size clusters k).file_size ≤
      fs.bpb.cluster_size * chain.length)
    (hdir : sde.attr = ATTR_DIRECTORY →
      (d.record fs.bpb.cluster_size clusters k).file_size = 0) :
    Owned (fs.new_file name (record_pos fs.bpb.cluster_size clusters k) lde_pos chain sde).2 d
      (fs.new_file name (record_pos fs.bpb.cluster_size clusters k) lde_pos chain sde).1 chain := by
  have hcluster := h.record_cluster hk
  have hentry := d.entry_record_pos h.sees.layout clusters k
  have hsde : (fs.new_file name (record_pos fs.bpb.cluster_size clusters k) lde_pos chain
      sde).1.sde_pos = record_pos fs.bpb.cluster_size clusters k := rfl
  constructor
  · exact h.sees.new_file
  · exact .disk (h.record_entry_pos hk)
  · exact ⟨Function.update_self .., hchain.chain, hchain.data⟩
  · rw [hsde]
    exact fun hmem => hdisjoint _ hmem hcluster
  · rw [hsde]
    exact h.next_ne_free _ hcluster
  · rw [hsde, hentry]
    exact hchain.first_cluster
  · rw [hsde, hentry]
    exact hsize
  · rw [hsde, hentry]
    intro his
    apply hdir
    by_contra hne
    have hfile : (fs.new_file name (record_pos fs.bpb.cluster_size clusters k) lde_pos chain
        sde).1.attr = .File := if_neg hne
    rw [VirtFile.is_dir, hfile] at his
    cases his

end NewFile

/-- The handle of a name whose records start with number `k`. -/
def handle (fs : FileSystem) (clusters : List Nat) (name : Name) (k : Nat) (chain : List Nat)
    (sde : Dirent) : VirtFile × FileSystem :=
  fs.new_file (if is_long name then name else name.to_ascii_uppercase)
    (record_pos fs.bpb.cluster_size clusters (k + lde_cnt name))
    ((List.range (lde_cnt name)).map fun i => record_pos fs.bpb.cluster_size clusters (k + i)) chain sde

section ByName

variable (h : Owned fs d dir clusters) (hdir : dir.is_dir)

include h hdir

theorem Owned.find_by_name_none
    (hnone : lookup (d.record fs.bpb.cluster_size clusters)
      (record_cnt fs.bpb.cluster_size clusters) name = none) :
    fs.find_by_name dir name = .ok (none, fs) := by
  rw [h.find_by_name hdir, hnone]

/-- The handle that a search returns. -/
theorem Owned.find_by_name_some
    (hsome : lookup (d.record fs.bpb.cluster_size clusters)
      (record_cnt fs.bpb.cluster_size clusters) name = some k) {sde : Dirent}
    (hsde : d.record fs.bpb.cluster_size clusters (k + lde_cnt name) = sde)
    (hchain : EntryChain fs d sde chain) : fs.find_by_name dir name =
      .ok (some (fs.handle clusters name k chain sde).1, (fs.handle clusters name k chain sde).2) := by
  have hlt : k + lde_cnt name < record_cnt fs.bpb.cluster_size clusters := by
    have hmem := List.mem_range.mp (List.mem_of_find?_eq_some hsome)
    omega
  rw [← hsde] at hchain
  rw [h.find_by_name hdir, hsome]
  simp only
  rw [h.found hlt _ _ hchain, hsde]
  rfl

/-- The kind of a file that is found is that of its record. -/
theorem Owned.find_by_name_attr
    (hsome : lookup (d.record fs.bpb.cluster_size clusters)
      (record_cnt fs.bpb.cluster_size clusters) name = some k)
    {option : Option VirtFile} (hfind : fs.find_by_name dir name = .ok (option, fs')) :
    ∃ f, option = some f ∧ f.attr =
      if (d.record fs.bpb.cluster_size clusters (k + lde_cnt name)).attr = ATTR_DIRECTORY then .Dir
      else .File := by
  rw [h.find_by_name hdir, hsome] at hfind
  obtain ⟨⟨f, fs₁⟩, hfound, hok⟩ := bind_eq_ok.mp hfind
  cases hok
  unfold FileSystem.found at hfound
  obtain ⟨sde_pos, -, hfound⟩ := bind_eq_ok.mp hfound
  obtain ⟨lde_pos, -, hfound⟩ := bind_eq_ok.mp hfound
  obtain ⟨clus_chain, -, hfound⟩ := bind_eq_ok.mp hfound
  cases hfound
  exact ⟨_, rfl, rfl⟩

theorem Owned.find_by_name_none_iff {option : Option VirtFile}
    (hfind : fs.find_by_name dir name = .ok (option, fs')) :
    option = none ↔ lookup (d.record fs.bpb.cluster_size clusters)
      (record_cnt fs.bpb.cluster_size clusters) name = none := by
  cases hlookup : lookup (d.record fs.bpb.cluster_size clusters)
      (record_cnt fs.bpb.cluster_size clusters) name with
  | none =>
    rw [h.find_by_name_none hdir hlookup] at hfind
    cases hfind
    exact iff_of_true rfl rfl
  | some k =>
    obtain ⟨f, rfl, -⟩ := h.find_by_name_attr hdir hlookup hfind
    exact iff_of_false (Option.some_ne_none f) (Option.some_ne_none k)

end ByName

section Shown

theorem Sees.disk (h : Sees fs d) : Sees fs fs.disk := by
  have hs := h.shows_disk
  refine ⟨⟨h.layout, fs.shows_disk, ?_, ?_⟩, fs.disk_root⟩
  · exact h.recycled.congr fun c hc => hs.next c (h.recycled.data c hc).2
  · exact ⟨(hs.next 0 (by omega)).trans_ne h.reserved.1, (hs.next 1 (by omega)).trans_ne h.reserved.2⟩

theorem Sees.entry_disk (h : Sees fs d) (hpos : SdePos fs.bpb f.sde_pos) :
    fs.disk.entry f.sde_pos = d.entry f.sde_pos :=
  Except.ok.inj ((h.disk.read_sde hpos).symm.trans (h.read_sde hpos))

/-- What is known of the disk is known of what the device has. -/
theorem Owned.disk (h : Owned fs d f clusters) : Owned fs fs.disk f clusters := by
  have hs := h.sees.shows_disk
  apply h.keep h.sees.disk rfl h.chained.vec
  · exact fun c hc => hs.next c (h.chained.data c hc).2
  · have hlt : f.sde_pos.cluster < fs.bpb.data_cluster_cnt + 2 := by
      cases h.sde_pos with
      | root hroot =>
        rw [hroot]
        exact Nat.succ_pos _
      | disk hpos => exact hpos.data.2
    exact (hs.next _ hlt).trans_ne h.in_use
  · exact h.sees.entry_disk h.sde_pos

theorem Owned.record_disk (h : Owned fs d dir clusters)
    (hk : k < record_cnt fs.bpb.cluster_size clusters) :
    fs.disk.record fs.bpb.cluster_size clusters k = d.record fs.bpb.cluster_size clusters k := by
  have hL := h.sees.layout
  rw [← fs.disk.entry_record_pos hL, ← d.entry_record_pos hL]
  exact h.sees.entry_disk (f := ⟨[], record_pos fs.bpb.cluster_size clusters k, [], 0, .File⟩)
    (.disk (h.record_entry_pos hk))

end Shown

end FileSystem

end MyGOS.Fat32
