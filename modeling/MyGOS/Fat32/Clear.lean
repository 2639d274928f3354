import MyGOS.Fat32.Lookup

/-!
# A file that was cleared has size 0

Its entry is zeroed first. What `clear` writes afterwards are free FAT entries,
which are zeros, and the free count of the `FSInfo` sector, which is not where
an aligned entry has its size.
-/

namespace MyGOS.Fat32

open Outcome

namespace Dirent

theorem file_size_eq_zero {e : Dirent} (h : ∀ i, 28 ≤ i → e i = 0) : e.file_size = 0 := by
  have h28 : e.le_u16 28 = 0 := by simp [le_u16, h 28, h 29]
  have h30 : e.le_u16 30 = 0 := by simp [le_u16, h 30, h 31]
  simp [file_size, h28, h30]

theorem delete_size (e : Dirent) (i : Fin 32) (hi : 28 ≤ i) : e.delete i = 0 := by
  have h0 : i ≠ 0 := by omega
  have h20 : i ≠ 20 := by omega
  have h21 : i ≠ 21 := by omega
  have h26 : i ≠ 26 := by omega
  have h27 : i ≠ 27 := by omega
  simp [delete, set_first_cluster, set_file_size, h0, h20, h21, h26, h27, hi]

end Dirent

theorem BlockDevice.modify_zero {d d' : BlockDevice} {block_id offset size : Nat}
    {g : (Fin size → UInt8) → Fin size → UInt8} (h : d.modify block_id offset g = .ok d')
    (hg : ∀ v i, g v i = 0) {id j : Nat} (hz : d id j = 0) : d' id j = 0 := by
  obtain ⟨_, rfl⟩ := BlockDevice.modify_eq_ok.mp h
  by_cases hid : id = block_id
  · subst hid
    rw [Function.update_self]
    unfold Block.splice
    split
    · exact hg _ _
    · exact hz
  · rwa [Function.update_of_ne hid]

namespace FileSystem

variable {fs fs' : FileSystem} {f : VirtFile}

/-- Where `file_size` reads a size of 0. -/
inductive SizeZero (fs : FileSystem) (f : VirtFile) : Prop where
  | root : f.sde_pos.cluster = ROOT_DIR_ENTRY_CLUSTER → fs.root_dir_entry.file_size = 0 →
      SizeZero fs f
  | disk (block_id offset : Nat) : f.sde_pos.cluster ≠ ROOT_DIR_ENTRY_CLUSTER →
      fs.entry_pos f.sde_pos = .ok (block_id, offset) → BlockCache.InRange offset 32 →
      (∀ i, 28 ≤ i → i < 32 → fs.device block_id (offset + i) = 0) → SizeZero fs f

theorem SizeZero.file_size (h : SizeZero fs f) : fs.file_size f = .ok 0 := by
  unfold FileSystem.file_size read_sde
  cases h with
  | root hroot hsize => simp [hroot, hsize, Functor.map, Except.map]
  | disk block_id offset hroot hpos hr hzero =>
    have hread : fs.device.read block_id offset 32 = .ok ((fs.device block_id).slice offset 32) :=
      BlockDevice.read_eq_ok.mpr ⟨hr, rfl⟩
    rw [if_neg hroot, hpos]
    simp only [bind, Except.bind, hread, Functor.map, Except.map, Except.ok.injEq]
    exact Dirent.file_size_eq_zero fun i hi => hzero i hi i.isLt

/-- Nothing that a size of 0 depends on differs. -/
theorem SizeZero.mono (h : SizeZero fs f) (hb : fs'.bpb = fs.bpb)
    (hr : fs'.root_dir_entry = fs.root_dir_entry)
    (hd : ∀ block_id offset, fs.entry_pos f.sde_pos = .ok (block_id, offset) → ∀ i, 28 ≤ i →
      i < 32 → fs.device block_id (offset + i) = 0 → fs'.device block_id (offset + i) = 0) :
    SizeZero fs' f := by
  cases h with
  | root hroot hsize => exact .root hroot (hr ▸ hsize)
  | disk block_id offset hroot hpos hrange hzero =>
    apply SizeZero.disk block_id offset hroot _ hrange
    · exact fun i h28 h32 => hd block_id offset hpos i h28 h32 (hzero i h28 h32)
    · rw [← hpos, entry_pos, entry_pos, hb]

theorem modify_sde_delete (h : fs.modify_sde f Dirent.delete = .ok fs') : SizeZero fs' f := by
  unfold modify_sde at h
  split at h
  · next hroot =>
    cases h
    exact .root hroot (Dirent.file_size_eq_zero (Dirent.delete_size _))
  · next hroot =>
    obtain ⟨⟨block_id, offset⟩, hpos, h⟩ := bind_eq_ok.mp h
    obtain ⟨device, hd, h⟩ := bind_eq_ok.mp h
    cases h
    obtain ⟨hr, hd⟩ := BlockDevice.modify_eq_ok.mp hd
    have hpos' : entry_pos { fs with device := device } f.sde_pos = .ok (block_id, offset) := hpos
    apply SizeZero.disk block_id offset hroot hpos' hr
    intro i h28 h32
    subst hd
    have hin : offset ≤ offset + i ∧ offset + i < offset + 32 := by omega
    simp only [Function.update_self, Block.splice, dif_pos hin]
    apply Dirent.delete_size
    show 28 ≤ offset + i - offset
    omega

theorem free_cluster_zero {cluster : Nat} (h : fs.free_cluster cluster = .ok fs')
    (hz : SizeZero fs f) : SizeZero fs' f ∧ fs'.bpb = fs.bpb := by
  unfold free_cluster set_next_cluster at h
  obtain ⟨fs₁, h₁, h⟩ := bind_eq_ok.mp h
  obtain ⟨device, hd, h₁⟩ := bind_eq_ok.mp h₁
  cases h₁
  cases h
  constructor
  · apply hz.mono
    · rfl
    · rfl
    · intro block_id offset _ i _ _ hzero
      exact BlockDevice.modify_zero hd (fun _ _ => by simp [to_le_u32, FREE_CLUSTER]) hzero
  · rfl

theorem free_clusters_zero {clusters : List Nat}
    (h : clusters.foldlM free_cluster fs = .ok fs') (hz : SizeZero fs f) :
    SizeZero fs' f ∧ fs'.bpb = fs.bpb := by
  have hstep : ∀ (x : Nat) (xs : List Nat) (s t : FileSystem),
      SizeZero s f ∧ s.bpb = fs.bpb → s.free_cluster x = .ok t → SizeZero t f ∧ t.bpb = fs.bpb := by
    intro x xs s t hs ht
    obtain ⟨hz, hb⟩ := free_cluster_zero ht hs.1
    exact ⟨hz, hb.trans hs.2⟩
  exact foldlM_ok (I := fun _ t => SizeZero t f ∧ t.bpb = fs.bpb) hstep ⟨hz, rfl⟩ h

/-- The offset in its block of an entry that is aligned. -/
theorem entry_pos_dvd (hs : fs.bpb.Sectors) {pos : DirEntryPos}
    (ha : DIRENT_SIZE ∣ pos.offset_in_cluster) {block_id offset : Nat}
    (h : fs.entry_pos pos = .ok (block_id, offset)) : DIRENT_SIZE ∣ offset := by
  unfold entry_pos at h
  split at h
  · obtain ⟨cluster_offset, hc, h⟩ := bind_eq_ok.mp h
    cases h
    have hb : DIRENT_SIZE ∣ BLOCK_SIZE := by decide
    apply (Nat.dvd_mod_iff hb).mpr
    exact Nat.dvd_add ha (hb.trans (hs.offset_dvd hc))
  · cases h

theorem set_free_clusters_zero (hs : fs.bpb.Sectors)
    (ha : DIRENT_SIZE ∣ f.sde_pos.offset_in_cluster) {cnt : Nat}
    (h : fs.set_free_clusters cnt = .ok fs') (hz : SizeZero fs f) : SizeZero fs' f := by
  unfold set_free_clusters at h
  obtain ⟨device, hd, h⟩ := bind_eq_ok.mp h
  obtain ⟨_, hd⟩ := BlockDevice.modify_eq_ok.mp hd
  cases h
  apply hz.mono
  · rfl
  · rfl
  · intro block_id offset hpos i h28 h32 hzero
    obtain ⟨k, rfl⟩ := entry_pos_dvd hs ha hpos
    show device block_id _ = 0
    rw [hd]
    by_cases hid : block_id = fs.bpb.fs_info
    · subst hid
      rw [Function.update_self]
      -- the free count is in the middle of an aligned entry
      have hne : ¬ (488 ≤ DIRENT_SIZE * k + i ∧ DIRENT_SIZE * k + i < 492) := by
        unfold DIRENT_SIZE
        omega
      unfold Block.splice
      split
      · simpa [hne, Block.slice] using hzero
      · exact hzero
    · rwa [Function.update_of_ne hid]

theorem dealloc_cluster_zero (hs : fs.bpb.Sectors)
    (ha : DIRENT_SIZE ∣ f.sde_pos.offset_in_cluster) {clusters : List Nat}
    (h : fs.dealloc_cluster clusters = .ok fs') (hz : SizeZero fs f) : SizeZero fs' f := by
  unfold dealloc_cluster at h
  split at h
  · cases h
    exact hz
  · obtain ⟨fs₁, h₁, h⟩ := bind_eq_ok.mp h
    obtain ⟨hz, hb⟩ := free_clusters_zero h₁ hz
    exact set_free_clusters_zero (hb ▸ hs) ha h hz

theorem modify_entry_bpb {pos : DirEntryPos} {g : Dirent → Dirent}
    (h : fs.modify_entry pos g = .ok fs') : fs'.bpb = fs.bpb := by
  obtain ⟨_, _, h⟩ := bind_eq_ok.mp h
  obtain ⟨_, _, h⟩ := bind_eq_ok.mp h
  cases h
  rfl

theorem clear_direntry_zero (h : fs.clear_direntry f = .ok fs') :
    SizeZero fs' f ∧ fs'.bpb = fs.bpb := by
  obtain ⟨fs₁, h₁, h⟩ := bind_eq_ok.mp h
  have hb₁ : fs₁.bpb = fs.bpb :=
    foldlM_ok (I := fun _ t => t.bpb = fs.bpb) (fun _ _ _ _ hb h => (modify_entry_bpb h).trans hb)
      rfl h₁
  constructor
  · exact modify_sde_delete h
  · unfold modify_sde at h
    split at h
    · cases h
      exact hb₁
    · exact (modify_entry_bpb h).trans hb₁

theorem clear_file_size (hs : fs.bpb.Sectors) (ha : DIRENT_SIZE ∣ f.sde_pos.offset_in_cluster)
    {n : Nat} (h : fs.clear f = .ok (n, fs')) : fs'.file_size f = .ok 0 := by
  obtain ⟨first_cluster, _, h⟩ := bind_eq_ok.mp h
  obtain ⟨fs₁, h₁, h⟩ := bind_eq_ok.mp h
  obtain ⟨hz, hb⟩ := clear_direntry_zero h₁
  split at h
  · obtain ⟨fs₂, h₂, h⟩ := bind_eq_ok.mp h
    cases h
    have hz₁ : SizeZero (fs₁.set_cluster_vec f []) f := hz.mono rfl rfl fun _ _ _ _ _ _ h => h
    have hs₁ : (fs₁.set_cluster_vec f []).bpb.Sectors := hb.symm ▸ hs
    exact (dealloc_cluster_zero hs₁ ha h₂ hz₁).file_size
  · cases h
    exact hz.file_size

end FileSystem

end MyGOS.Fat32
