import MyGOS.Fs.KFile

/-!
# What a file holds

The content of an inode is what reads of it return: a byte of the page cache
where its block was loaded, and a byte of the disk where it was not.
-/

namespace MyGOS.Fs

open Fat32 Outcome

/-- A byte of a file on the disk, as a block of a page is filled with it. -/
def disk_byte (fs : FileSystem) (file : VirtFile) (i : Nat) : Except FsPanic UInt8 := do
  let src ← fs.read_at file (i / BLOCK_SIZE * BLOCK_SIZE) BLOCK_SIZE
  return src.getD (i % BLOCK_SIZE) 0

def disk_content (fs : FileSystem) (file : VirtFile) : Except FsPanic (List UInt8) := do
  (List.range (← fs.file_size file)).mapM (disk_byte fs file)

theorem read_clusters_ok {bpb : BIOSParameterBlock} {d : BlockDevice} {stop : Nat}
    {clusters : List Nat} (h : ∀ cluster ∈ clusters, 2 ≤ cluster) (left index : Nat) :
    ∃ bytes, FileSystem.read_clusters bpb d stop clusters left index = .ok bytes := by
  induction clusters generalizing left index with
  | nil => exact ⟨[], rfl⟩
  | cons cluster clusters ih =>
    obtain ⟨h2, hrest⟩ := List.forall_mem_cons.mp h
    rw [FileSystem.read_clusters]
    split
    · rw [BIOSParameterBlock.offset, if_pos h2]
      simp only [bind, Except.bind]
      generalize FileSystem.read_blocks d stop _ left index = r
      obtain ⟨rest, hr⟩ := ih hrest (left + bpb.sec_per_clus * BLOCK_SIZE) r.2
      exact ⟨r.1 ++ rest, by rw [hr]; rfl⟩
    · exact ⟨[], rfl⟩

/-- A file whose clusters are numbers of clusters can be read. -/
theorem disk_byte_ok {fs : FileSystem} {file : VirtFile}
    (h : ∀ cluster ∈ fs.cluster_vec file, 2 ≤ cluster) (i : Nat) :
    ∃ b, disk_byte fs file i = .ok b := by
  have hdrop : ∀ n, ∀ cluster ∈ (fs.cluster_vec file).drop n, 2 ≤ cluster :=
    fun n cluster hc => h cluster (List.mem_of_mem_drop hc)
  unfold disk_byte FileSystem.read_at
  rw [if_neg (by decide)]
  obtain ⟨bytes, hbytes⟩ := @read_clusters_ok fs.bpb fs.device
    (i / BLOCK_SIZE * BLOCK_SIZE + BLOCK_SIZE) _ (hdrop _) _ (i / BLOCK_SIZE * BLOCK_SIZE)
  simp only
  rw [hbytes]
  exact ⟨_, rfl⟩

theorem disk_byte_of_no_clusters {fs : FileSystem} {file : VirtFile}
    (h : fs.cluster_vec file = []) (i : Nat) : disk_byte fs file i = .ok 0 := by
  unfold disk_byte FileSystem.read_at
  rw [if_neg (by decide), h]
  simp only [List.drop_nil]
  rfl

namespace Inode

def byte (fs : FileSystem) (inode : Inode) (i : Nat) : Except FsPanic UInt8 :=
  match inode.page_cache with
  | none => disk_byte fs inode.file i
  | some c =>
    if (c.get_page i).data_states (i % PAGE_SIZE / BLOCK_SIZE) = .Unload then
      disk_byte fs inode.file i
    else .ok ((c.get_page i).bytes (i % PAGE_SIZE))

def content (fs : FileSystem) (inode : Inode) : Except FsPanic (List UInt8) :=
  (List.range inode.file_size).mapM (inode.byte fs)

theorem byte_of_no_pages (fs : FileSystem) {inode : Inode}
    (h : inode.page_cache = none ∨ inode.page_cache = some ∅) :
    inode.byte fs = disk_byte fs inode.file := by
  funext i
  obtain h | h := h
  · simp [byte, h]
  · simp [byte, h, PageCache.get_page, FilePage.new]

theorem content_eq (fs : FileSystem) {inode : Inode} {size : Nat}
    (h : inode.page_cache = none ∨ inode.page_cache = some ∅)
    (hsize : fs.file_size inode.file = .ok size) (hs : inode.file_size = size) :
    inode.content fs = disk_content fs inode.file := by
  rw [content, disk_content, byte_of_no_pages fs h, hsize, hs]
  rfl

theorem content_eq_nil_iff (fs : FileSystem) (inode : Inode) :
    inode.content fs = .ok [] ↔ inode.file_size = 0 := by
  constructor
  · intro h
    simpa [eq_comm] using mapM_length h
  · intro h
    rw [content, h]
    rfl

end Inode

/-- The content of an inode that is in memory. -/
def FsState.content (s : FsState) (a : Nat) : Except FsPanic (List UInt8) :=
  (s.inodes a).content s.fs

end MyGOS.Fs
