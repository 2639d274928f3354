import MyGOS.Fat32.Slack
import MyGOS.Fat32.Walkers
import MyGOS.Fs.FdTable
import MyGOS.Fs.DirtyPages
import MyGOS.Fs.FlatFile

/-!
# Truncating an open file

`truncate` changes the size of the file on the disk. The inode keeps its own
size, which is what reads and `fstat` go by, and the page cache its blocks.
-/

namespace MyGOS

namespace Fat32.FileSystem

/-- The size, the block size, the number of blocks, and whether it is a directory. -/
def stat (fs : FileSystem) (f : VirtFile) : Except FsPanic (Nat × Nat × Nat × Bool) := do
  let sde ← fs.read_sde f
  let cluster_cnt ← fs.cluster_chain_len (Dirent.first_cluster sde)
  let block_cnt := cluster_cnt * fs.bpb.sec_per_clus
  let file_size := if f.is_dir then cluster_cnt * fs.bpb.cluster_size else Dirent.file_size sde
  return (file_size, BLOCK_SIZE, block_cnt, f.is_dir)

/-- A byte of the file, as a page is filled with it. -/
theorem Owned.disk_byte {fs : FileSystem} {d : Disk} {f : VirtFile} {clusters : List Nat}
    (h : Owned fs d f clusters) (k : Nat) : Fs.disk_byte fs f k =
      .ok (if k < fs.bpb.cluster_size * clusters.length then
        d.content fs.bpb.cluster_size clusters k else 0) := by
  have hread := read_at_eq h.sees.layout h.sees.shows_disk (f := f)
    (fun c hc => h.chained.data c (h.chained.vec ▸ hc)) (k / BLOCK_SIZE * BLOCK_SIZE) BLOCK_SIZE
  have hk : k / BLOCK_SIZE * BLOCK_SIZE + k % BLOCK_SIZE = k := Nat.div_add_mod' ..
  have hmod : k % BLOCK_SIZE < BLOCK_SIZE := Nat.mod_lt _ (by decide)
  rw [Fs.disk_byte, hread, h.chained.vec]
  simp only [Outcome.ok_bind, pure, Except.pure, FlatArray.getD_slice, hk]
  exact congrArg Except.ok (if_congr (by omega) rfl rfl)

end Fat32.FileSystem

namespace Fs

open Fat32 Outcome FlatArray

structure Kstat where
  st_ino : Nat
  st_mode : Nat
  st_size : Int
  st_blksize : Nat
  st_blocks : Nat

def S_IFDIR : Nat := 0o0040000
def S_IFCHR : Nat := 0o0020000
def S_IFREG : Nat := 0o0100000

/-- The names of the files that `fstat` takes for devices. -/
def device_names : List Name :=
  [['n', 'u', 'l', 'l'], ['N', 'U', 'L', 'L'], ['z', 'e', 'r', 'o'], ['Z', 'E', 'R', 'O']]

namespace FsState

section Calls

variable (s : FsState)

def file_size (h : Nat) : Except FsPanic Nat := do
  let f ← s.kfile h
  return (s.inodes f.inode).file_size

/-- The times are left out. -/
def fstat (h : Nat) : Except FsPanic Kstat := do
  let f ← s.kfile h
  let (_, st_blksize, st_blocks, is_dir) ← s.fs.stat (s.inodes f.inode).file
  let st_size := (BitVec.ofNat 64 (s.inodes f.inode).file_size).toInt
  let st_mode := if is_dir then S_IFDIR else S_IFREG
  let st_mode := if f.name ∈ device_names then S_IFCHR else st_mode
  return ⟨(s.inodes f.inode).fid, st_mode, st_size, st_blksize, st_blocks⟩

def truncate (h new_length : Nat) : Except FsPanic FsState := do
  let f ← s.kfile h
  return { s with fs := ← s.fs.modify_size (s.inodes f.inode).file new_length }

def sys_ftruncate64 (fd_table : FDTable Nat) (fd length : Nat) :
    Except FsPanic (Except Errno Unit × FsState) :=
  if fd < fd_table.length then
    match fd_table.slot fd with
    | some file => do return (.ok (), ← s.truncate file length)
    | none => .ok (.error .DISCARD, s)
  else .error .outOfBounds

end Calls

variable {s t : FsState} {h k n : Nat} {f : KFile}

/-- A byte that is not in the page cache. -/
def Uncached (s : FsState) (a i : Nat) : Prop := ∀ c, (s.inodes a).page_cache = some c →
  (c.get_page i).data_states (i % PAGE_SIZE / BLOCK_SIZE) = .Unload

/-- What is seen of a file that had the size `old_size` and is truncated to `n`. -/
structure Truncated (s t : FsState) (h old_size n : Nat) : Prop where
  file_size : t.file_size h = .ok n
  fstat : ∀ kstat, t.fstat h = .ok kstat → kstat.st_size = n
  past_end : ∀ slices offset, n ≤ offset →
    Meets (t.pread h slices offset) (fun _ => False) fun r => r.2.1 = 0
  kept : ∀ slices offset, offset + slices.sum ≤ min old_size n →
    Meets (s.pread h slices offset) (fun _ => False) fun r =>
    Meets (t.pread h slices offset) (fun _ => False) fun r' => r'.1 = r.1 ∧ r'.2.1 = r.2.1
  zero : ∀ slices offset, old_size ≤ offset → offset + slices.sum ≤ n →
    Meets (t.pread h slices offset) (fun _ => False) fun r =>
      r.1 = List.replicate slices.sum 0 ∧ r.2.1 = slices.sum

theorem fstat_size {kstat : Kstat} (hk : s.kfile h = .ok f) (hstat : s.fstat h = .ok kstat) :
    kstat.st_size = (BitVec.ofNat 64 (s.inodes f.inode).file_size).toInt := by
  rw [fstat, hk, ok_bind] at hstat
  obtain ⟨st, -, hstat⟩ := bind_eq_ok.mp hstat
  cases hstat
  rfl

/-- A read from the end of the file on. -/
theorem pread_end (hk : s.kfile h = .ok f) {offset : Nat} (hle : (s.inodes f.inode).file_size ≤ offset)
    (slices : List Nat) : s.pread h slices offset =
      .ok (if (s.inodes f.inode).file_size = 0 ∧ f.name = zero then List.replicate slices.sum 0 else [],
        0, s) := by
  rw [pread, hk]
  simp only [ok_bind]
  by_cases hzero : (s.inodes f.inode).file_size = 0
  · simp [hzero, pure, Except.pure]
  · simp [hzero, hle, pure, Except.pure]

/-- The pages stay when the disk changes, and what is not in them is read from it. -/
theorem Mirrors.with_disk {a : Nat} {g : FlatFile} (hm : s.Mirrors a g) {fs : FileSystem}
    {v : Nat → UInt8} (hv : ∀ i, disk_byte fs (s.inodes a).file i = .ok (v i)) :
    ∃ w, Mirrors a { s with fs := fs } { g with bytes := w } ∧
      (∀ i, s.Uncached a i → w i = v i) ∧ ∀ i, ¬ s.Uncached a i → w i = g.bytes i := by
  obtain ⟨c, hc, hpages⟩ := hm.pages
  have huncached : ∀ i, s.Uncached a i ↔
      (c.get_page i).data_states (i % PAGE_SIZE / BLOCK_SIZE) = .Unload := by
    intro i
    simp [Uncached, hc]
  refine ⟨fun i => if (c.get_page i).data_states (i % PAGE_SIZE / BLOCK_SIZE) = .Unload then v i
    else g.bytes i, ⟨⟨c, hc, fun offset => ?_⟩, hm.size, hm.size_lt, hm.files⟩, ?_, ?_⟩
  · have hplace : ∀ j < PAGE_SIZE, c.get_page (offset / PAGE_SIZE * PAGE_SIZE + j) =
        c.get_page offset ∧ (offset / PAGE_SIZE * PAGE_SIZE + j) % PAGE_SIZE = j := by
      intro j hj
      refine ⟨c.get_page_congr ?_, ?_⟩ <;> unfold PAGE_SIZE at * <;> omega
    constructor
    · exact (hpages offset).file_offset
    · intro j hj hload
      obtain ⟨hpage, hmod⟩ := hplace j hj
      rw [(hpages offset).loaded j hj hload]
      simp only [hpage, hmod]
      rw [if_neg hload]
    · intro j hj hload
      obtain ⟨hpage, hmod⟩ := hplace j hj
      simp only [hpage, hmod]
      rw [if_pos (not_not.mp hload)]
      exact hv _
  · intro i hi
    exact if_pos ((huncached i).mp hi)
  · intro i hi
    exact if_neg fun hload => hi ((huncached i).mpr hload)

/-- A byte that is not cached is one of the disk. -/
theorem Mirrors.disk {a i : Nat} {g : FlatFile} (hm : s.Mirrors a g) (hi : s.Uncached a i) :
    disk_byte s.fs (s.inodes a).file i = .ok (g.bytes i) := by
  obtain ⟨c, hc, hpages⟩ := hm.pages
  have hbyte := PageCache.Holds.byte hpages hc i
  rw [Inode.byte, hc] at hbyte
  simp only [if_pos (hi c hc)] at hbyte
  exact hbyte

/-- What the disk has of a file that is not truncated to nothing. -/
theorem moved_disk {file : VirtFile} {d : Disk} {clusters : List Nat} {fs' : FileSystem}
    (hfile : FileSystem.Attached s.fs d file clusters)
    (hn : n ≠ 0) (hmoved : FileSystem.Moved s.fs fs' d file clusters (.modify_size n)) :
    ∃ v : Nat → UInt8, (∀ i, disk_byte fs' file i = .ok (v i)) ∧ ∀ i < n, v i =
      if i < s.fs.bpb.cluster_size * clusters.length then
        d.content s.fs.bpb.cluster_size clusters i else 0 := by
  cases hmoved with
  | enlarged hlarge =>
    refine ⟨_, hlarge.owned.disk_byte, fun i hi => ?_⟩
    rw [hlarge.bpb]
    split
    · next hlt => exact hlarge.content i hlt id
    · next hge =>
      rw [List.length_append, Nat.mul_add] at hge
      rw [if_neg (by omega)]
  | cleared hstop => exact absurd hstop hn
  | cut hbpb hpos hlt hcut =>
    have howned := hfile.owned_of_lt hlt
    refine ⟨_, hcut.owned.disk_byte, fun i hi => ?_⟩
    have hsize := hcut.owned.file_size
    have hold := howned.file_size
    rw [hcut.file_size] at hsize
    rw [if_pos (by omega), if_pos (by omega), hbpb]
    rw [hbpb] at hsize
    exact hcut.content howned (by omega)

section Truncate

variable {g : FlatFile} {d : Disk} {clusters : List Nat} {fs' : FileSystem}
  (hk : s.kfile h = .ok f) (hm : s.Mirrors f.inode g)
  (hfile : FileSystem.Attached s.fs d (s.inodes f.inode).file clusters)
  (hmoved : FileSystem.Moved s.fs fs' d (s.inodes f.inode).file clusters (.modify_size n))

/-- What an earlier truncation to nothing may have left: clusters in memory that the file no
longer has, whose bytes are still read. -/
def Leftover (s : FsState) (a n : Nat) : Prop :=
  s.fs.first_cluster (s.inodes a).file = .ok NEW_VIRT_FILE_CLUSTER ∧
    ∃ i < n, s.Uncached a i ∧ disk_byte s.fs (s.inodes a).file i ≠ .ok 0

include hk hm hfile hmoved

/-- The bytes up to the size that was asked for are kept. -/
theorem kept_iff (hn : n ≠ 0) (hsize : n = (s.inodes f.inode).file_size) :
    (∀ slices offset, offset + slices.sum ≤ n →
      Meets (s.pread h slices offset) (fun _ => False) fun r =>
      Meets (pread { s with fs := fs' } h slices offset) (fun _ => False) fun r' =>
        r'.1 = r.1 ∧ r'.2.1 = r.2.1) ↔ ¬ s.Leftover f.inode n := by
  obtain ⟨v, hv, hkeep⟩ := moved_disk hfile hn hmoved
  obtain ⟨w, hm', hout, hin⟩ := hm.with_disk hv
  have hread : ∀ slices offset, offset + slices.sum ≤ n →
      (∃ t, s.pread h slices offset = .ok (slice g.bytes offset slices.sum, slices.sum, t)) ∧
      ∃ t, pread { s with fs := fs' } h slices offset =
        .ok (slice w offset slices.sum, slices.sum, t) := by
    intro slices offset hlen
    rw [hsize] at hlen
    obtain ⟨t, ht, -⟩ := pread_mirrors (h := h) hm hk rfl hlen
    obtain ⟨t', ht', -⟩ := pread_mirrors (h := h) hm' hk rfl hlen
    exact ⟨⟨t, ht⟩, t', ht'⟩
  constructor
  · rintro hkept ⟨hfirst, i, hi, huncached, hbyte⟩
    obtain ⟨⟨t, ht⟩, t', ht'⟩ := hread [1] i hi
    have hsame := hkept [1] i hi
    rw [ht, ht'] at hsame
    have hwi : w i = g.bytes i := List.head_eq_of_cons_eq hsame.1
    apply hbyte
    rw [hm.disk huncached, ← hwi, hout i huncached, hkeep i hi, hfile.no_cluster.mp hfirst]
    rfl
  · intro hleft slices offset hlen
    obtain ⟨⟨t, ht⟩, t', ht'⟩ := hread slices offset hlen
    rw [ht, ht']
    refine ⟨slice_congr fun i hle hlt => ?_, rfl⟩
    by_cases huncached : s.Uncached f.inode i
    · have hbyte := hm.disk huncached
      rw [hout i huncached, hkeep i (by omega)]
      by_cases hnil : clusters = []
      · have hzero : disk_byte s.fs (s.inodes f.inode).file i = .ok 0 := by
          by_contra hne
          exact hleft ⟨hfile.no_cluster.mpr hnil, i, by omega, huncached, hne⟩
        rw [hzero] at hbyte
        rw [hnil, ← Except.ok.inj hbyte]
        rfl
      · have howned := hfile.owned
        rw [FileSystem.set_cluster_vec_self (hfile.vec hnil)] at howned
        rw [howned.disk_byte] at hbyte
        exact Except.ok.inj hbyte
    · exact hin i huncached

end Truncate

section Floppy

/-- An empty file, opened with the handle 0. -/
def one_open : FsState :=
  (new FileSystem.empty_file).with_file [['A']] 0 FileSystem.empty_file_handle ['A'] 0

theorem one_open_kfile : one_open.kfile 0 = .ok (.new true false 0 [['A']] ['A']) := rfl

theorem one_open_fresh : one_open.Fresh 0 where
  page_cache := rfl
  file_size := FileSystem.empty_file_owned.attached.file_size
  clusters _ hc := absurd hc List.not_mem_nil
  slack i _ := disk_byte_of_no_clusters rfl i
  offsets h k hk _ := by
    obtain rfl | hne := eq_or_ne h 0
    · cases one_open_kfile.symm.trans hk
      exact Nat.two_pow_pos 64
    · have hnone : one_open.files.lookup h = none := AList.lookup_insert_ne hne
      rw [kfile, hnone] at hk
      cases hk

theorem truncate_run : Meets (one_open.pwrite 0 [[7, 8]] 0) (fun _ => False) fun r =>
    r.2.file_size 0 = .ok 2 ∧
    Meets (r.2.sys_ftruncate64 [some 0] 0 1) (fun _ => False) fun u =>
      (u.1 = .ok () ∧ u.2.file_size 0 = .ok 2) ∧
      Meets (u.2.pread 0 [1] 1) (fun _ => False) fun x => x.1 = [8] ∧ x.2.1 = 1 := by
  decide +kernel

end Floppy

end FsState

end Fs

end MyGOS
