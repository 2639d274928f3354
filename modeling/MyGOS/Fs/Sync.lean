import MyGOS.Fat32.Rewrites
import MyGOS.Fs.Truncate
import MyGOS.Fs.FlatSteps
import Mathlib.Data.List.Sort

/-!
# Writing the page cache back

`sync` writes the dirty blocks to the disk, whole. The file then reaches to the
end of the last one, wherever in it the last write ended.
-/

namespace MyGOS.Fs

open Fat32 Outcome FlatArray StepSystem

namespace FilePage

/-- The blocks of the page that are to be written. -/
def dirty_blocks (page : FilePage) : List Nat :=
  (List.range (PAGE_SIZE / BLOCK_SIZE)).filter fun idx => page.data_states idx = .Dirty

/-- `sync`; the blocks stay dirty. -/
def sync (inode : VirtFile) (page : FilePage) (fs : FileSystem) : Except FsPanic FileSystem :=
  (List.range (PAGE_SIZE / BLOCK_SIZE)).foldlM (fun fs idx =>
    match page.data_states idx with
    | .Dirty =>
      let page_offset := idx * BLOCK_SIZE
      let file_offset := page.file_offset + page_offset
      let data := slice page.bytes page_offset BLOCK_SIZE
      Prod.snd <$> fs.write_at inode file_offset data
    | _ => return fs) fs

def writes (page : FilePage) : List FileSystem.HandleOp :=
  page.dirty_blocks.map fun idx =>
    .write_at (page.file_offset + idx * BLOCK_SIZE) (slice page.bytes (idx * BLOCK_SIZE) BLOCK_SIZE)

theorem sync_eq (inode : VirtFile) (page : FilePage) (fs : FileSystem) :
    page.sync inode fs = run (FileSystem.handle_step inode) fs page.writes := by
  rw [sync, writes, dirty_blocks]
  induction List.range (PAGE_SIZE / BLOCK_SIZE) generalizing fs with
  | nil => rfl
  | cons idx ids ih =>
    rw [List.foldlM_cons, List.filter_cons]
    cases hstate : page.data_states idx with
    | Dirty =>
      rw [if_pos (by simp), List.map_cons, run_cons]
      exact bind_congr ih
    | Load =>
      rw [if_neg (by simp)]
      exact ih fs
    | Unload =>
      rw [if_neg (by simp)]
      exact ih fs

end FilePage

namespace PageCache

variable {fs : FileSystem} {file : VirtFile} {c : PageCache} {v : Nat → UInt8}

/-- The pages in the order of the map. -/
def pages (c : PageCache) : List (Sigma fun _ : Nat => FilePage) :=
  c.entries.insertionSort fun x y => x.1 ≤ y.1

def sync (inode : VirtFile) (c : PageCache) (fs : FileSystem) : Except FsPanic FileSystem :=
  c.pages.foldlM (fun fs e => e.2.sync inode fs) fs

/-- The dirty blocks of the file. -/
def dirty_blocks (c : PageCache) : List Nat :=
  c.pages.flatMap fun e => e.2.dirty_blocks.map (e.1 * (PAGE_SIZE / BLOCK_SIZE) + ·)

def writes (c : PageCache) : List FileSystem.HandleOp := c.pages.flatMap fun e => e.2.writes

theorem sync_eq (inode : VirtFile) (c : PageCache) (fs : FileSystem) :
    c.sync inode fs = run (FileSystem.handle_step inode) fs c.writes := by
  rw [sync, writes]
  induction c.pages generalizing fs with
  | nil => rfl
  | cons e es ih =>
    rw [List.foldlM_cons, List.flatMap_cons, run, List.foldlM_append, ← run, FilePage.sync_eq]
    exact bind_congr ih

theorem mem_pages {e : Sigma fun _ : Nat => FilePage} (h : e ∈ c.pages) :
    c.get_page (e.1 * PAGE_SIZE) = e.2 := by
  rw [pages, List.mem_insertionSort] at h
  rw [get_page, Nat.mul_div_cancel _ (by decide), AList.mem_lookup_iff.mpr h]
  rfl

/-- `sync` writes the dirty blocks, with the bytes that the cache has. -/
theorem Holds.mem_writes (h : Holds fs file v c) {op : FileSystem.HandleOp} : op ∈ c.writes ↔
    ∃ b ∈ c.dirty_blocks,
      op = .write_at (b * BLOCK_SIZE) (slice v (b * BLOCK_SIZE) BLOCK_SIZE) := by
  have hplace : ∀ n idx : Nat, (n * (PAGE_SIZE / BLOCK_SIZE) + idx) * BLOCK_SIZE =
      n * PAGE_SIZE + idx * BLOCK_SIZE := by
    intro n idx
    unfold PAGE_SIZE BLOCK_SIZE
    omega
  have hbytes : ∀ e ∈ c.pages, ∀ idx ∈ e.2.dirty_blocks,
      e.2.file_offset = e.1 * PAGE_SIZE ∧ slice e.2.bytes (idx * BLOCK_SIZE) BLOCK_SIZE =
        slice v (e.1 * PAGE_SIZE + idx * BLOCK_SIZE) BLOCK_SIZE := by
    intro e he idx hidx
    have hpage := h (e.1 * PAGE_SIZE)
    rw [mem_pages he, Nat.mul_div_cancel _ (by decide)] at hpage
    obtain ⟨hlt, hdirty⟩ := List.mem_filter.mp hidx
    rw [List.mem_range] at hlt
    refine ⟨hpage.file_offset, ?_⟩
    rw [← slice_shift]
    apply slice_congr
    intro j hle hj
    have hblock : j / BLOCK_SIZE = idx ∧ j < PAGE_SIZE := by
      unfold PAGE_SIZE BLOCK_SIZE at *
      omega
    apply hpage.loaded j hblock.2
    rw [FilePage.Loaded, hblock.1, of_decide_eq_true hdirty]
    decide
  simp only [writes, dirty_blocks, FilePage.writes, List.mem_flatMap, List.mem_map]
  constructor
  · rintro ⟨e, he, idx, hidx, rfl⟩
    obtain ⟨hoffset, hslice⟩ := hbytes e he idx hidx
    refine ⟨_, ⟨e, he, idx, hidx, rfl⟩, ?_⟩
    rw [hplace, hoffset, hslice]
  · rintro ⟨b, ⟨e, he, idx, hidx, rfl⟩, rfl⟩
    obtain ⟨hoffset, hslice⟩ := hbytes e he idx hidx
    refine ⟨e, he, idx, hidx, ?_⟩
    rw [hplace, hoffset, hslice]

theorem mem_dirty_blocks {i : Nat} (h : c.dirty i ≠ none) : i / BLOCK_SIZE ∈ c.dirty_blocks := by
  have hdirty : (c.get_page i).data_states (i % PAGE_SIZE / BLOCK_SIZE) = .Dirty := by
    by_contra hclean
    exact h (if_neg hclean)
  rw [dirty_blocks, List.mem_flatMap]
  cases hpage : c.lookup (i / PAGE_SIZE) with
  | none =>
    rw [get_page, hpage] at hdirty
    cases hdirty
  | some page =>
    rw [get_page, hpage] at hdirty
    refine ⟨⟨i / PAGE_SIZE, page⟩, ?_, List.mem_map.mpr ⟨i % PAGE_SIZE / BLOCK_SIZE, ?_, ?_⟩⟩
    · rw [pages, List.mem_insertionSort]
      exact AList.mem_lookup_iff.mp hpage
    · rw [FilePage.dirty_blocks, List.mem_filter, List.mem_range]
      refine ⟨?_, decide_eq_true hdirty⟩
      unfold PAGE_SIZE BLOCK_SIZE
      omega
    · change i / PAGE_SIZE * (PAGE_SIZE / BLOCK_SIZE) + i % PAGE_SIZE / BLOCK_SIZE = i / BLOCK_SIZE
      unfold PAGE_SIZE BLOCK_SIZE
      omega

theorem Holds.ranges (h : Holds fs file v c) : FileSystem.Ranges v c.writes := by
  intro op hop
  obtain ⟨b, -, rfl⟩ := h.mem_writes.mp hop
  exact ⟨_, BLOCK_SIZE, by decide, rfl⟩

end PageCache

/-- Writes at an offset that is a `usize`. -/
def FileOp.Sends : FileOp → Prop
  | .read_to_ubuf .. | .pread .. => False
  | .write_from_ubuf .. | .write_from_kspace .. => True
  | .pwrite _ _ offset => offset < 2 ^ 64

instance : ∀ op : FileOp, Decidable op.Sends
  | .read_to_ubuf .. | .pread .. => inferInstanceAs (Decidable False)
  | .write_from_ubuf .. | .write_from_kspace .. => inferInstanceAs (Decidable True)
  | .pwrite .. => inferInstanceAs (Decidable (_ < _))

namespace FsState

section Calls

variable (s : FsState) (a : Nat)

/-- `PageCache::sync`, on the page cache of the inode. -/
def sync : Except FsPanic FsState := do
  let c ← s.page_cache a
  return { s with fs := ← c.sync (s.inodes a).file s.fs }

def dirty_blocks : List Nat := ((s.inodes a).page_cache.map PageCache.dirty_blocks).getD []

/-- What `sync` writes. -/
def sync_writes : List FileSystem.HandleOp :=
  ((s.inodes a).page_cache.map PageCache.writes).getD []

theorem sync_of_run {fs' : FileSystem} {c : PageCache} (hc : (s.inodes a).page_cache = some c)
    (h : run (FileSystem.handle_step (s.inodes a).file) s.fs c.writes = .ok fs') :
    s.sync a = .ok { s with fs := fs' } := by
  rw [sync, page_cache, hc]
  simp only [ok_bind, PageCache.sync_eq, h]
  rfl

end Calls

/-- Writes of the files that are open on the inode. -/
def Writes (a : Nat) (s : FsState) (op : FileOp) : Prop :=
  Meets (s.kfile op.handle) (fun _ => False) fun k => k.inode = a ∧ op.Sends

instance (a : Nat) (s : FsState) (op : FileOp) : Decidable (s.Writes a op) :=
  inferInstanceAs (Decidable (Meets _ _ _))

/-- After writes to the inode: what is not in a dirty block is as it was on the disk. -/
structure Behind (s t : FsState) (a : Nat) (v₀ : Nat → UInt8) : Prop where
  fs : t.fs = s.fs
  file : (t.inodes a).file = (s.inodes a).file
  size_le : (s.inodes a).file_size ≤ (t.inodes a).file_size
  pages : ∃ c g, (t.inodes a).page_cache = some c ∧ t.Mirrors a g ∧
    ∀ i, c.dirty i = none → g.bytes i = v₀ i

section Behind

variable {s t : FsState} {a h offset : Nat} {v₀ : Nat → UInt8} {k : KFile}
  {slices : List (List UInt8)}

theorem Behind.grow (hb : Behind s t a v₀) (ho : offset < 2 ^ 64) :
    Behind s (t.grow a offset) a v₀ := by
  obtain ⟨c, g, hc, hm, hclean⟩ := hb.pages
  have hpage : ((t.grow a offset).inodes a).page_cache = (t.inodes a).page_cache ∧
      ((t.grow a offset).inodes a).file = (t.inodes a).file := by
    unfold FsState.grow
    split
    · simp [set_inode]
    · exact ⟨rfl, rfl⟩
  constructor
  · exact (fs_grow offset).trans hb.fs
  · exact hpage.2.trans hb.file
  · rw [file_size_grow]
    exact hb.size_le.trans (Nat.le_max_left ..)
  · exact ⟨c, _, hpage.1.trans hc, hm.grow ho, hclean⟩

theorem Behind.seek (hb : Behind s t a v₀) (hk : t.kfile h = .ok k) (ha : k.inode = a)
    (ho : offset < 2 ^ 64) : Behind s (t.set_kfile h { k with offset := offset }) a v₀ := by
  obtain ⟨c, g, hc, hm, hclean⟩ := hb.pages
  exact ⟨hb.fs, hb.file, hb.size_le, c, _, hc, hm.seek hk ha ho, hclean⟩

/-- The loop over the slices of a write. -/
theorem Behind.write_slices (hb : Behind s t a v₀) (slices : List (List UInt8))
    (ho : offset < 2 ^ 64) : ∃ c offset' c', t.page_cache a = .ok c ∧
      PageCache.write_slices t.fs (t.inodes a).file slices c offset = .ok (offset', c') ∧
      offset' < 2 ^ 64 ∧ Behind s (t.set_page_cache a c') a v₀ := by
  obtain ⟨c, g, hc, hm, hclean⟩ := hb.pages
  obtain ⟨c₀, c', hc₀, hw, hm'⟩ := hm.write_slices slices ho
  cases hc.symm.trans hc₀
  have hkeeps := (PageCache.write_slices_keeps ho hw fun _ _ h => h).2
  refine ⟨c, _, c', by rw [page_cache, hc], hw, stop_lt (by decide) .., hb.fs, ?_, ?_, c', _, ?_,
    hm', ?_⟩
  · simpa [set_page_cache, set_inode] using hb.file
  · simpa [set_page_cache, set_inode] using hb.size_le
  · simp [set_page_cache, set_inode]
  · intro i hi
    have hnone : put (2 ^ 64) c.dirty offset (slices.flatten.map some) i = none := by
      by_contra hne
      obtain ⟨b, hb⟩ := Option.ne_none_iff_exists'.mp hne
      rw [hkeeps i b hb] at hi
      cases hi
    obtain ⟨hold, hv⟩ := put_of_put_none (v := g.bytes) hnone
    exact hv.trans (hclean i hold)

theorem Behind.start_lt (hb : Behind s t a v₀) (ha : k.inode = a) (ho : offset < 2 ^ 64) :
    t.start k offset < 2 ^ 64 := by
  obtain ⟨c, g, -, hm, -⟩ := hb.pages
  unfold FsState.start
  split
  · rw [ha, hm.size]
    exact hm.size_lt
  · exact ho

theorem Behind.pwrite (hb : Behind s t a v₀) (hk : t.kfile h = .ok k) (ha : k.inode = a)
    (ho : offset < 2 ^ 64) : Meets (t.pwrite h slices offset) (fun _ => False) fun r =>
      Behind s r.2 a v₀ := by
  subst ha
  obtain ⟨c, offset', c', hc, hw, ho', hb'⟩ := hb.write_slices slices (hb.start_lt rfl ho)
  rw [FsState.pwrite, hk]
  simp only [ok_bind, hc, hw]
  exact hb'.grow ho'

theorem Behind.write_from_ubuf (hb : Behind s t a v₀) (hk : t.kfile h = .ok k) (ha : k.inode = a) :
    Meets (t.write_from_ubuf h slices) (fun _ => False) fun r => Behind s r.2 a v₀ := by
  subst ha
  obtain ⟨-, g, -, hm, -⟩ := hb.pages
  obtain ⟨c, offset', c', hc, hw, ho', hb'⟩ :=
    hb.write_slices slices (hb.start_lt rfl (hm.files h k hk rfl).offset_lt)
  rw [FsState.write_from_ubuf, hk]
  simp only [ok_bind, hc, hw]
  apply Behind.grow _ ho'
  split
  · exact hb'
  · exact hb'.seek hk rfl ho'

theorem Behind.transfer (hb : Behind s t a v₀) {op : FileOp} (hop : t.Writes a op) :
    Meets (t.transfer op) (fun _ => False) fun r => Behind s r.1 a v₀ := by
  obtain ⟨k, hk, ha, hsends⟩ := Meets.exists_ok hop
  cases op with
  | read_to_ubuf h slices => exact hsends.elim
  | pread h slices offset => exact hsends.elim
  | write_from_ubuf h slices => exact (hb.write_from_ubuf (h := h) hk ha).bind fun _ h => h
  | write_from_kspace h data => exact (hb.write_from_ubuf (h := h) hk ha).bind fun _ h => h
  | pwrite h slices offset => exact (hb.pwrite (h := h) hk ha hsends).bind fun _ h => h

theorem Behind.run (hb : Behind s t a v₀) {ops : List FileOp}
    (hops : Guarded (silent FsState.transfer) (Writes a) t ops) :
    Meets (StepSystem.run (silent FsState.transfer) t ops) (fun _ => False) (Behind s · a v₀) := by
  induction ops generalizing t with
  | nil => exact hb
  | cons op ops ih =>
    obtain ⟨hop, hrest⟩ := hops
    obtain ⟨r, hr, hb'⟩ := (hb.transfer hop).exists_ok
    have hstep : silent FsState.transfer t op = .ok r.1 := by
      rw [silent, hr]
      rfl
    rw [hstep] at hrest
    rw [run_cons, hstep]
    exact ih hb' hrest

end Behind

/-- Nothing has been written to the inode, which is as `open` makes it. -/
structure Unwritten (s : FsState) (a : Nat) : Prop where
  page_cache : (s.inodes a).page_cache = some ∅
  file_size : s.fs.file_size (s.inodes a).file = .ok (s.inodes a).file_size
  offsets : ∀ h k, s.kfile h = .ok k → k.inode = a → k.offset < 2 ^ 64

/-- The disk has the file as the cache had it, and `sync` finds nothing to change. -/
structure Synced (t u : FsState) (a : Nat) : Prop where
  file_size : u.fs.file_size (t.inodes a).file = .ok (t.inodes a).file_size
  byte : ∀ i < (t.inodes a).file_size,
    disk_byte u.fs (t.inodes a).file i = (t.inodes a).byte t.fs i
  again : u.sync a = .ok u

/-- The file ends where its last dirty block ends, or where it ends on the disk. -/
def WholeBlocks (t : FsState) (a : Nat) : Prop :=
  if (t.inodes a).file.is_dir then (t.inodes a).file_size = 0
  else (∀ b ∈ t.dirty_blocks a, (b + 1) * BLOCK_SIZE ≤ (t.inodes a).file_size) ∧
    (t.fs.file_size (t.inodes a).file = .ok (t.inodes a).file_size ∨
      ∃ b ∈ t.dirty_blocks a, (b + 1) * BLOCK_SIZE = (t.inodes a).file_size)

instance (t : FsState) (a : Nat) : Decidable (t.WholeBlocks a) :=
  inferInstanceAs (Decidable (if (t.inodes a).file.is_dir then _ else _ ∧ (_ ∨ _)))

section Sync

variable {s t : FsState} {a : Nat} {d : Disk} {clusters : List Nat} {ops : List FileOp}

/-- The bytes on the disk, with zeros behind the clusters. -/
def disk_array (fs : FileSystem) (d : Disk) (clusters : List Nat) (i : Nat) : UInt8 :=
  if i < fs.bpb.cluster_size * clusters.length then d.content fs.bpb.cluster_size clusters i else 0

theorem Unwritten.behind (hs : s.Unwritten a)
    (howned : FileSystem.Owned s.fs d (s.inodes a).file clusters) :
    Behind s s a (disk_array s.fs d clusters) where
  fs := rfl
  file := rfl
  size_le := le_rfl
  pages := by
    refine ⟨∅, { s.flat a with bytes := disk_array s.fs d clusters }, hs.page_cache, ?_,
      fun _ _ => rfl⟩
    constructor
    · exact ⟨∅, hs.page_cache, .empty howned.disk_byte⟩
    · rfl
    · have hlt := (d.entry (s.inodes a).file.sde_pos).file_size_lt
      have hsize := howned.attached.file_size.symm.trans hs.file_size
      rw [Except.ok.injEq] at hsize
      change (s.inodes a).file_size < 2 ^ 64
      omega
    · exact fun h k hk ha => ⟨by simp [flat, hk, Except.toOption], hs.offsets h k hk ha,
        by simp [flat, hk, Except.toOption]⟩

variable {fs' : FileSystem} {d' : Disk} {clusters' : List Nat} {c : PageCache} {v : Nat → UInt8}

/-- Every byte of the cache is on the disk then. -/
theorem laid_byte (hc : (t.inodes a).page_cache = some c)
    (hv : c.Holds t.fs (t.inodes a).file v)
    (hclean : ∀ i, c.dirty i = none → v i = disk_array t.fs d clusters i)
    (hlaid : FileSystem.Laid t.fs fs' d d' (t.inodes a).file clusters clusters' v c.writes)
    (i : Nat) : disk_byte fs' (t.inodes a).file i = (t.inodes a).byte t.fs i := by
  rw [hlaid.owned.disk_byte, hlaid.bpb, hv.byte hc, Except.ok.injEq]
  by_cases hcover : ∃ op ∈ c.writes, op.Covers i
  · obtain ⟨op, hop, hcover⟩ := hcover
    have hreach := hlaid.reach op hop
    have hbyte := hlaid.covered op hop i hcover
    obtain ⟨b, -, rfl⟩ := hv.mem_writes.mp hop
    rw [FileSystem.stop_slice v _ (by decide)] at hreach
    rw [FileSystem.HandleOp.Covers, length_slice] at hcover
    rw [if_pos (by omega), hbyte]
  · have hnot : ∀ op ∈ c.writes, ¬ op.Covers i := fun op hop h => hcover ⟨op, hop, h⟩
    have hnone : c.dirty i = none := by
      by_contra hdirty
      refine hnot _ (hv.mem_writes.mpr ⟨_, PageCache.mem_dirty_blocks hdirty, rfl⟩) ?_
      rw [FileSystem.HandleOp.Covers, length_slice]
      unfold BLOCK_SIZE
      omega
    have hlen := Nat.mul_le_mul_left t.fs.bpb.cluster_size hlaid.length
    rw [hclean i hnone, disk_array]
    split
    · next hlt => rw [hlaid.kept i hlt hnot]
    · next hge => rw [if_neg (by omega)]

/-- Where the file ends then. -/
theorem laid_size_iff (howned : FileSystem.Owned t.fs d (t.inodes a).file clusters)
    (hc : (t.inodes a).page_cache = some c) (hv : c.Holds t.fs (t.inodes a).file v)
    (hsize : (d.entry (t.inodes a).file.sde_pos).file_size ≤ (t.inodes a).file_size)
    (hlaid : FileSystem.Laid t.fs fs' d d' (t.inodes a).file clusters clusters' v c.writes) :
    fs'.file_size (t.inodes a).file = .ok (t.inodes a).file_size ↔ t.WholeBlocks a := by
  have hblocks : t.dirty_blocks a = c.dirty_blocks := by rw [dirty_blocks, hc]; rfl
  have hstop : ∀ b, (FileSystem.HandleOp.write_at (b * BLOCK_SIZE)
      (slice v (b * BLOCK_SIZE) BLOCK_SIZE)).stop = (b + 1) * BLOCK_SIZE := by
    intro b
    rw [FileSystem.stop_slice v _ (by decide), Nat.succ_mul]
  rw [WholeBlocks, hlaid.owned.attached.file_size, howned.attached.file_size, Except.ok.injEq,
    Except.ok.injEq, hblocks]
  cases hdir : (t.inodes a).file.is_dir with
  | true =>
    rw [if_pos rfl, hlaid.owned.dir_size hdir, eq_comm]
  | false =>
    rw [if_neg Bool.false_ne_true]
    obtain ⟨hle, hops, hlast⟩ := hlaid.file_size hdir
    constructor
    · intro heq
      rw [heq] at hops hlast
      constructor
      · intro b hb
        rw [← hstop]
        exact hops _ (hv.mem_writes.mpr ⟨b, hb, rfl⟩)
      · obtain hold | ⟨op, hop, hend⟩ := hlast
        · exact Or.inl hold.symm
        · obtain ⟨b, hb, rfl⟩ := hv.mem_writes.mp hop
          exact Or.inr ⟨b, hb, (hstop b).symm.trans hend⟩
    · rintro ⟨hall, hend⟩
      apply le_antisymm
      · obtain hold | ⟨op, hop, hlast⟩ := hlast
        · rw [hold]
          exact hsize
        · obtain ⟨b, hb, rfl⟩ := hv.mem_writes.mp hop
          rw [← hlast, hstop]
          exact hall b hb
      · obtain hold | ⟨b, hb, hend⟩ := hend
        · rw [← hold]
          exact hle
        · rw [← hend, ← hstop]
          exact hops _ (hv.mem_writes.mpr ⟨b, hb, rfl⟩)

/-- After any writes to an inode, `sync` writes the file back exactly when it ends where its last
dirty block ends, or no dirty block goes past its old end, where it still ends. -/
theorem synced_iff (hs : s.Unwritten a)
    (howned : FileSystem.Owned s.fs d (s.inodes a).file clusters)
    (hops : Guarded (silent transfer) (Writes a) s ops) :
    Meets (run (silent transfer) s ops) (fun _ => False) fun t =>
      Guarded (FileSystem.handle_step (t.inodes a).file) (FileSystem.Fits (t.inodes a).file) t.fs
        (t.sync_writes a) →
      Meets (t.sync a) (· = .outOfSpace) fun u => Synced t u a ↔ t.WholeBlocks a := by
  apply ((hs.behind howned).run hops).mono
  intro t hb hfits
  have hsize : (d.entry (t.inodes a).file.sde_pos).file_size ≤ (t.inodes a).file_size := by
    have hold := howned.attached.file_size.symm.trans hs.file_size
    rw [hb.file, Except.ok.inj hold]
    exact hb.size_le
  obtain ⟨c, g, hc, hm, hclean⟩ := hb.pages
  obtain ⟨c', hc', hv⟩ := hm.pages
  cases hc.symm.trans hc'
  have hwrites : t.sync_writes a = c.writes := by rw [sync_writes, hc]; rfl
  rw [← hb.fs] at hclean
  rw [← hb.fs, ← hb.file] at howned
  rw [hwrites] at hfits
  rw [sync, page_cache, hc]
  simp only [ok_bind, PageCache.sync_eq]
  apply (howned.run_ranges hv.ranges hfits).bind
  rintro fs' ⟨d', clusters', hlaid⟩
  have hiff := laid_size_iff howned hc hv hsize hlaid
  constructor
  · exact fun hsynced => hiff.mp hsynced.file_size
  · intro hwhole
    constructor
    · exact hiff.mpr hwhole
    · exact fun i _ => laid_byte hc hv hclean hlaid i
    · exact sync_of_run { t with fs := fs' } a hc (hlaid.again hv.ranges)

section Floppy

theorem one_open_unwritten : one_open.Unwritten 0 where
  page_cache := one_open_fresh.page_cache
  file_size := one_open_fresh.file_size
  offsets := one_open_fresh.offsets

def full_block : List FileOp := [.pwrite 0 [List.replicate BLOCK_SIZE 7] 0]

theorem one_open_full_block : ∃ (s : FsState) (d : Disk), s.Unwritten 0 ∧
    FileSystem.Owned s.fs d (s.inodes 0).file [] ∧
    Guarded (silent transfer) (Writes 0) s full_block ∧
    Meets (run (silent transfer) s full_block) (fun _ => False) fun t => t.WholeBlocks 0 ∧
      Guarded (FileSystem.handle_step (t.inodes 0).file) (FileSystem.Fits (t.inodes 0).file) t.fs
        (t.sync_writes 0) :=
  ⟨one_open, _, one_open_unwritten, FileSystem.empty_file_owned, by decide +kernel,
    by decide +kernel⟩

theorem synced_iff_block : ∃ s : FsState, s.Unwritten 0 ∧
    Meets (run (silent transfer) s full_block) (fun _ => False) fun t =>
    Meets (t.sync 0) (· = .outOfSpace) fun u => Synced t u 0 := by
  obtain ⟨s, d, hs, howned, hops, hrun⟩ := one_open_full_block
  refine ⟨s, hs, ?_⟩
  have hsynced := synced_iff hs howned hops
  obtain ⟨t, ht, hwhole, hfits⟩ := hrun.exists_ok
  rw [ht] at hsynced ⊢
  exact (hsynced hfits).mono fun u hiff => hiff.mpr hwhole

theorem sync_run : Meets (do
      let t ← run (silent transfer) one_open [.pwrite 0 [[7, 8]] 0]
      return (t, ← t.sync 0)) (fun _ => False) fun r =>
    (r.1.inodes 0).file_size = 2 ∧ r.2.fs.file_size (r.1.inodes 0).file = .ok 512 := by
  decide +kernel

/-- Two bytes are written to an empty file: on the disk, it gets 512. -/
theorem sync_whole_block : ∃ t u, run (silent transfer) one_open [.pwrite 0 [[7, 8]] 0] = .ok t ∧
    (t.inodes 0).file_size = 2 ∧ t.sync 0 = .ok u ∧
    u.fs.file_size (t.inodes 0).file = .ok 512 ∧ ¬ Synced t u 0 := by
  obtain ⟨⟨t, u⟩, hr, hsize, hdisk⟩ := sync_run.exists_ok
  obtain ⟨t', ht, hr⟩ := bind_eq_ok.mp hr
  obtain ⟨u', hu, hr⟩ := bind_eq_ok.mp hr
  cases hr
  refine ⟨t, u, ht, hsize, hu, hdisk, fun hsynced => ?_⟩
  have hboth := hsynced.file_size.symm.trans hdisk
  rw [hsize] at hboth
  exact absurd (Except.ok.inj hboth) (by decide)

end Floppy

end Sync

end FsState

end MyGOS.Fs
