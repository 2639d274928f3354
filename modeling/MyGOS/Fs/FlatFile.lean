import MyGOS.Fs.OpenExits
import MyGOS.Fs.Pages

/-!
# Files refine a flat array

All files on an inode see one array of bytes with a size; each has an offset of
its own. An offset is a `usize`, so that a write at the end of the array goes on
at its start.
-/

namespace MyGOS.Fs

open Fat32 Outcome FlatArray StepSystem

/-- Reads and writes of the file with the handle `h`. The buffers of a user are in slices. -/
inductive FileOp where
  | read_to_ubuf (h : Nat) (slices : List Nat)
  | pread (h : Nat) (slices : List Nat) (offset : Nat)
  | write_from_ubuf (h : Nat) (slices : List (List UInt8))
  | write_from_kspace (h : Nat) (data : List UInt8)
  | pwrite (h : Nat) (slices : List (List UInt8)) (offset : Nat)

def FileOp.handle : FileOp → Nat
  | .read_to_ubuf h _ | .pread h _ _ | .write_from_ubuf h _ | .write_from_kspace h _
  | .pwrite h _ _ => h

/-- What the caller gets: the bytes read, and the number returned. -/
abbrev Transferred := List UInt8 × Nat

def FsState.transfer (s : FsState) : FileOp → Except FsPanic (FsState × Transferred)
  | .read_to_ubuf h slices => do
    let (bytes, n, s) ← s.read_to_ubuf h slices
    return (s, bytes, n)
  | .pread h slices offset => do
    let (bytes, n, s) ← s.pread h slices offset
    return (s, bytes, n)
  | .write_from_ubuf h slices => do
    let (n, s) ← s.write_from_ubuf h slices
    return (s, [], n)
  | .write_from_kspace h data => do
    let (n, s) ← s.write_from_kspace h data
    return (s, [], n)
  | .pwrite h slices offset => do
    let (n, s) ← s.pwrite h slices offset
    return (s, [], n)

structure FlatFile where
  bytes : Nat → UInt8
  size : Nat
  offset : Nat → Nat
  append : Nat → Bool

namespace FlatFile

variable (f : FlatFile)

def start (h offset : Nat) : Nat := if f.append h then f.size else offset

def write (start : Nat) (data : List UInt8) : FlatFile :=
  { f with
    bytes := put (2 ^ 64) f.bytes start data
    size := max f.size (stop (2 ^ 64) start data.length) }

def seek (h offset : Nat) : FlatFile := { f with offset := Function.update f.offset h offset }

def step : FileOp → Except FsPanic (FlatFile × Transferred)
  | .read_to_ubuf h slices =>
    .ok (f.seek h (f.offset h + slices.sum), slice f.bytes (f.offset h) slices.sum, slices.sum)
  | .pread _ slices offset => .ok (f, slice f.bytes offset slices.sum, slices.sum)
  | .write_from_ubuf h slices =>
    let start := f.start h (f.offset h)
    .ok ((f.write start slices.flatten).seek h (stop (2 ^ 64) start slices.flatten.length), [],
      slices.flatten.length)
  | .write_from_kspace h data =>
    let start := f.start h (f.offset h)
    .ok ((f.write start data).seek h (stop (2 ^ 64) start data.length), [], data.length)
  | .pwrite h slices offset =>
    .ok (f.write (f.start h offset) slices.flatten, [], slices.flatten.length)

theorem step_ok (op : FileOp) : ∃ r, f.step op = .ok r := by
  cases op <;> exact ⟨_, rfl⟩

end FlatFile

/-- The file `k` with the handle `h` is where the handle of the array is. -/
structure KFile.Named (offset : Nat → Nat) (append : Nat → Bool) (h : Nat) (k : KFile) : Prop where
  offset : k.offset = offset h
  offset_lt : k.offset < 2 ^ 64
  append : OpenFlags.contains k.flags .O_APPEND = append h

/-- Reads are clamped to the size of the file, and writes are not empty. -/
def FileOp.Clamped (file_size offset : Nat) : FileOp → Prop
  | .read_to_ubuf _ slices => offset + slices.sum ≤ file_size
  | .pread _ slices offset => offset + slices.sum ≤ file_size
  | .write_from_ubuf _ slices => slices.flatten ≠ []
  | .write_from_kspace _ data => data ≠ []
  | .pwrite _ slices offset => slices.flatten ≠ [] ∧ offset < 2 ^ 64

instance (file_size offset : Nat) (op : FileOp) : Decidable (op.Clamped file_size offset) := by
  cases op with
  | read_to_ubuf h slices => exact inferInstanceAs (Decidable (_ ≤ _))
  | pread h slices offset => exact inferInstanceAs (Decidable (_ ≤ _))
  | write_from_ubuf h slices => exact inferInstanceAs (Decidable (_ ≠ _))
  | write_from_kspace h data => exact inferInstanceAs (Decidable (_ ≠ _))
  | pwrite h slices offset => exact inferInstanceAs (Decidable (_ ∧ _))

namespace FsState

/-- The file is open on the inode `a`. -/
def Permits (a : Nat) (s : FsState) (op : FileOp) : Prop :=
  Meets (s.kfile op.handle) (fun _ => False) fun k =>
    k.inode = a ∧ op.Clamped (s.inodes a).file_size k.offset

instance (a : Nat) (s : FsState) (op : FileOp) : Decidable (s.Permits a op) :=
  inferInstanceAs (Decidable (Meets _ _ _))

variable {s : FsState} {a h : Nat} {k : KFile} {f : FlatFile}

/-- The page cache of the inode holds the array, and the files have its offsets. -/
structure Mirrors (a : Nat) (s : FsState) (f : FlatFile) : Prop where
  pages : ∃ c, (s.inodes a).page_cache = some c ∧ c.Holds s.fs (s.inodes a).file f.bytes
  size : (s.inodes a).file_size = f.size
  size_lt : f.size < 2 ^ 64
  files : ∀ h k, s.kfile h = .ok k → k.inode = a → k.Named f.offset f.append h

theorem Mirrors.set_pages {c : PageCache} {v : Nat → UInt8} (hm : Mirrors a s f)
    (hc : c.Holds s.fs (s.inodes a).file v) :
    Mirrors a (s.set_page_cache a c) { f with bytes := v } where
  pages := ⟨c, by simp [set_page_cache, set_inode], by simpa [set_page_cache, set_inode] using hc⟩
  size := by simpa [set_page_cache, set_inode] using hm.size
  size_lt := hm.size_lt
  files := hm.files

theorem Mirrors.seek {offset : Nat} (hm : Mirrors a s f) (hk : s.kfile h = .ok k)
    (ha : k.inode = a) (ho : offset < 2 ^ 64) :
    Mirrors a (s.set_kfile h { k with offset := offset }) (f.seek h offset) where
  pages := hm.pages
  size := hm.size
  size_lt := hm.size_lt
  files h' k' hk' ha' := by
    by_cases he : h' = h
    · subst he
      cases (kfile_set_kfile ..).symm.trans hk'
      exact ⟨by simp [FlatFile.seek], ho, (hm.files h' k hk ha).append⟩
    · rw [kfile_set_kfile_of_ne _ he] at hk'
      obtain ⟨hoffset, hlt, happend⟩ := hm.files h' k' hk' ha'
      exact ⟨by simpa [FlatFile.seek, Function.update_of_ne he] using hoffset, hlt, happend⟩

theorem Mirrors.grow {offset : Nat} (hm : Mirrors a s f) (ho : offset < 2 ^ 64) :
    Mirrors a (s.grow a offset) { f with size := max f.size offset } := by
  have hlt := hm.size_lt
  unfold FsState.grow
  split
  · next hgrow =>
    rw [hm.size] at hgrow
    constructor
    · simpa [set_inode] using hm.pages
    · simp [set_inode, Nat.max_eq_right hgrow.le]
    · exact Nat.max_lt.mpr ⟨hlt, ho⟩
    · exact hm.files
  · next hgrow =>
    rw [hm.size] at hgrow
    have hsize : max f.size offset = f.size := Nat.max_eq_left (by omega)
    rw [hsize]
    exact hm

theorem Mirrors.start (hm : Mirrors a s f) (hk : s.kfile h = .ok k) (ha : k.inode = a)
    (offset : Nat) : s.start k offset = f.start h offset := by
  rw [FsState.start, FlatFile.start, (hm.files h k hk ha).append, ha, hm.size]

theorem Mirrors.start_lt (hm : Mirrors a s f) {offset : Nat} (ho : offset < 2 ^ 64) :
    f.start h offset < 2 ^ 64 := by
  unfold FlatFile.start
  split
  · exact hm.size_lt
  · exact ho

/-- Reads of a range that is in the file are the range of the array. -/
theorem Mirrors.read_slices (hm : Mirrors a s f) {slices : List Nat} {offset : Nat}
    (hlen : offset + slices.sum ≤ f.size) {c : PageCache} (hc : (s.inodes a).page_cache = some c) :
    ∃ c', PageCache.read_slices s.fs (s.inodes a).file slices c offset =
        .ok (slice f.bytes offset slices.sum, offset + slices.sum, c') ∧
      Mirrors a (s.set_page_cache a c') f := by
  have hlt := hm.size_lt
  obtain ⟨c₀, hc₀, hpages⟩ := hm.pages
  cases hc.symm.trans hc₀
  obtain ⟨⟨bytes, offset', c'⟩, hr, hbytes, ho, hpages⟩ :=
    (PageCache.read_slices_meets hpages (by omega : offset + slices.sum < 2 ^ 64)).exists_ok
  simp only at hbytes ho hpages
  subst hbytes
  subst ho
  exact ⟨c', hr, hm.set_pages hpages⟩

/-- A write of a list is that of the array. -/
theorem Mirrors.write_slices (hm : Mirrors a s f) (slices : List (List UInt8)) {offset : Nat}
    (ho : offset < 2 ^ 64) : ∃ c c', (s.inodes a).page_cache = some c ∧
      PageCache.write_slices s.fs (s.inodes a).file slices c offset =
        .ok (stop (2 ^ 64) offset slices.flatten.length, c') ∧
      Mirrors a (s.set_page_cache a c')
        { f with bytes := put (2 ^ 64) f.bytes offset slices.flatten } := by
  obtain ⟨c, hc, hpages⟩ := hm.pages
  obtain ⟨⟨offset', c'⟩, hr, ho, hpages⟩ :=
    (@PageCache.write_slices_meets _ _ _ _ slices _ hpages ho).exists_ok
  simp only at ho hpages
  subst ho
  exact ⟨c, c', hc, hr, hm.set_pages hpages⟩

/-- A read of nothing, where `read_to_ubuf` and `pread` do not look at the pages. -/
theorem sum_eq_zero_of_end {slices : List Nat} {offset size : Nat}
    (hlen : offset + slices.sum ≤ size) (hend : size = 0 ∨ size ≤ offset) : slices.sum = 0 := by
  omega

theorem pread_mirrors (hm : Mirrors a s f) (hk : s.kfile h = .ok k) (ha : k.inode = a)
    {slices : List Nat} {offset : Nat} (hlen : offset + slices.sum ≤ (s.inodes a).file_size) :
    ∃ t, s.pread h slices offset = .ok (slice f.bytes offset slices.sum, slices.sum, t) ∧
      Mirrors a t f := by
  subst ha
  unfold pread
  rw [hk]
  simp only [bind, Except.bind, pure, Except.pure]
  by_cases hzero : (s.inodes k.inode).file_size = 0
  · have hsum := sum_eq_zero_of_end hlen (.inl hzero)
    rw [if_pos hzero, hsum]
    exact ⟨s, by simp [slice], hm⟩
  · rw [if_neg hzero]
    by_cases hend : (s.inodes k.inode).file_size ≤ offset
    · have hsum := sum_eq_zero_of_end hlen (.inr hend)
      rw [if_pos hend, hsum]
      exact ⟨s, rfl, hm⟩
    · obtain ⟨c, hc, _⟩ := hm.pages
      obtain ⟨c', hr, ht⟩ := hm.read_slices (hm.size ▸ hlen) hc
      rw [if_neg hend, page_cache, hc]
      simp only [hr, length_slice]
      exact ⟨_, rfl, ht⟩

theorem read_to_ubuf_mirrors (hm : Mirrors a s f) (hk : s.kfile h = .ok k) (ha : k.inode = a)
    {slices : List Nat} (hlen : k.offset + slices.sum ≤ (s.inodes a).file_size) :
    ∃ t, s.read_to_ubuf h slices =
        .ok (slice f.bytes (f.offset h) slices.sum, slices.sum, t) ∧
      Mirrors a t (f.seek h (f.offset h + slices.sum)) := by
  subst ha
  have hnamed := hm.files h k hk rfl
  -- nothing is read, and the offset stays
  have hstay : slices.sum = 0 → Mirrors k.inode s (f.seek h (f.offset h + slices.sum)) := by
    intro hsum
    simpa [hsum, FlatFile.seek] using hm
  unfold read_to_ubuf
  rw [hk]
  simp only [bind, Except.bind, pure, Except.pure]
  by_cases hzero : (s.inodes k.inode).file_size = 0
  · have hsum := sum_eq_zero_of_end hlen (.inl hzero)
    rw [if_pos hzero]
    exact ⟨s, by simp [hsum, slice], hstay hsum⟩
  · rw [if_neg hzero]
    by_cases hend : (s.inodes k.inode).file_size ≤ k.offset
    · have hsum := sum_eq_zero_of_end hlen (.inr hend)
      rw [if_pos hend]
      exact ⟨s, by simp [hsum, slice], hstay hsum⟩
    · obtain ⟨c, hc, _⟩ := hm.pages
      obtain ⟨c', hr, ht⟩ := hm.read_slices (hm.size ▸ hlen) hc
      have hlt := hm.size_lt
      have hsize := hm.size
      rw [if_neg hend, page_cache, hc]
      simp only [hr, length_slice]
      rw [hnamed.offset] at hlen ⊢
      exact ⟨_, rfl, ht.seek hk rfl (by omega)⟩

theorem pwrite_mirrors (hm : Mirrors a s f) (hk : s.kfile h = .ok k) (ha : k.inode = a)
    {slices : List (List UInt8)} {offset : Nat} (ho : offset < 2 ^ 64) :
    ∃ t, s.pwrite h slices offset = .ok (slices.flatten.length, t) ∧
      Mirrors a t (f.write (f.start h offset) slices.flatten) := by
  subst ha
  obtain ⟨c, c', hc, hr, ht⟩ := hm.write_slices slices (hm.start_lt (h := h) ho)
  unfold pwrite
  rw [hk]
  simp only [bind, Except.bind, pure, Except.pure, page_cache, hc, hm.start hk rfl, hr]
  exact ⟨_, rfl, ht.grow (stop_lt (by decide) _ _)⟩

theorem write_from_ubuf_mirrors (hm : Mirrors a s f) (hk : s.kfile h = .ok k) (ha : k.inode = a)
    {slices : List (List UInt8)} (hne : slices.flatten ≠ []) :
    ∃ t, s.write_from_ubuf h slices = .ok (slices.flatten.length, t) ∧
      Mirrors a t ((f.write (f.start h (f.offset h)) slices.flatten).seek h
        (stop (2 ^ 64) (f.start h (f.offset h)) slices.flatten.length)) := by
  subst ha
  have hnamed := hm.files h k hk rfl
  obtain ⟨c, c', hc, hr, ht⟩ := hm.write_slices slices (hm.start_lt (h := h) hnamed.offset_lt)
  unfold write_from_ubuf
  rw [hk]
  simp only [bind, Except.bind, pure, Except.pure, page_cache, hc, hm.start hk rfl, hr, if_neg hne]
  rw [hnamed.offset] at ht ⊢
  have hstop := stop_lt (by decide : 0 < 2 ^ 64) (f.start h (f.offset h)) slices.flatten.length
  exact ⟨_, rfl, (ht.seek hk rfl hstop).grow hstop⟩

/-- One transfer is one step of the array. -/
theorem transfer_follows (hm : Mirrors a s f) (op : FileOp) (hop : s.Permits a op) :
    Follows (fun _ => False) (Mirrors a) (s.transfer op) (f.step op) := by
  obtain ⟨k, hk, ha, hclamped⟩ := Meets.exists_ok hop
  cases op with
  | read_to_ubuf h slices =>
    obtain ⟨t, hr, ht⟩ := read_to_ubuf_mirrors (h := h) hm hk ha hclamped
    rw [transfer, hr]
    exact ⟨_, rfl, ht⟩
  | pread h slices offset =>
    obtain ⟨t, hr, ht⟩ := pread_mirrors (h := h) hm hk ha hclamped
    rw [transfer, hr]
    exact ⟨_, rfl, ht⟩
  | write_from_ubuf h slices =>
    obtain ⟨t, hr, ht⟩ := write_from_ubuf_mirrors (h := h) hm hk ha hclamped
    rw [transfer, hr]
    exact ⟨_, rfl, ht⟩
  | write_from_kspace h data =>
    have hdata : data ≠ [] := hclamped
    have hne : [data].flatten ≠ [] := by simpa using hdata
    obtain ⟨t, hr, ht⟩ := write_from_ubuf_mirrors (h := h) hm hk ha hne
    rw [List.flatten_singleton] at hr ht
    rw [transfer, write_from_kspace, hr]
    exact ⟨_, rfl, ht⟩
  | pwrite h slices offset =>
    obtain ⟨t, hr, ht⟩ := pwrite_mirrors (h := h) hm hk ha hclamped.2
    rw [transfer, hr]
    exact ⟨_, rfl, ht⟩

section Runs

variable (s : FsState) (a : Nat)

/-- The inode `a` is as `open` makes it, on a file without anything behind its end. -/
structure Fresh : Prop where
  page_cache : (s.inodes a).page_cache = some ∅
  file_size : s.fs.file_size (s.inodes a).file = .ok (s.inodes a).file_size
  clusters : ∀ cluster ∈ s.fs.cluster_vec (s.inodes a).file, 2 ≤ cluster
  slack : ∀ i, (s.inodes a).file_size ≤ i → disk_byte s.fs (s.inodes a).file i = .ok 0
  offsets : ∀ h k, s.kfile h = .ok k → k.inode = a → k.offset < 2 ^ 64

/-- The array that a file on the disk is. -/
def flat : FlatFile where
  bytes i := if i < (s.inodes a).file_size then
    ((disk_byte s.fs (s.inodes a).file i).toOption).getD 0 else 0
  size := (s.inodes a).file_size
  offset h := ((s.kfile h).toOption.map KFile.offset).getD 0
  append h := ((s.kfile h).toOption.map fun k => OpenFlags.contains k.flags .O_APPEND).getD false

variable {s a}

theorem Fresh.mirrors (hs : s.Fresh a) : s.Mirrors a (s.flat a) where
  pages := by
    refine ⟨∅, hs.page_cache, .empty ?_⟩
    intro i
    by_cases hi : i < (s.inodes a).file_size
    · obtain ⟨b, hb⟩ := disk_byte_ok hs.clusters i
      simp [flat, hi, hb, Except.toOption]
    · simpa [flat, hi] using hs.slack i (by omega)
  size := rfl
  size_lt := by
    obtain ⟨e, _, he⟩ := map_eq_ok.mp hs.file_size
    have hlt := e.file_size_lt
    show (s.inodes a).file_size < 2 ^ 64
    omega
  files h k hk ha := ⟨by simp [flat, hk, Except.toOption], hs.offsets h k hk ha,
    by simp [flat, hk, Except.toOption]⟩

/-- The inode holds the array, byte for byte, and its files have the offsets. -/
structure Describes (t : FsState) (a : Nat) (f : FlatFile) : Prop where
  byte : ∀ i, (t.inodes a).byte t.fs i = .ok (f.bytes i)
  size : (t.inodes a).file_size = f.size
  offset : ∀ h k, t.kfile h = .ok k → k.inode = a → k.offset = f.offset h

theorem Mirrors.describes {t : FsState} (hm : t.Mirrors a f) : t.Describes a f where
  byte i := by
    obtain ⟨c, hc, hpages⟩ := hm.pages
    exact PageCache.Holds.byte hpages hc i
  size := hm.size
  offset h k hk ha := (hm.files h k hk ha).offset

/-- Every exit of `open` for a path that was not in the cache makes such an inode. -/
theorem open_virt_file_fresh {path : AbsolutePath} {flags : OpenFlags} {file : VirtFile}
    {name : Name} {r : Nat × FsState} (ho : s.open_virt_file path flags file name = .ok r)
    (hclusters : ∀ cluster ∈ s.fs.cluster_vec file, 2 ≤ cluster)
    (hslack : ∀ size i, s.fs.file_size file = .ok size → size ≤ i → disk_byte s.fs file i = .ok 0)
    (hfiles : ∀ h k, s.kfile h = .ok k → k.offset < 2 ^ 64) : r.2.Fresh s.next_inode := by
  obtain ⟨size, hsize, rfl⟩ := open_virt_file_ok ho
  have hinode : ((s.with_file path flags file name size).cache_insert path s.next_inode).inodes
      s.next_inode = ⟨file, s.ino, some ∅, size⟩ := by
    simp [with_file]
  constructor
  · rw [hinode]
  · rw [hinode, fs_cache_insert]
    exact hsize
  · rw [hinode, fs_cache_insert]
    exact hclusters
  · rw [hinode, fs_cache_insert]
    exact fun i => hslack size i hsize
  · intro h k hk _
    by_cases hh : h = s.next_file
    · subst hh
      cases kfile_with_file.symm.trans hk
      exact Nat.two_pow_pos 64
    · apply hfiles h k
      simpa [kfile, with_file, AList.lookup_insert_ne hh] using hk

/-- Writes over the end of the first page and in front of it, and reads of what they wrote. -/
def two_pages : List FileOp :=
  [.pwrite 0 [[104], [105]] 4095, .read_to_ubuf 0 [4, 3], .write_from_kspace 0 [1, 2],
    .pread 0 [1, 2] 4094]

end Runs

end FsState

end MyGOS.Fs
