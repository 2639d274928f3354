import MyGOS.Fs.FlatSteps
import MyGOS.Fs.FdTable

/-!
# Copying a file to a file

`sys_sendfile` reads what is left of the one file, and writes it to the other,
until a read returns nothing. It does not look at the count, and what it writes
may be what it reads next.
-/

namespace MyGOS.Fs

open Fat32 Outcome FlatArray

/-- `a - b` of two `usize`. -/
def wrapping_sub (a b : Nat) : Nat := usize (a + 2 ^ 64 - b)

theorem wrapping_sub_of_le {a b : Nat} (h : b ≤ a) (ha : a < 2 ^ 64) :
    wrapping_sub a b = a - b := by
  unfold wrapping_sub usize
  omega

theorem wrapping_sub_of_lt {a b : Nat} (h : a < b) (hb : b < 2 ^ 64) :
    wrapping_sub a b = a + 2 ^ 64 - b := by
  unfold wrapping_sub usize
  omega

theorem wrapping_sub_eq_zero {a b : Nat} (ha : a < 2 ^ 64) (hb : b < 2 ^ 64) :
    wrapping_sub a b = 0 ↔ a = b := by
  unfold wrapping_sub usize
  omega

namespace FsState

section Calls

variable (s : FsState)

/-- The buffer is not larger than `isize::MAX`. -/
def read_to_kspace (h : Nat) : Except FsPanic (List UInt8 × FsState) := do
  let f ← s.kfile h
  let file_size := (s.inodes f.inode).file_size
  let len := wrapping_sub file_size f.offset
  -- the `vec![0; len]` of `kernel_read_with_offset`
  if 2 ^ 63 ≤ len then .error .capacity
  else do
    let (res, s) ← s.kernel_read_with_offset h f.offset len
    return (res, ← s.seek h (usize (f.offset + res.length)))

/-- The loop of `sys_sendfile`; it is still running when it has taken `fuel` rounds. -/
def sendfile_loop (in_file out_file : Nat) : Nat → (total_write_size : Nat) → FsState →
    Except FsPanic (Option (Nat × FsState))
  | 0, _, _ => .ok none
  | fuel + 1, total_write_size, s => do
    let (data_buffer, s) ← s.read_to_kspace in_file
    if data_buffer.length = 0 then return some (total_write_size, s)
    else do
      let (_, s) ← s.write_from_kspace out_file data_buffer
      sendfile_loop in_file out_file fuel (usize (total_write_size + data_buffer.length)) s

/-- `fd_table[fd as usize].as_ref().unwrap()`, where `fd` is an `i32`. -/
def unwrap_fd (fd_table : FDTable Nat) (fd : Int) : Except FsPanic Nat :=
  match fd_table[FDTable.as_usize fd]? with
  | none => .error .outOfBounds
  | some none => .error .notOpen
  | some (some h) => .ok h

def sys_sendfile (fd_table : FDTable Nat) (fuel : Nat) (out_fd in_fd : Int)
    (offset _count : Nat) : Except FsPanic (Option (Nat × FsState)) :=
  if offset ≠ 0 then .error .unimplemented
  else do
    let in_file ← unwrap_fd fd_table in_fd
    let out_file ← unwrap_fd fd_table out_fd
    sendfile_loop in_file out_file fuel 0 s

end Calls

end FsState

section Results

variable {fs : FileSystem} {file : VirtFile}

theorem FilePage.length_read {page : FilePage} {offset len : Nat} {r : List UInt8 × FilePage}
    (h : page.read fs file offset len = .ok r) : r.1.length = len := by
  rw [FilePage.read] at h
  split at h
  · cases h
  · simp only at h
    split at h
    · cases h
    · obtain ⟨p, -, h⟩ := bind_eq_ok.mp h
      cases h
      simp

/-- A read fills its buffer. -/
theorem PageCache.length_read_slice {fuel len offset : Nat} {c : PageCache}
    {r : List UInt8 × Nat × PageCache} (hfuel : len ≤ fuel)
    (h : PageCache.read_slice fs file fuel len c offset = .ok r) : r.1.length = len := by
  induction fuel generalizing len c offset r with
  | zero =>
    cases h
    exact (Nat.le_zero.mp hfuel).symm
  | succ fuel ih =>
    rw [PageCache.read_slice] at h
    split at h
    · next hzero =>
      cases h
      exact hzero.symm
    · obtain ⟨⟨bytes, page⟩, hread, h⟩ := bind_eq_ok.mp h
      obtain ⟨⟨rest, end_offset, c'⟩, hrest, h⟩ := bind_eq_ok.mp h
      cases h
      have hmod : offset % PAGE_SIZE < PAGE_SIZE := Nat.mod_lt _ (by decide)
      have hbytes := FilePage.length_read hread
      have hlen := ih (by omega) hrest
      simp only at hbytes hlen ⊢
      rw [List.length_append, hbytes, hlen]
      omega

theorem PageCache.write_slice_lt {fuel offset : Nat} {buf : List UInt8} {c : PageCache}
    {r : Nat × PageCache} (hoffset : offset < 2 ^ 64)
    (h : PageCache.write_slice fs file fuel buf c offset = .ok r) : r.1 < 2 ^ 64 := by
  induction fuel generalizing buf c offset r with
  | zero =>
    cases h
    exact hoffset
  | succ fuel ih =>
    rw [PageCache.write_slice] at h
    split at h
    · cases h
      exact hoffset
    · obtain ⟨page, -, h⟩ := bind_eq_ok.mp h
      exact ih (Nat.mod_lt _ (by decide)) h

theorem PageCache.write_slices_lt {slices : List (List UInt8)} {offset : Nat} {c : PageCache}
    {r : Nat × PageCache} (hoffset : offset < 2 ^ 64)
    (h : PageCache.write_slices fs file slices c offset = .ok r) : r.1 < 2 ^ 64 := by
  induction slices generalizing c offset r with
  | nil =>
    cases h
    exact hoffset
  | cons slice slices ih =>
    rw [PageCache.write_slices] at h
    obtain ⟨⟨offset', c'⟩, hslice, h⟩ := bind_eq_ok.mp h
    exact ih (write_slice_lt hoffset hslice) h

end Results

namespace FsState

section Steps

variable {s t : FsState} {h h' a b : Nat} {k : KFile} {data : List UInt8}

/-- The file has an offset, and its inode a size. -/
structure OpenOn (s : FsState) (h a : Nat) : Prop where
  kfile : ∃ k, s.kfile h = .ok k ∧ k.inode = a ∧ k.offset < 2 ^ 64
  size_lt : (s.inodes a).file_size < 2 ^ 64

/-- What a read leaves. -/
structure ReadOff (s t : FsState) (h : Nat) (k : KFile) (data : List UInt8) : Prop where
  length : data.length = wrapping_sub (s.inodes k.inode).file_size k.offset
  length_lt : data.length < 2 ^ 63
  state : ∃ c, t = (s.set_page_cache k.inode c).set_kfile h
    { k with offset := usize (k.offset + data.length) }

theorem read_to_kspace_ok (hk : s.kfile h = .ok k) (hr : s.read_to_kspace h = .ok (data, t)) :
    ReadOff s t h k data := by
  rw [read_to_kspace, hk, ok_bind] at hr
  simp only at hr
  split at hr
  · cases hr
  · next hlt =>
    obtain ⟨⟨res, s'⟩, hread, hr⟩ := bind_eq_ok.mp hr
    obtain ⟨t', hseek, hr⟩ := bind_eq_ok.mp hr
    cases hr
    rw [kernel_read_with_offset, hk, ok_bind] at hread
    obtain ⟨c, -, hread⟩ := bind_eq_ok.mp hread
    obtain ⟨⟨buf, offset, c'⟩, hslice, hread⟩ := bind_eq_ok.mp hread
    cases hread
    have hlen := PageCache.length_read_slice le_rfl hslice
    simp only at hlen
    refine ⟨hlen, hlen.trans_lt (not_le.mp hlt), c', ?_⟩
    have hk' : (s.set_page_cache k.inode c').kfile h = .ok k := hk
    rw [seek, hk'] at hseek
    cases hseek
    rfl

theorem write_from_kspace_ok {n : Nat} (hk : s.kfile h = .ok k) (hdata : data ≠ [])
    (hstart : s.start k k.offset < 2 ^ 64) (hr : s.write_from_kspace h data = .ok (n, t)) :
    ∃ c offset, offset < 2 ^ 64 ∧ t =
      ((s.set_page_cache k.inode c).set_kfile h { k with offset := offset }).grow
        k.inode offset := by
  have hne : [data].flatten ≠ [] := by simpa using hdata
  rw [write_from_kspace, write_from_ubuf, hk, ok_bind] at hr
  obtain ⟨c, -, hr⟩ := bind_eq_ok.mp hr
  obtain ⟨⟨offset, c'⟩, hwrite, hr⟩ := bind_eq_ok.mp hr
  cases hr
  refine ⟨c', offset, PageCache.write_slices_lt hstart hwrite, ?_⟩
  simp only [if_neg hne]

/-- Another file keeps its offset, and the same one gets a new one. -/
theorem OpenOn.set_kfile {offset : Nat} (ho : s.OpenOn h' b) (hk : s.kfile h = .ok k)
    (hoffset : offset < 2 ^ 64) (hkfile : ∀ i, t.kfile i = s.kfile i)
    (hsize : (t.inodes b).file_size < 2 ^ 64) :
    (t.set_kfile h { k with offset := offset }).OpenOn h' b where
  kfile := by
    obtain ⟨k', hk', hb, hlt⟩ := ho.kfile
    obtain rfl | hne := eq_or_ne h' h
    · cases hk.symm.trans hk'
      exact ⟨_, kfile_set_kfile t h' _, hb, hoffset⟩
    · exact ⟨k', by rw [kfile_set_kfile_of_ne t hne, hkfile, hk'], hb, hlt⟩
  size_lt := hsize

theorem OpenOn.read (ho : s.OpenOn h' b) (hk : s.kfile h = .ok k) (hr : ReadOff s t h k data) :
    t.OpenOn h' b := by
  obtain ⟨c, rfl⟩ := hr.state
  exact ho.set_kfile hk (Nat.mod_lt _ (by decide)) (fun _ => rfl)
    ((file_size_set_page_cache c).trans_lt ho.size_lt)

theorem ReadOff.file_size (hr : ReadOff s t h k data) :
    (t.inodes b).file_size = (s.inodes b).file_size := by
  obtain ⟨c, rfl⟩ := hr.state
  exact file_size_set_page_cache c

theorem OpenOn.write {c : PageCache} {offset : Nat} (ho : s.OpenOn h' b)
    (hk : s.kfile h = .ok k) (hoffset : offset < 2 ^ 64) :
    (((s.set_page_cache a c).set_kfile h { k with offset := offset }).grow a offset).OpenOn
      h' b := by
  have hset := ho.set_kfile (t := s.set_page_cache a c) hk hoffset (fun _ => rfl)
    ((file_size_set_page_cache c).trans_lt ho.size_lt)
  refine ⟨by simpa only [kfile_grow] using hset.kfile, ?_⟩
  obtain rfl | hb := eq_or_ne b a
  · rw [file_size_grow]
    exact Nat.max_lt.mpr ⟨hset.size_lt, hoffset⟩
  · rw [inodes_grow_of_ne hb]
    exact hset.size_lt

theorem OpenOn.start_lt (ho : s.OpenOn h a) (hk : s.kfile h = .ok k) :
    s.start k k.offset < 2 ^ 64 := by
  obtain ⟨k', hk', ha, hlt⟩ := ho.kfile
  cases hk.symm.trans hk'
  unfold FsState.start
  split
  · exact ha ▸ ho.size_lt
  · exact hlt

theorem file_size_le_write {c : PageCache} {offset : Nat} : (s.inodes b).file_size ≤
    ((((s.set_page_cache a c).set_kfile h k).grow a offset).inodes b).file_size := by
  obtain rfl | hb := eq_or_ne b a
  · rw [file_size_grow]
    exact (file_size_set_page_cache c).symm.le.trans (Nat.le_max_left _ _)
  · rw [inodes_grow_of_ne hb]
    exact (file_size_set_page_cache c).symm.le

end Steps

section Exit

variable {s t : FsState} {hi ho a b ret : Nat}

/-- When the loop ends, the input is read to its end. -/
structure Exited (s t : FsState) (hi ho a b : Nat) : Prop where
  opened : t.OpenOn ho b
  offset : ∃ k, t.kfile hi = .ok k ∧ k.offset = (t.inodes a).file_size
  le : (s.inodes a).file_size ≤ (t.inodes a).file_size
  kept : a ≠ b → (t.inodes a).file_size = (s.inodes a).file_size

theorem sendfile_loop_exit {fuel total : Nat} (hin : s.OpenOn hi a) (hout : s.OpenOn ho b)
    (hr : sendfile_loop hi ho fuel total s = .ok (some (ret, t))) : Exited s t hi ho a b := by
  induction fuel generalizing s total with
  | zero => cases hr
  | succ fuel ih =>
    obtain ⟨k, hk, rfl, hlt⟩ := hin.kfile
    rw [sendfile_loop] at hr
    obtain ⟨⟨data, s'⟩, hread, hr⟩ := bind_eq_ok.mp hr
    have hoff := read_to_kspace_ok hk hread
    have hin' := hin.read hk hoff
    have hout' := hout.read hk hoff
    simp only at hr
    split at hr
    · next hzero =>
      cases hr
      have hsize := (wrapping_sub_eq_zero hin.size_lt hlt).mp (hoff.length.symm.trans hzero)
      refine ⟨hout', ?_, hoff.file_size.symm.le, fun _ => hoff.file_size⟩
      obtain ⟨c, rfl⟩ := hoff.state
      refine ⟨_, kfile_set_kfile _ hi _, ?_⟩
      rw [hzero, Nat.add_zero]
      exact (Nat.mod_eq_of_lt hlt).trans (hsize.symm.trans (file_size_set_page_cache c).symm)
    · next hpos =>
      obtain ⟨⟨n, s''⟩, hwrite, hr⟩ := bind_eq_ok.mp hr
      obtain ⟨k', hk', rfl, hlt'⟩ := hout'.kfile
      obtain ⟨c, offset, hoffset, rfl⟩ := write_from_kspace_ok hk' (by simpa using hpos)
        (hout'.start_lt hk') hwrite
      have hexit := ih (hin'.write hk' hoffset) (hout'.write hk' hoffset) hr
      refine ⟨hexit.opened, hexit.offset, ?_, fun hne => (hexit.kept hne).trans ?_⟩
      · exact hoff.file_size.symm.le.trans (file_size_le_write.trans hexit.le)
      · rw [inodes_grow_of_ne hne]
        exact (file_size_set_page_cache c).trans hoff.file_size

end Exit

section Mirrors

variable {s t : FsState} {h a b : Nat} {k : KFile} {f : FlatFile}

/-- What another inode holds does not depend on it. -/
theorem Mirrors.frame (hm : Mirrors b s f) (hfs : t.fs = s.fs) (hinode : t.inodes b = s.inodes b)
    (hfiles : ∀ h k, t.kfile h = .ok k → k.inode = b → s.kfile h = .ok k) : Mirrors b t f where
  pages := by
    rw [hfs, hinode]
    exact hm.pages
  size := by
    rw [hinode]
    exact hm.size
  size_lt := hm.size_lt
  files h k hk hb := hm.files h k (hfiles h k hk hb) hb

theorem Mirrors.opened (hm : Mirrors a s f) (hk : s.kfile h = .ok k) (ha : k.inode = a) :
    s.OpenOn h a where
  kfile := ⟨k, hk, ha, (hm.files h k hk ha).offset_lt⟩
  size_lt := by
    rw [hm.size]
    exact hm.size_lt

theorem Mirrors.frame_kfile {offset : Nat} (hm : Mirrors b s f) (hk : s.kfile h = .ok k)
    (hb : k.inode ≠ b) (hfs : t.fs = s.fs) (hinode : t.inodes b = s.inodes b)
    (hfiles : t.files = s.files) :
    Mirrors b (t.set_kfile h { k with offset := offset }) f := by
  refine hm.frame hfs hinode fun h' k' hk' hb' => ?_
  obtain rfl | hne := eq_or_ne h' h
  · cases (kfile_set_kfile ..).symm.trans hk'
    exact absurd hb' hb
  · rw [kfile_set_kfile_of_ne t hne] at hk'
    rwa [FsState.kfile, ← hfiles]

/-- The pages of an inode hold an array. -/
def Regular (s : FsState) (a : Nat) : Prop := ∃ f, Mirrors a s f

/-- A read takes the file to its end, and changes nothing that can be read. -/
structure ReadRest (s t : FsState) (h : Nat) (k : KFile) (data : List UInt8) : Prop where
  length : data.length = (s.inodes k.inode).file_size - k.offset
  data : ∀ i < data.length, (s.inodes k.inode).byte s.fs (k.offset + i) = .ok (data.getD i 0)
  kfile : t.kfile h = .ok { k with offset := (s.inodes k.inode).file_size }
  kfile_of_ne : ∀ h' ≠ h, t.kfile h' = s.kfile h'
  regular : ∀ b, s.Regular b → t.Regular b
  byte : ∀ b i, (t.inodes b).byte t.fs i = (s.inodes b).byte s.fs i
  file_size : ∀ b, (t.inodes b).file_size = (s.inodes b).file_size

theorem Regular.read_to_kspace (hr : s.Regular k.inode) (hk : s.kfile h = .ok k)
    (hle : k.offset ≤ (s.inodes k.inode).file_size)
    (hlt : (s.inodes k.inode).file_size - k.offset < 2 ^ 63) :
    ∃ data t, s.read_to_kspace h = .ok (data, t) ∧ ReadRest s t h k data := by
  obtain ⟨f, hm⟩ := hr
  have hsize := hm.size_lt
  rw [hm.size] at hle hlt
  obtain ⟨c, hc, hpages⟩ := hm.pages
  obtain ⟨⟨buf, offset, c'⟩, hslice, hbuf, -, hpages'⟩ :=
    (PageCache.read_slice_meets le_rfl hpages
      (by omega : k.offset + (f.size - k.offset) < 2 ^ 64)).exists_ok
  have hlen : wrapping_sub (s.inodes k.inode).file_size k.offset = f.size - k.offset := by
    rw [hm.size, wrapping_sub_of_le hle hsize]
  have hend : usize (k.offset + (f.size - k.offset)) = f.size := by
    rw [Nat.add_sub_cancel' hle]
    exact Nat.mod_eq_of_lt hsize
  have hk' : (s.set_page_cache k.inode c').kfile h = .ok k := hk
  simp only at hbuf hpages'
  subst hbuf
  have hset := hm.set_pages hpages'
  have hseek := @Mirrors.seek _ _ h _ _ f.size hset hk' rfl hsize
  refine ⟨slice f.bytes k.offset (f.size - k.offset),
    (s.set_page_cache k.inode c').set_kfile h { k with offset := f.size }, ?_, ?_⟩
  · rw [FsState.read_to_kspace, hk, ok_bind]
    simp only [hlen, kernel_read_with_offset, hk, page_cache, hc, ok_bind,
      if_neg (not_le.mpr hlt), hslice, length_slice, hend, FsState.seek, hk', pure, Except.pure]
  constructor
  · rw [length_slice, hm.size]
  · intro i hi
    rw [length_slice] at hi
    rw [hm.describes.byte, getD_slice, if_pos hi]
  · rw [hm.size]
    exact kfile_set_kfile _ h _
  · intro h' hne
    exact kfile_set_kfile_of_ne _ hne _
  · rintro b ⟨g, hg⟩
    obtain rfl | hb := eq_or_ne b k.inode
    · exact ⟨_, hseek⟩
    · exact ⟨g, hg.frame_kfile hk hb.symm rfl (inodes_set_page_cache_of_ne hb c') rfl⟩
  · intro b i
    obtain rfl | hb := eq_or_ne b k.inode
    · exact (hseek.describes.byte i).trans (hm.describes.byte i).symm
    · exact congrArg (fun inode => Inode.byte s.fs inode i) (inodes_set_page_cache_of_ne hb c')
  · exact fun b => file_size_set_page_cache c'

/-- A write replaces a range of the file, if it does not wrap. -/
structure Wrote (s t : FsState) (h : Nat) (k : KFile) (data : List UInt8) : Prop where
  kfile : t.kfile h = .ok
    { k with offset := stop (2 ^ 64) (s.start k k.offset) data.length }
  kfile_of_ne : ∀ h' ≠ h, t.kfile h' = s.kfile h'
  regular : ∀ b, s.Regular b → t.Regular b
  byte : s.start k k.offset + data.length < 2 ^ 64 → ∀ i, (t.inodes k.inode).byte t.fs i =
    if s.start k k.offset ≤ i ∧ i < s.start k k.offset + data.length then
      .ok (data.getD (i - s.start k k.offset) 0)
    else (s.inodes k.inode).byte s.fs i
  file_size : (t.inodes k.inode).file_size =
    max (s.inodes k.inode).file_size (stop (2 ^ 64) (s.start k k.offset) data.length)
  file_size_of_ne : ∀ b ≠ k.inode, (t.inodes b).file_size = (s.inodes b).file_size

theorem Regular.write_from_kspace (hr : s.Regular k.inode) (hk : s.kfile h = .ok k)
    {data : List UInt8} (hdata : data ≠ []) :
    ∃ t, s.write_from_kspace h data = .ok (data.length, t) ∧ Wrote s t h k data := by
  obtain ⟨f, hm⟩ := hr
  have hne : [data].flatten ≠ [] := by simpa using hdata
  have hstart := hm.start hk rfl k.offset
  obtain ⟨t, ht, hm'⟩ := write_from_ubuf_mirrors hm hk rfl hne
  rw [List.flatten_singleton, ← (hm.files h k hk rfl).offset, ← hstart] at hm'
  rw [List.flatten_singleton] at ht
  obtain ⟨c, offset, -, rfl⟩ := write_from_kspace_ok hk hdata ((hm.opened hk rfl).start_lt hk) ht
  refine ⟨_, ht, ?_⟩
  have hkfile := kfile_set_kfile (s.set_page_cache k.inode c) h { k with offset := offset }
  rw [← kfile_grow (a := k.inode) offset] at hkfile
  have hoffset := (hm'.files h _ hkfile rfl).offset
  constructor
  · rw [hkfile, ← Function.update_self h (stop (2 ^ 64) (s.start k k.offset) data.length) f.offset]
    exact congrArg (fun offset => Except.ok { k with offset := offset }) hoffset
  · intro h' hne
    rw [kfile_grow, kfile_set_kfile_of_ne _ hne]
    rfl
  · rintro b ⟨g, hg⟩
    obtain rfl | hb := eq_or_ne b k.inode
    · exact ⟨_, hm'⟩
    · have hset := @Mirrors.frame_kfile s (s.set_page_cache k.inode c) h b k g offset hg hk hb.symm
        rfl (inodes_set_page_cache_of_ne hb c) rfl
      refine ⟨g, hset.frame (fs_grow offset) (inodes_grow_of_ne hb offset) fun h' k' hk' _ => ?_⟩
      rwa [kfile_grow] at hk'
  · intro hlt i
    rw [hm'.describes.byte, hm.describes.byte]
    have hput := put_apply f.bytes hlt.le i 0
    split
    · next hin => exact congrArg Except.ok (hput.trans (if_pos hin))
    · next hout => exact congrArg Except.ok (hput.trans (if_neg hout))
  · rw [hm'.size, hm.size]
    rfl
  · intro b hb
    rw [inodes_grow_of_ne hb]
    exact file_size_set_page_cache c

end Mirrors

/-- What is left of a file. -/
def rest (s : FsState) (k : KFile) : Nat := (s.inodes k.inode).file_size - k.offset

/-- The bytes that followed the position of the input are where the output stood, and the call
returns how many these are. -/
structure Sent (s t : FsState) (hi : Nat) (ki ko : KFile) (count ret : Nat) : Prop where
  returned : ret = min count (s.rest ki)
  offset : ∃ k, t.kfile hi = .ok k ∧ k.offset = ki.offset + ret
  file_size : (t.inodes ko.inode).file_size =
    if ret = 0 then (s.inodes ko.inode).file_size
    else max (s.inodes ko.inode).file_size (s.start ko ko.offset + ret)
  byte : ∀ i, (t.inodes ko.inode).byte t.fs i =
    if s.start ko ko.offset ≤ i ∧ i < s.start ko ko.offset + ret then
      (s.inodes ki.inode).byte s.fs (ki.offset + (i - s.start ko ko.offset))
    else (s.inodes ko.inode).byte s.fs i

/-- The position is not behind the end, the rest of the input is not more than the count and can be
allocated, and the write neither wraps nor makes the input longer. -/
structure Sendable (s : FsState) (hi ho : Nat) (ki ko : KFile) (count : Nat) : Prop where
  le : ki.offset ≤ (s.inodes ki.inode).file_size
  count : s.rest ki ≤ count
  lt : s.rest ki < 2 ^ 63
  room : 0 < s.rest ki → s.start ko ko.offset + s.rest ki < 2 ^ 64
  within : 0 < s.rest ki → ki.inode = ko.inode →
    hi ≠ ho ∧ s.start ko ko.offset + s.rest ki ≤ (s.inodes ki.inode).file_size

section Sendfile

variable {s : FsState} {hi ho count : Nat} {ki ko : KFile} (hki : s.kfile hi = .ok ki)
  (hko : s.kfile ho = .ok ko) (hri : s.Regular ki.inode) (hro : s.Regular ko.inode)

include hki hri

/-- There is nothing to send. -/
theorem Sendable.sent_nothing (h : Sendable s hi ho ki ko count) (hzero : s.rest ki = 0) :
    ∃ t, sendfile_loop hi ho 2 0 s = .ok (some (0, t)) ∧ Sent s t hi ki ko count 0 := by
  obtain ⟨data, t, hread, ht⟩ := hri.read_to_kspace hki h.le h.lt
  have hlen : data.length = 0 := ht.length.trans hzero
  have hoffset : (s.inodes ki.inode).file_size = ki.offset + 0 := by
    have hle := h.le
    unfold rest at hzero
    omega
  refine ⟨t, ?_, ?_⟩
  · rw [sendfile_loop, hread, ok_bind]
    simp only [hlen, if_true]
    rfl
  constructor
  · rw [hzero, Nat.min_zero]
  · exact ⟨_, ht.kfile, hoffset⟩
  · exact ht.file_size ko.inode
  · intro i
    rw [if_neg (by omega)]
    exact ht.byte ko.inode i

include hko hro

/-- One read and one write send the rest, and the next read finds the end. -/
theorem Sendable.sent_rest (h : Sendable s hi ho ki ko count) (hpos : 0 < s.rest ki) :
    ∃ t, sendfile_loop hi ho 2 0 s = .ok (some (s.rest ki, t)) ∧
      Sent s t hi ki ko count (s.rest ki) := by
  have hne : hi ≠ ho := by
    rintro rfl
    cases hki.symm.trans hko
    exact (h.within hpos rfl).1 rfl
  have hroom := h.room hpos
  obtain ⟨data, t₁, hread, h₁⟩ := hri.read_to_kspace hki h.le h.lt
  have hlen : data.length = s.rest ki := h₁.length
  have hdata : data ≠ [] := by
    rintro rfl
    exact absurd hlen hpos.ne
  have hko₁ : t₁.kfile ho = .ok ko := (h₁.kfile_of_ne ho hne.symm).trans hko
  have hstart : t₁.start ko ko.offset = s.start ko ko.offset := by
    rw [FsState.start, FsState.start, h₁.file_size]
  obtain ⟨t₂, hwrite, h₂⟩ := (h₁.regular _ hro).write_from_kspace hko₁ hdata
  have hstop : stop (2 ^ 64) (t₁.start ko ko.offset) data.length =
      s.start ko ko.offset + s.rest ki := by
    rw [hstart, hlen]
    exact Nat.mod_eq_of_lt hroom
  have hki₂ := (h₂.kfile_of_ne hi hne).trans h₁.kfile
  -- the input has not become longer
  have hsize₂ : (t₂.inodes ki.inode).file_size = (s.inodes ki.inode).file_size := by
    obtain heq | hapart := eq_or_ne ki.inode ko.inode
    · rw [heq, h₂.file_size, h₁.file_size, hstop, ← heq]
      exact Nat.max_eq_left (h.within hpos heq).2
    · rw [h₂.file_size_of_ne _ hapart, h₁.file_size]
  have hrest₂ : t₂.rest { ki with offset := (s.inodes ki.inode).file_size } = 0 := by
    rw [rest, hsize₂]
    exact Nat.sub_self _
  obtain ⟨data', t₃, hread', h₃⟩ := @Regular.read_to_kspace t₂ hi
    { ki with offset := (s.inodes ki.inode).file_size } (h₂.regular _ (h₁.regular _ hri)) hki₂
    hsize₂.symm.le (hrest₂.trans_lt (Nat.two_pow_pos 63))
  have hlen' : data'.length = 0 := h₃.length.trans hrest₂
  have htotal : usize (0 + data.length) = s.rest ki := by
    have hlt := h.lt
    rw [hlen, Nat.zero_add]
    exact Nat.mod_eq_of_lt (by omega)
  have hoffset : (s.inodes ki.inode).file_size = ki.offset + s.rest ki :=
    (Nat.add_sub_cancel' h.le).symm
  refine ⟨t₃, ?_, ?_⟩
  · rw [sendfile_loop, hread, ok_bind]
    simp only [hlen, if_neg hpos.ne', hwrite, ok_bind]
    rw [sendfile_loop, hread', ok_bind]
    simp only [hlen', if_true, ← hlen, htotal]
    rfl
  constructor
  · exact (Nat.min_eq_right h.count).symm
  · exact ⟨_, h₃.kfile, hsize₂.trans hoffset⟩
  · rw [if_neg hpos.ne', h₃.file_size, h₂.file_size, h₁.file_size, hstop]
  · intro i
    rw [h₃.byte, h₂.byte (by rw [hstart, hlen]; exact hroom), hstart, hlen, h₁.byte]
    split
    · next hin =>
      exact (h₁.data _ (by omega)).symm
    · rfl

omit hko hro in
/-- A file that is sent to itself gets longer. -/
theorem lt_file_size_of_same (hpos : 0 < s.rest ki) {fuel ret : Nat} {t : FsState}
    (hr : sendfile_loop hi hi fuel 0 s = .ok (some (ret, t))) :
    (s.inodes ki.inode).file_size < (t.inodes ki.inode).file_size := by
  have hopen := hri.elim fun f hm => hm.opened hki rfl
  obtain ⟨k, hk, -, hoffset⟩ := hopen.kfile
  cases hki.symm.trans hk
  have hsize := hopen.size_lt
  have hle : ki.offset ≤ (s.inodes ki.inode).file_size := (Nat.lt_of_sub_pos hpos).le
  cases fuel with
  | zero => cases hr
  | succ fuel =>
    rw [sendfile_loop] at hr
    obtain ⟨⟨data, t₁⟩, hread, hr⟩ := bind_eq_ok.mp hr
    have hoff := read_to_kspace_ok hki hread
    have hlt := hoff.length_lt
    have hlen : data.length = s.rest ki := hoff.length.trans (wrapping_sub_of_le hle hsize)
    obtain ⟨_, _, hread', h₁⟩ := hri.read_to_kspace hki hle (by rwa [hlen] at hlt)
    cases hread.symm.trans hread'
    have hdata : data ≠ [] := by
      rintro rfl
      exact absurd hlen hpos.ne
    have hstart : t₁.start { ki with offset := (s.inodes ki.inode).file_size }
        (s.inodes ki.inode).file_size = (s.inodes ki.inode).file_size := by
      rw [FsState.start, h₁.file_size]
      exact ite_self _
    obtain ⟨t₂, hwrite, h₂⟩ := @Regular.write_from_kspace t₁ hi
      { ki with offset := (s.inodes ki.inode).file_size } (h₁.regular _ hri) h₁.kfile data hdata
    simp only [hlen, if_neg hpos.ne', hwrite, ok_bind] at hr
    have hkfile := h₂.kfile
    have hsize₂ := h₂.file_size
    have hopen₂ := (h₂.regular _ (h₁.regular _ hri)).elim fun f hm => hm.opened hkfile rfl
    simp only [hstart, hlen, h₁.file_size] at hkfile hsize₂
    by_cases hwrap : (s.inodes ki.inode).file_size + s.rest ki < 2 ^ 64
    · have hstop : stop (2 ^ 64) (s.inodes ki.inode).file_size (s.rest ki) =
          (s.inodes ki.inode).file_size + s.rest ki := Nat.mod_eq_of_lt hwrap
      have hexit := sendfile_loop_exit hopen₂ hopen₂ hr
      have hgrown := hsize₂ ▸ hexit.le
      rw [hstop] at hgrown
      omega
    · -- the rest of the file is now too long for a buffer
      have hrest : s.rest ki ≤ (s.inodes ki.inode).file_size := Nat.sub_le _ _
      have hstop : stop (2 ^ 64) (s.inodes ki.inode).file_size (s.rest ki) =
          (s.inodes ki.inode).file_size + s.rest ki - 2 ^ 64 := by
        unfold stop
        omega
      rw [hstop] at hkfile hsize₂
      rw [Nat.max_eq_left (by omega)] at hsize₂
      cases fuel with
      | zero => cases hr
      | succ fuel =>
        rw [sendfile_loop] at hr
        obtain ⟨⟨data', t₃⟩, hread₂, -⟩ := bind_eq_ok.mp hr
        have hoff₂ := read_to_kspace_ok hkfile hread₂
        have hlen₂ := hoff₂.length
        have hlt₂ := hoff₂.length_lt
        simp only at hlen₂
        rw [hsize₂, wrapping_sub_of_le (by omega) hsize] at hlen₂
        rw [hlen] at hlt
        omega

/-- A run that does what it should was on such files. -/
theorem Sent.sendable {fuel ret : Nat} {t : FsState}
    (hr : sendfile_loop hi ho fuel 0 s = .ok (some (ret, t)))
    (h : Sent s t hi ki ko count ret) : Sendable s hi ho ki ko count := by
  have hin := hri.elim fun f hm => hm.opened hki rfl
  have hout := hro.elim fun f hm => hm.opened hko rfl
  have hexit := sendfile_loop_exit hin hout hr
  have hsize := hin.size_lt
  have hend : (t.inodes ki.inode).file_size = ki.offset + ret := by
    obtain ⟨k, hk, hsize⟩ := hexit.offset
    obtain ⟨k', hk', hoffset⟩ := h.offset
    cases hk.symm.trans hk'
    exact hsize.symm.trans hoffset
  have hret := h.returned
  have hfile := h.file_size
  have hbound := hexit.opened.size_lt
  have hrest : s.rest ki = (s.inodes ki.inode).file_size - ki.offset := rfl
  -- the input has kept its size
  have hkept : (s.inodes ki.inode).file_size = ki.offset + ret := by
    obtain heq | hapart := eq_or_ne ki.inode ko.inode
    · rw [← heq, hend] at hfile
      split at hfile <;> omega
    · exact (hexit.kept hapart).symm.trans hend
  have hlt : s.rest ki < 2 ^ 63 := by
    obtain ⟨k, hk, -, hoffset⟩ := hin.kfile
    cases hki.symm.trans hk
    cases fuel with
    | zero => cases hr
    | succ fuel =>
      rw [sendfile_loop] at hr
      obtain ⟨⟨data, t₁⟩, hread, -⟩ := bind_eq_ok.mp hr
      have hoff := read_to_kspace_ok hki hread
      have hlen := hoff.length.trans (wrapping_sub_of_le (by omega) hsize)
      exact hrest.trans_lt (hlen ▸ hoff.length_lt)
  refine ⟨by omega, by omega, hlt, fun hpos => ?_, fun hpos heq => ⟨?_, ?_⟩⟩
  · rw [if_neg (by omega)] at hfile
    omega
  · rintro rfl
    have hgrown := lt_file_size_of_same hki hri hpos hr
    omega
  · rw [if_neg (by omega), ← heq] at hfile
    omega

end Sendfile

section Floppy

/-- Two empty files; the first one is opened twice. -/
def two_files : FsState where
  fs :=
    { device := floppy [.new 0 [65] [] .File, .new 0 [66] [] .File]
      free_cluster_cnt := 12
      bpb := .of_block (floppy [] 0)
      recycled_cluster := []
      root_dir_entry := .new 2 [ROOT] [] .Dir
      chains := fun c => if c = 0 then [2] else []
      next_chain := 3 }
  ino := 2
  inodes a := ⟨⟨[if a = 0 then 'a' else 'b'], ⟨2, DIRENT_SIZE * a⟩, [], a + 1, .File⟩, a, some ∅, 0⟩
  next_inode := 2
  inode_cache := ∅
  files := [⟨0, .new true true 0 [['a']] ['a']⟩, ⟨1, .new true true 1 [['b']] ['b']⟩,
    ⟨2, .new true true 0 [['a']] ['a']⟩].toAList
  next_file := 3

theorem two_files_regular (a : Nat) : two_files.Regular a := by
  refine ⟨⟨fun _ => 0, 0, fun _ => 0, fun _ => false⟩, ⟨∅, rfl, .empty fun i => ?_⟩, rfl,
    Nat.two_pow_pos 64, fun h k hk _ => ?_⟩
  · exact disk_byte_of_no_clusters rfl i
  · have hfile : k.offset = 0 ∧ k.flags = 0 := by
      rw [FsState.kfile] at hk
      split at hk
      · next f hf =>
        cases hk
        rw [two_files, AList.lookup_to_alist] at hf
        have hmem := List.of_mem_dlookup hf
        simp only [List.mem_cons, Sigma.mk.injEq, heq_eq_eq, List.not_mem_nil, or_false] at hmem
        obtain ⟨-, rfl⟩ | ⟨-, rfl⟩ | ⟨-, rfl⟩ := hmem <;> exact ⟨rfl, rfl⟩
      · cases hk
    exact ⟨hfile.1, hfile.1 ▸ Nat.two_pow_pos 64, by rw [hfile.2]; rfl⟩

/-- The first file has three bytes, which are read through its second handle. -/
theorem exists_three_bytes : ∃ (s : FsState) (ki ko : KFile),
    unwrap_fd [some 0, some 1, some 2] 2 = .ok 2 ∧ unwrap_fd [some 0, some 1, some 2] 1 = .ok 1 ∧
      s.kfile 2 = .ok ki ∧ s.kfile 1 = .ok ko ∧ s.Regular ki.inode ∧ s.Regular ko.inode ∧
      s.rest ki = 3 ∧ Sendable s 2 1 ki ko 3 := by
  obtain ⟨s, -, hs⟩ := @Regular.write_from_kspace two_files 0 (.new true true 0 [['a']] ['a'])
    (two_files_regular 0) rfl [1, 2, 3] (List.cons_ne_nil _ _)
  have hrest : s.rest (.new true true 0 [['a']] ['a']) = 3 := hs.file_size
  have hstart : s.start (.new true true 1 [['b']] ['b']) 0 = 0 := rfl
  refine ⟨s, .new true true 0 [['a']] ['a'], .new true true 1 [['b']] ['b'], rfl, rfl,
    hs.kfile_of_ne 2 (by decide), hs.kfile_of_ne 1 (by decide), hs.regular _ (two_files_regular _),
    hs.regular _ (two_files_regular _), hrest, Nat.zero_le _, hrest.le, ?_, fun _ => ?_, ?_⟩
  · rw [hrest]
    decide
  · exact (congrArg₂ (· + ·) hstart hrest).trans_lt (by decide)
  · exact fun _ heq => absurd heq (by decide)

end Floppy

end FsState

end MyGOS.Fs
