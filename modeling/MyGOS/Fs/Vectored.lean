import MyGOS.Fs.FlatWrites
import MyGOS.Fs.Sendfile

/-!
# Vectored reads and writes

`sys_readv` and `sys_writev` walk the array of entries by its addresses. The step
of `sys_writev` grows with the index, so it comes to the entries 0, 1, 3, 6 and
so on.
-/

namespace MyGOS.Fs

open Fat32 Outcome FlatArray

structure Iovec where
  iov_base : Nat
  iov_len : Nat

/-- `size_of::<Iovec>()` -/
def IOVEC_SIZE : Nat := 16

/-- The memory of a process: the entry at an address, and the slices of a buffer. A read does not
store into the entries. -/
structure UserSpace where
  translated_ref : Nat → Except FsPanic Iovec
  translated_bytes_buffer : Nat → Nat → Except FsPanic (List (List UInt8))

namespace UserSpace

variable (user : UserSpace)

/-- The buffer of an entry, and of what it begins with. -/
def Holds (iov : Iovec) (d : List UInt8) : Prop :=
  d.length = iov.iov_len ∧ ∀ len ≤ iov.iov_len, ∃ slices,
    user.translated_bytes_buffer iov.iov_base len = .ok slices ∧ slices.flatten = d.take len

variable {user} in
theorem Holds.slices_ok {iov : Iovec} {d : List UInt8} (hd : user.Holds iov d)
    {len : Nat} (hlen : len ≤ iov.iov_len) : ∃ slices,
      user.translated_bytes_buffer iov.iov_base len = .ok slices ∧
        (slices.map List.length).sum = len := by
  obtain ⟨slices, hslices, hflat⟩ := hd.2 len hlen
  refine ⟨slices, hslices, ?_⟩
  rw [← List.length_flatten, hflat, List.length_take, hd.1, Nat.min_eq_left hlen]

/-- The array of the entries. -/
def Entries : (addr : Nat) → List Iovec → Prop
  | _, [] => True
  | addr, iov :: iovs =>
    user.translated_ref addr = .ok iov ∧ Entries (usize (addr + IOVEC_SIZE)) iovs

/-- The slices that the entry at an address names. -/
def slices (addr : Nat) : Except FsPanic (List (List UInt8)) := do
  let iov ← user.translated_ref addr
  user.translated_bytes_buffer iov.iov_base iov.iov_len

/-- What the entry at an address names. -/
def bytes (addr : Nat) : Except FsPanic (List UInt8) := List.flatten <$> user.slices addr

end UserSpace

/-- Where `sys_writev` finds its entries. -/
def entry_addrs (iovp : Nat) : (i n : Nat) → List Nat
  | _, 0 => []
  | i, n + 1 =>
    usize (iovp + IOVEC_SIZE * i) :: entry_addrs (usize (iovp + IOVEC_SIZE * i)) (i + 1) n

/-- A buffer: its addresses, the bytes there, and the slices of what it begins with. -/
structure UserBuffer where
  addrs : List Nat
  bytes : List UInt8
  slices : Nat → List (List UInt8)
  length_addrs : addrs.length = bytes.length
  flatten_slices : ∀ len, (slices len).flatten = bytes.take len
  slices_zero : slices 0 = []

def ZERO : Name := ['Z', 'E', 'R', 'O']

namespace FsState

section Calls

variable (s : FsState)

/-- The loop of `sys_readv` over what is left of the entries. The bytes go to the addresses of each
buffer. -/
def readv_loop (user : UserSpace) (h left : Nat) : (n addr total_read_len : Nat) → FsState →
    Except FsPanic (Nat × List (Nat × UInt8) × FsState)
  | 0, _, total_read_len, s => .ok (total_read_len, [], s)
  | n + 1, addr, total_read_len, s => do
    let iov ← user.translated_ref addr
    let len := min iov.iov_len (wrapping_sub left total_read_len)
    let slices ← user.translated_bytes_buffer iov.iov_base len
    let (bytes, read, s) ← s.read_to_ubuf h (slices.map List.length)
    let (total_read_len, stores, s) ← readv_loop user h left n (usize (addr + IOVEC_SIZE))
      (total_read_len + read) s
    return (total_read_len, (List.range' iov.iov_base bytes.length).zip bytes ++ stores, s)

def sys_readv (user : UserSpace) (fd_table : FDTable Nat) (fd iovp iovcnt : Nat) :
    Except FsPanic (Except Errno Nat × List (Nat × UInt8) × FsState) :=
  match fd_table[fd]? with
  | none => .ok (.error .EBADF, [], s)
  | some none => .ok (.error .EBADF, [], s)
  | some (some h) => do
    let f ← s.kfile h
    if f.readable = false then return (.error .EINVAL, [], s)
    else do
      let left := wrapping_sub (s.inodes f.inode).file_size f.offset
      let (total_read_len, stores, s) ← readv_loop user h left iovcnt iovp 0 s
      return (.ok total_read_len, stores, s)

/-- The loop of `sys_writev` from the index `i` on. -/
def writev_loop (user : UserSpace) (h : Nat) : (i n addr total_write_len : Nat) → FsState →
    Except FsPanic (Nat × FsState)
  | _, 0, _, total_write_len, s => .ok (total_write_len, s)
  | i, n + 1, addr, total_write_len, s => do
    let addr := usize (addr + IOVEC_SIZE * i)
    let slices ← user.slices addr
    let (written, s) ← s.write_from_ubuf h slices
    writev_loop user h (i + 1) n addr (total_write_len + written) s

def sys_writev (user : UserSpace) (fd_table : FDTable Nat) (fd iovp iovcnt : Nat) :
    Except FsPanic (Except Errno Nat × FsState) :=
  match fd_table[fd]? with
  | none => .ok (.error .EBADF, s)
  | some none => .ok (.error .EBADF, s)
  | some (some h) => do
    let f ← s.kfile h
    if f.writable = false then return (.error .EINVAL, s)
    else do
      let (total_write_len, s) ← writev_loop user h 0 iovcnt iovp 0 s
      return (.ok total_write_len, s)

/-- `sys_read`, with the `len` of the buffer. -/
def sys_read (fd_table : FDTable Nat) (fd : Nat) (buf : UserBuffer) :
    Except FsPanic (Except Errno Nat × List (Nat × UInt8) × FsState) :=
  match fd_table[fd]? with
  | none => .ok (.error .EBADF, [], s)
  | some none => .ok (.error .EBADF, [], s)
  | some (some h) => do
    let f ← s.kfile h
    if f.readable = false then return (.error .EINVAL, [], s)
    else if f.name = zero ∨ f.name = ZERO then
      -- as many zeros as there are slices
      let buffers := (buf.slices buf.bytes.length).length
      return (.ok buffers, buf.addrs.zip (List.replicate buffers 0), s)
    else do
      let len := min buf.bytes.length (wrapping_sub (s.inodes f.inode).file_size f.offset)
      let (bytes, readsize, s) ← s.read_to_ubuf h ((buf.slices len).map List.length)
      return (.ok readsize, buf.addrs.zip bytes, s)

/-- `sys_write` of a buffer that `check_va_range` accepts; `fd` is an `i32`. -/
def sys_write (fd_table : FDTable Nat) (fd : Int) (buf : UserBuffer) :
    Except FsPanic (Except Errno Nat × FsState) :=
  match fd_table[FDTable.as_usize fd]? with
  | none => .ok (.error .EBADF, s)
  | some none => .ok (.error .EBADF, s)
  | some (some h) => do
    let f ← s.kfile h
    if f.writable = false then return (.error .EINVAL, s)
    else do
      let (write_size, s) ← s.write_from_ubuf h (buf.slices buf.bytes.length)
      return (.ok write_size, s)

end Calls

/-- Both writes return the same, and leave the same files. -/
def WritesAlike (r r' : Except FsPanic (Except Errno Nat × FsState)) : Prop :=
  ∃ ret, ∃ (s s' : FsState), r = .ok (ret, s) ∧ r' = .ok (ret, s') ∧ Same s s'

/-- Both reads return and store the same, and leave the same files. -/
def ReadsAlike (r r' : Except FsPanic (Except Errno Nat × List (Nat × UInt8) × FsState)) : Prop :=
  ∃ ret stores, ∃ (s s' : FsState),
    r = .ok (ret, stores, s) ∧ r' = .ok (ret, stores, s') ∧ Same s s'

section Writev

variable {s : FsState} {h : Nat} {k : KFile} {f : FlatFile} {user : UserSpace}

/-- The loop writes what the visited entries name. -/
theorem writev_loop_becomes (hm : Mirrors k.inode s f) (hk : s.kfile h = .ok k) {n : Nat} :
    ∀ {i addr total : Nat} {es : List (List UInt8)},
      (entry_addrs addr i n).mapM user.bytes = .ok es →
      ∃ t, writev_loop user h i n addr total s = .ok (total + es.flatten.length, t) ∧
        Becomes s t h k (f.writes h es) := by
  induction n generalizing s k f with
  | zero =>
    intro i addr total es hes
    cases hes
    exact ⟨s, rfl, .refl hm hk⟩
  | succ n ih =>
    intro i addr total es hes
    rw [entry_addrs, List.mapM_cons] at hes
    obtain ⟨d, hd, hes⟩ := bind_eq_ok.mp hes
    obtain ⟨ds, hds, hes⟩ := bind_eq_ok.mp hes
    cases hes
    obtain ⟨slices, hslices, rfl⟩ := map_eq_ok.mp hd
    obtain ⟨t, hwrite, ht⟩ := write_from_ubuf_becomes hm hk slices
    obtain ⟨u, hloop, hu⟩ := @ih t { k with offset := (f.wrote h slices.flatten).offset h } _
      ht.mirrors ht.kfile _ _ (total + slices.flatten.length) _ hds
    refine ⟨u, ?_, ht.trans hu⟩
    rw [writev_loop, hslices, ok_bind, hwrite, ok_bind]
    simp only
    rw [hloop, List.flatten_cons, List.length_append, Nat.add_assoc]

theorem mapM_of_writev_loop (hm : Mirrors k.inode s f) (hk : s.kfile h = .ok k) {n : Nat} :
    ∀ {i addr total : Nat} {r : Nat × FsState}, writev_loop user h i n addr total s = .ok r →
      ∃ es, (entry_addrs addr i n).mapM user.bytes = .ok es := by
  induction n generalizing s k f with
  | zero => exact fun _ => ⟨[], rfl⟩
  | succ n ih =>
    intro i addr total r hr
    rw [writev_loop] at hr
    obtain ⟨slices, hslices, hr⟩ := bind_eq_ok.mp hr
    obtain ⟨t, hwrite, ht⟩ := write_from_ubuf_becomes hm hk slices
    rw [hwrite, ok_bind] at hr
    obtain ⟨es, hes⟩ := @ih t { k with offset := (f.wrote h slices.flatten).offset h } _
      ht.mirrors ht.kfile _ _ _ _ hr
    refine ⟨slices.flatten :: es, ?_⟩
    rw [entry_addrs, List.mapM_cons, UserSpace.bytes, hslices, hes]
    rfl

end Writev

section Readv

variable {s : FsState} {h : Nat} {k : KFile} {f : FlatFile} {user : UserSpace}

/-- Behind the end nothing is read. -/
theorem read_to_ubuf_end (hk : s.kfile h = .ok k)
    (hend : (s.inodes k.inode).file_size ≤ k.offset) (slices : List Nat) :
    ∃ bytes, s.read_to_ubuf h slices = .ok (bytes, 0, s) ∧
      (k.name ≠ zero ∨ slices.sum = 0 → bytes = []) := by
  rw [read_to_ubuf, hk, ok_bind]
  simp only [if_pos hend]
  split
  · refine ⟨_, rfl, ?_⟩
    rintro (hname | hsum)
    · rw [if_neg hname]
    · rw [hsum]
      exact ite_self _
  · exact ⟨[], rfl, fun _ => rfl⟩

theorem readv_loop_end {left : Nat} {iovs : List Iovec} (hk : s.kfile h = .ok k)
    (hend : (s.inodes k.inode).file_size ≤ k.offset)
    (hbuffers : ∀ iov ∈ iovs, ∃ d, user.Holds iov d) :
    ∀ {addr : Nat}, user.Entries addr iovs →
      ∃ stores, readv_loop user h left iovs.length addr 0 s = .ok (0, stores, s) ∧
        (k.name ≠ zero ∨ (∀ iov ∈ iovs, iov.iov_len = 0) → stores = []) := by
  induction iovs with
  | nil => exact fun _ => ⟨[], rfl, fun _ => rfl⟩
  | cons iov iovs ih =>
    rintro addr ⟨href, hentries⟩
    rw [List.forall_mem_cons] at hbuffers
    obtain ⟨⟨d, hd⟩, hbuffers⟩ := hbuffers
    obtain ⟨slices, hslices, hsum⟩ :=
      hd.slices_ok (Nat.min_le_left iov.iov_len (wrapping_sub left 0))
    obtain ⟨bytes, hread, hbytes⟩ := read_to_ubuf_end hk hend (slices.map List.length)
    obtain ⟨stores, hloop, hstores⟩ := ih hbuffers hentries
    refine ⟨(List.range' iov.iov_base bytes.length).zip bytes ++ stores, ?_, fun hcase => ?_⟩
    · rw [List.length_cons, readv_loop, href, ok_bind]
      simp only [hslices, ok_bind, hread, hloop]
      rfl
    · have hnil : bytes = [] := hbytes (hcase.imp_right fun hzero => by
        rw [hsum, hzero iov List.mem_cons_self, Nat.zero_min])
      rw [hnil, hstores (hcase.imp_right fun hzero iov hiov => hzero iov
        (List.mem_cons_of_mem _ hiov))]
      rfl

/-- A list that ends early is stored into the first part only. -/
theorem zip_append_zip {α β : Type} {as as' : List α} {bs bs' : List β}
    (hle : bs.length ≤ as.length) (hnil : bs.length < as.length → bs' = []) :
    (as ++ as').zip (bs ++ bs') = (as.take bs.length).zip bs ++ as'.zip bs' := by
  obtain heq | hlt := hle.eq_or_lt
  · rw [heq, List.take_length, List.zip_append heq.symm]
  · rw [hnil hlt, List.append_nil, List.zip_nil_right, List.append_nil,
      List.zip_eq_zip_take_min, List.length_append,
      Nat.min_eq_right (hle.trans (Nat.le_add_right _ _)), List.take_append_of_le_length hle,
      List.take_length]

/-- Where the bytes of the entries go. -/
def addrs (iovs : List Iovec) : List Nat :=
  iovs.flatMap fun iov => List.range' iov.iov_base iov.iov_len

theorem addrs_cons (iov : Iovec) (iovs : List Iovec) :
    addrs (iov :: iovs) = List.range' iov.iov_base iov.iov_len ++ addrs iovs := List.flatMap_cons

/-- The loop reads the bytes behind the position into the entries. -/
theorem readv_loop_becomes {left : Nat} {iovs : List Iovec} (hleft : left < 2 ^ 64)
    (hm : Mirrors k.inode s f) (hk : s.kfile h = .ok k)
    (hbuffers : ∀ iov ∈ iovs, ∃ d, user.Holds iov d) :
    ∀ {addr total : Nat}, user.Entries addr iovs → total ≤ left →
      k.offset + (left - total) = (s.inodes k.inode).file_size →
      ∃ n t, n = min (addrs iovs).length (left - total) ∧
        readv_loop user h left iovs.length addr total s =
          .ok (total + n, (addrs iovs).zip (slice f.bytes k.offset n), t) ∧
        Becomes s t h k (f.seek h (k.offset + n)) := by
  induction iovs generalizing s k f with
  | nil =>
    intro addr total _ hle hsize
    refine ⟨0, s, (Nat.zero_min _).symm, rfl, ?_⟩
    rw [Nat.add_zero, (hm.files h k hk rfl).offset, FlatFile.seek, Function.update_eq_self]
    exact .refl hm hk
  | cons iov iovs ih =>
    rintro addr total ⟨href, hentries⟩ hle hsize
    rw [List.forall_mem_cons] at hbuffers
    obtain ⟨⟨d, hd⟩, hbuffers⟩ := hbuffers
    obtain ⟨slices, hslices, hsum⟩ := hd.slices_ok (Nat.min_le_left iov.iov_len (left - total))
    generalize hlen : min iov.iov_len (left - total) = len at hslices hsum
    obtain ⟨t, hread, ht⟩ := @read_to_ubuf_becomes s h k f hm hk (slices.map List.length)
      (by omega)
    rw [hsum] at hread ht
    have hfile : (t.inodes k.inode).file_size = (s.inodes k.inode).file_size :=
      ht.mirrors.size.trans hm.size.symm
    obtain ⟨n, u, hn, hloop, hu⟩ := @ih t
      { k with offset := (f.seek h (k.offset + len)).offset h } _ ht.mirrors ht.kfile hbuffers
      _ (total + len) hentries (by omega) (by
        simp only [FlatFile.offset_seek, hfile]
        omega)
    rw [FlatFile.offset_seek] at hloop
    refine ⟨len + n, u, ?_, ?_, ?_⟩
    · rw [addrs_cons, List.length_append, List.length_range']
      omega
    · rw [List.length_cons, readv_loop, href, ok_bind]
      simp only [wrapping_sub_of_le hle hleft, hlen, hslices, ok_bind, hread, hloop, pure,
        Except.pure, length_slice, Nat.add_assoc]
      have htake : (List.range' iov.iov_base iov.iov_len).take (slice f.bytes k.offset len).length =
          List.range' iov.iov_base len := by
        rw [length_slice, List.take_range'_of_length_ge (by omega)]
      rw [addrs_cons, ← slice_append, zip_append_zip, htake]
      · rfl
      · rw [length_slice, List.length_range']
        omega
      · rw [length_slice, List.length_range']
        intro hlt
        have hzero : n = 0 := by omega
        rw [hzero]
        rfl
    · have hseek : (f.seek h (k.offset + len)).seek h
          ((f.seek h (k.offset + len)).offset h + n) = f.seek h (k.offset + (len + n)) := by
        simp only [FlatFile.seek, Function.update_idem, Function.update_self, Nat.add_assoc]
      exact hseek ▸ ht.trans hu

end Readv

/-- No piece but the last one takes the file over the end of the index range. -/
def Steady (s : FsState) (k : KFile) (ds : List (List UInt8)) : Prop :=
  if OpenFlags.contains k.flags .O_APPEND then
    (s.inodes k.inode).file_size + ds.flatten.length < 2 ^ 64 ∨ (ds.filter (· ≠ [])).length ≤ 1
  else
    (ds = [] → k.offset ≤ (s.inodes k.inode).file_size) ∧
      ∀ e ∈ FlatFile.ends k.offset ds, e ≤ max (s.inodes k.inode).file_size
        (stop (2 ^ 64) k.offset ds.flatten.length)

theorem Same.refl (s : FsState) : Same s s := ⟨fun _ _ => rfl, fun _ => rfl, fun _ => rfl⟩

/-- The buffer is that of the entries in order. -/
structure Concatenates (user : UserSpace) (iovp : Nat) (iovs : List Iovec) (buf : UserBuffer) :
    Prop where
  entries : user.Entries iovp iovs
  bytes : ∃ ds, List.Forall₂ user.Holds iovs ds ∧ buf.bytes = ds.flatten
  addrs : buf.addrs = addrs iovs
  length_lt : buf.bytes.length < 2 ^ 64

section Alike

variable {s : FsState} {fd_table : FDTable Nat} {fd : Int} {h : Nat} {k : KFile} {f : FlatFile}
  {user : UserSpace} {iovp : Nat} {iovs : List Iovec} {buf : UserBuffer}
  (hfd : fd_table[FDTable.as_usize fd]? = some (some h)) (hk : s.kfile h = .ok k)
  (hm : Mirrors k.inode s f) (hbuf : Concatenates user iovp iovs buf)

include hfd hk hm hbuf

theorem writesAlike_iff (hwritable : k.writable = true) :
    WritesAlike (s.sys_writev user fd_table (FDTable.as_usize fd) iovp iovs.length)
        (s.sys_write fd_table fd buf) ↔
      ∃ es, (entry_addrs iovp 0 iovs.length).mapM user.bytes = .ok es ∧ es.flatten = buf.bytes ∧
        s.Steady k es := by
  have hnamed := hm.files h k hk rfl
  have hsteady : ∀ es, s.Steady k es ↔ f.Steady h es := by
    intro es
    rw [Steady, FlatFile.Steady, hm.size, hnamed.offset, hnamed.append]
  have hmatches := fun es => @FlatFile.writes_matches_iff f h es buf.bytes hm.size_lt
    (hnamed.offset ▸ hnamed.offset_lt) hbuf.length_lt
  have hflat : (buf.slices buf.bytes.length).flatten = buf.bytes := by
    rw [buf.flatten_slices, List.take_length]
  obtain ⟨u, hwrite, hu⟩ := write_from_ubuf_becomes hm hk (buf.slices buf.bytes.length)
  rw [hflat] at hwrite hu
  have hone : s.sys_write fd_table fd buf = .ok (.ok buf.bytes.length, u) := by
    rw [sys_write, hfd]
    simp only [hk, ok_bind, hwritable, hwrite]
    rfl
  have hcall : s.sys_writev user fd_table (FDTable.as_usize fd) iovp iovs.length = do
      let (total_write_len, s) ← writev_loop user h 0 iovs.length iovp 0 s
      return (.ok total_write_len, s) := by
    rw [sys_writev, hfd]
    simp only [hk, ok_bind, hwritable]
    rfl
  rw [hone, hcall]
  constructor
  · rintro ⟨ret, t, u', hr, hr', hsame⟩
    cases hr'
    obtain ⟨⟨total, t'⟩, hloop, hr⟩ := bind_eq_ok.mp hr
    cases hr
    obtain ⟨es, hes⟩ := mapM_of_writev_loop hm hk hloop
    obtain ⟨t', hloop', ht⟩ := @writev_loop_becomes s h k f user hm hk _ _ _ 0 _ hes
    rw [hloop, Nat.zero_add] at hloop'
    obtain ⟨hlength, rfl⟩ := Prod.mk.inj (Except.ok.inj hloop')
    obtain ⟨hbytes, hs⟩ := (hmatches es).mp ⟨(ht.same_iff hu).mp hsame, hlength.symm⟩
    exact ⟨es, hes, hbytes, (hsteady es).mpr hs⟩
  · rintro ⟨es, hes, hbytes, hs⟩
    obtain ⟨t, hloop, ht⟩ := @writev_loop_becomes s h k f user hm hk _ _ _ 0 _ hes
    refine ⟨.ok buf.bytes.length, t, u, ?_, rfl, ?_⟩
    · rw [hloop, hbytes, Nat.zero_add]
      rfl
    · exact (ht.same_iff hu).mpr ((hmatches es).mpr ⟨hbytes, (hsteady es).mp hs⟩).1

omit hfd hk hm in
theorem Concatenates.holds : ∀ iov ∈ iovs, ∃ d, user.Holds iov d := by
  obtain ⟨ds, hds, -⟩ := hbuf.bytes
  clear hbuf
  induction hds with
  | nil => exact fun _ h => absurd h List.not_mem_nil
  | cons hd _ ih => exact List.forall_mem_cons.mpr ⟨⟨_, hd⟩, ih⟩

omit hfd in
/-- The loop against one read into the buffer. -/
theorem readv_loop_flat : ∃ n stores, ∃ (t : FsState),
    readv_loop user h (wrapping_sub (s.inodes k.inode).file_size k.offset) iovs.length iovp 0 s =
        .ok (n, stores, t) ∧
      t.kfile h = .ok { k with offset := k.offset + n } ∧
      (buf.bytes = [] → n = 0 ∧ stores = [] ∧ Same t s) ∧
      (k.name ≠ zero → ∃ bytes, ∃ (u : FsState), s.read_to_ubuf h ((buf.slices (min buf.bytes.length
        (wrapping_sub (s.inodes k.inode).file_size k.offset))).map List.length) =
          .ok (bytes, n, u) ∧ stores = buf.addrs.zip bytes ∧ Same t u) := by
  have hsize := hm.size_lt
  rw [← hm.size] at hsize
  have haddrs : (addrs iovs).length = buf.bytes.length := by
    rw [← hbuf.addrs, buf.length_addrs]
  obtain hend | hlt := le_or_gt (s.inodes k.inode).file_size k.offset
  · obtain ⟨stores, hloop, hstores⟩ := readv_loop_end hk hend hbuf.holds hbuf.entries
    refine ⟨0, stores, s, hloop, hk, fun hnil => ⟨rfl, hstores (.inr ?_), .refl s⟩, fun hname => ?_⟩
    · rw [hnil, addrs, List.length_nil, List.length_eq_zero_iff, List.flatMap_eq_nil_iff] at haddrs
      exact fun iov hiov => List.range'_eq_nil_iff.mp (haddrs iov hiov)
    · obtain ⟨bytes, hread, hbytes⟩ := read_to_ubuf_end hk hend ((buf.slices (min buf.bytes.length
        (wrapping_sub (s.inodes k.inode).file_size k.offset))).map List.length)
      refine ⟨bytes, s, hread, ?_, .refl s⟩
      rw [hstores (.inl hname), hbytes (.inl hname), List.zip_nil_right]
  · rw [wrapping_sub_of_le hlt.le hsize]
    obtain ⟨n, t, hn, hloop, ht⟩ := @readv_loop_becomes s h k f user
      ((s.inodes k.inode).file_size - k.offset) iovs (by omega) hm hk hbuf.holds iovp 0
      hbuf.entries (Nat.zero_le _) (by omega)
    rw [Nat.zero_add] at hloop
    rw [haddrs, Nat.sub_zero] at hn
    have hsum : ((buf.slices (min buf.bytes.length
        ((s.inodes k.inode).file_size - k.offset))).map List.length).sum = n := by
      rw [← List.length_flatten, buf.flatten_slices, List.length_take, ← hn]
      exact Nat.min_eq_left (hn.trans_le (Nat.min_le_left _ _))
    obtain ⟨u, hread, hu⟩ := read_to_ubuf_becomes hm hk (hsum ▸ (by omega :
      k.offset + n ≤ (s.inodes k.inode).file_size))
    rw [hsum] at hread hu
    refine ⟨n, _, t, hloop, ?_, fun hnil => ?_, fun _ => ⟨_, u, hread, ?_, ?_⟩⟩
    · rw [ht.kfile, FlatFile.offset_seek]
    · have hzero : n = 0 := by
        rw [hn, hnil]
        exact Nat.zero_min _
      subst hzero
      refine ⟨rfl, List.zip_nil_right, (ht.same_iff (.refl hm hk)).mpr ⟨rfl, rfl, ?_⟩⟩
      rw [FlatFile.offset_seek]
      exact (hm.files h k hk rfl).offset
    · rw [hbuf.addrs]
    · exact (ht.same_iff hu).mpr ⟨rfl, rfl, rfl⟩

theorem readsAlike_iff (hreadable : k.readable = true) :
    ReadsAlike (s.sys_readv user fd_table (FDTable.as_usize fd) iovp iovs.length)
        (s.sys_read fd_table (FDTable.as_usize fd) buf) ↔
      (k.name = zero ∨ k.name = ZERO → buf.bytes = []) := by
  obtain ⟨n, stores, t, hloop, hkfile, hnothing, hflat⟩ := readv_loop_flat hk hm hbuf
  have hreadv : s.sys_readv user fd_table (FDTable.as_usize fd) iovp iovs.length =
      .ok (.ok n, stores, t) := by
    rw [sys_readv, hfd]
    simp only [hk, ok_bind, hreadable, hloop]
    rfl
  rw [hreadv, sys_read, hfd]
  simp only [hk, ok_bind, hreadable]
  by_cases hname : k.name = zero ∨ k.name = ZERO
  · simp only [hname, if_true, forall_const]
    constructor
    · rintro ⟨ret, stores', t', u, hr, hr', hsame⟩
      cases hr
      cases hr'
      have hoffset := hsame.kfile h
      rw [hkfile, hk] at hoffset
      have hzero : k.offset + (buf.slices buf.bytes.length).length = k.offset :=
        congrArg KFile.offset (Except.ok.inj hoffset)
      have hnil := buf.flatten_slices buf.bytes.length
      rwa [List.length_eq_zero_iff.mp (Nat.add_eq_left.mp hzero), List.take_length,
        List.flatten_nil, eq_comm] at hnil
    · intro hnil
      obtain ⟨rfl, rfl, hsame⟩ := hnothing hnil
      have hbuffers : (buf.slices buf.bytes.length).length = 0 := by
        rw [hnil, List.length_nil, buf.slices_zero, List.length_nil]
      refine ⟨.ok 0, [], t, s, rfl, ?_, hsame⟩
      simp only [hbuffers, List.replicate_zero, List.zip_nil_right]
      rfl
  · simp only [hname, if_false, false_imp_iff, iff_true]
    rw [not_or] at hname
    obtain ⟨bytes, u, hread, rfl, hsame⟩ := hflat hname.1
    refine ⟨.ok n, _, t, u, rfl, ?_, hsame⟩
    rw [hread]
    rfl

end Alike

section Entries

/-- Entries of one byte; the entry `i` names the byte `i`. -/
def counting_entries : UserSpace where
  translated_ref addr := .ok ⟨addr / IOVEC_SIZE, 1⟩
  translated_bytes_buffer base len := .ok [List.replicate len (.ofNat base)]

/-- The buffer of the first `n` entries. -/
def counting (n : Nat) : UserBuffer where
  addrs := List.range n
  bytes := (List.range n).map .ofNat
  slices len := if len = 0 then [] else [((List.range n).map .ofNat).take len]
  length_addrs := by simp
  flatten_slices len := by
    split
    · next hzero => rw [hzero]; rfl
    · rw [List.flatten_singleton]
  slices_zero := rfl

theorem counting_entries_holds (iov : Iovec) :
    counting_entries.Holds iov (List.replicate iov.iov_len (.ofNat iov.iov_base)) := by
  refine ⟨List.length_replicate, fun len hlen => ⟨_, rfl, ?_⟩⟩
  rw [List.flatten_singleton, List.take_replicate, Nat.min_eq_left hlen]

theorem two_entries : Concatenates counting_entries 0 [⟨0, 1⟩, ⟨1, 1⟩] (counting 2) where
  entries := ⟨rfl, rfl, trivial⟩
  bytes := ⟨_, .cons (counting_entries_holds _) (.cons (counting_entries_holds _) .nil), rfl⟩
  addrs := rfl
  length_lt := by decide

theorem three_entries : Concatenates counting_entries 0 [⟨0, 1⟩, ⟨1, 1⟩, ⟨2, 1⟩] (counting 3) where
  entries := ⟨rfl, rfl, rfl, trivial⟩
  bytes := ⟨_, .cons (counting_entries_holds _) (.cons (counting_entries_holds _)
    (.cons (counting_entries_holds _) .nil)), rfl⟩
  addrs := rfl
  length_lt := by decide

end Entries

end FsState

end MyGOS.Fs
