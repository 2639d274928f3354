import MyGOS.Fs.FlatFile
import MyGOS.Lib.MapErase

/-!
# Runs of opens, closes and transfers

Whatever `open` does, it adds a file on a cached inode, or adds a file on an
inode that it loads and puts into the cache, or fails. Every invariant of runs
is derived from these three cases.
-/

namespace MyGOS.Fs

open Fat32 Outcome StepSystem

inductive FsOp where
  | open_path (path : AbsolutePath) (flags : OpenFlags)
  | close (h : Nat)
  | seek (h offset : Nat)
  | transfer (op : FileOp)

/-- The file that an open of a path adds. -/
structure KFile.NewOn (key : AbsolutePath) (a : Nat) (k : KFile) : Prop where
  inode : k.inode = a
  path : k.path = key
  offset : k.offset = 0

namespace FsState

def step (s : FsState) : FsOp → Except FsPanic FsState
  | .open_path path flags => Prod.snd <$> s.open_path path flags
  | .close h => s.close h
  | .seek h offset => s.seek h offset
  | .transfer op => Prod.fst <$> s.transfer op

def add_kfile (s : FsState) (k : KFile) : FsState := (s.new_kfile k).2

theorem kfile_add_kfile_self (s : FsState) (k : KFile) :
    (s.add_kfile k).kfile s.next_file = .ok k := kfile_new_kfile s k

theorem kfile_add_kfile_of_ne {s : FsState} {h : Nat} (hne : h ≠ s.next_file) (k : KFile) :
    (s.add_kfile k).kfile h = s.kfile h := by
  simp [kfile, add_kfile, new_kfile, AList.lookup_insert_ne hne]

/-- A new inode, with an empty page cache. -/
def load (s : FsState) (fs : FileSystem) (file : VirtFile) (file_size : Nat) : FsState :=
  { s with
    fs := fs
    ino := s.ino + 1
    inodes := Function.update s.inodes s.next_inode ⟨file, s.ino, some ∅, file_size⟩
    next_inode := s.next_inode + 1 }

/-- What `open` may do. The file goes into the map twice where `set_flags` comes last. -/
inductive Opening (s : FsState) (path : AbsolutePath) : Except Errno Nat × FsState → Prop where
  | cached (a : Nat) (k : KFile) : s.inode_cache.lookup path = some a → k.NewOn path a →
      Opening s path (.ok s.next_file, (s.create_page_cache_if_needed a).add_kfile k)
  | loaded (fs : FileSystem) (file : VirtFile) (size : Nat) (k k' : KFile) :
      s.inode_cache.lookup path = none → fs.file_size file = .ok size →
      k.NewOn path s.next_inode → k'.NewOn path s.next_inode →
      Opening s path (.ok s.next_file,
        (((s.load fs file size).add_kfile k).cache_insert path s.next_inode).set_kfile
          s.next_file k')
  | failed (e : Errno) (fs : FileSystem) : s.inode_cache.lookup path = none →
      Opening s path (.error e, { s with fs := fs })

variable {s t : FsState} {path : AbsolutePath} {flags : OpenFlags} {a h : Nat}

theorem Opening.loaded_once {fs : FileSystem} {file : VirtFile} {size : Nat} {k : KFile}
    (hnone : s.inode_cache.lookup path = none) (hsize : fs.file_size file = .ok size)
    (hk : k.NewOn path s.next_inode) : Opening s path (.ok s.next_file,
      ((s.load fs file size).add_kfile k).cache_insert path s.next_inode) := by
  have hself : (((s.load fs file size).add_kfile k).cache_insert path s.next_inode).set_kfile
      s.next_file k = ((s.load fs file size).add_kfile k).cache_insert path s.next_inode := by
    obtain ⟨c, hc⟩ := cache_insert_eq ((s.load fs file size).add_kfile k) path s.next_inode
    rw [hc]
    simp [set_kfile, add_kfile, new_kfile, load, AList.insert_insert]
  have hopen := Opening.loaded fs file size k k hnone hsize hk hk
  rwa [hself] at hopen

theorem open_virt_file_opening {fs : FileSystem} {file : VirtFile} {name : Name}
    {r : Nat × FsState}
    (ho : open_virt_file { s with fs := fs } path flags file name = .ok r) :
    ∃ size k, fs.file_size file = .ok size ∧ k.NewOn path s.next_inode ∧ r = (s.next_file,
      ((s.load fs file size).add_kfile k).cache_insert path s.next_inode) := by
  obtain ⟨size, hsize, rfl⟩ := open_virt_file_ok ho
  exact ⟨size, .new (OpenFlags.read_write flags).1 (OpenFlags.read_write flags).2 s.next_inode path
    name, hsize, ⟨rfl, rfl, rfl⟩, rfl⟩

theorem open_cached_opening {r : Nat × FsState} (hc : s.inode_cache.lookup path = some a)
    (ho : s.open_cached path flags a = .ok r) : Opening s path (.ok r.1, r.2) := by
  obtain ⟨u, hu, ho⟩ := bind_eq_ok.mp ho
  cases ho
  have hk : ((s.new_kfile (.new (OpenFlags.read_write flags).1 (OpenFlags.read_write flags).2 a path
      (last_name path))).2.create_page_cache_if_needed a).kfile s.next_file = .ok (.new
      (OpenFlags.read_write flags).1 (OpenFlags.read_write flags).2 a path (last_name path)) := by
    rw [← kfile_new_kfile, kfile, create_page_cache_files, kfile]
  obtain rfl := set_flags_ok hk hu
  have heq : ∀ k k' : KFile, ((s.new_kfile k).2.create_page_cache_if_needed a).set_kfile s.next_file
      k' = (s.create_page_cache_if_needed a).add_kfile k' := by
    intro k k'
    by_cases hnone : (s.inodes a).page_cache = none
    · simp [create_page_cache_if_needed, hnone, new_kfile, add_kfile, set_kfile, set_page_cache,
        set_inode, AList.insert_insert]
    · simp [create_page_cache_if_needed, hnone, new_kfile, add_kfile, set_kfile,
        AList.insert_insert]
  simp only [heq]
  exact .cached a _ hc ⟨rfl, rfl, rfl⟩

theorem open_new_opening {r : Except Errno Nat × FsState} {fs : FileSystem}
    (hnone : s.inode_cache.lookup path = none)
    (ho : open_new { s with fs := fs } path flags = .ok r) : Opening s path r := by
  unfold open_new at ho
  split at ho
  · cases ho
  · obtain ⟨⟨_ | parent, fs₁⟩, _, ho⟩ := bind_eq_ok.mp ho
    · cases ho
      exact .failed _ _ hnone
    · obtain ⟨⟨_ | file, fs₂⟩, _, ho⟩ := bind_eq_ok.mp ho
      · cases ho
        exact .failed _ _ hnone
      · obtain ⟨r, hr, ho⟩ := bind_eq_ok.mp ho
        cases ho
        obtain ⟨size, k, hsize, hk, rfl⟩ := open_virt_file_opening (s := s) hr
        exact .loaded_once hnone hsize hk

theorem open_create_opening {r : Except Errno Nat × FsState}
    (hnone : s.inode_cache.lookup path = none) (ho : s.open_create path flags = .ok r) :
    Opening s path r := by
  unfold open_create at ho
  obtain ⟨⟨e | file, fs⟩, _, ho⟩ := bind_eq_ok.mp ho
  · cases e with
    | NotDir =>
      cases ho
      exact .failed _ _ hnone
    | NoMatch => exact open_new_opening hnone ho
    | FileHasExist => exact open_new_opening hnone ho
    | ListLFNIllegal => exact open_new_opening hnone ho
    | CreateFileError => exact open_new_opening hnone ho
  · obtain ⟨r, hr, ho⟩ := bind_eq_ok.mp ho
    cases ho
    obtain ⟨size, k, hsize, hk, rfl⟩ := open_virt_file_opening (s := s) hr
    exact .loaded_once hnone hsize hk

theorem open_found_opening {r : Except Errno Nat × FsState}
    (hnone : s.inode_cache.lookup path = none) (ho : s.open_found path flags = .ok r) :
    Opening s path r := by
  obtain ⟨e, fs, -, rfl⟩ | ⟨file, fs, fs₁, r, t, -, -, hr, ht, rfl⟩ := open_found_ok ho
  · exact .failed _ _ hnone
  · obtain ⟨size, k, hsize, hk, rfl⟩ := open_virt_file_opening (s := s) hr
    have hkfile : (((s.load fs₁ file size).add_kfile k).cache_insert path s.next_inode).kfile
        s.next_file = .ok k := by
      simp [kfile, add_kfile, new_kfile, load]
    obtain rfl := set_flags_ok hkfile ht
    exact .loaded fs₁ file size k _ hnone hsize hk ⟨hk.inode, hk.path, hk.offset⟩

theorem open_path_opening {r : Except Errno Nat × FsState} (ho : s.open_path path flags = .ok r) :
    Opening s path r := by
  unfold open_path at ho
  split at ho
  · next a hc =>
    obtain ⟨r, hr, ho⟩ := bind_eq_ok.mp ho
    cases ho
    exact open_cached_opening hc hr
  · next hnone =>
    split at ho
    · exact open_create_opening hnone ho
    · exact open_found_opening hnone ho

section Transfers

variable {k : KFile}

theorem page_cache_ok {c : PageCache} (h : s.page_cache a = .ok c) :
    (s.inodes a).page_cache = some c := by
  unfold page_cache at h
  split at h
  · next c' hc =>
    cases h
    exact hc
  · cases h

theorem pread_ok {slices : List Nat} {offset : Nat} {r : List UInt8 × Nat × FsState}
    (ho : s.pread h slices offset = .ok r) : ∃ k, s.kfile h = .ok k ∧ (r.2.2 = s ∨
      ∃ c bytes stop c', (s.inodes k.inode).page_cache = some c ∧
        PageCache.read_slices s.fs (s.inodes k.inode).file slices c offset = .ok (bytes, stop, c') ∧
        r = (bytes, bytes.length, s.set_page_cache k.inode c')) := by
  obtain ⟨k, hk, ho⟩ := bind_eq_ok.mp ho
  refine ⟨k, hk, ?_⟩
  simp only at ho
  split at ho
  · cases ho
    exact .inl rfl
  · split at ho
    · cases ho
      exact .inl rfl
    · obtain ⟨c, hc, ho⟩ := bind_eq_ok.mp ho
      obtain ⟨⟨bytes, stop, c'⟩, hr, ho⟩ := bind_eq_ok.mp ho
      cases ho
      exact .inr ⟨c, bytes, stop, c', page_cache_ok hc, hr, rfl⟩

theorem read_to_ubuf_ok {slices : List Nat} {r : List UInt8 × Nat × FsState}
    (ho : s.read_to_ubuf h slices = .ok r) : ∃ k, s.kfile h = .ok k ∧ (r.2.2 = s ∨
      ∃ c bytes stop c', (s.inodes k.inode).page_cache = some c ∧
        PageCache.read_slices s.fs (s.inodes k.inode).file slices c k.offset =
          .ok (bytes, stop, c') ∧
        r = (bytes, bytes.length,
          (s.set_page_cache k.inode c').set_kfile h { k with offset := stop })) := by
  obtain ⟨k, hk, ho⟩ := bind_eq_ok.mp ho
  refine ⟨k, hk, ?_⟩
  simp only at ho
  split at ho
  · cases ho
    exact .inl rfl
  · split at ho
    · cases ho
      exact .inl rfl
    · obtain ⟨c, hc, ho⟩ := bind_eq_ok.mp ho
      obtain ⟨⟨bytes, stop, c'⟩, hr, ho⟩ := bind_eq_ok.mp ho
      cases ho
      exact .inr ⟨c, bytes, stop, c', page_cache_ok hc, hr, rfl⟩

/-- What a write leaves: the pages, the offset unless nothing was written, and the size. -/
theorem write_from_ubuf_ok {slices : List (List UInt8)} {r : Nat × FsState}
    (ho : s.write_from_ubuf h slices = .ok r) : ∃ k c stop c', s.kfile h = .ok k ∧
      (s.inodes k.inode).page_cache = some c ∧
      PageCache.write_slices s.fs (s.inodes k.inode).file slices c (s.start k k.offset) =
        .ok (stop, c') ∧
      r.2 = (if slices.flatten = [] then s.set_page_cache k.inode c' else
        (s.set_page_cache k.inode c').set_kfile h { k with offset := stop }).grow k.inode stop := by
  obtain ⟨k, hk, ho⟩ := bind_eq_ok.mp ho
  obtain ⟨c, hc, ho⟩ := bind_eq_ok.mp ho
  obtain ⟨⟨stop, c'⟩, hr, ho⟩ := bind_eq_ok.mp ho
  cases ho
  exact ⟨k, c, stop, c', hk, page_cache_ok hc, hr, rfl⟩

theorem pwrite_ok {slices : List (List UInt8)} {offset : Nat} {r : Nat × FsState}
    (ho : s.pwrite h slices offset = .ok r) : ∃ k c stop c', s.kfile h = .ok k ∧
      (s.inodes k.inode).page_cache = some c ∧
      PageCache.write_slices s.fs (s.inodes k.inode).file slices c (s.start k offset) =
        .ok (stop, c') ∧
      r.2 = (s.set_page_cache k.inode c').grow k.inode stop := by
  obtain ⟨k, hk, ho⟩ := bind_eq_ok.mp ho
  obtain ⟨c, hc, ho⟩ := bind_eq_ok.mp ho
  obtain ⟨⟨stop, c'⟩, hr, ho⟩ := bind_eq_ok.mp ho
  cases ho
  exact ⟨k, c, stop, c', hk, page_cache_ok hc, hr, rfl⟩

/-- The inodes and the offsets may differ, and nothing else. -/
structure Framed (s t : FsState) : Prop where
  fs : t.fs = s.fs
  inode_cache : t.inode_cache = s.inode_cache
  next_inode : t.next_inode = s.next_inode
  next_file : t.next_file = s.next_file
  files : ∀ h k', t.kfile h = .ok k' →
    ∃ k, s.kfile h = .ok k ∧ k'.inode = k.inode ∧ k'.path = k.path

theorem Framed.refl (s : FsState) : Framed s s :=
  ⟨rfl, rfl, rfl, rfl, fun _ k hk => ⟨k, hk, rfl, rfl⟩⟩

theorem Framed.trans {u : FsState} (hst : Framed s t) (htu : Framed t u) : Framed s u where
  fs := htu.fs.trans hst.fs
  inode_cache := htu.inode_cache.trans hst.inode_cache
  next_inode := htu.next_inode.trans hst.next_inode
  next_file := htu.next_file.trans hst.next_file
  files h k'' hk'' := by
    obtain ⟨k', hk', hi', hp'⟩ := htu.files h k'' hk''
    obtain ⟨k, hk, hi, hp⟩ := hst.files h k' hk'
    exact ⟨k, hk, hi'.trans hi, hp'.trans hp⟩

theorem Framed.set_page_cache (s : FsState) (a : Nat) (c : PageCache) :
    Framed s (s.set_page_cache a c) := ⟨rfl, rfl, rfl, rfl, fun _ k hk => ⟨k, hk, rfl, rfl⟩⟩

theorem Framed.grow (s : FsState) (a offset : Nat) : Framed s (s.grow a offset) := by
  unfold FsState.grow
  split
  · exact ⟨rfl, rfl, rfl, rfl, fun _ k hk => ⟨k, hk, rfl, rfl⟩⟩
  · exact .refl s

theorem Framed.set_kfile (hk : s.kfile h = .ok k) (offset : Nat) :
    Framed s (s.set_kfile h { k with offset := offset }) := by
  refine ⟨rfl, rfl, rfl, rfl, fun h' k' hk' => ?_⟩
  by_cases he : h' = h
  · subst he
    cases (kfile_set_kfile ..).symm.trans hk'
    exact ⟨k, hk, rfl, rfl⟩
  · rw [kfile_set_kfile_of_ne _ he] at hk'
    exact ⟨k', hk', rfl, rfl⟩

theorem write_from_ubuf_framed {slices : List (List UInt8)} {r : Nat × FsState}
    (ho : s.write_from_ubuf h slices = .ok r) : Framed s r.2 := by
  obtain ⟨k, c, stop, c', hk, _, _, heq⟩ := write_from_ubuf_ok ho
  rw [heq]
  refine Framed.trans ?_ (.grow _ _ _)
  split
  · exact .set_page_cache ..
  · exact (Framed.set_page_cache s k.inode c').trans
        (.set_kfile (s := s.set_page_cache k.inode c') hk stop)

theorem transfer_framed {op : FileOp} {r : FsState × Transferred} (ho : s.transfer op = .ok r) :
    Framed s r.1 := by
  cases op with
  | read_to_ubuf h slices =>
    obtain ⟨r', hr, ho⟩ := bind_eq_ok.mp ho
    cases ho
    obtain ⟨k, hk, heq | ⟨c, bytes, stop, c', _, _, rfl⟩⟩ := read_to_ubuf_ok hr
    · rw [heq]
      exact .refl s
    · exact (Framed.set_page_cache s k.inode c').trans
        (.set_kfile (s := s.set_page_cache k.inode c') hk stop)
  | pread h slices offset =>
    obtain ⟨r', hr, ho⟩ := bind_eq_ok.mp ho
    cases ho
    obtain ⟨k, hk, heq | ⟨c, bytes, stop, c', _, _, rfl⟩⟩ := pread_ok hr
    · rw [heq]
      exact .refl s
    · exact .set_page_cache ..
  | write_from_ubuf h slices =>
    obtain ⟨r', hr, ho⟩ := bind_eq_ok.mp ho
    cases ho
    exact write_from_ubuf_framed hr
  | write_from_kspace h data =>
    obtain ⟨r', hr, ho⟩ := bind_eq_ok.mp ho
    cases ho
    exact write_from_ubuf_framed hr
  | pwrite h slices offset =>
    obtain ⟨r', hr, ho⟩ := bind_eq_ok.mp ho
    cases ho
    obtain ⟨k, c, stop, c', _, _, _, heq⟩ := pwrite_ok hr
    rw [heq]
    exact (Framed.set_page_cache s k.inode c').trans (.grow _ _ _)

end Transfers

end FsState

end MyGOS.Fs
