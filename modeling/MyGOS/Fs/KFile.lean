import MyGOS.Fs.PageCache
import MyGOS.Lib.StepSystem

/-!
# Kernel files

Inodes are shared by the files opened on them and by the inode cache, which is
keyed by the path. An `Arc<Inode>` is an address in `inodes`, an
`Arc<KFile>` a handle in `files`.
-/

namespace MyGOS.Fs

open Fat32

def INODE_CACHE_LIMIT : Nat := 1024

abbrev OpenFlags := BitVec 32

namespace OpenFlags

def O_WRONLY : OpenFlags := 5
def O_CREAT : OpenFlags := 0o100
def O_TRUNC : OpenFlags := 0o1000
def O_APPEND : OpenFlags := 0o2000
def O_DIRECTORY : OpenFlags := 0o200000

def contains (flags other : OpenFlags) : Bool := flags &&& other = other

def read_write (flags : OpenFlags) : Bool × Bool :=
  if flags = 0 then (true, false)
  else if contains flags O_WRONLY then (false, true)
  else (true, true)

end OpenFlags

/-- The components of a path. -/
abbrev AbsolutePath := List Name

structure Inode where
  file : VirtFile
  fid : Nat
  page_cache : Option PageCache
  file_size : Nat

structure KFile where
  readable : Bool
  writable : Bool
  path : AbsolutePath
  name : Name
  offset : Nat
  flags : OpenFlags
  inode : Nat

/-- `KFile::new`. -/
def KFile.new (readable writable : Bool) (inode : Nat) (path : AbsolutePath) (name : Name) : KFile :=
  ⟨readable, writable, path, name, 0, 0, inode⟩

structure FsState where
  fs : FileSystem
  /-- the counter of `ino_alloc` -/
  ino : Nat
  inodes : Nat → Inode
  next_inode : Nat
  inode_cache : AList fun _ : AbsolutePath => Nat
  files : AList fun _ : Nat => KFile
  next_file : Nat

namespace FsState

/-- Nothing is open. -/
def new (fs : FileSystem) : FsState := ⟨fs, 0, fun _ => ⟨root, 0, none, 0⟩, 0, ∅, ∅, 0⟩

section Files

variable (s : FsState)

def kfile (h : Nat) : Except FsPanic KFile :=
  match s.files.lookup h with
  | some f => .ok f
  | none => .error .notOpen

def set_kfile (h : Nat) (f : KFile) : FsState := { s with files := s.files.insert h f }

theorem kfile_set_kfile (h : Nat) (f : KFile) : (s.set_kfile h f).kfile h = .ok f := by
  simp [kfile, set_kfile]

theorem kfile_set_kfile_of_ne {h h' : Nat} (hne : h' ≠ h) (f : KFile) :
    (s.set_kfile h f).kfile h' = s.kfile h' := by
  simp [kfile, set_kfile, AList.lookup_insert_ne hne]

def set_inode (a : Nat) (inode : Inode) : FsState :=
  { s with inodes := Function.update s.inodes a inode }

def page_cache (a : Nat) : Except FsPanic PageCache :=
  match (s.inodes a).page_cache with
  | some c => .ok c
  | none => .error .noPageCache

def set_page_cache (a : Nat) (c : PageCache) : FsState :=
  s.set_inode a { s.inodes a with page_cache := some c }

/-- `if self.file_size() < offset { self.set_file_size(offset) }`. -/
def grow (a offset : Nat) : FsState :=
  if (s.inodes a).file_size < offset then
    s.set_inode a { s.inodes a with file_size := offset }
  else s

def create_page_cache_if_needed (a : Nat) : FsState :=
  if (s.inodes a).page_cache = none then s.set_page_cache a ∅ else s

end Files

section Transfer

variable (s : FsState)

/-- The name of `/dev/zero`. -/
def zero : Name := ['z', 'e', 'r', 'o']

/-- `pread`; `slices` are the lengths of the slices of the user buffer. The result holds what is
written to them, and what the call returns. -/
def pread (h : Nat) (slices : List Nat) (offset : Nat) :
    Except FsPanic (List UInt8 × Nat × FsState) := do
  let f ← s.kfile h
  let file_size := (s.inodes f.inode).file_size
  if file_size = 0 then
    return (if f.name = zero then List.replicate slices.sum 0 else [], 0, s)
  else if file_size ≤ offset then return ([], 0, s)
  else
    let c ← s.page_cache f.inode
    let (bytes, _, c) ← PageCache.read_slices s.fs (s.inodes f.inode).file slices c offset
    return (bytes, bytes.length, s.set_page_cache f.inode c)

def read_to_ubuf (h : Nat) (slices : List Nat) : Except FsPanic (List UInt8 × Nat × FsState) := do
  let f ← s.kfile h
  let file_size := (s.inodes f.inode).file_size
  if file_size = 0 then
    return (if f.name = zero then List.replicate slices.sum 0 else [], 0, s)
  else if file_size ≤ f.offset then return ([], 0, s)
  else
    let c ← s.page_cache f.inode
    let (bytes, offset, c) ← PageCache.read_slices s.fs (s.inodes f.inode).file slices c f.offset
    return (bytes, bytes.length, (s.set_page_cache f.inode c).set_kfile h { f with offset := offset })

/-- Where a write starts. -/
def start (f : KFile) (offset : Nat) : Nat :=
  if OpenFlags.contains f.flags .O_APPEND then (s.inodes f.inode).file_size else offset

def pwrite (h : Nat) (slices : List (List UInt8)) (offset : Nat) :
    Except FsPanic (Nat × FsState) := do
  let f ← s.kfile h
  let c ← s.page_cache f.inode
  let (offset, c) ← PageCache.write_slices s.fs (s.inodes f.inode).file slices c (s.start f offset)
  return (slices.flatten.length, (s.set_page_cache f.inode c).grow f.inode offset)

/-- A write of nothing does not seek. -/
def write_from_ubuf (h : Nat) (slices : List (List UInt8)) : Except FsPanic (Nat × FsState) := do
  let f ← s.kfile h
  let c ← s.page_cache f.inode
  let (offset, c) ←
    PageCache.write_slices s.fs (s.inodes f.inode).file slices c (s.start f f.offset)
  let s := s.set_page_cache f.inode c
  let s := if slices.flatten = [] then s else s.set_kfile h { f with offset := offset }
  return (slices.flatten.length, s.grow f.inode offset)

def write_from_kspace (h : Nat) (data : List UInt8) : Except FsPanic (Nat × FsState) :=
  s.write_from_ubuf h [data]

/-- A read at a place of the caller's; the offset of the file stays. -/
def kernel_read_with_offset (h offset len : Nat) : Except FsPanic (List UInt8 × FsState) := do
  let k ← s.kfile h
  let c ← s.page_cache k.inode
  let (buf, _, c) ← PageCache.read_slice s.fs (s.inodes k.inode).file len len c offset
  return (buf, s.set_page_cache k.inode c)

def seek (h offset : Nat) : Except FsPanic FsState := do
  let f ← s.kfile h
  return s.set_kfile h { f with offset := offset }

end Transfer

section Open

variable (s : FsState)

/-- The references to an inode. -/
def strong_count (a : Nat) : Nat :=
  (s.inode_cache.entries.map Sigma.snd).count a +
    (s.files.entries.map fun e => e.2.inode).count a

/-- Entries with no reference but that of the cache are removed. -/
def shrink : FsState :=
  let remove_list := s.inode_cache.entries.filter fun e => s.strong_count e.2 = 1
  { s with inode_cache := remove_list.foldl (fun c e => c.erase e.1) s.inode_cache }

def cache_insert (path : AbsolutePath) (a : Nat) : FsState :=
  let s := { s with inode_cache := s.inode_cache.insert path a }
  if INODE_CACHE_LIMIT < s.inode_cache.entries.length then s.shrink else s

/-- `Arc::new(KFile::new(..))`. -/
def new_kfile (f : KFile) : Nat × FsState :=
  (s.next_file, { s with
    files := s.files.insert s.next_file f
    next_file := s.next_file + 1 })

/-- An inode for a file found or created on the disk, a file opened on it, and its page cache,
as three branches of `open` make them. -/
def open_virt_file (path : AbsolutePath) (flags : OpenFlags) (file : VirtFile) (name : Name) :
    Except FsPanic (Nat × FsState) := do
  let file_size ← s.fs.file_size file
  let a := s.next_inode
  let s := { s with
    ino := s.ino + 1
    inodes := Function.update s.inodes a ⟨file, s.ino, none, file_size⟩
    next_inode := a + 1 }
  let (readable, writable) := OpenFlags.read_write flags
  let (h, s) := s.new_kfile (.new readable writable a path name)
  return (h, (s.create_page_cache_if_needed a).cache_insert path a)

theorem kfile_new_kfile (f : KFile) : (s.new_kfile f).2.kfile s.next_file = .ok f := by
  simp [kfile, new_kfile]

def set_flags (h : Nat) (flags : OpenFlags) : Except FsPanic FsState := do
  let f ← s.kfile h
  return s.set_kfile h { f with flags := f.flags ||| flags }

def last_name (path : AbsolutePath) : Name := path.getLastD ['/']

/-- The first exit of `open`. -/
def open_cached (path : AbsolutePath) (flags : OpenFlags) (a : Nat) :
    Except FsPanic (Nat × FsState) := do
  let (readable, writable) := OpenFlags.read_write flags
  let (h, s) := s.new_kfile (.new readable writable a path (last_name path))
  return (h, ← (s.create_page_cache_if_needed a).set_flags h flags)

/-- The branch of `O_CREAT` for a path that is not found. -/
def open_new (path : AbsolutePath) (flags : OpenFlags) : Except FsPanic (Except Errno Nat × FsState) :=
  match path.getLast? with
  | none => .error .emptyPath
  | some name => do
    let create_type := if OpenFlags.contains flags .O_DIRECTORY then VirtFileType.Dir else .File
    match ← s.fs.find root path.dropLast with
    | (.error _, fs) => return (.error .ENOENT, { s with fs := fs })
    | (.ok parent, fs) =>
      match ← fs.create parent name create_type with
      | (.error _, fs) => return (.error .DISCARD, { s with fs := fs })
      | (.ok file, fs) =>
        let (h, s) ← open_virt_file { s with fs := fs } path flags file name
        return (.ok h, s)

def open_create (path : AbsolutePath) (flags : OpenFlags) :
    Except FsPanic (Except Errno Nat × FsState) := do
  match ← s.fs.find root path with
  | (.ok file, fs) =>
    let (h, s) ← open_virt_file { s with fs := fs } path flags file (last_name path)
    return (.ok h, s)
  | (.error .NotDir, fs) => return (.error .ENOTDIR, { s with fs := fs })
  | (.error _, fs) => open_new { s with fs := fs } path flags

def open_found (path : AbsolutePath) (flags : OpenFlags) :
    Except FsPanic (Except Errno Nat × FsState) := do
  match ← s.fs.find root path with
  | (.ok file, fs) =>
    let fs ← if OpenFlags.contains flags .O_TRUNC then Prod.snd <$> fs.clear file else .ok fs
    let (h, s) ← open_virt_file { s with fs := fs } path flags file file.name
    return (.ok h, ← s.set_flags h flags)
  | (.error _, fs) => return (.error .ENOENT, { s with fs := fs })

/-- `open`. -/
def open_path (path : AbsolutePath) (flags : OpenFlags) :
    Except FsPanic (Except Errno Nat × FsState) :=
  match s.inode_cache.lookup path with
  | some a => do
    let (h, s) ← s.open_cached path flags a
    return (.ok h, s)
  | none =>
    if OpenFlags.contains flags .O_CREAT then s.open_create path flags else s.open_found path flags

/-- The last reference to the file is dropped. -/
def close (h : Nat) : Except FsPanic FsState := do
  let _ ← s.kfile h
  return { s with files := s.files.erase h }

end Open

end FsState

end MyGOS.Fs
