import MyGOS.Fat32.VirtFile

/-!
# Directories

A directory is a file of 32-byte records: for each name its long entries, last
piece first, and its short entry. Both searches read record after record up to
the end of the clusters.
-/

namespace MyGOS.Fat32

inductive DirError where
  | NoMatch
  | FileHasExist
  | NotDir
  | ListLFNIllegal
  | CreateFileError
deriving DecidableEq, Repr

/-- What a read leaves in an entry that is used as its buffer. -/
def Dirent.fill (e : Dirent) (bytes : List UInt8) : Dirent := fun i => bytes.getD i (e i)

def Dirent.as_bytes (e : Dirent) : List UInt8 := List.ofFn e

namespace FileSystem

/-- More records than this are not in the clusters of a directory. -/
def record_limit (fs : FileSystem) (f : VirtFile) : Nat :=
  (fs.cluster_vec f).length * fs.bpb.cluster_size / DIRENT_SIZE + 1

/-- A record, or `none` at the end of the clusters. -/
def read_record (fs : FileSystem) (f : VirtFile) (index : Nat) :
    Except FsPanic (Option Dirent) := do
  let bytes ← fs.read_at f index DIRENT_SIZE
  return if bytes.length = DIRENT_SIZE then some (Dirent.empty.fill bytes) else none

/-- `VirtFile::new` with a cluster chain of its own. -/
def new_file (fs : FileSystem) (name : Name) (sde_pos : DirEntryPos) (lde_pos : List DirEntryPos)
    (cluster_vec : List Nat) (sde : Dirent) : VirtFile × FileSystem :=
  (⟨name, sde_pos, lde_pos, fs.next_chain, if sde.attr = ATTR_DIRECTORY then .Dir else .File⟩,
    { fs with
      chains := Function.update fs.chains fs.next_chain cluster_vec
      next_chain := fs.next_chain + 1 })

section Find

/-- The long entries after the first one of a run, against the pieces of the name that are
left, last piece first. The result holds the last entry read, and whether all pieces match. -/
def match_ldes (fs : FileSystem) (dir : VirtFile) (index : Nat) (lde : Dirent) :
    List (List Nat) → Except FsPanic (Option (Dirent × Bool))
  | [] => .ok (some (lde, true))
  | piece :: pieces => do
    match ← fs.read_record dir (index + DIRENT_SIZE) with
    | none => return none
    | some lde =>
      if lde.name_utf16 ≠ piece ∨ lde.attr ≠ ATTR_LONG_NAME then return some (lde, false)
      else match_ldes fs dir (index + DIRENT_SIZE) lde pieces

/-- The file of a short entry that was found, with its long entries from `index` on. -/
def found (fs : FileSystem) (dir : VirtFile) (name : Name) (index lde_cnt : Nat) (sde : Dirent) :
    Except FsPanic (VirtFile × FileSystem) := do
  let sde_offset := index + lde_cnt * DIRENT_SIZE
  let sde_pos ← fs.dirent_cluster_pos dir sde_offset
  let lde_pos ← (List.range lde_cnt).mapM fun i =>
    fs.dirent_cluster_pos dir (index + i * DIRENT_SIZE)
  let clus_chain ← fs.generate_cluster_chain dir sde_offset
  return fs.new_file name sde_pos lde_pos clus_chain sde

def find_by_lfn_loop (fs : FileSystem) (dir : VirtFile) (name : Name) :
    (fuel index : Nat) → Except FsPanic (Option VirtFile × FileSystem)
  | 0, _ => .error .endless
  | fuel + 1, index => do
    let name_vec := long_name_split name
    let name_cnt := name_vec.length
    match ← fs.read_record dir index with
    | none => return (none, fs)
    | some lde =>
      let next := find_by_lfn_loop fs dir name fuel (index + DIRENT_SIZE)
      if lde.attr = ATTR_LONG_NAME ∧ lde.name_utf16 = name_vec.getLastD [] then
        if lde.order &&& LAST_LONG_ENTRY = 0 ∨ lde.order = DIR_ENTRY_UNUSED then next
        else if (lde.order ^^^ LAST_LONG_ENTRY).toNat ≠ name_cnt then next
        else
          match ← fs.match_ldes dir index lde name_vec.dropLast.reverse with
          | none => return (none, fs)
          | some (_, false) => next
          | some (lde, true) =>
            match ← fs.read_record dir (index + name_cnt * DIRENT_SIZE) with
            | none => return (none, fs)
            | some sde =>
              if ¬ sde.is_deleted ∧ lde.check_sum = sde.gen_check_sum then do
                let (f, fs) ← fs.found dir name index name_cnt sde
                return (some f, fs)
              else next
      else next

def find_by_lfn (fs : FileSystem) (dir : VirtFile) (name : Name) :
    Except FsPanic (Option VirtFile × FileSystem) :=
  if long_name_split name = [] then .error .outOfBounds
  else fs.find_by_lfn_loop dir name (fs.record_limit dir) 0

/-- `name` is in upper case. -/
def find_by_sfn_loop (fs : FileSystem) (dir : VirtFile) (name : Name) :
    (fuel index : Nat) → Except FsPanic (Option VirtFile × FileSystem)
  | 0, _ => .error .endless
  | fuel + 1, index => do
    match ← fs.read_record dir index with
    | none => return (none, fs)
    | some sde =>
      if ¬ sde.is_deleted ∧ name = sde.get_name_uppercase then do
        let (f, fs) ← fs.found dir name index 0 sde
        return (some f, fs)
      else find_by_sfn_loop fs dir name fuel (index + DIRENT_SIZE)

def find_by_sfn (fs : FileSystem) (dir : VirtFile) (name : Name) :
    Except FsPanic (Option VirtFile × FileSystem) :=
  fs.find_by_sfn_loop dir name.to_ascii_uppercase (fs.record_limit dir) 0

/-- Names that do not fit into a short entry. -/
def is_long (name : Name) : Bool :=
  8 < (split_name_ext name).1.len ∨ 3 < (split_name_ext name).2.len

def find_by_name (fs : FileSystem) (dir : VirtFile) (name : Name) :
    Except FsPanic (Option VirtFile × FileSystem) :=
  if dir.is_dir then
    if is_long name then fs.find_by_lfn dir name else fs.find_by_sfn dir name
  else .error .wrongType

def find (fs : FileSystem) (current : VirtFile) : (path : List Name) →
    Except FsPanic (Except DirError VirtFile × FileSystem)
  | [] => .ok (.ok current, fs)
  | name :: path =>
    if name = [] ∨ name = ['.'] then find fs current path
    else if ¬ current.is_dir then .ok (.error .NotDir, fs)
    else do
      match ← fs.find_by_name current name with
      | (some vfile, fs) => find fs vfile path
      | (none, fs) => return (.error .NoMatch, fs)

end Find

section Create

/-- The offset of the first record that was never used, or the end of the clusters. -/
def empty_entry_loop (fs : FileSystem) (dir : VirtFile) :
    (fuel index : Nat) → (sde : Dirent) → Except FsPanic Nat
  | 0, _, _ => .error .endless
  | fuel + 1, index, sde => do
    let bytes ← fs.read_at dir index DIRENT_SIZE
    let sde := sde.fill bytes
    if bytes.length = 0 ∨ sde.is_empty then return index
    else empty_entry_loop fs dir fuel (index + DIRENT_SIZE) sde

def empty_entry_index (fs : FileSystem) (dir : VirtFile) : Except FsPanic Nat :=
  fs.empty_entry_loop dir (fs.record_limit dir) 0 .empty

/-- The records are written one after the other. -/
def write_records (fs : FileSystem) (dir : VirtFile) :
    (entry_offset : Nat) → List Dirent → Except FsPanic FileSystem
  | _, [] => .ok fs
  | entry_offset, e :: es => do
    let (_, fs) ← fs.write_at dir entry_offset e.as_bytes
    write_records fs dir (entry_offset + DIRENT_SIZE) es

def short_entry (name : Name) (file_type : VirtFileType) : Dirent :=
  let short_name := if is_long name then generate_short_name name else name
  let (name, ext) := short_name_format short_name
  .new NEW_VIRT_FILE_CLUSTER name ext file_type

/-- The long entries of a name, as they are written. A short name has one. -/
def long_entries (name : Name) (sde : Dirent) : List Dirent :=
  let lfn_vec := if is_long name then long_name_split name else (long_name_split name).take 1
  let lfn_cnt := lfn_vec.length
  lfn_vec.reverse.mapIdx fun i name_array =>
    let order := UInt8.ofNat (lfn_cnt - i)
    .new_form_name_slice (if i = 0 then order ||| LAST_LONG_ENTRY else order) name_array
      sde.gen_check_sum

/-- The entries `..` and `.` of a new directory. -/
def write_dots (fs : FileSystem) (dir file : VirtFile) : Except FsPanic FileSystem := do
  let dots (n : Nat) (cluster : Nat) : Dirent :=
    let (name, ext) := short_name_format (List.replicate n '.')
    .new cluster name ext .Dir
  let (_, fs) ← fs.write_at file DIRENT_SIZE (dots 2 (← fs.first_cluster dir)).as_bytes
  let (_, fs) ← fs.write_at file 0 (dots 1 (← fs.first_cluster file)).as_bytes
  return fs

def create (fs : FileSystem) (dir : VirtFile) (name : Name) (file_type : VirtFileType) :
    Except FsPanic (Except DirError VirtFile × FileSystem) := do
  let (option, fs) ← fs.find_by_name dir name
  if option.any (·.attr = file_type) then return (.error .FileHasExist, fs)
  else if long_name_split name = [] then .error .outOfBounds
  else
    let entry_offset ← fs.empty_entry_index dir
    let sde := short_entry name file_type
    let fs ← fs.write_records dir entry_offset (long_entries name sde ++ [sde])
    if (← fs.first_cluster dir) < 2 then .error (.badCluster 0)
    else
      match ← fs.find_by_name dir name with
      | (none, fs) => return (.error .CreateFileError, fs)
      | (some file, fs) =>
        match file_type with
        | .Dir => return (.ok file, ← fs.write_dots dir file)
        | .File => return (.ok file, fs)

end Create

/-- `Dir::remove`. -/
def remove (fs : FileSystem) (dir : VirtFile) (path : List Name) :
    Except FsPanic (Except DirError Unit × FileSystem) := do
  match ← fs.find dir path with
  | (.ok file, fs) => do
    let (_, fs) ← fs.clear file
    return (.ok (), fs)
  | (.error e, fs) => return (.error e, fs)

end FileSystem

end MyGOS.Fat32
