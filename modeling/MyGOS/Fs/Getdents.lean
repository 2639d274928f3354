import MyGOS.Fat32.DirInfo
import MyGOS.Fat32.Mount
import MyGOS.Fs.FdTable
import MyGOS.Fs.KFile
import MyGOS.Lib.Portions

/-!
# Listing a directory

`sys_getdents64` fills the buffer of the user with entries of one size. How far
a directory is read is the offset of the open file. The buffer has to have one
byte more than the entries that are put into it.
-/

namespace MyGOS.Nix

open Fat32

def NAME_LIMIT : Nat := 64

structure Dirent where
  d_ino : Nat
  d_off : Int
  d_reclen : Nat
  d_type : Nat
  d_name : Fin NAME_LIMIT → UInt8

namespace Dirent

/-- `size_of::<Dirent>()`: the fields in their order, rounded up to eight bytes. -/
def size : Nat := (8 + 8 + 2 + 1 + NAME_LIMIT + 7) / 8 * 8

def new : Dirent := ⟨0, 0, size, 0, fun _ => 0⟩

/-- The byte after the name may be out of bounds. -/
def fill_name (d : Dirent) (name : Name) : Except FsPanic Dirent :=
  let len := min name.len NAME_LIMIT
  if len < NAME_LIMIT then
    .ok { d with d_name := fun i =>
      if i < len then name.as_bytes.getD i 0 else if i = len then 0 else d.d_name i }
  else .error .outOfBounds

def init (d : Dirent) (name : Name) (offset : Int) (first_clu : Nat) : Except FsPanic Dirent :=
  fill_name { d with d_ino := first_clu, d_off := offset } name

/-- What the user reads in an entry. -/
structure Shows (d : Dirent) (info : DirInfo) : Prop where
  d_ino : d.d_ino = info.first_cluster
  d_off : d.d_off = info.offset
  len : info.name.len < NAME_LIMIT
  /-- the name and a zero -/
  d_name : ∀ i : Fin NAME_LIMIT, i ≤ info.name.len → d.d_name i = info.name.as_bytes.getD i 0

theorem init_shows (d : Dirent) {info : DirInfo} (h : info.name.len < NAME_LIMIT) :
    ∃ d', d.init info.name info.offset info.first_cluster = .ok d' ∧ d'.Shows info := by
  have hmin : min info.name.len NAME_LIMIT = info.name.len := Nat.min_eq_left h.le
  refine ⟨_, by rw [init, fill_name, hmin, if_pos h], rfl, rfl, h, ?_⟩
  intro i hi
  obtain hlt | heq := hi.lt_or_eq
  · exact if_pos hlt
  · have hnil : info.name.as_bytes.getD i 0 = 0 := by
      rw [heq]
      exact List.getD_eq_default _ _ le_rfl
    exact (if_neg heq.not_lt).trans ((if_pos heq).trans hnil.symm)

end Dirent

end MyGOS.Nix

namespace MyGOS.Fs

open Fat32

def OpenFlags.O_RDONLY : OpenFlags := 2

namespace FsState

section Calls

variable (s : FsState)

/-- `KFile::dirent`: what it returns, and the entry that it fills. -/
def dirent (h : Nat) (dirent : Nix.Dirent) : Except FsPanic (Int × Nix.Dirent × FsState) := do
  let f ← s.kfile h
  let file := (s.inodes f.inode).file
  if file.is_dir then
    match ← s.fs.dir_info file f.offset with
    | some info => do
      let dirent ← dirent.init info.name info.offset info.first_cluster
      return (Nix.Dirent.size, dirent, ← s.seek h info.offset)
    | none => return (-1, dirent, s)
  else return (-1, dirent, s)

/-- The loop of `sys_getdents64`; the entries come with their place in the buffer. -/
def getdents_loop (h len : Nat) : Nat → (total_len : Nat) → Nix.Dirent → FsState →
    Except FsPanic ((List (Nat × Nix.Dirent) × Nat) × FsState)
  | 0, _, _, _ => .error .endless
  | fuel + 1, total_len, dirent, s =>
    if len ≤ total_len + Nix.Dirent.size then .ok (([], total_len), s)
    else do
      let (n, dirent, s) ← s.dirent h dirent
      if 0 < n then do
        let ((writes, end_len), s) ←
          getdents_loop h len fuel (total_len + Nix.Dirent.size) dirent s
        return (((total_len, dirent) :: writes, end_len), s)
      else return (([], total_len), s)

/-- What is written to the buffer, and what the call returns. -/
def sys_getdents64 (fd_table : FDTable Nat) (work_path : AbsolutePath) (fd : Int) (len : Nat) :
    Except FsPanic (Except Errno (List (Nat × Nix.Dirent) × Nat) × FsState) :=
  if fd = FDTable.AT_FDCWD then do
    match ← s.open_path work_path .O_RDONLY with
    | (.error e, s) => return (.error e, s)
    | (.ok h, s) =>
      let (r, s) ← getdents_loop h len (len / Nix.Dirent.size + 1) 0 .new s
      return (.ok r, ← s.close h)
  else
    match fd_table[FDTable.as_usize fd]? with
    | none => .error .outOfBounds
    | some none => .ok (.error .EBADF, s)
    | some (some h) => do
      let (r, s) ← getdents_loop h len (len / Nix.Dirent.size + 1) 0 .new s
      return (.ok r, s)

variable (fd_table : FDTable Nat) (work_path : AbsolutePath) (fd : Int) (lens : Nat → Nat)

/-- The state after `i` calls with buffers of the given lengths. -/
def getdents_calls : (i : Nat) → Except FsPanic FsState
  | 0 => .ok s
  | i + 1 => do
    let s ← getdents_calls i
    let (_, s) ← s.sys_getdents64 fd_table work_path fd (lens i)
    return s

/-- What the call `i` answers. -/
def getdents_answer (i : Nat) :
    Except FsPanic (Except Errno (List (Nat × Nix.Dirent) × Nat)) := do
  let s ← s.getdents_calls fd_table work_path fd lens i
  let (r, _) ← s.sys_getdents64 fd_table work_path fd (lens i)
  return r

end Calls

/-- Entries one after the other from a place in the buffer on. -/
def Written : (pos : Nat) → List (Nat × Nix.Dirent) → List DirInfo → Prop
  | _, [], [] => True
  | pos, (start, d) :: writes, info :: infos =>
    start = pos ∧ d.Shows info ∧ Written (pos + Nix.Dirent.size) writes infos
  | _, _, _ => False

/-- A call returns these entries. -/
def Gives (answer : Except FsPanic (Except Errno (List (Nat × Nix.Dirent) × Nat)))
    (infos : List DirInfo) : Prop :=
  ∃ writes, answer = .ok (.ok (writes, Nix.Dirent.size * infos.length)) ∧ Written 0 writes infos

/-- The records of an open directory, and how many there are. -/
def dir_record (s : FsState) (f : KFile) : Nat → Dirent :=
  s.fs.dir_record (s.inodes f.inode).file

def dir_record_cnt (s : FsState) (f : KFile) : Nat :=
  s.fs.dir_record_cnt (s.inodes f.inode).file

/-- The live entries of an open directory. -/
def live_infos (s : FsState) (f : KFile) : List DirInfo :=
  (live_from (s.dir_record f) (s.dir_record_cnt f) 0).map (live_info (s.dir_record f))

/-- An open directory whose live names fit into a `Dirent`. -/
structure Listable (s : FsState) (f : KFile) : Prop where
  layout : s.fs.bpb.Layout
  data : ∀ c ∈ s.fs.cluster_vec (s.inodes f.inode).file, s.fs.bpb.InData c
  is_dir : (s.inodes f.inode).file.is_dir
  names : ∀ info ∈ s.live_infos f, info.name.len < Nix.NAME_LIMIT

/-- Before the first call that returns 0 the calls return each live entry once. -/
def Lists (s : FsState) (fd_table : FDTable Nat) (work_path : AbsolutePath) (fd : Int)
    (lens : Nat → Nat) (infos : List DirInfo) : Prop :=
  ∃ portions, (∀ i, Gives (s.getdents_answer fd_table work_path fd lens i) (portions i)) ∧
    ReadsAll infos portions

section Rest

variable {s₀ s s' : FsState} {h k : Nat} {f : KFile}

/-- The open directory, read up to the record `k`. -/
structure ListedTo (s₀ s : FsState) (h : Nat) (f : KFile) (k : Nat) : Prop where
  fs : s.fs = s₀.fs
  inodes : s.inodes = s₀.inodes
  kfile : s.kfile h = .ok { f with offset := DIRENT_SIZE * k }
  le : k ≤ end_index (s₀.dir_record f) (s₀.dir_record_cnt f)
  fresh : name_before (s₀.dir_record f) k = none

theorem ListedTo.start (hf : s.kfile h = .ok f) (hoffset : f.offset = 0) : ListedTo s s h f 0 where
  fs := rfl
  inodes := rfl
  kfile := by
    rw [hf, Nat.mul_zero, ← hoffset]
  le := Nat.zero_le _
  fresh := rfl

theorem ListedTo.seek (hr : ListedTo s₀ s h f k) {j : Nat} (hlive : is_live (s₀.dir_record f) j)
    (hj : j < end_index (s₀.dir_record f) (s₀.dir_record_cnt f)) :
    ∃ s', s.seek h (DIRENT_SIZE * (j + 1)) = .ok s' ∧ ListedTo s₀ s' h f (j + 1) := by
  refine ⟨s.set_kfile h { f with offset := DIRENT_SIZE * (j + 1) }, ?_, ?_⟩
  · rw [FsState.seek, hr.kfile]
    rfl
  · exact ⟨hr.fs, hr.inodes, kfile_set_kfile s h _, hj, name_before_of_live _ hlive⟩

variable (hl : s₀.Listable f)

include hl

/-- `dirent` fills the entry with the next live one, or it is at the end. -/
theorem ListedTo.dirent (hr : ListedTo s₀ s h f k) (d : Nix.Dirent) :
    match live_from (s₀.dir_record f) (s₀.dir_record_cnt f) k with
    | [] => s.dirent h d = .ok (-1, d, s)
    | j :: js => ∃ d' s', s.dirent h d = .ok ((Nix.Dirent.size : Int), d', s') ∧
        d'.Shows (live_info (s₀.dir_record f) j) ∧ ListedTo s₀ s' h f (j + 1) ∧
        js = live_from (s₀.dir_record f) (s₀.dir_record_cnt f) (j + 1) := by
  have hinfo : s.fs.dir_info (s.inodes f.inode).file (DIRENT_SIZE * k) =
      .ok ((live_from (s₀.dir_record f) (s₀.dir_record_cnt f) k).head?.map
        (live_info (s₀.dir_record f))) := by
    rw [hr.fs, hr.inodes]
    exact FileSystem.dir_info_eq hl.layout hl.data hl.is_dir hr.le hr.fresh
  have hdir : (s.inodes f.inode).file.is_dir := by
    rw [hr.inodes]
    exact hl.is_dir
  rw [FsState.dirent, hr.kfile]
  simp only [bind, Except.bind]
  rw [if_pos hdir, hinfo]
  cases hrest : live_from (s₀.dir_record f) (s₀.dir_record_cnt f) k with
  | nil => rfl
  | cons j js =>
    obtain ⟨hlive, hj, hjs⟩ := live_from_cons hrest
    have hmem : live_info (s₀.dir_record f) j ∈ s₀.live_infos f :=
      List.mem_map_of_mem (mem_live_from.mpr ⟨⟨Nat.zero_le _, hj⟩, hlive⟩)
    obtain ⟨d', hd', hshows⟩ := d.init_shows (hl.names _ hmem)
    obtain ⟨s', hs', hr'⟩ := hr.seek hlive hj
    refine ⟨d', s', ?_, hshows, hr', hjs⟩
    have hoffset : (live_info (s₀.dir_record f) j).offset = DIRENT_SIZE * (j + 1) := rfl
    rw [hoffset] at hd'
    rw [List.head?_cons, Option.map_some]
    simp only [hoffset, hd', hs', pure, Except.pure]

/-- The loop takes the entries that fit before the last byte of the buffer. -/
theorem ListedTo.getdents_loop {len fuel t : Nat} (hr : ListedTo s₀ s h f k) (d : Nix.Dirent)
    (hfuel : (len - 1) / Nix.Dirent.size - t < fuel) :
    ∃ writes s' k', FsState.getdents_loop h len fuel (Nix.Dirent.size * t) d s =
        .ok ((writes, Nix.Dirent.size * (t +
          ((live_from (s₀.dir_record f) (s₀.dir_record_cnt f) k).take
            ((len - 1) / Nix.Dirent.size - t)).length)), s') ∧
      Written (Nix.Dirent.size * t) writes
        (((live_from (s₀.dir_record f) (s₀.dir_record_cnt f) k).take
          ((len - 1) / Nix.Dirent.size - t)).map (live_info (s₀.dir_record f))) ∧
      ListedTo s₀ s' h f k' ∧
      live_from (s₀.dir_record f) (s₀.dir_record_cnt f) k' =
        (live_from (s₀.dir_record f) (s₀.dir_record_cnt f) k).drop
          ((len - 1) / Nix.Dirent.size - t) := by
  induction fuel generalizing s k t d with
  | zero => exact absurd hfuel (Nat.not_lt_zero _)
  | succ fuel ih =>
    have hstep : Nix.Dirent.size * t + Nix.Dirent.size = Nix.Dirent.size * (t + 1) := rfl
    have hfits : len ≤ Nix.Dirent.size * (t + 1) ↔ (len - 1) / Nix.Dirent.size ≤ t := by
      have hsize : Nix.Dirent.size = 88 := rfl
      rw [hsize]
      omega
    rw [FsState.getdents_loop, hstep]
    by_cases hfull : (len - 1) / Nix.Dirent.size ≤ t
    · rw [if_pos (hfits.mpr hfull), Nat.sub_eq_zero_of_le hfull]
      exact ⟨[], s, k, rfl, trivial, hr, rfl⟩
    · obtain ⟨m, hm⟩ := Nat.exists_eq_add_of_lt (not_le.mp hfull)
      have hcap : (len - 1) / Nix.Dirent.size - t = m + 1 := by omega
      have hcap' : (len - 1) / Nix.Dirent.size - (t + 1) = m := by omega
      have hdirent := hr.dirent hl d
      rw [if_neg (mt hfits.mp hfull), hcap]
      cases hrest : live_from (s₀.dir_record f) (s₀.dir_record_cnt f) k with
      | nil =>
        rw [hrest] at hdirent
        simp only at hdirent
        rw [hdirent]
        exact ⟨[], s, k, rfl, trivial, hr, hrest⟩
      | cons j js =>
        rw [hrest] at hdirent
        obtain ⟨d', s', hd', hshows, hr', hjs⟩ := hdirent
        obtain ⟨writes, s'', k', hloop, hwritten, hr'', hlive⟩ :=
          @ih s' (j + 1) (t + 1) hr' d' (by omega)
        rw [hcap', ← hjs] at hloop hwritten hlive
        refine ⟨(_, d') :: writes, s'', k', ?_, ⟨rfl, hshows, hwritten⟩, hr'', hlive⟩
        rw [hd']
        simp only [bind, Except.bind]
        rw [if_pos (by decide), hloop, List.take_succ_cons, List.length_cons]
        simp only [pure, Except.pure, Except.ok.injEq, Prod.mk.injEq, and_true, true_and]
        congr 1
        omega

end Rest

section Calls

variable {s : FsState} {h : Nat} {f : KFile} {fd_table : FDTable Nat} {fd : Int}
  (work_path : AbsolutePath) (lens : Nat → Nat)

/-- How many entries a buffer has room for. -/
def room (len : Nat) : Nat := (len - 1) / Nix.Dirent.size

variable (hfd : fd ≠ FDTable.AT_FDCWD) (hopen : fd_table[FDTable.as_usize fd]? = some (some h))
  (hf : s.kfile h = .ok f) (hoffset : f.offset = 0) (hl : s.Listable f)

include hfd hopen hl in
theorem ListedTo.sys_getdents64 {s' : FsState} {k : Nat} (hr : ListedTo s s' h f k) (len : Nat) :
    ∃ writes s'' k', s'.sys_getdents64 fd_table work_path fd len =
        .ok (.ok (writes, Nix.Dirent.size *
          ((live_from (s.dir_record f) (s.dir_record_cnt f) k).take (room len)).length), s'') ∧
      Written 0 writes (((live_from (s.dir_record f) (s.dir_record_cnt f) k).take
        (room len)).map (live_info (s.dir_record f))) ∧
      ListedTo s s'' h f k' ∧
      live_from (s.dir_record f) (s.dir_record_cnt f) k' =
        (live_from (s.dir_record f) (s.dir_record_cnt f) k).drop (room len) := by
  have hfuel : (len - 1) / Nix.Dirent.size - 0 < len / Nix.Dirent.size + 1 :=
    Nat.lt_succ_of_le (Nat.div_le_div_right (Nat.sub_le len 1))
  obtain ⟨writes, s'', k', hloop, hwritten, hr', hrest⟩ := hr.getdents_loop hl .new hfuel
  rw [Nat.mul_zero, Nat.sub_zero] at hloop hwritten
  rw [Nat.sub_zero] at hrest
  refine ⟨writes, s'', k', ?_, hwritten, hr', hrest⟩
  rw [FsState.sys_getdents64, if_neg hfd, hopen]
  simp only [hloop, bind, Except.bind, pure, Except.pure, Nat.zero_add]
  rfl

include hfd hopen hf hoffset hl

/-- After `i` calls the entries are left that the buffers before had no room for. -/
theorem getdents_calls_eq (i : Nat) :
    ∃ s' k, s.getdents_calls fd_table work_path fd lens i = .ok s' ∧ ListedTo s s' h f k ∧
      live_from (s.dir_record f) (s.dir_record_cnt f) k =
        (live_from (s.dir_record f) (s.dir_record_cnt f) 0).drop
          (consumed (fun j => room (lens j)) i) := by
  induction i with
  | zero => exact ⟨s, 0, rfl, .start hf hoffset, by rw [consumed_zero, List.drop_zero]⟩
  | succ i ih =>
    obtain ⟨s', k, hcalls, hr, hrest⟩ := ih
    obtain ⟨writes, s'', k', hcall, -, hr', hrest'⟩ :=
      hr.sys_getdents64 work_path hfd hopen hl (lens i)
    refine ⟨s'', k', ?_, hr', ?_⟩
    · rw [getdents_calls, hcalls]
      simp only [bind, Except.bind, hcall, pure, Except.pure]
    · rw [hrest', hrest, List.drop_drop, consumed_succ]

theorem returns_portion (i : Nat) : Gives (s.getdents_answer fd_table work_path fd lens i)
    (portion (s.live_infos f) (fun j => room (lens j)) i) := by
  obtain ⟨s', k, hcalls, hr, hrest⟩ :=
    getdents_calls_eq work_path lens hfd hopen hf hoffset hl i
  obtain ⟨writes, s'', k', hcall, hwritten, -, -⟩ :=
    hr.sys_getdents64 work_path hfd hopen hl (lens i)
  refine ⟨writes, ?_, ?_⟩
  · rw [getdents_answer, hcalls]
    simp only [bind, Except.bind, hcall, pure, Except.pure]
    rw [portion, live_infos, ← List.map_drop, ← List.map_take, List.length_map, ← hrest]
  · rw [portion, live_infos, ← List.map_drop, ← List.map_take, ← hrest]
    exact hwritten

theorem length_le_room {i : Nat} {infos : List DirInfo}
    (hreturns : Gives (s.getdents_answer fd_table work_path fd lens i) infos) :
    infos.length ≤ room (lens i) := by
  obtain ⟨writes, hwrites, -⟩ := hreturns
  obtain ⟨writes', hwrites', -⟩ := returns_portion work_path lens hfd hopen hf hoffset hl i
  rw [hwrites] at hwrites'
  have hlen := (Prod.mk.inj (Except.ok.inj (Except.ok.inj hwrites'))).2
  rw [Nat.eq_of_mul_eq_mul_left (by decide) hlen, portion, List.length_take]
  exact Nat.min_le_left _ _

end Calls

/-- The listing is complete, if a buffer for one entry only comes after the last live one. -/
theorem getdents_lists_iff {s : FsState} {h : Nat} {f : KFile} {fd_table : FDTable Nat}
    {work_path : AbsolutePath} {fd : Int} {lens : Nat → Nat} (hfd : fd ≠ FDTable.AT_FDCWD)
    (hopen : fd_table[FDTable.as_usize fd]? = some (some h)) (hf : s.kfile h = .ok f)
    (hoffset : f.offset = 0) (hl : s.Listable f) (hlens : ∀ i, Nix.Dirent.size ≤ lens i) :
    s.Lists fd_table work_path fd lens (s.live_infos f) ↔
      ∀ i, lens i = Nix.Dirent.size → (s.live_infos f).length ≤
        ∑ j ∈ Finset.range i, (lens j - 1) / Nix.Dirent.size := by
  have hreturns := returns_portion work_path lens hfd hopen hf hoffset hl
  have hzero : ∀ i, room (lens i) = 0 ↔ lens i = Nix.Dirent.size := by
    intro i
    have hle := hlens i
    have hsize : Nix.Dirent.size = 88 := rfl
    rw [hsize] at hle ⊢
    rw [room, hsize]
    omega
  constructor
  · rintro ⟨portions, hportions, hall⟩ i hi
    exact @ReadsAll.le_consumed _ _ _ (fun j => room (lens j)) hall
      (fun j => length_le_room work_path lens hfd hopen hf hoffset hl (hportions j)) i
      ((hzero i).mpr hi)
  · intro hcond
    refine ⟨_, hreturns, (readsAll_portion_iff _ _).mpr fun i hi => ?_⟩
    exact hcond i ((hzero i).mp hi)

section Floppy

/-- The root directory of a volume, opened as the file 0. -/
def root_file : KFile := .new true false 0 [] root.name

def floppy_root (records : List Dirent) : FsState :=
  (FsState.new
    { device := floppy records
      free_cluster_cnt := 12
      bpb := .of_block (floppy records 0)
      recycled_cluster := []
      root_dir_entry := .new 2 [ROOT] [] .Dir
      chains := fun _ => [2]
      next_chain := 1 }).new_kfile root_file |>.2

/-- The directory has one file. -/
def one_entry : FsState := floppy_root [.new 0 [65] [] .File]

theorem listable_one_entry : one_entry.Listable root_file where
  layout := by constructor <;> decide +kernel
  data := by
    unfold BIOSParameterBlock.InData
    decide +kernel
  is_dir := rfl
  names := by decide +kernel

theorem getdents_lists_iff_one_entry :
    one_entry.Lists [some 0] [] 0 (fun _ => 89) (one_entry.live_infos root_file) :=
  (getdents_lists_iff (by decide) rfl rfl rfl listable_one_entry (fun _ => by decide)).mpr
    fun _ hlen => absurd hlen (by decide)

/-- The buffer has room for the entry, and the first call returns 0. -/
theorem getdents_full_buffer :
    one_entry.Listable root_file ∧ one_entry.kfile 0 = .ok root_file ∧ root_file.offset = 0 ∧
      one_entry.live_infos root_file = [⟨['a'], 32, 0, 32⟩] ∧
      ¬ one_entry.Lists [some 0] [] 0 (fun _ => Nix.Dirent.size)
        (one_entry.live_infos root_file) := by
  refine ⟨listable_one_entry, rfl, rfl, by decide +kernel, ?_⟩
  rintro ⟨portions, hportions, hall⟩
  have hroom : ∀ i, (portions i).length ≤ 0 := fun i =>
    length_le_room [] (fun _ => Nix.Dirent.size) (by decide) rfl rfl rfl listable_one_entry
      (hportions i)
  have hle := @ReadsAll.le_consumed _ _ _ (fun _ => 0) hall hroom 0 rfl
  rw [consumed_zero] at hle
  exact absurd hle (by decide +kernel)

end Floppy

end FsState

end MyGOS.Fs
