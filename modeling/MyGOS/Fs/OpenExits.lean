import MyGOS.Fat32.Clear
import MyGOS.Fat32.Mount
import MyGOS.Fs.Content

/-!
# The exits of `open`

A path whose inode is in the cache leaves `open` at its first exit; another path
is looked up, with `O_CREAT` in one branch and without it in the other. Each
builds its own `KFile`: the first exit never truncates, and the branch of
`O_CREAT` neither truncates nor stores the flags.
-/

namespace MyGOS.Fs

open Fat32 Outcome

namespace FsState

variable {s t : FsState} {path : AbsolutePath} {flags : OpenFlags} {a h : Nat} {f : KFile}

section CacheInsert

variable (s : FsState) (path : AbsolutePath) (a : Nat)

/-- Only the cache differs. -/
theorem cache_insert_eq : ∃ c, s.cache_insert path a = { s with inode_cache := c } := by
  unfold cache_insert
  simp only
  split
  · exact ⟨_, rfl⟩
  · exact ⟨_, rfl⟩

@[simp] theorem fs_cache_insert : (s.cache_insert path a).fs = s.fs := by
  obtain ⟨c, hc⟩ := s.cache_insert_eq path a
  rw [hc]

@[simp] theorem inodes_cache_insert : (s.cache_insert path a).inodes = s.inodes := by
  obtain ⟨c, hc⟩ := s.cache_insert_eq path a
  rw [hc]

@[simp] theorem files_cache_insert : (s.cache_insert path a).files = s.files := by
  obtain ⟨c, hc⟩ := s.cache_insert_eq path a
  rw [hc]

@[simp] theorem kfile_cache_insert (h : Nat) : (s.cache_insert path a).kfile h = s.kfile h := by
  rw [kfile, kfile, files_cache_insert]

end CacheInsert

/-- With a new inode for a file, its page cache, and a file opened on it. -/
def with_file (s : FsState) (path : AbsolutePath) (flags : OpenFlags) (file : VirtFile)
    (name : Name) (file_size : Nat) : FsState :=
  { s with
    ino := s.ino + 1
    inodes := Function.update s.inodes s.next_inode ⟨file, s.ino, some ∅, file_size⟩
    next_inode := s.next_inode + 1
    files := s.files.insert s.next_file
      (.new (OpenFlags.read_write flags).1 (OpenFlags.read_write flags).2 s.next_inode path name)
    next_file := s.next_file + 1 }

theorem open_virt_file_eq {file : VirtFile} {name : Name} {size : Nat}
    (hsize : s.fs.file_size file = .ok size) :
    s.open_virt_file path flags file name = .ok (s.next_file,
      (s.with_file path flags file name size).cache_insert path s.next_inode) := by
  simp [open_virt_file, hsize, with_file, new_kfile, create_page_cache_if_needed, set_page_cache,
    set_inode, bind, Except.bind, pure, Except.pure]

theorem open_virt_file_ok {file : VirtFile} {name : Name} {r : Nat × FsState}
    (ho : s.open_virt_file path flags file name = .ok r) :
    ∃ size, s.fs.file_size file = .ok size ∧ r = (s.next_file,
      (s.with_file path flags file name size).cache_insert path s.next_inode) := by
  obtain ⟨size, hsize, _⟩ := bind_eq_ok.mp ho
  rw [open_virt_file_eq hsize] at ho
  exact ⟨size, hsize, (Except.ok.inj ho).symm⟩

theorem kfile_with_file {file : VirtFile} {name : Name} {size : Nat} :
    ((s.with_file path flags file name size).cache_insert path s.next_inode).kfile s.next_file =
      .ok (.new (OpenFlags.read_write flags).1 (OpenFlags.read_write flags).2 s.next_inode path
        name) := by
  simp [kfile, with_file]

/-- The content of a file that was just looked up is that of the disk. -/
theorem content_with_file {file : VirtFile} {name : Name} {size : Nat}
    (hsize : s.fs.file_size file = .ok size) :
    ((s.with_file path flags file name size).cache_insert path s.next_inode).content
      s.next_inode = disk_content s.fs file := by
  rw [content, fs_cache_insert, inodes_cache_insert]
  simp only [with_file, Function.update_self]
  exact Inode.content_eq _ (.inr rfl) hsize rfl

theorem set_flags_ok (hf : s.kfile h = .ok f) (ho : s.set_flags h flags = .ok t) :
    t = s.set_kfile h { f with flags := f.flags ||| flags } := by
  unfold set_flags at ho
  rw [hf] at ho
  exact (Except.ok.inj ho).symm

/-- What `open` hands to its caller: a file of `t` that stores `stored`, with the content
`left`. -/
structure Opened (flags stored : OpenFlags) (left : Except FsPanic (List UInt8)) (t : FsState)
    (f : KFile) : Prop where
  readable : f.readable = (OpenFlags.read_write flags).1
  writable : f.writable = (OpenFlags.read_write flags).2
  flags : f.flags = stored
  content : t.content f.inode = left

theorem create_page_cache_files (s : FsState) (a : Nat) :
    (s.create_page_cache_if_needed a).files = s.files := by
  unfold create_page_cache_if_needed
  split
  · rfl
  · rfl

theorem create_page_cache_content (s : FsState) (a : Nat) :
    (s.create_page_cache_if_needed a).content a = s.content a := by
  unfold create_page_cache_if_needed
  split
  · next hnone =>
    simp only [content, set_page_cache, set_inode, Function.update_self, Inode.content]
    rw [Inode.byte_of_no_pages _ (.inr rfl), Inode.byte_of_no_pages _ (.inl hnone)]
  · rfl

theorem open_cached_opened (ho : s.open_cached path flags a = .ok (h, t)) (hf : t.kfile h = .ok f) :
    Opened flags flags (s.content a) t f ∧ f.inode = a := by
  obtain ⟨u, hu, ho⟩ := bind_eq_ok.mp ho
  cases ho
  have hk : ((s.new_kfile (.new (OpenFlags.read_write flags).1 (OpenFlags.read_write flags).2 a path
      (last_name path))).2.create_page_cache_if_needed a).kfile s.next_file = .ok (.new
      (OpenFlags.read_write flags).1 (OpenFlags.read_write flags).2 a path (last_name path)) := by
    rw [← kfile_new_kfile, kfile, create_page_cache_files, kfile]
  have ht := set_flags_ok hk hu
  subst ht
  cases (kfile_set_kfile ..).symm.trans hf
  constructor
  · constructor
    · rfl
    · rfl
    · simp [KFile.new]
    · exact create_page_cache_content _ a
  · rfl

/-- The branches of `O_CREAT` and of a plain lookup, for a path that is found. -/
theorem open_create_opened {file : VirtFile} {fs : FileSystem} {o : Except Errno Nat × FsState}
    (hfile : s.fs.find root path = .ok (.ok file, fs)) (ho : s.open_create path flags = .ok o)
    (h : Nat) (ho' : o.1 = .ok h) (hf : o.2.kfile h = .ok f) :
    Opened flags 0 (disk_content fs file) o.2 f := by
  unfold open_create at ho
  rw [hfile] at ho
  obtain ⟨_, ⟨⟩, ho⟩ := bind_eq_ok.mp ho
  obtain ⟨r, hr, ho⟩ := bind_eq_ok.mp ho
  cases ho
  cases ho'
  obtain ⟨size, hsize, rfl⟩ := open_virt_file_ok hr
  cases kfile_with_file.symm.trans hf
  constructor
  · rfl
  · rfl
  · rfl
  · exact content_with_file hsize

/-- The lookup fails, or the file is cleared if the flags ask for it, opened, and given its
flags. -/
theorem open_found_ok {o : Except Errno Nat × FsState} (ho : s.open_found path flags = .ok o) :
    (∃ e fs, s.fs.find root path = .ok (.error e, fs) ∧ o = (.error .ENOENT, { s with fs := fs })) ∨
      ∃ file fs fs₁ r u, s.fs.find root path = .ok (.ok file, fs) ∧
        (if OpenFlags.contains flags .O_TRUNC then Prod.snd <$> fs.clear file else .ok fs) =
          .ok fs₁ ∧
        open_virt_file { s with fs := fs₁ } path flags file file.name = .ok r ∧
        r.2.set_flags r.1 flags = .ok u ∧ o = (.ok r.1, u) := by
  unfold open_found at ho
  obtain ⟨⟨_ | file, fs⟩, hfile, ho⟩ := bind_eq_ok.mp ho
  · cases ho
    exact .inl ⟨_, fs, hfile, rfl⟩
  · obtain ⟨fs₁, hfs₁, r, hr, ho⟩ : ∃ fs₁, (if OpenFlags.contains flags .O_TRUNC then
        Prod.snd <$> fs.clear file else .ok fs) = .ok fs₁ ∧ ∃ r,
        open_virt_file { s with fs := fs₁ } path flags file file.name = .ok r ∧
        (do return (.ok r.1, ← r.2.set_flags r.1 flags)) = Except.ok o := by
      simp only at ho
      split at ho
      · next htrunc => simpa only [htrunc, if_true, bind_eq_ok] using ho
      · next htrunc => simpa [htrunc, bind_eq_ok] using ho
    obtain ⟨u, hu, ho⟩ := bind_eq_ok.mp ho
    cases ho
    exact .inr ⟨file, fs, fs₁, r, u, hfile, hfs₁, hr, hu, rfl⟩

theorem open_found_opened {file : VirtFile} {fs : FileSystem} {o : Except Errno Nat × FsState}
    (hs : s.fs.bpb.Sectors) (hfile : s.fs.find root path = .ok (.ok file, fs))
    (ho : s.open_found path flags = .ok o) (h : Nat) (ho' : o.1 = .ok h)
    (hf : o.2.kfile h = .ok f) :
    Opened flags flags
      (if OpenFlags.contains flags .O_TRUNC then .ok [] else disk_content fs file) o.2 f := by
  obtain ⟨e, fs₂, hnone, rfl⟩ | ⟨file₂, fs₂, fs₁, r, t, hfound, hfs₁, hr, ht, rfl⟩ :=
    open_found_ok ho
  · cases ho'
  cases hfile.symm.trans hfound
  cases ho'
  obtain ⟨size, hsize, rfl⟩ := open_virt_file_ok hr
  have ht := set_flags_ok kfile_with_file ht
  subst ht
  cases (kfile_set_kfile ..).symm.trans hf
  constructor
  · rfl
  · rfl
  · simp [KFile.new]
  · refine (content_with_file hsize : _).trans ?_
    split at hfs₁
    · next htrunc =>
      obtain ⟨⟨n, fs₂⟩, hclear, rfl⟩ := map_eq_ok.mp hfs₁
      obtain ⟨hl, ha⟩ := (FileSystem.find_resolved (Nat.dvd_zero _) hs hfile :
        FileSystem.Located _ _ _)
      have hzero := FileSystem.clear_file_size (hl.bpb ▸ hs) (ha hs) hclear
      rw [if_pos htrunc, disk_content, hzero]
      rfl
    · next htrunc =>
      cases hfs₁
      rw [if_neg htrunc]

/-- A path is opened with the same flags in a state that has its inode `a` in the cache, and in
one that has not, where it is found. -/
structure OpenedTwice (path : AbsolutePath) (flags : OpenFlags) (s₁ t₁ : FsState) (a : Nat)
    (f₁ : KFile) (s₂ t₂ : FsState) (file : VirtFile) (fs : FileSystem) (f₂ : KFile) : Prop where
  cached : s₁.inode_cache.lookup path = some a
  cached_open : ∃ h, s₁.open_path path flags = .ok (.ok h, t₁) ∧ t₁.kfile h = .ok f₁
  not_cached : s₂.inode_cache.lookup path = none
  found : s₂.fs.find root path = .ok (.ok file, fs)
  other_open : ∃ h, s₂.open_path path flags = .ok (.ok h, t₂) ∧ t₂.kfile h = .ok f₂

/-- Two files that were opened with the same flags, with `before₁` and `before₂` in them, that
their callers cannot tell apart. -/
structure OpenedAlike (flags : OpenFlags) (before₁ before₂ : Except FsPanic (List UInt8))
    (t₁ t₂ : FsState) (f₁ f₂ : KFile) : Prop where
  readable : f₁.readable = f₂.readable
  writable : f₁.writable = f₂.writable
  stored : f₁.flags = f₂.flags
  truncated : OpenFlags.contains flags .O_TRUNC →
    t₁.content f₁.inode = .ok [] ∧ t₂.content f₂.inode = .ok []
  untouched : ¬ OpenFlags.contains flags .O_TRUNC →
    t₁.content f₁.inode = before₁ ∧ t₂.content f₂.inode = before₂

variable {s₁ t₁ s₂ t₂ : FsState} {f₁ f₂ : KFile} {file : VirtFile} {fs : FileSystem}

theorem OpenedTwice.opened_cached (h : OpenedTwice path flags s₁ t₁ a f₁ s₂ t₂ file fs f₂) :
    Opened flags flags (s₁.content a) t₁ f₁ := by
  obtain ⟨h₁, ho, hf⟩ := h.cached_open
  simp only [open_path, h.cached] at ho
  obtain ⟨⟨h, t⟩, hr, heq⟩ := bind_eq_ok.mp ho
  cases heq
  exact (open_cached_opened hr hf).1

theorem OpenedTwice.opened_found (h : OpenedTwice path flags s₁ t₁ a f₁ s₂ t₂ file fs f₂)
    (hs : s₂.fs.bpb.Sectors) : Opened flags
      (if OpenFlags.contains flags .O_CREAT then 0 else flags)
      (if ¬ OpenFlags.contains flags .O_CREAT ∧ OpenFlags.contains flags .O_TRUNC then .ok []
        else disk_content fs file) t₂ f₂ := by
  obtain ⟨h₂, ho, hf⟩ := h.other_open
  simp only [open_path, h.not_cached] at ho
  split at ho
  · next hcreate => simpa [hcreate] using open_create_opened h.found ho h₂ rfl hf
  · next hcreate => simpa [hcreate] using open_found_opened hs h.found ho h₂ rfl hf

theorem contains_create_ne_zero (h : OpenFlags.contains flags .O_CREAT) : flags ≠ 0 := by
  rintro rfl
  exact absurd h (by decide)

/-- `open` of a path that exists does the same at its first exit and at its others, if and only
if it is without `O_CREAT`, and without `O_TRUNC` unless the cached file is empty. -/
theorem open_ignores_cache_iff (h : OpenedTwice path flags s₁ t₁ a f₁ s₂ t₂ file fs f₂)
    (hs : s₂.fs.bpb.Sectors) :
    OpenedAlike flags (s₁.content a) (disk_content fs file) t₁ t₂ f₁ f₂ ↔
      ¬ OpenFlags.contains flags .O_CREAT ∧
        (OpenFlags.contains flags .O_TRUNC → (s₁.inodes a).file_size = 0) := by
  have hc := h.opened_cached
  have hf := h.opened_found hs
  constructor
  · intro halike
    constructor
    · intro hcreate
      have hstored : flags = 0 := by
        rw [← hc.flags, halike.stored, hf.flags, if_pos hcreate]
      exact contains_create_ne_zero hcreate hstored
    · intro htrunc
      apply (Inode.content_eq_nil_iff s₁.fs _).mp
      exact hc.content.symm.trans (halike.truncated htrunc).1
  · rintro ⟨hcreate, hempty⟩
    constructor
    · exact hc.readable.trans hf.readable.symm
    · exact hc.writable.trans hf.writable.symm
    · rw [hc.flags, hf.flags, if_neg hcreate]
    · intro htrunc
      constructor
      · rw [hc.content]
        exact (Inode.content_eq_nil_iff _ _).mpr (hempty htrunc)
      · rw [hf.content, if_pos ⟨hcreate, htrunc⟩]
    · intro htrunc
      constructor
      · exact hc.content
      · rw [hf.content, if_neg fun hboth => htrunc hboth.2]

section Floppy

/-- Opens a path twice, and only with the second flags. -/
def open_twice (device : BlockDevice) (path : AbsolutePath) (flags : OpenFlags) :
    Except FsPanic (Nat × KFile × KFile) := do
  let fs ← open_volume device
  let (_, s₁) ← (new fs).open_path path 0
  match s₁.inode_cache.lookup path, ← fs.find root path with
  | some a, (.ok _, _) =>
    match ← s₁.open_path path flags, ← (new fs).open_path path flags with
    | (.ok h₁, t₁), (.ok h₂, t₂) =>
      return ((s₁.inodes a).file_size, ← t₁.kfile h₁, ← t₂.kfile h₂)
    | _, _ => .error .notOpen
  | _, _ => .error .notOpen

theorem open_twice_ok {device : BlockDevice} {Q : Nat → KFile → KFile → Prop}
    (h : Meets (open_twice device path flags) (fun _ => False) fun r => Q r.1 r.2.1 r.2.2) :
    ∃ s₁ t₁ a f₁ s₂ t₂ file fs f₂, OpenedTwice path flags s₁ t₁ a f₁ s₂ t₂ file fs f₂ ∧
      s₂.fs.bpb = .of_block (device 0) ∧ Q (s₁.inodes a).file_size f₁ f₂ := by
  obtain ⟨r, hr, hq⟩ := h.exists_ok
  obtain ⟨fs, hfs, hr⟩ := bind_eq_ok.mp hr
  obtain ⟨⟨r₁, s₁⟩, hs₁, hr⟩ := bind_eq_ok.mp hr
  obtain ⟨found, hfound, hr⟩ := bind_eq_ok.mp hr
  have hbpb : fs.bpb = .of_block (device 0) := by
    unfold open_volume at hfs
    simp only at hfs
    split at hfs
    · obtain ⟨_, _, hfs⟩ := bind_eq_ok.mp hfs
      cases hfs
      rfl
    · cases hfs
  split at hr
  · next a file fs' hcached =>
    obtain ⟨⟨_ | h₁, t₁⟩, ho₁, hr⟩ := bind_eq_ok.mp hr
    · obtain ⟨_, _, hr⟩ := bind_eq_ok.mp hr
      cases hr
    · obtain ⟨⟨_ | h₂, t₂⟩, ho₂, hr⟩ := bind_eq_ok.mp hr
      · cases hr
      · obtain ⟨f₁, hf₁, hr⟩ := bind_eq_ok.mp hr
        obtain ⟨f₂, hf₂, hr⟩ := bind_eq_ok.mp hr
        cases hr
        exact ⟨s₁, t₁, a, f₁, new fs, t₂, file, fs', f₂,
          ⟨hcached, ⟨h₁, ho₁, hf₁⟩, rfl, hfound, h₂, ho₂, hf₂⟩, hbpb, hq⟩
  · cases hr

/-- A volume with one empty file. -/
def one_file : BlockDevice := floppy [.new 0 [65] [] .File]

/-- `O_WRONLY | O_CREAT | O_APPEND`: the file appends if its inode is in the cache. -/
theorem open_create_drops_append : ∃ s₁ t₁ a f₁ s₂ t₂ file fs f₂,
    OpenedTwice [['A']] 0o2105 s₁ t₁ a f₁ s₂ t₂ file fs f₂ ∧ s₂.fs.bpb.Sectors ∧
      ¬ OpenedAlike 0o2105 (s₁.content a) (disk_content fs file) t₁ t₂ f₁ f₂ := by
  obtain ⟨s₁, t₁, a, f₁, s₂, t₂, file, fs, f₂, h, hbpb, hq⟩ :=
    @open_twice_ok [['A']] 0o2105 one_file
      (fun _ f₁ f₂ => f₁.flags ≠ f₂.flags) (by decide +kernel)
  refine ⟨s₁, t₁, a, f₁, s₂, t₂, file, fs, f₂, h, ?_, ?_⟩
  · rw [hbpb]
    exact ⟨1, by decide +kernel⟩
  · exact fun halike => hq halike.stored

theorem open_ignores_cache_truncate : ∃ s₁ t₁ a f₁ s₂ t₂ file fs f₂,
    OpenedTwice [['A']] .O_TRUNC s₁ t₁ a f₁ s₂ t₂ file fs f₂ ∧ s₂.fs.bpb.Sectors ∧
      OpenedAlike .O_TRUNC (s₁.content a) (disk_content fs file) t₁ t₂ f₁ f₂ := by
  obtain ⟨s₁, t₁, a, f₁, s₂, t₂, file, fs, f₂, h, hbpb, hq⟩ :=
    @open_twice_ok [['A']] .O_TRUNC one_file
      (fun size _ _ => size = 0) (by decide +kernel)
  have hs : s₂.fs.bpb.Sectors := by
    rw [hbpb]
    exact ⟨1, by decide +kernel⟩
  exact ⟨s₁, t₁, a, f₁, s₂, t₂, file, fs, f₂, h, hs,
    (open_ignores_cache_iff h hs).mpr ⟨by decide, fun _ => hq⟩⟩

end Floppy

end FsState

end MyGOS.Fs
