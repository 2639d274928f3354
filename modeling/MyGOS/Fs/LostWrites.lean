import MyGOS.Fs.Eviction
import Mathlib.Data.Bool.AllAny

/-!
# A write that is lost

Names that differ by case find one entry of the disk, and each has an inode of
its own in the cache. One more of them than the cache holds pushes out the inode
of the first, with what was written to it.
-/

namespace MyGOS.Fs

open Fat32 Outcome StepSystem FileSystem

/-- The bits are the letters in lower case. -/
def cased (bits : Nat) (name : Name) : Name :=
  name.mapIdx fun i c => if bits.testBit i then c.toLower else c

theorem mem_cased {bits : Nat} {name : Name} {c : Char} (h : c ∈ cased bits name) :
    ∃ d ∈ name, c = d.toLower ∨ c = d := by
  rw [cased, List.mem_mapIdx] at h
  obtain ⟨i, hi, rfl⟩ := h
  refine ⟨name[i], List.getElem_mem hi, ?_⟩
  split
  · exact .inl rfl
  · exact .inr rfl

theorem cased_uppercase (bits : Nat) {name : Name} (h : ∀ c ∈ name, c.toLower.toUpper = c.toUpper) :
    (cased bits name).to_ascii_uppercase = name.to_ascii_uppercase := by
  apply List.ext_getElem
  · simp [cased, Name.to_ascii_uppercase]
  · intro i hi hi'
    simp only [cased, Name.to_ascii_uppercase, List.getElem_map, List.getElem_mapIdx]
    split
    · exact h _ (List.getElem_mem _)
    · rfl

theorem cased_inj {j k : Nat} {name : Name} (h : ∀ c ∈ name, c.toLower ≠ c)
    (he : cased j name = cased k name) : ∀ i < name.length, j.testBit i = k.testBit i := by
  intro i hi
  have hget := congrArg (fun l => l[i]?) he
  simp only [cased, List.getElem?_mapIdx, List.getElem?_eq_getElem hi, Option.map_some,
    Option.some.injEq] at hget
  have hne := h _ (List.getElem_mem hi)
  split at hget
  · next hj =>
    split at hget
    · next hk => rw [hj, hk]
    · exact absurd hget hne
  · next hj =>
    split at hget
    · exact absurd hget.symm hne
    · next hk => rw [Bool.not_eq_true] at hj hk; rw [hj, hk]

def base : Name := ['A', 'B', 'C', 'D', 'E', 'F', 'G', 'H']

def extension : Name := ['T', 'X', 'T']

def full_name : Name := base ++ '.' :: extension

/-- The file by another name. -/
def variant (k : Nat) : Name := cased k base ++ '.' :: cased (k / 2 ^ 8) extension

def many_names : BlockDevice := floppy [short_entry full_name .File]

theorem variant_uppercase (k : Nat) :
    (variant k).to_ascii_uppercase = full_name.to_ascii_uppercase := by
  have hbase := @cased_uppercase k base (List.all_iff_forall_prop.mp (by decide))
  have hext := @cased_uppercase (k / 2 ^ 8) extension (List.all_iff_forall_prop.mp (by decide))
  unfold Name.to_ascii_uppercase at hbase hext ⊢
  rw [variant, full_name, List.map_append, List.map_cons, hbase, hext, List.map_append,
    List.map_cons]

/-- What makes a name short but its length. -/
def Plain (c : Char) : Prop := c ≠ '.' ∧ c.utf8Size = 1

instance (c : Char) : Decidable (Plain c) := inferInstanceAs (Decidable (_ ∧ _))

theorem cased_plain (bits : Nat) {name : Name} (h : ∀ c ∈ name, Plain c ∧ Plain c.toLower) :
    ∀ c ∈ cased bits name, Plain c := by
  intro c hc
  obtain ⟨d, hd, rfl | rfl⟩ := mem_cased hc
  · exact (h d hd).2
  · exact (h _ hd).1

theorem is_long_variant (k : Nat) : is_long (variant k) = false := by
  have hbase := @cased_plain k base (List.all_iff_forall_prop.mp (by decide))
  have hext := @cased_plain (k / 2 ^ 8) extension (List.all_iff_forall_prop.mp (by decide))
  have hsplit := split_name_ext_append (fun h => (hbase _ h).1 rfl) (fun h => (hext _ h).1 rfl)
    (List.ne_nil_of_length_pos (by simp [cased, base]) : cased k base ≠ [])
  rw [is_long, variant, hsplit, Name.len_of_ascii fun c hc => (hbase c hc).2,
    Name.len_of_ascii fun c hc => (hext c hc).2]
  simp [cased, base, extension]

theorem variant_inj {j k : Nat} (hj : j < INODE_CACHE_LIMIT + 1) (hk : k < INODE_CACHE_LIMIT + 1)
    (h : variant j = variant k) : j = k := by
  have hlimit : INODE_CACHE_LIMIT + 1 ≤ 2 ^ 11 := by decide
  obtain ⟨hbase, hext⟩ := List.append_inj h (by simp [cased])
  have hext := (List.cons.inj hext).2
  apply Nat.eq_of_testBit_eq
  intro i
  by_cases hi : i < 8
  · exact cased_inj (List.all_iff_forall_prop.mp (by decide)) hbase i hi
  · by_cases hi' : i < 11
    · have hbit := cased_inj (List.all_iff_forall_prop.mp (by decide)) hext (i - 8) (show i - 8 < 3 by omega)
      rwa [Nat.testBit_div_two_pow, Nat.testBit_div_two_pow, Nat.sub_add_cancel (by omega)] at hbit
    · have hle : INODE_CACHE_LIMIT + 1 ≤ 2 ^ i :=
        hlimit.trans (Nat.pow_le_pow_right (by decide) (by omega))
      rw [Nat.testBit_lt_two_pow (hj.trans_le hle), Nat.testBit_lt_two_pow (hk.trans_le hle)]

/-- The entries of the cache after `k` of the names were opened. -/
def visited : Nat → List (Sigma fun _ : AbsolutePath => Nat)
  | 0 => []
  | k + 1 => ⟨[variant k], k⟩ :: visited k

theorem length_visited (k : Nat) : (visited k).length = k := by
  induction k with
  | zero => rfl
  | succ k ih => rw [visited, List.length_cons, ih]

theorem mem_visited {k : Nat} {e : Sigma fun _ : AbsolutePath => Nat} (h : e ∈ visited k) :
    e.2 < k ∧ e.1 = [variant e.2] := by
  induction k with
  | zero => cases h
  | succ k ih =>
    obtain rfl | h := List.mem_cons.mp h
    · exact ⟨Nat.lt_succ_self k, rfl⟩
    · obtain ⟨hlt, hkey⟩ := ih h
      exact ⟨hlt.trans (Nat.lt_succ_self k), hkey⟩

/-- The cache holds each inode once. -/
theorem count_visited (j k : Nat) :
    ((visited k).map Sigma.snd).count j = if j < k then 1 else 0 := by
  induction k with
  | zero => rfl
  | succ k ih =>
    rw [visited, List.map_cons, List.count_cons, ih]
    by_cases hj : j = k
    · subst hj
      simp
    · have hne : (k == j) = false := by simpa using Ne.symm hj
      rw [hne]
      by_cases hlt : j < k
      · simp [hlt, hlt.trans (Nat.lt_succ_self k)]
      · have hge : ¬ j < k + 1 := by omega
        simp [hlt, hge]

/-- `O_RDWR`. -/
def OpenFlags.O_RDWR : OpenFlags := 3

namespace FsState

variable {s t : FsState} {fs : FileSystem} {f : VirtFile} {k : Nat}

/-- `k` of the names were opened, and no other file than the last one is open. -/
structure Visited (fs : FileSystem) (k : Nat) (s : FsState) : Prop where
  looked : Looked fs s.fs
  entries : s.inode_cache.entries = visited k
  next_inode : s.next_inode = k
  next_file : s.next_file = k
  files : ∀ h kf, s.kfile h = .ok kf → h + 1 = k

def AllClosed (s : FsState) : Prop := ∀ h kf, s.kfile h ≠ .ok kf

theorem Visited.new (fs : FileSystem) : Visited fs 0 (new fs) where
  looked := .refl fs
  entries := rfl
  next_inode := rfl
  next_file := rfl
  files h kf hk := by cases hk

theorem Visited.framed (hs : Visited fs k s) (hf : Framed s t) : Visited fs k t where
  looked := hf.fs ▸ hs.looked
  entries := hf.inode_cache ▸ hs.entries
  next_inode := hf.next_inode.trans hs.next_inode
  next_file := hf.next_file.trans hs.next_file
  files h kf hk := by
    obtain ⟨kf', hk', _⟩ := hf.files h kf hk
    exact hs.files h kf' hk'

theorem Visited.lookup_none (hs : Visited fs k s) (hk : k < INODE_CACHE_LIMIT + 1) :
    s.inode_cache.lookup [variant k] = none := by
  by_contra hne
  obtain ⟨a, ha⟩ := Option.ne_none_iff_exists'.mp hne
  have hmem := MapErase.mem_entries_iff.mpr ha
  rw [hs.entries] at hmem
  obtain ⟨hlt, hkey⟩ := mem_visited hmem
  have hka := variant_inj hk (hlt.trans hk) (List.singleton_inj.mp hkey)
  omega

/-- The entry is found under each of the names. -/
theorem find_variant {r : FileSystem} (hfound : fs.find_by_sfn root full_name = .ok (some f, r))
    (hchain : 0 < fs.next_chain) {fs' : FileSystem} (hl : Looked fs fs')
    (k : Nat) : ∃ fs₂, Looked fs fs₂ ∧
      fs'.find root [variant k] = .ok (.ok { f with cluster_chain := fs'.next_chain }, fs₂) := by
  obtain ⟨fs₂, hf⟩ := find_by_sfn_again hl hchain (variant_uppercase k) hfound
  have hname : fs'.find_by_name root (variant k) =
      .ok (some { f with cluster_chain := fs'.next_chain }, fs₂) := by
    rw [find_by_name, if_pos (by decide), is_long_variant]
    exact hf
  refine ⟨fs₂, hl.trans (find_by_name_searched hname).looked, ?_⟩
  have hcons : ¬ (variant k = [] ∨ variant k = ['.']) := by simp [variant, cased, base]
  rw [find, if_neg hcons, if_neg (by decide), hname]
  rfl

/-- What an open of a file that is not in the cache leaves. -/
def loaded (s : FsState) (path : AbsolutePath) (flags : OpenFlags) (fs : FileSystem)
    (file : VirtFile) (size : Nat) : FsState :=
  let kf : KFile := .new (OpenFlags.read_write flags).1 (OpenFlags.read_write flags).2 s.next_inode
    path file.name
  (((s.load fs file size).add_kfile kf).cache_insert path s.next_inode).set_kfile s.next_file
    { kf with flags := kf.flags ||| flags }

theorem open_found_eq {path : AbsolutePath} {flags : OpenFlags} {file : VirtFile} {size : Nat}
    (hnone : s.inode_cache.lookup path = none)
    (hcreat : OpenFlags.contains flags .O_CREAT = false)
    (htrunc : OpenFlags.contains flags .O_TRUNC = false)
    (hfind : s.fs.find root path = .ok (.ok file, fs)) (hsize : fs.file_size file = .ok size) :
    s.open_path path flags = .ok (.ok s.next_file, s.loaded path flags fs file size) := by
  have hopen := @open_virt_file_eq { s with fs := fs } path flags _ file.name _ hsize
  have hk := @kfile_with_file { s with fs := fs } path flags file file.name size
  simp only [open_path, hnone, hcreat, open_found, hfind, htrunc, hopen, set_flags, bind,
    Except.bind, Bool.false_eq_true, if_false, pure, Except.pure]
  rw [hk]
  rfl

section Loaded

variable {path : AbsolutePath} {flags : OpenFlags} {file : VirtFile} {size : Nat}

theorem kfile_loaded (s : FsState) (path : AbsolutePath) (flags : OpenFlags) (fs : FileSystem)
    (file : VirtFile) (size : Nat) : ∃ kf, (s.loaded path flags fs file size).kfile s.next_file =
      .ok kf ∧ kf.inode = s.next_inode := ⟨_, kfile_set_kfile .., rfl⟩

theorem inodes_loaded (s : FsState) (path : AbsolutePath) (flags : OpenFlags) (fs : FileSystem)
    (file : VirtFile) (size : Nat) : (s.loaded path flags fs file size).inodes =
      Function.update s.inodes s.next_inode ⟨file, s.ino, some ∅, size⟩ := inodes_cache_insert ..

theorem loaded_eq (s : FsState) (path : AbsolutePath) (flags : OpenFlags) (fs : FileSystem)
    (file : VirtFile) (size : Nat) : (s.loaded path flags fs file size).fs = fs ∧
      (s.loaded path flags fs file size).next_inode = s.next_inode + 1 ∧
      (s.loaded path flags fs file size).next_file = s.next_file + 1 := by
  obtain ⟨c, hc⟩ := cache_insert_eq ((s.load fs file size).add_kfile (.new
    (OpenFlags.read_write flags).1 (OpenFlags.read_write flags).2 s.next_inode path file.name)) path
    s.next_inode
  simp only [loaded, hc]
  exact ⟨rfl, rfl, rfl⟩

theorem kfile_loaded_of_ne {h : Nat} (hne : h ≠ s.next_file) :
    (s.loaded path flags fs file size).kfile h = s.kfile h := by
  rw [loaded, kfile_set_kfile_of_ne _ hne, kfile_cache_insert,
    kfile_add_kfile_of_ne (s := s.load fs file size) hne]
  rfl

theorem entries_insert_variant (hs : Visited fs k s) (hk : k < INODE_CACHE_LIMIT + 1) :
    (s.inode_cache.insert [variant k] k).entries = visited (k + 1) := by
  rw [AList.entries_insert_of_notMem (AList.lookup_eq_none.mp (hs.lookup_none hk)), hs.entries,
    visited]

theorem count_inodes {a : Nat} (h : ∀ h kf, s.kfile h = .ok kf → kf.inode ≠ a) :
    (s.files.entries.map fun e => e.2.inode).count a = 0 := by
  rw [List.count_eq_zero]
  intro hmem
  obtain ⟨e, he, rfl⟩ := List.mem_map.mp hmem
  have hk : s.kfile e.1 = .ok e.2 := by
    rw [kfile, MapErase.mem_entries_iff.mp he]
  exact h e.1 e.2 hk rfl

/-- As long as the cache is not full. -/
theorem Visited.loaded (hs : Visited fs k s) (hclosed : s.AllClosed) (hk : k < INODE_CACHE_LIMIT)
    {fs₂ : FileSystem} (hl : Looked fs fs₂) :
    Visited fs (k + 1) (s.loaded [variant k] flags fs₂ file size) := by
  have hentries := entries_insert_variant hs (hk.trans (Nat.lt_succ_self _))
  obtain ⟨hfs, hnext, hfile⟩ := s.loaded_eq [variant k] flags fs₂ file size
  constructor
  · rw [hfs]
    exact hl
  · have hlen : ¬ INODE_CACHE_LIMIT < (s.inode_cache.insert [variant k] k).entries.length := by
      rw [hentries, length_visited]
      omega
    show (cache_insert _ _ s.next_inode).inode_cache.entries = _
    rw [hs.next_inode]
    unfold cache_insert
    simp only
    split
    · next hfull => exact absurd hfull hlen
    · exact hentries
  · rw [hnext, hs.next_inode]
  · rw [hfile, hs.next_file]
  · intro h kf hkf
    by_cases he : h = s.next_file
    · rw [he, hs.next_file]
    · rw [kfile_loaded_of_ne he] at hkf
      exact absurd hkf (hclosed h kf)

/-- One name too many pushes out the others, on which no file is open. -/
theorem lookup_cache_insert_variant {a : Nat}
    (hentries : (s.inode_cache.insert path a).entries = visited (INODE_CACHE_LIMIT + 1))
    (hfiles : ∀ h kf, s.kfile h = .ok kf → kf.inode ≠ 0) :
    (s.cache_insert path a).inode_cache.lookup [variant 0] = none := by
  have hfull : INODE_CACHE_LIMIT < (s.inode_cache.insert path a).entries.length := by
    rw [hentries, length_visited]
    exact Nat.lt_succ_self _
  unfold cache_insert
  simp only
  rw [if_pos hfull, lookup_shrink, Option.filter_eq_none_iff]
  intro b hb
  have hmem := MapErase.mem_entries_iff.mpr hb
  rw [hentries] at hmem
  obtain ⟨hlt, hkey⟩ := mem_visited hmem
  obtain rfl : 0 = b := variant_inj (by decide) hlt (List.singleton_inj.mp hkey)
  have hcount : strong_count { s with inode_cache := s.inode_cache.insert path a } 0 = 1 := by
    rw [strong_count, hentries, count_visited, count_inodes hfiles]
    decide
  simpa using hcount

theorem Visited.evicted (hs : Visited fs INODE_CACHE_LIMIT s) (hclosed : s.AllClosed)
    {fs₂ : FileSystem} :
    (s.loaded [variant INODE_CACHE_LIMIT] flags fs₂ file size).inode_cache.lookup [variant 0] =
      none := by
  show (cache_insert _ _ s.next_inode).inode_cache.lookup _ = _
  apply lookup_cache_insert_variant
  · show (s.inode_cache.insert _ s.next_inode).entries = _
    rw [hs.next_inode]
    exact entries_insert_variant hs (Nat.lt_succ_self _)
  · intro h kf hkf
    by_cases he : h = s.next_file
    · subst he
      cases (kfile_add_kfile_self (s.load fs₂ file size) _).symm.trans hkf
      show s.next_inode ≠ 0
      rw [hs.next_inode]
      decide
    · rw [kfile_add_kfile_of_ne (s := s.load fs₂ file size) he] at hkf
      exact absurd hkf (hclosed h kf)

end Loaded

section Close

variable {h : Nat} {kf : KFile}

def without (s : FsState) (h : Nat) : FsState := { s with files := s.files.erase h }

theorem close_eq (hk : s.kfile h = .ok kf) : s.close h = .ok (s.without h) := by
  rw [close, hk]
  rfl

theorem Visited.close (hs : Visited fs k s) (hk : s.kfile h = .ok kf) :
    ∃ t, s.close h = .ok t ∧ Visited fs k t ∧ t.AllClosed := by
  have hclosed : (s.without h).AllClosed := by
    intro h' kf' hk'
    by_cases he : h' = h
    · subst he
      simp [without, kfile] at hk'
    · have hold : s.kfile h' = .ok kf' := by
        simpa [without, kfile, AList.lookup_erase_ne he] using hk'
      have h₁ := hs.files h kf hk
      have h₂ := hs.files h' kf' hold
      omega
  exact ⟨_, close_eq hk, ⟨hs.looked, hs.entries, hs.next_inode, hs.next_file,
    fun h' kf' hk' => absurd hk' (hclosed h' kf')⟩, hclosed⟩

end Close

theorem pread_of_size_zero {h : Nat} {kf : KFile} (hk : s.kfile h = .ok kf)
    (hzero : (s.inodes kf.inode).file_size = 0) (slices : List Nat) (offset : Nat) :
    ∃ bytes, s.pread h slices offset = .ok (bytes, 0, s) := by
  simp only [pread, hk, hzero, bind, Except.bind]
  exact ⟨_, rfl⟩

/-- The file is opened by a name and closed. -/
def visit (k : Nat) : List FsOp := [.open_path [variant k] .O_RDWR, .close k]

section Visits

variable {r : FileSystem} {size : Nat} (hfound : fs.find_by_sfn root full_name = .ok (some f, r))
  (hchain : 0 < fs.next_chain) (hsize : fs.file_size f = .ok size)

include hfound hchain hsize

theorem open_variant (hs : Visited fs k s) (hk : k < INODE_CACHE_LIMIT + 1) :
    ∃ fs₂ file, Looked fs fs₂ ∧ s.open_path [variant k] OpenFlags.O_RDWR =
      .ok (.ok k, s.loaded [variant k] OpenFlags.O_RDWR fs₂ file size) := by
  obtain ⟨fs₂, hl, hfind⟩ := find_variant hfound hchain hs.looked k
  have hsize₂ : fs₂.file_size { f with cluster_chain := s.fs.next_chain } = .ok size := by
    rw [file_size_of_looked hl]
    exact hsize
  refine ⟨fs₂, { f with cluster_chain := s.fs.next_chain }, hl, ?_⟩
  rw [open_found_eq (hs.lookup_none hk) (by decide) (by decide) hfind hsize₂, hs.next_file]

/-- An open of one of the names, as a step of a run. -/
theorem step_open_variant (hs : Visited fs k s) (hk : k < INODE_CACHE_LIMIT + 1) (g : Fs.Written) :
    ∃ fs₂ file, Looked fs fs₂ ∧
      step_recorded (s, g) (.open_path [variant k] OpenFlags.O_RDWR) =
        .ok (s.loaded [variant k] OpenFlags.O_RDWR fs₂ file size, g) := by
  obtain ⟨fs₂, file, hl, hopen⟩ := open_variant hfound hchain hsize hs hk
  refine ⟨fs₂, file, hl, ?_⟩
  rw [step_recorded, step, hopen]
  rfl

theorem visit_ok (hs : Visited fs k s) (hclosed : s.AllClosed) (hk : k < INODE_CACHE_LIMIT)
    (g : Fs.Written) : ∃ t, run step_recorded (s, g) (visit k) = .ok (t, g) ∧
      Visited fs (k + 1) t ∧ t.AllClosed := by
  obtain ⟨fs₂, file, hl, hopen⟩ := step_open_variant hfound hchain hsize hs
    (hk.trans (Nat.lt_succ_self _)) g
  obtain ⟨kf, hkf, _⟩ := kfile_loaded s [variant k] OpenFlags.O_RDWR fs₂ file size
  rw [hs.next_file] at hkf
  obtain ⟨t, ht, hvisited, hall⟩ := (hs.loaded hclosed hk hl).close hkf
  refine ⟨t, ?_, hvisited, hall⟩
  rw [visit, run_cons, hopen]
  show run step_recorded _ [.close k] = _
  rw [run_cons, step_recorded, step, ht]
  rfl

theorem visits_ok (hs : Visited fs 1 s) (hclosed : s.AllClosed) (g : Fs.Written) {n : Nat}
    (hn : n < INODE_CACHE_LIMIT) :
    ∃ t, run step_recorded (s, g) ((List.range n).flatMap fun k => visit (k + 1)) = .ok (t, g) ∧
      Visited fs (n + 1) t ∧ t.AllClosed := by
  induction n with
  | zero => exact ⟨s, rfl, hs, hclosed⟩
  | succ n ih =>
    obtain ⟨t, ht, hvisited, hall⟩ := ih ((Nat.lt_succ_self n).trans hn)
    obtain ⟨u, hu, hvisited', hall'⟩ := visit_ok hfound hchain hsize hvisited hall hn g
    refine ⟨u, ?_, hvisited', hall'⟩
    rw [List.range_succ, List.flatMap_append, run_append ht]
    simpa using hu

theorem last_visit (hs : Visited fs INODE_CACHE_LIMIT s) (hclosed : s.AllClosed) (g : Fs.Written) :
    ∃ t, run step_recorded (s, g) (visit INODE_CACHE_LIMIT) = .ok (t, g) ∧ Looked fs t.fs ∧
      t.inode_cache.lookup [variant 0] = none := by
  obtain ⟨fs₂, file, hl, hopen⟩ := step_open_variant hfound hchain hsize hs (Nat.lt_succ_self _) g
  obtain ⟨kf, hkf, _⟩ := kfile_loaded s [variant INODE_CACHE_LIMIT] OpenFlags.O_RDWR fs₂ file size
  obtain ⟨hfs, _, _⟩ := s.loaded_eq [variant INODE_CACHE_LIMIT] OpenFlags.O_RDWR fs₂ file size
  have hlost := @Visited.evicted _ _ OpenFlags.O_RDWR file size hs hclosed fs₂
  rw [hs.next_file] at hkf
  have hclose := close_eq hkf
  refine ⟨(s.loaded [variant INODE_CACHE_LIMIT] OpenFlags.O_RDWR fs₂ file size).without
    INODE_CACHE_LIMIT, ?_, ?_, hlost⟩
  · rw [visit, run_cons, hopen]
    show run step_recorded _ [.close _] = _
    rw [run_cons, step_recorded, step, hclose]
    rfl
  · rw [← hfs] at hl
    exact hl

/-- A file that is not in the cache has the size of its entry. -/
theorem reopen_reads_nothing {t : FsState} (hl : Looked fs t.fs)
    (hnone : t.inode_cache.lookup [variant 0] = none) (hzero : size = 0) :
    ∃ h u bytes v, t.open_path [variant 0] .O_RDWR = .ok (.ok h, u) ∧
      u.pread h [1] 0 = .ok (bytes, 0, v) := by
  obtain ⟨fs₂, hl₂, hfind⟩ := find_variant hfound hchain hl 0
  have hsize₂ : fs₂.file_size { f with cluster_chain := t.fs.next_chain } = .ok size := by
    rw [file_size_of_looked hl₂]
    exact hsize
  have hopen := @open_found_eq _ _ _ .O_RDWR _ _ hnone (by decide) (by decide) hfind hsize₂
  obtain ⟨kf, hkf, hinode⟩ := kfile_loaded t [variant 0] .O_RDWR fs₂
    { f with cluster_chain := t.fs.next_chain } size
  obtain ⟨bytes, hread⟩ := pread_of_size_zero hkf (by
    rw [hinode, inodes_loaded, Function.update_self, hzero]) [1] 0
  exact ⟨_, _, bytes, _, hopen, hread⟩

end Visits

/-- Writes to the file by its first name and closes it. -/
def first_write : List FsOp :=
  [.open_path [variant 0] .O_RDWR, .transfer (.write_from_kspace 0 [7]), .close 0]

/-- Then opens it by all the other names. -/
def lossy : List FsOp :=
  first_write ++ ((List.range (INODE_CACHE_LIMIT - 1)).flatMap fun k => visit (k + 1)) ++
    visit INODE_CACHE_LIMIT

/-- What is recorded for the first name. -/
def recorded (g : Fs.Written) : Option (Option UInt8 × Nat) :=
  (g [variant 0]).map fun r => (r.data 0, r.size)

theorem eviction_loses_writes : ∃ fs t r h u bytes v, open_volume many_names = .ok fs ∧
    run step_recorded (new fs, fun _ => none) lossy = .ok t ∧ t.2 [variant 0] = some r ∧
    r.Has 0 [7] ∧ t.1.open_path [variant 0] .O_RDWR = .ok (.ok h, u) ∧
    u.pread h [1] 0 = .ok (bytes, 0, v) := by
  have hrun : Meets (do
      let fs ← open_volume many_names
      let found ← fs.find_by_sfn root full_name
      let f ← found.1.elim (.error .notOpen) .ok
      let size ← fs.file_size f
      let t ← run step_recorded (new fs, fun _ => none) first_write
      return (fs.next_chain, size, recorded t.2)) (fun _ => False) fun r =>
        0 < r.1 ∧ r.2.1 = 0 ∧ r.2.2 = some (some 7, 1) := by
    decide +kernel
  obtain ⟨_, hr, hchain, hzero, hrecorded⟩ := hrun.exists_ok
  obtain ⟨fs, hfs, hr⟩ := bind_eq_ok.mp hr
  obtain ⟨⟨found, fs'⟩, hfound, hr⟩ := bind_eq_ok.mp hr
  obtain ⟨f, hf, hr⟩ := bind_eq_ok.mp hr
  obtain ⟨size, hsize, hr⟩ := bind_eq_ok.mp hr
  obtain ⟨⟨t, g⟩, ht, hr⟩ := bind_eq_ok.mp hr
  cases hr
  obtain rfl : found = some f := by
    cases found with
    | none => cases hf
    | some f' =>
      cases hf
      rfl
  have hfirst : Visited fs 1 t ∧ t.AllClosed := by
    obtain ⟨fs₂, file, hl, hopen⟩ := step_open_variant hfound hchain hsize (.new fs) (by decide)
      fun _ => none
    have hopened := @Visited.loaded _ _ _ .O_RDWR file size (Visited.new fs)
      (fun h kf hk => by cases hk) (by decide) _ hl
    rw [first_write, run_cons, hopen] at ht
    have hrest : run step_recorded ((new fs).loaded [variant 0] .O_RDWR fs₂ file size, fun _ => none)
        [.transfer (.write_from_kspace 0 [7]), .close 0] = .ok (t, g) := ht
    rw [run_cons] at hrest
    obtain ⟨⟨u, g₁⟩, hu, hrest⟩ := bind_eq_ok.mp hrest
    rw [run_cons] at hrest
    obtain ⟨⟨v, g₂⟩, hv, hrest⟩ := bind_eq_ok.mp hrest
    cases hrest
    obtain ⟨u', hu', hu⟩ := bind_eq_ok.mp hu
    cases hu
    obtain ⟨w, hw, rfl⟩ := map_eq_ok.mp hu'
    obtain ⟨v', hv', hv⟩ := bind_eq_ok.mp hv
    cases hv
    have hwritten := hopened.framed (transfer_framed hw)
    obtain ⟨kf', hkf', _⟩ := bind_eq_ok.mp hv'
    obtain ⟨x, hx, hvisited, hall⟩ := hwritten.close hkf'
    cases hx.symm.trans hv'
    exact ⟨hvisited, hall⟩
  obtain ⟨u, hu, hvisited, hclosed⟩ := visits_ok hfound hchain hsize hfirst.1 hfirst.2 g
    (by decide : INODE_CACHE_LIMIT - 1 < INODE_CACHE_LIMIT)
  obtain ⟨v, hv, hl, hlost⟩ := last_visit hfound hchain hsize hvisited hclosed g
  obtain ⟨h, w, bytes, x, hopen, hread⟩ := reopen_reads_nothing hfound hchain hsize hl hlost hzero
  obtain ⟨r, hr, hrec⟩ := Option.map_eq_some_iff.mp hrecorded
  refine ⟨fs, (v, g), r, h, w, bytes, x, hfs, ?_, hr, ?_, hopen, hread⟩
  · rw [lossy, run_append ((run_append ht _).trans hu), hv]
  · obtain ⟨hdata, hsize⟩ := Prod.mk.inj hrec
    constructor
    · exact hsize.ge
    · intro i hi
      obtain rfl : i = 0 := Nat.lt_one_iff.mp hi
      exact hdata

end FsState

end MyGOS.Fs
