import MyGOS.Fs.DirtyPages
import MyGOS.Fs.OneInode

/-!
# What the eviction of inodes loses

Written bytes are in the page cache of an inode and nowhere else. The inode of
an open file stays in the cache; an insertion into a full cache drops the
others, with their pages.
-/

namespace MyGOS.Fs

open Fat32 Outcome FlatArray StepSystem

/-- What was written through the files opened at a path: the bytes, and where the last of them
ends. -/
structure Record where
  data : Nat → Option UInt8
  size : Nat

def Record.write (r : Record) (start : Nat) (data : List UInt8) : Record where
  data := put (2 ^ 64) r.data start (data.map some)
  size := max r.size (stop (2 ^ 64) start data.length)

/-- `data` is what is known of a file from `start` on. -/
structure Record.Has (r : Record) (start : Nat) (data : List UInt8) : Prop where
  size : start + data.length ≤ r.size
  data : ∀ i (hi : i < data.length), r.data (start + i) = some data[i]

abbrev Written := AbsolutePath → Option Record

def Written.write (g : Written) (path : AbsolutePath) (start : Nat) (data : List UInt8) : Written :=
  if data = [] then g
  else Function.update g path (some (((g path).getD ⟨fun _ => none, 0⟩).write start data))

namespace FsState

/-- Where a transfer writes, and what. -/
def writing (s : FsState) (k : KFile) : FileOp → Nat × List UInt8
  | .write_from_ubuf _ slices => (s.start k k.offset, slices.flatten)
  | .write_from_kspace _ data => (s.start k k.offset, data)
  | .pwrite _ slices offset => (s.start k offset, slices.flatten)
  | .read_to_ubuf _ _ | .pread _ _ _ => (0, [])

/-- A file that is truncated holds nothing of what was written before. -/
def record (s : FsState) (g : Fs.Written) : FsOp → Fs.Written
  | .open_path path flags =>
    if OpenFlags.contains flags .O_TRUNC then Function.update g path none else g
  | .transfer op =>
    match s.kfile op.handle with
    | .ok k => g.write k.path (s.writing k op).1 (s.writing k op).2
    | .error _ => g
  | .close _ | .seek _ _ => g

def step_recorded (s : FsState × Fs.Written) (op : FsOp) :
    Except FsPanic (FsState × Fs.Written) := do
  return (← s.1.step op, s.1.record s.2 op)

end FsState

/-- No block is dirty. -/
def Inode.Clean (inode : Inode) : Prop := ∀ c, inode.page_cache = some c → ∀ i, c.dirty i = none

/-- Arguments are `usize` values. -/
def FsOp.Usize : FsOp → Prop
  | .seek _ offset | .transfer (.pread _ _ offset) | .transfer (.pwrite _ _ offset) =>
    offset < 2 ^ 64
  | _ => True

instance (op : FsOp) : Decidable op.Usize :=
  match op with
  | .seek _ _ | .transfer (.pread ..) | .transfer (.pwrite ..) => inferInstanceAs (Decidable (_ < _))
  | .open_path .. | .close _ | .transfer (.read_to_ubuf ..) | .transfer (.write_from_ubuf ..)
  | .transfer (.write_from_kspace ..) => inferInstanceAs (Decidable True)

namespace FsState

variable {s t : FsState} {path p : AbsolutePath} {a b h : Nat} {k : KFile} {g : Fs.Written}
  {owner : Nat → AbsolutePath}

/-- Where `open` puts an inode into a full cache, the inodes without an open file are clean. -/
def Spares (s : FsState) (path : AbsolutePath) (flags : OpenFlags) : Prop :=
  s.inode_cache.lookup path = none → INODE_CACHE_LIMIT ≤ s.inode_cache.entries.length →
    (∃ h t, s.open_path path flags = .ok (.ok h, t)) →
      ∀ p a, s.inode_cache.lookup p = some a → (∀ h k, s.kfile h = .ok k → k.inode ≠ a) →
        (s.inodes a).Clean

def SparesDirty (s : FsState × Fs.Written) (op : FsOp) : Prop :=
  op.Usize ∧ ∀ path flags, op = .open_path path flags → s.1.Spares path flags

/-- The record of a path is in the inode cached there. -/
def Stored (s : FsState) (p : AbsolutePath) (r : Record) : Prop :=
  ∃ a c, s.inode_cache.lookup p = some a ∧ (s.inodes a).page_cache = some c ∧ c.Keeps r.data ∧
    r.size ≤ (s.inodes a).file_size ∧ ∃ i b, r.data i = some b

section Transfers

/-- A transfer gives an inode other pages, and a size that is not smaller. -/
structure Edits (a : Nat) (c : PageCache) (size : Nat) (s t : FsState) : Prop where
  inode_cache : t.inode_cache = s.inode_cache
  pages : (t.inodes a).page_cache = some c
  file_size : (t.inodes a).file_size = max (s.inodes a).file_size size
  other : ∀ b, b ≠ a → t.inodes b = s.inodes b

theorem Edits.set_page_cache (s : FsState) (a : Nat) (c : PageCache) :
    Edits a c 0 s (s.set_page_cache a c) where
  inode_cache := rfl
  pages := by simp [FsState.set_page_cache, set_inode]
  file_size := by simp [FsState.set_page_cache, set_inode]
  other b hb := by simp [FsState.set_page_cache, set_inode, Function.update_of_ne hb]

theorem Edits.set_kfile {c : PageCache} {size : Nat} (he : Edits a c size s t) (h : Nat)
    (k : KFile) : Edits a c size s (t.set_kfile h k) :=
  ⟨he.inode_cache, he.pages, he.file_size, he.other⟩

theorem Edits.grow {c : PageCache} (he : Edits a c 0 s t) (size : Nat) :
    Edits a c size s (t.grow a size) := by
  have hsize := he.file_size
  rw [Nat.max_eq_left (Nat.zero_le _)] at hsize
  unfold FsState.grow
  split
  · next hlt =>
    constructor
    · exact he.inode_cache
    · simpa [set_inode] using he.pages
    · rw [hsize] at hlt
      simp [set_inode, Nat.max_eq_right hlt.le]
    · intro b hb
      simpa [set_inode, Function.update_of_ne hb] using he.other b hb
  · next hlt =>
    rw [hsize] at hlt
    exact ⟨he.inode_cache, he.pages, by rw [hsize, Nat.max_eq_left (by omega)], he.other⟩

/-- What a transfer that writes `w` does to the inode of its file. -/
structure Transfers (w : Nat × List UInt8) (s t : FsState) (k : KFile) (c c' : PageCache)
    (size : Nat) : Prop where
  pages : (s.inodes k.inode).page_cache = some c
  edits : Edits k.inode c' size s t
  keeps : ∀ g, c.Keeps g → c'.Keeps (put (2 ^ 64) g w.1 (w.2.map some))
  size_lt : size < 2 ^ 64
  size_eq : w.2 ≠ [] → size = stop (2 ^ 64) w.1 w.2.length

/-- All offsets are `usize` values. -/
def Offsets (s : FsState) : Prop := ∀ h k, s.kfile h = .ok k → k.offset < 2 ^ 64

theorem Offsets.set_kfile (hs : s.Offsets) {k' : KFile} (ho : k'.offset < 2 ^ 64) (h : Nat) :
    (s.set_kfile h k').Offsets := by
  intro h' k₁ hk₁
  by_cases he : h' = h
  · subst he
    cases (kfile_set_kfile ..).symm.trans hk₁
    exact ho
  · rw [kfile_set_kfile_of_ne _ he] at hk₁
    exact hs h' k₁ hk₁

theorem Offsets.grow (hs : s.Offsets) (a size : Nat) : (s.grow a size).Offsets := by
  unfold FsState.grow
  split
  · exact hs
  · exact hs

theorem start_lt (hsizes : ∀ a, (s.inodes a).file_size < 2 ^ 64) {offset : Nat}
    (ho : offset < 2 ^ 64) : s.start k offset < 2 ^ 64 := by
  unfold start
  split
  · exact hsizes _
  · exact ho

/-- What a transfer did: nothing, or an edit. -/
def Transferred (w : Nat × List UInt8) (s t : FsState) (k : KFile) : Prop :=
  (t = s ∧ w.2 = []) ∨ ∃ c c' size, Transfers w s t k c c' size

theorem write_from_ubuf_transferred {slices : List (List UInt8)} {r : Nat × FsState}
    (hs : s.Offsets) (hsizes : ∀ a, (s.inodes a).file_size < 2 ^ 64)
    (ho : s.write_from_ubuf h slices = .ok r) : ∃ k, s.kfile h = .ok k ∧ r.2.Offsets ∧
      Transferred (s.start k k.offset, slices.flatten) s r.2 k := by
  obtain ⟨k, c, stop, c', hk, hc, hw, heq⟩ := write_from_ubuf_ok ho
  have hstart : s.start k k.offset < 2 ^ 64 := start_lt hsizes (hs h k hk)
  have hkeeps := fun g hg => PageCache.write_slices_keeps (g := g) hstart hw hg
  have hstop : stop = FlatArray.stop (2 ^ 64) (s.start k k.offset) slices.flatten.length :=
    (hkeeps (fun _ => none) (by simp [PageCache.Keeps])).1
  have hlt : stop < 2 ^ 64 := hstop ▸ stop_lt (by decide) _ _
  rw [heq]
  refine ⟨k, hk, ?_, .inr ⟨c, c', stop, hc, ?_, fun g hg => (hkeeps g hg).2, hlt, fun _ => hstop⟩⟩
  · apply Offsets.grow
    split
    · exact hs
    · exact Offsets.set_kfile (s := s.set_page_cache k.inode c') hs hlt h
  · apply Edits.grow
    split
    · exact .set_page_cache ..
    · exact (Edits.set_page_cache s k.inode c').set_kfile ..

theorem transfer_transferred {op : FileOp} {r : FsState × List UInt8 × Nat} (hs : s.Offsets)
    (hsizes : ∀ a, (s.inodes a).file_size < 2 ^ 64) (hop : FsOp.Usize (.transfer op))
    (ho : s.transfer op = .ok r) : ∃ k, s.kfile op.handle = .ok k ∧ r.1.Offsets ∧
      Transferred (s.writing k op) s r.1 k := by
  cases op with
  | read_to_ubuf h slices =>
    obtain ⟨r', hr, ho⟩ := bind_eq_ok.mp ho
    cases ho
    obtain ⟨k, hk, heq | ⟨c, bytes, stop, c', hc, hread, rfl⟩⟩ := read_to_ubuf_ok hr
    · rw [heq]
      exact ⟨k, hk, hs, .inl ⟨rfl, rfl⟩⟩
    · have hkeeps := fun g hg => PageCache.read_slices_keeps (g := g) (hs h k hk) hread hg
      have hlt : stop < 2 ^ 64 := (hkeeps (fun _ => none) (by simp [PageCache.Keeps])).1
      refine ⟨k, hk, Offsets.set_kfile (s := s.set_page_cache k.inode c') hs hlt h, .inr
        ⟨c, c', 0, hc, (Edits.set_page_cache s k.inode c').set_kfile .., ?_, by decide, ?_⟩⟩
      · exact fun g hg => (hkeeps g hg).2
      · exact fun hne => absurd rfl hne
  | pread h slices offset =>
    obtain ⟨r', hr, ho⟩ := bind_eq_ok.mp ho
    cases ho
    obtain ⟨k, hk, heq | ⟨c, bytes, stop, c', hc, hread, rfl⟩⟩ := pread_ok hr
    · rw [heq]
      exact ⟨k, hk, hs, .inl ⟨rfl, rfl⟩⟩
    · have hkeeps := fun g hg => (PageCache.read_slices_keeps (g := g) hop hread hg).2
      refine ⟨k, hk, hs, .inr ⟨c, c', 0, hc, .set_page_cache .., hkeeps, by decide, ?_⟩⟩
      exact fun hne => absurd rfl hne
  | write_from_ubuf h slices =>
    obtain ⟨r', hr, ho⟩ := bind_eq_ok.mp ho
    cases ho
    exact write_from_ubuf_transferred hs hsizes hr
  | write_from_kspace h data =>
    obtain ⟨r', hr, ho⟩ := bind_eq_ok.mp ho
    cases ho
    obtain ⟨k, hk, hoffsets, htransferred⟩ := write_from_ubuf_transferred hs hsizes hr
    rw [List.flatten_singleton] at htransferred
    exact ⟨k, hk, hoffsets, htransferred⟩
  | pwrite h slices offset =>
    obtain ⟨r', hr, ho⟩ := bind_eq_ok.mp ho
    cases ho
    obtain ⟨k, c, stop, c', hk, hc, hw, heq⟩ := pwrite_ok hr
    have hstart : s.start k offset < 2 ^ 64 := start_lt hsizes hop
    have hkeeps := fun g hg => PageCache.write_slices_keeps (g := g) hstart hw hg
    have hstop : stop = FlatArray.stop (2 ^ 64) (s.start k offset) slices.flatten.length :=
      (hkeeps (fun _ => none) (by simp [PageCache.Keeps])).1
    rw [heq]
    refine ⟨k, hk, ?_, .inr ⟨c, c', stop, hc, (Edits.set_page_cache ..).grow _,
      fun g hg => (hkeeps g hg).2, hstop ▸ stop_lt (by decide) _ _, fun _ => hstop⟩⟩
    exact Offsets.grow (s := s.set_page_cache k.inode c') hs _ _

end Transfers

/-- All offsets, sizes and handles are in range, and the records are stored. -/
structure Kept (g : Fs.Written) (s : FsState) : Prop where
  keyed : ∃ owner, s.Keyed owner
  fresh : ∀ h k, s.kfile h = .ok k → h < s.next_file
  offsets : s.Offsets
  sizes : ∀ a, (s.inodes a).file_size < 2 ^ 64
  stored : ∀ p r, g p = some r → s.Stored p r

theorem Stored.mono {r : Record} (h : s.Stored p r)
    (hlookup : ∀ a, s.inode_cache.lookup p = some a → t.inode_cache.lookup p = some a)
    (hinode : ∀ a, s.inode_cache.lookup p = some a → (s.inodes a).page_cache ≠ none →
      t.inodes a = s.inodes a) : t.Stored p r := by
  obtain ⟨a, c, ha, hc, hkeeps, hsize, hdata⟩ := h
  have hsame := hinode a ha (by rw [hc]; exact Option.some_ne_none c)
  exact ⟨a, c, hlookup a ha, hsame ▸ hc, hkeeps, hsame ▸ hsize, hdata⟩

/-- The record of the path through which a transfer writes. -/
theorem Stored.write {w : Nat × List UInt8} {c c' : PageCache} {size : Nat} {r : Record}
    (hcached : s.inode_cache.lookup k.path = some k.inode) (ht : Transfers w s t k c c' size)
    (hg : ∀ r, g k.path = some r → s.Stored k.path r)
    (hr : (g.write k.path w.1 w.2) k.path = some r) : t.Stored k.path r := by
  have hlookup : t.inode_cache.lookup k.path = some k.inode := by
    rw [ht.edits.inode_cache, hcached]
  have hold : ∀ r, g k.path = some r → c.Keeps r.data ∧ r.size ≤ (s.inodes k.inode).file_size ∧
      ∃ i b, r.data i = some b := by
    intro r hr
    obtain ⟨a, c₁, ha, hc₁, hkeeps, hsize, hdata⟩ := hg r hr
    cases hcached.symm.trans ha
    cases ht.pages.symm.trans hc₁
    exact ⟨hkeeps, hsize, hdata⟩
  unfold Fs.Written.write at hr
  split at hr
  · next hnil =>
    obtain ⟨hkeeps, hsize, hdata⟩ := hold r hr
    have hput := ht.keeps r.data hkeeps
    rw [hnil] at hput
    refine ⟨k.inode, c', hlookup, ht.edits.pages, hput, ?_, hdata⟩
    rw [ht.edits.file_size]
    exact hsize.trans (Nat.le_max_left ..)
  · next hne =>
    rw [Function.update_self] at hr
    cases hr
    refine ⟨k.inode, c', hlookup, ht.edits.pages, ht.keeps _ ?_, ?_, ?_⟩
    · cases hgp : g k.path with
      | none => exact fun i b hi => by cases hi
      | some r => exact (hold r hgp).1
    · rw [ht.edits.file_size, ht.size_eq hne]
      apply max_le_max_right
      cases hgp : g k.path with
      | none => exact Nat.zero_le _
      | some r => exact (hold r hgp).2.1
    · obtain ⟨i, x, hx, hi⟩ := exists_put_eq (m := 2 ^ 64)
        ((g k.path).getD ⟨fun _ => none, 0⟩).data w.1 (List.map_eq_nil_iff.not.mpr hne)
      obtain ⟨b, _, rfl⟩ := List.mem_map.mp hx
      exact ⟨i, b, hi⟩

theorem Kept.transfer (hs : s.Kept g) {op : FileOp} {r : FsState × List UInt8 × Nat}
    (hop : FsOp.Usize (.transfer op)) (ho : s.transfer op = .ok r) :
    r.1.Kept (s.record g (.transfer op)) := by
  obtain ⟨owner, hkeyed⟩ := hs.keyed
  have hframed := transfer_framed ho
  obtain ⟨k, hk, hoffsets, htransferred⟩ := transfer_transferred hs.offsets hs.sizes hop ho
  have hcached := hkeyed.opened _ k hk
  have hrecord : s.record g (.transfer op) = g.write k.path (s.writing k op).1 (s.writing k op).2 := by
    simp [record, hk]
  generalize s.writing k op = w at htransferred hrecord
  rw [hrecord]
  refine ⟨⟨owner, hkeyed.framed hframed⟩, ?_, hoffsets, ?_, ?_⟩
  · intro h k' hk'
    obtain ⟨k₀, hk₀, _⟩ := hframed.files h k' hk'
    rw [hframed.next_file]
    exact hs.fresh h k₀ hk₀
  · obtain ⟨heq, _⟩ | ⟨c, c', size, ht⟩ := htransferred
    · rw [heq]
      exact hs.sizes
    · intro a
      by_cases ha : a = k.inode
      · rw [ha, ht.edits.file_size]
        exact Nat.max_lt.mpr ⟨hs.sizes _, ht.size_lt⟩
      · rw [ht.edits.other a ha]
        exact hs.sizes a
  · intro p r₀ hr₀
    obtain ⟨heq, hnil⟩ | ⟨c, c', size, ht⟩ := htransferred
    · rw [heq]
      apply hs.stored
      simpa [Fs.Written.write, hnil] using hr₀
    · by_cases hp : p = k.path
      · subst hp
        exact .write hcached ht (hs.stored k.path) hr₀
      · have hsame : g p = some r₀ := by
          unfold Fs.Written.write at hr₀
          split at hr₀
          · exact hr₀
          · rwa [Function.update_of_ne hp] at hr₀
        apply (hs.stored p r₀ hsame).mono
        · rw [ht.edits.inode_cache]
          exact fun _ h => h
        · intro a ha _
          apply ht.edits.other
          rintro rfl
          -- an inode belongs to one path
          exact hp ((hkeyed.cached _ _ ha).1.symm.trans (hkeyed.cached _ _ hcached).1)

section Opens

theorem Offsets.add_kfile (hs : s.Offsets) (hk : k.offset = 0) : (s.add_kfile k).Offsets := by
  intro h k' hk'
  by_cases he : h = s.next_file
  · subst he
    cases (kfile_add_kfile_self s k).symm.trans hk'
    rw [hk]
    decide
  · rw [kfile_add_kfile_of_ne he] at hk'
    exact hs h k' hk'

theorem fresh_add_kfile (hs : ∀ h k, s.kfile h = .ok k → h < s.next_file) :
    ∀ h k', (s.add_kfile k).kfile h = .ok k' → h < (s.add_kfile k).next_file := by
  intro h k' hk'
  show h < s.next_file + 1
  by_cases he : h = s.next_file
  · omega
  · rw [kfile_add_kfile_of_ne he] at hk'
    exact (hs h k' hk').trans (Nat.lt_succ_self _)

theorem Kept.create_page_cache (hs : s.Kept g) (a : Nat) :
    (s.create_page_cache_if_needed a).Kept g := by
  obtain ⟨owner, hkeyed⟩ := hs.keyed
  have hcreated := hkeyed.create_page_cache a
  have hedits := Edits.set_page_cache s a ∅
  unfold create_page_cache_if_needed at hcreated ⊢
  split at hcreated
  · next hnone =>
    rw [if_pos hnone]
    refine ⟨⟨owner, hcreated⟩, hs.fresh, hs.offsets, ?_, ?_⟩
    · intro b
      by_cases hb : b = a
      · rw [hb, hedits.file_size, Nat.max_eq_left (Nat.zero_le _)]
        exact hs.sizes a
      · rw [hedits.other b hb]
        exact hs.sizes b
    · intro p r hr
      apply (hs.stored p r hr).mono
      · exact fun _ h => h
      · intro b _ hpages
        apply hedits.other
        rintro rfl
        exact hpages hnone
  · next hsome =>
    rw [if_neg hsome]
    exact hs

theorem Kept.add_kfile (hs : s.Kept g) (hk : s.inode_cache.lookup k.path = some k.inode)
    (ho : k.offset = 0) : (s.add_kfile k).Kept g := by
  obtain ⟨owner, hkeyed⟩ := hs.keyed
  exact ⟨⟨owner, hkeyed.add_kfile hk⟩, fresh_add_kfile hs.fresh, hs.offsets.add_kfile ho, hs.sizes,
    hs.stored⟩

theorem length_insert (hnone : s.inode_cache.lookup path = none) (a : Nat) :
    (s.inode_cache.insert path a).entries.length = s.inode_cache.entries.length + 1 := by
  rw [AList.entries_insert_of_notMem (AList.lookup_eq_none.mp hnone), List.length_cons]

/-- An inode with a record stays in the cache when another one is loaded. -/
theorem Stored.lookup_loaded {r : Record} (hstored : s.Stored p r) (hs : s.Kept g)
    (hspares : s.Spares path flags) (hopen : ∃ h t, s.open_path path flags = .ok (.ok h, t))
    (hnone : s.inode_cache.lookup path = none) (fs : FileSystem) (file : VirtFile) (size : Nat)
    (ha : s.inode_cache.lookup p = some a) :
    (((s.load fs file size).add_kfile k).cache_insert path s.next_inode).inode_cache.lookup p =
      some a := by
  have hne : p ≠ path := by
    rintro rfl
    rw [hnone] at ha
    cases ha
  have hinsert : (s.inode_cache.insert path s.next_inode).lookup p = some a := by
    rwa [AList.lookup_insert_ne hne]
  by_cases hused : ∃ h k₀, s.kfile h = .ok k₀ ∧ k₀.inode = a
  · obtain ⟨h, k₀, hk₀, rfl⟩ := hused
    have hopened : ((s.load fs file size).add_kfile k).kfile h = .ok k₀ := by
      rw [kfile_add_kfile_of_ne (s := s.load fs file size) (hs.fresh h k₀ hk₀).ne]
      exact hk₀
    exact lookup_cache_insert_of_open hopened hinsert
  · unfold cache_insert
    simp only
    split
    · next hfull =>
      have hlen : INODE_CACHE_LIMIT ≤ s.inode_cache.entries.length := by
        have hlen := length_insert hnone s.next_inode
        have hfull : INODE_CACHE_LIMIT <
          (s.inode_cache.insert path s.next_inode).entries.length := hfull
        omega
      obtain ⟨a', c, ha', hc, hkeeps, _, i, b, hi⟩ := hstored
      cases ha.symm.trans ha'
      have hclean := hspares hnone hlen hopen p a ha (fun h k₀ hk₀ he => hused ⟨h, k₀, hk₀, he⟩)
        c hc i
      rw [hkeeps i b hi] at hclean
      cases hclean
    · exact hinsert

theorem Kept.loaded (hs : s.Kept g) (hspares : s.Spares path flags)
    (hopen : ∃ h t, s.open_path path flags = .ok (.ok h, t)) {fs : FileSystem} {file : VirtFile}
    {size : Nat} {k k' : KFile} (hnone : s.inode_cache.lookup path = none)
    (hsize : fs.file_size file = .ok size) (hk : k.NewOn path s.next_inode)
    (hk' : k'.NewOn path s.next_inode) :
    ((((s.load fs file size).add_kfile k).cache_insert path s.next_inode).set_kfile
      s.next_file k').Kept g := by
  obtain ⟨owner, hkeyed⟩ := hs.keyed
  have hinodes : (((s.load fs file size).add_kfile k).cache_insert path s.next_inode).inodes =
      Function.update s.inodes s.next_inode ⟨file, s.ino, some ∅, size⟩ := inodes_cache_insert ..
  refine ⟨⟨_, hkeyed.loaded hnone hk hk'⟩, ?_, ?_, ?_, ?_⟩
  · intro h k₁ hk₁
    obtain ⟨c, hc⟩ := cache_insert_eq ((s.load fs file size).add_kfile k) path s.next_inode
    rw [hc] at hk₁ ⊢
    show h < s.next_file + 1
    by_cases he : h = s.next_file
    · omega
    · rw [kfile_set_kfile_of_ne _ he] at hk₁
      exact fresh_add_kfile (s := s.load fs file size) hs.fresh h k₁ hk₁
  · apply Offsets.set_kfile
    · intro h k₁ hk₁
      rw [kfile_cache_insert] at hk₁
      exact Offsets.add_kfile (s := s.load fs file size) hs.offsets hk.offset h k₁ hk₁
    · rw [hk'.offset]
      decide
  · intro b
    show Inode.file_size (FsState.inodes (cache_insert ..) b) < _
    rw [hinodes]
    by_cases hb : b = s.next_inode
    · subst hb
      obtain ⟨d, _, rfl⟩ := map_eq_ok.mp hsize
      rw [Function.update_self]
      exact d.file_size_lt.trans (by decide)
    · rw [Function.update_of_ne hb]
      exact hs.sizes b
  · intro p r hr
    have hstored := hs.stored p r hr
    apply hstored.mono
    · intro a ha
      exact hstored.lookup_loaded hs hspares hopen hnone fs file size ha
    · intro a ha _
      show FsState.inodes (cache_insert ..) a = _
      rw [hinodes, Function.update_of_ne (hkeyed.cached p a ha).2.ne]

theorem Kept.open_path (hs : s.Kept g) (hspares : s.Spares path flags)
    {r : Except Errno Nat × FsState} (ho : s.open_path path flags = .ok r) : r.2.Kept g := by
  cases open_path_opening ho with
  | cached a k hc hk =>
    apply (hs.create_page_cache a).add_kfile
    · rw [hk.path, hk.inode]
      unfold create_page_cache_if_needed
      split
      · exact hc
      · exact hc
    · exact hk.offset
  | loaded fs file size k k' hnone hsize hk hk' =>
    exact hs.loaded hspares ⟨_, _, ho⟩ hnone hsize hk hk'
  | failed e fs hnone =>
    obtain ⟨owner, hkeyed⟩ := hs.keyed
    exact ⟨⟨owner, hkeyed.cached, hkeyed.opened⟩, hs.fresh, hs.offsets, hs.sizes, hs.stored⟩

end Opens

theorem Kept.close (hs : s.Kept g) (ho : s.close h = .ok t) : t.Kept g := by
  obtain ⟨owner, hkeyed⟩ := hs.keyed
  have hclosed := hkeyed.close ho
  obtain ⟨k, _, ho⟩ := bind_eq_ok.mp ho
  cases ho
  have hfiles : ∀ h' k', kfile { s with files := s.files.erase h } h' = .ok k' →
      s.kfile h' = .ok k' := by
    intro h' k' hk'
    have hne : h' ≠ h := by
      rintro rfl
      simp [kfile] at hk'
    simpa [kfile, AList.lookup_erase_ne hne] using hk'
  constructor
  · exact ⟨owner, hclosed⟩
  · exact fun h' k' hk' => hs.fresh h' k' (hfiles h' k' hk')
  · exact fun h' k' hk' => hs.offsets h' k' (hfiles h' k' hk')
  · exact hs.sizes
  · exact hs.stored

theorem Kept.seek (hs : s.Kept g) {offset : Nat} (hoffset : offset < 2 ^ 64)
    (ho : s.seek h offset = .ok t) : t.Kept g := by
  obtain ⟨owner, hkeyed⟩ := hs.keyed
  obtain ⟨k, hk, ho⟩ := bind_eq_ok.mp ho
  cases ho
  have hframed := Framed.set_kfile hk offset
  constructor
  · exact ⟨owner, hkeyed.framed hframed⟩
  · intro h' k' hk'
    obtain ⟨k₀, hk₀, _⟩ := hframed.files h' k' hk'
    exact hs.fresh h' k₀ hk₀
  · exact hs.offsets.set_kfile hoffset h
  · exact hs.sizes
  · exact hs.stored

theorem Kept.forget (hs : s.Kept g) (path : AbsolutePath) :
    s.Kept (Function.update g path none) where
  keyed := hs.keyed
  fresh := hs.fresh
  offsets := hs.offsets
  sizes := hs.sizes
  stored p r hr := by
    by_cases hp : p = path
    · subst hp
      rw [Function.update_self] at hr
      cases hr
    · rw [Function.update_of_ne hp] at hr
      exact hs.stored p r hr

theorem Kept.step {s t : FsState × Fs.Written} {op : FsOp} (hs : s.1.Kept s.2)
    (hop : SparesDirty s op) (ho : step_recorded s op = .ok t) : t.1.Kept t.2 := by
  obtain ⟨u, hu, ho⟩ := bind_eq_ok.mp ho
  cases ho
  cases op with
  | open_path path flags =>
    obtain ⟨r, hr, rfl⟩ := map_eq_ok.mp hu
    have hopened := hs.open_path (hop.2 path flags rfl) hr
    show r.2.Kept (if OpenFlags.contains flags .O_TRUNC then _ else _)
    split
    · exact hopened.forget path
    · exact hopened
  | close h => exact hs.close hu
  | seek h offset => exact hs.seek hop.1 hu
  | transfer op =>
    obtain ⟨r, hr, rfl⟩ := map_eq_ok.mp hu
    exact hs.transfer hop.1 hr

theorem Kept.new (fs : FileSystem) : (new fs).Kept fun _ => none where
  keyed := ⟨fun _ => [], .new fs⟩
  fresh h k hk := by cases hk
  offsets h k hk := by cases hk
  sizes a := Nat.two_pow_pos 64
  stored p r hr := by cases hr

section Reading

variable {r : Record} {c : PageCache} {data : List UInt8} {slices : List Nat} {start : Nat}

/-- Dirty blocks are read without the disk. -/
theorem read_slices_known (fs : FileSystem) (file : VirtFile) (hkeeps : c.Keeps r.data)
    (hdata : r.Has start data) (hsize : r.size < 2 ^ 64) (hsum : slices.sum = data.length) :
    ∃ c', PageCache.read_slices fs file slices c start =
      .ok (data, start + data.length, c') := by
  have hlen := hdata.size
  have hknown : ∀ i, start ≤ i → i < start + slices.sum →
      c.dirty i = some (data.getD (i - start) 0) := by
    intro i hlo hhi
    have hi : i - start < data.length := by omega
    apply hkeeps
    rw [List.getD_eq_getElem _ _ hi, ← hdata.data _ hi]
    congr 1
    omega
  obtain ⟨c', hread⟩ := @PageCache.read_slices_dirty fs file c
    slices start _ (by omega) hknown
  have hslice : slice (fun i => data.getD (i - start) 0) start slices.sum = data := by
    apply List.ext_getElem
    · simp [slice, hsum]
    · intro i hi hi'
      simp [slice, hi']
  rw [hslice, hsum] at hread
  exact ⟨c', hread⟩

theorem pread_known (hk : s.kfile h = .ok k) (hc : (s.inodes k.inode).page_cache = some c)
    (hkeeps : c.Keeps r.data) (hdata : r.Has start data)
    (hsize : r.size ≤ (s.inodes k.inode).file_size) (hlt : (s.inodes k.inode).file_size < 2 ^ 64)
    (hsum : slices.sum = data.length) :
    ∃ t, s.pread h slices start = .ok (data, data.length, t) := by
  have hlen := hdata.size
  obtain ⟨c', hread⟩ := read_slices_known s.fs (s.inodes k.inode).file hkeeps hdata
    (hsize.trans_lt hlt) hsum
  have hcache : s.page_cache k.inode = .ok c := by simp [page_cache, hc]
  simp only [pread, hk, bind, Except.bind]
  split
  · have hnil : data = [] := List.length_eq_zero_iff.mp (by omega)
    simp [hsum, hnil, pure, Except.pure]
  · split
    · have hnil : data = [] := List.length_eq_zero_iff.mp (by omega)
      simp [hnil, pure, Except.pure]
    · simp [hcache, hread, pure, Except.pure]

theorem read_to_ubuf_known (hk : s.kfile h = .ok k)
    (hc : (s.inodes k.inode).page_cache = some c) (hkeeps : c.Keeps r.data)
    (hdata : r.Has k.offset data) (hsize : r.size ≤ (s.inodes k.inode).file_size)
    (hlt : (s.inodes k.inode).file_size < 2 ^ 64) (hsum : slices.sum = data.length) :
    ∃ t, s.read_to_ubuf h slices = .ok (data, data.length, t) := by
  have hlen := hdata.size
  obtain ⟨c', hread⟩ := read_slices_known s.fs (s.inodes k.inode).file hkeeps hdata
    (hsize.trans_lt hlt) hsum
  have hcache : s.page_cache k.inode = .ok c := by simp [page_cache, hc]
  simp only [read_to_ubuf, hk, bind, Except.bind]
  split
  · have hnil : data = [] := List.length_eq_zero_iff.mp (by omega)
    simp [hsum, hnil, pure, Except.pure]
  · split
    · have hnil : data = [] := List.length_eq_zero_iff.mp (by omega)
      simp [hnil, pure, Except.pure]
    · simp [hcache, hread, pure, Except.pure]

/-- An open of the path, and reads through the new file, return what the record knows. -/
def Returns (s : FsState) (path : AbsolutePath) (flags : OpenFlags) (r : Record) : Prop :=
  ∃ h k t, s.open_path path flags = .ok (.ok h, t) ∧ t.kfile h = .ok k ∧
    r.size ≤ (t.inodes k.inode).file_size ∧ ∀ start data slices, r.Has start data →
      slices.sum = data.length →
      (∃ u, t.pread h slices start = .ok (data, data.length, u)) ∧
        (start = 0 → ∃ u, t.read_to_ubuf h slices = .ok (data, data.length, u))

theorem Stored.returns (hstored : s.Stored p r) (hsizes : ∀ a, (s.inodes a).file_size < 2 ^ 64)
    (flags : OpenFlags) : s.Returns p flags r := by
  obtain ⟨a, c, ha, hc, hkeeps, hsize, _⟩ := hstored
  obtain ⟨k, hk, hopen⟩ : ∃ k, k.NewOn p a ∧
      s.open_path p flags = .ok (.ok s.next_file, s.add_kfile k) := by
    refine ⟨{ KFile.new (OpenFlags.read_write flags).1 (OpenFlags.read_write flags).2 a p
      (last_name p) with flags := 0 ||| flags }, ⟨rfl, rfl, rfl⟩, ?_⟩
    simp [open_path, ha, open_cached, create_page_cache_if_needed, new_kfile, hc, set_flags, kfile,
      set_kfile, add_kfile, KFile.new, AList.insert_insert, bind, Except.bind, pure, Except.pure]
  have hself := kfile_add_kfile_self s k
  have hinode : (s.add_kfile k).inodes k.inode = s.inodes a := by rw [hk.inode]; rfl
  refine ⟨_, k, _, hopen, hself, ?_, ?_⟩
  · rwa [hinode]
  · intro start data slices hdata hsum
    constructor
    · apply pread_known hself (hinode ▸ hc) hkeeps hdata (hinode ▸ hsize) (hinode ▸ hsizes a) hsum
    · rintro rfl
      rw [← hk.offset] at hdata
      apply read_to_ubuf_known hself (hinode ▸ hc) hkeeps hdata (hinode ▸ hsize)
        (hinode ▸ hsizes a) hsum

end Reading

/-- In every run in which no insertion into a full cache finds a dirty inode without an open file,
what was written at a path and not overwritten is what an open of the path and a read return. -/
theorem sparing_runs_lose_nothing (fs : FileSystem) (ops : List FsOp)
    (hops : Guarded step_recorded SparesDirty (new fs, fun _ => none) ops) :
    ∀ s ∈ states step_recorded (new fs, fun _ => none) ops, ∀ path r, s.2 path = some r →
      ∀ flags, s.1.Returns path flags r := by
  intro s hs path r hr flags
  have hkept := invariant (fun s : FsState × Fs.Written => s.1.Kept s.2)
    (fun s op t hs hop ho => hs.step hop ho) (Kept.new fs) hops s hs
  exact (hkept.stored path r hr).returns hkept.sizes flags

section Witness

/-- Writes to a file and closes it. -/
def write_once : List FsOp :=
  [.open_path [['A']] 3, .transfer (.write_from_kspace 0 [7]), .close 0]

/-- A guard that is decided without a look at the pages: the cache is not full. -/
def Room (s : FsState × Fs.Written) (op : FsOp) : Prop :=
  op.Usize ∧ s.1.inode_cache.entries.length < INODE_CACHE_LIMIT

instance (s : FsState × Fs.Written) (op : FsOp) : Decidable (Room s op) :=
  inferInstanceAs (Decidable (_ ∧ _))

theorem Room.spares {s : FsState × Fs.Written} {op : FsOp} (h : Room s op) : SparesDirty s op :=
  ⟨h.1, fun _ _ _ _ hfull => absurd h.2 hfull.not_gt⟩

theorem sparing_runs_lose_nothing_once : ∃ fs t r, open_volume one_file = .ok fs ∧
    run step_recorded (new fs, fun _ => none) write_once = .ok t ∧ t.2 [['A']] = some r ∧
    r.Has 0 [7] ∧ t.1.Returns [['A']] 0 r := by
  have hrun : Meets (open_volume one_file) (fun _ => False) fun fs =>
      Guarded step_recorded Room (new fs, fun _ => none) write_once ∧
        Meets (run step_recorded (new fs, fun _ => none) write_once) (fun _ => False) fun t =>
          (t.2 [['A']]).map (fun r => (r.data 0, r.size)) = some (some 7, 1) := by
    decide +kernel
  obtain ⟨fs, hfs, hguarded, hrun⟩ := hrun.exists_ok
  obtain ⟨t, ht, hrecorded⟩ := hrun.exists_ok
  obtain ⟨r, hr, hrec⟩ := Option.map_eq_some_iff.mp hrecorded
  obtain ⟨hdata, hsize⟩ := Prod.mk.inj hrec
  refine ⟨fs, t, r, hfs, ht, hr, ⟨hsize.ge, ?_⟩, sparing_runs_lose_nothing fs write_once
    (hguarded.mono fun _ _ => Room.spares) t (mem_states_of_run ht) _ r hr 0⟩
  intro i hi
  obtain rfl : i = 0 := Nat.lt_one_iff.mp hi
  exact hdata

end Witness

end FsState

end MyGOS.Fs
