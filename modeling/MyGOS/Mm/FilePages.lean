import MyGOS.Fs.FlatFile
import MyGOS.Mm.MmapUse
import MyGOS.Mm.ZeroedFrames

/-!
# The first touch of a page of a file

`lazy_map_page` borrows the offset of the mapped file: it seeks to the place of
the page, reads, and seeks back. Here the fault runs together with the kernel
files, so that the offset is seen. A file that cannot be read is left at the
place of the page.
-/

namespace MyGOS.Mm

open Fs Outcome StepSystem FlatArray

/-- Where either part of the kernel stops. -/
abbrev Stop := Panic ⊕ Fat32.FsPanic

def in_mm {α : Type} (x : Except Panic α) : Except Stop α := x.mapError Sum.inl

def in_fs {α : Type} (x : Except Fat32.FsPanic α) : Except Stop α := x.mapError Sum.inr

/-- The slices of `translated_bytes_buffer` for the first `len` bytes of a page. -/
def page_slices (len : Nat) : List Nat := if len = 0 then [] else [len]

namespace MmapPage

/-- `read_from_file` of a page whose file has the handle `h`. -/
def read_from_kfile (page : MmapPage) (h : Nat) (page_table : PageTable) (ph : Phys) (s : FsState) :
    Except Stop (Phys × FsState) := do
  let f ← in_fs (s.kfile h)
  let old_offset := f.offset
  let s ← in_fs (s.seek h page.offset)
  if f.readable then
    let file_size := (s.inodes f.inode).file_size
    let len := min PAGE_SIZE ((file_size + 2 ^ 64 - page.offset) % 2 ^ 64)
    let (data, _, s) ← in_fs (s.read_to_ubuf h (page_slices len))
    let ph ← in_mm (page.fill page_table ph data)
    let s ← in_fs (s.seek h old_offset)
    return (ph, s)
  else return (ph, s)

def lazy_map_kpage (page : MmapPage) (h : Nat) (page_table : PageTable) (ph : Phys) (s : FsState) :
    Except Stop (MmapPage × Phys × FsState) := do
  let (ph, s) ←
    if page.flags.anonymous then in_mm ((fun ph => (ph, s)) <$> page.read_from_zero page_table ph)
    else page.read_from_kfile h page_table ph s
  return ({ page with valid := true }, ph, s)

end MmapPage

namespace MemorySet

def lazy_mmap_kfile (ms : MemorySet) (ph : Phys) (s : FsState) (vpn h : Nat) :
    Except Stop (MemorySet × Phys × FsState) := do
  let m := ms.mmap_manager
  let (frame, frame_map, ph) ← in_mm (m.frame_map.insert_new ph vpn)
  match m.mmap_map[vpn]? with
  | none => .error (.inl (.notMmapped vpn))
  | some mmap_page =>
    let pte_flags := PTEFlags.from_map_ports mmap_page.prot ||| PTEFlags.U
    let (page_table, ph) ← in_mm (ms.page_table.map ph vpn frame.ppn pte_flags)
    let (mmap_page, ph, s) ← mmap_page.lazy_map_kpage h page_table ph s
    let mmap_map := m.mmap_map.insert vpn mmap_page
    return ({ ms with
      page_table := page_table
      mmap_manager := { m with mmap_map := mmap_map, frame_map := frame_map } }, ph, s)

instance (ms : MemorySet) (va : Nat) : Decidable (ms.ServedAsMmap va) :=
  inferInstanceAs (Decidable (_ ∧ _ ∧ _))

/-- `check_lazy` with the kernel files; `h` is the handle of the file that is mapped at the
address. Only the mmap manager looks at it. -/
def check_lazy_kfile (ms : MemorySet) (ph : Phys) (s : FsState) (va h : Nat) :
    Except Stop (Int × MemorySet × Phys × FsState) :=
  if ms.translate (floor va) = none ∧ ms.ServedAsMmap va then do
    let (ms, ph, s) ← ms.lazy_mmap_kfile ph s (floor va) h
    return (0, ms, ph, s)
  else do
    let (c, ms, ph) ← in_mm (ms.check_lazy ph va)
    return (c, ms, ph, s)

/-- The page of the address is one of a file mapping, and it has not been touched yet. -/
structure FirstTouch (ms : MemorySet) (va : Nat) (page : MmapPage) : Prop where
  record : ms.mmap_manager.mmap_map[floor va]? = some page
  of_file : page.flags.anonymous = false
  unmapped : ms.translate (floor va) = none
  untracked : ms.mmap_manager.frame_map[floor va]? = none
  served : ms.ServedAsMmap va

/-- The bytes of the file at the place of the page and zeros behind its end; all zeros if the
file cannot be read. -/
def page_byte (f : FlatFile) (readable : Bool) (offset i : Nat) : UInt8 :=
  if readable ∧ offset + i < f.size then f.bytes (offset + i) else 0

/-- The fault loads the page and leaves the file alone. -/
def Loads (ms : MemorySet) (ph : Phys) (s : FsState) (va h : Nat) (page : MmapPage) (k : KFile)
    (f : FlatFile) : Prop :=
  ∃ ms' ph' s' pte, ms.check_lazy_kfile ph s va h = .ok (0, ms', ph', s') ∧
    ms'.translate (floor va) = some pte ∧
    (∀ i < PAGE_SIZE, ph'.bytes pte.ppn i = page_byte f k.readable page.offset i) ∧
    s'.Mirrors k.inode f ∧ ∀ h', (s'.kfile h').map KFile.offset = (s.kfile h').map KFile.offset

end MemorySet

section Read

variable {s : FsState} {h : Nat} {k : KFile} {f : FlatFile} {page : MmapPage} {pt : PageTable}
  {ph : Phys} {pte : PageTableEntry}

theorem sum_page_slices (len : Nat) : (page_slices len).sum = len := by
  unfold page_slices
  split
  · rename_i hzero
    exact hzero.symm
  · exact List.sum_singleton

/-- The file `k` with the handle `h` has been read from some place; all else about the file and
the other files is as it was. -/
structure Borrowed (s t : FsState) (h : Nat) (k : KFile) (f : FlatFile) : Prop where
  pages : ∃ c, (t.inodes k.inode).page_cache = some c ∧
    c.Holds t.fs (t.inodes k.inode).file f.bytes
  size : (t.inodes k.inode).file_size = f.size
  opened : ∃ offset, t.kfile h = .ok { k with offset := offset }
  others : ∀ h', h' ≠ h → t.kfile h' = s.kfile h'

theorem Borrowed.seek (hm : s.Mirrors k.inode f) (h : Nat) (offset : Nat) :
    Borrowed s (s.set_kfile h { k with offset := offset }) h k f where
  pages := hm.pages
  size := hm.size
  opened := ⟨offset, s.kfile_set_kfile h _⟩
  others _ hne := s.kfile_set_kfile_of_ne hne _

/-- Seeking back. -/
theorem Borrowed.restore {t : FsState} (hb : Borrowed s t h k f) (hk : s.kfile h = .ok k)
    (hm : s.Mirrors k.inode f) : ∃ s', t.seek h k.offset = .ok s' ∧ s'.Mirrors k.inode f ∧
      ∀ h', s'.kfile h' = s.kfile h' := by
  obtain ⟨offset, hopened⟩ := hb.opened
  have hfiles (h' : Nat) : (t.set_kfile h k).kfile h' = s.kfile h' := by
    rcases eq_or_ne h' h with rfl | hne
    · rw [t.kfile_set_kfile, hk]
    · rw [t.kfile_set_kfile_of_ne hne, hb.others h' hne]
  refine ⟨t.set_kfile h k, ?_, ⟨hb.pages, hb.size, hm.size_lt, fun h' k' hk' => ?_⟩, hfiles⟩
  · rw [FsState.seek, hopened]
    rfl
  · rw [hfiles h'] at hk'
    exact hm.files h' k' hk'

/-- Nothing is read behind the end of the file. -/
theorem read_behind (hk : s.kfile h = .ok k) (hend : (s.inodes k.inode).file_size ≤ k.offset)
    (slices : List Nat) : ∃ data n, s.read_to_ubuf h slices = .ok (data, n, s) ∧
      ∀ i, data.getD i 0 = 0 := by
  unfold FsState.read_to_ubuf
  rw [hk, ok_bind]
  dsimp only
  split
  · refine ⟨_, _, rfl, fun i => ?_⟩
    split
    · rw [List.getD_eq_getElem?_getD, List.getElem?_replicate]
      split <;> rfl
    · rfl
  · exact ⟨_, _, rfl, fun i => rfl⟩

/-- A range of the file. -/
theorem read_inside (hk : s.kfile h = .ok k) (hm : s.Mirrors k.inode f) {slices : List Nat}
    (hsize : k.offset < f.size) (hlen : k.offset + slices.sum ≤ f.size) :
    ∃ n t, s.read_to_ubuf h slices = .ok (slice f.bytes k.offset slices.sum, n, t) ∧
      Borrowed s t h k f := by
  obtain ⟨c, hc, _⟩ := hm.pages
  obtain ⟨c', hr, ht⟩ := hm.read_slices hlen hc
  unfold FsState.read_to_ubuf
  rw [hk, ok_bind]
  dsimp only
  rw [if_neg (by rw [hm.size]; omega), if_neg (by rw [hm.size]; omega), FsState.page_cache, hc,
    ok_bind, hr, ok_bind]
  have hb := Borrowed.seek ht h (k.offset + slices.sum)
  exact ⟨_, _, rfl, hb.pages, hb.size, hb.opened, hb.others⟩

theorem getD_slice (v : Nat → UInt8) (start n i : Nat) :
    (slice v start n).getD i 0 = if i < n then v (start + i) else 0 := by
  rw [slice, List.getD_eq_getElem?_getD, List.getElem?_map]
  rcases Nat.lt_or_ge i n with hi | hi
  · rw [List.getElem?_range' hi, if_pos hi, Nat.one_mul]
    rfl
  · rw [List.getElem?_eq_none (by simpa using hi), if_neg (not_lt.mpr hi)]
    rfl

/-- What the page is filled with. -/
theorem read_page (hk : s.kfile h = .ok k) (hm : s.Mirrors k.inode f) (offset : Nat) :
    ∃ data n t, (s.set_kfile h { k with offset := offset }).read_to_ubuf h
        (page_slices (min PAGE_SIZE ((f.size + 2 ^ 64 - offset) % 2 ^ 64))) = .ok (data, n, t) ∧
      Borrowed s t h k f ∧
      ∀ i < PAGE_SIZE, data.getD i 0 = MemorySet.page_byte f true offset i := by
  have hlt := hm.size_lt
  have hopened := s.kfile_set_kfile h { k with offset := offset }
  have hb := Borrowed.seek hm h offset
  rcases Nat.lt_or_ge offset f.size with hin | hend
  · have hlen : (f.size + 2 ^ 64 - offset) % 2 ^ 64 = f.size - offset := by omega
    rw [hlen]
    have hm' := hm.seek hk rfl (hin.trans hlt)
    have hsum := sum_page_slices (min PAGE_SIZE (f.size - offset))
    have hend : offset + (page_slices (min PAGE_SIZE (f.size - offset))).sum ≤ f.size := by
      rw [hsum]
      omega
    obtain ⟨n, t, hread, ht⟩ := read_inside hopened hm' hin hend
    refine ⟨_, n, t, hread, ⟨ht.pages, ht.size, ht.opened, fun h' hne => ?_⟩, fun i hi => ?_⟩
    · rw [ht.others h' hne, hb.others h' hne]
    · rw [getD_slice, hsum, MemorySet.page_byte]
      refine if_ctx_congr ?_ (fun _ => rfl) fun _ => rfl
      simp only [true_and]
      omega
  · obtain ⟨data, n, hread, hzero⟩ := read_behind hopened (hm.size.le.trans hend)
      (page_slices (min PAGE_SIZE ((f.size + 2 ^ 64 - offset) % 2 ^ 64)))
    refine ⟨data, n, _, hread, hb, fun i hi => ?_⟩
    rw [hzero i, MemorySet.page_byte, if_neg (by omega)]

end Read

section Fault

variable {ms : MemorySet} {ph : Phys} {s : FsState} {va h : Nat} {k : KFile} {f : FlatFile}
  {page : MmapPage} {pt : PageTable} {pte : PageTableEntry}

/-- The page and its file, after `read_from_file` on a new page. -/
theorem read_from_kfile_ok (hpte : pt.translate page.vpn = some pte)
    (hzero : ∀ i, ph.bytes pte.ppn i = 0) (hk : s.kfile h = .ok k) (hm : s.Mirrors k.inode f) :
    ∃ ph' s', page.read_from_kfile h pt ph s = .ok (ph', s') ∧
      (∀ i < PAGE_SIZE, ph'.bytes pte.ppn i =
        MemorySet.page_byte f k.readable page.offset i) ∧
      (k.readable = true → s'.Mirrors k.inode f ∧ ∀ h', s'.kfile h' = s.kfile h') ∧
      (k.readable = false → s' = s.set_kfile h { k with offset := page.offset }) := by
  have hseek : s.seek h page.offset = .ok (s.set_kfile h { k with offset := page.offset }) := by
    rw [FsState.seek, hk]
    rfl
  unfold MmapPage.read_from_kfile
  rw [hk]
  simp only [in_fs, Except.mapError, ok_bind, hseek]
  rcases Bool.eq_false_or_eq_true k.readable with hreadable | hreadable
  · obtain ⟨data, n, t, hread, hb, hdata⟩ := read_page hk hm page.offset
    obtain ⟨s', hback, hs', hfiles⟩ := hb.restore hk hm
    have hsize : ((s.set_kfile h { k with offset := page.offset }).inodes k.inode).file_size =
        f.size := hm.size
    rw [if_pos hreadable, hsize, hread]
    simp only [ok_bind]
    rw [MmapPage.fill_of_translate hpte]
    simp only [in_mm, Except.mapError, ok_bind]
    rw [hback]
    refine ⟨_, s', rfl, fun i hi => ?_, fun _ => ⟨hs', hfiles⟩, fun hclosed => ?_⟩
    · rw [hreadable, ← hdata i hi]
      simp [Phys.write, hzero]
    · cases hreadable.symm.trans hclosed
  · have hclosed : ¬ k.readable = true := by simp [hreadable]
    rw [if_neg hclosed]
    refine ⟨ph, _, rfl, fun i _ => ?_, fun hopen => absurd hopen hclosed, fun _ => rfl⟩
    rw [hzero i, MemorySet.page_byte, if_neg fun hin => hclosed hin.1]

/-- The first touch of a page of a file. -/
theorem check_lazy_kfile_ok (hl : Laid ms) (ht : ms.FirstTouch va page)
    (hframes : 3 ≤ ph.allocator.available) (hk : s.kfile h = .ok k) (hm : s.Mirrors k.inode f) :
    ∃ ms' ph' s' pte, ms.check_lazy_kfile ph s va h = .ok (0, ms', ph', s') ∧
      ms'.translate (floor va) = some pte ∧
      (∀ i < PAGE_SIZE, ph'.bytes pte.ppn i =
        MemorySet.page_byte f k.readable page.offset i) ∧
      (k.readable = true → s'.Mirrors k.inode f ∧ ∀ h', s'.kfile h' = s.kfile h') ∧
      (k.readable = false → s' = s.set_kfile h { k with offset := page.offset }) := by
  obtain ⟨⟨frame, m₁, ph₁⟩, hnew, h₁⟩ := FrameMap.insert_new_available
    (fun old hold => by cases ht.untracked.symm.trans hold) hframes
  obtain ⟨⟨pt, ph₂⟩, hmap⟩ := PageTable.map_available frame.ppn
    (PTEFlags.from_map_ports page.prot ||| PTEFlags.U) ht.unmapped h₁
  have hself := PageTable.Entered.self (PageTable.map_ok hmap).2
  have hzero (i : Nat) : ph₂.bytes frame.ppn i = 0 :=
    PageTable.map_zero hmap (FrameMap.insert_new_zero ht.untracked hnew i)
  have hpte := hself
  rw [← hl.manager.keyed _ page ht.record] at hpte
  obtain ⟨ph₃, s', hread, hbytes, hopen, hclosed⟩ := read_from_kfile_ok hpte hzero hk hm
  have hpage : page.lazy_map_kpage h pt ph₂ s = .ok ({ page with valid := true }, ph₃, s') := by
    rw [MmapPage.lazy_map_kpage, ht.of_file, if_neg Bool.false_ne_true, hread]
    rfl
  obtain ⟨ms', hlazy, htable⟩ : ∃ ms', ms.lazy_mmap_kfile ph s (floor va) h =
      .ok (ms', ph₃, s') ∧ ms'.page_table = pt := by
    unfold MemorySet.lazy_mmap_kfile
    dsimp only
    rw [hnew, ht.record]
    simp only [in_mm, Except.mapError, ok_bind]
    dsimp only at hmap
    rw [hmap]
    simp only [ok_bind]
    rw [hpage]
    exact ⟨_, rfl, rfl⟩
  refine ⟨ms', ph₃, s', _, ?_, ?_, hbytes, hopen, hclosed⟩
  · rw [MemorySet.check_lazy_kfile, if_pos ⟨ht.unmapped, ht.served⟩, hlazy]
    rfl
  · rw [MemorySet.translate, htable]
    exact hself

/-- The file is left alone if it can be read, or if it is at the place of the page by chance. -/
theorem loads_iff (hl : Laid ms) (ht : ms.FirstTouch va page)
    (hframes : 3 ≤ ph.allocator.available) (hk : s.kfile h = .ok k) (hm : s.Mirrors k.inode f) :
    ms.Loads ph s va h page k f ↔ k.readable = true ∨ k.offset = page.offset := by
  obtain ⟨ms', ph', s', pte, hlazy, hpte, hbytes, hopen, hclosed⟩ :=
    check_lazy_kfile_ok hl ht hframes hk hm
  constructor
  · rintro ⟨ms₁, ph₁, s₁, pte₁, hlazy₁, _, _, _, hoffsets⟩
    cases hlazy.symm.trans hlazy₁
    rcases Bool.eq_false_or_eq_true k.readable with hreadable | hreadable
    · exact Or.inl hreadable
    · have hoffset := hoffsets h
      rw [hclosed hreadable, FsState.kfile_set_kfile, hk] at hoffset
      exact Or.inr (Except.ok.inj hoffset).symm
  · intro hpermitted
    suffices hsame : s'.Mirrors k.inode f ∧ ∀ h', s'.kfile h' = s.kfile h' from
      ⟨ms', ph', s', pte, hlazy, hpte, hbytes, hsame.1, fun h' => by rw [hsame.2 h']⟩
    rcases Bool.eq_false_or_eq_true k.readable with hreadable | hreadable
    · exact hopen hreadable
    · have hoffset := hpermitted.resolve_left (by simp [hreadable])
      have hfiles (h' : Nat) : s'.kfile h' = s.kfile h' := by
        rw [hclosed hreadable, ← hoffset]
        rcases eq_or_ne h' h with rfl | hne
        · rw [FsState.kfile_set_kfile, hk]
        · rw [FsState.kfile_set_kfile_of_ne _ hne]
      refine ⟨?_, hfiles⟩
      rw [hclosed hreadable] at hfiles ⊢
      exact ⟨hm.pages, hm.size, hm.size_lt, fun h' k' hk' => hm.files h' k' (hfiles h' ▸ hk')⟩

end Fault

namespace Machine

variable {text : KernelImage} {r : Nat} {ops : List MachineOp}

/-- The file `A` of a volume with nothing else, opened with the flags; with its clusters. -/
def open_A (flags : OpenFlags) : Except Fat32.FsPanic (List Nat × Nat × FsState) := do
  match ← (← Fat32.open_volume FsState.one_file).find Fat32.root [['A']] with
  | (.ok file, fs) => do
    let (h, s) ← (FsState.new fs).open_virt_file [['A']] flags file ['A']
    return (fs.cluster_vec file, h, s)
  | (.error _, _) => .error .notOpen

theorem open_A_mirrors {flags : OpenFlags} {h : Nat} {s : FsState}
    (ho : open_A flags = .ok ([], h, s)) : s.Mirrors 0 (s.flat 0) := by
  obtain ⟨_, _, ho⟩ := bind_eq_ok.mp ho
  obtain ⟨⟨_ | file, fs⟩, _, ho⟩ := bind_eq_ok.mp ho
  · cases ho
  · obtain ⟨⟨h, s⟩, hopen, ho⟩ := bind_eq_ok.mp ho
    obtain ⟨hclusters, hhandle⟩ := Prod.mk.inj (Except.ok.inj ho)
    obtain ⟨rfl, rfl⟩ := Prod.mk.inj hhandle
    refine (FsState.open_virt_file_fresh hopen ?_ ?_ ?_).mirrors
    · simp [FsState.new, hclusters]
    · exact fun _ i _ _ => disk_byte_of_no_clusters hclusters i
    · intro h' k hk
      simp [FsState.kfile, FsState.new] at hk

/-- The second page of a file is mapped. -/
def map_second_page : List MachineOp :=
  [.spawn one_page, .sys_mmap 0 0 4096 3 0x2 (some zeros) 4096]

theorem mapped_second_page : ∃ m ms page, run step (boot image 64) map_second_page = .ok m ∧
    m.space 0 = .ok ms ∧ ms.FirstTouch MMAP_BASE page ∧ page.offset = 4096 ∧
    3 ≤ m.ph.allocator.available := by
  obtain ⟨m, hm, hspace⟩ : ∃ m, run step (boot image 64) map_second_page = .ok m ∧
      Meets (m.space 0) (fun _ => False) fun ms =>
        (∃ page ∈ ms.mmap_manager.mmap_map[floor MMAP_BASE]?,
          page.flags.anonymous = false ∧ page.offset = 4096) ∧
        ms.translate (floor MMAP_BASE) = none ∧
        (ms.mmap_manager.frame_map[floor MMAP_BASE]?).isNone ∧ ms.ServedAsMmap MMAP_BASE ∧
        3 ≤ m.ph.allocator.available := Meets.exists_ok (by decide +kernel)
  obtain ⟨ms, hms, ⟨page, hpage, hfile, hoffset⟩, hnone, huntracked, hserved, hframes⟩ :=
    hspace.exists_ok
  exact ⟨m, ms, page, hm, hms,
    ⟨hpage, hfile, hnone, Option.isNone_iff_eq_none.mp huntracked, hserved⟩, hoffset, hframes⟩

end Machine

end MyGOS.Mm
