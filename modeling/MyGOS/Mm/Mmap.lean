import MyGOS.Mm.VmArea

/-!
# The mmap manager

`mmap_map` records the pages of the mappings, mapped or not (`valid`), and
`frame_map` owns the frames of those that were touched. Page table entries are
not the manager's business: `remove` leaves them as they are.
-/

namespace MyGOS.Mm

structure MmapProts where
  read : Bool
  write : Bool
  exec : Bool
  growsdown : Bool
  growsup : Bool

def MmapProts.from_bits (bits : Nat) : Option MmapProts :=
  if bits &&& 0x03000007 = bits then
    some { read := bits.testBit 0, write := bits.testBit 1, exec := bits.testBit 2
           growsdown := bits.testBit 24, growsup := bits.testBit 25 }
  else none

structure MmapFlags where
  shared : Bool
  priv : Bool
  fixed : Bool
  anonymous : Bool

def MmapFlags.from_bits (bits : Nat) : Option MmapFlags :=
  if bits &&& 0x33 = bits then
    some { shared := bits.testBit 0, priv := bits.testBit 1
           fixed := bits.testBit 4, anonymous := bits.testBit 5 }
  else none

/-- Without the V bit. -/
def PTEFlags.from_map_ports (prots : MmapProts) : PTEFlags :=
  { r := prots.read, w := prots.write, x := prots.exec }

structure MmapPage where
  vpn : Nat
  valid : Bool
  prot : MmapProts
  flags : MmapFlags
  file : Option File
  offset : Nat

namespace MmapPage

/-- The bytes go to the page itself, which the caller has just mapped. -/
def fill (page : MmapPage) (page_table : PageTable) (ph : Phys) (data : List UInt8) :
    Except Panic Phys :=
  match page_table.translate page.vpn with
  | none => .error (.checkLazy (page.vpn * PAGE_SIZE))
  | some pte => .ok (ph.write pte.ppn 0 data)

/-- `PAGE_SIZE.min(file_size - self.offset)`. -/
def read_len (page : MmapPage) (f : File) : Nat :=
  min PAGE_SIZE ((f.file_size + 2 ^ 64 - page.offset) % 2 ^ 64)

def read_from_file (page : MmapPage) (page_table : PageTable) (ph : Phys) : Except Panic Phys :=
  match page.file with
  | none => .error .outOfBounds
  | some f =>
    if ¬ f.seekable then .error .fileMethod
    else if f.readable then
      let len := page.read_len f
      if f.takes page.offset len then page.fill page_table ph ((f.read page.offset len).take len)
      else .error .fileMethod
    else .ok ph

def read_from_zero (page : MmapPage) (page_table : PageTable) (ph : Phys) : Except Panic Phys :=
  page.fill page_table ph (List.replicate PAGE_SIZE 0)

def lazy_map_page (page : MmapPage) (page_table : PageTable) (ph : Phys) :
    Except Panic (MmapPage × Phys) := do
  let ph ← if page.flags.anonymous then page.read_from_zero page_table ph
    else page.read_from_file page_table ph
  return ({ page with valid := true }, ph)

/-- Only the frame of the page is written. -/
theorem lazy_map_page_meets {page : MmapPage} {page_table : PageTable} {ph : Phys}
    {pte : PageTableEntry} (h : page_table.translate page.vpn = some pte) :
    Outcome.Meets (page.lazy_map_page page_table ph) (fun _ => True) fun r =>
      r.1 = { page with valid := true } ∧ r.2.allocator = ph.allocator ∧
        ∀ q, q ≠ pte.ppn → r.2.bytes q = ph.bytes q := by
  have hfill (data : List UInt8) : Outcome.Meets (page.fill page_table ph data) (fun _ => True)
      fun ph' => ph'.allocator = ph.allocator ∧ ∀ q, q ≠ pte.ppn → ph'.bytes q = ph.bytes q := by
    rw [fill, h]
    exact ⟨rfl, fun q hq => Function.update_of_ne hq _ _⟩
  unfold lazy_map_page
  split
  · exact (hfill _).bind fun ph' hph' => ⟨rfl, hph'⟩
  · unfold read_from_file
    split
    · trivial
    · rename_i f hf
      split
      · trivial
      · split
        · dsimp only
          split
          · exact (hfill _).bind fun ph' hph' => ⟨rfl, hph'⟩
          · trivial
        · exact ⟨rfl, rfl, fun _ _ => rfl⟩

def set_prot (page : MmapPage) (new_prot : MmapProts) : MmapPage := { page with prot := new_prot }

end MmapPage

structure MmapManager where
  mmap_start : Nat
  mmap_top : Nat
  mmap_map : Std.TreeMap Nat MmapPage
  frame_map : FrameMap

namespace MmapManager

def new (mmap_start mmap_top : Nat) : MmapManager where
  mmap_start := mmap_start
  mmap_top := mmap_top
  mmap_map := ∅
  frame_map := ∅

def push (m : MmapManager) (start_va len : Nat) (prot : MmapProts) (flags : MmapFlags)
    (offset : Nat) (file : Option File) : Except Panic (Nat × MmapManager) := do
  let end_ := (start_va + len) % 2 ^ 64
  let range ← VPNRange.from_va start_va end_
  let mmap_map := range.vpns.foldl (fun mmap_map vpn => mmap_map.insert vpn
    { vpn, prot, flags, valid := false, file
      offset := (offset + (vpn - range.start) * PAGE_SIZE) % 2 ^ 64 }) m.mmap_map
  let mmap_top := if m.mmap_top ≤ start_va then virt_addr end_ else m.mmap_top
  return (start_va, { m with mmap_map := mmap_map, mmap_top := mmap_top })

def remove_page (s : MmapManager × Phys) (vpn : Nat) : Except Panic (MmapManager × Phys) := do
  let (frame_map, ph) ← s.1.frame_map.remove_frame s.2 vpn
  return ({ s.1 with mmap_map := s.1.mmap_map.erase vpn, frame_map := frame_map }, ph)

def remove (m : MmapManager) (ph : Phys) (start_va len : Nat) :
    Except Panic (MmapManager × Phys) := do
  let range ← VPNRange.from_va start_va ((start_va + len) % 2 ^ 64)
  range.vpns.foldlM remove_page (m, ph)

def clone (m : MmapManager) (ph : Phys) : Except Panic (MmapManager × Phys) := do
  let (frame_map, ph) ← m.frame_map.clone ph
  return ({ m with frame_map := frame_map }, ph)

/-- The manager's own bookkeeping: pages stand under their number, and a page that was touched
lies between the two bounds. -/
structure WellFormed (m : MmapManager) : Prop where
  keyed : ∀ (vpn : Nat) (page : MmapPage), m.mmap_map[vpn]? = some page → page.vpn = vpn
  start_aligned : page_offset m.mmap_start = 0
  top_aligned : page_offset m.mmap_top = 0
  touched : ∀ (vpn : Nat) (page : MmapPage), m.mmap_map[vpn]? = some page → page.valid = true →
    floor m.mmap_start ≤ vpn ∧ vpn < floor m.mmap_top

section Specs

variable {m m' : MmapManager} {ph ph' : Phys} {vpn start_va len offset addr : Nat}
  {prot : MmapProts} {flags : MmapFlags} {file : Option File} {page : MmapPage}

theorem WellFormed.new : (MmapManager.new MMAP_BASE MMAP_BASE).WellFormed where
  keyed vpn page h := by simp [MmapManager.new] at h
  start_aligned := by decide
  top_aligned := by decide
  touched vpn page h := by simp [MmapManager.new] at h

/-- Another page under the same number. -/
theorem WellFormed.insert (h : m.WellFormed) (hkey : page.vpn = vpn)
    (hbounds : page.valid = true → floor m.mmap_start ≤ vpn ∧ vpn < floor m.mmap_top) :
    { m with mmap_map := m.mmap_map.insert vpn page }.WellFormed where
  keyed v page' hv := by
    rw [Std.TreeMap.getElem?_insert] at hv
    split at hv
    · rename_i heq
      cases hv
      exact hkey.trans (Std.LawfulEqCmp.eq_of_compare heq)
    · exact h.keyed v page' hv
  start_aligned := h.start_aligned
  top_aligned := h.top_aligned
  touched v page' hv hvalid := by
    rw [Std.TreeMap.getElem?_insert] at hv
    split at hv
    · rename_i heq
      cases hv
      rw [← Std.LawfulEqCmp.eq_of_compare heq]
      exact hbounds hvalid
    · exact h.touched v page' hv hvalid

theorem getElem?_foldl_insert (f : Nat → MmapPage) (vpns : List Nat)
    (map : Std.TreeMap Nat MmapPage) (v : Nat) :
    (vpns.foldl (fun map vpn => map.insert vpn (f vpn)) map)[v]? =
      if v ∈ vpns then some (f v) else map[v]? := by
  induction vpns generalizing map with
  | nil => simp
  | cons vpn vpns ih =>
    rw [List.foldl_cons, ih, Std.TreeMap.getElem?_insert]
    rcases eq_or_ne vpn v with rfl | hne
    · simp
    · simp [hne, hne.symm]

/-- What `push` leaves: new pages are untouched, the others are as before. -/
structure Pushed (m : MmapManager) (start_va len : Nat) (m' : MmapManager) : Prop where
  frame_map : m'.frame_map = m.frame_map
  start : m'.mmap_start = m.mmap_start
  page : ∀ (v : Nat) (page : MmapPage), m'.mmap_map[v]? = some page → page.valid = true → m.mmap_map[v]? = some page
  kept : ∀ r, VPNRange.from_va start_va ((start_va + len) % 2 ^ 64) = .ok r →
    ∀ v : Nat, v ∉ r → m'.mmap_map[v]? = m.mmap_map[v]?
  wellFormed : page_offset start_va = 0 → page_offset len = 0 → m.WellFormed → m'.WellFormed

theorem le_virt_addr_end {start_va len : Nat} (hstart : page_offset start_va = 0)
    (hlen : page_offset len = 0)
    (hle : floor start_va ≤ ceil ((start_va + len) % 2 ^ 64)) :
    start_va ≤ virt_addr ((start_va + len) % 2 ^ 64) ∧
      page_offset (virt_addr ((start_va + len) % 2 ^ 64)) = 0 := by
  simp only [page_offset, PAGE_SIZE, floor, ceil, virt_addr] at *
  split_ifs <;> omega

theorem push_spec (h : m.push start_va len prot flags offset file = .ok (addr, m')) :
    addr = start_va ∧ Pushed m start_va len m' := by
  unfold push at h
  obtain ⟨range, hrange, h⟩ := Outcome.bind_eq_ok.mp h
  cases h
  refine ⟨rfl, rfl, rfl, fun v page hv hvalid => ?_, fun r hr v hv => ?_, fun hstart hlen hm => ?_⟩
  · rw [getElem?_foldl_insert] at hv
    split at hv
    · cases hv
      cases hvalid
    · exact hv
  · cases hrange.symm.trans hr
    rw [getElem?_foldl_insert, if_neg (by simpa using hv)]
  · have hle : floor start_va ≤ ceil ((start_va + len) % 2 ^ 64) := by
      unfold VPNRange.from_va at hrange
      split at hrange
      · assumption
      · cases hrange
    obtain ⟨htop, haligned⟩ := le_virt_addr_end hstart hlen hle
    constructor
    · intro v page hv
      rw [getElem?_foldl_insert] at hv
      split at hv
      · cases hv
        rfl
      · exact hm.keyed v page hv
    · exact hm.start_aligned
    · split
      · exact haligned
      · exact hm.top_aligned
    · intro v page hv hvalid
      rw [getElem?_foldl_insert] at hv
      split at hv
      · cases hv
        cases hvalid
      · refine (hm.touched v page hv hvalid).imp_right fun hlt => ?_
        split
        · rename_i hge
          exact lt_of_lt_of_le hlt (Nat.div_le_div_right (hge.trans htop))
        · exact hlt

end Specs

end MmapManager

end MyGOS.Mm
