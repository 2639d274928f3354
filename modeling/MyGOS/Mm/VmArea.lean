import MyGOS.Mm.PageTable

/-!
# Areas of an address space

A `VmArea` owns the frames of its pages through the trackers of its
`frame_map`. `slots` lists what a frame map owns as pairs of a page table index
and a frame.
-/

namespace MyGOS.Mm

structure MapPermission where
  r : Bool := false
  w : Bool := false
  x : Bool := false
  u : Bool := false
deriving DecidableEq

inductive MapType where
  | Identical
  | Framed
deriving DecidableEq

inductive VmAreaType where
  | UserHeap
  | UserStack
  | Elf
  | TrapContext
  | Shared
  | KernelStack
  | KernelSpace
deriving DecidableEq

def PTEFlags.from_map_permission (p : MapPermission) : PTEFlags :=
  { v := true, r := p.r, w := p.w, x := p.x, u := p.u }

/-- What the memory subsystem asks of a file: `read offset len` is what a read of at most
`len` bytes at `offset` gives. A file that is not `seekable` has no `offset` and no `seek`; one
that does not take a read panics in it, or waits for ever. -/
structure File where
  seekable : Bool
  readable : Bool
  file_size : Nat
  takes : Nat → Nat → Bool
  read : Nat → Nat → List UInt8

abbrev FrameMap := Std.TreeMap Nat FrameTracker

namespace FrameMap

/-- `insert`, and the drop of the tracker it returns. -/
def insert_frame (m : FrameMap) (ph : Phys) (vpn : Nat) (frame : FrameTracker) :
    Except Panic (FrameMap × Phys) :=
  match m[vpn]? with
  | none => .ok (m.insert vpn frame, ph)
  | some old => do
    let ph ← ph.drop old
    return (m.insert vpn frame, ph)

/-- `alloc_frame`, and the insertion of the frame. -/
def insert_new (m : FrameMap) (ph : Phys) (vpn : Nat) :
    Except Panic (FrameTracker × FrameMap × Phys) := do
  let (frame, ph) ← ph.alloc_frame
  let (m, ph) ← m.insert_frame ph vpn frame
  return (frame, m, ph)

/-- `remove`, and the drop of the tracker it returns. -/
def remove_frame (m : FrameMap) (ph : Phys) (vpn : Nat) : Except Panic (FrameMap × Phys) :=
  match m[vpn]? with
  | none => .ok (m, ph)
  | some old => do
    let ph ← ph.drop old
    return (m.erase vpn, ph)

/-- `Drop` of the map: its trackers in the order of the keys. -/
def drop (m : FrameMap) (ph : Phys) : Except Panic Phys :=
  m.toList.foldlM (fun ph e => ph.drop e.2) ph

/-- `Clone` of the map: a new tracker for each one. -/
def clone (m : FrameMap) (ph : Phys) : Except Panic (FrameMap × Phys) :=
  m.toList.foldlM (fun s e => do
    let (frame, ph) ← s.2.from_ppn e.2.ppn
    return (s.1.insert e.1 frame, ph)) (∅, ph)

end FrameMap

structure VmArea where
  area_type : VmAreaType
  vpn_range : VPNRange
  map_type : MapType
  permission : MapPermission
  file : Option File
  file_offset : Nat
  frame_map : FrameMap

namespace VmArea

def new (start_va end_va : Nat) (map_type : MapType) (area_type : VmAreaType)
    (permission : MapPermission) (file : Option File) (file_offset : Nat) :
    Except Panic VmArea := do
  let vpn_range ← VPNRange.from_va start_va end_va
  return { area_type, vpn_range, map_type, permission, file, file_offset, frame_map := ∅ }

def from_another (another : VmArea) : VmArea := { another with frame_map := ∅ }

/-- The body of the loop of `inflate_pagetable`. -/
def inflate_page (s : VmArea × PageTable × Phys) (vpn : Nat) :
    Except Panic (VmArea × PageTable × Phys) :=
  let (area, page_table, ph) := s
  let flags := PTEFlags.from_map_permission area.permission
  match area.map_type with
  | .Identical => do
    let (page_table, ph) ← page_table.map ph vpn vpn flags
    return (area, page_table, ph)
  | .Framed => do
    let (frame, ph) ← ph.alloc_frame
    if area.frame_map.contains vpn then .error (.areaOverlap vpn)
    else
      let (page_table, ph) ← page_table.map ph vpn frame.ppn flags
      return ({ area with frame_map := area.frame_map.insert vpn frame }, page_table, ph)

def inflate_pagetable (area : VmArea) (page_table : PageTable) (ph : Phys) :
    Except Panic (VmArea × PageTable × Phys) :=
  area.vpn_range.vpns.foldlM inflate_page (area, page_table, ph)

/-- One round of the loop of `copy_data`, with the bytes left and the place in the page;
`fuel` bounds the rounds, of which each but the last fills a page. -/
def copy_loop (file : File) (data_start : Nat) (page_table : PageTable) :
    (fuel offset data_len page_offset vpn : Nat) → Phys → Except Panic Phys
  | 0, _, _, _, _, ph => .ok ph
  | fuel + 1, offset, data_len, page_offset, vpn, ph =>
    let data := file.read (data_start + offset) (min data_len PAGE_SIZE)
    let len := min data_len (PAGE_SIZE - page_offset)
    if data.length < len then .error .outOfBounds
    else
      match page_table.translate vpn with
      | none => .error (.notTranslated vpn)
      | some pte =>
        let ph := ph.write pte.ppn page_offset (data.take len)
        if data_len - len = 0 then .ok ph
        else copy_loop file data_start page_table fuel (offset + (PAGE_SIZE - page_offset))
          (data_len - len) 0 (vpn + 1) ph

def copy_data (area : VmArea) (page_table : PageTable) (ph : Phys)
    (data_start data_len page_offset : Nat) : Except Panic Phys :=
  match area.file with
  | none => .error .outOfBounds
  | some file =>
    copy_loop file data_start page_table (data_len / PAGE_SIZE + 2) 0 data_len page_offset
      area.vpn_range.start ph

/-- `lazy_map_vpn`, which is `map_one`. -/
def lazy_map_vpn (area : VmArea) (vpn : Nat) (page_table : PageTable) (ph : Phys) :
    Except Panic (VmArea × PageTable × Phys) :=
  let flags := PTEFlags.from_map_permission area.permission
  match area.map_type with
  | .Identical => do
    let (page_table, ph) ← page_table.map ph vpn vpn flags
    return (area, page_table, ph)
  | .Framed => do
    let (frame, frame_map, ph) ← area.frame_map.insert_new ph vpn
    let (page_table, ph) ← page_table.map ph vpn frame.ppn flags
    return ({ area with frame_map := frame_map }, page_table, ph)

end VmArea

namespace FrameMap

open Outcome

variable {m : FrameMap} {ph : Phys} {vpn k p : Nat} {frame old : FrameTracker}
  {E : Multiset Nat}

def slots (m : FrameMap) : Multiset (Nat × Nat) :=
  ↑(m.toList.map fun e => (index e.1, e.2.ppn))

def owned (m : FrameMap) : Multiset Nat := m.slots.map Prod.snd

theorem toList_perm {l : List (Nat × FrameTracker)} (hnodup : (l.map Prod.fst).Nodup)
    (h : ∀ k f, (k, f) ∈ l ↔ m[k]? = some f) : m.toList.Perm l := by
  refine (List.perm_ext_iff_of_nodup ?_ (List.Nodup.of_map _ hnodup)).mpr ?_
  · refine List.Pairwise.imp ?_ m.distinct_keys_toList
    rintro a b hne rfl
    simp at hne
  · rintro ⟨k, f⟩
    rw [h k f, Std.TreeMap.mem_toList_iff_getElem?_eq_some]

theorem nodup_keys_toList (m : FrameMap) : (m.toList.map Prod.fst).Nodup := by
  rw [List.Nodup, List.pairwise_map]
  refine List.Pairwise.imp ?_ m.distinct_keys_toList
  intro a b hne heq
  simp [heq] at hne

theorem nodup_keys_cons_erase (m : FrameMap) (vpn : Nat) (frame : FrameTracker) :
    (((vpn, frame) :: (m.erase vpn).toList).map Prod.fst).Nodup := by
  rw [List.map_cons, List.nodup_cons]
  refine ⟨?_, nodup_keys_toList _⟩
  intro hmem
  obtain ⟨⟨k, f⟩, hkf, rfl⟩ := List.mem_map.mp hmem
  rw [Std.TreeMap.mem_toList_iff_getElem?_eq_some] at hkf
  simp at hkf

theorem slots_insert (m : FrameMap) (vpn : Nat) (frame : FrameTracker) :
    slots (m.insert vpn frame) = (index vpn, frame.ppn) ::ₘ slots (m.erase vpn) := by
  have hperm : (m.insert vpn frame).toList.Perm ((vpn, frame) :: (m.erase vpn).toList) := by
    refine toList_perm (nodup_keys_cons_erase m vpn frame) fun k f => ?_
    rw [List.mem_cons, Std.TreeMap.mem_toList_iff_getElem?_eq_some,
      Std.TreeMap.getElem?_insert, Std.TreeMap.getElem?_erase]
    rcases eq_or_ne vpn k with rfl | hne
    · simp [eq_comm]
    · simp [hne, hne.symm]
  exact Multiset.coe_eq_coe.mpr (hperm.map _)

theorem slots_of_getElem? (h : m[vpn]? = some old) :
    slots m = (index vpn, old.ppn) ::ₘ slots (m.erase vpn) := by
  have hperm : m.toList.Perm ((vpn, old) :: (m.erase vpn).toList) := by
    refine toList_perm (nodup_keys_cons_erase m vpn old) fun k f => ?_
    rw [List.mem_cons, Std.TreeMap.mem_toList_iff_getElem?_eq_some,
      Std.TreeMap.getElem?_erase]
    rcases eq_or_ne vpn k with rfl | hne
    · simp [h, eq_comm]
    · simp [hne, hne.symm]
  exact Multiset.coe_eq_coe.mpr (hperm.map _)

theorem slots_erase_of_none (h : m[vpn]? = none) : slots (m.erase vpn) = slots m := by
  have hperm : (m.erase vpn).toList.Perm m.toList := by
    refine toList_perm (nodup_keys_toList m) fun k f => ?_
    rw [Std.TreeMap.mem_toList_iff_getElem?_eq_some, Std.TreeMap.getElem?_erase]
    rcases eq_or_ne vpn k with rfl | hne
    · simp [h]
    · simp [hne]
  exact Multiset.coe_eq_coe.mpr (hperm.map _)

theorem mem_slots : (k, p) ∈ slots m ↔ ∃ vpn, index vpn = k ∧ m[vpn]? = some ⟨p⟩ := by
  rw [slots, Multiset.mem_coe, List.mem_map]
  constructor
  · rintro ⟨⟨vpn, f⟩, hmem, heq⟩
    rw [Std.TreeMap.mem_toList_iff_getElem?_eq_some] at hmem
    cases heq
    exact ⟨vpn, rfl, hmem⟩
  · rintro ⟨vpn, rfl, hvpn⟩
    exact ⟨(vpn, ⟨p⟩), Std.TreeMap.mem_toList_iff_getElem?_eq_some.mpr hvpn, rfl⟩

@[simp] theorem slots_empty : slots (∅ : FrameMap) = 0 := by
  rw [Multiset.eq_zero_iff_forall_notMem]
  rintro ⟨k, p⟩ h
  obtain ⟨vpn, _, hvpn⟩ := mem_slots.mp h
  simp at hvpn

end FrameMap

/-- The trackers `M'` are `M` with one for `p` put under the index `k`, where it may have
replaced another one. -/
def Put (k p : Nat) (M M' : Multiset (Nat × Nat)) : Prop :=
  ∃ R, M' = (k, p) ::ₘ R ∧ R ≤ M ∧ ∀ e ∈ M, e.1 ≠ k → e ∈ R

namespace Put

variable {k p : Nat} {M M' N : Multiset (Nat × Nat)} {e : Nat × Nat}

theorem add (h : Put k p M M') (N : Multiset (Nat × Nat)) : Put k p (M + N) (M' + N) := by
  obtain ⟨R, rfl, hle, hkeep⟩ := h
  refine ⟨R + N, Multiset.cons_add _ _ _, add_le_add_left hle N, fun e he hne => ?_⟩
  rcases Multiset.mem_add.mp he with he | he
  · exact Multiset.mem_add.mpr (Or.inl (hkeep e he hne))
  · exact Multiset.mem_add.mpr (Or.inr he)

theorem mem (h : Put k p M M') : (k, p) ∈ M' := by
  obtain ⟨R, rfl, _⟩ := h
  exact Multiset.mem_cons_self _ _

theorem mem_iff (h : Put k p M M') (he : e.1 ≠ k) : e ∈ M' ↔ e ∈ M := by
  obtain ⟨R, rfl, hle, hkeep⟩ := h
  rw [Multiset.mem_cons]
  constructor
  · rintro (rfl | hmem)
    · exact absurd rfl he
    · exact Multiset.mem_of_le hle hmem
  · exact fun hmem => Or.inr (hkeep e hmem he)

theorem le (h : Put k p M M') : M' ≤ (k, p) ::ₘ M := by
  obtain ⟨R, rfl, hle, _⟩ := h
  exact (Multiset.cons_le_cons_iff _).mpr hle

theorem owned_le (h : Put k p M M') : M'.map Prod.snd ≤ p ::ₘ M.map Prod.snd := by
  have hmap := Multiset.map_le_map h.le (f := Prod.snd)
  rwa [Multiset.map_cons] at hmap

end Put

namespace FrameMap

open Outcome

variable {m : FrameMap} {ph : Phys} {vpn k p : Nat} {frame old : FrameTracker}
  {E : Multiset Nat}

/-- Putting a tracker in a map drops the one it replaces. -/
theorem insert_frame_spec (h : Owned ph.allocator (frame.ppn ::ₘ (owned m + E))) (vpn : Nat) :
    ∃ m' ph', m.insert_frame ph vpn frame = .ok (m', ph') ∧
      Moves E (frame.ppn ::ₘ owned m) (owned m') ph ph' ∧
      Put (index vpn) frame.ppn (slots m) (slots m') ∧ ph'.bytes = ph.bytes := by
  have howned : owned (m.insert vpn frame) = frame.ppn ::ₘ owned (m.erase vpn) := by
    rw [owned, slots_insert, Multiset.map_cons, owned]
  unfold insert_frame
  split
  · rename_i hnone
    refine ⟨_, _, rfl, ⟨?_, rfl⟩, ⟨_, slots_insert m vpn frame, ?_, ?_⟩, rfl⟩
    · rwa [howned, owned, slots_erase_of_none hnone, ← owned, Multiset.cons_add]
    · rw [slots_erase_of_none hnone]
    · rw [slots_erase_of_none hnone]
      exact fun e he _ => he
  · rename_i old hsome
    have hold : owned m = old.ppn ::ₘ owned (m.erase vpn) := by
      rw [owned, slots_of_getElem? hsome, Multiset.map_cons, owned]
    rw [hold, Multiset.cons_add, Multiset.cons_swap] at h
    obtain ⟨ph', hdrop, hbase, hph', hbytes⟩ := Phys.drop_spec h
    rw [hdrop]
    refine ⟨_, ph', rfl, ⟨?_, hbase⟩, ⟨_, slots_insert m vpn frame, ?_, ?_⟩, hbytes⟩
    · rwa [howned, Multiset.cons_add]
    · rw [slots_of_getElem? hsome]
      exact Multiset.le_cons_self _ _
    · rw [slots_of_getElem? hsome]
      intro e he hne
      rcases Multiset.mem_cons.mp he with rfl | he
      · exact absurd rfl hne
      · exact he

theorem insert_new_meets (h : Owned ph.allocator (owned m + E)) (vpn : Nat) :
    Meets (m.insert_new ph vpn) (· = .outOfMemory) fun r =>
      r.1.ppn ∉ owned m + E ∧ Moves E (owned m) (owned r.2.1) ph r.2.2 ∧
        Calm (owned m + E) (owned r.2.1 + E) ∧
        Put (index vpn) r.1.ppn (slots m) (slots r.2.1) ∧
        Quiet (owned m + E) ph r.2.2 := by
  unfold insert_new
  refine (Phys.alloc_frame_moves h).bind ?_
  rintro ⟨frame, ph₁⟩ ⟨hfresh, _, hmoves, hcalm, hquiet⟩
  have howned := hmoves.owned
  rw [Multiset.cons_add] at howned
  obtain ⟨m', ph₂, hinsert, hmoves', hput, hbytes'⟩ := insert_frame_spec howned vpn
  dsimp only
  rw [hinsert]
  refine ⟨hfresh, hmoves.trans hmoves',
    hcalm.trans (Calm.of_le (add_le_add_left hput.owned_le E)), hput, ?_⟩
  exact fun q hq => (congrFun hbytes' q).trans (hquiet q hq)

theorem remove_frame_spec (h : Owned ph.allocator (owned m + E)) (vpn : Nat) :
    ∃ m' ph', m.remove_frame ph vpn = .ok (m', ph') ∧ Moves E (owned m) (owned m') ph ph' ∧
      slots m' ≤ slots m ∧ ph'.bytes = ph.bytes ∧
      ∀ v, m'[v]? = if v = vpn then none else m[v]? := by
  unfold remove_frame
  split
  · rename_i hnone
    refine ⟨_, _, rfl, Moves.refl h, le_refl _, rfl, fun v => ?_⟩
    split
    · rename_i heq
      rw [heq, hnone]
    · rfl
  · rename_i old hsome
    have hold : owned m = old.ppn ::ₘ owned (m.erase vpn) := by
      rw [owned, slots_of_getElem? hsome, Multiset.map_cons, owned]
    rw [hold, Multiset.cons_add] at h
    obtain ⟨ph', hdrop, hbase, hph', hbytes⟩ := Phys.drop_spec h
    rw [hdrop]
    refine ⟨_, ph', rfl, ⟨hph', hbase⟩, ?_, hbytes, fun v => ?_⟩
    · rw [slots_of_getElem? hsome]
      exact Multiset.le_cons_self _ _
    · rw [Std.TreeMap.getElem?_erase]
      rcases eq_or_ne vpn v with rfl | hne
      · simp
      · simp [hne, hne.symm]

end FrameMap

namespace VmArea

open Outcome

variable {area area' area'' : VmArea} {pt pt' pt'' : PageTable} {ph ph' ph'' : Phys}
  {E : Multiset Nat} {vpn v : Nat} {vpns : List Nat} {pte : PageTableEntry}

/-- What mapping the pages `vpns` of an area with new frames does. -/
structure Inflated (E : Multiset Nat) (vpns : List Nat) (area : VmArea) (pt : PageTable)
    (ph : Phys) (area' : VmArea) (pt' : PageTable) (ph' : Phys) : Prop where
  same : area' = { area with frame_map := area'.frame_map }
  moves : Moves E (pt.owned + area.frame_map.owned) (pt'.owned + area'.frame_map.owned) ph ph'
  calm : Calm (pt.owned + area.frame_map.owned + E) (pt'.owned + area'.frame_map.owned + E)
  le : pt.owned + area.frame_map.owned ≤ pt'.owned + area'.frame_map.owned
  quiet : Quiet (pt.owned + area.frame_map.owned + E) ph ph'
  slots : area.frame_map.slots ≤ area'.frame_map.slots
  unmapped : ∀ vpn ∈ vpns, pt.find_pte vpn = none
  nodup : (vpns.map index).Nodup
  old : ∀ v, index v ∉ vpns.map index → pt'.find_pte v = pt.find_pte v
  new : ∀ v, index v ∈ vpns.map index → ∃ p, p ∉ pt.owned + area.frame_map.owned + E ∧
    (index v, p) ∈ area'.frame_map.slots ∧ pt'.find_pte v =
      some ⟨p, PTEFlags.from_map_permission area.permission ||| PTEFlags.V⟩

theorem Inflated.refl (h : Owned ph.allocator (pt.owned + area.frame_map.owned + E)) :
    Inflated E [] area pt ph area pt ph where
  same := rfl
  moves := Moves.refl h
  calm := Calm.refl _
  le := le_refl _
  quiet := Quiet.refl _ ph
  slots := le_refl _
  unmapped := by simp
  nodup := List.nodup_nil
  old _ _ := rfl
  new := by simp

/-- One page more. -/
theorem Inflated.page (h : Inflated E vpns area pt ph area' pt' ph') (hmap : area.map_type = .Framed)
    (vpn : Nat) :
    Meets (inflate_page (area', pt', ph') vpn)
      (fun e => e = .outOfMemory ∨ (pt.find_pte vpn).isSome ∨ index vpn ∈ vpns.map index ∨
        (area'.frame_map[vpn]?).isSome) fun r =>
      Inflated E (vpns ++ [vpn]) area pt ph r.1 r.2.1 r.2.2 ∧
        ∀ v, v ≠ vpn → r.1.frame_map[v]? = area'.frame_map[v]? := by
  have hmap' : area'.map_type = .Framed := by
    rw [h.same]
    exact hmap
  have hperm : area'.permission = area.permission := by rw [h.same]
  simp only [inflate_page, hmap', hperm]
  refine ((Phys.alloc_frame_moves h.moves.owned).mono_error fun e he => Or.inl he).bind ?_
  rintro ⟨frame, ph₁⟩ ⟨hfresh, _, hmoves, hcalm, hquiet⟩
  dsimp only at hfresh hmoves hcalm hquiet ⊢
  split
  · rename_i hcontains
    refine Or.inr (Or.inr (Or.inr ?_))
    rwa [Std.TreeMap.contains_eq_isSome_getElem?] at hcontains
  · rename_i hcontains
    have hnone : area'.frame_map[vpn]? = none := by
      rw [Std.TreeMap.contains_eq_isSome_getElem?] at hcontains
      simpa using hcontains
    have howned : Owned ph₁.allocator (pt'.owned + (frame.ppn ::ₘ area'.frame_map.owned + E)) := by
      have := hmoves.owned
      rwa [← Multiset.add_cons, add_assoc] at this
    refine ((PageTable.map_meets howned vpn frame.ppn _).mono_error ?_).bind ?_
    · rintro e (he | he)
      · exact Or.inl he
      · rcases Decidable.em (index vpn ∈ vpns.map index) with hin | hin
        · exact Or.inr (Or.inr (Or.inl hin))
        · rw [h.old vpn hin] at he
          exact Or.inr (Or.inl he)
    · rintro ⟨pt₁, ph₂⟩ ⟨hunmapped, hgrows, hfind⟩
      dsimp only at hunmapped hgrows hfind ⊢
      have hnew : index vpn ∉ vpns.map index := by
        intro hin
        obtain ⟨p, _, _, hp⟩ := h.new vpn hin
        cases hunmapped.symm.trans hp
      have hslots : FrameMap.slots (area'.frame_map.insert vpn frame) =
          (index vpn, frame.ppn) ::ₘ area'.frame_map.slots := by
        rw [FrameMap.slots_insert, FrameMap.slots_erase_of_none hnone]
      have howned' : FrameMap.owned (area'.frame_map.insert vpn frame) =
          frame.ppn ::ₘ area'.frame_map.owned := by
        rw [FrameMap.owned, hslots, Multiset.map_cons, FrameMap.owned]
      have hkept : pt'.owned + area'.frame_map.owned + E ≤
          pt'.owned + (frame.ppn ::ₘ area'.frame_map.owned + E) := by
        rw [add_assoc]
        exact add_le_add_right (add_le_add_left (Multiset.le_cons_self _ _) _) _
      refine ⟨⟨?_, ?_, ?_, ?_, ?_, ?_, ?_, ?_, ?_, ?_⟩, fun v hv => ?_⟩
      · have htype : area'.area_type = area.area_type := by rw [h.same]
        have hrange : area'.vpn_range = area.vpn_range := by rw [h.same]
        have hfile : area'.file = area.file := by rw [h.same]
        have hoffset : area'.file_offset = area.file_offset := by rw [h.same]
        simp only [htype, hrange, hfile, hoffset, hmap]
      · rw [howned']
        refine h.moves.trans ?_
        rw [← Multiset.add_cons] at hmoves
        exact hmoves.trans hgrows.moves.frame
      · rw [howned']
        refine h.calm.trans ?_
        rw [← Multiset.add_cons] at hcalm
        have hcalm' := hgrows.calm
        rw [← add_assoc, ← add_assoc] at hcalm'
        exact hcalm.trans hcalm'
      · rw [howned']
        exact h.le.trans (add_le_add hgrows.le (Multiset.le_cons_self _ _))
      · have hquiet' := hquiet.trans (hgrows.quiet.mono fun _ => Multiset.mem_of_le hkept)
          hmoves.base
        exact h.quiet.trans (hquiet'.mono fun _ => Multiset.mem_of_le (add_le_add_left h.le E))
          h.moves.base
      · rw [hslots]
        exact h.slots.trans (Multiset.le_cons_self _ _)
      · intro v hv
        rcases List.mem_append.mp hv with hv | hv
        · exact h.unmapped v hv
        · rw [List.mem_singleton.mp hv, ← h.old vpn hnew]
          exact hunmapped
      · rw [List.map_append, List.nodup_append]
        refine ⟨h.nodup, List.nodup_singleton _, ?_⟩
        rintro k hk k' hk' rfl
        exact hnew (List.mem_singleton.mp hk' ▸ hk)
      · intro v hv
        rw [List.map_append, List.mem_append, not_or] at hv
        rw [hfind v, if_neg (by simpa using hv.2), h.old v hv.1]
      · intro v hv
        rw [hfind v, hslots]
        split
        · rename_i heq
          refine ⟨frame.ppn, ?_, by rw [heq]; exact Multiset.mem_cons_self _ _, rfl⟩
          exact fun hmem => hfresh (Multiset.mem_of_le (add_le_add_left h.le E) hmem)
        · rename_i hne
          rw [List.map_append, List.mem_append] at hv
          obtain ⟨p, hp, hslot, hpte⟩ := h.new v (hv.resolve_right (by simpa using hne))
          exact ⟨p, hp, Multiset.mem_cons_of_mem hslot, hpte⟩
      · rw [Std.TreeMap.getElem?_insert]
        simp [hv.symm]

/-- Mapping all pages of an area with new frames. -/
theorem inflate_pagetable_meets (h : Owned ph.allocator (pt.owned + area.frame_map.owned + E))
    (hmap : area.map_type = .Framed) (hempty : area.frame_map = ∅) :
    Meets (area.inflate_pagetable pt ph) (fun e => e = .outOfMemory ∨
        ¬ ((area.vpn_range.vpns.map index).Nodup ∧
          ∀ vpn ∈ area.vpn_range.vpns, pt.find_pte vpn = none)) fun r =>
      Inflated E area.vpn_range.vpns area pt ph r.1 r.2.1 r.2.2 := by
  have hloop := Meets.foldlM (f := inflate_page)
    (E := fun e => e = Panic.outOfMemory ∨
      ¬ ((area.vpn_range.vpns.map index).Nodup ∧
        ∀ vpn ∈ area.vpn_range.vpns, pt.find_pte vpn = none))
    (I := fun rest s => ∃ vpns, vpns ++ rest = area.vpn_range.vpns ∧
      Inflated E vpns area pt ph s.1 s.2.1 s.2.2 ∧ ∀ v ∈ rest, s.1.frame_map[v]? = none)
    ?_ area.vpn_range.vpns (area, pt, ph) ⟨[], rfl, Inflated.refl h, by simp [hempty]⟩
  · refine hloop.mono ?_
    rintro ⟨area', pt', ph'⟩ ⟨vpns, hvpns, hinflated, _⟩
    rw [List.append_nil] at hvpns
    rwa [hvpns] at hinflated
  · rintro vpn rest ⟨area', pt', ph'⟩ ⟨vpns, hvpns, hinflated, hnone⟩
    have hnodup := area.vpn_range.nodup_vpns
    rw [← hvpns, List.nodup_append, List.nodup_cons] at hnodup
    refine ((hinflated.page hmap vpn).mono_error ?_).mono ?_
    · rintro e (he | he | he | he)
      · exact Or.inl he
      · refine Or.inr fun hfree => ?_
        rw [hfree.2 vpn (by simp [← hvpns])] at he
        cases he
      · refine Or.inr fun hfree => ?_
        have hkeys := hfree.1
        rw [← hvpns, List.map_append, List.nodup_append] at hkeys
        exact hkeys.2.2 _ he _ (by simp) rfl
      · rw [hnone vpn List.mem_cons_self] at he
        cases he
    · rintro ⟨area'', pt'', ph''⟩ ⟨hinflated', hsame⟩
      refine ⟨vpns ++ [vpn], by simpa using hvpns, hinflated', fun v hv => ?_⟩
      have hne : v ≠ vpn := by
        rintro rfl
        exact hnodup.2.1.1 hv
      exact (hsame v hne).trans (hnone v (List.mem_cons_of_mem _ hv))

end VmArea

end MyGOS.Mm
