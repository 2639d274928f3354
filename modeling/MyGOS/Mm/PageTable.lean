import MyGOS.Mm.Address
import MyGOS.Mm.Phys

/-!
# Page tables

A three-level Sv39 table with its nodes as functions: `dir` gives the frame of
a second-level node, `tab` that of a third-level one, `entry` the leaf entries.
A new node is a zeroed frame, so the entries below it become empty. Leaf
entries outside the reach of a node are never read.
-/

namespace MyGOS.Mm

/-- The low bits of an entry; `cow` is the first of the bits left to software. -/
structure PTEFlags where
  v : Bool := false
  r : Bool := false
  w : Bool := false
  x : Bool := false
  u : Bool := false
  g : Bool := false
  a : Bool := false
  d : Bool := false
  cow : Bool := false
deriving DecidableEq, Repr

namespace PTEFlags

def V : PTEFlags := { v := true }
def R : PTEFlags := { r := true }
def W : PTEFlags := { w := true }
def X : PTEFlags := { x := true }
def U : PTEFlags := { u := true }

instance : OrOp PTEFlags where
  or f g :=
    { v := f.v || g.v, r := f.r || g.r, w := f.w || g.w, x := f.x || g.x, u := f.u || g.u
      g := f.g || g.g, a := f.a || g.a, d := f.d || g.d, cow := f.cow || g.cow }

/-- `self & !other`. -/
def without (f g : PTEFlags) : PTEFlags :=
  { v := f.v && !g.v, r := f.r && !g.r, w := f.w && !g.w, x := f.x && !g.x, u := f.u && !g.u
    g := f.g && !g.g, a := f.a && !g.a, d := f.d && !g.d, cow := f.cow && !g.cow }

section

variable (f g : PTEFlags)

@[simp] theorem or_v : (f ||| g).v = (f.v || g.v) := rfl
@[simp] theorem or_r : (f ||| g).r = (f.r || g.r) := rfl
@[simp] theorem or_w : (f ||| g).w = (f.w || g.w) := rfl
@[simp] theorem or_u : (f ||| g).u = (f.u || g.u) := rfl
@[simp] theorem or_cow : (f ||| g).cow = (f.cow || g.cow) := rfl
@[simp] theorem without_v : (f.without g).v = (f.v && !g.v) := rfl
@[simp] theorem without_r : (f.without g).r = (f.r && !g.r) := rfl
@[simp] theorem without_w : (f.without g).w = (f.w && !g.w) := rfl
@[simp] theorem without_u : (f.without g).u = (f.u && !g.u) := rfl

end

end PTEFlags

@[ext]
structure PageTableEntry where
  ppn : Nat := 0
  flags : PTEFlags := {}
deriving DecidableEq, Repr

namespace PageTableEntry

def is_valid (pte : PageTableEntry) : Bool := pte.flags.v
def readable (pte : PageTableEntry) : Bool := pte.flags.r
def writable (pte : PageTableEntry) : Bool := pte.flags.w
def is_cow (pte : PageTableEntry) : Bool := pte.flags.cow

def set_flags (flags : PTEFlags) (pte : PageTableEntry) : PageTableEntry :=
  { pte with flags := flags }

def set_cow (pte : PageTableEntry) : PageTableEntry :=
  { pte with flags := { pte.flags with cow := true } }

def reset_cow (pte : PageTableEntry) : PageTableEntry :=
  { pte with flags := { pte.flags with cow := false } }

end PageTableEntry

structure PageTable where
  root_ppn : Nat
  frames : List FrameTracker
  dir : Nat → Option Nat
  tab : Nat → Option Nat
  entry : Nat → PageTableEntry

namespace PageTable

def new (ph : Phys) : Except Panic (PageTable × Phys) := do
  let (frame, ph) ← ph.alloc_frame
  return ({ root_ppn := frame.ppn, frames := [frame], dir := fun _ => none,
            tab := fun _ => none, entry := fun _ => {} }, ph)

/-- The first level of the walk, with the node it creates when there is none. -/
def create_dir (pt : PageTable) (ph : Phys) (i : Nat) : Except Panic (PageTable × Phys) :=
  match pt.dir i with
  | some _ => .ok (pt, ph)
  | none => do
    let (frame, ph) ← ph.alloc_frame
    return ({ pt with
      frames := pt.frames ++ [frame]
      dir := Function.update pt.dir i (some frame.ppn)
      tab := fun j => if j / 2 ^ 9 = i then none else pt.tab j }, ph)

/-- The second level. -/
def create_tab (pt : PageTable) (ph : Phys) (i : Nat) : Except Panic (PageTable × Phys) :=
  match pt.tab i with
  | some _ => .ok (pt, ph)
  | none => do
    let (frame, ph) ← ph.alloc_frame
    return ({ pt with
      frames := pt.frames ++ [frame]
      tab := Function.update pt.tab i (some frame.ppn)
      entry := fun j => if j / 2 ^ 9 = i then {} else pt.entry j }, ph)

/-- `find_pte_create`; the entry it returns is the one at `index vpn`. -/
def find_pte_create (pt : PageTable) (ph : Phys) (vpn : Nat) : Except Panic (PageTable × Phys) := do
  let (pt, ph) ← pt.create_dir ph (dir_index vpn)
  pt.create_tab ph (tab_index vpn)

def find_pte (pt : PageTable) (vpn : Nat) : Option PageTableEntry :=
  if (pt.dir (dir_index vpn)).isSome ∧ (pt.tab (tab_index vpn)).isSome ∧
      (pt.entry (index vpn)).is_valid then some (pt.entry (index vpn))
  else none

def translate (pt : PageTable) (vpn : Nat) : Option PageTableEntry := pt.find_pte vpn

/-- The frame and the offset of the physical address. -/
def translate_va (pt : PageTable) (va : Nat) : Option (Nat × Nat) :=
  (pt.find_pte (floor va)).map fun pte => (pte.ppn, page_offset va)

def set_entry (pt : PageTable) (vpn : Nat) (pte : PageTableEntry) : PageTable :=
  { pt with entry := Function.update pt.entry (index vpn) pte }

def map (pt : PageTable) (ph : Phys) (vpn ppn : Nat) (flags : PTEFlags) :
    Except Panic (PageTable × Phys) := do
  let (pt, ph) ← pt.find_pte_create ph vpn
  if (pt.entry (index vpn)).is_valid then .error (.mappedBefore vpn)
  else return (pt.set_entry vpn ⟨ppn, flags ||| PTEFlags.V⟩, ph)

/-- `find_pte` returns valid entries only, so the assertion of `unmap` holds. -/
def unmap (pt : PageTable) (vpn : Nat) : PageTable :=
  match pt.find_pte vpn with
  | some _ => pt.set_entry vpn {}
  | none => pt

/-- `find_pte_create(vpn).unwrap()` and an update of the entry. -/
def update_pte (pt : PageTable) (ph : Phys) (vpn : Nat) (f : PageTableEntry → PageTableEntry) :
    Except Panic (PageTable × Phys) := do
  let (pt, ph) ← pt.find_pte_create ph vpn
  return (pt.set_entry vpn (f (pt.entry (index vpn))), ph)

def set_cow (pt : PageTable) (ph : Phys) (vpn : Nat) : Except Panic (PageTable × Phys) :=
  pt.update_pte ph vpn PageTableEntry.set_cow

def reset_cow (pt : PageTable) (ph : Phys) (vpn : Nat) : Except Panic (PageTable × Phys) :=
  pt.update_pte ph vpn PageTableEntry.reset_cow

def set_flags (pt : PageTable) (ph : Phys) (vpn : Nat) (flags : PTEFlags) :
    Except Panic (PageTable × Phys) :=
  pt.update_pte ph vpn (PageTableEntry.set_flags flags)

def remap_cow (pt : PageTable) (ph : Phys) (vpn ppn former_ppn : Nat) :
    Except Panic (PageTable × Phys) := do
  let (pt, ph) ← pt.update_pte ph vpn fun pte => ⟨ppn, pte.flags ||| PTEFlags.W⟩
  return (pt, ph.copy ppn former_ppn)

section Specs

open Outcome

variable {pt : PageTable} {ph : Phys} {E : Multiset Nat} {vpn v ppn : Nat}
  {pte pte' : PageTableEntry}

/-- The frames of the nodes. -/
def owned (pt : PageTable) : Multiset Nat := (pt.frames.map FrameTracker.ppn : List Nat)

/-- A table that may have got new nodes. -/
structure Grows (E : Multiset Nat) (pt : PageTable) (ph : Phys) (pt' : PageTable) (ph' : Phys) :
    Prop where
  moves : Moves E pt.owned pt'.owned ph ph'
  calm : Calm (pt.owned + E) (pt'.owned + E)
  le : pt.owned ≤ pt'.owned
  quiet : Quiet (pt.owned + E) ph ph'

theorem Grows.refl (h : Owned ph.allocator (pt.owned + E)) : Grows E pt ph pt ph :=
  ⟨Moves.refl h, Calm.refl _, le_refl _, Quiet.refl _ ph⟩

theorem Grows.trans {pt' pt'' : PageTable} {ph' ph'' : Phys} (h : Grows E pt ph pt' ph')
    (h' : Grows E pt' ph' pt'' ph'') : Grows E pt ph pt'' ph'' where
  moves := h.moves.trans h'.moves
  calm := h.calm.trans h'.calm
  le := h.le.trans h'.le
  quiet := h.quiet.trans (h'.quiet.mono fun _ => Multiset.mem_of_le (add_le_add_left h.le E)) h.moves.base

theorem find_pte_congr (pt : PageTable) (h : index v = index vpn) :
    pt.find_pte v = pt.find_pte vpn := by
  rw [find_pte, find_pte, h, dir_index_congr h, tab_index_congr h]

theorem is_valid_of_find_pte (h : pt.find_pte vpn = some pte) : pte.is_valid = true := by
  unfold find_pte at h
  split at h
  · rename_i hreach
    cases h
    exact hreach.2.2
  · cases h

theorem coe_ppns_append (frames : List FrameTracker) (frame : FrameTracker) :
    (↑((frames ++ [frame]).map FrameTracker.ppn) : Multiset Nat) =
      frame.ppn ::ₘ ↑(frames.map FrameTracker.ppn) := by
  rw [Multiset.cons_coe, Multiset.coe_eq_coe, List.map_append]
  exact List.perm_append_singleton _ _

theorem create_dir_ok {i : Nat} {r : PageTable × Phys} (h : pt.create_dir ph i = .ok r) :
    (∀ v, r.1.find_pte v = pt.find_pte v) ∧ (r.1.dir i).isSome := by
  unfold create_dir at h
  split at h
  · rename_i hdir
    cases h
    exact ⟨fun _ => rfl, by simp [hdir]⟩
  · rename_i hdir
    obtain ⟨⟨frame, ph'⟩, _, h⟩ := bind_eq_ok.mp h
    cases h
    refine ⟨fun v => ?_, by simp⟩
    simp only [find_pte, tab_index_div]
    rcases eq_or_ne (dir_index v) i with hi | hi
    · rw [if_neg, if_neg]
      · rw [hi, hdir]
        simp
      · rw [if_pos hi]
        simp
    · rw [Function.update_of_ne hi, if_neg hi]

theorem create_tab_ok {i : Nat} {r : PageTable × Phys} (h : pt.create_tab ph i = .ok r) :
    (∀ v, r.1.find_pte v = pt.find_pte v) ∧ (r.1.tab i).isSome ∧ r.1.dir = pt.dir := by
  unfold create_tab at h
  split at h
  · rename_i htab
    cases h
    exact ⟨fun _ => rfl, by simp [htab], rfl⟩
  · rename_i htab
    obtain ⟨⟨frame, ph'⟩, _, h⟩ := bind_eq_ok.mp h
    cases h
    refine ⟨fun v => ?_, by simp, rfl⟩
    have hdiv : index v / 2 ^ 9 = tab_index v := rfl
    simp only [find_pte, hdiv]
    rcases eq_or_ne (tab_index v) i with hi | hi
    · rw [if_neg, if_neg]
      · rw [hi, htab]
        simp
      · rw [if_pos hi]
        simp [PageTableEntry.is_valid]
    · rw [Function.update_of_ne hi, if_neg hi]

/-- Creating the path to an entry changes no translation. -/
theorem find_pte_create_ok {r : PageTable × Phys} (h : pt.find_pte_create ph vpn = .ok r) :
    (∀ v, r.1.find_pte v = pt.find_pte v) ∧ (r.1.dir (dir_index vpn)).isSome ∧
      (r.1.tab (tab_index vpn)).isSome := by
  obtain ⟨⟨pt', ph'⟩, hcreate, h⟩ := bind_eq_ok.mp h
  obtain ⟨hfind, hdir⟩ := create_dir_ok hcreate
  obtain ⟨hfind', htab, hdir'⟩ := create_tab_ok h
  refine ⟨fun v => (hfind' v).trans (hfind v), ?_, htab⟩
  rw [hdir']
  exact hdir

theorem create_dir_meets (h : Owned ph.allocator (pt.owned + E)) (i : Nat) :
    Meets (pt.create_dir ph i) (· = .outOfMemory) fun r => Grows E pt ph r.1 r.2 := by
  unfold create_dir
  split
  · exact Grows.refl h
  · refine (Phys.alloc_frame_moves h).bind ?_
    rintro ⟨frame, ph'⟩ ⟨_, _, hmoves, hcalm, hquiet⟩
    have hle := Multiset.le_cons_self pt.owned frame.ppn
    rw [owned, ← coe_ppns_append] at hmoves hcalm hle
    exact ⟨hmoves, hcalm, hle, hquiet⟩

theorem create_tab_meets (h : Owned ph.allocator (pt.owned + E)) (i : Nat) :
    Meets (pt.create_tab ph i) (· = .outOfMemory) fun r => Grows E pt ph r.1 r.2 := by
  unfold create_tab
  split
  · exact Grows.refl h
  · refine (Phys.alloc_frame_moves h).bind ?_
    rintro ⟨frame, ph'⟩ ⟨_, _, hmoves, hcalm, hquiet⟩
    have hle := Multiset.le_cons_self pt.owned frame.ppn
    rw [owned, ← coe_ppns_append] at hmoves hcalm hle
    exact ⟨hmoves, hcalm, hle, hquiet⟩

theorem find_pte_create_meets (h : Owned ph.allocator (pt.owned + E)) (vpn : Nat) :
    Meets (pt.find_pte_create ph vpn) (· = .outOfMemory) fun r =>
      Grows E pt ph r.1 r.2 ∧ (∀ v, r.1.find_pte v = pt.find_pte v) ∧
        (r.1.dir (dir_index vpn)).isSome ∧ (r.1.tab (tab_index vpn)).isSome := by
  refine Meets.and_ok (R := fun r : PageTable × Phys => (∀ v, r.1.find_pte v = pt.find_pte v) ∧
    (r.1.dir (dir_index vpn)).isSome ∧ (r.1.tab (tab_index vpn)).isSome) ?_
    fun _ => find_pte_create_ok
  unfold find_pte_create
  refine (create_dir_meets h _).bind ?_
  rintro ⟨pt', ph'⟩ hgrows
  exact (create_tab_meets hgrows.moves.owned _).mono fun _ hgrows' => hgrows.trans hgrows'

theorem find_pte_create_of_find (h : pt.find_pte vpn = some pte) :
    pt.find_pte_create ph vpn = .ok (pt, ph) ∧ pt.entry (index vpn) = pte := by
  unfold find_pte at h
  split at h
  · rename_i hreach
    obtain ⟨n, hdir⟩ := Option.isSome_iff_exists.mp hreach.1
    obtain ⟨m, htab⟩ := Option.isSome_iff_exists.mp hreach.2.1
    refine ⟨?_, Option.some.inj h⟩
    simp [find_pte_create, create_dir, create_tab, hdir, htab, bind, Except.bind]
  · cases h

/-- A valid entry written where the path to the entry exists. -/
theorem find_pte_set_entry (hdir : (pt.dir (dir_index vpn)).isSome)
    (htab : (pt.tab (tab_index vpn)).isSome) (hvalid : pte.is_valid = true) (v : Nat) :
    (pt.set_entry vpn pte).find_pte v =
      if index v = index vpn then some pte else pt.find_pte v := by
  simp only [find_pte, set_entry]
  rcases eq_or_ne (index v) (index vpn) with hv | hv
  · simp [hv, dir_index_congr hv, tab_index_congr hv, hdir, htab, hvalid]
  · simp [hv]

theorem find_pte_update (h : pt.find_pte vpn = some pte) (hvalid : pte'.is_valid = true) (v : Nat) :
    (pt.set_entry vpn pte').find_pte v =
      if index v = index vpn then some pte' else pt.find_pte v := by
  unfold find_pte at h
  split at h
  · rename_i hreach
    exact find_pte_set_entry hreach.1 hreach.2.1 hvalid v
  · cases h

theorem update_pte_of_find (h : pt.find_pte vpn = some pte)
    (f : PageTableEntry → PageTableEntry) :
    pt.update_pte ph vpn f = .ok (pt.set_entry vpn (f pte), ph) := by
  obtain ⟨hcreate, hentry⟩ := @find_pte_create_of_find _ ph _ _ h
  simp [update_pte, hcreate, hentry, bind, Except.bind, pure, Except.pure]

/-- A valid entry for `vpn`, where there was none. -/
theorem map_ok {flags : PTEFlags} {r : PageTable × Phys} (h : pt.map ph vpn ppn flags = .ok r) :
    pt.find_pte vpn = none ∧ ∀ v, r.1.find_pte v =
      if index v = index vpn then some ⟨ppn, flags ||| PTEFlags.V⟩ else pt.find_pte v := by
  obtain ⟨⟨pt', ph'⟩, hcreate, h⟩ := bind_eq_ok.mp h
  obtain ⟨hfind, hdir, htab⟩ := find_pte_create_ok hcreate
  dsimp only at h hfind hdir htab
  split at h
  · cases h
  · rename_i hvalid
    cases h
    refine ⟨?_, fun v => ?_⟩
    · rw [← hfind vpn]
      simp [find_pte, hvalid]
    · rw [← hfind v]
      exact find_pte_set_entry hdir htab (by
        show (flags.v || true) = true
        rw [Bool.or_true]) v

theorem map_meets (h : Owned ph.allocator (pt.owned + E)) (vpn ppn : Nat) (flags : PTEFlags) :
    Meets (pt.map ph vpn ppn flags)
      (fun e => e = .outOfMemory ∨ (pt.find_pte vpn).isSome) fun r =>
      pt.find_pte vpn = none ∧ Grows E pt ph r.1 r.2 ∧ ∀ v, r.1.find_pte v =
        if index v = index vpn then some ⟨ppn, flags ||| PTEFlags.V⟩ else pt.find_pte v := by
  have hgrows : Meets (pt.map ph vpn ppn flags)
      (fun e => e = .outOfMemory ∨ (pt.find_pte vpn).isSome) fun r => Grows E pt ph r.1 r.2 := by
    unfold map
    refine ((find_pte_create_meets h vpn).mono_error fun e he => Or.inl he).bind ?_
    rintro ⟨pt', ph'⟩ ⟨hgrows, hfind, hdir, htab⟩
    rw [← hfind vpn]
    simp only at hdir htab hgrows hfind ⊢
    split
    · rename_i hvalid
      right
      simp [find_pte, hdir, htab, hvalid]
    · exact ⟨hgrows.moves, hgrows.calm, hgrows.le, hgrows.quiet⟩
  exact (hgrows.and_ok fun _ => map_ok).mono fun r hr => ⟨hr.2.1, hr.1, hr.2.2⟩

end Specs

end PageTable

end MyGOS.Mm
