import MyGOS.Mm.VmArea
import Mathlib.Data.List.Sort

/-!
# The device regions of the kernel space

The regions of the device tree are sorted, and one that lies in another one or in
its pages is not mapped. It is taken out by its start, and so are all others that
have this start.
-/

namespace MyGOS.Mm

open Outcome

structure MemRegion where
  start : Nat
  end_ : Nat
deriving DecidableEq

namespace MemRegion

def contains (a b : MemRegion) : Prop := a.start ≤ b.start ∧ b.end_ ≤ a.end_

def same_page (a b : MemRegion) : Prop :=
  a.start / 0x1000 = b.start / 0x1000 ∧ a.end_ / 0x1000 = b.end_ / 0x1000

instance (a b : MemRegion) : Decidable (a.contains b) := inferInstanceAs (Decidable (_ ∧ _))

instance (a b : MemRegion) : Decidable (a.same_page b) := inferInstanceAs (Decidable (_ ∧ _))

/-- By start, and the longer one first. -/
def sort_le (a b : MemRegion) : Prop :=
  a.start < b.start ∨ a.start = b.start ∧ b.end_ ≤ a.end_

instance : DecidableRel sort_le := fun _ _ => inferInstanceAs (Decidable (_ ∨ _))

instance : Std.Total sort_le where
  total a b := by
    unfold sort_le
    omega

instance : IsTrans MemRegion sort_le where
  trans a b c := by
    unfold sort_le
    omega

/-- The loops over `i` and `j` on `mmio`, which take regions out of `mmio_map_region`. -/
def remove_from : (mmio mmio_map_region : List MemRegion) → List MemRegion
  | [], mmio_map_region => mmio_map_region
  | a :: mmio, mmio_map_region =>
    remove_from mmio (mmio.foldl (fun mmio_map_region b =>
      if a.contains b ∨ a.same_page b then mmio_map_region.filter fun x => x.start ≠ b.start
      else mmio_map_region) mmio_map_region)

def prune (mmio : List MemRegion) : List MemRegion :=
  let mmio := mmio.insertionSort sort_le
  remove_from mmio mmio

/-- The pages of `VPNRange::from_va`. -/
def pages (r : MemRegion) : List Nat :=
  List.range' (floor (virt_addr r.start)) (ceil (virt_addr r.end_) - floor (virt_addr r.start))

def map_region (s : PageTable × Phys) (pair : MemRegion) : Except Panic (PageTable × Phys) := do
  let area ← VmArea.new (virt_addr pair.start) (virt_addr pair.end_) .Identical .KernelSpace
    { r := true, w := true } none 0
  let (_, page_table, ph) ← area.inflate_pagetable s.1 s.2
  return (page_table, ph)

/-- The last loop; the page table has the pages of the kernel already. -/
def map_mmio (mapped_region : MemRegion) (mmio : List MemRegion) (s : PageTable × Phys) :
    Except Panic (PageTable × Phys) :=
  (prune mmio).foldlM (fun s pair =>
    if pair.contains mapped_region then .ok s else map_region s pair) s

/-- The regions that are mapped. -/
def mapped (mapped_region : MemRegion) (mmio : List MemRegion) : List MemRegion :=
  (prune mmio).filter fun pair => ¬ pair.contains mapped_region

/-- What pruning is for. -/
structure MapsOnce (page_table : PageTable) (mapped_region : MemRegion) (mmio : List MemRegion) :
    Prop where
  covers : ∀ r ∈ mmio, ∀ p ∈ r.pages, ∃ x ∈ prune mmio, p ∈ x.pages
  once : ((mapped mapped_region mmio).flatMap fun x => x.pages.map index).Nodup
  fresh : ∀ x ∈ mapped mapped_region mmio, ∀ p ∈ x.pages, page_table.find_pte p = none
  maps : ∀ ph e, map_mmio mapped_region mmio (page_table, ph) = .error e →
    ∀ vpn, e ≠ .mappedBefore vpn

/-! ## Which regions are left -/

/-- No other region has its start, and no region in front of it is as long or has its pages. -/
structure Stays (mmio : List MemRegion) (x : MemRegion) : Prop where
  mem : x ∈ mmio
  alone : (mmio.filter fun y => y.start = x.start).length ≤ 1
  unrivalled : ∀ y ∈ mmio, y.start < x.start → ¬ (y.contains x ∨ y.same_page x)

variable {mmio m : List MemRegion} {a b r x y : MemRegion}

theorem mem_foldl_filter (a : MemRegion) (rest acc : List MemRegion) :
    x ∈ rest.foldl (fun acc b =>
        if a.contains b ∨ a.same_page b then acc.filter fun x => x.start ≠ b.start else acc) acc ↔
      x ∈ acc ∧ ∀ b ∈ rest, a.contains b ∨ a.same_page b → x.start ≠ b.start := by
  induction rest generalizing acc with
  | nil => simp
  | cons b rest ih =>
    rw [List.foldl_cons, ih, List.forall_mem_cons]
    split
    · next hab =>
      rw [List.mem_filter, decide_eq_true_eq]
      constructor
      · rintro ⟨⟨hx, hb⟩, hrest⟩
        exact ⟨hx, fun _ => hb, hrest⟩
      · rintro ⟨hx, hb, hrest⟩
        exact ⟨⟨hx, hb hab⟩, hrest⟩
    · next hab =>
      constructor
      · rintro ⟨hx, hrest⟩
        exact ⟨hx, fun h => absurd h hab, hrest⟩
      · rintro ⟨hx, -, hrest⟩
        exact ⟨hx, hrest⟩

/-- A region stays if no region of its start is removed on account of one in front of it. -/
theorem mem_remove_from (m acc : List MemRegion) : x ∈ remove_from m acc ↔
    x ∈ acc ∧ m.Pairwise fun a b => a.contains b ∨ a.same_page b → x.start ≠ b.start := by
  induction m generalizing acc with
  | nil => simp [remove_from]
  | cons a m ih => rw [remove_from, ih, mem_foldl_filter, List.pairwise_cons, and_assoc]

theorem remove_from_sublist (m acc : List MemRegion) : (remove_from m acc).Sublist acc := by
  induction m generalizing acc with
  | nil => exact List.Sublist.refl acc
  | cons a m ih =>
    refine (ih _).trans ?_
    generalize m = rest
    induction rest generalizing acc with
    | nil => exact List.Sublist.refl acc
    | cons b rest ih' =>
      rw [List.foldl_cons]
      split
      · exact (ih' _).trans List.filter_sublist
      · exact ih' acc

/-- Two regions of one start. -/
theorem not_alone (hab : [a, b].Sublist m) (ha : a.start = x.start) (hb : b.start = x.start) :
    ¬ (m.filter fun y => y.start = x.start).length ≤ 1 := by
  have hsub := hab.filter fun y => decide (y.start = x.start)
  have hpair : [a, b].filter (fun y => decide (y.start = x.start)) = [a, b] := by
    rw [List.filter_eq_self]
    rintro z hz
    rcases List.mem_pair.mp hz with rfl | rfl
    · exact decide_eq_true ha
    · exact decide_eq_true hb
  rw [hpair] at hsub
  have hlen := hsub.length_le
  rw [List.length_cons, List.length_singleton] at hlen
  omega

theorem eq_of_alone (h : (m.filter fun y => y.start = x.start).length ≤ 1) (hx : x ∈ m) (hy : y ∈ m)
    (heq : y.start = x.start) : y = x := by
  have hx' : x ∈ m.filter fun y => y.start = x.start := List.mem_filter.mpr ⟨hx, decide_eq_true rfl⟩
  have hy' : y ∈ m.filter fun y => y.start = x.start := List.mem_filter.mpr ⟨hy, decide_eq_true heq⟩
  generalize (m.filter fun y => decide (y.start = x.start)) = l at h hx' hy'
  match l, h with
  | [z], _ => rw [List.mem_singleton.mp hx', List.mem_singleton.mp hy']

theorem mem_prune_iff : x ∈ prune mmio ↔ Stays mmio x := by
  have hperm := List.perm_insertionSort sort_le mmio
  have hsorted := List.pairwise_insertionSort sort_le mmio
  have hlen := (hperm.filter fun y => decide (y.start = x.start)).length_eq
  rw [prune, mem_remove_from]
  generalize mmio.insertionSort sort_le = m at hperm hsorted hlen
  rw [List.pairwise_iff_forall_sublist] at hsorted ⊢
  constructor
  · rintro ⟨hx, hpairs⟩
    refine ⟨hperm.mem_iff.mp hx, ?_, fun y hy hlt hrival => ?_⟩
    · rw [← hlen]
      by_contra hlen
      obtain ⟨a, b, rest, heq⟩ : ∃ a b rest, (m.filter fun y => y.start = x.start) =
          a :: b :: rest := by
        match hfilter : m.filter fun y => y.start = x.start with
        | [] => simp [hfilter] at hlen
        | [a] => simp [hfilter] at hlen
        | a :: b :: rest => exact ⟨a, b, rest, hfilter⟩
      have hab : [a, b].Sublist (m.filter fun y => y.start = x.start) := by
        rw [heq]
        exact .cons_cons _ (.cons_cons _ (List.nil_sublist _))
      have ha := List.mem_filter.mp (hab.subset List.mem_cons_self)
      have hb := List.mem_filter.mp (hab.subset (List.mem_cons_of_mem _ List.mem_cons_self))
      have hstart : a.start = x.start := of_decide_eq_true ha.2
      have hstart' : b.start = x.start := of_decide_eq_true hb.2
      have hsub := hab.trans List.filter_sublist
      rcases hsorted hsub with hlt | ⟨-, hend⟩
      · omega
      · exact hpairs hsub (.inl ⟨by omega, hend⟩) hstart'.symm
    · have hsub : [y, x].Sublist m := by
        obtain ⟨front, back, rfl⟩ := List.append_of_mem hx
        rcases List.mem_append.mp (hperm.mem_iff.mpr hy) with hfront | hback
        · exact (List.singleton_sublist.mpr hfront).append
            (.cons_cons _ (List.nil_sublist back))
        · exfalso
          rcases List.mem_cons.mp hback with rfl | hback
          · exact lt_irrefl _ hlt
          · have hsub : [x, y].Sublist (front ++ x :: back) :=
              (List.Sublist.cons_cons x (List.singleton_sublist.mpr hback)).trans
                (List.sublist_append_right _ _)
            rcases hsorted hsub with h | h
            · omega
            · omega
      exact hpairs hsub hrival rfl
  · rintro ⟨hx, halone, hunrivalled⟩
    rw [← hlen] at halone
    refine ⟨hperm.mem_iff.mpr hx, fun {a b} hsub hrival heq => ?_⟩
    have hb := hsub.subset (List.mem_cons_of_mem _ List.mem_cons_self)
    obtain rfl := eq_of_alone halone (hperm.mem_iff.mpr hx) hb heq.symm
    rcases hsorted hsub with hlt | ⟨hstart, -⟩
    · exact hunrivalled a (hperm.mem_iff.mp (hsub.subset List.mem_cons_self)) hlt hrival
    · exact not_alone hsub hstart rfl halone

theorem nodup_prune (mmio : List MemRegion) : (prune mmio).Nodup := by
  rw [List.Nodup, List.pairwise_iff_forall_sublist]
  rintro a b hsub rfl
  have ha := mem_prune_iff.mp (hsub.subset List.mem_cons_self)
  have hperm := List.perm_insertionSort sort_le mmio
  have halone := ha.alone
  rw [← (hperm.filter fun y => decide (y.start = a.start)).length_eq] at halone
  exact not_alone (hsub.trans (remove_from_sublist _ _)) rfl rfl halone

/-! ## Their pages -/

/-- The regions whose pages can get lost: those of one start, one that ends in the page at
whose front a region with the same pages ends, and all of them where one leaves the address
space. -/
inductive AtRisk (mmio : List MemRegion) (r : MemRegion) : Prop where
  | twin (h : ¬ (mmio.filter fun y => y.start = r.start).length ≤ 1)
  | cut {y : MemRegion} (hy : y ∈ mmio) (hstart : y.start < r.start) (hpage : y.same_page r)
      (hend : y.end_ < r.end_) (haligned : 0x1000 ∣ y.end_)
  | outside {y : MemRegion} (hy : y ∈ mmio) (h : 2 ^ 39 ≤ y.end_)

/-- Regions that can be told apart by their pages. -/
structure Separable (page_table : PageTable) (mapped_region : MemRegion)
    (mmio : List MemRegion) : Prop where
  risk : ∀ r ∈ mmio, AtRisk mmio r → ∀ p ∈ r.pages, ∃ x, Stays mmio x ∧ p ∈ x.pages
  apart : ∀ x y, Stays mmio x → Stays mmio y → ¬ x.contains mapped_region →
    ¬ y.contains mapped_region → x ≠ y → ∀ p ∈ x.pages, ∀ q ∈ y.pages, index p ≠ index q
  slots : ∀ x, Stays mmio x → ¬ x.contains mapped_region → (x.pages.map index).Nodup
  fresh : ∀ x, Stays mmio x → ¬ x.contains mapped_region →
    ∀ p ∈ x.pages, page_table.find_pte p = none

theorem mem_pages {p : Nat} : p ∈ r.pages ↔
    floor (virt_addr r.start) ≤ p ∧ p < ceil (virt_addr r.end_) := by
  rw [pages, List.mem_range'_1]
  omega

theorem mem_pages_of_lt {p : Nat} (hr : r.end_ < 2 ^ 39) : p ∈ r.pages ↔
    r.start / 0x1000 ≤ p ∧ p < (0xFFF + r.end_) / 0x1000 := by
  rw [mem_pages, floor, ceil, virt_addr, virt_addr, if_pos hr]
  unfold PAGE_SIZE
  split <;> omega

theorem pages_subset_of_contains (hr : r.end_ < 2 ^ 39) (hy : y.end_ < 2 ^ 39)
    (h : y.contains r) : r.pages ⊆ y.pages := by
  obtain ⟨hstart, hend⟩ := h
  intro p hp
  rw [mem_pages_of_lt hr] at hp
  rw [mem_pages_of_lt hy]
  omega

theorem pages_subset_of_same_page (hr : r.end_ < 2 ^ 39) (hy : y.end_ < 2 ^ 39)
    (h : y.same_page r) (hend : y.end_ < r.end_) (haligned : ¬ 0x1000 ∣ y.end_) :
    r.pages ⊆ y.pages := by
  obtain ⟨hstart, hpage⟩ := h
  intro p hp
  rw [mem_pages_of_lt hr] at hp
  rw [mem_pages_of_lt hy]
  omega

/-- A region that does not stay hands its pages on to one in front of it. -/
theorem covers_of_risk
    (hrisk : ∀ r ∈ mmio, AtRisk mmio r → ∀ p ∈ r.pages, ∃ x, Stays mmio x ∧ p ∈ x.pages)
    (hr : r ∈ mmio) : ∀ p ∈ r.pages, ∃ x, Stays mmio x ∧ p ∈ x.pages := by
  induction hn : r.start using Nat.strong_induction_on generalizing r with
  | _ n ih =>
    intro p hp
    by_cases hat : AtRisk mmio r
    · exact hrisk r hr hat p hp
    have hlow : ∀ y ∈ mmio, y.end_ < 2 ^ 39 := fun y hy =>
      not_le.mp fun h => hat (.outside hy h)
    by_cases hrival : ∃ y ∈ mmio, y.start < r.start ∧ (y.contains r ∨ y.same_page r)
    · obtain ⟨y, hy, hlt, hrival⟩ := hrival
      have hsub : r.pages ⊆ y.pages := by
        rcases Nat.lt_or_ge y.end_ r.end_ with hend | hend
        · have hpage := hrival.resolve_left fun h => not_le.mpr hend h.2
          exact pages_subset_of_same_page (hlow r hr) (hlow y hy) hpage hend
            fun h => hat (.cut hy hlt hpage hend h)
        · exact pages_subset_of_contains (hlow r hr) (hlow y hy) ⟨hlt.le, hend⟩
      exact ih y.start (hn ▸ hlt) hy rfl p (hsub hp)
    · refine ⟨r, ⟨hr, ?_, fun y hy hlt h => hrival ⟨y, hy, hlt, h⟩⟩, hp⟩
      by_contra hlen
      exact hat (.twin hlen)

theorem mem_mapped_iff {mapped_region : MemRegion} :
    x ∈ mapped mapped_region mmio ↔ Stays mmio x ∧ ¬ x.contains mapped_region := by
  rw [mapped, List.mem_filter, mem_prune_iff, decide_eq_true_eq]

/-! ## Mapping -/

section Mapping

variable {pt : PageTable} {ph : Phys}

/-- An error that is not the assertion of `PageTable::map`. -/
def Other (e : Panic) : Prop := ∀ vpn, e ≠ .mappedBefore vpn

theorem alloc_frame_other (ph : Phys) : Meets ph.alloc_frame Other fun _ => True := by
  rw [Phys.alloc_frame, StackFrameAllocator.alloc_frame]
  cases ph.allocator.alloc with
  | none =>
    intro vpn h
    cases h
  | some r =>
    obtain ⟨ppn, a⟩ := r
    simp only [StackFrameAllocator.add_ref]
    cases a.refcounter[ppn]? with
    | none =>
      intro vpn h
      cases h
    | some n => trivial

theorem find_pte_create_other (pt : PageTable) (ph : Phys) (vpn : Nat) :
    Meets (pt.find_pte_create ph vpn) Other fun _ => True := by
  have hdir : ∀ i, Meets (pt.create_dir ph i) Other fun _ => True := by
    intro i
    rw [PageTable.create_dir]
    cases pt.dir i with
    | some _ => trivial
    | none => exact (alloc_frame_other ph).bind fun _ _ => trivial
  refine (hdir _).bind ?_
  rintro ⟨pt', ph'⟩ -
  simp only [PageTable.create_tab]
  cases pt'.tab (tab_index vpn) with
  | some _ => trivial
  | none => exact (alloc_frame_other ph').bind fun _ _ => trivial

/-- A page that is not mapped can be. -/
theorem map_fresh {vpn : Nat} (h : pt.find_pte vpn = none) (ppn : Nat) (flags : PTEFlags) :
    Meets (pt.map ph vpn ppn flags) Other fun r =>
      ∀ v, index v ≠ index vpn → r.1.find_pte v = pt.find_pte v := by
  have hother : Meets (pt.map ph vpn ppn flags) Other fun _ => True := by
    refine ((find_pte_create_other pt ph vpn).and_ok
      fun r => PageTable.find_pte_create_ok).bind ?_
    rintro ⟨pt', ph'⟩ ⟨-, hfind, hdir, htab⟩
    simp only at hfind hdir htab ⊢
    split
    · next hvalid =>
      rw [← hfind vpn] at h
      simp [PageTable.find_pte, hdir, htab, hvalid] at h
    · trivial
  refine (hother.and_ok fun r hr v hv => ?_).mono fun r hr => hr.2
  rw [(PageTable.map_ok hr).2 v, if_neg hv]

theorem map_region_fresh {x : MemRegion} (hslots : (x.pages.map index).Nodup)
    (hfresh : ∀ p ∈ x.pages, pt.find_pte p = none) :
    Meets (map_region (pt, ph) x) Other fun r =>
      ∀ v, index v ∉ x.pages.map index → r.1.find_pte v = pt.find_pte v := by
  rw [map_region, VmArea.new, VPNRange.from_va]
  split
  · next hle =>
    have hloop := Meets.foldlM (f := VmArea.inflate_page) (E := Other)
      (I := fun rest s => s.1.map_type = .Identical ∧ rest ⊆ x.pages ∧ (rest.map index).Nodup ∧
        (∀ p ∈ rest, s.2.1.find_pte p = none) ∧
        ∀ v, index v ∉ x.pages.map index → s.2.1.find_pte v = pt.find_pte v)
      ?_ x.pages ({ area_type := .KernelSpace, vpn_range := ⟨_, _, hle⟩, map_type := .Identical,
                    permission := { r := true, w := true }, file := none, file_offset := 0,
                    frame_map := ∅ }, pt, ph)
      ⟨rfl, List.Subset.refl _, hslots, hfresh, fun _ _ => rfl⟩
    · simp only [ok_bind]
      exact hloop.bind fun s hs => hs.2.2.2.2
    · rintro vpn rest ⟨area, pt', ph'⟩ ⟨htype, hsub, hnodup, hnone, hsame⟩
      obtain ⟨hnotin, hnodup⟩ := List.nodup_cons.mp hnodup
      dsimp only at htype hnone hsame
      rw [VmArea.inflate_page]
      simp only [htype]
      refine (map_fresh (hnone vpn List.mem_cons_self) vpn _).bind ?_
      rintro ⟨pt'', ph''⟩ hmap
      refine ⟨htype, fun p hp => hsub (List.mem_cons_of_mem _ hp), hnodup, fun p hp => ?_,
        fun v hv => ?_⟩
      · have hne : index p ≠ index vpn := fun heq => hnotin (heq ▸ List.mem_map_of_mem hp)
        exact (hmap p hne).trans (hnone p (List.mem_cons_of_mem _ hp))
      · have hne : index v ≠ index vpn := fun heq =>
          hv (heq ▸ List.mem_map_of_mem (hsub List.mem_cons_self))
        exact (hmap v hne).trans (hsame v hv)
  · intro vpn h
    cases h

/-- Regions with pages of their own are mapped one after the other. -/
theorem map_mmio_fresh {mapped_region : MemRegion}
    (honce : ((mapped mapped_region mmio).flatMap fun x => x.pages.map index).Nodup)
    (hfresh : ∀ x ∈ mapped mapped_region mmio, ∀ p ∈ x.pages, pt.find_pte p = none) :
    Meets (map_mmio mapped_region mmio (pt, ph)) Other fun _ => True := by
  rw [mapped] at honce hfresh
  rw [map_mmio]
  refine (Meets.foldlM (E := Other) (I := fun rest s =>
    ((rest.filter fun x => ¬ x.contains mapped_region).flatMap fun x =>
      x.pages.map index).Nodup ∧
    ∀ x ∈ rest.filter fun x => ¬ x.contains mapped_region, ∀ p ∈ x.pages,
      s.1.find_pte p = none) ?_ (prune mmio) (pt, ph) ⟨honce, hfresh⟩).mono fun _ _ => trivial
  rintro x rest ⟨pt', ph'⟩ ⟨honce, hfresh⟩
  split
  · next hskip =>
    rw [List.filter_cons_of_neg (by simpa using hskip)] at honce hfresh
    exact ⟨honce, hfresh⟩
  · next hmap =>
    rw [List.filter_cons_of_pos (by simpa using hmap)] at honce hfresh
    rw [List.flatMap_cons, List.nodup_append] at honce
    obtain ⟨hslots, honce, hdisjoint⟩ := honce
    refine (map_region_fresh hslots (hfresh x List.mem_cons_self)).mono fun s hs => ⟨honce, ?_⟩
    intro y hy p hp
    have hnotin : index p ∉ x.pages.map index := fun hmem =>
      hdisjoint _ hmem _ (List.mem_flatMap.mpr ⟨y, hy, List.mem_map_of_mem hp⟩) rfl
    exact (hs p hnotin).trans (hfresh y (List.mem_cons_of_mem _ hy) p hp)

end Mapping

/-- Pruning leaves the page of each region to exactly one region that is mapped, if the
regions can be told apart by their pages. -/
theorem mapsOnce_iff {page_table : PageTable} {mapped_region : MemRegion} :
    MapsOnce page_table mapped_region mmio ↔ Separable page_table mapped_region mmio := by
  constructor
  · intro h
    have honce := List.nodup_flatMap.mp h.once
    refine ⟨fun r hr _ p hp => ?_, fun x y hx hy hx' hy' hne p hp q hq heq => ?_,
      fun x hx hx' => honce.1 x (mem_mapped_iff.mpr ⟨hx, hx'⟩),
      fun x hx hx' => h.fresh x (mem_mapped_iff.mpr ⟨hx, hx'⟩)⟩
    · obtain ⟨x, hx, hpx⟩ := h.covers r hr p hp
      exact ⟨x, mem_prune_iff.mp hx, hpx⟩
    · have hsymm : Std.Symm (Function.onFun List.Disjoint fun x : MemRegion => x.pages.map index) :=
        ⟨fun _ _ h => h.symm⟩
      exact honce.2.forall (mem_mapped_iff.mpr ⟨hx, hx'⟩) (mem_mapped_iff.mpr ⟨hy, hy'⟩) hne
        (List.mem_map_of_mem hp) (heq ▸ List.mem_map_of_mem hq)
  · intro h
    have honce : ((mapped mapped_region mmio).flatMap fun x => x.pages.map index).Nodup := by
      refine List.nodup_flatMap.mpr ⟨fun x hx => ?_, ?_⟩
      · obtain ⟨hstays, hmap⟩ := mem_mapped_iff.mp hx
        exact h.slots x hstays hmap
      · refine ((nodup_prune mmio).filter _).pairwise_of_forall_ne fun x hx y hy hne => ?_
        obtain ⟨hx, hx'⟩ := mem_mapped_iff.mp hx
        obtain ⟨hy, hy'⟩ := mem_mapped_iff.mp hy
        intro i hi hi'
        obtain ⟨p, hp, rfl⟩ := List.mem_map.mp hi
        obtain ⟨q, hq, heq⟩ := List.mem_map.mp hi'
        exact h.apart x y hx hy hx' hy' hne p hp q hq heq.symm
    have hfresh : ∀ x ∈ mapped mapped_region mmio, ∀ p ∈ x.pages,
        page_table.find_pte p = none := by
      intro x hx
      obtain ⟨hstays, hmap⟩ := mem_mapped_iff.mp hx
      exact h.fresh x hstays hmap
    refine ⟨fun r hr p hp => ?_, honce, hfresh, fun ph e he =>
      (map_mmio_fresh honce hfresh).error he⟩
    obtain ⟨x, hx, hpx⟩ := covers_of_risk h.risk hr p hp
    exact ⟨x, mem_prune_iff.mpr hx, hpx⟩

/-- A table that maps no page. -/
def empty_table : PageTable where
  root_ppn := 0
  frames := []
  dir := fun _ => none
  tab := fun _ => none
  entry := fun _ => {}

/-- A region that two nodes of the device tree name is not mapped at all. -/
theorem not_mapsOnce_twin : ¬∀ mmio : List MemRegion,
    MapsOnce empty_table ⟨0x80200000, 0x8fe00000⟩ mmio := by
  intro h
  have hcovers := (h [⟨0x3000000, 0x3001000⟩, ⟨0x3000000, 0x3001000⟩]).covers
    ⟨0x3000000, 0x3001000⟩ (by decide) 0x3000 (mem_pages.mpr (by decide))
  obtain ⟨x, hx, -⟩ := hcovers
  obtain ⟨hmem, halone, -⟩ := mem_prune_iff.mp hx
  rcases List.mem_pair.mp hmem with rfl | rfl
  · exact absurd halone (by decide)
  · exact absurd halone (by decide)

end MemRegion

end MyGOS.Mm
