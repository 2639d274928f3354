import MyGOS.Fat32.Append

/-!
# Where blank clusters are found

A recycled cluster is taken first, then the scan goes up from the cluster that was
taken last, and it does not stop at the end of the FAT. So an allocation needs
blank clusters above that one; those below it do not help.
-/

namespace MyGOS.Fat32

open Outcome

namespace FileSystem

section Defs

/-- The entries that the loops of `find_blank_cluster` test. -/
def scan_reads (fs : FileSystem) : (fuel cluster : Nat) → List Nat
  | 0, _ => []
  | fuel + 1, cluster =>
    cluster :: match fs.fat_entry cluster with
      | .error _ => []
      | .ok v => if v = FREE_CLUSTER then [] else scan_reads fs fuel (cluster + 1)

def blank_reads (fs : FileSystem) (start_from : Nat) : List Nat :=
  if fs.recycled_cluster = [] then fs.scan_reads WALK_LIMIT ((start_from + 1) % 2 ^ 32) else []

/-- The entries that the loop of `alloc_cluster_chain` tests. -/
def append_reads : (num : Nat) → FileSystem → (curr_cluster_id : Nat) → List Nat
  | 0, _, _ => []
  | num + 1, fs, curr_cluster_id =>
    fs.blank_reads curr_cluster_id ++
      match fs.take_cluster curr_cluster_id with
      | .error _ => []
      | .ok (cluster_id, fs) =>
        match fs.set_next_cluster curr_cluster_id cluster_id with
        | .error _ => []
        | .ok fs => append_reads num fs cluster_id

/-- The entries that `alloc_cluster_chain` tests. -/
def alloc_reads (fs : FileSystem) (num start_cluster : Nat) : List Nat :=
  if fs.free_cluster_cnt < num then []
  else fs.blank_reads start_cluster ++
    match fs.take_cluster start_cluster with
    | .error _ => []
    | .ok (first_cluster_id, fs) => append_reads (num - 1) fs first_cluster_id

/-- The allocation returns a chain of clusters of the volume that were free, and it tests no
entry behind those of the clusters. -/
def AllocsOnVolume (fs : FileSystem) (num start_cluster : Nat) : Prop :=
  (∃ first clusters, ∃ fs' : FileSystem,
    fs.alloc_cluster_chain num start_cluster = .ok (some first, fs') ∧
    clusters.head? = some first ∧ clusters.length = num ∧ clusters.Nodup ∧
    Linked fs'.next (END_OF_CLUSTER ≤ ·) clusters ∧
    ∀ c ∈ clusters, fs.bpb.InData c ∧ fs.next c = FREE_CLUSTER) ∧
  ∀ c ∈ fs.alloc_reads num start_cluster, c < fs.bpb.data_cluster_cnt + 2

end Defs

end FileSystem

namespace Disk

variable {d : Disk} {bpb : BIOSParameterBlock} {limit start curr c : Nat} {recycled : List Nat}

/-- The clusters that an allocation can take, if the scan starts at `start`. -/
def blanks (d : Disk) (limit : Nat) (recycled : List Nat) (start : Nat) : Finset Nat :=
  d.reachable limit recycled (recycled.getLastD start)

theorem mem_reachable : c ∈ d.reachable limit recycled start ↔
    c ∈ recycled ∨ (start < c ∧ c < limit) ∧ d.next c = FREE_CLUSTER := by
  simp only [reachable, Finset.mem_union, List.mem_toFinset, Finset.mem_filter, Finset.mem_Ioo]

theorem pick_nil : d.pick limit [] start = some c ↔
    ((start < c ∧ c < limit) ∧ d.next c = FREE_CLUSTER) ∧
      ∀ x, start < x → x < c → d.next x ≠ FREE_CLUSTER := by
  rw [pick, List.find?_range'_eq_some, List.mem_range'_1]
  simp only [decide_eq_true_eq, Bool.not_eq_true', decide_eq_false_iff_not]
  constructor
  · rintro ⟨hfree, hmem, hmin⟩
    exact ⟨⟨by omega, hfree⟩, fun x hx => hmin x hx⟩
  · rintro ⟨⟨hmem, hfree⟩, hmin⟩
    exact ⟨hfree, by omega, fun x hx => hmin x hx⟩

/-- What is taken is the first of them. -/
theorem blanks_of_pick (hpick : d.pick limit recycled start = some c) :
    d.blanks limit recycled start = insert c ((d.blanks limit recycled.tail c).erase c) := by
  cases recycled with
  | cons r recycled =>
    cases hpick
    ext x
    rw [blanks, blanks, List.getLastD_cons, List.tail_cons, Finset.mem_insert, Finset.mem_erase,
      mem_reachable, mem_reachable, List.mem_cons]
    tauto
  | nil =>
    obtain ⟨⟨hc, hfree⟩, hmin⟩ := pick_nil.mp hpick
    ext x
    simp only [blanks, List.getLastD_nil, List.tail_nil, Finset.mem_insert, Finset.mem_erase,
      mem_reachable, List.not_mem_nil, false_or]
    constructor
    · rintro ⟨hx, hxfree⟩
      by_cases heq : x = c
      · exact .inl heq
      · refine .inr ⟨heq, ⟨?_, hx.2⟩, hxfree⟩
        by_contra hle
        exact hmin x hx.1 (by omega) hxfree
    · rintro (rfl | ⟨-, hx, hxfree⟩)
      · exact ⟨hc, hfree⟩
      · exact ⟨⟨by omega, hx.2⟩, hxfree⟩

theorem blanks_of_pick_none (hpick : d.pick limit recycled start = none) :
    d.blanks limit recycled start = ∅ := by
  cases recycled with
  | cons r recycled => cases hpick
  | nil =>
    rw [Finset.eq_empty_iff_forall_notMem]
    intro x hx
    obtain ⟨hx, hfree⟩ := (mem_reachable.mp hx).resolve_left List.not_mem_nil
    rw [List.getLastD_nil] at hx
    have hnone := List.find?_eq_none.mp hpick x (List.mem_range'_1.mpr (by omega))
    exact hnone (decide_eq_true hfree)

/-- A cluster that is linked is not free any more. -/
theorem blanks_link (hc : 2 ≤ c) (hcurr : curr ∉ recycled) :
    (d.link curr c).blanks limit recycled start = (d.blanks limit recycled start).erase curr := by
  ext x
  rw [blanks, blanks, Finset.mem_erase, mem_reachable, mem_reachable]
  by_cases heq : x = curr
  · subst heq
    have hne : (d.link x c).next x ≠ FREE_CLUSTER := by
      rw [link, set_next_next_self]
      unfold FREE_CLUSTER
      omega
    simp only [hcurr, hne, and_false, or_self, ne_eq, not_true_eq_false, false_and]
  · rw [link_next_of_ne heq]
    simp only [ne_eq, heq, not_false_eq_true, true_and]

/-- The clusters after a first one are found if there are enough others. -/
theorem picks_isSome_iff {num : Nat} (hrec : d.Recycled bpb recycled) (hres : d.Reserved)
    (hcurr : 2 ≤ curr) (hnot : curr ∉ recycled) :
    (d.picks (bpb.data_cluster_cnt + 2) num recycled curr).isSome ↔
      num ≤ ((d.blanks (bpb.data_cluster_cnt + 2) recycled curr).erase curr).card := by
  induction num generalizing d recycled curr with
  | zero => exact iff_of_true rfl (Nat.zero_le _)
  | succ num ih =>
    rw [picks]
    cases hpick : d.pick (bpb.data_cluster_cnt + 2) recycled curr with
    | none =>
      rw [blanks_of_pick_none hpick]
      exact iff_of_false Bool.false_ne_true (Nat.not_succ_le_zero num)
    | some c =>
      obtain ⟨hc, -, htail⟩ := pick_free hrec hres hpick
      have hne := pick_ne hnot hpick
      have hnot' : curr ∉ recycled.tail := fun h => hnot (List.mem_of_mem_tail h)
      have hnotMem : c ∉ ((d.blanks (bpb.data_cluster_cnt + 2) recycled.tail c).erase c).erase curr :=
        fun hmem => Finset.notMem_erase c _ (Finset.mem_of_mem_erase hmem)
      rw [Option.bind_some, Option.isSome_map,
        ih (hrec.tail.link hnot') (hres.set_next hcurr c) hc.1 htail, blanks_link hc.1 hnot',
        blanks_of_pick hpick, Finset.erase_insert_of_ne hne, Finset.erase_right_comm,
        Finset.card_insert_of_notMem hnotMem, Nat.add_le_add_iff_right]

theorem allocs_isSome_iff {num : Nat} (hrec : d.Recycled bpb recycled) (hres : d.Reserved)
    (hnum : 0 < num) : (d.allocs (bpb.data_cluster_cnt + 2) num recycled start).isSome ↔
      num ≤ (d.blanks (bpb.data_cluster_cnt + 2) recycled start).card := by
  obtain ⟨num, rfl⟩ := Nat.exists_eq_add_of_le' hnum
  rw [allocs, Nat.add_sub_cancel]
  cases hpick : d.pick (bpb.data_cluster_cnt + 2) recycled start with
  | none =>
    rw [blanks_of_pick_none hpick]
    exact iff_of_false Bool.false_ne_true (Nat.not_succ_le_zero num)
  | some c =>
    obtain ⟨hc, -, htail⟩ := pick_free hrec hres hpick
    rw [Option.bind_some, Option.isSome_map, blanks_of_pick hpick,
      Finset.card_insert_of_notMem (Finset.notMem_erase _ _), Nat.add_le_add_iff_right]
    exact @picks_isSome_iff (d.clear_cluster c) _ _ _ _ ⟨hrec.tail.data, hrec.tail.free,
      hrec.tail.nodup⟩ hres hc.1 htail

end Disk

namespace FileSystem

variable {fs : FileSystem} {d : Disk} (L : fs.bpb.Layout) (hs : fs.Shows d) {start_from c : Nat}

section Reads

include L hs

/-- The scan that finds a cluster tests the entries up to it. -/
theorem scan_reads_lt {fuel start n : Nat} (hn : fs.bpb.data_cluster_cnt + 2 - start = n)
    (hfind : (List.range' start n).find? (fun c => d.next c = FREE_CLUSTER) = some c) :
    ∀ x ∈ fs.scan_reads fuel start, x < fs.bpb.data_cluster_cnt + 2 := by
  induction fuel generalizing start n with
  | zero => exact fun _ hx => absurd hx List.not_mem_nil
  | succ fuel ih =>
    cases n with
    | zero => cases hfind
    | succ n =>
      have hlt : start < fs.bpb.data_cluster_cnt + 2 := by omega
      rw [scan_reads, fat_entry_eq L hs hlt]
      refine List.forall_mem_cons.mpr ⟨hlt, ?_⟩
      rw [List.range'_succ, List.find?_cons] at hfind
      simp only
      split
      · exact fun _ hx => absurd hx List.not_mem_nil
      · next hne =>
        simp only [hne, decide_false] at hfind
        exact ih (by omega) hfind

/-- The scan that finds nothing goes on behind the entries of the clusters. -/
theorem scan_reads_end {fuel start n : Nat} (hn : fs.bpb.data_cluster_cnt + 2 - start = n)
    (hfuel : n < fuel)
    (hfind : (List.range' start n).find? (fun c => d.next c = FREE_CLUSTER) = none) :
    ∃ x ∈ fs.scan_reads fuel start, fs.bpb.data_cluster_cnt + 2 ≤ x := by
  induction fuel generalizing start n with
  | zero => exact absurd hfuel (Nat.not_lt_zero _)
  | succ fuel ih =>
    rw [scan_reads]
    cases n with
    | zero => exact ⟨start, List.mem_cons_self, Nat.sub_eq_zero_iff_le.mp hn⟩
    | succ n =>
      rw [List.range'_succ, List.find?_cons] at hfind
      rw [fat_entry_eq L hs (by omega)]
      by_cases hfree : d.next start = FREE_CLUSTER
      · simp only [hfree, decide_true, reduceCtorEq] at hfind
      · simp only [hfree, decide_false] at hfind
        simp only [if_neg hfree]
        obtain ⟨x, hx, hle⟩ := ih (by omega) (Nat.lt_of_succ_lt_succ hfuel) hfind
        exact ⟨x, List.mem_cons_of_mem _ hx, hle⟩

omit L hs in
theorem find?_range_hint (hres : d.Reserved) : (List.range' ((start_from + 1) % 2 ^ 32)
      (fs.bpb.data_cluster_cnt + 2 - (start_from + 1) % 2 ^ 32)).find?
        (fun c => d.next c = FREE_CLUSTER) =
    d.pick (fs.bpb.data_cluster_cnt + 2) [] (Disk.hint start_from) := by
  obtain hzero | hpos := Nat.eq_zero_or_pos ((start_from + 1) % 2 ^ 32)
  · have hfree : ¬ d.next 0 = FREE_CLUSTER := hres.1
    rw [Disk.pick, Disk.hint, hzero, Nat.sub_zero, List.range'_succ, List.find?_cons]
    simp only [hfree, decide_false]
    rfl
  · rw [Disk.pick, Disk.hint, Nat.sub_add_cancel hpos]

theorem blank_reads_lt_iff (hres : d.Reserved) :
    (∀ x ∈ fs.blank_reads start_from, x < fs.bpb.data_cluster_cnt + 2) ↔
      (d.pick (fs.bpb.data_cluster_cnt + 2) fs.recycled_cluster (Disk.hint start_from)).isSome := by
  rw [blank_reads]
  cases hr : fs.recycled_cluster with
  | cons r recycled =>
    rw [if_neg (List.cons_ne_nil _ _)]
    exact iff_of_true (fun _ hx => absurd hx List.not_mem_nil) rfl
  | nil =>
    have hfind := @find?_range_hint fs d start_from hres
    rw [if_pos rfl, ← hfind]
    cases hsome : (List.range' ((start_from + 1) % 2 ^ 32) (fs.bpb.data_cluster_cnt + 2 -
        (start_from + 1) % 2 ^ 32)).find? (fun c => d.next c = FREE_CLUSTER) with
    | some c => exact iff_of_true (scan_reads_lt L hs rfl hsome) rfl
    | none =>
      have hlt := L.cluster_lt
      have hend : END_OF_CLUSTER < WALK_LIMIT := by decide
      obtain ⟨x, hx, hle⟩ := scan_reads_end L hs rfl (by omega : _ < WALK_LIMIT) hsome
      exact iff_of_false (fun hall => absurd (hall x hx) (not_lt.mpr hle)) Bool.false_ne_true

theorem append_reads_lt_iff {num curr : Nat} (hrec : d.Recycled fs.bpb fs.recycled_cluster)
    (hres : d.Reserved) (hcurr : fs.bpb.InData curr) (hnot : curr ∉ fs.recycled_cluster) :
    (∀ x ∈ append_reads num fs curr, x < fs.bpb.data_cluster_cnt + 2) ↔
      (d.picks (fs.bpb.data_cluster_cnt + 2) num fs.recycled_cluster curr).isSome := by
  induction num generalizing fs d curr with
  | zero => exact iff_of_true (fun _ hx => absurd hx List.not_mem_nil) rfl
  | succ num ih =>
    have hhint : Disk.hint curr = curr := Disk.hint_of_lt (by
      have hlt := hcurr.2
      have hle := L.cluster_lt
      unfold END_OF_CLUSTER at hle
      omega)
    have hblank := @blank_reads_lt_iff fs d L hs curr hres
    rw [hhint] at hblank
    rw [append_reads, List.forall_mem_append, hblank, Disk.picks]
    cases hpick : d.pick (fs.bpb.data_cluster_cnt + 2) fs.recycled_cluster curr with
    | none => exact iff_of_false (fun h => Bool.false_ne_true h.1) Bool.false_ne_true
    | some c =>
      obtain ⟨hc, _, hctail⟩ := Disk.pick_free hrec hres hpick
      obtain ⟨device, htake, hshows⟩ := take_cluster_eq L hs hrec hres (hhint.symm ▸ hpick)
      have hlt : c < 2 ^ 32 := (hc.2.trans_le L.cluster_lt).trans (by decide)
      obtain ⟨device', hset, hshows'⟩ := @set_next_cluster_eq
        { fs with device := device, recycled_cluster := fs.recycled_cluster.tail } _ L hshows
        _ hcurr.2 _ hlt
      have hrest := @ih
        { fs with device := device', recycled_cluster := fs.recycled_cluster.tail } _ L hshows' _
        (hrec.tail.link fun h => hnot (List.mem_of_mem_tail h)) (hres.set_next hcurr.1 c) hc hctail
      rw [htake]
      simp only [hset, Option.isSome_some, true_and, Option.bind_some, Option.isSome_map]
      exact hrest

theorem alloc_reads_lt_iff {num start : Nat} (hrec : d.Recycled fs.bpb fs.recycled_cluster)
    (hres : d.Reserved) (hcnt : num ≤ fs.free_cluster_cnt) :
    (∀ x ∈ fs.alloc_reads num start, x < fs.bpb.data_cluster_cnt + 2) ↔
      (d.allocs (fs.bpb.data_cluster_cnt + 2) num fs.recycled_cluster (Disk.hint start)).isSome := by
  rw [alloc_reads, if_neg (not_lt.mpr hcnt), List.forall_mem_append,
    blank_reads_lt_iff L hs hres, Disk.allocs]
  cases hpick : d.pick (fs.bpb.data_cluster_cnt + 2) fs.recycled_cluster (Disk.hint start) with
  | none => exact iff_of_false (fun h => Bool.false_ne_true h.1) Bool.false_ne_true
  | some c =>
    obtain ⟨hc, _, hctail⟩ := Disk.pick_free hrec hres hpick
    obtain ⟨device, htake, hshows⟩ := take_cluster_eq L hs hrec hres hpick
    rw [htake]
    simp only [Option.isSome_some, true_and, Option.bind_some, Option.isSome_map]
    exact @append_reads_lt_iff
      { fs with device := device, recycled_cluster := fs.recycled_cluster.tail } _ L hshows _ _
      ⟨hrec.tail.data, hrec.tail.free, hrec.tail.nodup⟩ hres hc hctail

end Reads

theorem next_eq_of_shows (L : fs.bpb.Layout) (hs : fs.Shows d)
    (hc : c < fs.bpb.data_cluster_cnt + 2) : fs.next c = d.next c := by
  have hentry := @fat_entry_of_dvd fs (L.byts_per_sec ▸ Nat.dvd_refl _) c
  rw [fat_entry_eq L hs hc] at hentry
  exact (Except.ok.inj hentry).symm

/-- An allocation stays on the volume if and only if the clusters it can take are enough, and it
is asked for one at least. -/
theorem allocs_on_volume_iff (h : Ready fs d) {num start : Nat} (hcnt : num ≤ fs.free_cluster_cnt) :
    fs.AllocsOnVolume num start ↔ 0 < num ∧
      num ≤ (d.blanks (fs.bpb.data_cluster_cnt + 2) fs.recycled_cluster (Disk.hint start)).card := by
  have hreads := @alloc_reads_lt_iff fs d h.layout h.shows_disk num start h.recycled h.reserved hcnt
  constructor
  · rintro ⟨⟨first, clusters, -, -, hhead, hlen, -⟩, hlt⟩
    have hnum : 0 < num := by
      rw [← hlen, List.length_pos_iff]
      rintro rfl
      cases hhead
    exact ⟨hnum, (Disk.allocs_isSome_iff h.recycled h.reserved hnum).mp (hreads.mp hlt)⟩
  · rintro ⟨hnum, hle⟩
    have hsome := (Disk.allocs_isSome_iff h.recycled h.reserved hnum).mpr hle
    obtain ⟨clusters, hallocs⟩ := Option.isSome_iff_exists.mp hsome
    obtain ⟨c, rest, device, d', rfl, hlen, halloc, hshows, hall⟩ :=
      alloc_cluster_chain_eq h.layout h.shows_disk h.recycled h.reserved hnum hcnt hallocs
    refine ⟨⟨c, c :: rest, _, halloc, rfl, hlen, hall.chain.nodup, ?_, ?_⟩, hreads.mpr hsome⟩
    · exact hall.chain.congr fun x hx => @next_eq_of_shows
        { fs with device := device } d' x h.layout hshows (hall.data x hx).2
    · intro x hx
      exact ⟨hall.data x hx,
        (next_eq_of_shows h.layout h.shows_disk (hall.data x hx).2).trans (hall.free x hx)⟩

theorem allocs_on_volume_iff_floppy : empty_file.AllocsOnVolume 2 2 :=
  (allocs_on_volume_iff empty_file_owned.sees.toReady (by decide)).mpr
    ⟨by decide, by decide +kernel⟩

/-- All free clusters have numbers up to the hint, and the cluster behind the volume is
returned. -/
theorem alloc_behind_volume : empty_file.Ready empty_file.disk ∧
    empty_file.free_cluster_cnt = ((Finset.Ico 2 (empty_file.bpb.data_cluster_cnt + 2)).filter
      fun c => empty_file.next c = FREE_CLUSTER).card ∧
    empty_file.bpb.data_cluster_cnt + 2 = 15 ∧
    Prod.fst <$> empty_file.alloc_cluster_chain 1 14 = .ok (some 15) ∧
    ¬ empty_file.AllocsOnVolume 1 14 := by
  refine ⟨empty_file_owned.sees.toReady, by decide +kernel, by decide +kernel, by decide +kernel, ?_⟩
  rintro ⟨-, hlt⟩
  exact absurd (hlt 15 (by decide +kernel)) (by decide +kernel)

end FileSystem

end MyGOS.Fat32
