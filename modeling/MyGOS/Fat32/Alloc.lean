import MyGOS.Fat32.Table

/-!
# Allocation

The allocator takes clusters from the recycled ones first, then the next free one
in the FAT. As long as it stays on the volume, it makes a new chain of clusters
that were free, and fills them with zeros.
-/

namespace MyGOS.Fat32

open Outcome

namespace Disk

/-- The cluster that the allocator takes, if it finds one on the volume. -/
def pick (d : Disk) (limit : Nat) (recycled : List Nat) (start_from : Nat) : Option Nat :=
  match recycled with
  | c :: _ => some c
  | [] => (List.range' (start_from + 1) (limit - (start_from + 1))).find? fun c => d.next c = FREE_CLUSTER

/-- The hint whose successor is where the scan starts; the first entry of a FAT is never free. -/
def hint (start_from : Nat) : Nat := (start_from + 1) % 2 ^ 32 - 1

/-- A cluster is cleared and linked to the one before it. -/
def link (d : Disk) (curr c : Nat) : Disk := (d.clear_cluster c).set_next curr c

/-- The clusters that are taken after a first one. -/
def picks (limit : Nat) : (num : Nat) → Disk → (recycled : List Nat) → (curr : Nat) →
    Option (List Nat)
  | 0, _, _, _ => some []
  | num + 1, d, recycled, curr =>
    (d.pick limit recycled curr).bind fun c =>
      (picks limit num (d.link curr c) recycled.tail c).map (c :: ·)

/-- The disk with clusters linked after `curr`. -/
def links (d : Disk) (curr : Nat) : List Nat → Disk
  | [] => d
  | c :: cs => links (d.link curr c) c cs

/-- The disk with clusters that are free again. -/
def frees (d : Disk) (clusters : List Nat) : Disk :=
  clusters.foldl (fun d c => d.set_next c FREE_CLUSTER) d

/-- The clusters of a new chain. -/
def allocs (d : Disk) (limit num : Nat) (recycled : List Nat) (start : Nat) : Option (List Nat) :=
  (d.pick limit recycled start).bind fun c =>
    (picks limit (num - 1) (d.clear_cluster c) recycled.tail c).map (c :: ·)

/-- The recycled clusters are free, and none of them is there twice. -/
structure Recycled (d : Disk) (bpb : BIOSParameterBlock) (recycled : List Nat) : Prop where
  data : ∀ c ∈ recycled, bpb.InData c
  free : ∀ c ∈ recycled, d.next c = FREE_CLUSTER
  nodup : recycled.Nodup

/-- The first entries of the FAT are not those of clusters. -/
def Reserved (d : Disk) : Prop := d.next 0 ≠ 0 ∧ d.next 1 ≠ 0

end Disk

namespace BlockDevice.Shows

variable {bpb : BIOSParameterBlock} {device : BlockDevice} {d d' : Disk}

theorem congr (hs : device.Shows bpb d) (hnext : ∀ c < bpb.data_cluster_cnt + 2, d'.next c = d.next c)
    (hdata : ∀ c, bpb.InData c → ∀ i < bpb.cluster_size, d'.data c i = d.data c i) :
    device.Shows bpb d' where
  next c hc := (hs.next c hc).trans (hnext c hc).symm
  data c hc i hi := (hs.data c hc i hi).trans (hdata c hc i hi).symm

end BlockDevice.Shows

namespace Disk

variable {d : Disk} {bpb : BIOSParameterBlock} {start c : Nat} {recycled : List Nat}

/-- What the allocator takes is free, and it takes it once. -/
theorem pick_free (hrec : d.Recycled bpb recycled) (hres : d.Reserved)
    (hpick : d.pick (bpb.data_cluster_cnt + 2) recycled start = some c) :
    bpb.InData c ∧ d.next c = FREE_CLUSTER ∧ c ∉ recycled.tail := by
  cases recycled with
  | cons r recycled =>
    cases hpick
    exact ⟨hrec.data c List.mem_cons_self, hrec.free c List.mem_cons_self,
      (List.nodup_cons.mp hrec.nodup).1⟩
  | nil =>
    have hfind : (List.range' (start + 1) (bpb.data_cluster_cnt + 2 - (start + 1))).find?
        (fun c => d.next c = FREE_CLUSTER) = some c := hpick
    have hfree : d.next c = FREE_CLUSTER := by simpa using List.find?_some hfind
    have hmem := List.mem_range'_1.mp (List.mem_of_find?_eq_some hfind)
    have h0 : c ≠ 0 := by omega
    have h1 : c ≠ 1 := by
      rintro rfl
      exact hres.2 hfree
    exact ⟨⟨by omega, by omega⟩, hfree, List.not_mem_nil⟩

theorem Recycled.tail (hrec : d.Recycled bpb recycled) : d.Recycled bpb recycled.tail where
  data c hc := hrec.data c (List.mem_of_mem_tail hc)
  free c hc := hrec.free c (List.mem_of_mem_tail hc)
  nodup := hrec.nodup.tail

/-- Only the recycled entries matter. -/
theorem Recycled.congr (hrec : d.Recycled bpb recycled) {d' : Disk}
    (h : ∀ c ∈ recycled, d'.next c = d.next c) : d'.Recycled bpb recycled where
  data := hrec.data
  free c hc := (h c hc).trans (hrec.free c hc)
  nodup := hrec.nodup

theorem Reserved.set_next (hres : d.Reserved) (hc : 2 ≤ c) (v : Nat) :
    (d.set_next c v).Reserved := by
  constructor
  · rw [set_next_next_of_ne _ _ (by omega)]
    exact hres.1
  · rw [set_next_next_of_ne _ _ (by omega)]
    exact hres.2

theorem pick_ne (hc : start ∉ recycled)
    (hpick : d.pick (bpb.data_cluster_cnt + 2) recycled start = some c) : c ≠ start := by
  cases recycled with
  | cons r recycled =>
    cases hpick
    exact fun h => hc (h ▸ List.mem_cons_self)
  | nil =>
    have hfind : (List.range' (start + 1) (bpb.data_cluster_cnt + 2 - (start + 1))).find?
        (fun c => d.next c = FREE_CLUSTER) = some c := hpick
    have hmem := List.mem_range'_1.mp (List.mem_of_find?_eq_some hfind)
    omega

theorem hint_of_lt {start : Nat} (h : start + 1 < 2 ^ 32) : hint start = start := by
  rw [hint, Nat.mod_eq_of_lt h, Nat.add_sub_cancel]

theorem pick_hint {limit : Nat} (hlimit : limit ≤ 2 ^ 32)
    (hpick : d.pick limit recycled start = some c) :
    d.pick limit recycled (hint start) = some c := by
  cases recycled with
  | cons r recycled => exact hpick
  | nil =>
    have hfind : (List.range' (start + 1) (limit - (start + 1))).find?
        (fun c => d.next c = FREE_CLUSTER) = some c := hpick
    have hmem := List.mem_range'_1.mp (List.mem_of_find?_eq_some hfind)
    rw [hint_of_lt (by omega)]
    exact hpick

theorem link_next_of_ne {curr x : Nat} (h : x ≠ curr) : (d.link curr c).next x = d.next x := by
  rw [link, set_next_next_of_ne _ _ h, clear_cluster_next]

theorem link_data_of_ne {curr x : Nat} (h : x ≠ c) : (d.link curr c).data x = d.data x := by
  rw [link, set_next_data, clear_cluster_data_of_ne _ _ h]

theorem Recycled.link (hrec : d.Recycled bpb recycled) {curr : Nat} (hcurr : curr ∉ recycled) :
    (d.link curr c).Recycled bpb recycled :=
  hrec.congr fun _ hr => link_next_of_ne fun h => hcurr (h ▸ hr)

theorem frees_data (d : Disk) (clusters : List Nat) : (d.frees clusters).data = d.data := by
  induction clusters generalizing d with
  | nil => rfl
  | cons c clusters ih => exact ih (d.set_next c FREE_CLUSTER)

theorem frees_next_of_notMem {clusters : List Nat} (hc : c ∉ clusters) :
    (d.frees clusters).next c = d.next c := by
  induction clusters generalizing d with
  | nil => rfl
  | cons c' clusters ih =>
    rw [List.mem_cons, not_or] at hc
    exact (ih hc.2).trans (set_next_next_of_ne _ _ hc.1 _)

theorem frees_next_of_mem {clusters : List Nat} (hc : c ∈ clusters) :
    (d.frees clusters).next c = FREE_CLUSTER := by
  induction clusters generalizing d with
  | nil => exact absurd hc List.not_mem_nil
  | cons c' clusters ih =>
    by_cases hmem : c ∈ clusters
    · exact ih hmem
    · obtain rfl : c = c' := (List.mem_cons.mp hc).resolve_right hmem
      exact (frees_next_of_notMem hmem).trans (set_next_next_self ..)

theorem Recycled.frees (hrec : d.Recycled bpb recycled) {clusters : List Nat}
    (hdata : ∀ c ∈ clusters, bpb.InData c) (hnodup : clusters.Nodup)
    (hused : ∀ c ∈ clusters, d.next c ≠ FREE_CLUSTER) :
    (d.frees clusters).Recycled bpb (recycled ++ clusters) where
  data := List.forall_mem_append.mpr ⟨hrec.data, hdata⟩
  free := by
    refine List.forall_mem_append.mpr ⟨fun c hc => ?_, fun c hc => frees_next_of_mem hc⟩
    exact (frees_next_of_notMem fun hmem => hused c hmem (hrec.free c hc)).trans (hrec.free c hc)
  nodup := List.nodup_append.mpr ⟨hrec.nodup, hnodup, by
    rintro c hc _ hc' rfl
    exact hused c hc' (hrec.free c hc)⟩

/-- What a new chain of clusters is. -/
structure Allocated (bpb : BIOSParameterBlock) (d d' : Disk) (clusters : List Nat) : Prop where
  chain : d'.Chain clusters
  data : ∀ c ∈ clusters, bpb.InData c
  free : ∀ c ∈ clusters, d.next c = FREE_CLUSTER
  next_of_notMem : ∀ c, c ∉ clusters → d'.next c = d.next c
  data_of_notMem : ∀ c, c ∉ clusters → d'.data c = d.data c
  zero : ∀ c ∈ clusters, ∀ i, d'.data c i = 0

/-- The clusters that are linked after a cleared one make a chain with it. -/
theorem picks_allocated {num curr : Nat} {clusters : List Nat} (L : bpb.Layout)
    (hrec : d.Recycled bpb recycled) (hres : d.Reserved) (hcurr : bpb.InData curr)
    (hnot : curr ∉ recycled) (hfree : d.next curr = FREE_CLUSTER)
    (hzero : ∀ i, d.data curr i = 0)
    (hpicks : d.picks (bpb.data_cluster_cnt + 2) num recycled curr = some clusters) :
    clusters.length = num ∧ Allocated bpb d
      ((d.links curr clusters).set_next (clusters.getLastD curr) END_OF_CLUSTER)
      (curr :: clusters) := by
  induction num generalizing d recycled curr clusters with
  | zero =>
    cases hpicks
    refine ⟨rfl, ?_, ?_, ?_, ?_, ?_, ?_⟩
    · exact (set_next_next_self ..).ge
    · simpa using hcurr
    · simpa using hfree
    · intro c hc
      exact set_next_next_of_ne _ _ (fun h => hc (List.mem_singleton.mpr h)) _
    · exact fun _ _ => rfl
    · exact List.forall_mem_cons.mpr ⟨hzero, fun _ h => absurd h List.not_mem_nil⟩
  | succ num ih =>
    obtain ⟨c, hpick, hrest⟩ := Option.bind_eq_some_iff.mp hpicks
    obtain ⟨rest, hrest', rfl⟩ := Option.map_eq_some_iff.mp hrest
    obtain ⟨hc, hcfree, hctail⟩ := pick_free hrec hres hpick
    have hne := pick_ne hnot hpick
    have hlinkfree : (d.link curr c).next c = FREE_CLUSTER := (link_next_of_ne hne).trans hcfree
    have hlinkzero : ∀ i, (d.link curr c).data c i = 0 := by
      intro i
      rw [link, set_next_data, clear_cluster_data_self]
    obtain ⟨hlen, hall⟩ := ih (hrec.tail.link fun h => hnot (List.mem_of_mem_tail h))
      (hres.set_next hcurr.1 c) hc hctail hlinkfree hlinkzero hrest'
    have hcurr_not : curr ∉ c :: rest := by
      intro hmem
      have hzero := hall.free curr hmem
      rw [link, set_next_next_self] at hzero
      have h2 := hc.1
      unfold FREE_CLUSTER at hzero
      omega
    have heq : (d.links curr (c :: rest)).set_next ((c :: rest).getLastD curr) END_OF_CLUSTER =
        ((d.link curr c).links c rest).set_next (rest.getLastD c) END_OF_CLUSTER := by
      rw [List.getLastD_cons]
      rfl
    rw [heq]
    refine ⟨by rw [List.length_cons, hlen], ?_, ?_, ?_, ?_, ?_, ?_⟩
    · refine ⟨?_, not_le.mpr (hc.2.trans_le L.cluster_lt), hall.chain⟩
      exact (hall.next_of_notMem curr hcurr_not).trans (set_next_next_self ..)
    · exact List.forall_mem_cons.mpr ⟨hcurr, hall.data⟩
    · refine List.forall_mem_cons.mpr ⟨hfree, fun x hx => ?_⟩
      have hxc : x ≠ curr := by
        rintro rfl
        exact hcurr_not hx
      rw [← link_next_of_ne (c := c) hxc]
      exact hall.free x hx
    · intro x hx
      rw [List.mem_cons, not_or] at hx
      exact (hall.next_of_notMem x hx.2).trans (link_next_of_ne hx.1)
    · intro x hx
      rw [List.mem_cons, not_or] at hx
      exact (hall.data_of_notMem x hx.2).trans
        (link_data_of_ne fun h => hx.2 (h ▸ List.mem_cons_self))
    · refine List.forall_mem_cons.mpr ⟨fun i => ?_, hall.zero⟩
      refine (congrFun (hall.data_of_notMem curr hcurr_not) i).trans ?_
      rw [link_data_of_ne (Ne.symm hne)]
      exact hzero i

/-- What is left of the recycled clusters was not taken. -/
theorem picks_drop {limit num curr : Nat} {clusters : List Nat} (hnodup : recycled.Nodup)
    (hpicks : d.picks limit num recycled curr = some clusters) :
    ∀ c ∈ recycled.drop num, c ∉ clusters := by
  induction num generalizing d recycled curr clusters with
  | zero =>
    cases hpicks
    exact fun _ _ => List.not_mem_nil
  | succ num ih =>
    obtain ⟨c, hpick, hrest⟩ := Option.bind_eq_some_iff.mp hpicks
    obtain ⟨rest, hrest', rfl⟩ := Option.map_eq_some_iff.mp hrest
    cases recycled with
    | nil => exact fun x hx => absurd hx List.not_mem_nil
    | cons r recycled =>
      cases hpick
      obtain ⟨hr, hnodup⟩ := List.nodup_cons.mp hnodup
      intro x hx
      rw [List.mem_cons, not_or]
      constructor
      · rintro rfl
        exact hr (List.mem_of_mem_drop hx)
      · exact ih hnodup hrest' x hx

theorem allocs_drop {limit num : Nat} {clusters : List Nat} (hnodup : recycled.Nodup)
    (hnum : 0 < num) (hallocs : d.allocs limit num recycled start = some clusters) :
    ∀ c ∈ recycled.drop num, c ∉ clusters := by
  obtain ⟨n, rfl⟩ := Nat.exists_eq_add_of_le' hnum
  obtain ⟨c, hpick, hrest⟩ := Option.bind_eq_some_iff.mp hallocs
  obtain ⟨rest, hrest', rfl⟩ := Option.map_eq_some_iff.mp hrest
  cases recycled with
  | nil => exact fun x hx => absurd hx List.not_mem_nil
  | cons r recycled =>
    cases hpick
    obtain ⟨hr, hnodup⟩ := List.nodup_cons.mp hnodup
    intro x hx
    rw [List.mem_cons, not_or]
    constructor
    · rintro rfl
      exact hr (List.mem_of_mem_drop hx)
    · exact picks_drop hnodup hrest' x hx

/-- The recycled clusters are taken first. -/
theorem picks_take {limit num curr : Nat} {clusters : List Nat}
    (hpicks : d.picks limit num recycled curr = some clusters) :
    ∀ c ∈ recycled.take num, c ∈ clusters := by
  induction num generalizing d recycled curr clusters with
  | zero => exact fun _ hc => absurd hc List.not_mem_nil
  | succ num ih =>
    obtain ⟨c, hpick, hrest⟩ := Option.bind_eq_some_iff.mp hpicks
    obtain ⟨rest, hrest', rfl⟩ := Option.map_eq_some_iff.mp hrest
    cases recycled with
    | nil => exact fun x hx => absurd hx List.not_mem_nil
    | cons r recycled =>
      cases hpick
      intro x hx
      rw [List.take_succ_cons, List.mem_cons] at hx
      exact List.mem_cons.mpr (hx.imp_right (ih hrest' x))

theorem allocs_take {limit num : Nat} {clusters : List Nat} (hnum : 0 < num)
    (hallocs : d.allocs limit num recycled start = some clusters) :
    ∀ c ∈ recycled.take num, c ∈ clusters := by
  obtain ⟨n, rfl⟩ := Nat.exists_eq_add_of_le' hnum
  obtain ⟨c, hpick, hrest⟩ := Option.bind_eq_some_iff.mp hallocs
  obtain ⟨rest, hrest', rfl⟩ := Option.map_eq_some_iff.mp hrest
  cases recycled with
  | nil => exact fun x hx => absurd hx List.not_mem_nil
  | cons r recycled =>
    cases hpick
    intro x hx
    rw [List.take_succ_cons, List.mem_cons] at hx
    exact List.mem_cons.mpr (hx.imp_right (picks_take hrest' x))

theorem allocs_hint {limit num : Nat} {clusters : List Nat} (hlimit : limit ≤ 2 ^ 32)
    (hallocs : d.allocs limit num recycled start = some clusters) :
    d.allocs limit num recycled (hint start) = some clusters := by
  obtain ⟨c, hpick, hrest⟩ := Option.bind_eq_some_iff.mp hallocs
  exact Option.bind_eq_some_iff.mpr ⟨c, pick_hint hlimit hpick, hrest⟩

section Congr

variable {d' : Disk} {limit num curr : Nat}

/-- The allocator reads the FAT of the volume only. -/
theorem pick_congr (h : ∀ c < limit, d'.next c = d.next c) :
    d'.pick limit recycled start = d.pick limit recycled start := by
  cases recycled with
  | cons r recycled => rfl
  | nil =>
    have hfind : ∀ l : List Nat, (∀ c ∈ l, c < limit) →
        l.find? (fun c => d'.next c = FREE_CLUSTER) = l.find? fun c => d.next c = FREE_CLUSTER := by
      intro l hl
      induction l with
      | nil => rfl
      | cons x l ih =>
        obtain ⟨hx, hl⟩ := List.forall_mem_cons.mp hl
        rw [List.find?_cons, List.find?_cons, h x hx, ih hl]
    apply hfind
    intro c hc
    have hmem := List.mem_range'_1.mp hc
    omega

theorem picks_congr (h : ∀ c < limit, d'.next c = d.next c) :
    d'.picks limit num recycled curr = d.picks limit num recycled curr := by
  induction num generalizing d d' recycled curr with
  | zero => rfl
  | succ num ih =>
    rw [picks, picks, pick_congr h]
    congr 1
    funext c
    rw [ih]
    intro x hx
    by_cases hcurr : x = curr
    · subst hcurr
      rw [link, link, set_next_next_self, set_next_next_self]
    · rw [link_next_of_ne hcurr, link_next_of_ne hcurr, h x hx]

theorem allocs_congr (h : ∀ c < limit, d'.next c = d.next c) :
    d'.allocs limit num recycled start = d.allocs limit num recycled start := by
  rw [allocs, allocs, pick_congr h]
  congr 1
  funext c
  rw [@picks_congr (d.clear_cluster c) _ (d'.clear_cluster c) _ _ _ h]

end Congr

/-- The chain that an allocation makes. -/
theorem allocs_allocated {num : Nat} {clusters : List Nat} (L : bpb.Layout)
    (hrec : d.Recycled bpb recycled) (hres : d.Reserved) (hnum : 0 < num)
    (hallocs : d.allocs (bpb.data_cluster_cnt + 2) num recycled start = some clusters) :
    ∃ c rest, clusters = c :: rest ∧ clusters.length = num ∧ Allocated bpb d
      (((d.clear_cluster c).links c rest).set_next (rest.getLastD c) END_OF_CLUSTER) clusters := by
  obtain ⟨c, hpick, hrest⟩ := Option.bind_eq_some_iff.mp hallocs
  obtain ⟨rest, hrest', rfl⟩ := Option.map_eq_some_iff.mp hrest
  obtain ⟨hc, hfree, htail⟩ := pick_free hrec hres hpick
  obtain ⟨hlen, hall⟩ := picks_allocated L (d := d.clear_cluster c)
    ⟨hrec.tail.data, hrec.tail.free, hrec.tail.nodup⟩ hres hc htail hfree
    (clear_cluster_data_self d c) hrest'
  refine ⟨c, rest, rfl, ?_, hall.chain, hall.data, hall.free, hall.next_of_notMem, ?_, hall.zero⟩
  · rw [List.length_cons, hlen]
    omega
  · intro x hx
    exact (hall.data_of_notMem x hx).trans
      (clear_cluster_data_of_ne _ _ fun h => hx (h ▸ List.mem_cons_self))

end Disk

namespace FileSystem

variable {fs : FileSystem} {d : Disk} (L : fs.bpb.Layout) (hs : fs.Shows d)

section Clear

include L hs

theorem clear_block_eq {c k : Nat} (hc : fs.bpb.InData c) (hk : k < fs.bpb.sec_per_clus) :
    ∃ device, fs.clear_block (fs.bpb.first_sector_of_cluster c + k) =
        .ok { fs with device := device } ∧
      device.Shows fs.bpb (d.put c (k * BLOCK_SIZE) fun _ : Fin 512 => 0) := by
  have hlt : k * BLOCK_SIZE < fs.bpb.cluster_size := by
    rw [L.cluster_size]
    exact Nat.mul_lt_mul_of_pos_right hk (by decide)
  have hmod : k * BLOCK_SIZE % BLOCK_SIZE = 0 := Nat.mul_mod_left k _
  have hdiv : k * BLOCK_SIZE / BLOCK_SIZE = k := Nat.mul_div_cancel k (by decide)
  have hshows := @BlockDevice.Shows.modify_data _ _ _ _ L hs hc _ 512 hlt (by rw [hmod]; decide)
    fun _ => 0
  rw [hmod, hdiv] at hshows
  refine ⟨_, ?_, hshows⟩
  rw [clear_block, BlockDevice.modify, if_pos (by decide)]
  rfl

theorem clear_blocks_eq {c : Nat} (hc : fs.bpb.InData c) (n : Nat) (hn : n ≤ fs.bpb.sec_per_clus) :
    ∃ device, (List.range n).foldlM
        (fun fs' i => fs'.clear_block (fs.bpb.first_sector_of_cluster c + i)) fs =
        .ok { fs with device := device } ∧
      device.Shows fs.bpb (d.put c 0 fun _ : Fin (n * BLOCK_SIZE) => 0) := by
  induction n with
  | zero =>
    refine ⟨fs.device, rfl, hs.congr (fun _ _ => rfl) ?_⟩
    intro c' _ i _
    by_cases hc' : c' = c
    · subst hc'
      rw [Disk.put_data_self, Block.splice, dif_neg (by omega)]
    · rw [Disk.put_data_of_ne _ _ _ _ hc']
  | succ n ih =>
    obtain ⟨device, hrun, hshows⟩ := ih (Nat.le_of_succ_le hn)
    obtain ⟨device', hclear, hshows'⟩ := @clear_block_eq { fs with device := device } _ L hshows
      _ _ hc hn
    refine ⟨device', ?_, ?_⟩
    · rw [foldlM_range_succ, hrun]
      exact hclear
    · apply hshows'.congr
      · exact fun _ _ => rfl
      · intro c' _ i _
        by_cases hc' : c' = c
        · subst hc'
          simp only [Disk.put_data_self, Block.splice]
          unfold BLOCK_SIZE
          split_ifs <;> first | rfl | omega
        · simp only [Disk.put_data_of_ne _ _ _ _ hc']

theorem clear_cluster_eq {c : Nat} (hc : fs.bpb.InData c) :
    ∃ device, fs.clear_cluster c = .ok { fs with device := device } ∧
      device.Shows fs.bpb (d.clear_cluster c) := by
  obtain ⟨device, hrun, hshows⟩ := clear_blocks_eq L hs hc fs.bpb.sec_per_clus le_rfl
  refine ⟨device, hrun, hshows.congr (fun _ _ => rfl) ?_⟩
  intro c' _ i hi
  by_cases hc' : c' = c
  · subst hc'
    rw [L.cluster_size] at hi
    rw [Disk.put_data_self, Disk.clear_cluster_data_self, Block.splice, dif_pos (by omega)]
  · rw [Disk.put_data_of_ne _ _ _ _ hc', Disk.clear_cluster_data_of_ne _ _ hc']

theorem set_free_clusters_eq (cnt : Nat) :
    ∃ device, fs.set_free_clusters cnt =
        .ok { fs with device := device, free_cluster_cnt := cnt } ∧ device.Shows fs.bpb d := by
  unfold set_free_clusters BlockDevice.modify
  rw [if_pos (by decide)]
  exact ⟨_, rfl, hs.modify_info L _⟩

end Clear

section Take

variable {start_from c : Nat} {recycled : List Nat}

include L hs

theorem scan_blank_eq {fuel start n : Nat} (hlimit : start + n ≤ fs.bpb.data_cluster_cnt + 2)
    (hfuel : n ≤ fuel)
    (hfind : (List.range' start n).find? (fun c => d.next c = FREE_CLUSTER) = some c) :
    fs.scan_blank fuel start = .ok c := by
  induction fuel generalizing start n with
  | zero =>
    obtain rfl : n = 0 := Nat.le_zero.mp hfuel
    cases hfind
  | succ fuel ih =>
    cases n with
    | zero => cases hfind
    | succ n =>
      rw [scan_blank, fat_entry_eq L hs (by omega)]
      simp only [bind, Except.bind]
      rw [List.range'_succ, List.find?_cons] at hfind
      split at hfind
      · next hzero =>
        cases hfind
        rw [if_pos (of_decide_eq_true hzero)]
        rfl
      · next hne =>
        rw [if_neg (of_decide_eq_false hne)]
        exact ih (by omega) (Nat.le_of_succ_le_succ hfuel) hfind

theorem find_blank_cluster_eq (hres : d.Reserved)
    (hpick : d.pick (fs.bpb.data_cluster_cnt + 2) [] (Disk.hint start_from) = some c) :
    fs.find_blank_cluster start_from = .ok (c % (CLUSTER_MASK + 1)) := by
  have hlt := L.cluster_lt
  have hend : END_OF_CLUSTER < WALK_LIMIT := by decide
  have hfind : (List.range' (Disk.hint start_from + 1)
      (fs.bpb.data_cluster_cnt + 2 - (Disk.hint start_from + 1))).find?
      (fun c => d.next c = FREE_CLUSTER) = some c := hpick
  have hmem := List.mem_range'_1.mp (List.mem_of_find?_eq_some hfind)
  have hscan : fs.scan_blank WALK_LIMIT ((start_from + 1) % 2 ^ 32) = .ok c := by
    obtain hzero | hpos := Nat.eq_zero_or_pos ((start_from + 1) % 2 ^ 32)
    · -- the scan starts at the first entry
      have hhint : Disk.hint start_from = 0 := by rw [Disk.hint, hzero]
      rw [hhint] at hfind hmem
      obtain ⟨fuel, hfuel⟩ : ∃ fuel, WALK_LIMIT = fuel + 1 := ⟨WALK_LIMIT - 1, rfl⟩
      rw [hzero, hfuel, scan_blank, fat_entry_eq L hs (by omega), ok_bind,
        if_neg (show d.next 0 ≠ FREE_CLUSTER from hres.1)]
      exact scan_blank_eq L hs (by omega) (by omega) hfind
    · have hhint : Disk.hint start_from + 1 = (start_from + 1) % 2 ^ 32 := Nat.sub_add_cancel hpos
      rw [hhint] at hfind hmem
      exact scan_blank_eq L hs (by omega) (by omega) hfind
  rw [find_blank_cluster, hscan]
  rfl

theorem take_cluster_eq (hrec : d.Recycled fs.bpb fs.recycled_cluster) (hres : d.Reserved)
    (hpick : d.pick (fs.bpb.data_cluster_cnt + 2) fs.recycled_cluster (Disk.hint start_from) =
      some c) :
    ∃ device, fs.take_cluster start_from = .ok (c, { fs with
        device := device
        recycled_cluster := fs.recycled_cluster.tail }) ∧
      device.Shows fs.bpb (d.clear_cluster c) := by
  obtain ⟨hc, _, _⟩ := Disk.pick_free hrec hres hpick
  have hblank : fs.get_blank_cluster start_from =
      .ok (c, { fs with recycled_cluster := fs.recycled_cluster.tail }) := by
    rw [get_blank_cluster]
    cases hr : fs.recycled_cluster with
    | cons r recycled =>
      rw [hr] at hpick
      cases hpick
      simp only [L.mask hc, List.tail_cons]
    | nil =>
      rw [hr] at hpick
      simp only [find_blank_cluster_eq L hs hres hpick, L.mask hc, ok_bind, List.tail_nil]
      rw [← hr]
      rfl
  obtain ⟨device, hclear, hshows⟩ := @clear_cluster_eq
    { fs with recycled_cluster := fs.recycled_cluster.tail } _ L hs _ hc
  refine ⟨device, ?_, hshows⟩
  rw [take_cluster, hblank]
  simp only [bind, Except.bind, if_neg (not_lt.mpr hc.1), hclear]
  rfl

theorem append_clusters_eq {num curr : Nat} {clusters : List Nat}
    (hrec : d.Recycled fs.bpb fs.recycled_cluster) (hres : d.Reserved) (hcurr : fs.bpb.InData curr)
    (hnot : curr ∉ fs.recycled_cluster)
    (hpicks : d.picks (fs.bpb.data_cluster_cnt + 2) num fs.recycled_cluster curr = some clusters) :
    ∃ device, append_clusters num fs curr = .ok (clusters.getLastD curr, { fs with
        device := device
        recycled_cluster := fs.recycled_cluster.drop num }) ∧
      device.Shows fs.bpb (d.links curr clusters) := by
  induction num generalizing fs d curr clusters with
  | zero =>
    cases hpicks
    exact ⟨fs.device, rfl, hs⟩
  | succ num ih =>
    obtain ⟨c, hpick, hrest⟩ := Option.bind_eq_some_iff.mp hpicks
    obtain ⟨rest, hrest', rfl⟩ := Option.map_eq_some_iff.mp hrest
    obtain ⟨hc, _, hctail⟩ := Disk.pick_free hrec hres hpick
    obtain ⟨device, htake, hshows⟩ := take_cluster_eq L hs hrec hres
      (Disk.pick_hint (L.cluster_lt.trans (by decide)) hpick)
    have hlt : c < 2 ^ 32 := (hc.2.trans_le L.cluster_lt).trans (by decide)
    obtain ⟨device', hset, hshows'⟩ := @set_next_cluster_eq
      { fs with device := device, recycled_cluster := fs.recycled_cluster.tail } _ L hshows
      _ hcurr.2 _ hlt
    obtain ⟨device'', happend, hshows''⟩ := @ih
      { fs with device := device', recycled_cluster := fs.recycled_cluster.tail } _ L hshows' _ _
      (hrec.tail.link fun h => hnot (List.mem_of_mem_tail h)) (hres.set_next hcurr.1 c) hc hctail
      hrest'
    refine ⟨device'', ?_, hshows''⟩
    rw [append_clusters, htake]
    simp only [bind, Except.bind, hset, happend, List.getLastD_cons, List.drop_tail]

/-- A chain of clusters is made on the volume. -/
theorem alloc_cluster_chain_eq {num start : Nat} {clusters : List Nat}
    (hrec : d.Recycled fs.bpb fs.recycled_cluster) (hres : d.Reserved) (hnum : 0 < num)
    (hcnt : num ≤ fs.free_cluster_cnt)
    (hallocs : d.allocs (fs.bpb.data_cluster_cnt + 2) num fs.recycled_cluster (Disk.hint start) =
      some clusters) :
    ∃ c rest device d', clusters = c :: rest ∧ clusters.length = num ∧
      fs.alloc_cluster_chain num start = .ok (some c, { fs with
        device := device
        recycled_cluster := fs.recycled_cluster.drop num
        free_cluster_cnt := fs.free_cluster_cnt - num }) ∧
      device.Shows fs.bpb d' ∧ d.Allocated fs.bpb d' clusters := by
  obtain ⟨c, rest, rfl, hlen, hall⟩ := Disk.allocs_allocated L hrec hres hnum hallocs
  obtain ⟨c', hpick, hrest⟩ := Option.bind_eq_some_iff.mp hallocs
  obtain ⟨rest', hpicks, heq⟩ := Option.map_eq_some_iff.mp hrest
  cases heq
  obtain ⟨hc, _, hctail⟩ := Disk.pick_free hrec hres hpick
  obtain ⟨device, htake, hshows⟩ := take_cluster_eq L hs hrec hres hpick
  obtain ⟨device', happend, hshows'⟩ := @append_clusters_eq
    { fs with device := device, recycled_cluster := fs.recycled_cluster.tail } _ L hshows _ _ _
    ⟨hrec.tail.data, hrec.tail.free, hrec.tail.nodup⟩ hres hc hctail hpicks
  have hlast : fs.bpb.InData (rest.getLastD c) := hall.data _ List.getLastD_mem_cons
  obtain ⟨device'', hset, hshows''⟩ := @set_next_cluster_eq
    { fs with device := device', recycled_cluster := fs.recycled_cluster.tail.drop (num - 1) }
    _ L hshows' _ hlast.2 _ (by decide : END_OF_CLUSTER < 2 ^ 32)
  obtain ⟨device₃, hfree, hshows₃⟩ := @set_free_clusters_eq
    { fs with device := device'', recycled_cluster := fs.recycled_cluster.tail.drop (num - 1) }
    _ L hshows'' (fs.free_cluster_cnt - num)
  refine ⟨c, rest, device₃, _, rfl, hlen, ?_, hshows₃, hall⟩
  rw [alloc_cluster_chain, if_neg (not_lt.mpr hcnt), htake]
  simp only [bind, Except.bind, happend, hset, hfree]
  simp only [pure, Except.pure, List.drop_tail, Nat.sub_add_cancel hnum]

end Take

section Dealloc

include L hs

theorem free_cluster_eq {c : Nat} (hc : fs.bpb.InData c) :
    ∃ device, fs.free_cluster c = .ok { fs with
        device := device
        recycled_cluster := fs.recycled_cluster ++ [c] } ∧
      device.Shows fs.bpb (d.set_next c FREE_CLUSTER) := by
  obtain ⟨device, hset, hshows⟩ := set_next_cluster_eq L hs hc.2 (by decide : FREE_CLUSTER < 2 ^ 32)
  refine ⟨device, ?_, hshows⟩
  rw [free_cluster, hset]
  rfl

theorem free_clusters_eq {clusters : List Nat} (hdata : ∀ c ∈ clusters, fs.bpb.InData c) :
    ∃ device, clusters.foldlM free_cluster fs = .ok { fs with
        device := device
        recycled_cluster := fs.recycled_cluster ++ clusters } ∧
      device.Shows fs.bpb (d.frees clusters) := by
  induction clusters generalizing fs d with
  | nil => exact ⟨fs.device, by simp [pure, Except.pure], hs⟩
  | cons c clusters ih =>
    obtain ⟨hc, hrest⟩ := List.forall_mem_cons.mp hdata
    obtain ⟨device, hfree, hshows⟩ := free_cluster_eq L hs hc
    obtain ⟨device', hrun, hshows'⟩ := @ih { fs with
      device := device
      recycled_cluster := fs.recycled_cluster ++ [c] } _ L hshows hrest
    refine ⟨device', ?_, hshows'⟩
    rw [List.foldlM_cons, hfree]
    simp only [bind, Except.bind, hrun, List.append_assoc, List.singleton_append]

theorem dealloc_cluster_eq {clusters : List Nat} (hdata : ∀ c ∈ clusters, fs.bpb.InData c) :
    ∃ device, fs.dealloc_cluster clusters = .ok { fs with
        device := device
        recycled_cluster := fs.recycled_cluster ++ clusters
        free_cluster_cnt := fs.free_cluster_cnt + clusters.length } ∧
      device.Shows fs.bpb (d.frees clusters) := by
  by_cases hnil : clusters = []
  · subst hnil
    exact ⟨fs.device, by simp [dealloc_cluster], hs⟩
  · obtain ⟨device, hrun, hshows⟩ := free_clusters_eq L hs hdata
    obtain ⟨device', hcnt, hshows'⟩ := @set_free_clusters_eq { fs with
      device := device
      recycled_cluster := fs.recycled_cluster ++ clusters } _ L hshows
      (fs.free_cluster_cnt + clusters.length)
    refine ⟨device', ?_, hshows'⟩
    rw [dealloc_cluster, if_neg hnil, hrun]
    exact hcnt

end Dealloc

end FileSystem

end MyGOS.Fat32
