import MyGOS.Fat32.Grow
import MyGOS.Fat32.EntryFields

/-!
# A handle and its file

The clusters that a handle has are the chain that starts at the first cluster of
its directory entry. The entry of the root directory is in memory; here it is in
cluster 0, which is not a data cluster.
-/

namespace MyGOS.Fat32

open Outcome

namespace Disk

variable (d : Disk) (pos : DirEntryPos) (e : Dirent)

def set_entry : Disk := d.put pos.cluster pos.offset_in_cluster e

@[simp] theorem set_entry_next : (d.set_entry pos e).next = d.next := rfl

theorem set_entry_data_of_ne {c : Nat} (h : c ≠ pos.cluster) :
    (d.set_entry pos e).data c = d.data c := put_data_of_ne _ _ _ _ h

/-- The bytes of the cluster around the entry. -/
theorem set_entry_data_of_lt {i : Nat}
    (h : i < pos.offset_in_cluster ∨ pos.offset_in_cluster + 32 ≤ i) :
    (d.set_entry pos e).data pos.cluster i = d.data pos.cluster i := by
  rw [set_entry, put_data_self, Block.splice, dif_neg (by omega)]

/-- The name of the entry does not change. -/
theorem set_entry_around (he : ∀ j : Fin 32, j < 20 → e j = d.entry pos j) {i : Nat}
    (hi : i < pos.offset_in_cluster + 20 ∨ pos.offset_in_cluster + 32 ≤ i) :
    (d.set_entry pos e).data pos.cluster i = d.data pos.cluster i := by
  by_cases hin : pos.offset_in_cluster ≤ i ∧ i < pos.offset_in_cluster + 32
  · rw [set_entry, put_data_self, Block.splice, dif_pos hin, he _ (by show i - _ < 20; omega)]
    show d.data pos.cluster (pos.offset_in_cluster + (i - pos.offset_in_cluster)) = _
    congr 1
    omega
  · exact set_entry_data_of_lt d pos e (by omega)

theorem entry_set_entry : (d.set_entry pos e).entry pos = e := by
  funext i
  simp [entry, set_entry, Block.slice, Block.splice]

end Disk

namespace FileSystem

section Walk

variable {fs : FileSystem} {d : Disk} (L : fs.bpb.Layout) (hs : fs.Shows d) {c : Nat}
  {clusters : List Nat}

include L hs

theorem get_all_cluster_id_eq (hchain : d.Chain (c :: clusters))
    (hdata : ∀ x ∈ c :: clusters, fs.bpb.InData x) :
    fs.get_all_cluster_id c = .ok (c :: clusters) := by
  have hlen := L.length_lt hchain.nodup hdata
  rw [List.length_cons] at hlen
  exact walk_chain_of_entries (entries_eq L hs hdata) (walkable L hchain hdata)
    (Nat.lt_of_succ_lt hlen)

end Walk

/-- The allocator is ready, and the entry of the root directory is in cluster 0. -/
structure Sees (fs : FileSystem) (d : Disk) : Prop extends Ready fs d where
  root : d.entry ⟨ROOT_DIR_ENTRY_CLUSTER, 0⟩ = fs.root_dir_entry

/-- What the volume and the file system have. -/
def disk (fs : FileSystem) : Disk where
  next c := le_u32 ((fs.device (fs.bpb.rsvd_sec_cnt + c / 128)).slice (c % 128 * 4) 4)
  data c i :=
    if c = ROOT_DIR_ENTRY_CLUSTER then if h : i < 32 then fs.root_dir_entry ⟨i, h⟩ else 0
    else fs.device (fs.bpb.first_sector_of_cluster c + i / BLOCK_SIZE) (i % BLOCK_SIZE)

theorem shows_disk (fs : FileSystem) : fs.Shows fs.disk where
  next _ _ := rfl
  data c hc i _ := by
    have hne : c ≠ ROOT_DIR_ENTRY_CLUSTER := fun heq => absurd hc.1 (by rw [heq]; decide)
    exact (if_neg hne).symm

theorem disk_root (fs : FileSystem) :
    fs.disk.entry ⟨ROOT_DIR_ENTRY_CLUSTER, 0⟩ = fs.root_dir_entry := by
  funext i
  simp [Disk.entry, Block.slice, disk]

/-- The clusters that a file lacks for a size. -/
def need_cluster_cnt (fs : FileSystem) (f : VirtFile) (new_size : Nat) : Nat :=
  (new_size + fs.bpb.cluster_size - 1) / fs.bpb.cluster_size - (fs.cluster_vec f).length

/-- If the file needs clusters, and the free count allows it to have them, the allocator finds
them on the volume. -/
def Room (fs : FileSystem) (f : VirtFile) (new_size : Nat) : Prop :=
  let need := fs.need_cluster_cnt f new_size
  0 < need → need ≤ fs.free_cluster_cnt →
    (fs.disk.allocs (fs.bpb.data_cluster_cnt + 2) need fs.recycled_cluster
      ((fs.cluster_vec f).headD NEW_VIRT_FILE_CLUSTER)).isSome

/-- The only panic of an allocation, when the free count does not allow it. -/
def Full (fs : FileSystem) (need : Nat) (e : FsPanic) : Prop :=
  e = .outOfSpace ∧ fs.free_cluster_cnt < need

/-- A place for the short entry of a handle. -/
inductive SdePos (bpb : BIOSParameterBlock) (pos : DirEntryPos) : Prop where
  | root : pos = ⟨ROOT_DIR_ENTRY_CLUSTER, 0⟩ → SdePos bpb pos
  | disk : EntryPos bpb pos → SdePos bpb pos

section Entry

variable {fs : FileSystem} {d : Disk} {f : VirtFile} (h : fs.Sees d)
  (hpos : SdePos fs.bpb f.sde_pos)

include h hpos

theorem Sees.read_sde : fs.read_sde f = .ok (d.entry f.sde_pos) := by
  cases hpos with
  | root hroot =>
    rw [FileSystem.read_sde, hroot, if_pos rfl, h.root]
  | disk hpos => exact read_sde_eq h.layout h.shows_disk hpos

theorem Sees.first_cluster : fs.first_cluster f = .ok (d.entry f.sde_pos).first_cluster := by
  rw [FileSystem.first_cluster, h.read_sde hpos]
  rfl

theorem Sees.file_size : fs.file_size f = .ok (d.entry f.sde_pos).file_size := by
  rw [FileSystem.file_size, h.read_sde hpos]
  rfl

/-- The entry is replaced, on the disk or in memory. -/
theorem Sees.modify_sde (g : Dirent → Dirent) :
    ∃ device root_dir_entry, fs.modify_sde f g =
        .ok { fs with device := device, root_dir_entry := root_dir_entry } ∧
      Sees { fs with device := device, root_dir_entry := root_dir_entry }
        (d.set_entry f.sde_pos (g (d.entry f.sde_pos))) := by
  cases hpos with
  | root hroot =>
    refine ⟨fs.device, g fs.root_dir_entry, ?_, ⟨h.layout, ?_, ?_, h.reserved⟩, ?_⟩
    · rw [FileSystem.modify_sde, hroot, if_pos rfl]
    · apply BlockDevice.Shows.congr h.shows_disk
      · exact fun _ _ => rfl
      · intro c hc i _
        rw [hroot, Disk.set_entry_data_of_ne]
        rintro rfl
        exact absurd hc.1 (by decide)
    · exact h.recycled.congr fun _ _ => rfl
    · rw [hroot, Disk.entry_set_entry, h.root]
  | disk hpos =>
    obtain ⟨device, hmodify, hshows⟩ := modify_sde_eq h.layout h.shows_disk hpos g
    refine ⟨device, fs.root_dir_entry, hmodify, ⟨h.layout, hshows, ?_, h.reserved⟩, ?_⟩
    · exact h.recycled.congr fun _ _ => rfl
    · rw [← h.root]
      unfold Disk.entry
      rw [Disk.set_entry_data_of_ne]
      intro heq
      exact absurd (heq ▸ hpos.data.1) (by decide)

end Entry

/-- The only handle to a file; `clusters` are those of the file. -/
structure Owned (fs : FileSystem) (d : Disk) (f : VirtFile) (clusters : List Nat) : Prop where
  sees : Sees fs d
  sde_pos : SdePos fs.bpb f.sde_pos
  chained : Chained fs d f clusters
  /-- the entry is in a cluster of another file -/
  apart : f.sde_pos.cluster ∉ clusters
  in_use : d.next f.sde_pos.cluster ≠ FREE_CLUSTER
  first_cluster : (d.entry f.sde_pos).first_cluster = clusters.headD NEW_VIRT_FILE_CLUSTER
  file_size : (d.entry f.sde_pos).file_size ≤ fs.bpb.cluster_size * clusters.length
  dir_size : f.is_dir → (d.entry f.sde_pos).file_size = 0

/-- A file with more clusters, which are filled with zeros. -/
structure Grown (fs fs' : FileSystem) (d d' : Disk) (f : VirtFile) (clusters added : List Nat) :
    Prop where
  sees : Sees fs' d'
  bpb : fs'.bpb = fs.bpb
  recycled_cluster : fs'.recycled_cluster = fs.recycled_cluster.drop added.length
  free_cluster_cnt : fs.free_cluster_cnt = fs'.free_cluster_cnt + added.length
  next_chain : fs'.next_chain = fs.next_chain
  chains : ∀ c, c ≠ f.cluster_chain → fs'.chains c = fs.chains c
  chain : d'.Chain (clusters ++ added)
  data : ∀ c ∈ added, fs.bpb.InData c
  free : ∀ c ∈ added, d.next c = FREE_CLUSTER
  /-- the recycled clusters are taken first -/
  taken : ∀ c ∈ fs.recycled_cluster.take added.length, c ∈ added
  zero : ∀ c ∈ added, ∀ i, d'.data c i = 0
  next_of_notMem : ∀ c, c ∉ clusters → c ∉ added → d'.next c = d.next c
  data_of_notMem : ∀ c, c ∉ added → c ≠ f.sde_pos.cluster → d'.data c = d.data c
  /-- of the entry, the first cluster and the size may differ -/
  around : ∀ i, i < f.sde_pos.offset_in_cluster + 20 ∨ f.sde_pos.offset_in_cluster + 32 ≤ i →
    d'.data f.sde_pos.cluster i = d.data f.sde_pos.cluster i

section Growth

variable {fs fs' : FileSystem} {d d' : Disk} {f : VirtFile} {clusters added : List Nat}

theorem Grown.refl (h : Owned fs d f clusters) : Grown fs fs d d f clusters [] where
  sees := h.sees
  bpb := rfl
  recycled_cluster := rfl
  free_cluster_cnt := rfl
  next_chain := rfl
  chains _ _ := rfl
  chain := by
    rw [List.append_nil]
    exact h.chained.chain
  data _ hc := absurd hc List.not_mem_nil
  free _ hc := absurd hc List.not_mem_nil
  taken _ hc := hc
  zero _ hc := absurd hc List.not_mem_nil
  next_of_notMem _ _ _ := rfl
  data_of_notMem _ _ _ := rfl
  around _ _ := rfl

/-- The entry, and the chain in memory, of a file that has grown. -/
theorem Grown.set_entry (h : Grown fs fs' d d' f clusters added) {device : BlockDevice}
    {root_dir_entry e : Dirent} {chains : Nat → List Nat}
    (hsees : Sees { fs' with device := device, root_dir_entry := root_dir_entry, chains := chains }
      (d'.set_entry f.sde_pos e))
    (hadded : f.sde_pos.cluster ∉ added) (hchains : ∀ c, c ≠ f.cluster_chain →
      chains c = fs'.chains c)
    (he : ∀ j : Fin 32, j < 20 → e j = d'.entry f.sde_pos j) :
    Grown fs { fs' with device := device, root_dir_entry := root_dir_entry, chains := chains } d
      (d'.set_entry f.sde_pos e) f clusters added where
  sees := hsees
  bpb := h.bpb
  recycled_cluster := h.recycled_cluster
  free_cluster_cnt := h.free_cluster_cnt
  next_chain := h.next_chain
  chains c hc := (hchains c hc).trans (h.chains c hc)
  chain := h.chain
  data := h.data
  free := h.free
  taken := h.taken
  zero c hc i := by
    rw [Disk.set_entry_data_of_ne]
    · exact h.zero c hc i
    · rintro rfl
      exact hadded hc
  next_of_notMem := h.next_of_notMem
  data_of_notMem c hc hne := (Disk.set_entry_data_of_ne _ _ _ hne).trans (h.data_of_notMem c hc hne)
  around i hi := (Disk.set_entry_around _ _ _ he hi).trans (h.around i hi)

theorem Sees.with_chains (h : Sees fs d) (chains : Nat → List Nat) :
    Sees { fs with chains := chains } d :=
  ⟨⟨h.layout, h.shows_disk, h.recycled, h.reserved⟩, h.root⟩

theorem Grown.set_cluster_vec (h : Grown fs fs' d d' f clusters added) (cluster_vec : List Nat) :
    Grown fs (fs'.set_cluster_vec f cluster_vec) d d' f clusters added where
  sees := h.sees.with_chains _
  bpb := h.bpb
  recycled_cluster := h.recycled_cluster
  free_cluster_cnt := h.free_cluster_cnt
  next_chain := h.next_chain
  chains c hc := (Function.update_of_ne hc ..).trans (h.chains c hc)
  chain := h.chain
  data := h.data
  free := h.free
  taken := h.taken
  zero := h.zero
  next_of_notMem := h.next_of_notMem
  data_of_notMem := h.data_of_notMem
  around := h.around

/-- After an allocation, which takes recycled clusters first. -/
theorem Sees.allocated (h : Sees fs d) {device : BlockDevice} {num : Nat} (free : Nat)
    (hshows : device.Shows fs.bpb d') (hall : d.Allocated fs.bpb d' added)
    (hdrop : ∀ c ∈ fs.recycled_cluster.drop num, c ∉ added) :
    Sees { fs with
      device := device
      recycled_cluster := fs.recycled_cluster.drop num
      free_cluster_cnt := free } d' where
  layout := h.layout
  shows_disk := hshows
  recycled := by
    constructor
    · exact fun c hc => h.recycled.data c (List.mem_of_mem_drop hc)
    · intro c hc
      exact (hall.next_of_notMem c (hdrop c hc)).trans
        (h.recycled.free c (List.mem_of_mem_drop hc))
    · exact h.recycled.nodup.sublist (List.drop_sublist ..)
  reserved := by
    have hnot : ∀ c < 2, c ∉ added := fun c hc hmem => absurd (hall.data c hmem).1 (by omega)
    constructor
    · rw [hall.next_of_notMem 0 (hnot 0 (by decide))]
      exact h.reserved.1
    · rw [hall.next_of_notMem 1 (hnot 1 (by decide))]
      exact h.reserved.2
  root := by
    have hnot : ROOT_DIR_ENTRY_CLUSTER ∉ added := fun hmem => absurd (hall.data _ hmem).1 (by decide)
    rw [← h.root]
    unfold Disk.entry
    rw [hall.data_of_notMem _ hnot]

/-- A FAT entry of a cluster that is in use is changed. -/
theorem Sees.set_next (h : Sees fs d) {device : BlockDevice} {c v : Nat} (hc : 2 ≤ c)
    (huse : d.next c ≠ FREE_CLUSTER) (hshows : device.Shows fs.bpb (d.set_next c v)) :
    Sees { fs with device := device } (d.set_next c v) where
  layout := h.layout
  shows_disk := hshows
  recycled := by
    apply h.recycled.congr
    intro x hx
    apply Disk.set_next_next_of_ne
    rintro rfl
    exact huse (h.recycled.free x hx)
  reserved := h.reserved.set_next hc v
  root := h.root

/-- The cluster of the entry is not one that an allocation takes. -/
theorem Owned.sde_notMem (h : Owned fs d f clusters) (hfree : ∀ c ∈ added, d.next c = FREE_CLUSTER) :
    f.sde_pos.cluster ∉ added := fun hmem => h.in_use (hfree _ hmem)

/-- The clusters in memory are the first ones of the file. -/
def Begins (fs : FileSystem) (f : VirtFile) (clusters : List Nat) : Prop :=
  ∃ rest, clusters = fs.cluster_vec f ++ rest ∧ (fs.cluster_vec f = [] → rest = [])

theorem Begins.generate (h : Begins fs f clusters) (hsees : Sees fs d) (hchain : d.Chain clusters)
    (hdata : ∀ c ∈ clusters, fs.bpb.InData c) :
    fs.generate (fs.cluster_vec f) = .ok clusters := by
  obtain ⟨rest, rfl, hnil⟩ := h
  obtain hvec | ⟨before, c, hvec⟩ := List.eq_nil_or_concat (fs.cluster_vec f)
  · rw [hvec, hnil hvec]
    rfl
  · rw [List.concat_eq_append] at hvec
    rw [hvec, List.append_assoc, List.singleton_append] at hchain hdata ⊢
    have hrest := hchain.drop before.length
    rw [List.drop_left] at hrest
    exact generate_eq hsees.layout hsees.shows_disk hrest
      fun x hx => hdata x (List.mem_append_right _ hx)

theorem Owned.add_clusters (h : Owned fs d f clusters) {need : Nat} (hneed : 0 < need)
    (hroom : need ≤ fs.free_cluster_cnt → ∃ added, d.allocs (fs.bpb.data_cluster_cnt + 2) need
      fs.recycled_cluster (clusters.headD NEW_VIRT_FILE_CLUSTER) = some added) :
    Meets (fs.add_clusters f (clusters.headD NEW_VIRT_FILE_CLUSTER) need) (fs.Full need)
      fun fs' => ∃ d' added, added.length = need ∧ Grown fs fs' d d' f clusters added ∧
        (d'.entry f.sde_pos).first_cluster = (clusters ++ added).headD NEW_VIRT_FILE_CLUSTER ∧
        (d'.entry f.sde_pos).file_size = (d.entry f.sde_pos).file_size ∧
        Begins fs' f (clusters ++ added) := by
  by_cases hcnt : need ≤ fs.free_cluster_cnt
  swap
  · rw [FileSystem.add_clusters, alloc_cluster_chain, if_pos (not_le.mp hcnt)]
    exact ⟨rfl, not_le.mp hcnt⟩
  obtain ⟨added, hallocs⟩ := hroom hcnt
  have hr := h.sees.toReady
  have hdrop := Disk.allocs_drop hr.recycled.nodup hneed hallocs
  have htake := Disk.allocs_take hneed hallocs
  obtain ⟨c, rest, device, d₁, rfl, hlen, halloc, hshows, hall⟩ := alloc_cluster_chain_eq
    hr.layout hr.shows_disk hr.recycled hr.reserved hneed hcnt
    (Disk.allocs_hint (hr.layout.cluster_lt.trans (by decide)) hallocs)
  have hsees := h.sees.allocated (fs.free_cluster_cnt - need) hshows hall hdrop
  have hsde := h.sde_notMem hall.free
  have hentry : d₁.entry f.sde_pos = d.entry f.sde_pos := by
    unfold Disk.entry
    rw [hall.data_of_notMem _ hsde]
  rw [FileSystem.add_clusters, halloc]
  simp only [bind, Except.bind]
  obtain rfl | ⟨init, last, rfl⟩ := List.eq_nil_or_concat clusters
  · -- the first clusters of the file, whose entry names them
    rw [List.headD_nil, if_pos rfl]
    have hgrown : Grown fs (set_cluster_vec { fs with
        device := device
        recycled_cluster := fs.recycled_cluster.drop need
        free_cluster_cnt := fs.free_cluster_cnt - need } f [c]) d d₁ f [] (c :: rest) := by
      refine ⟨hsees.with_chains _, rfl, by rw [hlen]; rfl, ?_, rfl, ?_, hall.chain, hall.data,
        hall.free, hlen ▸ htake, hall.zero, fun c _ => hall.next_of_notMem c,
        fun c hc _ => hall.data_of_notMem c hc, ?_⟩
      · show fs.free_cluster_cnt = fs.free_cluster_cnt - need + _
        omega
      · exact fun c hc => Function.update_of_ne hc ..
      · exact fun i _ => congrFun (hall.data_of_notMem _ hsde) i
    obtain ⟨device', root_dir_entry, hmodify, hsees'⟩ :=
      hgrown.sees.modify_sde h.sde_pos (·.set_first_cluster c)
    rw [set_first_cluster, hmodify]
    have hc := hall.data c List.mem_cons_self
    refine ⟨_, c :: rest, hlen, hgrown.set_entry hsees' hsde (fun _ _ => rfl) ?_, ?_, ?_, ?_⟩
    · exact fun j hj => Dirent.set_first_cluster_of_lt _ _ hj
    · rw [Disk.entry_set_entry]
      exact Dirent.first_cluster_set_first_cluster _ _
        ((hc.2.trans_le hr.layout.cluster_lt).trans (by decide))
    · rw [Disk.entry_set_entry, Dirent.file_size_set_first_cluster, hentry]
    · have hvec : Function.update fs.chains f.cluster_chain [c] f.cluster_chain = [c] :=
        Function.update_self ..
      refine ⟨rest, congrArg (· ++ rest) hvec.symm, fun hnil => ?_⟩
      cases hvec.symm.trans hnil
  · -- the new chain is linked to the last cluster
    rw [List.concat_eq_append] at *
    have hlast := h.chained.data last (List.mem_append_right _ (List.mem_singleton_self last))
    have hhead : (init ++ [last]).headD NEW_VIRT_FILE_CLUSTER ∈ init ++ [last] := by
      cases init <;> simp
    have hfirst : (init ++ [last]).headD NEW_VIRT_FILE_CLUSTER ≠ NEW_VIRT_FILE_CLUSTER :=
      fun heq => absurd (h.chained.data _ hhead).1 (by rw [heq]; decide)
    have hmem : last ∈ init ++ [last] := List.mem_append_right _ (List.mem_singleton_self last)
    have huse : d₁.next last ≠ FREE_CLUSTER := by
      rw [hall.next_of_notMem _ (notMem_added h.chained hall hmem)]
      exact fun hfree => h.chained.notMem hfree hmem
    have hvec : cluster_vec { fs with
        device := device
        recycled_cluster := fs.recycled_cluster.drop need
        free_cluster_cnt := fs.free_cluster_cnt - need } f = init ++ [last] := h.chained.vec
    have hc := hall.data c List.mem_cons_self
    obtain ⟨device', hset, hshows'⟩ := set_next_cluster_eq hsees.layout hsees.shows_disk hlast.2
      ((hc.2.trans_le hr.layout.cluster_lt).trans (by decide) : c < 2 ^ 32)
    have hne : last ≠ NEW_VIRT_FILE_CLUSTER := fun heq => absurd hlast.1 (by rw [heq]; decide)
    rw [if_neg hfirst, hvec, List.getLast?_concat]
    simp only [if_neg hne, hset]
    refine ⟨d₁.set_next last c, c :: rest, hlen, ⟨hsees.set_next hlast.1 huse hshows', rfl,
      by rw [hlen], ?_, rfl, fun _ _ => rfl, ?_, hall.data, hall.free, hlen ▸ htake, hall.zero, ?_,
      fun c hc _ => hall.data_of_notMem c hc, ?_⟩, ?_, ?_, ?_⟩
    · show fs.free_cluster_cnt = fs.free_cluster_cnt - need + _
      omega
    · rw [List.append_assoc]
      exact chain_append h.chained hall hr.layout
    · intro x hx hx'
      have hxl : x ≠ last := by
        rintro rfl
        exact hx hmem
      rw [Disk.set_next_next_of_ne _ _ hxl]
      exact hall.next_of_notMem x hx'
    · exact fun i _ => congrFun (hall.data_of_notMem _ hsde) i
    · have hheadD : (init ++ [last] ++ c :: rest).headD NEW_VIRT_FILE_CLUSTER =
          (init ++ [last]).headD NEW_VIRT_FILE_CLUSTER := by
        cases init <;> rfl
      rw [hheadD, ← h.first_cluster]
      exact congrArg Dirent.first_cluster hentry
    · exact congrArg Dirent.file_size hentry
    · refine ⟨c :: rest, congrArg (· ++ c :: rest) hvec.symm, fun hnil => ?_⟩
      exact absurd (hvec.symm.trans hnil) (List.append_ne_nil_of_right_ne_nil _ (by simp))

theorem Room.allocs {new_size : Nat} (h : Room fs f new_size) (hs : fs.Shows d)
    (hneed : 0 < fs.need_cluster_cnt f new_size)
    (hcnt : fs.need_cluster_cnt f new_size ≤ fs.free_cluster_cnt) :
    ∃ added, d.allocs (fs.bpb.data_cluster_cnt + 2) (fs.need_cluster_cnt f new_size)
      fs.recycled_cluster ((fs.cluster_vec f).headD NEW_VIRT_FILE_CLUSTER) = some added := by
  obtain ⟨added, hadded⟩ := Option.isSome_iff_exists.mp (h hneed hcnt)
  refine ⟨added, ?_⟩
  rw [← hadded]
  apply Disk.allocs_congr
  intro c hc
  exact (hs.next c hc).symm

theorem Owned.headD_eq (h : Owned fs d f clusters) :
    clusters.headD NEW_VIRT_FILE_CLUSTER = NEW_VIRT_FILE_CLUSTER ↔ clusters = [] := by
  cases clusters with
  | nil => exact ⟨fun _ => rfl, fun _ => rfl⟩
  | cons c clusters =>
    have hc := (h.chained.data c List.mem_cons_self).1
    constructor
    · rintro rfl
      exact absurd hc (by decide)
    · intro hnil
      cases hnil

/-- The clusters that there are hold the size of the file. -/
theorem Owned.need_eq_zero (h : Owned fs d f clusters) {new_size : Nat}
    (hle : new_size ≤ (d.entry f.sde_pos).file_size) : fs.need_cluster_cnt f new_size = 0 := by
  have hsize := h.file_size
  have hpos := h.sees.layout.cluster_size_pos
  rw [need_cluster_cnt, h.chained.vec, Nat.sub_eq_zero_iff_le, Nat.div_le_iff_le_mul_add_pred hpos]
  omega

/-- The clusters that are added hold the new size. -/
theorem Owned.new_size_le (h : Owned fs d f clusters) {new_size : Nat}
    (hlen : added.length = fs.need_cluster_cnt f new_size) :
    new_size ≤ fs.bpb.cluster_size * (clusters ++ added).length := by
  have hpos := h.sees.layout.cluster_size_pos
  rw [List.length_append, hlen, need_cluster_cnt, h.chained.vec]
  have hdiv := Nat.lt_mul_div_succ (new_size + fs.bpb.cluster_size - 1) hpos
  have hle : (new_size + fs.bpb.cluster_size - 1) / fs.bpb.cluster_size ≤ clusters.length +
      ((new_size + fs.bpb.cluster_size - 1) / fs.bpb.cluster_size - clusters.length) := by omega
  have hmul := Nat.mul_le_mul_left fs.bpb.cluster_size hle
  rw [Nat.mul_add, Nat.mul_one] at hdiv
  omega

theorem Grown.owned (hg : Grown fs fs' d d' f clusters added) (h : Owned fs d f clusters)
    (hvec : fs'.cluster_vec f = clusters ++ added)
    (hfirst : (d'.entry f.sde_pos).first_cluster =
      (clusters ++ added).headD NEW_VIRT_FILE_CLUSTER)
    (hsize : (d'.entry f.sde_pos).file_size ≤ fs.bpb.cluster_size * (clusters ++ added).length)
    (hdir : f.is_dir → (d'.entry f.sde_pos).file_size = 0) :
    Owned fs' d' f (clusters ++ added) where
  sees := hg.sees
  sde_pos := hg.bpb ▸ h.sde_pos
  chained := by
    refine ⟨hvec, hg.chain, ?_⟩
    rw [hg.bpb]
    exact List.forall_mem_append.mpr ⟨h.chained.data, hg.data⟩
  apart hmem := (List.mem_append.mp hmem).elim h.apart (h.sde_notMem hg.free)
  in_use := by
    rw [hg.next_of_notMem _ h.apart (h.sde_notMem hg.free)]
    exact h.in_use
  first_cluster := hfirst
  file_size := hg.bpb ▸ hsize
  dir_size := hdir

/-- What is known of a file before its size is set and its clusters are read again. -/
structure Started (fs fs' : FileSystem) (d d' : Disk) (f : VirtFile) (clusters added : List Nat)
    (size : Nat) : Prop where
  grown : Grown fs fs' d d' f clusters added
  first_cluster : (d'.entry f.sde_pos).first_cluster =
    (clusters ++ added).headD NEW_VIRT_FILE_CLUSTER
  file_size : (d'.entry f.sde_pos).file_size = size
  begins : Begins fs' f (clusters ++ added)

theorem Started.set_file_size {size : Nat} {E : FsPanic → Prop} (hs : Started fs fs' d d' f clusters added size)
    (h : Owned fs d f clusters) (new_size : Nat) :
    Meets (if f.is_dir then .ok fs' else fs'.set_file_size f new_size) E fun fs₂ =>
      ∃ d₂, Started fs fs₂ d d₂ f clusters added
        (if f.is_dir then size else new_size % 2 ^ 32) := by
  by_cases hdir : f.is_dir
  · rw [if_pos hdir, if_pos hdir]
    exact ⟨d', hs⟩
  · obtain ⟨device, root_dir_entry, hmodify, hsees⟩ := hs.grown.sees.modify_sde
      (hs.grown.bpb ▸ h.sde_pos) (·.set_file_size new_size)
    rw [if_neg hdir, if_neg hdir, FileSystem.set_file_size, hmodify]
    refine ⟨_, hs.grown.set_entry hsees (h.sde_notMem hs.grown.free) (fun _ _ => rfl) ?_, ?_, ?_,
      hs.begins⟩
    · exact fun j hj => Dirent.set_file_size_of_lt _ _ hj
    · rw [Disk.entry_set_entry, Dirent.first_cluster_set_file_size]
      exact hs.first_cluster
    · rw [Disk.entry_set_entry]
      exact Dirent.file_size_set_file_size ..

/-- The three parts of `incerase_size`, when the size is not there yet. -/
theorem Owned.incerase_size_eq (h : Owned fs d f clusters) {new_size : Nat}
    (hlt : ¬ new_size ≤ (d.entry f.sde_pos).file_size) :
    fs.incerase_size f new_size =
      (if fs.need_cluster_cnt f new_size = 0 then .ok fs
        else fs.add_clusters f (clusters.headD NEW_VIRT_FILE_CLUSTER)
          (fs.need_cluster_cnt f new_size)) >>= fun fs₁ =>
      (if f.is_dir then .ok fs₁ else fs₁.set_file_size f new_size) >>= fun fs₂ =>
      fs₂.generate (fs₂.cluster_vec f) >>= fun cluster_vec =>
      .ok (fs₂.set_cluster_vec f cluster_vec) := by
  have hneed : (if clusters.headD NEW_VIRT_FILE_CLUSTER = NEW_VIRT_FILE_CLUSTER then
      (new_size + fs.bpb.cluster_size - 1) / fs.bpb.cluster_size
      else (new_size + fs.bpb.cluster_size - 1) / fs.bpb.cluster_size -
        (fs.cluster_vec f).length) = fs.need_cluster_cnt f new_size := by
    split
    · next hnil =>
      rw [h.headD_eq] at hnil
      rw [need_cluster_cnt, h.chained.vec, hnil]
      rfl
    · rfl
  rw [FileSystem.incerase_size, h.sees.first_cluster h.sde_pos, h.sees.file_size h.sde_pos,
    h.first_cluster]
  simp only [bind, Except.bind]
  rw [if_neg hlt, hneed]
  by_cases hzero : fs.need_cluster_cnt f new_size = 0 <;> by_cases hdir : f.is_dir
  · simp only [if_pos hzero, if_pos hdir]
    rfl
  · simp only [if_pos hzero, if_neg hdir]
    rfl
  · simp only [if_neg hzero, if_pos hdir]
    rfl
  · simp only [if_neg hzero, if_neg hdir]
    rfl

theorem Owned.incerase_size (h : Owned fs d f clusters) {new_size : Nat}
    (hroom : Room fs f new_size) :
    Meets (fs.incerase_size f new_size) (fs.Full (fs.need_cluster_cnt f new_size)) fun fs' => ∃ d' added,
      added.length = fs.need_cluster_cnt f new_size ∧ Grown fs fs' d d' f clusters added ∧
      Owned fs' d' f (clusters ++ added) ∧ (d'.entry f.sde_pos).file_size =
        if new_size ≤ (d.entry f.sde_pos).file_size then (d.entry f.sde_pos).file_size
        else if f.is_dir then 0 else new_size % 2 ^ 32 := by
  have hvec := h.chained.vec
  by_cases hle : new_size ≤ (d.entry f.sde_pos).file_size
  · rw [FileSystem.incerase_size, h.sees.first_cluster h.sde_pos, h.sees.file_size h.sde_pos,
      if_pos hle]
    simp only [bind, Except.bind]
    rw [if_pos hle]
    refine ⟨d, [], (h.need_eq_zero hle).symm, .refl h, ?_, rfl⟩
    rw [List.append_nil]
    exact h
  · rw [h.incerase_size_eq hle, if_neg hle]
    -- the clusters that are needed
    have hstart : Meets (if fs.need_cluster_cnt f new_size = 0 then .ok fs
        else fs.add_clusters f (clusters.headD NEW_VIRT_FILE_CLUSTER)
          (fs.need_cluster_cnt f new_size)) (fs.Full (fs.need_cluster_cnt f new_size))
        fun fs₁ => ∃ d₁ added,
        added.length = fs.need_cluster_cnt f new_size ∧
        Started fs fs₁ d d₁ f clusters added (d.entry f.sde_pos).file_size := by
      split
      · next hzero =>
        refine ⟨d, [], hzero.symm, .refl h, ?_, rfl, [], ?_, fun _ => rfl⟩
        · rw [List.append_nil]
          exact h.first_cluster
        · rw [hvec]
      · next hpos =>
        have hpos := Nat.pos_of_ne_zero hpos
        apply (h.add_clusters hpos fun hcnt => ?_).mono
        · rintro fs₁ ⟨d₁, added, hlen, hgrown, hfirst, hsize, hbegins⟩
          exact ⟨d₁, added, hlen, hgrown, hfirst, hsize, hbegins⟩
        · rw [← hvec]
          exact hroom.allocs h.sees.shows_disk hpos hcnt
    apply hstart.bind
    rintro fs₁ ⟨d₁, added, hlen, hs₁⟩
    apply (hs₁.set_file_size h new_size).bind
    rintro fs₂ ⟨d₂, hs₂⟩
    have hdata : ∀ c ∈ clusters ++ added, fs₂.bpb.InData c := by
      rw [hs₂.grown.bpb]
      exact List.forall_mem_append.mpr ⟨h.chained.data, hs₂.grown.data⟩
    rw [hs₂.begins.generate hs₂.grown.sees hs₂.grown.chain hdata]
    have hgrown : Grown fs (fs₂.set_cluster_vec f (clusters ++ added)) d d₂ f clusters added :=
      hs₂.grown.set_cluster_vec _
    have hsize : (d₂.entry f.sde_pos).file_size = if f.is_dir then 0 else new_size % 2 ^ 32 := by
      rw [hs₂.file_size]
      split
      · next hdir => exact h.dir_size hdir
      · rfl
    refine ⟨d₂, added, hlen, hgrown, ?_, hsize⟩
    apply hgrown.owned h (Function.update_self ..) hs₂.first_cluster
    · have hcap := h.new_size_le hlen
      rw [hsize]
      split
      · exact Nat.zero_le _
      · exact (Nat.mod_le ..).trans hcap
    · intro hdir
      rw [hsize, if_pos hdir]

end Growth

end FileSystem

end MyGOS.Fat32
