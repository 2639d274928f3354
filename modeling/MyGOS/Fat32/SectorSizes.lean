import MyGOS.Fat32.Bytes

/-!
# Volumes with sectors of other sizes

A volume may have sectors of up to 4096 bytes, and the device has blocks of 512
bytes. The program counts the blocks of a cluster by its sectors, so that it
addresses a volume as it should exactly if a sector is a block.
-/

namespace MyGOS.Fat32

open Outcome FlatArray

namespace BIOSParameterBlock

/-- What the specification of FAT32 asks of the geometry of a volume. -/
structure Legal (bpb : BIOSParameterBlock) : Prop where
  byts_per_sec : bpb.byts_per_sec ∈ [512, 1024, 2048, 4096]
  sec_per_clus : ∃ k, bpb.sec_per_clus = 2 ^ k
  root_ent_cnt : bpb.root_ent_cnt = 0
  fat32 : 65525 ≤ bpb.data_cluster_cnt
  cluster_lt : bpb.data_cluster_cnt + 2 ≤ END_OF_CLUSTER

/-- The place of a cluster on the device, in bytes. -/
def byte_offset (bpb : BIOSParameterBlock) (c : Nat) : Nat :=
  (bpb.rsvd_sec_cnt + bpb.num_fats * bpb.fat_sz32 + (c - 2) * bpb.sec_per_clus) * bpb.byts_per_sec

/-- The block of a byte of a cluster, and the offset in it. -/
def spot (bpb : BIOSParameterBlock) (c i : Nat) : Nat × Nat :=
  ((bpb.byte_offset c + i) / BLOCK_SIZE, (bpb.byte_offset c + i) % BLOCK_SIZE)

/-- The same for a byte of a file with these clusters. -/
def place (bpb : BIOSParameterBlock) (clusters : List Nat) (k : Nat) : Nat × Nat :=
  bpb.spot (clusters.getD (k / bpb.cluster_size) 0) (k % bpb.cluster_size)

/-- Clusters have blocks of their own after the FAT, and the parts of the program that address
them agree on the place of each byte. -/
structure Addressing (bpb : BIOSParameterBlock) : Prop where
  disjoint : ∀ c c', bpb.InData c → bpb.InData c' → c ≠ c' → ∀ i < bpb.cluster_size,
    ∀ i' < bpb.cluster_size, (bpb.spot c i).1 ≠ (bpb.spot c' i').1
  outside_fat : ∀ c, bpb.InData c → ∀ i < bpb.cluster_size,
    (bpb.rsvd_sec_cnt + bpb.num_fats * bpb.fat_sz32) * bpb.byts_per_sec ≤
      (bpb.spot c i).1 * BLOCK_SIZE
  clear_cluster : ∀ fs : FileSystem, fs.bpb = bpb → ∀ c, bpb.InData c →
    ∃ device, fs.clear_cluster c = .ok { fs with device := device } ∧
      (∀ i < bpb.cluster_size, device (bpb.spot c i).1 (bpb.spot c i).2 = 0) ∧
      ∀ b o, (∀ i < bpb.cluster_size, bpb.spot c i ≠ (b, o)) → device b o = fs.device b o
  read_at : ∀ (fs : FileSystem) f offset len, fs.bpb = bpb →
    (∀ c ∈ fs.cluster_vec f, bpb.InData c) →
    offset + len ≤ bpb.cluster_size * (fs.cluster_vec f).length →
    fs.read_at f offset len = .ok ((List.range' offset len).map fun k =>
      fs.device (bpb.place (fs.cluster_vec f) k).1 (bpb.place (fs.cluster_vec f) k).2)
  write_at : ∀ (fs fs₁ : FileSystem) f offset buf, buf ≠ [] →
    fs.incerase_size f (offset + buf.length) = .ok fs₁ → fs₁.bpb = bpb →
    (∀ c ∈ fs₁.cluster_vec f, bpb.InData c) → (fs₁.cluster_vec f).Nodup →
    offset + buf.length ≤ bpb.cluster_size * (fs₁.cluster_vec f).length →
    ∃ device, fs.write_at f offset buf = .ok (buf.length, { fs₁ with device := device }) ∧
      (∀ k, offset ≤ k → k < offset + buf.length →
        device (bpb.place (fs₁.cluster_vec f) k).1 (bpb.place (fs₁.cluster_vec f) k).2 =
          buf.getD (k - offset) 0) ∧
      ∀ b o, (∀ k, offset ≤ k → k < offset + buf.length →
        bpb.place (fs₁.cluster_vec f) k ≠ (b, o)) → device b o = fs₁.device b o
  entries : ∀ (fs : FileSystem) f offset pos, fs.bpb = bpb →
    fs.dirent_cluster_pos f offset = .ok pos → bpb.InData pos.cluster →
    (fs.cluster_vec f)[offset / bpb.cluster_size]? = some pos.cluster →
    fs.dirent_block_pos f offset = .ok (bpb.place (fs.cluster_vec f) offset) ∧
      fs.entry_pos pos = .ok (bpb.place (fs.cluster_vec f) offset)

theorem offset_eq {bpb : BIOSParameterBlock} {c : Nat} (hc : 2 ≤ c) :
    bpb.offset c = .ok (bpb.byte_offset c) := by
  rw [offset, if_pos hc]
  rfl

section Place

variable {bpb : BIOSParameterBlock} {clusters : List Nat} {c k : Nat}

theorem place_cons_lt (h : k < bpb.cluster_size) : bpb.place (c :: clusters) k = bpb.spot c k := by
  rw [place, Nat.div_eq_of_lt h, Nat.mod_eq_of_lt h, List.getD_cons_zero]

theorem place_cons_add (hpos : 0 < bpb.cluster_size) (k : Nat) :
    bpb.place (c :: clusters) (bpb.cluster_size + k) = bpb.place clusters k := by
  rw [place, place, Nat.add_comm bpb.cluster_size, Nat.add_div_right _ hpos, Nat.add_mod_right,
    List.getD_cons_succ]

theorem place_drop (hpos : 0 < bpb.cluster_size) (n k : Nat) :
    bpb.place (clusters.drop n) k = bpb.place clusters (bpb.cluster_size * n + k) := by
  rw [place, place, Nat.mul_add_div hpos, Nat.mul_add_mod, List.getD_eq_getElem?_getD,
    List.getElem?_drop, List.getD_eq_getElem?_getD]

end Place

namespace Legal

variable {bpb : BIOSParameterBlock} (h : bpb.Legal)

include h

theorem sec_per_clus_pos : 0 < bpb.sec_per_clus := by
  obtain ⟨k, hk⟩ := h.sec_per_clus
  rw [hk]
  exact Nat.two_pow_pos k

theorem byts_per_sec_pos : 0 < bpb.byts_per_sec := by
  have hmem := h.byts_per_sec
  simp only [List.mem_cons, List.not_mem_nil, or_false] at hmem
  omega

theorem cluster_size_pos : 0 < bpb.cluster_size :=
  Nat.mul_pos h.sec_per_clus_pos h.byts_per_sec_pos

theorem first_data_sector :
    bpb.first_data_sector = bpb.rsvd_sec_cnt + bpb.num_fats * bpb.fat_sz32 := by
  have hroot : bpb.root_dir_sector_cnt = 0 := by
    rw [root_dir_sector_cnt, h.root_ent_cnt]
    exact Nat.div_eq_of_lt (by have := h.byts_per_sec_pos; omega)
  rw [BIOSParameterBlock.first_data_sector, hroot, Nat.add_zero]

theorem byte_offset_eq (c : Nat) :
    bpb.byte_offset c = bpb.first_sector_of_cluster c * bpb.byts_per_sec := by
  rw [byte_offset, first_sector_of_cluster, h.first_data_sector]

end Legal

end BIOSParameterBlock

namespace FileSystem

open BIOSParameterBlock

/-- `clear_cluster` clears as many blocks as the cluster has sectors. -/
theorem clear_blocks_run (fs : FileSystem) (first n : Nat) :
    ∃ device, (List.range n).foldlM (fun fs' i => clear_block fs' (first + i)) fs =
        .ok { fs with device := device } ∧
      ∀ b o, device b o =
        if (first ≤ b ∧ b < first + n) ∧ o < BLOCK_SIZE then 0 else fs.device b o := by
  induction n with
  | zero => exact ⟨fs.device, rfl, fun b o => by rw [if_neg (by omega)]⟩
  | succ n ih =>
    obtain ⟨device, hrun, hdevice⟩ := ih
    refine ⟨Function.update device (first + n)
      ((device (first + n)).splice 0 fun _ : Fin 512 => 0), ?_, ?_⟩
    · rw [List.range_succ, List.foldlM_append, hrun]
      simp only [ok_bind, List.foldlM_cons, List.foldlM_nil, clear_block, BlockDevice.modify]
      rw [if_pos (by decide)]
      rfl
    · intro b o
      by_cases hb : b = first + n
      · rw [hb, Function.update_self, Block.splice, hdevice]
        unfold BLOCK_SIZE
        by_cases ho : o < 512
        · rw [dif_pos (by omega), if_pos (by omega)]
        · rw [dif_neg (by omega), if_neg (by omega), if_neg (by omega)]
      · rw [Function.update_of_ne hb, hdevice]
        by_cases hin : (first ≤ b ∧ b < first + n) ∧ o < BLOCK_SIZE
        · rw [if_pos hin, if_pos (by omega)]
        · rw [if_neg hin, if_neg (by omega)]

theorem clear_cluster_run (fs : FileSystem) (c : Nat) :
    ∃ device, fs.clear_cluster c = .ok { fs with device := device } ∧
      ∀ b o, device b o =
        if (fs.bpb.first_sector_of_cluster c ≤ b ∧
          b < fs.bpb.first_sector_of_cluster c + fs.bpb.sec_per_clus) ∧ o < BLOCK_SIZE then 0
        else fs.device b o :=
  clear_blocks_run fs _ _

section Blocks

/-- The blocks of the clusters of a file. -/
def chain_blocks (bpb : BIOSParameterBlock) (clusters : List Nat) : List Nat :=
  clusters.flatMap fun c => blocks_of bpb (bpb.byte_offset c)

variable {bpb : BIOSParameterBlock} {device : BlockDevice} {buf : List UInt8}
  {offset stop left index : Nat} {clusters : List Nat}

theorem length_blocks_of (bpb : BIOSParameterBlock) (n : Nat) :
    (blocks_of bpb n).length = bpb.sec_per_clus := List.length_range' ..

theorem length_chain_blocks (bpb : BIOSParameterBlock) (clusters : List Nat) :
    (chain_blocks bpb clusters).length = bpb.sec_per_clus * clusters.length := by
  induction clusters with
  | nil => rfl
  | cons c clusters ih =>
    rw [chain_blocks, List.flatMap_cons, List.length_append, ← chain_blocks, ih, length_blocks_of,
      List.length_cons, Nat.mul_succ, Nat.add_comm]

/-- Reading one list of blocks after another. -/
theorem read_blocks_append (ids ids' : List Nat) :
    read_blocks device stop (ids ++ ids') left index =
      ((read_blocks device stop ids left index).1 ++
          (read_blocks device stop ids' (left + BLOCK_SIZE * ids.length)
            (read_blocks device stop ids left index).2).1,
        (read_blocks device stop ids' (left + BLOCK_SIZE * ids.length)
          (read_blocks device stop ids left index).2).2) := by
  induction ids generalizing left index with
  | nil => rfl
  | cons id ids ih =>
    have hleft : left + BLOCK_SIZE * (id :: ids).length =
        left + BLOCK_SIZE + BLOCK_SIZE * ids.length := by
      rw [List.length_cons, Nat.mul_succ]
      omega
    rw [List.cons_append, read_blocks, read_blocks, hleft]
    split
    · simp only
      split
      · next hstop => rw [read_blocks_done hstop, List.append_nil]
      · rw [ih, List.append_assoc]
    · exact ih

theorem read_clusters_blocks (h : ∀ c ∈ clusters, 2 ≤ c) :
    read_clusters bpb device stop clusters left index =
      .ok (read_blocks device stop (chain_blocks bpb clusters) left index).1 := by
  induction clusters generalizing left index with
  | nil => rfl
  | cons c clusters ih =>
    obtain ⟨hc, hrest⟩ := List.forall_mem_cons.mp h
    rw [chain_blocks, List.flatMap_cons, ← chain_blocks, read_blocks_append, length_blocks_of,
      read_clusters]
    split
    · rw [offset_eq hc, ok_bind]
      simp only
      rw [ih hrest, Nat.mul_comm bpb.sec_per_clus]
      rfl
    · next hstop =>
      rw [read_blocks_done (by omega), read_blocks_done (by omega)]
      rfl

/-- What a loop of writes over blocks leaves: each byte of the range in its place, and the other
bytes as they were. -/
structure BlocksFilled (device device' : BlockDevice) (buf : List UInt8) (offset stop : Nat)
    (ids : List Nat) (left index : Nat) : Prop where
  bytes : ∀ j (hj : j < ids.length), ∀ o < BLOCK_SIZE, device' ids[j] o =
    if index ≤ left + BLOCK_SIZE * j + o ∧ left + BLOCK_SIZE * j + o < stop then
      buf.getD (left + BLOCK_SIZE * j + o - offset) 0
    else device ids[j] o
  others : ∀ b o, (b ∈ ids → BLOCK_SIZE ≤ o) → device' b o = device b o

theorem BlocksFilled.nothing (h : stop ≤ index) (ids : List Nat) :
    BlocksFilled device device buf offset stop ids left index where
  bytes j hj o ho := by rw [if_neg (by omega)]
  others _ _ _ := rfl

theorem BlocksFilled.cons {device₁ device' : BlockDevice} {id index' : Nat} {ids : List Nat}
    (hid : id ∉ ids) (hfirst : ∀ o < BLOCK_SIZE, device₁ id o =
      if index ≤ left + o ∧ left + o < stop then buf.getD (left + o - offset) 0 else device id o)
    (hothers : ∀ b o, (b = id → BLOCK_SIZE ≤ o) → device₁ b o = device b o)
    (hindex : index ≤ index') (hnext : index' ≤ left + BLOCK_SIZE ∨ index' = index)
    (hrest : BlocksFilled device₁ device' buf offset stop ids (left + BLOCK_SIZE) index') :
    BlocksFilled device device' buf offset stop (id :: ids) left index where
  bytes j hj o ho := by
    cases j with
    | zero =>
      rw [List.getElem_cons_zero, hrest.others _ _ fun h => absurd h hid, hfirst o ho]
      rfl
    | succ j =>
      have hj' : j < ids.length := Nat.lt_of_succ_lt_succ hj
      have hne : ids[j] ≠ id := fun h => hid (h ▸ List.getElem_mem hj')
      have hleft : left + BLOCK_SIZE + BLOCK_SIZE * j = left + BLOCK_SIZE * (j + 1) := by
        rw [Nat.mul_succ]
        omega
      have hthere := hrest.bytes j hj' o ho
      rw [hothers _ _ fun h => absurd h hne, hleft] at hthere
      rw [List.getElem_cons_succ, hthere]
      have hiff : index' ≤ left + BLOCK_SIZE * (j + 1) + o ↔
          index ≤ left + BLOCK_SIZE * (j + 1) + o := by
        rw [Nat.mul_succ]
        omega
      simp only [hiff]
  others b o h := by
    rw [hrest.others b o fun hb => h (List.mem_cons_of_mem _ hb)]
    exact hothers b o fun hb => h (hb ▸ List.mem_cons_self)

theorem write_blocks_run {ids : List Nat} (hnodup : ids.Nodup) (h : left ≤ index)
    (hoffset : offset ≤ index) :
    ∃ device', write_blocks buf offset stop ids device left index =
        (device', max index (min stop (left + BLOCK_SIZE * ids.length))) ∧
      BlocksFilled device device' buf offset stop ids left index := by
  induction ids generalizing device left index with
  | nil =>
    refine ⟨device, ?_, fun j hj => absurd hj (Nat.not_lt_zero j), fun _ _ _ => rfl⟩
    rw [write_blocks, List.length_nil]
    congr 1
    omega
  | cons id ids ih =>
    obtain ⟨hid, hnodup⟩ := List.nodup_cons.mp hnodup
    have hlen : left + BLOCK_SIZE * (id :: ids).length =
        left + BLOCK_SIZE + BLOCK_SIZE * ids.length := by
      rw [List.length_cons, Nat.mul_succ]
      omega
    rw [write_blocks, hlen]
    by_cases hdone : stop ≤ index
    · rw [if_neg (by omega), write_blocks_done hdone]
      refine ⟨device, ?_, .nothing hdone _⟩
      congr 1
      omega
    split
    · next hin =>
      simp only
      generalize hn : min (BLOCK_SIZE - (index - left)) (stop - index) = len
      generalize hsplice : Function.update device id ((device id).splice (index - left)
        fun i : Fin len => buf.getD (index - offset + i) 0) = device₁
      have hfirst : ∀ o < BLOCK_SIZE, device₁ id o =
          if index ≤ left + o ∧ left + o < stop then buf.getD (left + o - offset) 0
          else device id o := by
        intro o ho
        rw [← hsplice, Function.update_self, Block.splice]
        by_cases hrange : index - left ≤ o ∧ o < index - left + len
        · rw [dif_pos hrange, if_pos (by omega)]
          congr 1
          show index - offset + (o - (index - left)) = _
          omega
        · rw [dif_neg hrange, if_neg (by omega)]
      have hothers : ∀ b o, (b = id → BLOCK_SIZE ≤ o) → device₁ b o = device b o := by
        intro b o hb
        rw [← hsplice]
        by_cases hbid : b = id
        · have ho := hb hbid
          rw [hbid, Function.update_self, Block.splice, dif_neg (by omega)]
        · rw [Function.update_of_ne hbid]
      by_cases hstop : stop ≤ index + len
      · rw [if_pos hstop]
        refine ⟨device₁, ?_, .cons hid hfirst hothers (Nat.le_add_right _ _) (Or.inl (by omega))
          (.nothing hstop _)⟩
        congr 1
        omega
      · rw [if_neg hstop]
        obtain ⟨device', hrun, hfilled⟩ := @ih device₁ (left + BLOCK_SIZE) (index + len) hnodup
          (by omega) (by omega)
        refine ⟨device', ?_, .cons hid hfirst hothers (Nat.le_add_right _ _) (Or.inl (by omega))
          hfilled⟩
        rw [hrun]
        congr 1
        omega
    · next hout =>
      obtain ⟨device', hrun, hfilled⟩ := @ih device (left + BLOCK_SIZE) index hnodup (by omega)
        hoffset
      refine ⟨device', hrun, .cons hid ?_ (fun _ _ _ => rfl) (Nat.le_refl _) (Or.inr rfl) hfilled⟩
      intro o ho
      rw [if_neg (by omega)]

theorem write_blocks_append (ids ids' : List Nat) :
    write_blocks buf offset stop (ids ++ ids') device left index =
      write_blocks buf offset stop ids' (write_blocks buf offset stop ids device left index).1
        (left + BLOCK_SIZE * ids.length)
        (write_blocks buf offset stop ids device left index).2 := by
  induction ids generalizing device left index with
  | nil => rfl
  | cons id ids ih =>
    have hleft : left + BLOCK_SIZE * (id :: ids).length =
        left + BLOCK_SIZE + BLOCK_SIZE * ids.length := by
      rw [List.length_cons, Nat.mul_succ]
      omega
    rw [List.cons_append, write_blocks, write_blocks, hleft]
    split
    · simp only
      split
      · next hstop => rw [write_blocks_done hstop]
      · exact ih
    · exact ih

theorem write_clusters_blocks (hc : ∀ c ∈ clusters, 2 ≤ c)
    (hnodup : (chain_blocks bpb clusters).Nodup) (h : left ≤ index) (hoffset : offset ≤ index)
    (hstop : stop ≤ left + BLOCK_SIZE * (chain_blocks bpb clusters).length) :
    write_clusters bpb buf offset stop clusters device left index =
      .ok (write_blocks buf offset stop (chain_blocks bpb clusters) device left index).1 := by
  induction clusters generalizing device left index with
  | nil =>
    rw [write_clusters_done (hstop.trans h)]
    rfl
  | cons c clusters ih =>
    obtain ⟨hc2, hrest⟩ := List.forall_mem_cons.mp hc
    rw [chain_blocks, List.flatMap_cons, ← chain_blocks] at hnodup hstop ⊢
    rw [List.length_append, length_blocks_of] at hstop
    by_cases hdone : stop ≤ index
    · rw [write_clusters_done hdone, write_blocks_done hdone]
    obtain ⟨device₁, hrun, -⟩ := @write_blocks_run device buf offset stop left index
      (blocks_of bpb (bpb.byte_offset c)) hnodup.of_append_left h hoffset
    rw [write_blocks_append, hrun, length_blocks_of, write_clusters, if_pos (by omega)]
    simp only
    rw [offset_eq hc2, ok_bind]
    simp only [hrun, length_blocks_of, Nat.mul_comm bpb.sec_per_clus]
    by_cases hnext : stop ≤ max index (min stop (left + BLOCK_SIZE * bpb.sec_per_clus))
    · rw [write_clusters_done hnext, write_blocks_done hnext]
    · apply ih hrest hnodup.of_append_right
      · omega
      · omega
      · rw [Nat.mul_add] at hstop
        omega

end Blocks

end FileSystem

namespace BIOSParameterBlock

variable {bpb : BIOSParameterBlock}

/-- With larger sectors the last blocks of a cluster are not cleared. -/
theorem Legal.byts_per_sec_of_addressing (h : bpb.Legal) (ha : bpb.Addressing) :
    bpb.byts_per_sec = BLOCK_SIZE := by
  have hdata : bpb.InData 2 := ⟨Nat.le_refl 2, by have := h.fat32; omega⟩
  let fs : FileSystem := ⟨fun _ _ => 1, 0, bpb, [], fun _ => 0, fun _ => [], 0⟩
  obtain ⟨device, hrun, hzero, -⟩ := ha.clear_cluster fs rfl 2 hdata
  obtain ⟨device', hrun', hdevice⟩ := fs.clear_cluster_run 2
  obtain rfl : device = device' := by
    rw [hrun] at hrun'
    exact congrArg FileSystem.device (Except.ok.inj hrun')
  have hspc := h.sec_per_clus_pos
  have hbyts := h.byts_per_sec_pos
  have hsize := h.cluster_size_pos
  have hlast := hzero (bpb.cluster_size - 1) (by omega)
  rw [hdevice] at hlast
  split at hlast
  · next hin =>
    -- the last block of the cluster is among the first `sec_per_clus` ones
    have hlt := hin.1.2
    rw [spot, h.byte_offset_eq, Nat.div_lt_iff_lt_mul (by decide)] at hlt
    have hle : (bpb.first_sector_of_cluster 2 + bpb.sec_per_clus) * bpb.byts_per_sec ≤
        (bpb.first_sector_of_cluster 2 + bpb.sec_per_clus) * BLOCK_SIZE := by
      rw [Nat.add_mul _ _ bpb.byts_per_sec]
      have hcluster : bpb.cluster_size = bpb.sec_per_clus * bpb.byts_per_sec := rfl
      have hbpb : fs.bpb = bpb := rfl
      rw [hbpb] at hlt
      omega
    have hbound : bpb.byts_per_sec ≤ BLOCK_SIZE := Nat.le_of_mul_le_mul_left hle (by omega)
    have hmem := h.byts_per_sec
    simp only [List.mem_cons, List.not_mem_nil, or_false] at hmem
    unfold BLOCK_SIZE at hbound ⊢
    omega
  · have hone : (1 : UInt8) = 0 := hlast
    exact absurd hone (by decide)

section OneBlock

variable (h : bpb.Legal) (hbyts : bpb.byts_per_sec = BLOCK_SIZE) {clusters : List Nat} {c i k : Nat}

include hbyts

theorem cluster_size_eq : bpb.cluster_size = BLOCK_SIZE * bpb.sec_per_clus := by
  rw [cluster_size, hbyts, Nat.mul_comm]

include h

theorem spot_eq (c i : Nat) :
    bpb.spot c i = (bpb.first_sector_of_cluster c + i / BLOCK_SIZE, i % BLOCK_SIZE) := by
  rw [spot, h.byte_offset_eq, hbyts, Nat.mul_comm]
  rw [Nat.mul_add_div (by decide), Nat.mul_add_mod]

theorem blocks_of_eq (c : Nat) : FileSystem.blocks_of bpb (bpb.byte_offset c) =
    List.range' (bpb.first_sector_of_cluster c) bpb.sec_per_clus := by
  rw [FileSystem.blocks_of, h.byte_offset_eq, hbyts, Nat.mul_div_cancel _ (by decide)]

/-- The blocks of a file in the order of its bytes. -/
theorem getD_chain_blocks (hk : k < bpb.cluster_size * clusters.length) :
    ((FileSystem.chain_blocks bpb clusters).getD (k / BLOCK_SIZE) 0, k % BLOCK_SIZE) =
      bpb.place clusters k := by
  induction clusters generalizing k with
  | nil => exact absurd hk (Nat.not_lt_zero k)
  | cons c clusters ih =>
    have hsize := cluster_size_eq hbyts
    rw [FileSystem.chain_blocks, List.flatMap_cons, ← FileSystem.chain_blocks]
    by_cases hlt : k < bpb.cluster_size
    · have hblock : k / BLOCK_SIZE < bpb.sec_per_clus := Nat.div_lt_of_lt_mul (hsize ▸ hlt)
      rw [place_cons_lt hlt, spot_eq h hbyts, blocks_of_eq h hbyts,
        List.getD_append _ _ _ _ (by simpa using hblock),
        List.getD_eq_getElem _ _ (by simpa using hblock), List.getElem_range', Nat.one_mul]
    · obtain ⟨j, rfl⟩ := Nat.exists_eq_add_of_le (not_lt.mp hlt)
      rw [List.length_cons, Nat.mul_succ] at hk
      rw [place_cons_add h.cluster_size_pos, ← ih (by omega), hsize, Nat.mul_add_div (by decide),
        Nat.mul_add_mod, List.getD_append_right _ _ _ _ (by simp [FileSystem.length_blocks_of]),
        FileSystem.length_blocks_of, Nat.add_sub_cancel_left]

theorem chain_blocks_nodup (hdata : ∀ c ∈ clusters, bpb.InData c) (hnodup : clusters.Nodup) :
    (FileSystem.chain_blocks bpb clusters).Nodup := by
  rw [FileSystem.chain_blocks, List.nodup_flatMap]
  constructor
  · intro c _
    exact List.nodup_range'
  · refine hnodup.imp_of_mem ?_
    intro c c' hc hc' hne
    simp only [Function.onFun, blocks_of_eq h hbyts]
    intro b hb hb'
    obtain ⟨n, hn, rfl⟩ := List.mem_range'.mp hb
    obtain ⟨n', hn', heq⟩ := List.mem_range'.mp hb'
    rw [Nat.one_mul, Nat.one_mul] at heq
    exact sector_ne h.sec_per_clus_pos (hdata c hc).1 (hdata c' hc').1 hne hn hn' heq

/-- A byte of a file has a place of its own in its blocks. -/
theorem place_block (hk : k < bpb.cluster_size * clusters.length) :
    ∃ hj : k / BLOCK_SIZE < (FileSystem.chain_blocks bpb clusters).length,
      bpb.place clusters k = ((FileSystem.chain_blocks bpb clusters)[k / BLOCK_SIZE],
        k % BLOCK_SIZE) := by
  have hj : k / BLOCK_SIZE < (FileSystem.chain_blocks bpb clusters).length := by
    rw [FileSystem.length_chain_blocks]
    rw [cluster_size_eq hbyts, Nat.mul_assoc] at hk
    exact Nat.div_lt_of_lt_mul hk
  exact ⟨hj, by rw [← getD_chain_blocks h hbyts hk, List.getD_eq_getElem _ _ hj]⟩

/-- The blocks after the clusters that `read_at` and `write_at` skip hold the rest of the file. -/
theorem place_skip (offset : Nat) (hk : k < bpb.cluster_size * clusters.length)
    (hle : offset / bpb.cluster_size * bpb.cluster_size ≤ k) :
    ((FileSystem.chain_blocks bpb (clusters.drop (offset / bpb.cluster_size))).getD
        ((k - offset / bpb.cluster_size * bpb.cluster_size) / BLOCK_SIZE) 0,
      (k - offset / bpb.cluster_size * bpb.cluster_size) % BLOCK_SIZE) = bpb.place clusters k := by
  rw [getD_chain_blocks h hbyts, place_drop h.cluster_size_pos, Nat.mul_comm bpb.cluster_size,
    Nat.add_sub_cancel' hle]
  rw [List.length_drop, Nat.mul_sub, Nat.mul_comm _ (offset / bpb.cluster_size)]
  omega

omit h in
theorem skipped_length (offset : Nat) {stop : Nat}
    (hstop : stop ≤ bpb.cluster_size * clusters.length) :
    stop ≤ offset / bpb.cluster_size * bpb.cluster_size + BLOCK_SIZE *
      (FileSystem.chain_blocks bpb (clusters.drop (offset / bpb.cluster_size))).length := by
  rw [FileSystem.length_chain_blocks, ← Nat.mul_assoc, ← cluster_size_eq hbyts, List.length_drop,
    Nat.mul_sub, Nat.mul_comm _ (offset / bpb.cluster_size)]
  omega

theorem addressing_read {fs : FileSystem} {f : VirtFile} {offset len : Nat} (hfs : fs.bpb = bpb)
    (hdata : ∀ c ∈ fs.cluster_vec f, bpb.InData c)
    (hlen : offset + len ≤ bpb.cluster_size * (fs.cluster_vec f).length) :
    fs.read_at f offset len = .ok ((List.range' offset len).map fun k =>
      fs.device (bpb.place (fs.cluster_vec f) k).1 (bpb.place (fs.cluster_vec f) k).2) := by
  subst hfs
  rw [FileSystem.read_at]
  split
  · next hzero => rw [hzero]; rfl
  have hpre : offset / fs.bpb.cluster_size * fs.bpb.cluster_size ≤ offset := Nat.div_mul_le_self ..
  have hdrop : ∀ c ∈ (fs.cluster_vec f).drop (offset / fs.bpb.cluster_size), 2 ≤ c :=
    fun c hc => (hdata c (List.mem_of_mem_drop hc)).1
  have hstop := skipped_length hbyts offset hlen
  simp only
  rw [FileSystem.read_clusters_blocks hdrop, FileSystem.read_blocks_eq _ hpre,
    Nat.min_eq_left hstop, Nat.add_sub_cancel_left]
  congr 1
  apply List.map_congr_left
  intro k hk
  obtain ⟨hlow, hhigh⟩ := List.mem_range'_1.mp hk
  rw [← place_skip h hbyts offset (Nat.lt_of_lt_of_le hhigh hlen) (hpre.trans hlow)]

theorem addressing_write {fs fs₁ : FileSystem} {f : VirtFile} {offset : Nat} {buf : List UInt8}
    (hne : buf ≠ []) (hgrow : fs.incerase_size f (offset + buf.length) = .ok fs₁)
    (hfs : fs₁.bpb = bpb) (hdata : ∀ c ∈ fs₁.cluster_vec f, bpb.InData c)
    (hnodup : (fs₁.cluster_vec f).Nodup)
    (hlen : offset + buf.length ≤ bpb.cluster_size * (fs₁.cluster_vec f).length) :
    ∃ device, fs.write_at f offset buf = .ok (buf.length, { fs₁ with device := device }) ∧
      (∀ k, offset ≤ k → k < offset + buf.length →
        device (bpb.place (fs₁.cluster_vec f) k).1 (bpb.place (fs₁.cluster_vec f) k).2 =
          buf.getD (k - offset) 0) ∧
      ∀ b o, (∀ k, offset ≤ k → k < offset + buf.length →
        bpb.place (fs₁.cluster_vec f) k ≠ (b, o)) → device b o = fs₁.device b o := by
  subst hfs
  have hpre : offset / fs₁.bpb.cluster_size * fs₁.bpb.cluster_size ≤ offset :=
    Nat.div_mul_le_self ..
  have hdrop : ∀ c ∈ (fs₁.cluster_vec f).drop (offset / fs₁.bpb.cluster_size),
      fs₁.bpb.InData c := fun c hc => hdata c (List.mem_of_mem_drop hc)
  have hblocks := chain_blocks_nodup h hbyts hdrop (hnodup.sublist (List.drop_sublist _ _))
  have hstop := skipped_length hbyts offset hlen
  obtain ⟨device, hrun, hfilled⟩ := @FileSystem.write_blocks_run fs₁.device buf offset
    (offset + buf.length) _ offset _ hblocks hpre (Nat.le_refl offset)
  refine ⟨device, ?_, ?_, ?_⟩
  · rw [FileSystem.write_at, if_neg hne, hgrow, ok_bind]
    simp only
    rw [FileSystem.write_clusters_blocks (fun c hc => (hdrop c hc).1) hblocks hpre
      (Nat.le_refl offset) hstop, hrun]
    rfl
  · intro k hlow hhigh
    rw [← place_skip h hbyts offset (Nat.lt_of_lt_of_le hhigh hlen)
      (hpre.trans hlow)]
    generalize hbase : offset / fs₁.bpb.cluster_size * fs₁.bpb.cluster_size = left at *
    have hj : (k - left) / BLOCK_SIZE < (FileSystem.chain_blocks fs₁.bpb
        ((fs₁.cluster_vec f).drop (offset / fs₁.bpb.cluster_size))).length :=
      Nat.div_lt_of_lt_mul (by omega)
    have hk : left + BLOCK_SIZE * ((k - left) / BLOCK_SIZE) + (k - left) % BLOCK_SIZE = k := by
      have hdiv := Nat.div_add_mod (k - left) BLOCK_SIZE
      omega
    have hbyte := hfilled.bytes _ hj _ (Nat.mod_lt (k - left) (by decide))
    rw [hk, if_pos ⟨hlow, hhigh⟩] at hbyte
    simp only
    rw [List.getD_eq_getElem _ _ hj, hbyte]
  · intro b o hout
    by_cases hin : b ∈ FileSystem.chain_blocks fs₁.bpb
        ((fs₁.cluster_vec f).drop (offset / fs₁.bpb.cluster_size)) ∧ o < BLOCK_SIZE
    · obtain ⟨hb, ho⟩ := hin
      obtain ⟨j, hj, rfl⟩ := List.getElem_of_mem hb
      rw [hfilled.bytes j hj o ho, if_neg]
      rintro ⟨hlow, hhigh⟩
      apply hout _ hlow hhigh
      rw [← place_skip h hbyts offset (Nat.lt_of_lt_of_le hhigh hlen)
        (hpre.trans hlow), Nat.add_assoc, Nat.add_sub_cancel_left, Nat.mul_add_div (by decide),
        Nat.mul_add_mod, Nat.div_eq_of_lt ho, Nat.mod_eq_of_lt ho, Nat.add_zero,
        List.getD_eq_getElem _ _ hj]
    · exact hfilled.others b o fun hb => not_lt.mp fun ho => hin ⟨hb, ho⟩

/-- With sectors of the size of a block, all parts agree. -/
theorem addressing : bpb.Addressing where
  disjoint c c' hc hc' hne i hi i' hi' := by
    rw [spot_eq h hbyts, spot_eq h hbyts]
    rw [cluster_size_eq hbyts] at hi hi'
    exact sector_ne h.sec_per_clus_pos hc.1 hc'.1 hne (Nat.div_lt_of_lt_mul hi)
      (Nat.div_lt_of_lt_mul hi')
  outside_fat c _ i _ := by
    rw [spot_eq h hbyts, hbyts, ← h.first_data_sector]
    exact Nat.mul_le_mul_right _ (data_block_ge bpb c _)
  clear_cluster fs hfs c _ := by
    subst hfs
    obtain ⟨device, hrun, hdevice⟩ := fs.clear_cluster_run c
    refine ⟨device, hrun, ?_, ?_⟩
    · intro i hi
      rw [cluster_size_eq hbyts] at hi
      have hblock := Nat.div_lt_of_lt_mul hi
      rw [spot_eq h hbyts, hdevice, if_pos]
      exact ⟨⟨Nat.le_add_right _ _, by simpa using hblock⟩, Nat.mod_lt _ (by decide)⟩
    · intro b o hout
      rw [hdevice, if_neg]
      rintro ⟨⟨hle, hlt⟩, ho⟩
      obtain ⟨j, rfl⟩ := Nat.exists_eq_add_of_le hle
      apply hout (BLOCK_SIZE * j + o)
      · rw [cluster_size_eq hbyts]
        have hmul := Nat.mul_le_mul_left BLOCK_SIZE (show j + 1 ≤ fs.bpb.sec_per_clus by omega)
        rw [Nat.mul_succ] at hmul
        omega
      · rw [spot_eq h hbyts, Nat.mul_add_div (by decide), Nat.mul_add_mod, Nat.div_eq_of_lt ho,
          Nat.mod_eq_of_lt ho, Nat.add_zero]
  read_at _ _ _ _ hfs hdata hlen := addressing_read h hbyts hfs hdata hlen
  write_at _ _ _ _ _ hne hgrow hfs hdata hnodup hlen :=
    addressing_write h hbyts hne hgrow hfs hdata hnodup hlen
  entries fs f offset pos hfs hpos hdata hvec := by
    subst hfs
    have hplace : fs.bpb.place (fs.cluster_vec f) offset =
        fs.bpb.spot pos.cluster (offset % fs.bpb.cluster_size) := by
      rw [place, List.getD_eq_getElem?_getD, hvec]
      rfl
    have hoff : pos.offset_in_cluster = offset % fs.bpb.cluster_size := by
      rw [FileSystem.dirent_cluster_pos] at hpos
      obtain ⟨start, -, hpos⟩ := bind_eq_ok.mp hpos
      obtain ⟨cluster, -, hpos⟩ := bind_eq_ok.mp hpos
      cases cluster with
      | none => cases hpos
      | some cluster => exact congrArg DirEntryPos.offset_in_cluster (Except.ok.inj hpos).symm
    rw [hplace, ← hoff]
    constructor
    · rw [FileSystem.dirent_block_pos, hpos, ok_bind, offset_eq hdata.1, ok_bind, if_pos]
      · rw [spot, h.byte_offset_eq, hbyts, Nat.mul_comm, Nat.mul_add_div (by decide),
          Nat.mul_add_mod, Nat.mul_div_cancel_left _ (by decide)]
        rfl
      · rw [h.byte_offset_eq, hbyts, Nat.mul_mod_left]
    · have hlt : pos.cluster < END_OF_CLUSTER := Nat.lt_of_lt_of_le hdata.2 h.cluster_lt
      rw [FileSystem.entry_pos, if_pos hlt, offset_eq hdata.1, ok_bind, Nat.add_comm]
      rfl

end OneBlock

/-- On a legal volume the program addresses the disk as it should exactly if a sector has the
size of a block of the device. -/
theorem addressing_iff (h : bpb.Legal) : bpb.Addressing ↔ bpb.byts_per_sec = BLOCK_SIZE :=
  ⟨h.byts_per_sec_of_addressing, addressing h⟩

/-- A volume of 100000 sectors. -/
def large_volume (byts_per_sec : Nat) : BIOSParameterBlock :=
  ⟨byts_per_sec, 1, 32, 2, 0, 100000, 800, 2, 1⟩

theorem addressing_large_volume : (large_volume 512).Addressing :=
  (addressing_iff ⟨by decide, ⟨0, rfl⟩, rfl, by decide, by decide⟩).mpr rfl

/-- With sectors of 1024 bytes a block of the FAT is cleared in place of the first cluster. -/
theorem not_addressing_larger_sectors :
    (large_volume 1024).Legal ∧ ¬ (large_volume 1024).Addressing := by
  have h : (large_volume 1024).Legal := ⟨by decide, ⟨0, rfl⟩, rfl, by decide, by decide⟩
  exact ⟨h, fun ha => absurd (h.byts_per_sec_of_addressing ha) (by decide)⟩

end BIOSParameterBlock

end MyGOS.Fat32
