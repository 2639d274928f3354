import MyGOS.Fat32.Alloc
import MyGOS.Lib.FlatArray
import Mathlib.Data.List.GetD

/-!
# Reads and writes along a chain

A file is a flat array: the bytes of its clusters one after the other. The loops
over clusters and blocks read and write ranges of it.
-/

namespace MyGOS.Fat32

open Outcome FlatArray

namespace Disk

/-- The bytes of the clusters, one after the other. -/
def content (d : Disk) (cluster_size : Nat) (clusters : List Nat) : Nat → UInt8 := fun k =>
  d.data (clusters.getD (k / cluster_size) 0) (k % cluster_size)

variable (d : Disk) {cluster_size : Nat} (c : Nat) (clusters : List Nat) {k : Nat}

theorem content_cons_lt (h : k < cluster_size) :
    d.content cluster_size (c :: clusters) k = d.data c k := by
  rw [content, Nat.div_eq_of_lt h, Nat.mod_eq_of_lt h, List.getD_cons_zero]

theorem content_cons_ge (hpos : 0 < cluster_size) (h : cluster_size ≤ k) :
    d.content cluster_size (c :: clusters) k =
      d.content cluster_size clusters (k - cluster_size) := by
  obtain ⟨j, rfl⟩ := Nat.exists_eq_add_of_le' h
  rw [content, content, Nat.add_div_right _ hpos, Nat.add_mod_right, List.getD_cons_succ,
    Nat.add_sub_cancel]

theorem content_drop (hpos : 0 < cluster_size) (n k : Nat) :
    d.content cluster_size (clusters.drop n) k =
      d.content cluster_size clusters (cluster_size * n + k) := by
  rw [content, content, Nat.mul_add_div hpos, Nat.mul_add_mod, List.getD_eq_getElem?_getD,
    List.getElem?_drop, List.getD_eq_getElem?_getD]

/-- Bytes of a cluster that starts at `base` are replaced, those from `lo` to `hi` of the file. -/
def write (d : Disk) (c base lo hi : Nat) (v : Nat → UInt8) : Disk :=
  { d with data := Function.update d.data c fun i =>
      if lo ≤ base + i ∧ base + i < hi then v (base + i) else d.data c i }

section Write

variable (base lo hi : Nat) (v : Nat → UInt8)

@[simp] theorem write_next : (d.write c base lo hi v).next = d.next := rfl

theorem write_data_self (i : Nat) : (d.write c base lo hi v).data c i =
    if lo ≤ base + i ∧ base + i < hi then v (base + i) else d.data c i :=
  congrFun (Function.update_self (β := fun _ => Nat → UInt8) ..) i

theorem write_data_of_ne {c' : Nat} (h : c' ≠ c) :
    (d.write c base lo hi v).data c' = d.data c' := Function.update_of_ne h ..

end Write

theorem content_congr {d' : Disk} {clusters : List Nat} (h : ∀ c ∈ clusters, d'.data c = d.data c)
    (hk : k < cluster_size * clusters.length) :
    d'.content cluster_size clusters k = d.content cluster_size clusters k := by
  have hlt : k / cluster_size < clusters.length := Nat.div_lt_of_lt_mul hk
  rw [content, content, List.getD_eq_getElem _ _ hlt, h _ (List.getElem_mem hlt)]

/-- Bytes of a file are replaced, those from `lo` to `hi`. -/
def writes (d : Disk) (cluster_size lo hi : Nat) (v : Nat → UInt8) :
    (clusters : List Nat) → (left : Nat) → Disk
  | [], _ => d
  | c :: clusters, left =>
    writes (d.write c left lo hi v) cluster_size lo hi v clusters (left + cluster_size)

section Writes

variable {lo hi left : Nat} {v : Nat → UInt8}

theorem writes_next (d : Disk) (clusters : List Nat) (left : Nat) :
    (d.writes cluster_size lo hi v clusters left).next = d.next := by
  induction clusters generalizing d left with
  | nil => rfl
  | cons c clusters ih => exact ih (d.write c left lo hi v) (left + cluster_size)

theorem writes_data_of_notMem {clusters : List Nat} (hc : c ∉ clusters) :
    (d.writes cluster_size lo hi v clusters left).data c = d.data c := by
  induction clusters generalizing d left with
  | nil => rfl
  | cons c' clusters ih =>
    rw [List.mem_cons, not_or] at hc
    exact (ih (d.write c' left lo hi v) hc.2).trans (write_data_of_ne _ _ _ _ _ _ hc.1)

/-- The lower bound does not matter when all clusters are above it. -/
theorem writes_congr_lo {lo' : Nat} (d : Disk) (clusters : List Nat) (h : lo ≤ left)
    (h' : lo' ≤ left) : d.writes cluster_size lo hi v clusters left =
      d.writes cluster_size lo' hi v clusters left := by
  induction clusters generalizing d left with
  | nil => rfl
  | cons c clusters ih =>
    have hwrite : d.write c left lo hi v = d.write c left lo' hi v := by
      unfold write
      congr 2
      funext i
      exact if_congr (by omega) rfl rfl
    rw [writes, writes, hwrite]
    exact ih _ (by omega) (by omega)

theorem writes_content {clusters : List Nat} (hnodup : clusters.Nodup) (hpos : 0 < cluster_size)
    (hk : k < cluster_size * clusters.length) :
    (d.writes cluster_size lo hi v clusters left).content cluster_size clusters k =
      if lo ≤ left + k ∧ left + k < hi then v (left + k)
      else d.content cluster_size clusters k := by
  induction clusters generalizing d left k with
  | nil => exact absurd hk (by simp)
  | cons c clusters ih =>
    obtain ⟨hc, hrest⟩ := List.nodup_cons.mp hnodup
    by_cases hlt : k < cluster_size
    · rw [content_cons_lt _ _ _ hlt, content_cons_lt _ _ _ hlt, writes,
        writes_data_of_notMem _ _ hc, write_data_self]
    · have hle := Nat.le_of_not_lt hlt
      have hk' : k - cluster_size < cluster_size * clusters.length := by
        rw [List.length_cons, Nat.mul_succ] at hk
        omega
      have hsum : left + cluster_size + (k - cluster_size) = left + k := by omega
      have hsame : ∀ x ∈ clusters, (d.write c left lo hi v).data x = d.data x := by
        intro x hx
        apply write_data_of_ne
        rintro rfl
        exact hc hx
      rw [content_cons_ge _ _ _ hpos hle, content_cons_ge _ _ _ hpos hle, writes, ih _ hrest hk',
        hsum, content_congr d hsame hk']

end Writes

/-- What a write of `buf` at `offset` does to a file. -/
structure Written (d d' : Disk) (cluster_size : Nat) (clusters : List Nat) (offset : Nat)
    (buf : List UInt8) : Prop where
  next : d'.next = d.next
  content : ∀ k < cluster_size * clusters.length, d'.content cluster_size clusters k =
    if offset ≤ k ∧ k < offset + buf.length then buf.getD (k - offset) 0
    else d.content cluster_size clusters k
  data_of_notMem : ∀ c, c ∉ clusters → d'.data c = d.data c

/-- The clusters before the offset are not written. -/
theorem writes_written {clusters : List Nat} (hnodup : clusters.Nodup) (hpos : 0 < cluster_size)
    (offset : Nat) (buf : List UInt8) : Written d
      (d.writes cluster_size offset (offset + buf.length) (fun k => buf.getD (k - offset) 0)
        (clusters.drop (offset / cluster_size)) (offset / cluster_size * cluster_size))
      cluster_size clusters offset buf where
  next := writes_next d _ _
  data_of_notMem c hc := writes_data_of_notMem _ _ fun h => hc (List.mem_of_mem_drop h)
  content k hk := by
    generalize hpre : offset / cluster_size = pre
    have hleft : pre * cluster_size ≤ offset := hpre ▸ Nat.div_mul_le_self ..
    by_cases hlt : k < pre * cluster_size
    · have hidx : k / cluster_size < pre := Nat.div_lt_of_lt_mul (by rwa [Nat.mul_comm])
      have hlen : k / cluster_size < clusters.length := Nat.div_lt_of_lt_mul hk
      have hnot : clusters[k / cluster_size] ∉ clusters.drop pre := by
        intro hmem
        have htake : clusters[k / cluster_size] ∈ clusters.take pre := by
          rw [List.mem_take_iff_getElem]
          exact ⟨k / cluster_size, by omega, rfl⟩
        exact List.disjoint_take_drop hnodup le_rfl htake hmem
      rw [if_neg (by omega), Disk.content, Disk.content, List.getD_eq_getElem _ _ hlen,
        writes_data_of_notMem _ _ hnot]
    · obtain ⟨j, rfl⟩ := Nat.exists_eq_add_of_le (not_lt.mp hlt)
      have hj : j < cluster_size * (clusters.drop pre).length := by
        rw [List.length_drop, Nat.mul_sub, Nat.mul_comm cluster_size pre]
        omega
      have hwrites := @writes_content d cluster_size _ offset (offset + buf.length)
        (pre * cluster_size) (fun k => buf.getD (k - offset) 0) _
        (hnodup.sublist (List.drop_sublist ..)) hpos hj
      rw [content_drop _ _ hpos, content_drop _ _ hpos, Nat.mul_comm cluster_size pre] at hwrites
      exact hwrites

end Disk

namespace FileSystem

section ReadBlocks

variable {device : BlockDevice} {stop left index : Nat}

theorem read_blocks_done (h : stop ≤ index) (ids : List Nat) :
    read_blocks device stop ids left index = ([], index) := by
  induction ids generalizing left with
  | nil => rfl
  | cons id ids ih => rw [read_blocks, if_neg (by omega), ih]

theorem read_blocks_eq (ids : List Nat) (h : left ≤ index) :
    read_blocks device stop ids left index =
      (slice (fun k => device (ids.getD ((k - left) / BLOCK_SIZE) 0) ((k - left) % BLOCK_SIZE)) index
        (min stop (left + BLOCK_SIZE * ids.length) - index),
      max index (min stop (left + BLOCK_SIZE * ids.length))) := by
  induction ids generalizing left index with
  | nil =>
    have hlen : min stop (left + BLOCK_SIZE * 0) - index = 0 := by omega
    have hmax : max index (min stop (left + BLOCK_SIZE * 0)) = index := by omega
    rw [List.length_nil, hlen, hmax]
    rfl
  | cons id ids ih =>
    -- what is in the blocks after the first one
    have hrest : ∀ k, left + BLOCK_SIZE ≤ k →
        device (ids.getD ((k - (left + BLOCK_SIZE)) / BLOCK_SIZE) 0)
          ((k - (left + BLOCK_SIZE)) % BLOCK_SIZE) =
        device ((id :: ids).getD ((k - left) / BLOCK_SIZE) 0) ((k - left) % BLOCK_SIZE) := by
      intro k hk
      obtain ⟨j, rfl⟩ := Nat.exists_eq_add_of_le hk
      have hsub : left + BLOCK_SIZE + j - left = j + BLOCK_SIZE := by omega
      rw [hsub, Nat.add_sub_cancel_left, Nat.add_div_right _ (by decide), Nat.add_mod_right,
        List.getD_cons_succ]
    have hlen : left + BLOCK_SIZE * (id :: ids).length =
        left + BLOCK_SIZE + BLOCK_SIZE * ids.length := by
      rw [List.length_cons]
      unfold BLOCK_SIZE
      omega
    have hfirst : ∀ k, left ≤ k → k < left + BLOCK_SIZE →
        device ((id :: ids).getD ((k - left) / BLOCK_SIZE) 0) ((k - left) % BLOCK_SIZE) =
        device id (k - left) := by
      intro k hk hk'
      rw [Nat.div_eq_of_lt (by omega), Nat.mod_eq_of_lt (by omega), List.getD_cons_zero]
    rw [read_blocks, hlen]
    split
    · next hin =>
      have hbytes : List.ofFn ((device id).slice (index - left)
          (min (BLOCK_SIZE - (index - left)) (stop - index))) =
          slice (fun k => device ((id :: ids).getD ((k - left) / BLOCK_SIZE) 0)
            ((k - left) % BLOCK_SIZE)) index (min (BLOCK_SIZE - (index - left)) (stop - index)) := by
        apply List.ext_getElem
        · simp
        · intro i hi hi'
          rw [length_slice] at hi'
          simp only [List.getElem_ofFn, slice, List.getElem_map, List.getElem_range', Nat.one_mul]
          rw [hfirst _ (by omega) (by omega)]
          exact congrArg (device id) (Nat.sub_add_comm hin.1).symm
      simp only [hbytes]
      generalize hn : min (BLOCK_SIZE - (index - left)) (stop - index) = n
      split
      · next hstop =>
        congr 1
        · congr 1
          omega
        · omega
      · next hstop =>
        rw [ih (by omega), slice_congr fun k hk _ => hrest k (by omega), slice_append]
        congr 1
        · congr 1
          omega
        · omega
    · next hout =>
      by_cases hdone : stop ≤ index
      · rw [read_blocks_done hdone]
        have hzero : min stop (left + BLOCK_SIZE + BLOCK_SIZE * ids.length) - index = 0 := by omega
        have hmax : max index (min stop (left + BLOCK_SIZE + BLOCK_SIZE * ids.length)) = index := by
          omega
        rw [hzero, hmax]
        rfl
      · rw [ih (by omega), slice_congr fun k hk _ => hrest k (by omega)]

end ReadBlocks

theorem read_clusters_done {bpb : BIOSParameterBlock} {device : BlockDevice}
    {stop left index : Nat} (h : stop ≤ index) (clusters : List Nat) :
    read_clusters bpb device stop clusters left index = .ok [] := by
  cases clusters with
  | nil => rfl
  | cons c clusters => rw [read_clusters, if_neg (by omega)]

section ReadAt

variable {fs : FileSystem} {d : Disk} (L : fs.bpb.Layout) (hs : fs.Shows d) {stop left index : Nat}

include L hs

theorem read_cluster_eq {c : Nat} (hc : fs.bpb.InData c) (h : left ≤ index) :
    read_blocks fs.device stop
        (blocks_of fs.bpb (fs.bpb.first_sector_of_cluster c * BLOCK_SIZE)) left index =
      (slice (fun k => d.data c (k - left)) index
        (min stop (left + fs.bpb.cluster_size) - index),
      max index (min stop (left + fs.bpb.cluster_size))) := by
  have hlen : BLOCK_SIZE * (blocks_of fs.bpb (fs.bpb.first_sector_of_cluster c * BLOCK_SIZE)).length =
      fs.bpb.cluster_size := by
    rw [blocks_of, List.length_range', L.cluster_size, Nat.mul_comm]
  rw [read_blocks_eq _ h, hlen]
  congr 1
  apply slice_congr
  intro k hk hk'
  have hlt : k - left < fs.bpb.cluster_size := by omega
  have hblock := L.block_lt hlt
  rw [← hs.data c hc _ hlt, blocks_of, Nat.mul_div_cancel _ (by decide),
    List.getD_eq_getElem _ _ (by simpa using hblock), List.getElem_range', Nat.one_mul]

theorem read_clusters_eq {clusters : List Nat} (hdata : ∀ c ∈ clusters, fs.bpb.InData c)
    (h : left ≤ index) :
    read_clusters fs.bpb fs.device stop clusters left index =
      .ok (slice (fun k => d.content fs.bpb.cluster_size clusters (k - left)) index
        (min stop (left + fs.bpb.cluster_size * clusters.length) - index)) := by
  induction clusters generalizing left index with
  | nil =>
    have hlen : min stop (left + fs.bpb.cluster_size * 0) - index = 0 := by omega
    rw [List.length_nil, hlen]
    rfl
  | cons c clusters ih =>
    obtain ⟨hc, hrest⟩ := List.forall_mem_cons.mp hdata
    have hpos := L.cluster_size_pos
    have hlen : left + fs.bpb.cluster_size * (c :: clusters).length =
        left + fs.bpb.cluster_size + fs.bpb.cluster_size * clusters.length := by
      rw [List.length_cons, Nat.mul_succ]
      omega
    rw [read_clusters, hlen]
    split
    · next hlt =>
      have hbytes : left + fs.bpb.sec_per_clus * BLOCK_SIZE = left + fs.bpb.cluster_size := by
        rw [L.cluster_size]
      rw [L.offset hc.1]
      simp only [bind, Except.bind, read_cluster_eq L hs hc h, hbytes]
      have hfirst : slice (fun k => d.data c (k - left)) index
          (min stop (left + fs.bpb.cluster_size) - index) =
          slice (fun k => d.content fs.bpb.cluster_size (c :: clusters) (k - left)) index
            (min stop (left + fs.bpb.cluster_size) - index) := by
        apply slice_congr
        intro k hk hk'
        exact (d.content_cons_lt c clusters (by omega)).symm
      by_cases hdone : stop ≤ left + fs.bpb.cluster_size
      · rw [read_clusters_done (by omega), hfirst]
        simp only [pure, Except.pure, List.append_nil]
        congr 2
        omega
      · rw [ih hrest (by omega), hfirst]
        simp only [pure, Except.pure]
        rw [slice_congr (v := fun k => d.content fs.bpb.cluster_size clusters
            (k - (left + fs.bpb.cluster_size)))
          (w := fun k => d.content fs.bpb.cluster_size (c :: clusters) (k - left))]
        · have hstart : max index (min stop (left + fs.bpb.cluster_size)) =
              index + (min stop (left + fs.bpb.cluster_size) - index) := by omega
          rw [hstart, slice_append]
          congr 2
          omega
        · intro k hk hk'
          rw [d.content_cons_ge c clusters hpos (by omega)]
          congr 1
          omega
    · next hge =>
      have hzero : min stop (left + fs.bpb.cluster_size + fs.bpb.cluster_size * clusters.length) -
          index = 0 := by omega
      rw [hzero]
      rfl

/-- A read returns a range of the file, as far as there are clusters. -/
theorem read_at_eq {f : VirtFile} (hdata : ∀ c ∈ fs.cluster_vec f, fs.bpb.InData c)
    (offset len : Nat) : fs.read_at f offset len =
      .ok (slice (d.content fs.bpb.cluster_size (fs.cluster_vec f)) offset
        (min (offset + len) (fs.bpb.cluster_size * (fs.cluster_vec f).length) - offset)) := by
  have hpos := L.cluster_size_pos
  unfold read_at
  split
  · next hzero =>
    have hlen : min (offset + len) (fs.bpb.cluster_size * (fs.cluster_vec f).length) - offset = 0 := by
      omega
    rw [hlen]
    rfl
  · generalize hpre : offset / fs.bpb.cluster_size = pre
    have hleft : pre * fs.bpb.cluster_size ≤ offset := hpre ▸ Nat.div_mul_le_self ..
    simp only
    rw [read_clusters_eq L hs (fun c hc => hdata c (List.mem_of_mem_drop hc)) hleft,
      slice_congr (w := d.content fs.bpb.cluster_size (fs.cluster_vec f))]
    · congr 2
      rw [List.length_drop]
      by_cases hle : pre ≤ (fs.cluster_vec f).length
      · obtain ⟨m, hm⟩ := Nat.exists_eq_add_of_le hle
        rw [hm, Nat.add_sub_cancel_left, Nat.mul_add, Nat.mul_comm pre]
      · have hlt := Nat.mul_le_mul_left fs.bpb.cluster_size (not_le.mp hle).le
        rw [Nat.mul_comm _ pre] at hlt
        rw [Nat.sub_eq_zero_of_le (not_le.mp hle).le, Nat.mul_zero]
        omega
    · intro k hk _
      rw [d.content_drop _ hpos, Nat.mul_comm, Nat.add_sub_cancel' (hleft.trans hk)]

end ReadAt

section WriteBlocks

variable {buf : List UInt8} {offset stop left index : Nat}

theorem write_blocks_done (h : stop ≤ index) (ids : List Nat) (device : BlockDevice) :
    write_blocks buf offset stop ids device left index = (device, index) := by
  induction ids generalizing left with
  | nil => rfl
  | cons id ids ih => rw [write_blocks, if_neg (by omega), ih]

theorem shows_write_nothing {bpb : BIOSParameterBlock} {device : BlockDevice} {d : Disk}
    (hs : device.Shows bpb d) (c base : Nat) {lo hi : Nat} (h : hi ≤ lo) (v : Nat → UInt8) :
    device.Shows bpb (d.write c base lo hi v) := by
  apply hs.congr
  · exact fun _ _ => rfl
  · intro c' _ i _
    by_cases hc' : c' = c
    · subst hc'
      rw [Disk.write_data_self, if_neg (by omega)]
    · rw [Disk.write_data_of_ne _ _ _ _ _ _ hc']

/-- The blocks of a cluster from number `j` on. -/
theorem write_blocks_eq {bpb : BIOSParameterBlock} (L : bpb.Layout) {device : BlockDevice}
    {d : Disk} (hs : device.Shows bpb d) {c base j n : Nat} (hc : bpb.InData c)
    (hj : j + n ≤ bpb.sec_per_clus) (hleft : left = base + j * BLOCK_SIZE) (h : left ≤ index)
    (hoffset : offset ≤ index) :
    ∃ device', write_blocks buf offset stop
        (List.range' (bpb.first_sector_of_cluster c + j) n) device left index =
        (device', max index (min stop (left + n * BLOCK_SIZE))) ∧
      device'.Shows bpb (d.write c base index (min stop (left + n * BLOCK_SIZE))
        fun k => buf.getD (k - offset) 0) := by
  induction n generalizing device d j left index with
  | zero =>
    refine ⟨device, ?_, shows_write_nothing hs c base (by omega) _⟩
    rw [List.range'_zero, write_blocks]
    congr 1
    omega
  | succ n ih =>
    rw [List.range'_succ, write_blocks]
    have hnext : left + BLOCK_SIZE + n * BLOCK_SIZE = left + (n + 1) * BLOCK_SIZE := by
      unfold BLOCK_SIZE
      omega
    have hleft' : left + BLOCK_SIZE = base + (j + 1) * BLOCK_SIZE := by
      unfold BLOCK_SIZE at hleft ⊢
      omega
    split
    · next hin =>
      obtain ⟨len, hn⟩ : ∃ len, len = min (BLOCK_SIZE - (index - left)) (stop - index) := ⟨_, rfl⟩
      have hblock : (index - base) / BLOCK_SIZE = j ∧ (index - base) % BLOCK_SIZE = index - left := by
        unfold BLOCK_SIZE at hin hleft ⊢
        omega
      have hlt : index - base < bpb.cluster_size := by
        have hmul := Nat.mul_le_mul_right BLOCK_SIZE (show j + 1 ≤ bpb.sec_per_clus by omega)
        rw [L.cluster_size]
        omega
      have hput := @BlockDevice.Shows.modify_data _ _ _ _ L hs hc _ len hlt (by omega)
        fun i => buf.getD (index - offset + i) 0
      rw [hblock.1, hblock.2] at hput
      -- what this block and the ones after it write is one range
      have hsame : ∀ hi, index + len ≤ hi → ∀ i, (if index + len ≤ base + i ∧ base + i < hi then
            buf.getD (base + i - offset) 0
          else (d.put c (index - base) fun i : Fin len => buf.getD (index - offset + i) 0).data c i) =
          (d.write c base index hi fun k => buf.getD (k - offset) 0).data c i := by
        intro hi hhi i
        rw [Disk.put_data_self, Disk.write_data_self, Block.splice]
        by_cases hfirst : index - base ≤ i ∧ i < index - base + len
        · rw [if_neg (by omega), dif_pos hfirst, if_pos (by omega)]
          congr 1
          show index - offset + (i - (index - base)) = _
          omega
        · rw [dif_neg hfirst]
          by_cases hlater : index + len ≤ base + i ∧ base + i < hi
          · rw [if_pos hlater, if_pos (by omega)]
          · rw [if_neg hlater, if_neg (by omega)]
      rw [← hnext]
      subst hn
      by_cases hstop : stop ≤ index + min (BLOCK_SIZE - (index - left)) (stop - index)
      · refine ⟨_, (if_pos hstop).trans ?_, hput.congr (fun _ _ => rfl) ?_⟩
        · congr 1
          omega
        · intro c' _ i _
          by_cases hc' : c' = c
          · subst hc'
            rw [← hsame _ (by omega), if_neg (by omega)]
          · rw [Disk.write_data_of_ne _ _ _ _ _ _ hc', Disk.put_data_of_ne _ _ _ _ hc']
      · obtain ⟨device', hrun, hshows⟩ := @ih (left + BLOCK_SIZE)
          (index + min (BLOCK_SIZE - (index - left)) (stop - index)) _ _ hput _
          (by omega) hleft' (by omega) (by omega)
        refine ⟨device', (if_neg hstop).trans ?_, hshows.congr (fun _ _ => rfl) ?_⟩
        · rw [Nat.add_assoc _ j 1]
          refine hrun.trans ?_
          congr 1
          omega
        · intro c' _ i _
          by_cases hc' : c' = c
          · subst hc'
            rw [← hsame _ (by omega), Disk.write_data_self]
          · rw [Disk.write_data_of_ne _ _ _ _ _ _ hc', Disk.write_data_of_ne _ _ _ _ _ _ hc',
              Disk.put_data_of_ne _ _ _ _ hc']
    · next hout =>
      by_cases hdone : stop ≤ index
      · rw [write_blocks_done hdone]
        refine ⟨device, ?_, shows_write_nothing hs c base (by omega) _⟩
        congr 1
        omega
      · obtain ⟨device', hrun, hshows⟩ := @ih (left + BLOCK_SIZE) index _ _ hs _
          (by omega) hleft' (by omega) hoffset
        rw [hnext] at hrun hshows
        exact ⟨device', hrun, hshows⟩

end WriteBlocks

theorem write_clusters_done {bpb : BIOSParameterBlock} {buf : List UInt8}
    {offset stop index : Nat} (h : stop ≤ index) (clusters : List Nat) (device : BlockDevice)
    (left : Nat) :
    write_clusters bpb buf offset stop clusters device left index = .ok device := by
  unfold write_clusters
  rw [if_neg (by omega)]

section WriteClusters

variable {bpb : BIOSParameterBlock} (L : bpb.Layout) {device : BlockDevice} {d : Disk}
  (hs : device.Shows bpb d)

theorem shows_writes_nothing {lo hi : Nat} (hs : device.Shows bpb d) (h : hi ≤ lo)
    (v : Nat → UInt8) (clusters : List Nat) (left : Nat) :
    device.Shows bpb (d.writes bpb.cluster_size lo hi v clusters left) := by
  induction clusters generalizing d left with
  | nil => exact hs
  | cons c clusters ih => exact ih (shows_write_nothing hs c left h v) (left + bpb.cluster_size)

include L hs

theorem write_clusters_eq {buf : List UInt8} {offset stop left index : Nat} {clusters : List Nat}
    (hdata : ∀ c ∈ clusters, bpb.InData c) (h : left ≤ index) (hoffset : offset ≤ index)
    (hstop : stop ≤ left + bpb.cluster_size * clusters.length) :
    ∃ device', write_clusters bpb buf offset stop clusters device left index = .ok device' ∧
      device'.Shows bpb (d.writes bpb.cluster_size index stop (fun k => buf.getD (k - offset) 0)
        clusters left) := by
  induction clusters generalizing device d left index with
  | nil =>
    rw [List.length_nil, Nat.mul_zero] at hstop
    rw [write_clusters, if_neg (by omega)]
    exact ⟨device, rfl, hs⟩
  | cons c clusters ih =>
    obtain ⟨hc, hrest⟩ := List.forall_mem_cons.mp hdata
    rcases Nat.lt_or_ge index stop with hlt | hge
    · obtain ⟨device₁, hblocks, hshows₁⟩ := @write_blocks_eq buf _ stop _ _ _ L _ _ hs _ _ 0 bpb.sec_per_clus hc
        (by omega) (by omega : left = left + 0 * BLOCK_SIZE) h
        hoffset
      rw [← L.cluster_size] at hblocks hshows₁
      change write_blocks buf offset stop (List.range' (bpb.first_sector_of_cluster c)
        bpb.sec_per_clus) device left index = _ at hblocks
      have hshows₂ : device₁.Shows bpb (d.write c left index stop
          fun k => buf.getD (k - offset) 0) := by
        apply hshows₁.congr
        · exact fun _ _ => rfl
        · intro c' _ i hi
          by_cases hc' : c' = c
          · subst hc'
            rw [Disk.write_data_self, Disk.write_data_self]
            exact if_congr (by omega) rfl rfl
          · rw [Disk.write_data_of_ne _ _ _ _ _ _ hc', Disk.write_data_of_ne _ _ _ _ _ _ hc']
      rw [List.length_cons, Nat.mul_succ] at hstop
      have hbytes : left + bpb.sec_per_clus * BLOCK_SIZE = left + bpb.cluster_size := by
        rw [L.cluster_size]
      have hrun : write_clusters bpb buf offset stop (c :: clusters) device left index =
          write_clusters bpb buf offset stop clusters device₁ (left + bpb.cluster_size)
            (max index (min stop (left + bpb.cluster_size))) := by
        rw [write_clusters, if_pos hlt, L.offset hc.1]
        simp only [bind, Except.bind, blocks_of, Nat.mul_div_cancel _ (by decide : 0 < BLOCK_SIZE),
          hblocks, hbytes]
      rw [hrun]
      by_cases hdone : stop ≤ left + bpb.cluster_size
      · refine ⟨device₁, ?_, ?_⟩
        · exact write_clusters_done (by omega) _ _ _
        · rw [Disk.writes, @Disk.writes_congr_lo _ _ _ _ _ (left + bpb.cluster_size) _ _ (by omega) le_rfl]
          exact shows_writes_nothing hshows₂ hdone _ _ _
      · obtain ⟨device', hrest', hshows'⟩ := ih hshows₂ hrest
          (by omega : left + bpb.cluster_size ≤ max index (min stop (left + bpb.cluster_size)))
          (by omega) (by omega)
        refine ⟨device', hrest', ?_⟩
        by_cases hidx : index ≤ left + bpb.cluster_size
        · rw [Disk.writes, Disk.writes_congr_lo _ _ hidx (by omega :
            max index (min stop (left + bpb.cluster_size)) ≤ left + bpb.cluster_size)]
          exact hshows'
        · have hmax : max index (min stop (left + bpb.cluster_size)) = index := by omega
          rw [hmax] at hshows'
          exact hshows'
    · rw [write_clusters, if_neg (Nat.not_lt.mpr hge)]
      exact ⟨device, rfl, shows_writes_nothing hs (by omega) _ _ _⟩

end WriteClusters

end FileSystem

end MyGOS.Fat32
