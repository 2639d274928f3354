import MyGOS.Fat32.Slack

/-!
# Writing ranges of one array

Writes that all take their bytes from one array leave those bytes in the file.
Writing them once more changes nothing, not even on the device.
-/

namespace MyGOS.Fat32

open Outcome StepSystem FlatArray

/-- Bytes that are there already. -/
theorem Block.splice_same {b : Block} {offset size : Nat} {v : Fin size → UInt8}
    (h : ∀ i : Fin size, b (offset + i) = v i) : b.splice offset v = b := by
  funext i
  rw [splice]
  split
  · next hin =>
    rw [← h]
    congr 1
    exact Nat.add_sub_cancel' hin.1
  · rfl

namespace FileSystem

variable {fs fs' : FileSystem} {d d' : Disk} {f : VirtFile} {clusters : List Nat}
  {buf : List UInt8} {offset stop left index : Nat}

theorem write_blocks_same {device : BlockDevice} {ids : List Nat}
    (h : ∀ j (hj : j < ids.length), ∀ i < BLOCK_SIZE, index ≤ left + j * BLOCK_SIZE + i →
      left + j * BLOCK_SIZE + i < stop →
      device ids[j] i = buf.getD (left + j * BLOCK_SIZE + i - offset) 0) (hoffset : offset ≤ index) :
    (write_blocks buf offset stop ids device left index).1 = device := by
  induction ids generalizing left index with
  | nil => rfl
  | cons id ids ih =>
    have htail : ∀ index', index ≤ index' → ∀ j (hj : j < ids.length), ∀ i < BLOCK_SIZE,
        index' ≤ left + BLOCK_SIZE + j * BLOCK_SIZE + i →
        left + BLOCK_SIZE + j * BLOCK_SIZE + i < stop →
        device ids[j] i = buf.getD (left + BLOCK_SIZE + j * BLOCK_SIZE + i - offset) 0 := by
      intro index' hle j hj i hi hlow hhigh
      have hplace : left + BLOCK_SIZE + j * BLOCK_SIZE = left + (j + 1) * BLOCK_SIZE := by
        unfold BLOCK_SIZE
        omega
      rw [hplace] at hlow hhigh ⊢
      exact h (j + 1) (Nat.succ_lt_succ hj) i hi (hle.trans hlow) hhigh
    rw [write_blocks]
    split
    · next hin =>
      have hblock : Function.update device id ((device id).splice (index - left)
          fun i : Fin (min (BLOCK_SIZE - (index - left)) (stop - index)) =>
            buf.getD (index - offset + i) 0) = device := by
        rw [Block.splice_same, Function.update_eq_self]
        intro i
        have hi := i.isLt
        have hbyte := h 0 (Nat.succ_pos _) (index - left + i) (by omega) (by omega) (by omega)
        rw [Nat.zero_mul, Nat.add_zero] at hbyte
        rw [List.getElem_cons_zero] at hbyte
        rw [hbyte]
        congr 1
        omega
      simp only [hblock]
      split
      · rfl
      · exact ih (htail _ (Nat.le_add_right ..)) (hoffset.trans (Nat.le_add_right ..))
    · exact ih (htail _ le_rfl) hoffset

section Clusters

variable (L : fs.bpb.Layout) (hs : fs.Shows d)

include L hs

theorem write_clusters_same (hdata : ∀ c ∈ clusters, fs.bpb.InData c) (h : left ≤ index)
    (hoffset : offset ≤ index) (hstop : stop ≤ left + fs.bpb.cluster_size * clusters.length)
    (hsame : ∀ k, index ≤ left + k → left + k < stop →
      d.content fs.bpb.cluster_size clusters k = buf.getD (left + k - offset) 0) :
    write_clusters fs.bpb buf offset stop clusters fs.device left index = .ok fs.device := by
  induction clusters generalizing left index with
  | nil =>
    rw [List.length_nil, Nat.mul_zero] at hstop
    exact write_clusters_done (by omega) _ _ _
  | cons c clusters ih =>
    obtain ⟨hc, hrest⟩ := List.forall_mem_cons.mp hdata
    rw [write_clusters]
    split
    · next hlt =>
      have hpos := L.cluster_size_pos
      obtain ⟨device', hblocks, -⟩ := @write_blocks_eq buf _ stop _ _ _ L _ _ hs _ left 0
        fs.bpb.sec_per_clus hc (by omega) (by omega) h hoffset
      -- the blocks of the first cluster
      have hblock : ∀ j (hj : j < (List.range' (fs.bpb.first_sector_of_cluster c + 0)
          fs.bpb.sec_per_clus).length), ∀ i < BLOCK_SIZE, index ≤ left + j * BLOCK_SIZE + i →
          left + j * BLOCK_SIZE + i < stop →
          fs.device (List.range' (fs.bpb.first_sector_of_cluster c + 0) fs.bpb.sec_per_clus)[j] i =
            buf.getD (left + j * BLOCK_SIZE + i - offset) 0 := by
        intro j hj i hi hlow hhigh
        rw [List.length_range'] at hj
        have hlt : j * BLOCK_SIZE + i < fs.bpb.cluster_size := by
          have hmul := Nat.mul_le_mul_right BLOCK_SIZE (Nat.succ_le_of_lt hj)
          rw [Nat.succ_mul] at hmul
          rw [L.cluster_size]
          omega
        have hdiv : (j * BLOCK_SIZE + i) / BLOCK_SIZE = j ∧
            (j * BLOCK_SIZE + i) % BLOCK_SIZE = i := by
          unfold BLOCK_SIZE at hi ⊢
          omega
        have hbyte := hs.data c hc _ hlt
        have hold := hsame (j * BLOCK_SIZE + i) (by omega) (by omega)
        rw [d.content_cons_lt c clusters hlt] at hold
        rw [hdiv.1, hdiv.2, hold] at hbyte
        rw [List.getElem_range', Nat.one_mul, Nat.add_zero, Nat.add_assoc]
        exact hbyte
      have hdevice := write_blocks_same hblock hoffset
      rw [hblocks] at hdevice
      have hdevice : device' = fs.device := hdevice
      have hbytes : left + fs.bpb.sec_per_clus * BLOCK_SIZE = left + fs.bpb.cluster_size := by
        rw [L.cluster_size]
      rw [hdevice, hbytes] at hblocks
      rw [Nat.add_zero] at hblocks
      rw [L.offset hc.1]
      simp only [bind, Except.bind, blocks_of, Nat.mul_div_cancel _ (by decide : 0 < BLOCK_SIZE),
        hblocks, hbytes]
      rw [List.length_cons, Nat.mul_succ] at hstop
      by_cases hdone : stop ≤ left + fs.bpb.cluster_size
      · exact write_clusters_done (by omega) _ _ _
      · apply ih hrest (by omega) (by omega) (by omega)
        intro k hlow hhigh
        have hold := hsame (fs.bpb.cluster_size + k) (by omega) (by omega)
        rw [d.content_cons_ge c clusters hpos (Nat.le_add_right ..), Nat.add_sub_cancel_left,
          ← Nat.add_assoc] at hold
        exact hold
    · rfl

end Clusters

section Same

variable (h : Owned fs d f clusters)

include h

theorem Owned.incerase_size_same {new_size : Nat}
    (hcap : new_size ≤ fs.bpb.cluster_size * clusters.length)
    (hsize : f.is_dir = false → new_size ≤ (d.entry f.sde_pos).file_size) :
    fs.incerase_size f new_size = .ok fs := by
  by_cases hle : new_size ≤ (d.entry f.sde_pos).file_size
  · rw [FileSystem.incerase_size, h.sees.first_cluster h.sde_pos, h.sees.file_size h.sde_pos]
    simp only [ok_bind, if_pos hle]
    rfl
  · have hdir : f.is_dir := by
      by_contra hd
      exact hle (hsize (Bool.eq_false_iff.mpr hd))
    have hneed : fs.need_cluster_cnt f new_size = 0 := by
      rw [need_cluster_cnt, h.chained.vec, Nat.sub_eq_zero_iff_le,
        Nat.div_le_iff_le_mul_add_pred h.sees.layout.cluster_size_pos]
      omega
    have hbegins : Begins fs f clusters := by
      refine ⟨[], ?_, fun _ => rfl⟩
      rw [h.chained.vec, List.append_nil]
    rw [h.incerase_size_eq hle, if_pos hneed]
    simp only [ok_bind, if_pos hdir, hbegins.generate h.sees h.chained.chain h.chained.data]
    rw [set_cluster_vec_self h.chained.vec]

/-- A write of bytes that are there already. -/
theorem Owned.write_at_same (hbuf : buf ≠ [])
    (hcap : offset + buf.length ≤ fs.bpb.cluster_size * clusters.length)
    (hsize : f.is_dir = false → offset + buf.length ≤ (d.entry f.sde_pos).file_size)
    (hsame : ∀ k, offset ≤ k → k < offset + buf.length →
      d.content fs.bpb.cluster_size clusters k = buf.getD (k - offset) 0) :
    fs.write_at f offset buf = .ok (buf.length, fs) := by
  rw [FileSystem.write_at, if_neg hbuf, h.incerase_size_same hcap hsize]
  simp only [ok_bind, h.chained.vec]
  generalize hpre : offset / fs.bpb.cluster_size = pre
  have hpos := h.sees.layout.cluster_size_pos
  have hleft : pre * fs.bpb.cluster_size ≤ offset := hpre ▸ Nat.div_mul_le_self ..
  have hlen := List.length_pos_iff.mpr hbuf
  have hstop : offset + buf.length ≤ pre * fs.bpb.cluster_size +
      fs.bpb.cluster_size * (clusters.drop pre).length := by
    rw [List.length_drop, Nat.mul_sub, Nat.mul_comm fs.bpb.cluster_size pre]
    omega
  rw [write_clusters_same h.sees.layout h.sees.shows_disk
    (fun c hc => h.chained.data c (List.mem_of_mem_drop hc)) hleft le_rfl hstop]
  · rfl
  · intro k hlow hhigh
    rw [d.content_drop _ hpos, Nat.mul_comm]
    exact hsame _ hlow hhigh

end Same

/-- Writes of ranges of `v`. -/
def Ranges (v : Nat → UInt8) (ops : List HandleOp) : Prop :=
  ∀ op ∈ ops, ∃ offset len, 0 < len ∧ op = .write_at offset (slice v offset len)

/-- What writes of ranges of `v` leave. -/
structure Laid (fs fs' : FileSystem) (d d' : Disk) (f : VirtFile) (clusters clusters' : List Nat)
    (v : Nat → UInt8) (ops : List HandleOp) : Prop where
  owned : Owned fs' d' f clusters'
  bpb : fs'.bpb = fs.bpb
  length : clusters.length ≤ clusters'.length
  reach : ∀ op ∈ ops, op.stop ≤ fs.bpb.cluster_size * clusters'.length
  covered : ∀ op ∈ ops, ∀ k, op.Covers k → d'.content fs.bpb.cluster_size clusters' k = v k
  kept : ∀ k < fs.bpb.cluster_size * clusters'.length, (∀ op ∈ ops, ¬ op.Covers k) →
    d'.content fs.bpb.cluster_size clusters' k =
      if k < fs.bpb.cluster_size * clusters.length then d.content fs.bpb.cluster_size clusters k
      else 0
  file_size : f.is_dir = false →
    (d.entry f.sde_pos).file_size ≤ (d'.entry f.sde_pos).file_size ∧
    (∀ op ∈ ops, op.stop ≤ (d'.entry f.sde_pos).file_size) ∧
    ((d'.entry f.sde_pos).file_size = (d.entry f.sde_pos).file_size ∨
      ∃ op ∈ ops, op.stop = (d'.entry f.sde_pos).file_size)

section Laid

variable {v : Nat → UInt8} {ops : List HandleOp} {d'' : Disk} {fs'' : FileSystem}
  {clusters' clusters'' : List Nat}

theorem Laid.nil (h : Owned fs d f clusters) : Laid fs fs d d f clusters clusters v [] where
  owned := h
  bpb := rfl
  length := le_rfl
  reach _ hop := absurd hop List.not_mem_nil
  covered _ hop := absurd hop List.not_mem_nil
  kept _ hk _ := (if_pos hk).symm
  file_size _ := ⟨le_rfl, fun _ hop => absurd hop List.not_mem_nil, Or.inl rfl⟩

theorem stop_slice (v : Nat → UInt8) (offset : Nat) {len : Nat} (hlen : 0 < len) :
    (HandleOp.write_at offset (slice v offset len)).stop = offset + len := by
  have hne : slice v offset len ≠ [] := by
    intro hnil
    have hzero := congrArg List.length hnil
    rw [length_slice, List.length_nil] at hzero
    omega
  rw [HandleOp.stop, if_neg hne, length_slice]

/-- The first of the writes, and then the others. -/
theorem Laid.cons {added : List Nat} {len : Nat} (hlen : 0 < len)
    (hfirst : Enlarged fs fs' d d' f clusters added (.write_at offset (slice v offset len)))
    (hrest : Laid fs' fs'' d' d'' f (clusters ++ added) clusters'' v ops) :
    Laid fs fs'' d d'' f clusters clusters'' v (.write_at offset (slice v offset len) :: ops) := by
  have hstop := stop_slice v offset hlen
  have hsub : fs.bpb.cluster_size * (clusters ++ added).length ≤
      fs.bpb.cluster_size * clusters''.length := Nat.mul_le_mul_left _ hrest.length
  have hreach := hfirst.reach
  have hkept := hrest.kept
  have hcovered := hrest.covered
  rw [hfirst.bpb] at hkept hcovered
  rw [hstop] at hreach
  constructor
  · exact hrest.owned
  · exact hrest.bpb.trans hfirst.bpb
  · have hle := hrest.length
    rw [List.length_append] at hle
    omega
  · refine List.forall_mem_cons.mpr ⟨?_, ?_⟩
    · rw [hstop]
      exact hreach.trans hsub
    · rw [← hfirst.bpb]
      exact hrest.reach
  · refine List.forall_mem_cons.mpr ⟨fun k hk => ?_, hcovered⟩
    by_cases hlater : ∃ op ∈ ops, op.Covers k
    · obtain ⟨op, hop, hcover⟩ := hlater
      exact hcovered op hop k hcover
    · have hk' := hk
      rw [HandleOp.Covers, length_slice] at hk'
      have hlt : k < fs.bpb.cluster_size * (clusters ++ added).length := by omega
      rw [hkept k (by omega) fun op hop hcover => hlater ⟨op, hop, hcover⟩, if_pos hlt,
        hfirst.written _ _ rfl k hlt hk, getD_slice, if_pos (by omega)]
      congr 1
      omega
  · intro k hk hout
    obtain ⟨hnot, hout⟩ := List.forall_mem_cons.mp hout
    rw [hkept k hk hout]
    split
    · next hlt => exact hfirst.content k hlt hnot
    · next hge =>
      rw [List.length_append, Nat.mul_add] at hge
      rw [if_neg (by omega)]
  · intro hdir
    obtain ⟨hle, hops, hlast⟩ := hrest.file_size hdir
    have hsize := hfirst.file_size
    rw [hdir, hstop] at hsize
    rw [if_neg Bool.false_ne_true] at hsize
    refine ⟨by omega, List.forall_mem_cons.mpr ⟨by rw [hstop]; omega, hops⟩, ?_⟩
    obtain heq | ⟨op, hop, heq⟩ := hlast
    · by_cases hmax : offset + len ≤ (d.entry f.sde_pos).file_size
      · exact Or.inl (by omega)
      · exact Or.inr ⟨_, List.mem_cons_self, by rw [hstop]; omega⟩
    · exact Or.inr ⟨op, List.mem_cons_of_mem _ hop, heq⟩

/-- Writes of ranges of `v` on the only handle to a file. -/
theorem Owned.run_ranges (h : Owned fs d f clusters) (hranges : Ranges v ops)
    (hfits : Guarded (handle_step f) (Fits f) fs ops) :
    Meets (run (handle_step f) fs ops) (· = .outOfSpace) fun fs' =>
      ∃ d' clusters', Laid fs fs' d d' f clusters clusters' v ops := by
  induction ops generalizing fs d clusters with
  | nil => exact ⟨d, clusters, .nil h⟩
  | cons op ops ih =>
    obtain ⟨⟨offset, len, hlen, rfl⟩, hothers⟩ := List.forall_mem_cons.mp hranges
    obtain ⟨hfits, hrest⟩ := hfits
    rw [run_cons]
    have hstep := (h.attached.step hfits).mono_error fun _ he => he.1
    cases hrun : handle_step f fs (.write_at offset (slice v offset len)) with
    | error e => exact hstep.error hrun
    | ok fs₁ =>
      rw [hrun] at hrest
      have hstop := stop_slice v offset hlen
      have hmoved := hstep.of_ok hrun
      generalize hop : HandleOp.write_at offset (slice v offset len) = op at hmoved hstop
      cases hmoved with
      | idle =>
        rw [HandleOp.stop, if_pos rfl] at hstop
        omega
      | enlarged hlarge =>
        subst hop
        apply (ih hlarge.owned hothers hrest).mono
        rintro fs' ⟨d', clusters', hlaid⟩
        exact ⟨d', clusters', .cons hlen hlarge hlaid⟩
      | cut => cases hop
      | cleared hzero =>
        rw [hstop] at hzero
        omega

/-- The same writes once more. -/
theorem Laid.again (hranges : Ranges v ops) (h : Laid fs fs' d d' f clusters clusters' v ops) :
    run (handle_step f) fs' ops = .ok fs' := by
  have hstep : ∀ op ∈ ops, handle_step f fs' op = .ok fs' := by
    intro op hop
    obtain ⟨offset, len, hlen, rfl⟩ := hranges op hop
    have hstop := stop_slice v offset hlen
    have hreach := h.reach _ hop
    have hcovered := h.covered _ hop
    rw [← h.bpb] at hreach hcovered
    rw [hstop] at hreach
    have hne : slice v offset len ≠ [] := by
      intro hnil
      rw [HandleOp.stop, if_pos hnil] at hstop
      omega
    rw [handle_step, h.owned.write_at_same hne]
    · rfl
    · rwa [length_slice]
    · intro hdir
      rw [length_slice, ← hstop]
      exact (h.file_size hdir).2.1 _ hop
    · intro k hle hlt
      rw [hcovered k ⟨hle, hlt⟩, getD_slice]
      rw [length_slice] at hlt
      rw [if_pos (by omega)]
      congr 1
      omega
  clear h hranges
  induction ops with
  | nil => rfl
  | cons op ops ih =>
    obtain ⟨hop, hops⟩ := List.forall_mem_cons.mp hstep
    rw [run_cons, hop]
    exact ih hops

end Laid

end FileSystem

end MyGOS.Fat32
