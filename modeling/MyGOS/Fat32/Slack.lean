import MyGOS.Fat32.Chains

/-!
# The bytes behind the end of a file

The last cluster of a file has bytes behind its end. A file that grows shows
them: they have to be zero then, as those of a new cluster are.
-/

namespace MyGOS.Fat32

open Outcome StepSystem

namespace FileSystem

variable {fs fs' : FileSystem} {d d' : Disk} {f : VirtFile} {clusters added : List Nat}
  {op : HandleOp} {new_size : Nat}

/-- The only handle to a file. When the file has no clusters, those that are still in memory are
not looked at. -/
structure Attached (fs : FileSystem) (d : Disk) (f : VirtFile) (clusters : List Nat) : Prop where
  owned : Owned (fs.set_cluster_vec f clusters) d f clusters
  vec : clusters ≠ [] → fs.cluster_vec f = clusters

theorem set_cluster_vec_self (h : fs.cluster_vec f = clusters) : fs.set_cluster_vec f clusters = fs := by
  rw [set_cluster_vec, ← h, cluster_vec, Function.update_eq_self]

@[simp] theorem set_cluster_vec_bpb : (fs.set_cluster_vec f clusters).bpb = fs.bpb := rfl

theorem Owned.attached (h : Owned fs d f clusters) : Attached fs d f clusters where
  owned := by
    rw [set_cluster_vec_self h.chained.vec]
    exact h
  vec _ := h.chained.vec

/-- The handle as its directory entry has it. -/
def settle (fs : FileSystem) (f : VirtFile) : FileSystem :=
  if fs.first_cluster f = .ok NEW_VIRT_FILE_CLUSTER then fs.set_cluster_vec f [] else fs

section Attached

variable (h : Attached fs d f clusters)

include h

theorem Attached.first_cluster : fs.first_cluster f = .ok (clusters.headD NEW_VIRT_FILE_CLUSTER) := by
  rw [← h.owned.first_cluster]
  exact h.owned.sees.first_cluster h.owned.sde_pos

theorem Attached.no_cluster : fs.first_cluster f = .ok NEW_VIRT_FILE_CLUSTER ↔ clusters = [] := by
  rw [h.first_cluster, Except.ok.injEq, h.owned.headD_eq]

theorem Attached.file_size : fs.file_size f = .ok (d.entry f.sde_pos).file_size :=
  h.owned.sees.file_size h.owned.sde_pos

theorem Attached.settle : fs.settle f = fs.set_cluster_vec f clusters := by
  unfold FileSystem.settle
  split
  · next hfirst =>
    rw [h.no_cluster.mp hfirst]
  · next hfirst =>
    rw [set_cluster_vec_self (h.vec fun hnil => hfirst (h.no_cluster.mpr hnil))]

/-- A file that is not empty is read from the clusters in memory. -/
theorem Attached.owned_of_lt (hlt : new_size < (d.entry f.sde_pos).file_size) :
    Owned fs d f clusters := by
  have howned := h.owned
  rwa [set_cluster_vec_self (h.vec ?_)] at howned
  rintro rfl
  have hsize := h.owned.file_size
  rw [List.length_nil, Nat.mul_zero] at hsize
  omega

omit h in
/-- The first clusters of a file take the place of those in memory. -/
theorem add_clusters_first (need : Nat) :
    (fs.set_cluster_vec f clusters).add_clusters f NEW_VIRT_FILE_CLUSTER need =
      fs.add_clusters f NEW_VIRT_FILE_CLUSTER need := by
  have hkeep := alloc_cluster_chain_chains fs fs.chains need NEW_VIRT_FILE_CLUSTER
  have hnew := alloc_cluster_chain_chains fs (Function.update fs.chains f.cluster_chain clusters)
    need NEW_VIRT_FILE_CLUSTER
  rw [FileSystem.add_clusters, FileSystem.add_clusters]
  change ((fs.rechained _).alloc_cluster_chain need NEW_VIRT_FILE_CLUSTER >>= _) = _
  rw [hnew]
  change fs.alloc_cluster_chain need NEW_VIRT_FILE_CLUSTER = _ at hkeep
  cases halloc : fs.alloc_cluster_chain need NEW_VIRT_FILE_CLUSTER with
  | error e => rfl
  | ok r =>
    obtain ⟨start, fs₁⟩ := r
    rw [halloc] at hkeep
    have hchains : fs₁ = fs₁.rechained fs.chains := congrArg Prod.snd (Except.ok.inj hkeep)
    cases start with
    | none => rfl
    | some start =>
      have hset : (fs₁.rechained (Function.update fs.chains f.cluster_chain clusters)).set_cluster_vec
          f [start] = fs₁.set_cluster_vec f [start] := by
        rw [hchains]
        simp [set_cluster_vec, rechained]
      simp only [Functor.map, Except.map, bind, Except.bind, Prod.map, id, if_true, hset]

theorem Attached.incerase_size_eq (hpos : 0 < new_size) :
    (fs.set_cluster_vec f clusters).incerase_size f new_size = fs.incerase_size f new_size := by
  by_cases hnil : clusters = []
  swap
  · rw [set_cluster_vec_self (h.vec hnil)]
  have hcs := h.owned.sees.layout.cluster_size_pos
  have hneed : (new_size + fs.bpb.cluster_size - 1) / fs.bpb.cluster_size ≠ 0 := by
    have hle : fs.bpb.cluster_size ≤ new_size + fs.bpb.cluster_size - 1 := by omega
    exact (Nat.div_pos hle hcs).ne'
  have hfirst := h.first_cluster
  rw [hnil, List.headD_nil] at hfirst
  have hadd := @add_clusters_first fs f clusters
    ((new_size + fs.bpb.cluster_size - 1) / fs.bpb.cluster_size)
  have hsize : ¬ new_size ≤ (d.entry f.sde_pos).file_size := by
    have hle := h.owned.file_size
    rw [hnil, List.length_nil, Nat.mul_zero] at hle
    omega
  rw [FileSystem.incerase_size, FileSystem.incerase_size, hfirst, h.file_size]
  change (fs.first_cluster f >>= fun _ => fs.file_size f >>= _) = _
  rw [hfirst, h.file_size]
  simp only [bind, Except.bind, if_neg hsize, if_true, set_cluster_vec_bpb, if_neg hneed, hadd]

theorem Attached.write_at_eq {offset : Nat} {buf : List UInt8} (hbuf : buf ≠ []) :
    (fs.set_cluster_vec f clusters).write_at f offset buf = fs.write_at f offset buf := by
  have hpos := List.length_pos_iff.mpr hbuf
  rw [FileSystem.write_at, FileSystem.write_at, if_neg hbuf, if_neg hbuf,
    h.incerase_size_eq (Nat.add_pos_right _ hpos)]

end Attached

/-- How far a call asks the file to reach. -/
def HandleOp.stop : HandleOp → Nat
  | .write_at offset buf => if buf = [] then 0 else offset + buf.length
  | .modify_size new_size => new_size
  | .clear_content | .clear => 0

/-- The bytes that a call writes. -/
def HandleOp.Covers : HandleOp → Nat → Prop
  | .write_at offset buf, k => offset ≤ k ∧ k < offset + buf.length
  | _, _ => False

/-- The file was made to reach as far as `op` asks. -/
structure Enlarged (fs fs' : FileSystem) (d d' : Disk) (f : VirtFile) (clusters added : List Nat)
    (op : HandleOp) : Prop where
  owned : Owned fs' d' f (clusters ++ added)
  bpb : fs'.bpb = fs.bpb
  file_size : (d'.entry f.sde_pos).file_size =
    if f.is_dir then 0 else max (d.entry f.sde_pos).file_size op.stop
  reach : op.stop ≤ fs.bpb.cluster_size * (clusters ++ added).length
  written : ∀ offset buf, op = .write_at offset buf →
    ∀ k < fs.bpb.cluster_size * (clusters ++ added).length, op.Covers k →
      d'.content fs.bpb.cluster_size (clusters ++ added) k = buf.getD (k - offset) 0
  content : ∀ k < fs.bpb.cluster_size * (clusters ++ added).length, ¬ op.Covers k →
    d'.content fs.bpb.cluster_size (clusters ++ added) k =
      if k < fs.bpb.cluster_size * clusters.length then d.content fs.bpb.cluster_size clusters k
      else 0

section Enlarged

variable (h : Attached fs d f clusters)

include h

theorem Attached.enlarged_size {size : Nat} (hlt : op.stop < 2 ^ 32)
    (hsize : size = if op.stop ≤ (d.entry f.sde_pos).file_size then (d.entry f.sde_pos).file_size
      else if f.is_dir then 0 else op.stop % 2 ^ 32) :
    size = if f.is_dir then 0 else max (d.entry f.sde_pos).file_size op.stop := by
  have hdir := h.owned.dir_size
  rw [hsize, Nat.mod_eq_of_lt hlt]
  by_cases hd : f.is_dir
  · rw [if_pos hd, if_pos hd, hdir hd, ite_self]
  · rw [if_neg hd, if_neg hd]
    split <;> omega

theorem Attached.write_at {offset : Nat} {buf : List UInt8} (hbuf : buf ≠ [])
    (hroom : Room (fs.set_cluster_vec f clusters) f (offset + buf.length))
    (hlt : offset + buf.length < 2 ^ 32) :
    Meets (fs.write_at f offset buf)
      (Full (fs.set_cluster_vec f clusters)
        (need_cluster_cnt (fs.set_cluster_vec f clusters) f (offset + buf.length)))
      fun r => ∃ d' added, Enlarged fs r.2 d d' f clusters added (.write_at offset buf) := by
  have hstop : (HandleOp.write_at offset buf).stop = offset + buf.length := if_neg hbuf
  rw [← h.write_at_eq hbuf]
  apply (h.owned.write_at hbuf hroom).mono
  rintro ⟨n, fs'⟩ ⟨-, d', added, hw⟩
  obtain ⟨fs₁, d₁, device, hgrown, hfs', -⟩ := hw.written
  have hbpb : fs'.bpb = fs.bpb := by
    rw [show fs' = _ from hfs']
    exact hgrown.bpb
  refine ⟨d', added, hw.owned, hbpb, ?_, ?_, ?_, ?_⟩
  · apply h.enlarged_size (hstop ▸ hlt)
    rw [hstop]
    exact hw.file_size
  · rw [hstop]
    exact h.owned.new_size_le hw.length
  · rintro _ _ ⟨⟩ k hk hcover
    exact (hw.content h.owned hk).trans (if_pos hcover)
  · intro k hk hcover
    exact (hw.content h.owned hk).trans (if_neg hcover)

theorem Attached.incerase_size (hpos : 0 < new_size)
    (hroom : Room (fs.set_cluster_vec f clusters) f new_size) (hlt : new_size < 2 ^ 32) :
    Meets (fs.incerase_size f new_size)
      (Full (fs.set_cluster_vec f clusters)
        (need_cluster_cnt (fs.set_cluster_vec f clusters) f new_size))
      fun fs' => ∃ d' added, Enlarged fs fs' d d' f clusters added (.modify_size new_size) := by
  rw [← h.incerase_size_eq hpos]
  apply (h.owned.incerase_size hroom).mono
  rintro fs' ⟨d', added, hlen, hgrown, howned, hsize⟩
  refine ⟨d', added, howned, hgrown.bpb, h.enlarged_size hlt hsize, h.owned.new_size_le hlen,
    ?_, ?_⟩
  · rintro _ _ ⟨⟩
  · intro k hk _
    exact hgrown.content h.owned hk

theorem Attached.clear_content : Meets (fs.clear_content f) (fun _ => False) fun r =>
    r.2.bpb = fs.bpb ∧ ∃ d', Attached r.2 d' f [] ∧ (d'.entry f.sde_pos).file_size = 0 := by
  have hchains := clear_content_chains fs (Function.update fs.chains f.cluster_chain clusters) f
  have hclear := h.owned.clear_content
  change Meets ((fs.rechained _).clear_content f) _ _ at hclear
  rw [hchains] at hclear
  cases hrun : fs.clear_content f with
  | error e =>
    rw [hrun] at hclear
    exact hclear
  | ok r =>
    rw [hrun] at hclear
    obtain ⟨-, -, hbpb, d', hsees, hfirst, hsize, hin⟩ := hclear
    have hpos : SdePos r.2.bpb f.sde_pos := hbpb ▸ h.owned.sde_pos
    have howned : Owned (r.2.set_cluster_vec f []) d' f [] :=
      (hsees.with_chains _).owned_nil hpos (Function.update_self ..) hin hfirst hsize
    exact ⟨hbpb, d', ⟨howned, fun hne => absurd rfl hne⟩, hsize⟩

/-- What a call on a handle does. -/
inductive Moved (fs fs' : FileSystem) (d : Disk) (f : VirtFile) (clusters : List Nat) :
    HandleOp → Prop where
  | idle {offset : Nat} (same : fs' = fs) : Moved fs fs' d f clusters (.write_at offset [])
  | enlarged {op : HandleOp} {d' : Disk} {added : List Nat}
      (enlarged : Enlarged fs fs' d d' f clusters added op)
      (stop : ∀ n, op = .modify_size n → n ≠ 0 ∧ (d.entry f.sde_pos).file_size ≤ n) :
      Moved fs fs' d f clusters op
  | cut {d' : Disk} {n : Nat} (bpb : fs'.bpb = fs.bpb) (hpos : 0 < n)
      (hlt : n < (d.entry f.sde_pos).file_size) (cut : Cut fs fs' d d' f clusters n) :
      Moved fs fs' d f clusters (.modify_size n)
  | cleared {op : HandleOp} {d' : Disk} (stop : op.stop = 0) (bpb : fs'.bpb = fs.bpb)
      (attached : Attached fs' d' f []) (size : (d'.entry f.sde_pos).file_size = 0) :
      Moved fs fs' d f clusters op

/-- A call that does not go past what the 32 bits of a file size say, and for which the clusters
are found on the volume. The calls that remove the file are left out. -/
def Fits (f : VirtFile) (fs : FileSystem) : HandleOp → Prop
  | .clear => False
  | op => op.stop < 2 ^ 32 ∧ Room (fs.settle f) f op.stop

instance (f : VirtFile) (fs : FileSystem) : ∀ op, Decidable (Fits f fs op)
  | .write_at _ _ | .modify_size _ | .clear_content => inferInstanceAs (Decidable (_ ∧ _))
  | .clear => inferInstanceAs (Decidable False)

theorem Attached.step (hfits : Fits f fs op) : Meets (handle_step f fs op)
    (Full (fs.set_cluster_vec f clusters)
      (need_cluster_cnt (fs.set_cluster_vec f clusters) f op.stop))
    (Moved fs · d f clusters op) := by
  have hclear : ∀ op E, op.stop = 0 →
      Meets (Prod.snd <$> fs.clear_content f) E (Moved fs · d f clusters op) := by
    intro op E hstop
    apply (h.clear_content.mono_error fun _ he => he.elim).bind
    rintro r ⟨hbpb, d', hattached, hsize⟩
    exact .cleared hstop hbpb hattached hsize
  cases op with
  | clear => exact hfits.elim
  | clear_content => exact hclear _ _ rfl
  | write_at offset buf =>
    obtain ⟨hlt, hroom⟩ := hfits
    by_cases hbuf : buf = []
    · rw [hbuf, handle_step, FileSystem.write_at, if_pos rfl]
      exact .idle rfl
    · have hstop : (HandleOp.write_at offset buf).stop = offset + buf.length := if_neg hbuf
      rw [h.settle, hstop] at hroom
      rw [hstop] at hlt ⊢
      apply (h.write_at hbuf hroom hlt).bind
      rintro r ⟨d', added, hlarge⟩
      refine .enlarged hlarge ?_
      rintro n ⟨⟩
  | modify_size new_size =>
    obtain ⟨hlt, hroom⟩ := hfits
    rw [h.settle] at hroom
    rw [handle_step, FileSystem.modify_size, h.file_size]
    simp only [ok_bind]
    split
    · next hzero => exact hclear _ _ hzero
    · next hzero =>
      have hpos := Nat.pos_of_ne_zero hzero
      split
      · next hle =>
        apply (h.incerase_size hpos hroom hlt).mono
        rintro fs' ⟨d', added, hlarge⟩
        refine .enlarged hlarge ?_
        rintro n ⟨⟩
        exact ⟨hzero, hle⟩
      · next hgt =>
        apply (((h.owned_of_lt (not_le.mp hgt)).shrink_size hpos (not_le.mp hgt)).mono_error fun _ he => he.elim).mono
        rintro fs' ⟨hbpb, d', hcut⟩
        exact .cut hbpb hpos (not_le.mp hgt) hcut

/-- No clusters are needed for a size that those of the file hold. -/
theorem Attached.fits_within (hle : new_size ≤ fs.bpb.cluster_size * clusters.length)
    (hlt : new_size < 2 ^ 32) : Fits f fs (.modify_size new_size) ∧
      Meets (handle_step f fs (.modify_size new_size)) (fun _ => False)
        (Moved fs · d f clusters (.modify_size new_size)) := by
  have hneed : need_cluster_cnt (fs.set_cluster_vec f clusters) f new_size = 0 := by
    have hcs := h.owned.sees.layout.cluster_size_pos
    rw [need_cluster_cnt, h.owned.chained.vec, Nat.sub_eq_zero_iff_le,
      Nat.div_le_iff_le_mul_add_pred hcs, set_cluster_vec_bpb]
    omega
  have hfits : Fits f fs (.modify_size new_size) := by
    refine ⟨hlt, fun hpos => ?_⟩
    rw [h.settle, HandleOp.stop, hneed] at hpos
    exact absurd hpos (lt_irrefl 0)
  have hstep := h.step hfits
  rw [HandleOp.stop, hneed] at hstep
  exact ⟨hfits, hstep.mono_error fun _ he => Nat.not_lt_zero _ he.2⟩

/-- A step leaves the handle attached to the file. -/
theorem Attached.moved (hm : Moved fs fs' d f clusters op) :
    fs'.bpb = fs.bpb ∧ ∃ d' clusters', Attached fs' d' f clusters' := by
  cases hm with
  | idle hsame => exact ⟨congrArg bpb hsame, d, clusters, hsame ▸ h⟩
  | enlarged hlarge => exact ⟨hlarge.bpb, _, _, hlarge.owned.attached⟩
  | cut hbpb _ _ hcut => exact ⟨hbpb, _, _, hcut.owned.attached⟩
  | cleared _ hbpb hattached => exact ⟨hbpb, _, _, hattached⟩

end Enlarged

/-- Whatever call comes next, the bytes that the file gets and that the call does not write are
zero. -/
def GrowsZero (f : VirtFile) (fs : FileSystem) : Prop :=
  ∀ op, Fits f fs op → Meets (handle_step f fs op) (· = .outOfSpace) fun fs' =>
    Meets (fs.file_size f) (fun _ => False) fun old_size =>
    Meets (fs'.file_size f) (fun _ => False) fun new_size =>
      ∀ k, old_size ≤ k → k < new_size → ¬ op.Covers k → fs'.read_at f k 1 = .ok [0]

/-- The bytes behind the end of the file are zero, as far as there are clusters. -/
def Padded (f : VirtFile) (fs : FileSystem) : Prop :=
  f.is_dir = false → Meets (fs.file_size f) (fun _ => False) fun size =>
    ∀ k, size ≤ k → k + 1 < 2 ^ 32 →
      (fs.settle f).read_at f k 1 = .ok [0] ∨ (fs.settle f).read_at f k 1 = .ok []

/-- A file that is cut has zeros behind its new end, in the cluster that stays. -/
def LeavesZero (f : VirtFile) (fs : FileSystem) : HandleOp → Prop
  | .modify_size new_size => new_size ≠ 0 → Meets (fs.file_size f) (fun _ => False) fun old_size =>
    ∀ k < old_size, new_size ≤ k →
      k < (new_size + fs.bpb.cluster_size - 1) / fs.bpb.cluster_size * fs.bpb.cluster_size →
      fs.read_at f k 1 = .ok [0]
  | _ => True

instance (f : VirtFile) (fs : FileSystem) : ∀ op, Decidable (LeavesZero f fs op)
  | .modify_size _ => inferInstanceAs (Decidable (_ → _))
  | .write_at _ _ | .clear_content | .clear => inferInstanceAs (Decidable True)

/-- The bytes of a file from `size` on, up to the greatest size that a file can have. -/
def ZeroFrom (d : Disk) (cluster_size : Nat) (clusters : List Nat) (size : Nat) : Prop :=
  ∀ k, size ≤ k → k < cluster_size * clusters.length → k + 1 < 2 ^ 32 →
    d.content cluster_size clusters k = 0

theorem Owned.read_byte (h : Owned fs d f clusters) (k : Nat) : fs.read_at f k 1 =
    .ok (if k < fs.bpb.cluster_size * clusters.length then
      [d.content fs.bpb.cluster_size clusters k] else []) := by
  have hread := read_at_eq h.sees.layout h.sees.shows_disk (f := f)
    (fun c hc => h.chained.data c (h.chained.vec ▸ hc)) k 1
  rw [hread, h.chained.vec]
  split
  · next hlt =>
    have hlen : min (k + 1) (fs.bpb.cluster_size * clusters.length) - k = 1 := by omega
    rw [hlen]
    rfl
  · next hge =>
    have hlen : min (k + 1) (fs.bpb.cluster_size * clusters.length) - k = 0 := by omega
    rw [hlen]
    rfl

section Tail

variable (h : Attached fs d f clusters)

include h

theorem Attached.read_byte (k : Nat) : (fs.settle f).read_at f k 1 =
    .ok (if k < fs.bpb.cluster_size * clusters.length then
      [d.content fs.bpb.cluster_size clusters k] else []) := by
  rw [h.settle]
  exact h.owned.read_byte k

theorem Attached.padded_iff : Padded f fs ↔ (f.is_dir = false →
    ZeroFrom d fs.bpb.cluster_size clusters (d.entry f.sde_pos).file_size) := by
  unfold Padded
  rw [h.file_size]
  simp only [meets_ok, h.read_byte]
  refine imp_congr_right fun _ => forall_congr' fun k => imp_congr_right fun _ => ?_
  by_cases hlt : k < fs.bpb.cluster_size * clusters.length
  · simp [hlt]
  · simp [hlt]

/-- What a file that is cut leaves in the cluster that stays. -/
theorem Attached.cut_padded_iff (hzero : Padded f fs) (hbpb : fs'.bpb = fs.bpb)
    (hpos : 0 < new_size) (hlt : new_size < (d.entry f.sde_pos).file_size)
    (hcut : Cut fs fs' d d' f clusters new_size) :
    Padded f fs' ↔ LeavesZero f fs (.modify_size new_size) := by
  have howned := h.owned_of_lt hlt
  have hsize := howned.file_size
  have hdir : f.is_dir = false := by
    have hdir := howned.dir_size
    cases hd : f.is_dir with
    | false => rfl
    | true =>
      have hnone := hdir hd
      omega
  have hzero := h.padded_iff.mp hzero hdir
  have hleft : (new_size + fs.bpb.cluster_size - 1) / fs.bpb.cluster_size ≤ clusters.length := by
    have hneed := howned.need_eq_zero hlt.le
    rwa [need_cluster_cnt, howned.chained.vec, Nat.sub_eq_zero_iff_le] at hneed
  have hmul := Nat.mul_le_mul_left fs.bpb.cluster_size hleft
  have hkept := fun k => @Cut.content _ _ _ _ _ _ _ hcut howned k
  rw [hcut.owned.attached.padded_iff, hbpb, hcut.file_size, LeavesZero, h.file_size]
  rw [List.length_take, min_eq_left hleft] at hkept
  simp only [meets_ok, ZeroFrom, List.length_take, min_eq_left hleft]
  constructor
  · intro hnew _ k hk hle hend
    rw [Nat.mul_comm] at hend
    rw [howned.read_byte, if_pos (by omega), ← hkept k hend]
    have hmax := (d.entry f.sde_pos).file_size_lt
    rw [hnew hdir k hle hend (by omega)]
  · intro hleaves _ k hle hend hmax
    rw [hkept k hend]
    by_cases hk : k < (d.entry f.sde_pos).file_size
    · have hread := hleaves hpos.ne' k hk hle (by rwa [Nat.mul_comm])
      rw [howned.read_byte, if_pos (by omega)] at hread
      exact List.head_eq_of_cons_eq (Except.ok.inj hread)
    · exact hzero k (not_lt.mp hk) (by omega) hmax

/-- Zeros behind the end stay there, and so do those behind the end of a file that is cut. -/
theorem Attached.zero_moved (hm : Moved fs fs' d f clusters op)
    (hzero : Padded f fs) (hleaves : LeavesZero f fs op) : Padded f fs' := by
  rw [h.padded_iff] at hzero
  cases hm with
  | idle hsame =>
    rw [hsame, h.padded_iff]
    exact hzero
  | enlarged hlarge =>
    rw [hlarge.owned.attached.padded_iff, hlarge.bpb, hlarge.file_size]
    intro hdir k hk hlt hmax
    rw [if_neg (by simp [hdir])] at hk
    rw [hlarge.content k hlt]
    · split
      · next hold => exact hzero hdir k (by omega) hold hmax
      · rfl
    · intro hcover
      cases op with
      | write_at offset buf =>
        have hne : buf ≠ [] := by
          rintro rfl
          exact absurd hcover.2 (not_lt.mpr hcover.1)
        have hstop : (HandleOp.write_at offset buf).stop = offset + buf.length := if_neg hne
        have hend := hcover.2
        omega
      | modify_size new_size => exact hcover
      | clear_content => exact hcover
      | clear => exact hcover
  | cut hbpb hpos hlt hcut => exact (h.cut_padded_iff (h.padded_iff.mpr hzero) hbpb hpos hlt hcut).mpr hleaves
  | cleared _ hbpb hattached =>
    rw [hattached.padded_iff]
    intro _ k _ hk
    exact absurd hk (Nat.not_lt_zero k)

/-- In a file that grows, what was behind its end is shown. -/
theorem Attached.growsZero_iff : GrowsZero f fs ↔ Padded f fs := by
  constructor
  · intro hgrows
    rw [h.padded_iff]
    intro hdir k hk hlt hmax
    obtain ⟨hfits, hstep⟩ := h.fits_within (by omega : k + 1 ≤ _) hmax
    obtain ⟨fs', hrun, hmoved⟩ := hstep.exists_ok
    have hshown := (hgrows _ hfits).of_ok hrun
    rw [h.file_size] at hshown
    cases hmoved with
    | @enlarged _ d' added hlarge _ =>
      have hattached := hlarge.owned.attached
      rw [hattached.file_size, hlarge.file_size, hdir] at hshown
      have hread := hshown k hk (lt_max_of_lt_right (Nat.lt_succ_self k)) id
      have hlen : k < fs.bpb.cluster_size * (clusters ++ added).length := by
        rw [List.length_append, Nat.mul_add]
        omega
      rw [hlarge.owned.read_byte, hlarge.bpb, if_pos hlen, hlarge.content k hlen id, if_pos hlt]
        at hread
      exact List.head_eq_of_cons_eq (Except.ok.inj hread)
    | cut hbpb hpos hlt' hcut => omega
    | cleared hstop => exact absurd hstop (Nat.succ_ne_zero k)
  · intro hzero op hfits
    apply ((h.step hfits).mono_error fun _ he => he.1).mono
    intro fs' hmoved
    rw [h.file_size]
    cases hmoved with
    | idle hsame =>
      rw [hsame, h.file_size]
      intro k hle hlt
      exact absurd hlt (not_lt.mpr hle)
    | @enlarged _ d' added hlarge _ =>
      rw [hlarge.owned.attached.file_size]
      intro k hle hlt hcover
      have hlen := hlt.trans_le hlarge.owned.file_size
      rw [hlarge.bpb] at hlen
      rw [hlarge.owned.read_byte, hlarge.bpb, if_pos hlen, hlarge.content k hlen hcover]
      split
      · next hold =>
        have hdir : f.is_dir = false := by
          rw [hlarge.file_size] at hlt
          cases hd : f.is_dir with
          | false => rfl
          | true =>
            rw [hd] at hlt
            exact absurd hlt (Nat.not_lt_zero k)
        have hmax := (d'.entry f.sde_pos).file_size_lt
        rw [h.padded_iff.mp hzero hdir k hle hold (by omega)]
      · rfl
    | cut hbpb hpos hlt' hcut =>
      rw [hcut.owned.attached.file_size, hcut.file_size]
      intro k hle hlt
      omega
    | cleared _ hbpb hattached hsize =>
      rw [hattached.file_size, hsize]
      intro k _ hlt
      exact absurd hlt (Nat.not_lt_zero k)

end Tail

/-- The states of a run are those of a handle to the file. -/
theorem Attached.states (h : Attached fs d f clusters) {ops : List HandleOp}
    (hfits : Guarded (handle_step f) (Fits f) fs ops) :
    ∀ t ∈ StepSystem.states (handle_step f) fs ops, ∃ d clusters, Attached t d f clusters := by
  apply invariant (fun t : FileSystem => ∃ d clusters, Attached t d f clusters) ?_ ⟨d, clusters, h⟩
    hfits
  rintro s op t ⟨d, clusters, h⟩ hfits hstep
  exact (h.moved ((h.step hfits).of_ok hstep)).2

/-- In a run on the only handle to a file, whatever call comes next, the bytes that the file gets
are zero: this is so exactly when they were zero behind the first end of the file, and every call
that cuts it finds zeros between the new end and the end of the cluster. -/
theorem grows_zero_iff (h : Owned fs d f clusters) {ops : List HandleOp}
    (hfits : Guarded (handle_step f) (Fits f) fs ops) :
    (∀ t ∈ states (handle_step f) fs ops, GrowsZero f t) ↔
      Padded f fs ∧ Guarded (handle_step f) (LeavesZero f) fs ops := by
  have hattached := h.attached.states hfits
  constructor
  · intro hgrows
    refine ⟨h.attached.growsZero_iff.mp (hgrows fs (mem_states_self fs ops)), ?_⟩
    apply guarded_of_states
      (P := fun t => GrowsZero f t ∧ ∃ d clusters, Attached t d f clusters) ?_
      fun t ht => ⟨hgrows t ht, hattached t ht⟩
    rintro s op ⟨hs, d, clusters, h⟩ hnext
    cases op with
    | modify_size n =>
      intro hn
      rw [h.file_size]
      intro k hk hle hend
      have hlt := hle.trans_lt hk
      have hsize := h.owned.file_size
      have hmax := (d.entry f.sde_pos).file_size_lt
      rw [set_cluster_vec_bpb] at hsize
      obtain ⟨t, hrun, hmoved⟩ := (h.fits_within (hlt.le.trans hsize) (hlt.trans hmax)).2.exists_ok
      obtain ⟨ht, d', clusters', h'⟩ := hnext t hrun
      cases hmoved with
      | enlarged _ hstop => exact absurd (hstop n rfl).2 (not_le.mpr hlt)
      | cleared hstop => exact absurd hstop hn
      | cut hbpb hpos _ hcut =>
        have hleaves := (h.cut_padded_iff (h.growsZero_iff.mp hs) hbpb hpos hlt hcut).mp
          (h'.growsZero_iff.mp ht) hn
        rw [h.file_size] at hleaves
        exact hleaves k hk hle hend
    | write_at offset buf => trivial
    | clear_content => trivial
    | clear => trivial
  · rintro ⟨hzero, hleaves⟩ t ht
    have hinv : Padded f t ∧ ∃ d clusters, Attached t d f clusters := by
      apply invariant (fun t : FileSystem => Padded f t ∧ ∃ d clusters, Attached t d f clusters) ?_
        ⟨hzero, d, clusters, h.attached⟩ (hfits.and hleaves) t ht
      rintro s op t ⟨hzero, d, clusters, h⟩ ⟨hfits, hleaves⟩ hstep
      have hmoved := (h.step hfits).of_ok hstep
      exact ⟨h.zero_moved hmoved hzero hleaves, (h.moved hmoved).2⟩
    obtain ⟨hzero, d, clusters, h⟩ := hinv
    exact h.growsZero_iff.mpr hzero

section Floppy

theorem grows_zero_iff_small : Guarded (handle_step empty_file_handle) (Fits empty_file_handle)
      empty_file [.write_at 0 [7], .modify_size 3, .modify_size 2, .modify_size 0, .write_at 4 [8]] ∧
    ∀ t ∈ states (handle_step empty_file_handle) empty_file
      [.write_at 0 [7], .modify_size 3, .modify_size 2, .modify_size 0, .write_at 4 [8]],
      GrowsZero empty_file_handle t := by
  have hfits : Guarded (handle_step empty_file_handle) (Fits empty_file_handle) empty_file
      [.write_at 0 [7], .modify_size 3, .modify_size 2, .modify_size 0, .write_at 4 [8]] := by
    decide +kernel
  refine ⟨hfits, (grows_zero_iff empty_file_owned hfits).mpr ⟨?_, by decide +kernel⟩⟩
  rw [empty_file_owned.attached.padded_iff]
  intro _ k _ hk
  exact absurd hk (Nat.not_lt_zero k)

theorem cut_run : Meets (run (handle_step empty_file_handle) empty_file
    [.write_at 0 [7, 8], .modify_size 1]) (fun _ => False) fun t =>
      (t.file_size empty_file_handle = .ok 1 ∧ Fits empty_file_handle t (.modify_size 2)) ∧
      Meets (handle_step empty_file_handle t (.modify_size 2)) (fun _ => False) fun t' =>
        t'.file_size empty_file_handle = .ok 2 ∧ t'.read_at empty_file_handle 1 1 = .ok [8] := by
  decide +kernel

/-- Two bytes are written, the file is cut to one, and grows again: the second byte is back. -/
theorem cut_byte_shown : ∃ t t', run (handle_step empty_file_handle) empty_file
      [.write_at 0 [7, 8], .modify_size 1] = .ok t ∧ t.file_size empty_file_handle = .ok 1 ∧
    handle_step empty_file_handle t (.modify_size 2) = .ok t' ∧
    t'.file_size empty_file_handle = .ok 2 ∧ t'.read_at empty_file_handle 1 1 = .ok [8] ∧
    ¬ GrowsZero empty_file_handle t := by
  obtain ⟨t, ht, ⟨hsize, hfits⟩, hgrow⟩ := cut_run.exists_ok
  obtain ⟨t', ht', hsize', hread⟩ := hgrow.exists_ok
  refine ⟨t, t', ht, hsize, ht', hsize', hread, fun hzero => ?_⟩
  have hshown := (hzero _ hfits).of_ok ht'
  rw [hsize, hsize'] at hshown
  have hzero := hshown 1 le_rfl (by decide) id
  rw [hread] at hzero
  exact absurd hzero (by decide)

end Floppy

end FileSystem

end MyGOS.Fat32
