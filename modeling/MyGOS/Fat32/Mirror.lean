import MyGOS.Fat32.Handle
import MyGOS.Fat32.Mount
import MyGOS.Lib.StepSystem

/-!
# The chain of a handle is that of its file

Every operation of the only handle to a file keeps its clusters in memory those
of the chain that starts at the first cluster of its entry, except one: when the
content is cleared, the clusters stay in memory.
-/

namespace MyGOS.Fat32

open Outcome StepSystem

theorem Dirent.is_deleted_delete (e : Dirent) : e.delete.is_deleted := rfl

/-- The first byte of each entry at these places is the mark of a deleted one. -/
def Disk.Marked (d d' : Disk) (places : List DirEntryPos) : Prop :=
  ∀ c i, d'.data c i =
    if ∃ pos ∈ places, pos.cluster = c ∧ pos.offset_in_cluster = i then DIR_ENTRY_UNUSED
    else d.data c i

theorem Disk.put_delete_long (d : Disk) (pos : DirEntryPos) : d.Marked
    (d.put pos.cluster pos.offset_in_cluster (d.entry pos).delete_long) [pos] := by
  intro c i
  simp only [List.mem_singleton, exists_eq_left]
  by_cases hc : pos.cluster = c
  · subst hc
    rw [Disk.put_data_self, Block.splice]
    split
    · next hin =>
      by_cases hi : pos.offset_in_cluster = i
      · subst hi
        rw [if_pos ⟨rfl, rfl⟩]
        simp [Dirent.delete_long]
      · have hne : (⟨i - pos.offset_in_cluster, by omega⟩ : Fin 32) ≠ 0 := by
          intro heq
          have hval := congrArg Fin.val heq
          simp only [Fin.val_zero] at hval
          omega
        rw [if_neg fun h => hi h.2, Dirent.delete_long, Function.update_of_ne hne]
        show d.data pos.cluster (pos.offset_in_cluster + (i - pos.offset_in_cluster)) = _
        congr 1
        omega
    · next hout => rw [if_neg fun h => hout (by omega)]
  · rw [Disk.put_data_of_ne _ _ _ _ (Ne.symm hc), if_neg fun h => hc h.1]

theorem Disk.is_deleted_of_data {d : Disk} {pos : DirEntryPos}
    (h : d.data pos.cluster pos.offset_in_cluster = DIR_ENTRY_UNUSED) :
    (d.entry pos).is_deleted := decide_eq_true h

/-- The first byte of an entry is not in another one. -/
def DirEntryPos.Outside (pos sde_pos : DirEntryPos) : Prop :=
  pos.cluster = sde_pos.cluster → pos.offset_in_cluster < sde_pos.offset_in_cluster ∨
    sde_pos.offset_in_cluster + DIRENT_SIZE ≤ pos.offset_in_cluster

/-- The data after the long entries and then the short one were deleted. -/
theorem Disk.Marked.deleted {d d₁ : Disk} {f : VirtFile} (h : d.Marked d₁ f.lde_pos) :
    (∀ c i, (∀ pos ∈ f.sde_pos :: f.lde_pos, pos.cluster = c →
      i < pos.offset_in_cluster ∨ pos.offset_in_cluster + DIRENT_SIZE ≤ i) →
      (d₁.set_entry f.sde_pos (d₁.entry f.sde_pos).delete).data c i = d.data c i) ∧
    (∀ pos ∈ f.lde_pos, pos.Outside f.sde_pos →
      (d₁.set_entry f.sde_pos (d₁.entry f.sde_pos).delete).data pos.cluster
        pos.offset_in_cluster = DIR_ENTRY_UNUSED) ∧
    ((∀ pos ∈ f.lde_pos, pos.Outside f.sde_pos) →
      d₁.entry f.sde_pos = d.entry f.sde_pos) := by
  have hset : ∀ c i, (c = f.sde_pos.cluster → i < f.sde_pos.offset_in_cluster ∨
      f.sde_pos.offset_in_cluster + DIRENT_SIZE ≤ i) →
      (d₁.set_entry f.sde_pos (d₁.entry f.sde_pos).delete).data c i = d₁.data c i := by
    intro c i hout
    by_cases hc : c = f.sde_pos.cluster
    · subst hc
      exact Disk.set_entry_data_of_lt _ _ _ (hout rfl)
    · rw [Disk.set_entry_data_of_ne _ _ _ hc]
  refine ⟨?_, ?_, ?_⟩
  · intro c i hout
    obtain ⟨hsde, hlde⟩ := List.forall_mem_cons.mp hout
    rw [hset c i fun hc => hsde hc.symm, h c i, if_neg]
    rintro ⟨pos, hpos, hc, rfl⟩
    have hlt := hlde pos hpos hc
    unfold DIRENT_SIZE at hlt
    omega
  · intro pos hpos hout
    rw [hset _ _ hout, h, if_pos ⟨pos, hpos, rfl, rfl⟩]
  · intro hout
    funext i
    refine (h _ _).trans (if_neg ?_)
    rintro ⟨pos, hpos, hc, hoffset⟩
    have hlt := hout pos hpos hc
    have hi := i.isLt
    unfold DIRENT_SIZE at hlt
    omega

namespace FileSystem

variable {fs fs' : FileSystem} {d d' : Disk} {f : VirtFile} {clusters added : List Nat}
  {offset : Nat} {buf : List UInt8}

section Write

/-- Only bytes of the file differ. -/
theorem Owned.written (h : Owned fs d f clusters) {device : BlockDevice}
    (hshows : device.Shows fs.bpb d')
    (hw : d.Written d' fs.bpb.cluster_size clusters offset buf) :
    Owned { fs with device := device } d' f clusters := by
  have hentry : d'.entry f.sde_pos = d.entry f.sde_pos := by
    unfold Disk.entry
    rw [hw.data_of_notMem _ h.apart]
  have hroot : ROOT_DIR_ENTRY_CLUSTER ∉ clusters :=
    fun hmem => absurd (h.chained.data _ hmem).1 (by decide)
  constructor
  · refine ⟨⟨h.sees.layout, hshows, ?_, ?_⟩, ?_⟩
    · exact h.sees.recycled.congr fun c _ => congrFun hw.next c
    · unfold Disk.Reserved
      rw [hw.next]
      exact h.sees.reserved
    · rw [← h.sees.root]
      unfold Disk.entry
      rw [hw.data_of_notMem _ hroot]
  · exact h.sde_pos
  · exact ⟨h.chained.vec, h.chained.chain.congr fun c _ => congrFun hw.next c, h.chained.data⟩
  · exact h.apart
  · rw [hw.next]
    exact h.in_use
  · rw [hentry]
    exact h.first_cluster
  · rw [hentry]
    exact h.file_size
  · rw [hentry]
    exact h.dir_size

/-- What a write does: the file grows as far as it has to, and the bytes of the buffer are in it. -/
structure WroteAt (fs fs' : FileSystem) (d d' : Disk) (f : VirtFile) (clusters added : List Nat)
    (offset : Nat) (buf : List UInt8) : Prop where
  length : added.length = fs.need_cluster_cnt f (offset + buf.length)
  owned : Owned fs' d' f (clusters ++ added)
  written : ∃ fs₁ d₁ device, Grown fs fs₁ d d₁ f clusters added ∧
    fs' = { fs₁ with device := device } ∧
    d₁.Written d' fs.bpb.cluster_size (clusters ++ added) offset buf
  file_size : (d'.entry f.sde_pos).file_size =
    if offset + buf.length ≤ (d.entry f.sde_pos).file_size then (d.entry f.sde_pos).file_size
    else if f.is_dir then 0 else (offset + buf.length) % 2 ^ 32

theorem Owned.write_at (h : Owned fs d f clusters) (hbuf : buf ≠ [])
    (hroom : Room fs f (offset + buf.length)) :
    Meets (fs.write_at f offset buf) (fs.Full (fs.need_cluster_cnt f (offset + buf.length))) fun r =>
      r.1 = buf.length ∧ ∃ d' added, WroteAt fs r.2 d d' f clusters added offset buf := by
  rw [FileSystem.write_at, if_neg hbuf]
  apply (h.incerase_size hroom).bind
  rintro fs₁ ⟨d₁, added, hlen, hgrown, howned, hsize⟩
  have hL := howned.sees.layout
  have hcap := h.new_size_le hlen
  have hpos : 0 < buf.length := List.length_pos_iff.mpr hbuf
  generalize hpre : offset / fs₁.bpb.cluster_size = pre
  have hleft : pre * fs₁.bpb.cluster_size ≤ offset := hpre ▸ Nat.div_mul_le_self ..
  have hstop : offset + buf.length ≤ pre * fs₁.bpb.cluster_size +
      fs₁.bpb.cluster_size * ((clusters ++ added).drop pre).length := by
    rw [List.length_drop, Nat.mul_sub, Nat.mul_comm fs₁.bpb.cluster_size pre]
    rw [← hgrown.bpb] at hcap
    omega
  obtain ⟨device, hrun, hshows⟩ := @write_clusters_eq _ hL _ _ howned.sees.shows_disk buf
    _ _ _ _ _ (fun c hc => howned.chained.data c (List.mem_of_mem_drop hc)) hleft le_rfl hstop
  have hw := d₁.writes_written howned.chained.chain.nodup hL.cluster_size_pos offset buf
  rw [hpre] at hw
  obtain ⟨d', hshows, hw⟩ : ∃ d', device.Shows fs₁.bpb d' ∧
      d₁.Written d' fs₁.bpb.cluster_size (clusters ++ added) offset buf := ⟨_, hshows, hw⟩
  simp only [howned.chained.vec, bind, Except.bind]
  rw [hrun]
  have howned' := howned.written hshows hw
  rw [hgrown.bpb] at hw
  refine ⟨rfl, d', added, hlen, howned', ⟨fs₁, d₁, device, hgrown, rfl, hw⟩, ?_⟩
  have hentry : d'.entry f.sde_pos = d₁.entry f.sde_pos := by
    unfold Disk.entry
    rw [hw.data_of_notMem _ howned.apart]
  rw [hentry]
  exact hsize

end Write

section Free

/-- Clusters that were in use are free again. -/
theorem Sees.dealloc_cluster (h : Sees fs d) {released : List Nat}
    (hdata : ∀ c ∈ released, fs.bpb.InData c) (hnodup : released.Nodup)
    (hused : ∀ c ∈ released, d.next c ≠ FREE_CLUSTER) :
    ∃ device, fs.dealloc_cluster released = .ok { fs with
        device := device
        recycled_cluster := fs.recycled_cluster ++ released
        free_cluster_cnt := fs.free_cluster_cnt + released.length } ∧
      Sees { fs with
        device := device
        recycled_cluster := fs.recycled_cluster ++ released
        free_cluster_cnt := fs.free_cluster_cnt + released.length } (d.frees released) := by
  obtain ⟨device, hrun, hshows⟩ := dealloc_cluster_eq h.layout h.shows_disk hdata
  refine ⟨device, hrun, ⟨h.layout, hshows, h.recycled.frees hdata hnodup hused, ?_⟩, ?_⟩
  · have hnot : ∀ c < 2, c ∉ released := fun c hc hmem => absurd (hdata c hmem).1 (by omega)
    constructor
    · rw [Disk.frees_next_of_notMem (hnot 0 (by decide))]
      exact h.reserved.1
    · rw [Disk.frees_next_of_notMem (hnot 1 (by decide))]
      exact h.reserved.2
  · rw [← h.root]
    unfold Disk.entry
    rw [Disk.frees_data]

theorem Owned.next_ne_free (h : Owned fs d f clusters) :
    ∀ c ∈ clusters, d.next c ≠ FREE_CLUSTER := chain_next_ne h.chained.chain h.chained.data

/-- A handle without clusters. -/
theorem Sees.owned_nil (h : Sees fs d) (hpos : SdePos fs.bpb f.sde_pos)
    (hvec : fs.cluster_vec f = []) (hin : d.next f.sde_pos.cluster ≠ FREE_CLUSTER)
    (hfirst : (d.entry f.sde_pos).first_cluster = NEW_VIRT_FILE_CLUSTER)
    (hsize : (d.entry f.sde_pos).file_size = 0) : Owned fs d f [] where
  sees := h
  sde_pos := hpos
  chained := ⟨hvec, trivial, fun _ hc => absurd hc List.not_mem_nil⟩
  apart := List.not_mem_nil
  in_use := hin
  first_cluster := hfirst
  file_size := by
    rw [hsize]
    exact Nat.zero_le _
  dir_size _ := hsize

/-- The clusters that `clear_content` and `clear` give back. -/
theorem Owned.first_in_use (h : Owned fs d f clusters) (hne : clusters ≠ []) :
    2 ≤ clusters.headD NEW_VIRT_FILE_CLUSTER ∧
      clusters.headD NEW_VIRT_FILE_CLUSTER < END_OF_CLUSTER := by
  cases clusters with
  | nil => exact absurd rfl hne
  | cons c clusters =>
    have hc := h.chained.data c List.mem_cons_self
    exact ⟨hc.1, hc.2.trans_le h.sees.layout.cluster_lt⟩

/-- All clusters are free and the entry is that of an empty file; the clusters in memory are
those that there were. -/
theorem Owned.clear_content (h : Owned fs d f clusters) :
    Meets (fs.clear_content f) (fun _ => False) fun r => r.1 = clusters.length ∧
      r.2.cluster_vec f = clusters ∧ r.2.bpb = fs.bpb ∧ ∃ d', Sees r.2 d' ∧
      (d'.entry f.sde_pos).first_cluster = NEW_VIRT_FILE_CLUSTER ∧
      (d'.entry f.sde_pos).file_size = 0 ∧ d'.next f.sde_pos.cluster ≠ FREE_CLUSTER := by
  have hall : (if 2 ≤ clusters.headD NEW_VIRT_FILE_CLUSTER ∧
      clusters.headD NEW_VIRT_FILE_CLUSTER < END_OF_CLUSTER then
        fs.get_all_cluster_id (clusters.headD NEW_VIRT_FILE_CLUSTER)
      else .ok []) = .ok clusters := by
    cases clusters with
    | nil => rfl
    | cons c clusters =>
      rw [if_pos (h.first_in_use (List.cons_ne_nil _ _))]
      exact get_all_cluster_id_eq h.sees.layout h.sees.shows_disk h.chained.chain h.chained.data
  obtain ⟨device, hdealloc, hsees⟩ := h.sees.dealloc_cluster h.chained.data h.chained.chain.nodup
    h.next_ne_free
  obtain ⟨device₁, root₁, hsize, hsees₁⟩ := hsees.modify_sde h.sde_pos (·.set_file_size 0)
  obtain ⟨device₂, root₂, hfirst, hsees₂⟩ := hsees₁.modify_sde h.sde_pos
    (·.set_first_cluster NEW_VIRT_FILE_CLUSTER)
  rw [Disk.entry_set_entry] at hsees₂
  have hrest : Meets (do
      let fs ← fs.dealloc_cluster clusters
      let fs ← fs.set_file_size f 0
      return (clusters.length, ← fs.set_first_cluster f NEW_VIRT_FILE_CLUSTER)) (fun _ => False)
      fun r => r.1 = clusters.length ∧ r.2.cluster_vec f = clusters ∧ r.2.bpb = fs.bpb ∧
        ∃ d', Sees r.2 d' ∧ (d'.entry f.sde_pos).first_cluster = NEW_VIRT_FILE_CLUSTER ∧
        (d'.entry f.sde_pos).file_size = 0 ∧ d'.next f.sde_pos.cluster ≠ FREE_CLUSTER := by
    rw [hdealloc]
    simp only [bind, Except.bind, FileSystem.set_file_size, hsize, set_first_cluster, hfirst]
    refine ⟨rfl, h.chained.vec, rfl, _, hsees₂, ?_, ?_, ?_⟩
    · rw [Disk.entry_set_entry]
      exact Dirent.first_cluster_set_first_cluster _ _ (by decide)
    · rw [Disk.entry_set_entry, Dirent.file_size_set_first_cluster]
      exact Dirent.file_size_set_file_size ..
    · rw [Disk.set_entry_next, Disk.set_entry_next, Disk.frees_next_of_notMem h.apart]
      exact h.in_use
  rw [FileSystem.clear_content, h.sees.first_cluster h.sde_pos, h.first_cluster]
  simp only [bind, Except.bind] at hrest ⊢
  split
  · next hin =>
    rw [if_pos hin] at hall
    rw [hall]
    exact hrest
  · next hout =>
    rw [if_neg hout] at hall
    cases hall
    exact hrest

end Free

section Shrink

theorem ceil_mono {a b n : Nat} (h : a ≤ b) : (a + n - 1) / n ≤ (b + n - 1) / n :=
  Nat.div_le_div_right (by omega)

/-- The file is cut after the clusters that hold the new size; its bytes are those it had. -/
structure Cut (fs fs' : FileSystem) (d d' : Disk) (f : VirtFile) (clusters : List Nat)
    (new_size : Nat) : Prop where
  owned : Owned fs' d' f
    (clusters.take ((new_size + fs.bpb.cluster_size - 1) / fs.bpb.cluster_size))
  file_size : (d'.entry f.sde_pos).file_size = new_size
  data_of_ne : ∀ c, c ≠ f.sde_pos.cluster → d'.data c = d.data c

/-- The clusters behind the new size, up to the old one, are free again. -/
theorem Owned.shrink_size (h : Owned fs d f clusters) {new_size : Nat} (hpos : 0 < new_size)
    (hlt : new_size < (d.entry f.sde_pos).file_size) :
    Meets (fs.shrink_size f (d.entry f.sde_pos).file_size new_size) (fun _ => False) fun fs' =>
      fs'.bpb = fs.bpb ∧ ∃ d', Cut fs fs' d d' f clusters new_size := by
  have hcs := h.sees.layout.cluster_size_pos
  have hold := h.need_eq_zero le_rfl
  have hdir : ¬ f.is_dir := by
    intro hdir
    have hzero := h.dir_size hdir
    omega
  rw [need_cluster_cnt, h.chained.vec, Nat.sub_eq_zero_iff_le] at hold
  rw [FileSystem.shrink_size]
  simp only [h.chained.vec]
  obtain ⟨left, hleft⟩ : ∃ left, left = (new_size + fs.bpb.cluster_size - 1) / fs.bpb.cluster_size :=
    ⟨_, rfl⟩
  obtain ⟨right, hright⟩ : ∃ right, right =
    ((d.entry f.sde_pos).file_size + fs.bpb.cluster_size - 1) / fs.bpb.cluster_size := ⟨_, rfl⟩
  have hle : left ≤ right := by
    rw [hleft, hright]
    exact ceil_mono hlt.le
  have hleft_pos : 0 < left := by
    rw [hleft]
    exact Nat.div_pos (by omega) hcs
  have hnew : new_size ≤ fs.bpb.cluster_size * left := by
    have hdiv := Nat.lt_mul_div_succ (new_size + fs.bpb.cluster_size - 1) hcs
    rw [← hleft, Nat.mul_add, Nat.mul_one] at hdiv
    omega
  rw [← hright] at hold ⊢
  rw [← hleft, if_pos (Or.inl hold)]
  -- the last cluster that stays
  obtain ⟨init, last, hsplit⟩ : ∃ init last, clusters.take left = init ++ [last] := by
    obtain hnil | ⟨init, last, hcat⟩ := List.eq_nil_or_concat (clusters.take left)
    · have hlen := congrArg List.length hnil
      rw [List.length_take, List.length_nil] at hlen
      omega
    · exact ⟨init, last, by rw [hcat, List.concat_eq_append]⟩
  have hsub : ∀ c ∈ (clusters.take right).drop left, c ∈ clusters :=
    fun c hc => List.mem_of_mem_take (List.mem_of_mem_drop hc)
  have hkeep : ∀ c ∈ clusters.take left, c ∉ (clusters.take right).drop left := by
    intro c hc hmem
    apply List.disjoint_take_drop h.chained.chain.nodup (le_refl left) hc
    rw [List.drop_take] at hmem
    exact List.mem_of_mem_take hmem
  obtain ⟨device, hdealloc, hsees⟩ := (h.sees.with_chains
      (Function.update fs.chains f.cluster_chain (clusters.take left))).dealloc_cluster
    (fun c hc => h.chained.data c (hsub c hc))
    ((h.chained.chain.nodup.sublist (List.take_sublist ..)).sublist (List.drop_sublist ..))
    (fun c hc => h.next_ne_free c (hsub c hc))
  obtain ⟨device₁, root₁, hsize, hsees₁⟩ := hsees.modify_sde h.sde_pos (·.set_file_size new_size)
  have hlast : last ∈ clusters.take left := by
    rw [hsplit]
    exact List.mem_append_right _ (List.mem_singleton_self last)
  have hdata := h.chained.data last (List.mem_of_mem_take hlast)
  obtain ⟨device₂, hset, hshows₂⟩ := set_next_cluster_eq hsees₁.layout hsees₁.shows_disk hdata.2
    (by decide : END_OF_CLUSTER < 2 ^ 32)
  have hentry : (d.frees ((clusters.take right).drop left)).entry f.sde_pos =
      d.entry f.sde_pos := by
    unfold Disk.entry
    rw [Disk.frees_data]
  have huse : (d.frees ((clusters.take right).drop left)).next last ≠ FREE_CLUSTER := by
    rw [Disk.frees_next_of_notMem (hkeep last hlast)]
    exact h.next_ne_free last (List.mem_of_mem_take hlast)
  have hsees₂ := hsees₁.set_next hdata.1 huse hshows₂
  rw [set_cluster_vec, hdealloc]
  have hgetLast : (clusters.take left).getLast? = some last := by
    rw [hsplit, List.getLast?_concat]
  simp only [bind, Except.bind, if_neg hdir, FileSystem.set_file_size, hsize, hgetLast,
    if_neg (not_lt.mpr hdata.1), hset]
  have hnew_lt : new_size < 2 ^ 32 := hlt.trans (Dirent.file_size_lt _)
  have hfile : (((d.frees ((clusters.take right).drop left)).entry f.sde_pos).set_file_size
      new_size).file_size = new_size := by
    rw [Dirent.file_size_set_file_size, Nat.mod_eq_of_lt hnew_lt]
  refine ⟨rfl, _, @Cut.mk fs _ d (Disk.set_next (Disk.set_entry (d.frees ((clusters.take right).drop left))
      f.sde_pos _) last END_OF_CLUSTER) f clusters new_size ?_
      ((congrArg Dirent.file_size (Disk.entry_set_entry ..)).trans hfile) ?_⟩
  swap
  · intro c hc
    rw [Disk.set_next_data, Disk.set_entry_data_of_ne _ _ _ hc, Disk.frees_data]
  rw [← hleft]
  refine ⟨hsees₂, h.sde_pos, ⟨Function.update_self .., ?_, ?_⟩, ?_, ?_, ?_, ?_, ?_⟩
  · have hchain := h.chained.chain
    rw [← List.take_append_drop left clusters, hsplit, List.append_assoc, List.singleton_append]
      at hchain
    rw [hsplit]
    apply (hchain.cut (le_refl END_OF_CLUSTER)).congr
    intro x hx
    rw [Disk.set_next]
    simp only [Function.update_apply]
    split
    · rfl
    · rw [← hsplit] at hx
      exact Disk.frees_next_of_notMem (hkeep x hx)
  · exact fun c hc => h.chained.data c (List.mem_of_mem_take hc)
  · exact fun hmem => h.apart (List.mem_of_mem_take hmem)
  · have hne : f.sde_pos.cluster ≠ last := by
      rintro heq
      exact h.apart (heq ▸ List.mem_of_mem_take hlast)
    rw [Disk.set_next_next_of_ne _ _ hne, Disk.set_entry_next,
      Disk.frees_next_of_notMem fun hmem => h.apart (hsub _ hmem)]
    exact h.in_use
  · have hhead : (clusters.take left).headD NEW_VIRT_FILE_CLUSTER =
        clusters.headD NEW_VIRT_FILE_CLUSTER := by
      obtain ⟨n, rfl⟩ := Nat.exists_eq_add_of_le' hleft_pos
      cases clusters <;> rfl
    rw [hhead, ← h.first_cluster, ← hentry]
    exact (congrArg Dirent.first_cluster (Disk.entry_set_entry ..)).trans
      (Dirent.first_cluster_set_file_size ..)
  · have hlen : (clusters.take left).length = left := by
      rw [List.length_take]
      omega
    rw [hlen]
    exact (congrArg Dirent.file_size (Disk.entry_set_entry ..)).le.trans (hfile.le.trans hnew)
  · exact fun hdir' => absurd hdir' hdir

end Shrink

section Clear

/-- The long entries are deleted one after the other. -/
theorem Sees.delete_ldes (h : Sees fs d) (hlde : ∀ pos ∈ f.lde_pos, EntryPos fs.bpb pos) :
    ∃ device d', fs.delete_ldes f = .ok { fs with device := device } ∧
      Sees { fs with device := device } d' ∧ d'.next = d.next ∧ d.Marked d' f.lde_pos := by
  rw [FileSystem.delete_ldes]
  revert hlde
  generalize f.lde_pos = ldes
  intro hlde
  induction ldes generalizing fs d with
  | nil => exact ⟨fs.device, d, rfl, h, rfl, fun _ _ => by simp⟩
  | cons pos ldes ih =>
    obtain ⟨hpos, hrest⟩ := List.forall_mem_cons.mp hlde
    obtain ⟨device, hmodify, hshows⟩ := modify_entry_eq h.layout h.shows_disk hpos Dirent.delete_long
    have hroot : ROOT_DIR_ENTRY_CLUSTER ≠ pos.cluster :=
      fun heq => absurd hpos.data.1 (by rw [← heq]; decide)
    have hsees : Sees { fs with device := device }
        (d.put pos.cluster pos.offset_in_cluster (d.entry pos).delete_long) := by
      refine ⟨⟨h.layout, hshows, h.recycled.congr fun _ _ => rfl, h.reserved⟩, ?_⟩
      rw [← h.root]
      unfold Disk.entry
      rw [Disk.put_data_of_ne _ _ _ _ hroot]
    obtain ⟨device', d', hrun, hsees', hnext, hmarked⟩ := ih hsees hrest
    refine ⟨device', d', ?_, hsees', hnext, fun c i => ?_⟩
    · rw [List.foldlM_cons, hmodify]
      exact hrun
    · rw [hmarked c i, d.put_delete_long pos c i]
      simp only [List.mem_singleton, exists_eq_left, List.exists_mem_cons_iff]
      split
      · next hin => rw [if_pos (.inr hin)]
      · next hout => simp only [hout, or_false]

/-- The entries of the file are deleted, and its clusters are free. -/
structure Cleared (fs fs' : FileSystem) (d d' : Disk) (f : VirtFile) (clusters : List Nat) :
    Prop where
  owned : Owned fs' d' f []
  bpb : fs'.bpb = fs.bpb
  next_chain : fs'.next_chain = fs.next_chain
  chains : ∀ c, c ≠ f.cluster_chain → fs'.chains c = fs.chains c
  next : ∀ c, c ∉ clusters → d'.next c = d.next c
  data : ∀ c i, (∀ pos ∈ f.sde_pos :: f.lde_pos, pos.cluster = c →
    i < pos.offset_in_cluster ∨ pos.offset_in_cluster + DIRENT_SIZE ≤ i) → d'.data c i = d.data c i
  sde : ∃ e : Dirent, d'.entry f.sde_pos = e.delete ∧
    ((∀ pos ∈ f.lde_pos, pos.Outside f.sde_pos) → e = d.entry f.sde_pos)
  lde : ∀ pos ∈ f.lde_pos, pos.Outside f.sde_pos → (d'.entry pos).is_deleted

/-- A handle that was cleared has no clusters, and neither has its entry. -/
theorem Owned.clear (h : Owned fs d f clusters) (hlde : ∀ pos ∈ f.lde_pos, EntryPos fs.bpb pos) :
    Meets (fs.clear f) (fun _ => False) fun r => r.1 = clusters.length ∧
      ∃ d', Cleared fs r.2 d d' f clusters := by
  obtain ⟨device, d₁, hdelete, hsees, hnext, hmarked⟩ := h.sees.delete_ldes hlde
  obtain ⟨device₁, root₁, hmodify, hsees₁⟩ := hsees.modify_sde h.sde_pos Dirent.delete
  obtain ⟨hdata, hdeleted, hsde⟩ := hmarked.deleted
  have hentry := d₁.entry_set_entry f.sde_pos (d₁.entry f.sde_pos).delete
  have hdirent : fs.clear_direntry f = .ok { fs with
      device := device₁
      root_dir_entry := root₁ } := by
    rw [clear_direntry, hdelete]
    exact hmodify
  rw [FileSystem.clear, h.sees.first_cluster h.sde_pos, h.first_cluster]
  simp only [bind, Except.bind, hdirent]
  have hin : (d₁.set_entry f.sde_pos (d₁.entry f.sde_pos).delete).next f.sde_pos.cluster ≠
      FREE_CLUSTER := by
    rw [Disk.set_entry_next, hnext]
    exact h.in_use
  split
  · next hused =>
    obtain ⟨device₂, hdealloc, hsees₂⟩ := (hsees₁.with_chains
      (Function.update fs.chains f.cluster_chain [])).dealloc_cluster h.chained.data
      h.chained.chain.nodup fun c hc => by
        rw [Disk.set_entry_next, hnext]
        exact h.next_ne_free c hc
    have hvec : cluster_vec { fs with device := device₁, root_dir_entry := root₁ } f = clusters :=
      h.chained.vec
    have hentry₂ : ((d₁.set_entry f.sde_pos (d₁.entry f.sde_pos).delete).frees clusters).entry
        f.sde_pos = (d₁.entry f.sde_pos).delete := by
      refine Eq.trans ?_ hentry
      unfold Disk.entry
      rw [Disk.frees_data]
    rw [hvec, set_cluster_vec, hdealloc]
    refine ⟨rfl, _, hsees₂.owned_nil h.sde_pos (Function.update_self ..) ?_ ?_ ?_, rfl, rfl, ?_, ?_,
      ?_, ?_, ?_⟩
    · rw [Disk.frees_next_of_notMem h.apart]
      exact hin
    · rw [hentry₂]
      exact Dirent.first_cluster_delete _
    · rw [hentry₂]
      exact Dirent.file_size_delete _
    · exact fun c hc => Function.update_of_ne hc ..
    · intro c hc
      rw [Disk.frees_next_of_notMem hc, Disk.set_entry_next, hnext]
    · intro c i hout
      rw [Disk.frees_data]
      exact hdata c i hout
    · exact ⟨_, hentry₂, hsde⟩
    · intro pos hpos hout
      apply Disk.is_deleted_of_data
      rw [Disk.frees_data]
      exact hdeleted pos hpos hout
  · next hout =>
    obtain rfl : clusters = [] := by
      by_contra hne
      exact hout (h.first_in_use hne)
    refine ⟨rfl, _, hsees₁.owned_nil h.sde_pos h.chained.vec hin ?_ ?_, rfl, rfl, fun _ _ => rfl, ?_,
      hdata, ⟨_, hentry, hsde⟩, fun pos hpos hout => ?_⟩
    · rw [hentry]
      exact Dirent.first_cluster_delete _
    · rw [hentry]
      exact Dirent.file_size_delete _
    · intro c _
      rw [Disk.set_entry_next, hnext]
    · exact Disk.is_deleted_of_data (hdeleted pos hpos hout)

end Clear

/-- The operations of a handle. -/
inductive HandleOp where
  | write_at (offset : Nat) (buf : List UInt8)
  | modify_size (new_size : Nat)
  | clear_content
  | clear

def handle_step (f : VirtFile) (fs : FileSystem) : HandleOp → Except FsPanic FileSystem
  | .write_at offset buf => Prod.snd <$> fs.write_at f offset buf
  | .modify_size new_size => fs.modify_size f new_size
  | .clear_content => Prod.snd <$> fs.clear_content f
  | .clear => Prod.snd <$> fs.clear f

/-- The clusters in memory are the chain in the FAT that starts at the first cluster of the
directory entry. -/
def Mirrors (fs : FileSystem) (f : VirtFile) : Prop :=
  ∃ first_cluster, fs.first_cluster f = .ok first_cluster ∧
    if first_cluster = NEW_VIRT_FILE_CLUSTER then fs.cluster_vec f = []
    else fs.get_all_cluster_id first_cluster = .ok (fs.cluster_vec f)

/-- The content is cleared only when there is none. What a file needs in order to grow is found
on the volume. -/
def Permits (f : VirtFile) (fs : FileSystem) : HandleOp → Prop
  | .write_at offset buf => Room fs f (offset + buf.length)
  | .modify_size new_size => if new_size = 0 then fs.first_cluster f = .ok NEW_VIRT_FILE_CLUSTER
    else Room fs f new_size
  | .clear_content => fs.first_cluster f = .ok NEW_VIRT_FILE_CLUSTER
  | .clear => True

instance (fs : FileSystem) (f : VirtFile) (new_size : Nat) : Decidable (Room fs f new_size) :=
  inferInstanceAs (Decidable (_ → _ → _))

instance (f : VirtFile) (fs : FileSystem) : ∀ op, Decidable (Permits f fs op)
  | .write_at offset buf => inferInstanceAs (Decidable (Room fs f (offset + buf.length)))
  | .modify_size new_size => inferInstanceAs (Decidable (if new_size = 0 then _ else _))
  | .clear_content => inferInstanceAs (Decidable (_ = _))
  | .clear => inferInstanceAs (Decidable True)

theorem Owned.mirrors (h : Owned fs d f clusters) : Mirrors fs f := by
  refine ⟨_, h.sees.first_cluster h.sde_pos, ?_⟩
  rw [h.first_cluster]
  split
  · next hnil =>
    rw [h.headD_eq] at hnil
    rw [h.chained.vec, hnil]
  · next hne =>
    cases clusters with
    | nil => exact absurd rfl hne
    | cons c clusters =>
      rw [h.chained.vec]
      exact get_all_cluster_id_eq h.sees.layout h.sees.shows_disk h.chained.chain h.chained.data

/-- Clearing the content of a file that has some leaves its clusters in memory. -/
theorem Owned.mirrors_clear_content (h : Owned fs d f clusters) :
    ∃ r, fs.clear_content f = .ok r ∧
      (Mirrors r.2 f ↔ fs.first_cluster f = .ok NEW_VIRT_FILE_CLUSTER) ∧
      (clusters = [] → r.2.bpb = fs.bpb ∧ ∃ d', Owned r.2 d' f []) := by
  obtain ⟨r, hr, -, hvec, hbpb, d', hsees, hfirst, hsize, hin⟩ := h.clear_content.exists_ok
  have hpos : SdePos r.2.bpb f.sde_pos := hbpb ▸ h.sde_pos
  refine ⟨r, hr, ?_, ?_⟩
  · rw [h.sees.first_cluster h.sde_pos, h.first_cluster, Except.ok.injEq, h.headD_eq, Mirrors,
      hsees.first_cluster hpos, hfirst, hvec]
    simp
  · rintro rfl
    exact ⟨hbpb, d', hsees.owned_nil hpos hvec hin hfirst hsize⟩

section Run

variable {op : HandleOp} {ops : List HandleOp}

theorem Owned.clear_content_permitted (h : Owned fs d f clusters)
    (hp : fs.first_cluster f = .ok NEW_VIRT_FILE_CLUSTER) :
    Meets (Prod.snd <$> fs.clear_content f) (· = .outOfSpace) fun fs' => fs'.bpb = fs.bpb ∧
      ∃ d' clusters', Owned fs' d' f clusters' := by
  rw [h.sees.first_cluster h.sde_pos, h.first_cluster, Except.ok.injEq, h.headD_eq] at hp
  obtain ⟨r, hr, -, hnil⟩ := h.mirrors_clear_content
  obtain ⟨hbpb, d', howned⟩ := hnil hp
  rw [hr]
  exact ⟨hbpb, d', [], howned⟩

/-- One permitted operation. -/
theorem Owned.step (h : Owned fs d f clusters) (hlde : ∀ pos ∈ f.lde_pos, EntryPos fs.bpb pos)
    (hp : Permits f fs op) :
    Meets (handle_step f fs op) (· = .outOfSpace) fun fs' => fs'.bpb = fs.bpb ∧
      ∃ d' clusters', Owned fs' d' f clusters' := by
  cases op with
  | write_at offset buf =>
    by_cases hbuf : buf = []
    · rw [handle_step, FileSystem.write_at, if_pos hbuf]
      exact ⟨rfl, d, clusters, h⟩
    · apply ((h.write_at hbuf hp).mono_error fun _ he => he.1).bind
      rintro ⟨n, fs'⟩ ⟨-, d', added, hw⟩
      obtain ⟨fs₁, d₁, device, hgrown, hfs', -⟩ := hw.written
      have hbpb : fs'.bpb = fs.bpb := by
        rw [show fs' = _ from hfs']
        exact hgrown.bpb
      exact ⟨hbpb, d', _, hw.owned⟩
  | modify_size new_size =>
    rw [handle_step, FileSystem.modify_size, h.sees.file_size h.sde_pos]
    simp only [bind, Except.bind]
    by_cases hzero : new_size = 0
    · rw [if_pos hzero]
      exact h.clear_content_permitted ((if_pos hzero).mp hp)
    · have hroom : Room fs f new_size := by
        rwa [Permits, if_neg hzero] at hp
      rw [if_neg hzero]
      split
      · apply ((h.incerase_size hroom).mono_error fun _ he => he.1).mono
        rintro fs' ⟨d', added, -, hgrown, howned, -⟩
        exact ⟨hgrown.bpb, d', _, howned⟩
      · next hlt =>
        apply ((h.shrink_size (Nat.pos_of_ne_zero hzero) (not_le.mp hlt)).mono_error
          fun _ h => h.elim).mono
        rintro fs' ⟨hbpb, d', hcut⟩
        exact ⟨hbpb, d', _, hcut.owned⟩
  | clear_content => exact h.clear_content_permitted hp
  | clear =>
    apply ((h.clear hlde).mono_error fun _ h => h.elim).bind
    rintro ⟨n, fs'⟩ ⟨-, d', hcleared⟩
    exact ⟨hcleared.bpb, d', [], hcleared.owned⟩

end Run

section Confined

theorem read_blocks_congr {device device' : BlockDevice} {ids : List Nat} {stop left index : Nat}
    (h : ∀ id ∈ ids, device' id = device id) :
    read_blocks device' stop ids left index = read_blocks device stop ids left index := by
  induction ids generalizing left index with
  | nil => rfl
  | cons id ids ih =>
    obtain ⟨hid, hids⟩ := List.forall_mem_cons.mp h
    rw [read_blocks, read_blocks, hid]
    simp only [ih hids]

theorem read_clusters_congr {bpb : BIOSParameterBlock} (L : bpb.Layout)
    {device device' : BlockDevice} {clusters : List Nat} {stop left index : Nat}
    (hdata : ∀ c ∈ clusters, bpb.InData c)
    (h : ∀ c ∈ clusters, ∀ k < bpb.sec_per_clus,
      device' (bpb.first_sector_of_cluster c + k) = device (bpb.first_sector_of_cluster c + k)) :
    read_clusters bpb device' stop clusters left index =
      read_clusters bpb device stop clusters left index := by
  induction clusters generalizing left index with
  | nil => rfl
  | cons c clusters ih =>
    obtain ⟨hc, hdata⟩ := List.forall_mem_cons.mp hdata
    obtain ⟨hblocks, h⟩ := List.forall_mem_cons.mp h
    have hids : ∀ id ∈ blocks_of bpb (bpb.first_sector_of_cluster c * BLOCK_SIZE),
        device' id = device id := by
      intro id hid
      rw [blocks_of, Nat.mul_div_cancel _ (by decide)] at hid
      obtain ⟨k, hk, rfl⟩ := List.mem_range'.mp hid
      rw [Nat.one_mul]
      exact hblocks k hk
    rw [read_clusters, read_clusters, L.offset hc.1]
    simp only [bind, Except.bind, read_blocks_congr hids, ih hdata h]

/-- A read depends on the clusters of the file only. -/
theorem Owned.read_confined (h : Owned fs d f clusters) {device : BlockDevice}
    (hsame : ∀ c ∈ fs.cluster_vec f, ∀ k < fs.bpb.sec_per_clus,
      device (fs.bpb.first_sector_of_cluster c + k) =
        fs.device (fs.bpb.first_sector_of_cluster c + k)) (len : Nat) :
    read_at { fs with device := device } f offset len = fs.read_at f offset len := by
  unfold read_at
  congr 1
  apply read_clusters_congr h.sees.layout
  · intro c hc
    exact h.chained.data c (h.chained.vec ▸ List.mem_of_mem_drop hc)
  · exact fun c hc => hsame c (List.mem_of_mem_drop hc)

/-- The bytes of the data region that differ are in clusters of the file, or in its entry. -/
def Confines (fs fs' : FileSystem) (f : VirtFile) : Prop :=
  ∀ c, fs.bpb.InData c → c ∉ fs'.cluster_vec f → ∀ i < fs.bpb.cluster_size,
    (c = f.sde_pos.cluster → i < f.sde_pos.offset_in_cluster ∨
      f.sde_pos.offset_in_cluster + DIRENT_SIZE ≤ i) →
    fs'.device (fs.bpb.first_sector_of_cluster c + i / BLOCK_SIZE) (i % BLOCK_SIZE) =
      fs.device (fs.bpb.first_sector_of_cluster c + i / BLOCK_SIZE) (i % BLOCK_SIZE)

theorem Owned.write_confined (h : Owned fs d f clusters) (hp : Permits f fs (.write_at offset buf)) :
    Meets (fs.write_at f offset buf) (· = .outOfSpace) fun r => Confines fs r.2 f := by
  by_cases hbuf : buf = []
  · rw [FileSystem.write_at, if_pos hbuf]
    exact fun _ _ _ _ _ _ => rfl
  · apply ((h.write_at hbuf hp).mono_error fun _ he => he.1).mono
    rintro ⟨n, fs'⟩ ⟨-, d', added, hw⟩
    obtain ⟨fs₁, d₁, device, hgrown, hfs', hwritten⟩ := hw.written
    have hbpb : fs'.bpb = fs.bpb := by
      rw [show fs' = _ from hfs']
      exact hgrown.bpb
    intro c hc hnot i hi hentry
    have hshows := hw.owned.sees.shows_disk.data c (hbpb ▸ hc) i (hbpb ▸ hi)
    dsimp only at hshows hnot ⊢
    rw [hbpb] at hshows
    rw [hw.owned.chained.vec] at hnot
    rw [hshows, h.sees.shows_disk.data c hc i hi, hwritten.data_of_notMem c hnot]
    by_cases hsde : c = f.sde_pos.cluster
    · subst hsde
      exact hgrown.around i ((hentry rfl).imp_left fun hlt => by omega)
    · have hadded : c ∉ added := fun hmem => hnot (List.mem_append_right _ hmem)
      rw [hgrown.data_of_notMem c hadded hsde]

end Confined

/-- Along a run of permitted operations on the only handle to a file, the clusters in memory are
the chain of the file, and reads and writes stay on them. In each of its states, clearing the
content keeps this exactly when there is none. -/
theorem handle_mirrors_fat (h : Owned fs d f clusters)
    (hlde : ∀ pos ∈ f.lde_pos, EntryPos fs.bpb pos) {ops : List HandleOp}
    (hC : Guarded (handle_step f) (Permits f) fs ops) :
    ∀ t ∈ states (handle_step f) fs ops, Mirrors t f ∧
      (∀ offset len device, (∀ c ∈ t.cluster_vec f, ∀ k < t.bpb.sec_per_clus,
        device (t.bpb.first_sector_of_cluster c + k) =
          t.device (t.bpb.first_sector_of_cluster c + k)) →
        read_at { t with device := device } f offset len = t.read_at f offset len) ∧
      (∀ offset buf, Permits f t (.write_at offset buf) →
        Meets (t.write_at f offset buf) (· = .outOfSpace) fun r => Confines t r.2 f) ∧
      ∀ op, op = .clear_content ∨ op = .modify_size 0 → ∃ t', handle_step f t op = .ok t' ∧
        (Mirrors t' f ↔ Permits f t op) := by
  intro t ht
  have hinv : (∀ pos ∈ f.lde_pos, EntryPos t.bpb pos) ∧ ∃ d clusters, Owned t d f clusters := by
    apply invariant (fun t : FileSystem => (∀ pos ∈ f.lde_pos, EntryPos t.bpb pos) ∧
      ∃ d clusters, Owned t d f clusters) ?_ ⟨hlde, d, clusters, h⟩ hC t ht
    rintro s op t ⟨hlde, d, clusters, h⟩ hp hstep
    obtain ⟨hbpb, howned⟩ := (h.step hlde hp).of_ok hstep
    exact ⟨hbpb ▸ hlde, howned⟩
  obtain ⟨-, d, clusters, h⟩ := hinv
  refine ⟨h.mirrors, fun offset len device hsame => h.read_confined hsame len,
    fun offset buf hp => h.write_confined hp, ?_⟩
  obtain ⟨r, hr, hiff, -⟩ := h.mirrors_clear_content
  rintro op (rfl | rfl)
  · refine ⟨r.2, ?_, hiff⟩
    rw [handle_step, hr]
    rfl
  · refine ⟨r.2, ?_, hiff⟩
    rw [handle_step, FileSystem.modify_size, h.sees.file_size h.sde_pos]
    simp only [bind, Except.bind, if_true, hr]
    rfl

section Floppy

/-- An empty file in the root directory of a floppy. -/
def empty_file : FileSystem :=
  let device := floppy [.new NEW_VIRT_FILE_CLUSTER [0x41] [] .File]
  { device := device
    free_cluster_cnt := 12
    bpb := .of_block (device 0)
    recycled_cluster := []
    root_dir_entry := .new 2 [ROOT] [] .Dir
    chains := fun _ => []
    next_chain := 2 }

def empty_file_handle : VirtFile := ⟨['A'], ⟨2, 0⟩, [], 1, .File⟩

theorem empty_file_owned : Owned empty_file empty_file.disk empty_file_handle [] where
  sees := by
    refine ⟨⟨?_, shows_disk _, ⟨?_, ?_, List.nodup_nil⟩, ?_⟩, disk_root _⟩
    · constructor <;> decide +kernel
    · exact fun c hc => absurd hc List.not_mem_nil
    · exact fun c hc => absurd hc List.not_mem_nil
    · constructor <;> decide +kernel
  sde_pos := by
    refine .disk ⟨⟨?_, ?_⟩, ?_, ?_⟩ <;> decide +kernel
  chained := ⟨rfl, trivial, fun _ hc => absurd hc List.not_mem_nil⟩
  apart := List.not_mem_nil
  in_use := by decide +kernel
  first_cluster := by decide +kernel
  file_size := by decide +kernel
  dir_size h := absurd h (by decide)

theorem handle_mirrors_fat_small : Guarded (handle_step empty_file_handle)
      (Permits empty_file_handle) empty_file
      [.write_at 0 [7], .write_at 600 [8], .modify_size 1, .clear] ∧
    ∀ t ∈ states (handle_step empty_file_handle) empty_file
      [.write_at 0 [7], .write_at 600 [8], .modify_size 1, .clear],
      Mirrors t empty_file_handle := by
  have hguarded : Guarded (handle_step empty_file_handle) (Permits empty_file_handle) empty_file
      [.write_at 0 [7], .write_at 600 [8], .modify_size 1, .clear] := by decide +kernel
  refine ⟨hguarded, fun t ht => (handle_mirrors_fat empty_file_owned ?_ hguarded t ht).1⟩
  exact fun pos hpos => absurd hpos List.not_mem_nil

theorem clear_content_run : Meets (run (handle_step empty_file_handle) empty_file
    [.write_at 0 [7]]) (fun _ => False) fun t =>
      (t.first_cluster empty_file_handle = .ok 3 ∧
        t.get_all_cluster_id 3 = .ok (t.cluster_vec empty_file_handle)) ∧
      Meets (handle_step empty_file_handle t .clear_content) (fun _ => False) fun t' =>
        (t'.first_cluster empty_file_handle = .ok 0 ∧ t'.cluster_vec empty_file_handle = [3]) ∧
        t'.fat_entry 3 = .ok FREE_CLUSTER ∧ t'.read_at empty_file_handle 0 1 = .ok [7] := by
  decide +kernel

/-- The content is cleared and the clusters stay in memory: the file is read as it was before,
from a cluster that is free. -/
theorem clear_content_stale : ∃ t t', run (handle_step empty_file_handle) empty_file
      [.write_at 0 [7]] = .ok t ∧ Mirrors t empty_file_handle ∧
    handle_step empty_file_handle t .clear_content = .ok t' ∧ ¬ Mirrors t' empty_file_handle ∧
    t'.fat_entry 3 = .ok FREE_CLUSTER ∧ t'.read_at empty_file_handle 0 1 = .ok [7] := by
  obtain ⟨t, ht, ⟨hfirst, hall⟩, hclear⟩ := clear_content_run.exists_ok
  obtain ⟨t', ht', ⟨hfirst', hvec'⟩, hfree, hread⟩ := hclear.exists_ok
  refine ⟨t, t', ht, ⟨3, hfirst, hall⟩, ht', ?_, hfree, hread⟩
  rintro ⟨first, hok, hvec⟩
  cases hfirst'.symm.trans hok
  simp [hvec', NEW_VIRT_FILE_CLUSTER] at hvec

end Floppy

end FileSystem

end MyGOS.Fat32
