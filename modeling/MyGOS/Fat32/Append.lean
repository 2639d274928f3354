import MyGOS.Fat32.Records
import MyGOS.Fat32.Beside
import Mathlib.Order.Interval.Finset.Nat
import Mathlib.Tactic.Ring

/-!
# Records are appended to a directory

A record that is written at the end of the others may need one more cluster. The
free clusters that the allocator can reach become fewer by those it took.
-/

namespace MyGOS.Fat32

open Outcome

namespace Disk

/-- The free clusters that the allocator finds from `start` on. -/
def reachable (d : Disk) (limit : Nat) (recycled : List Nat) (start : Nat) : Finset Nat :=
  recycled.toFinset ∪ (Finset.Ioo start limit).filter fun c => d.next c = FREE_CLUSTER

section Reachable

variable {d d' : Disk} {limit start : Nat} {recycled : List Nat}

theorem reachable_congr (h : ∀ c < limit, d'.next c = d.next c) :
    d'.reachable limit recycled start = d.reachable limit recycled start := by
  rw [reachable, reachable]
  congr 1
  apply Finset.filter_congr
  intro c hc
  rw [h c (Finset.mem_Ioo.mp hc).2]

theorem allocs_one_isSome (h : 0 < (d.reachable limit recycled start).card) :
    (d.allocs limit 1 recycled start).isSome := by
  have hpick : (d.pick limit recycled start).isSome := by
    cases recycled with
    | cons c recycled => rfl
    | nil =>
      obtain ⟨c, hc⟩ := Finset.card_pos.mp h
      simp only [reachable, List.toFinset_nil, Finset.empty_union, Finset.mem_filter,
        Finset.mem_Ioo] at hc
      rw [pick, List.find?_isSome]
      exact ⟨c, List.mem_range'_1.mpr (by omega), decide_eq_true hc.2⟩
  obtain ⟨c, hc⟩ := Option.isSome_iff_exists.mp hpick
  rw [allocs, hc]
  rfl

/-- What was not taken is still found. -/
theorem reachable_card_le {added : List Nat}
    (htaken : ∀ c ∈ recycled.take added.length, c ∈ added)
    (hnext : ∀ c, d.next c = FREE_CLUSTER → c ∉ added → d'.next c = FREE_CLUSTER) :
    (d.reachable limit recycled start).card ≤
      (d'.reachable limit (recycled.drop added.length) start).card + added.length := by
  have hsub : d.reachable limit recycled start ⊆
      d'.reachable limit (recycled.drop added.length) start ∪ added.toFinset := by
    intro c hc
    by_cases hmem : c ∈ added
    · exact Finset.mem_union_right _ (List.mem_toFinset.mpr hmem)
    · apply Finset.mem_union_left
      simp only [reachable, Finset.mem_union, List.mem_toFinset, Finset.mem_filter] at hc ⊢
      apply hc.imp
      · intro hc
        rw [← List.take_append_drop added.length recycled, List.mem_append] at hc
        exact hc.resolve_left fun hc => hmem (htaken c hc)
      · exact fun ⟨hc, hfree⟩ => ⟨hc, hnext c hfree hmem⟩
  have hcard := (Finset.card_le_card hsub).trans (Finset.card_union_le ..)
  exact hcard.trans (Nat.add_le_add_left (List.toFinset_card_le _) _)

end Reachable

end Disk

/-- A record that was never used. -/
def Dirent.blank : Dirent := fun _ => 0

namespace Dirent

@[simp] theorem length_as_bytes (e : Dirent) : e.as_bytes.length = DIRENT_SIZE :=
  List.length_ofFn

theorem as_bytes_ne_nil (e : Dirent) : e.as_bytes ≠ [] := by
  intro hnil
  have hlen := e.length_as_bytes
  rw [hnil] at hlen
  cases hlen

theorem getD_as_bytes (e : Dirent) (i : Fin 32) : e.as_bytes.getD i 0 = e i := by
  rw [List.getD_eq_getElem _ _ (by rw [length_as_bytes]; exact i.isLt)]
  exact List.getElem_ofFn _

end Dirent

theorem record_cnt_append_le (cluster_size : Nat) (clusters added : List Nat) :
    record_cnt cluster_size clusters ≤ record_cnt cluster_size (clusters ++ added) := by
  apply Nat.div_le_div_right
  apply Nat.mul_le_mul_left
  rw [List.length_append]
  exact Nat.le_add_right ..

namespace FileSystem

variable {fs fs' fs'' : FileSystem} {d d' d'' : Disk} {dir : VirtFile}
  {clusters added added' : List Nat} {k : Nat} {e : Dirent} {es : List Dirent}

/-- The records after one of them was written. -/
theorem WroteAt.record
    (h : WroteAt fs fs' d d' dir clusters added (DIRENT_SIZE * k) e.as_bytes)
    (hdir : Owned fs d dir clusters) {j : Nat}
    (hj : j < record_cnt fs.bpb.cluster_size (clusters ++ added)) :
    d'.record fs.bpb.cluster_size (clusters ++ added) j =
      if j = k then e
      else if j < record_cnt fs.bpb.cluster_size clusters then
        d.record fs.bpb.cluster_size clusters j
      else .blank := by
  have hL := hdir.sees.layout
  rw [hL.record_lt] at hj
  obtain ⟨m, hm⟩ := hL.dirent_dvd.mul_right clusters.length
  funext i
  have hi := i.isLt
  have hcontent := @WroteAt.content _ _ _ _ _ _ _ _ _ h hdir (DIRENT_SIZE * j + i)
    (by unfold DIRENT_SIZE at hj ⊢; omega)
  rw [Dirent.length_as_bytes] at hcontent
  refine hcontent.trans ?_
  have hrecord : DIRENT_SIZE * k ≤ DIRENT_SIZE * j + i ∧
      DIRENT_SIZE * j + i < DIRENT_SIZE * k + DIRENT_SIZE ↔ j = k := by
    unfold DIRENT_SIZE
    omega
  have hold : DIRENT_SIZE * j + i < fs.bpb.cluster_size * clusters.length ↔
      j < record_cnt fs.bpb.cluster_size clusters := by
    rw [hL.record_lt, hm]
    unfold DIRENT_SIZE
    omega
  rw [if_congr hrecord rfl rfl, if_congr hold rfl rfl]
  split
  · next heq =>
    rw [heq, Nat.add_sub_cancel_left]
    exact e.getD_as_bytes i
  · split <;> rfl

/-- The records `es` were written from number `k` on, with the clusters that it took. -/
structure Appended (fs fs' : FileSystem) (d d' : Disk) (dir : VirtFile)
    (clusters added : List Nat) (k : Nat) (es : List Dirent) : Prop where
  owned : Owned fs' d' dir (clusters ++ added)
  beside : Beside fs fs' d d' dir clusters added [dir.sde_pos]
  length : added.length = fs.need_cluster_cnt dir (DIRENT_SIZE * (k + es.length))
  fits : k + es.length ≤ record_cnt fs.bpb.cluster_size (clusters ++ added)
  record : ∀ j < record_cnt fs.bpb.cluster_size (clusters ++ added),
    d'.record fs.bpb.cluster_size (clusters ++ added) j =
      if k ≤ j ∧ j < k + es.length then es.getD (j - k) .blank
      else if j < record_cnt fs.bpb.cluster_size clusters then
        d.record fs.bpb.cluster_size clusters j
      else .blank
  data : ∀ c ∈ added, fs.bpb.InData c
  free : ∀ c ∈ added, d.next c = FREE_CLUSTER
  taken : ∀ c ∈ fs.recycled_cluster.take added.length, c ∈ added
  recycled_cluster : fs'.recycled_cluster = fs.recycled_cluster.drop added.length
  free_cluster_cnt : fs.free_cluster_cnt = fs'.free_cluster_cnt + added.length

/-- The clusters for one record more than there are. -/
theorem Owned.need_record (h : Owned fs d dir clusters)
    (hk : k ≤ record_cnt fs.bpb.cluster_size clusters) :
    fs.need_cluster_cnt dir (DIRENT_SIZE * (k + 1)) =
      if k < record_cnt fs.bpb.cluster_size clusters then 0 else 1 := by
  have hL := h.sees.layout
  have hpos := hL.cluster_size_pos
  obtain ⟨m, hm⟩ := hL.dirent_dvd
  have hmpos : 0 < m := by
    rw [hm] at hpos
    exact Nat.pos_of_mul_pos_left hpos
  rw [need_cluster_cnt, h.chained.vec]
  rw [record_cnt, hm, Nat.mul_assoc, Nat.mul_div_cancel_left _ (by decide)] at hk ⊢
  have hceil : (DIRENT_SIZE * (k + 1) + DIRENT_SIZE * m - 1) / (DIRENT_SIZE * m) = k / m + 1 := by
    rw [Nat.div_eq_iff (by rw [← hm]; exact hpos)]
    have hsplit := Nat.div_add_mod k m
    have hmod := Nat.mod_lt k hmpos
    have hmul : (k / m + 1) * (DIRENT_SIZE * m) = DIRENT_SIZE * (m * (k / m)) + DIRENT_SIZE * m := by
      ring
    rw [hmul]
    unfold DIRENT_SIZE
    omega
  rw [hceil]
  have hdiv : k / m < clusters.length ↔ k < m * clusters.length := by
    rw [Nat.div_lt_iff_lt_mul hmpos, Nat.mul_comm]
  have hdiv' : k / m ≤ clusters.length := by
    apply Nat.div_le_of_le_mul
    exact hk
  split
  · next hlt =>
    have hlt := hdiv.mpr hlt
    omega
  · next hge =>
    have hge := mt hdiv.mp hge
    omega

theorem Owned.need_eq (h : Owned fs d dir clusters) (new_size : Nat) :
    fs.need_cluster_cnt dir new_size =
      (new_size + fs.bpb.cluster_size - 1) / fs.bpb.cluster_size - clusters.length := by
  rw [need_cluster_cnt, h.chained.vec]

theorem Owned.need_of_le (h : Owned fs d dir clusters)
    (hk : k ≤ record_cnt fs.bpb.cluster_size clusters) :
    fs.need_cluster_cnt dir (DIRENT_SIZE * k) = 0 := by
  have hpos := h.sees.layout.cluster_size_pos
  have hle : DIRENT_SIZE * k ≤ fs.bpb.cluster_size * clusters.length :=
    (Nat.mul_le_mul_left _ hk).trans (Nat.mul_div_le ..)
  rw [h.need_eq, Nat.sub_eq_zero_iff_le, Nat.div_le_iff_le_mul_add_pred hpos]
  omega

theorem Appended.nil (h : Owned fs d dir clusters)
    (hk : k ≤ record_cnt fs.bpb.cluster_size clusters) :
    Appended fs fs d d dir clusters [] k [] := by
  constructor
  · rw [List.append_nil]
    exact h
  · exact ⟨h.sees, rfl, le_rfl, fun _ _ _ => rfl, fun _ hc => absurd hc List.not_mem_nil,
      fun _ _ _ => rfl, fun _ _ _ _ _ => rfl⟩
  · exact (h.need_of_le hk).symm
  · rw [List.append_nil]
    exact hk
  · intro j hj
    rw [List.append_nil] at hj ⊢
    rw [if_neg (by rw [List.length_nil]; omega), if_pos hj]
  · exact fun _ hc => absurd hc List.not_mem_nil
  · exact fun _ hc => absurd hc List.not_mem_nil
  · exact fun _ hc => hc
  · rfl
  · rfl

theorem WroteAt.appended
    (h : WroteAt fs fs' d d' dir clusters added (DIRENT_SIZE * k) e.as_bytes)
    (hdir : Owned fs d dir clusters) : Appended fs fs' d d' dir clusters added k [e] := by
  have hsize : DIRENT_SIZE * k + e.as_bytes.length = DIRENT_SIZE * (k + 1) := by
    rw [Dirent.length_as_bytes, Nat.mul_succ]
  have hL := hdir.sees.layout
  obtain ⟨fs₁, d₁, device, hgrown, hfs', -⟩ := h.written
  constructor
  · exact h.owned
  · exact h.beside
  · rw [h.length, hsize]
    rfl
  · have hcap := hdir.new_size_le h.length
    rw [hsize] at hcap
    exact hL.record_lt.mpr hcap
  · intro j hj
    rw [h.record hdir hj]
    by_cases hjk : j = k
    · subst hjk
      rw [if_pos rfl, if_pos (by simp), Nat.sub_self]
      rfl
    · have hout : ¬ (k ≤ j ∧ j < k + [e].length) := by
        rw [List.length_singleton]
        omega
      rw [if_neg hjk, if_neg hout]
  · exact hgrown.data
  · exact hgrown.free
  · exact hgrown.taken
  · rw [hfs']
    exact hgrown.recycled_cluster
  · rw [hfs']
    exact hgrown.free_cluster_cnt

/-- One more record in front of the others. -/
theorem Appended.cons (hdir : Owned fs d dir clusters)
    (h : Appended fs fs' d d' dir clusters added k [e])
    (h' : Appended fs' fs'' d' d'' dir (clusters ++ added) added' (k + 1) es) :
    Appended fs fs'' d d'' dir clusters (added ++ added') k (e :: es) := by
  have hsub : ∀ c ∈ clusters ++ added, c ∈ clusters ∨ c ∈ added := fun c hc => List.mem_append.mp hc
  have hbpb := h.beside.bpb
  have hassoc : clusters ++ (added ++ added') = clusters ++ added ++ added' :=
    (List.append_assoc ..).symm
  have hlen : k + 1 + es.length = k + (e :: es).length := by
    rw [List.length_cons]
    omega
  have hnext : ∀ c ∈ added', d.next c = FREE_CLUSTER := by
    intro c hc
    have hfree := h'.free c hc
    have hnot : c ∉ clusters ++ added := fun hmem => h.owned.next_ne_free c hmem hfree
    rw [List.mem_append, not_or] at hnot
    rw [← h.beside.next c hnot.1 hnot.2]
    exact hfree
  constructor
  · rw [hassoc]
    exact h'.owned
  · exact h.beside.trans h'.beside (Or.inl rfl) hsub fun _ hpos => Or.inl hpos
  · have hmono := @ceil_mono (DIRENT_SIZE * (k + 1)) (DIRENT_SIZE * (k + (e :: es).length))
      fs.bpb.cluster_size (Nat.mul_le_mul_left _ (by omega))
    have h₁ := h.length
    have h₂ := h'.length
    rw [List.length_singleton, hdir.need_eq] at h₁
    rw [h.owned.need_eq, List.length_append, hbpb, hlen] at h₂
    rw [hdir.need_eq, List.length_append, h₁, h₂, h₁]
    omega
  · rw [hassoc, ← hlen, ← hbpb]
    exact h'.fits
  · intro j hj
    rw [hassoc, ← hbpb] at hj
    have hj' := h'.record j hj
    rw [hbpb] at hj hj'
    rw [hassoc, hj']
    have hold := record_cnt_append_le fs.bpb.cluster_size clusters added
    by_cases hin : k + 1 ≤ j ∧ j < k + 1 + es.length
    · obtain ⟨m, rfl⟩ := Nat.exists_eq_add_of_le hin.1
      have hsub₁ : k + 1 + m - (k + 1) = m := by omega
      have hsub₂ : k + 1 + m - k = m + 1 := by omega
      rw [if_pos hin, if_pos (by rw [← hlen]; omega), hsub₁, hsub₂, List.getD_cons_succ]
    · rw [if_neg hin]
      by_cases hjk : j = k
      · subst hjk
        have hfits : j < record_cnt fs.bpb.cluster_size (clusters ++ added) := h.fits
        rw [if_pos hfits, if_pos (by rw [← hlen]; omega), h.record j hfits,
          if_pos (by rw [List.length_singleton]; omega), Nat.sub_self]
        rfl
      · have hout : ¬ (k ≤ j ∧ j < k + (e :: es).length) := by
          rw [← hlen]
          omega
        have hout' : ¬ (k ≤ j ∧ j < k + [e].length) := by
          rw [List.length_singleton]
          omega
        rw [if_neg hout]
        by_cases hlt : j < record_cnt fs.bpb.cluster_size (clusters ++ added)
        · rw [if_pos hlt, h.record j hlt, if_neg hout']
        · rw [if_neg hlt, if_neg (by omega)]
  · exact List.forall_mem_append.mpr ⟨h.data, hbpb ▸ h'.data⟩
  · exact List.forall_mem_append.mpr ⟨h.free, hnext⟩
  · intro c hc
    rw [List.length_append, List.take_add, List.mem_append] at hc
    rw [List.mem_append]
    apply hc.imp (h.taken c)
    intro hc
    rw [← h.recycled_cluster] at hc
    exact h'.taken c hc
  · rw [h'.recycled_cluster, h.recycled_cluster, List.drop_drop, List.length_append]
  · rw [h.free_cluster_cnt, h'.free_cluster_cnt, List.length_append]
    omega

/-- The free clusters that the file finds. -/
def reachable (fs : FileSystem) (f : VirtFile) : Finset Nat :=
  fs.disk.reachable (fs.bpb.data_cluster_cnt + 2) fs.recycled_cluster
    ((fs.cluster_vec f).headD NEW_VIRT_FILE_CLUSTER)

theorem Owned.reachable_eq (h : Owned fs d dir clusters) :
    fs.reachable dir = d.reachable (fs.bpb.data_cluster_cnt + 2) fs.recycled_cluster
      (clusters.headD NEW_VIRT_FILE_CLUSTER) := by
  rw [FileSystem.reachable, h.chained.vec]
  apply Disk.reachable_congr
  exact fun c hc => h.sees.shows_disk.next c hc

theorem Owned.write_record (h : Owned fs d dir clusters)
    (hk : k ≤ record_cnt fs.bpb.cluster_size clusters)
    (hreach : min (fs.need_cluster_cnt dir (DIRENT_SIZE * (k + 1))) fs.free_cluster_cnt ≤
      (fs.reachable dir).card) :
    Meets (fs.write_at dir (DIRENT_SIZE * k) e.as_bytes)
      (fs.Full (fs.need_cluster_cnt dir (DIRENT_SIZE * (k + 1)))) fun r => ∃ d' added,
        Appended fs r.2 d d' dir clusters added k [e] := by
  have hsize : DIRENT_SIZE * k + e.as_bytes.length = DIRENT_SIZE * (k + 1) := by
    rw [Dirent.length_as_bytes, Nat.mul_succ]
  have hroom : Room fs dir (DIRENT_SIZE * k + e.as_bytes.length) := by
    rw [hsize]
    intro hneed hfree
    have hone := h.need_record hk
    split at hone
    · omega
    · rw [min_eq_left hfree, hone] at hreach
      rw [hone]
      exact Disk.allocs_one_isSome hreach
  have hwrite := h.write_at e.as_bytes_ne_nil hroom
  rw [hsize] at hwrite
  apply hwrite.mono
  rintro r ⟨-, d', added, hw⟩
  exact ⟨d', added, hw.appended h⟩

/-- The allocator still finds what it did not take. -/
theorem Appended.reachable_card (hdir : Owned fs d dir clusters)
    (h : Appended fs fs' d d' dir clusters added k es) (limit start : Nat) :
    (d.reachable limit fs.recycled_cluster start).card ≤
      (d'.reachable limit fs'.recycled_cluster start).card + added.length := by
  rw [h.recycled_cluster]
  apply Disk.reachable_card_le h.taken
  intro c hfree hnot
  have hmem : c ∉ clusters := fun hmem => hdir.next_ne_free c hmem hfree
  rw [h.beside.next c hmem hnot]
  exact hfree

theorem Appended.reachable (hdir : Owned fs d dir clusters) (hne : clusters ≠ [])
    (h : Appended fs fs' d d' dir clusters added k es) :
    (fs.reachable dir).card ≤ (fs'.reachable dir).card + added.length := by
  have hhead : (clusters ++ added).headD NEW_VIRT_FILE_CLUSTER =
      clusters.headD NEW_VIRT_FILE_CLUSTER := by
    cases clusters with
    | nil => exact absurd rfl hne
    | cons c clusters => rfl
  rw [hdir.reachable_eq, h.owned.reachable_eq, hhead, h.beside.bpb]
  exact h.reachable_card hdir ..

/-- The records of a file are written one after the other; the allocator finds the clusters as far
as the free count has them. -/
theorem Owned.write_records (h : Owned fs d dir clusters) (hne : clusters ≠ [])
    (hk : k ≤ record_cnt fs.bpb.cluster_size clusters)
    (hreach : min (fs.need_cluster_cnt dir (DIRENT_SIZE * (k + es.length))) fs.free_cluster_cnt ≤
      (fs.reachable dir).card) :
    Meets (fs.write_records dir (DIRENT_SIZE * k) es)
      (fs.Full (fs.need_cluster_cnt dir (DIRENT_SIZE * (k + es.length)))) fun fs' => ∃ d' added,
        Appended fs fs' d d' dir clusters added k es := by
  induction es generalizing fs d clusters k with
  | nil => exact ⟨d, [], .nil h hk⟩
  | cons e es ih =>
    have hlen : k + 1 + es.length = k + (e :: es).length := by
      rw [List.length_cons]
      omega
    have hmono := @ceil_mono (DIRENT_SIZE * (k + 1)) (DIRENT_SIZE * (k + (e :: es).length))
      fs.bpb.cluster_size (Nat.mul_le_mul_left _ (by omega))
    have hone : fs.need_cluster_cnt dir (DIRENT_SIZE * (k + 1)) ≤
        fs.need_cluster_cnt dir (DIRENT_SIZE * (k + (e :: es).length)) :=
      Nat.sub_le_sub_right hmono _
    rw [FileSystem.write_records]
    apply ((h.write_record hk ((min_le_min_right _ hone).trans hreach)).mono_error
      fun _ he => ⟨he.1, he.2.trans_le hone⟩).bind
    rintro ⟨n, fs'⟩ ⟨d', added, ha⟩
    dsimp only at ha ⊢
    have hne' : clusters ++ added ≠ [] := by
      cases clusters with
      | nil => exact absurd rfl hne
      | cons c clusters => exact List.cons_ne_nil _ _
    -- what the other records need
    have hrest : fs'.need_cluster_cnt dir (DIRENT_SIZE * (k + 1 + es.length)) + added.length =
        fs.need_cluster_cnt dir (DIRENT_SIZE * (k + (e :: es).length)) := by
      have hadded := ha.length
      rw [List.length_singleton, h.need_eq] at hadded
      rw [h.need_eq, ha.owned.need_eq, List.length_append, ha.beside.bpb, hlen]
      omega
    have hcard := ha.reachable h hne
    have hcnt := ha.free_cluster_cnt
    apply ((@ih fs' d' (clusters ++ added) (k + 1) ha.owned hne' ?_ ?_).mono ?_).mono_error ?_
    · rw [ha.beside.bpb]
      exact ha.fits
    · omega
    · rintro fs'' ⟨d'', added', ha'⟩
      exact ⟨d'', added ++ added', ha.cons h ha'⟩
    · rintro e ⟨he, hlt⟩
      exact ⟨he, by omega⟩

end FileSystem

end MyGOS.Fat32
