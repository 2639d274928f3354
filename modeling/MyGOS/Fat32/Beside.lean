import MyGOS.Fat32.Mirror

/-!
# What an operation leaves alone

An operation on one file changes its clusters, clusters that were free, and its
directory entries. Every other file keeps its chain, its entry and its bytes.
-/

namespace MyGOS.Fat32

open Outcome

namespace DirEntryPos

/-- The entries at two places have no byte in common. -/
def Separate (pos pos' : DirEntryPos) : Prop :=
  pos.cluster = pos'.cluster → pos.offset_in_cluster + DIRENT_SIZE ≤ pos'.offset_in_cluster ∨
    pos'.offset_in_cluster + DIRENT_SIZE ≤ pos.offset_in_cluster

theorem Separate.symm {pos pos' : DirEntryPos} (h : Separate pos pos') : Separate pos' pos :=
  fun heq => (h heq.symm).symm

/-- Entries that are aligned are separate when they are different. -/
theorem separate_of_ne {pos pos' : DirEntryPos} (h : DIRENT_SIZE ∣ pos.offset_in_cluster)
    (h' : DIRENT_SIZE ∣ pos'.offset_in_cluster) (hne : pos ≠ pos') : Separate pos pos' := by
  intro hcluster
  obtain ⟨m, hm⟩ := h
  obtain ⟨n, hn⟩ := h'
  have hmn : m ≠ n := by
    rintro rfl
    cases pos
    cases pos'
    simp_all
  rw [hm, hn]
  unfold DIRENT_SIZE
  omega

end DirEntryPos

namespace Disk

variable {d d' : Disk} {cluster_size : Nat} {clusters added : List Nat} {k : Nat}

theorem content_append_left (hk : k < cluster_size * clusters.length) :
    d.content cluster_size (clusters ++ added) k = d.content cluster_size clusters k := by
  have hlt : k / cluster_size < clusters.length := Nat.div_lt_of_lt_mul hk
  rw [content, content, List.getD_append _ _ _ _ hlt]

/-- What is behind the clusters of a file that is filled with zeros. -/
theorem content_append_zero (hpos : 0 < cluster_size) (hzero : ∀ c ∈ added, ∀ i, d.data c i = 0)
    (hk : k < cluster_size * (clusters ++ added).length) (hge : cluster_size * clusters.length ≤ k) :
    d.content cluster_size (clusters ++ added) k = 0 := by
  have hle : clusters.length ≤ k / cluster_size :=
    (Nat.le_div_iff_mul_le hpos).mpr (by rwa [Nat.mul_comm])
  have hlt : k / cluster_size - clusters.length < added.length := by
    have hdiv : k / cluster_size < (clusters ++ added).length := Nat.div_lt_of_lt_mul hk
    rw [List.length_append] at hdiv
    omega
  rw [content, List.getD_append_right _ _ _ _ hle, List.getD_eq_getElem _ _ hlt]
  exact hzero _ (List.getElem_mem hlt) _

end Disk

namespace FileSystem

theorem SdePos.aligned {bpb : BIOSParameterBlock} {pos : DirEntryPos} (h : SdePos bpb pos) :
    DIRENT_SIZE ∣ pos.offset_in_cluster := by
  cases h with
  | root hroot =>
    rw [hroot]
    exact Nat.dvd_zero _
  | disk hpos => exact hpos.aligned

/-- An operation on `f`, which had `clusters` and may have taken `added`, changes nothing else but
the entries at some places. -/
structure Beside (fs fs' : FileSystem) (d d' : Disk) (f : VirtFile) (clusters added : List Nat)
    (entries : List DirEntryPos) : Prop where
  sees : Sees fs' d'
  bpb : fs'.bpb = fs.bpb
  next_chain : fs.next_chain ≤ fs'.next_chain
  chains : ∀ c < fs.next_chain, c ≠ f.cluster_chain → fs'.chains c = fs.chains c
  free : ∀ c ∈ added, d.next c = FREE_CLUSTER ∨ c ∈ clusters
  next : ∀ c, c ∉ clusters → c ∉ added → d'.next c = d.next c
  data : ∀ c i, c ∉ clusters → c ∉ added → (∀ pos ∈ entries, pos.cluster = c →
    i < pos.offset_in_cluster ∨ pos.offset_in_cluster + DIRENT_SIZE ≤ i) → d'.data c i = d.data c i

section Others

variable {fs fs' fs'' : FileSystem} {d d' d'' : Disk} {f g : VirtFile}
  {clusters clusters' added added' others : List Nat} {entries entries' : List DirEntryPos}
  {pos : DirEntryPos}

/-- Operations on a file, and on handles to its entries that are new. -/
theorem Beside.trans (h : Beside fs fs' d d' f clusters added entries)
    (h' : Beside fs' fs'' d' d'' g clusters' added' entries')
    (hchain : g.cluster_chain = f.cluster_chain ∨ fs.next_chain ≤ g.cluster_chain)
    (hsub : ∀ c ∈ clusters', c ∈ clusters ∨ c ∈ added)
    (hentries : ∀ pos ∈ entries', pos ∈ entries ∨ pos.cluster ∈ clusters ∨ pos.cluster ∈ added) :
    Beside fs fs'' d d'' f clusters (added ++ added') entries where
  sees := h'.sees
  bpb := h'.bpb.trans h.bpb
  next_chain := h.next_chain.trans h'.next_chain
  chains c hc hne := by
    have hne' : c ≠ g.cluster_chain := by
      rintro rfl
      exact hchain.elim hne fun hge => absurd hc (not_lt.mpr hge)
    exact (h'.chains c (hc.trans_le h.next_chain) hne').trans (h.chains c hc hne)
  free := by
    refine List.forall_mem_append.mpr ⟨h.free, fun c hc => ?_⟩
    by_cases hmem : c ∈ clusters
    · exact Or.inr hmem
    by_cases hadded : c ∈ added
    · exact h.free c hadded
    rw [← h.next c hmem hadded]
    exact (h'.free c hc).imp_right fun hc => ((hsub c hc).resolve_right hadded)
  next c hc hc' := by
    rw [List.mem_append, not_or] at hc'
    exact (h'.next c (fun hmem => (hsub c hmem).elim hc hc'.1) hc'.2).trans (h.next c hc hc'.1)
  data c i hc hc' hi := by
    rw [List.mem_append, not_or] at hc'
    refine (h'.data c i (fun hmem => (hsub c hmem).elim hc hc'.1) hc'.2 ?_).trans
      (h.data c i hc hc'.1 hi)
    intro pos hpos heq
    rcases hentries pos hpos with hpos | hmem | hmem
    · exact hi pos hpos heq
    · exact absurd (heq ▸ hmem) hc
    · exact absurd (heq ▸ hmem) hc'.1

/-- A cluster that is in use was not taken. -/
theorem Beside.notMem_added (h : Beside fs fs' d d' f clusters added entries) {c : Nat}
    (hc : c ∉ clusters) (huse : d.next c ≠ FREE_CLUSTER) : c ∉ added :=
  fun hmem => (h.free c hmem).elim huse hc

theorem Beside.entry (h : Beside fs fs' d d' f clusters added entries) (hc : pos.cluster ∉ clusters)
    (huse : d.next pos.cluster ≠ FREE_CLUSTER) (hapart : ∀ pos' ∈ entries, pos'.Separate pos) :
    d'.entry pos = d.entry pos := by
  funext i
  apply h.data _ _ hc (h.notMem_added hc huse)
  intro pos' hmem heq
  have hi := i.isLt
  have hsep := hapart pos' hmem heq
  unfold DIRENT_SIZE at hsep ⊢
  omega

/-- A file whose clusters and whose entry are as they were. -/
theorem Owned.keep (hg : Owned fs d g others) (hsees : Sees fs' d') (hbpb : fs'.bpb = fs.bpb)
    (hvec : fs'.cluster_vec g = others) (hnext : ∀ c ∈ others, d'.next c = d.next c)
    (huse : d'.next g.sde_pos.cluster ≠ FREE_CLUSTER)
    (hentry : d'.entry g.sde_pos = d.entry g.sde_pos) : Owned fs' d' g others where
  sees := hsees
  sde_pos := hbpb ▸ hg.sde_pos
  chained := ⟨hvec, hg.chained.chain.congr hnext, hbpb ▸ hg.chained.data⟩
  apart := hg.apart
  in_use := huse
  first_cluster := hentry ▸ hg.first_cluster
  file_size := by
    rw [hentry, hbpb]
    exact hg.file_size
  dir_size := hentry ▸ hg.dir_size

/-- Another file keeps its clusters and its entry. -/
theorem Owned.beside (hg : Owned fs d g others) (h : Beside fs fs' d d' f clusters added entries)
    (hlt : g.cluster_chain < fs.next_chain) (hchain : g.cluster_chain ≠ f.cluster_chain)
    (hdisjoint : ∀ c ∈ others, c ∉ clusters) (hsde : g.sde_pos.cluster ∉ clusters)
    (hapart : ∀ pos ∈ entries, pos.Separate g.sde_pos) : Owned fs' d' g others := by
  apply hg.keep h.sees h.bpb
  · exact (h.chains _ hlt hchain).trans hg.chained.vec
  · intro c hc
    have hnot := hdisjoint c hc
    exact h.next c hnot (h.notMem_added hnot (hg.next_ne_free c hc))
  · rw [h.next _ hsde (h.notMem_added hsde hg.in_use)]
    exact hg.in_use
  · exact h.entry hsde hg.in_use hapart

/-- Another file keeps its bytes, as far as they are not in one of the entries. -/
theorem Owned.content_beside (hg : Owned fs d g others)
    (h : Beside fs fs' d d' f clusters added entries) (hdisjoint : ∀ c ∈ others, c ∉ clusters)
    {cluster_size k : Nat} (hk : k < cluster_size * others.length)
    (hapart : ∀ pos ∈ entries, pos.cluster = others.getD (k / cluster_size) 0 →
      k % cluster_size < pos.offset_in_cluster ∨
        pos.offset_in_cluster + DIRENT_SIZE ≤ k % cluster_size) :
    d'.content cluster_size others k = d.content cluster_size others k := by
  have hlt : k / cluster_size < others.length := Nat.div_lt_of_lt_mul hk
  rw [Disk.content, Disk.content]
  rw [List.getD_eq_getElem _ _ hlt] at hapart ⊢
  have hmem := List.getElem_mem hlt
  have hnot := hdisjoint _ hmem
  exact h.data _ _ hnot (h.notMem_added hnot (hg.next_ne_free _ hmem)) hapart

end Others

section Write

variable {fs fs' : FileSystem} {d d' : Disk} {f : VirtFile} {clusters added : List Nat}
  {offset : Nat} {buf : List UInt8}

theorem WroteAt.beside (h : WroteAt fs fs' d d' f clusters added offset buf) :
    Beside fs fs' d d' f clusters added [f.sde_pos] := by
  obtain ⟨fs₁, d₁, device, hgrown, rfl, hw⟩ := h.written
  constructor
  · exact h.owned.sees
  · exact hgrown.bpb
  · exact hgrown.next_chain.ge
  · exact fun c _ => hgrown.chains c
  · exact fun c hc => Or.inl (hgrown.free c hc)
  · intro c hc hc'
    rw [hw.next]
    exact hgrown.next_of_notMem c hc hc'
  · intro c i hc hc' hi
    have hnot : c ∉ clusters ++ added := fun hmem => (List.mem_append.mp hmem).elim hc hc'
    rw [hw.data_of_notMem c hnot]
    by_cases hsde : c = f.sde_pos.cluster
    · subst hsde
      apply hgrown.around
      have hout := hi _ (List.mem_singleton_self _) rfl
      unfold DIRENT_SIZE at hout
      omega
    · rw [hgrown.data_of_notMem c hc' hsde]

/-- Of the entry of the file, the name and the attributes do not change. -/
theorem WroteAt.around (h : WroteAt fs fs' d d' f clusters added offset buf) {i : Fin 32}
    (hi : i < 20) : d'.entry f.sde_pos i = d.entry f.sde_pos i := by
  obtain ⟨fs₁, d₁, device, hgrown, -, hw⟩ := h.written
  have hentry : d'.entry f.sde_pos = d₁.entry f.sde_pos := by
    unfold Disk.entry
    rw [hw.data_of_notMem _ h.owned.apart]
  rw [hentry]
  exact hgrown.around _ (Or.inl (Nat.add_lt_add_left hi _))

/-- The bytes of a file that has grown. -/
theorem Grown.content (h : Grown fs fs' d d' f clusters added) (hf : Owned fs d f clusters) {k : Nat}
    (hk : k < fs.bpb.cluster_size * (clusters ++ added).length) :
    d'.content fs.bpb.cluster_size (clusters ++ added) k =
      if k < fs.bpb.cluster_size * clusters.length then d.content fs.bpb.cluster_size clusters k
      else 0 := by
  split
  · next hlt =>
    rw [Disk.content_append_left hlt]
    refine d.content_congr ?_ hlt
    intro c hc
    apply h.data_of_notMem
    · exact fun hmem => hf.next_ne_free c hc (h.free c hmem)
    · rintro rfl
      exact hf.apart hc
  · next hge =>
    exact Disk.content_append_zero hf.sees.layout.cluster_size_pos h.zero hk (not_lt.mp hge)

/-- The bytes of the file after a write. -/
theorem WroteAt.content (h : WroteAt fs fs' d d' f clusters added offset buf)
    (hf : Owned fs d f clusters) {k : Nat}
    (hk : k < fs.bpb.cluster_size * (clusters ++ added).length) :
    d'.content fs.bpb.cluster_size (clusters ++ added) k =
      if offset ≤ k ∧ k < offset + buf.length then buf.getD (k - offset) 0
      else if k < fs.bpb.cluster_size * clusters.length then
        d.content fs.bpb.cluster_size clusters k
      else 0 := by
  obtain ⟨fs₁, d₁, device, hgrown, -, hw⟩ := h.written
  rw [hw.content k hk, hgrown.content hf hk]

/-- The bytes of a file that was cut. -/
theorem Cut.content {new_size : Nat} (h : Cut fs fs' d d' f clusters new_size)
    (hf : Owned fs d f clusters) {k : Nat}
    (hk : k < fs.bpb.cluster_size *
      (clusters.take ((new_size + fs.bpb.cluster_size - 1) / fs.bpb.cluster_size)).length) :
    d'.content fs.bpb.cluster_size
        (clusters.take ((new_size + fs.bpb.cluster_size - 1) / fs.bpb.cluster_size)) k =
      d.content fs.bpb.cluster_size clusters k := by
  have happend := @Disk.content_append_left d _ _ (clusters.drop
    ((new_size + fs.bpb.cluster_size - 1) / fs.bpb.cluster_size)) _ hk
  rw [List.take_append_drop] at happend
  rw [happend]
  refine d.content_congr ?_ hk
  intro c hc
  apply h.data_of_ne
  rintro rfl
  exact hf.apart (List.mem_of_mem_take hc)

end Write

end FileSystem

end MyGOS.Fat32
