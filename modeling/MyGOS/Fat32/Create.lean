import MyGOS.Fat32.Found
import MyGOS.Fat32.Search
import MyGOS.Fat32.Lookup

/-!
# Creating an entry

A name that is not found gets records behind the others, and a search finds
these. The two entries of a new directory are in a cluster of its own.
-/

namespace MyGOS.Fat32

open Outcome

namespace Looked

variable {fs fs' : FileSystem} {d : Disk}

theorem disk (h : Looked fs fs') : fs'.disk = fs.disk := by
  rw [h.eq]
  rfl

theorem sees (hl : Looked fs fs') (h : fs.Sees d) : fs'.Sees d := by
  rw [hl.eq]
  exact ⟨⟨h.layout, h.shows_disk, h.recycled, h.reserved⟩, h.root⟩

end Looked

namespace FileSystem

variable {fs fs' : FileSystem} {d d' : Disk} {dir f : VirtFile}
  {clusters added chain : List Nat} {n k : Nat} {name : Name} {file_type : VirtFileType}

section Places

variable {entries : List DirEntryPos}

/-- Different records are at different places. -/
theorem Owned.record_pos_inj (h : Owned fs d dir clusters) {j k : Nat}
    (hj : j < record_cnt fs.bpb.cluster_size clusters)
    (hk : k < record_cnt fs.bpb.cluster_size clusters)
    (heq : record_pos fs.bpb.cluster_size clusters j = record_pos fs.bpb.cluster_size clusters k) :
    j = k := by
  have hL := h.sees.layout
  have hindex : ∀ i < record_cnt fs.bpb.cluster_size clusters,
      DIRENT_SIZE * i / fs.bpb.cluster_size < clusters.length := by
    intro i hi
    have hin := hL.record_lt.mp hi
    apply Nat.div_lt_of_lt_mul
    unfold DIRENT_SIZE at hin ⊢
    omega
  obtain ⟨hcluster, hoffset⟩ := (DirEntryPos.mk.injEq ..).mp heq
  rw [List.getD_eq_getElem _ _ (hindex j hj), List.getD_eq_getElem _ _ (hindex k hk)] at hcluster
  have hdiv := (List.Nodup.getElem_inj_iff h.chained.chain.nodup).mp hcluster
  have hj' := Nat.div_add_mod (DIRENT_SIZE * j) fs.bpb.cluster_size
  have hk' := Nat.div_add_mod (DIRENT_SIZE * k) fs.bpb.cluster_size
  rw [hdiv, hoffset, hk'] at hj'
  exact (Nat.mul_left_cancel (by decide) hj').symm

/-- What changes some records of a directory does not change the others. -/
theorem Owned.record_beside (h : Owned fs d dir clusters) {taken : List Nat}
    (hb : Beside fs fs' d d' f taken added entries) (htaken : ∀ c ∈ taken, c ∉ clusters) {j : Nat}
    (hj : j < record_cnt fs.bpb.cluster_size clusters)
    (hentries : ∀ pos ∈ entries, ∃ k < record_cnt fs.bpb.cluster_size clusters,
      pos = record_pos fs.bpb.cluster_size clusters k ∧ k ≠ j) :
    d'.record fs.bpb.cluster_size clusters j = d.record fs.bpb.cluster_size clusters j := by
  have hL := h.sees.layout
  have hcluster := h.record_cluster hj
  rw [← d'.entry_record_pos hL, ← d.entry_record_pos hL]
  apply hb.entry (fun hmem => htaken _ hmem hcluster) (h.next_ne_free _ hcluster)
  intro pos hpos
  obtain ⟨k, hk, rfl, hne⟩ := hentries pos hpos
  apply DirEntryPos.separate_of_ne (h.record_entry_pos hk).aligned (h.record_entry_pos hj).aligned
  exact fun heq => hne (h.record_pos_inj hk hj heq)

end Places

section Dots

/-- What a file needs for its first bytes. -/
theorem Owned.need_first (h : Owned fs d f chain) {new_size : Nat} (hpos : 0 < new_size)
    (hle : new_size ≤ BLOCK_SIZE) : fs.need_cluster_cnt f new_size = 1 - chain.length := by
  have hL := h.sees.layout
  have hcs := hL.cluster_size_pos
  have hblock : BLOCK_SIZE ≤ fs.bpb.cluster_size := by
    rw [hL.cluster_size]
    exact Nat.le_mul_of_pos_left _ hL.sec_per_clus
  have hone : (new_size + fs.bpb.cluster_size - 1) / fs.bpb.cluster_size = 1 := by
    rw [Nat.div_eq_iff hcs]
    omega
  rw [h.need_eq, hone]

/-- A file that is not among the clusters of the directory gets the two entries, and a cluster for
them if it has none. -/
theorem Owned.write_dots_to (h : Owned fs d dir clusters) (hf : Owned fs d f chain)
    (hchain : dir.cluster_chain ≠ f.cluster_chain) (hlt : dir.cluster_chain < fs.next_chain)
    (hdisjoint : ∀ c ∈ chain, c ∉ clusters) (hsde : dir.sde_pos.cluster ∉ chain)
    (hk : k < record_cnt fs.bpb.cluster_size clusters)
    (hpos : f.sde_pos = record_pos fs.bpb.cluster_size clusters k)
    (hreach : chain = [] → 0 < fs.free_cluster_cnt →
      0 < (d.reachable (fs.bpb.data_cluster_cnt + 2) fs.recycled_cluster
        NEW_VIRT_FILE_CLUSTER).card) :
    Meets (fs.write_dots dir f) (fs.Full 1) fun fs' => ∃ d' added, Owned fs' d' dir clusters ∧
      Owned fs' d' f (chain ++ added) ∧ added.length = 1 - chain.length ∧
      Beside fs fs' d d' f chain added [f.sde_pos] ∧
      ∀ i : Fin 32, i < 20 → d'.entry f.sde_pos i = d.entry f.sde_pos i := by
  have hsep : ∀ pos ∈ [f.sde_pos], pos.Separate dir.sde_pos := by
    refine List.forall_mem_singleton.mpr fun heq => ?_
    rw [hpos] at heq
    exact absurd (heq ▸ h.record_cluster hk) h.apart
  have hclusters : ∀ c ∈ clusters, c ∉ chain := fun c hc hmem => hdisjoint c hmem hc
  have hneed : ∀ e : Dirent, fs.need_cluster_cnt f (DIRENT_SIZE + e.as_bytes.length) =
      1 - chain.length := by
    intro e
    rw [e.length_as_bytes]
    exact hf.need_first (by decide) (by decide)
  rw [FileSystem.write_dots, h.sees.first_cluster h.sde_pos]
  simp only [bind, Except.bind]
  -- the first write needs a cluster if there is none
  have hroom : ∀ e : Dirent, Room fs f (DIRENT_SIZE + e.as_bytes.length) := by
    intro e hpos hle
    rw [hneed] at hpos hle ⊢
    have hnil : chain = [] := List.length_eq_zero_iff.mp (by omega)
    subst hnil
    rw [hf.chained.vec]
    apply Disk.allocs_one_isSome
    rw [Disk.reachable_congr fun c hc => h.sees.shows_disk.next c hc]
    exact hreach rfl hle
  have hfirst := fun e : Dirent => hf.write_at e.as_bytes_ne_nil (hroom e)
  simp only [hneed] at hfirst
  apply ((hfirst _).mono_error fun _ he => ⟨he.1, he.2.trans_le (Nat.sub_le _ _)⟩).bind
  rintro ⟨_, fs₁⟩ ⟨-, d₁, added, hw₁⟩
  have hlen := hw₁.length
  rw [hneed] at hlen
  have hf₁ := hw₁.owned
  have hb₁ := hw₁.beside
  have hdir₁ := h.beside hb₁ hlt hchain hclusters hsde hsep
  dsimp only at hf₁ hdir₁ ⊢
  rw [hf₁.sees.first_cluster hf₁.sde_pos]
  simp only
  -- the second one does not
  have hzero : ∀ e : Dirent, fs₁.need_cluster_cnt f (0 + e.as_bytes.length) = 0 := by
    intro e
    have hneed₁ := hf₁.need_first (show 0 < 0 + e.as_bytes.length by
      rw [e.length_as_bytes]
      decide) (by
        rw [e.length_as_bytes]
        decide)
    rw [hneed₁, List.length_append, hlen]
    omega
  have hsecond := fun e : Dirent => @Owned.write_at fs₁ d₁ f (chain ++ added) 0 e.as_bytes hf₁
    e.as_bytes_ne_nil fun hneed => absurd hneed (by rw [hzero]; exact lt_irrefl 0)
  simp only [hzero] at hsecond
  apply ((hsecond _).mono_error fun _ he => absurd he.2 (Nat.not_lt_zero _)).bind
  rintro ⟨_, fs₂⟩ ⟨-, d₂, added₂, hw₂⟩
  have hlen₂ := hw₂.length
  rw [hzero] at hlen₂
  obtain rfl := List.length_eq_zero_iff.mp hlen₂
  have hb₂ := hw₂.beside
  have howned := hw₂.owned
  rw [List.append_nil] at howned
  have hfree : ∀ c ∈ added, d.next c ≠ FREE_CLUSTER → c ∈ chain :=
    fun c hc huse => (hb₁.free c hc).resolve_left huse
  refine ⟨d₂, added, ?_, howned, hlen, ?_, ?_⟩
  · apply hdir₁.beside hb₂ (hlt.trans_le hb₁.next_chain) hchain
    · intro c hc hmem
      obtain hmem | hmem := List.mem_append.mp hmem
      · exact hclusters c hc hmem
      · exact hclusters c hc (hfree c hmem (h.next_ne_free c hc))
    · intro hmem
      obtain hmem | hmem := List.mem_append.mp hmem
      · exact hsde hmem
      · exact hsde (hfree _ hmem h.in_use)
    · exact hsep
  · have htrans := hb₁.trans hb₂ (Or.inl rfl) (fun _ hc => List.mem_append.mp hc)
      fun _ hpos => Or.inl hpos
    rwa [List.append_nil] at htrans
  · intro i hi
    exact (hw₂.around hi).trans (hw₁.around hi)

/-- A new directory gets a cluster, and its entries are there. -/
theorem Owned.write_dots (h : Owned fs d dir clusters) (hf : Owned fs d f [])
    (hchain : dir.cluster_chain ≠ f.cluster_chain) (hlt : dir.cluster_chain < fs.next_chain)
    (hk : k < record_cnt fs.bpb.cluster_size clusters)
    (hpos : f.sde_pos = record_pos fs.bpb.cluster_size clusters k)
    (hreach : 0 < fs.free_cluster_cnt → 0 < (d.reachable (fs.bpb.data_cluster_cnt + 2)
      fs.recycled_cluster NEW_VIRT_FILE_CLUSTER).card) :
    Meets (fs.write_dots dir f) (fs.Full 1) fun fs' => ∃ d' c, Owned fs' d' dir clusters ∧
      Owned fs' d' f [c] ∧ c ∉ clusters ∧ Beside fs fs' d d' f [] [c] [f.sde_pos] ∧
      ∀ i : Fin 32, i < 20 → d'.entry f.sde_pos i = d.entry f.sde_pos i := by
  apply (h.write_dots_to hf hchain hlt (fun _ hc => absurd hc List.not_mem_nil) List.not_mem_nil hk
    hpos fun _ => hreach).mono
  rintro fs' ⟨d', added, hdir', hf', hlen, hb, haround⟩
  obtain ⟨c, rfl⟩ := List.length_eq_one_iff.mp hlen
  refine ⟨d', c, hdir', hf', fun hmem => ?_, hb, haround⟩
  exact (hb.free c (List.mem_singleton_self c)).elim (h.next_ne_free c hmem) List.not_mem_nil

end Dots

/-- The name has its records behind the others; a new directory took the clusters of `chain`. -/
structure Entered (fs fs' : FileSystem) (d d' : Disk) (dir : VirtFile)
    (clusters added chain : List Nat) (n : Nat) (name : Name) (file_type : VirtFileType) : Prop where
  owned : Owned fs' d' dir (clusters ++ added)
  beside : Beside fs fs' d d' dir clusters (added ++ chain) [dir.sde_pos]
  old : ∀ k < n, d'.record fs.bpb.cluster_size (clusters ++ added) k =
    d.record fs.bpb.cluster_size clusters k
  records : Extends (d.record fs.bpb.cluster_size clusters)
    (d'.record fs.bpb.cluster_size (clusters ++ added))
    (record_cnt fs.bpb.cluster_size (clusters ++ added)) n name file_type

/-- The handle of the new name. -/
structure NewEntry (fs fs' : FileSystem) (d' : Disk) (clusters chain : List Nat) (n : Nat)
    (name : Name) (file_type : VirtFileType) (f : VirtFile) : Prop where
  owned : Owned fs' d' f chain
  attr : f.attr = file_type
  sde_pos : f.sde_pos = record_pos fs.bpb.cluster_size clusters (n + (lfn_vec name).length)
  lde_pos : f.lde_pos = (List.range (lde_cnt name)).map fun i =>
    record_pos fs.bpb.cluster_size clusters (own_index name n + i)
  cluster_chain : fs.next_chain ≤ f.cluster_chain ∧ f.cluster_chain < fs'.next_chain
  disjoint : ∀ c ∈ chain, c ∉ clusters

section Create

variable {fs₁ : FileSystem} {d₁ : Disk}

theorem Appended.entered (hl : Listed (d.record fs.bpb.cluster_size clusters)
      (record_cnt fs.bpb.cluster_size clusters) n)
    (ha : Appended fs fs' d d' dir clusters added n
      (long_entries name (short_entry name file_type) ++ [short_entry name file_type])) :
    Entered fs fs' d d' dir clusters added [] n name file_type := by
  have hcnt := record_cnt_append_le fs.bpb.cluster_size clusters added
  have hlde := length_long_entries name (short_entry name file_type)
  have hlen : (long_entries name (short_entry name file_type) ++
      [short_entry name file_type]).length = (lfn_vec name).length + 1 := by
    rw [List.length_append, hlde, List.length_singleton]
  have hfits := ha.fits
  have hrecord := ha.record
  rw [hlen] at hfits hrecord
  have hle := hl.le
  have hold : ∀ k < n, d'.record fs.bpb.cluster_size (clusters ++ added) k =
      d.record fs.bpb.cluster_size clusters k := by
    intro k hk
    rw [hrecord k (by omega), if_neg (by omega), if_pos (by omega)]
  refine ⟨ha.owned, ?_, hold, ⟨by omega, ?_, ?_, ?_, ?_⟩⟩
  · rw [List.append_nil]
    exact ha.beside
  · intro k hk
    rw [hold k hk]
    exact .refl _
  · intro i hi
    rw [hrecord (n + i) (by omega), if_pos (by omega), Nat.add_sub_cancel_left,
      List.getD_append _ _ _ _ (by omega), List.getD_eq_getElem _ _ (by omega),
      List.getElem?_eq_getElem]
  · rw [hrecord _ (by omega), if_pos (by omega), Nat.add_sub_cancel_left,
      List.getD_append_right _ _ _ _ hlde.le, hlde, Nat.sub_self]
    exact .refl _
  · intro k hk hk'
    rw [hrecord k hk', if_neg (by omega)]
    split
    · next hlt => exact hl.blank k (by omega) hlt
    · rfl

theorem Appended.sde_record (ha : Appended fs fs' d d' dir clusters added n
      (long_entries name (short_entry name file_type) ++ [short_entry name file_type])) :
    d'.record fs.bpb.cluster_size (clusters ++ added) (n + (lfn_vec name).length) =
      short_entry name file_type := by
  have hlde := length_long_entries name (short_entry name file_type)
  have hfits := ha.fits
  have hrecord := ha.record
  rw [List.length_append, hlde, List.length_singleton] at hfits hrecord
  rw [hrecord _ (by omega), if_pos (by omega), Nat.add_sub_cancel_left,
    List.getD_append_right _ _ _ _ hlde.le, hlde, Nat.sub_self]
  rfl

/-- A handle that a search makes. -/
theorem Beside.handle (h : Sees fs d) (records : List Nat) (name : Name) (k : Nat)
    (chain : List Nat) (sde : Dirent) :
    Beside fs (fs.handle records name k chain sde).2 d d dir clusters [] [] where
  sees := h.new_file
  bpb := rfl
  next_chain := Nat.le_succ _
  chains _ hc _ := Function.update_of_ne hc.ne ..
  free _ hc := absurd hc List.not_mem_nil
  next _ _ _ := rfl
  data _ _ _ _ _ := rfl

/-- The search after the records were written. -/
theorem Entered.found (h : Entered fs fs₁ d d₁ dir clusters added [] n name file_type)
    (hdir : dir.is_dir) (hlt : dir.cluster_chain < fs.next_chain)
    (hsplit : long_name_split name ≠ [])
    (hsde : d₁.record fs.bpb.cluster_size (clusters ++ added) (n + (lfn_vec name).length) =
      short_entry name file_type)
    (hown : lookup (d₁.record fs.bpb.cluster_size (clusters ++ added))
      (record_cnt fs.bpb.cluster_size (clusters ++ added)) name = some (own_index name n)) :
    ∃ f fs₂, fs₁.find_by_name dir name = .ok (some f, fs₂) ∧
      Entered fs fs₂ d d₁ dir clusters added [] n name file_type ∧
      NewEntry fs fs₂ d₁ (clusters ++ added) [] n name file_type f ∧
      fs₂.recycled_cluster = fs₁.recycled_cluster ∧
      fs₂.free_cluster_cnt = fs₁.free_cluster_cnt := by
  have hbpb := h.beside.bpb
  have hindex := own_index_add hsplit n
  have hk : n + (lfn_vec name).length < record_cnt fs₁.bpb.cluster_size (clusters ++ added) := by
    rw [hbpb]
    exact h.records.le
  have hchain : EntryChain fs₁ d₁ (short_entry name file_type) [] :=
    ⟨trivial, fun _ hc => absurd hc List.not_mem_nil, short_entry_first_cluster name file_type⟩
  rw [← hbpb] at hown hsde
  have hfind := h.owned.find_by_name_some hdir hown (by rw [hindex, hsde]) hchain
  refine ⟨_, _, hfind, ⟨?_, ?_, h.old, h.records⟩, ⟨?_, ?_, ?_, ?_, ?_, ?_⟩, rfl, rfl⟩
  · exact h.owned.new_file (hlt.trans_le h.beside.next_chain)
  · have hnew := @Beside.handle fs₁ d₁ dir clusters h.owned.sees (clusters ++ added) name
      (own_index name n) [] (short_entry name file_type)
    have htrans := h.beside.trans hnew (Or.inl rfl) (fun _ hc => Or.inl hc)
      fun _ hpos => absurd hpos List.not_mem_nil
    rwa [List.append_nil] at htrans
  · unfold FileSystem.handle
    rw [hindex]
    apply h.owned.record_handle hk
    · rw [hsde]
      exact hchain
    · exact fun _ hc => absurd hc List.not_mem_nil
    · rw [hsde, short_entry_file_size]
      exact Nat.zero_le _
    · rw [hsde, short_entry_file_size]
      exact fun _ => rfl
  · show (if (short_entry name file_type).attr = ATTR_DIRECTORY then VirtFileType.Dir else .File) = _
    rw [short_entry_attr]
    cases file_type <;> decide
  · rw [← hbpb, ← hindex]
    rfl
  · rw [← hbpb]
    rfl
  · exact ⟨h.beside.next_chain, Nat.lt_succ_self _⟩
  · exact fun _ hc => absurd hc List.not_mem_nil

/-- The entries of a new directory are not among the records of its parent. -/
theorem Entered.dots (h : Entered fs fs₁ d d₁ dir clusters added [] n name file_type)
    (hfile : NewEntry fs fs₁ d₁ (clusters ++ added) [] n name file_type f)
    (hlt : dir.cluster_chain < fs.next_chain)
    (hreach : 0 < fs₁.free_cluster_cnt → 0 < (d₁.reachable (fs.bpb.data_cluster_cnt + 2)
      fs₁.recycled_cluster NEW_VIRT_FILE_CLUSTER).card) :
    Meets (fs₁.write_dots dir f) (fs₁.Full 1) fun fs' => ∃ d' chain,
      Entered fs fs' d d' dir clusters added chain n name file_type ∧
      NewEntry fs fs' d' (clusters ++ added) chain n name file_type f ∧
      ∀ j < record_cnt fs.bpb.cluster_size (clusters ++ added),
        (d₁.record fs.bpb.cluster_size (clusters ++ added) j).Same
          (d'.record fs.bpb.cluster_size (clusters ++ added) j) := by
  have hbpb := h.beside.bpb
  have hk : n + (lfn_vec name).length < record_cnt fs₁.bpb.cluster_size (clusters ++ added) := by
    rw [hbpb]
    exact h.records.le
  have hpos := hfile.sde_pos
  rw [← hbpb] at hpos hreach
  have hne : dir.cluster_chain ≠ f.cluster_chain := (hlt.trans_le hfile.cluster_chain.1).ne
  apply (h.owned.write_dots hfile.owned hne (hlt.trans_le h.beside.next_chain) hk hpos hreach).mono
  rintro fs' ⟨d', c, hdir', hf', hc, hb, haround⟩
  have hsame : ∀ j < record_cnt fs.bpb.cluster_size (clusters ++ added),
      j ≠ n + (lfn_vec name).length → d'.record fs.bpb.cluster_size (clusters ++ added) j =
        d₁.record fs.bpb.cluster_size (clusters ++ added) j := by
    intro j hj hne
    rw [← hbpb] at hj ⊢
    apply h.owned.record_beside hb (fun _ hc => absurd hc List.not_mem_nil) hj
    exact List.forall_mem_singleton.mpr ⟨_, hk, hpos, hne.symm⟩
  have hle := h.records.le
  have hsde : (d₁.record fs.bpb.cluster_size (clusters ++ added) (n + (lfn_vec name).length)).Same
      (d'.record fs.bpb.cluster_size (clusters ++ added) (n + (lfn_vec name).length)) := by
    apply Dirent.Same.of_short
    · intro i hi
      have hentry := haround i hi
      rw [hpos, d'.entry_record_pos h.owned.sees.layout, d₁.entry_record_pos h.owned.sees.layout,
        hbpb] at hentry
      exact hentry
    · exact h.records.sde_attr
  refine ⟨d', [c], ⟨hdir', ?_, ?_, ⟨hle, ?_, ?_, ?_, ?_⟩⟩, ⟨hf', hfile.attr, hfile.sde_pos,
    hfile.lde_pos, ⟨hfile.cluster_chain.1, hfile.cluster_chain.2.trans_le hb.next_chain⟩,
    List.forall_mem_singleton.mpr hc⟩, ?_⟩
  · have hmem := h.owned.record_cluster hk
    rw [← hpos, List.mem_append] at hmem
    have htrans := h.beside.trans hb (Or.inr hfile.cluster_chain.1)
      (fun _ hc => absurd hc List.not_mem_nil) (List.forall_mem_singleton.mpr ?_)
    · rwa [List.append_nil] at htrans
    · rw [List.append_nil]
      exact Or.inr hmem
  · intro j hj
    rw [hsame j (by omega) (by omega)]
    exact h.old j hj
  · intro j hj
    rw [hsame j (by omega) (by omega)]
    exact h.records.old j hj
  · intro i hi
    rw [hsame (n + i) (by omega) (by omega)]
    exact h.records.lde i hi
  · exact h.records.sde.trans hsde
  · intro j hj hj'
    rw [hsame j hj' (by omega)]
    exact h.records.blank j hj hj'
  · intro j hj
    by_cases heq : j = n + (lfn_vec name).length
    · rw [heq]
      exact hsde
    · rw [hsame j hj heq]
      exact .refl _

/-- The clusters that the records of a new name need. -/
def create_need (fs : FileSystem) (dir : VirtFile) (n : Nat) (name : Name) : Nat :=
  fs.need_cluster_cnt dir (DIRENT_SIZE * (n + ((lfn_vec name).length + 1)))

/-- The rule for `create` when the first search did not find the name with its kind: the records
are there when the second search starts. -/
theorem Owned.create_meets {fs₀ : FileSystem} {option : Option VirtFile} {E : FsPanic → Prop}
    {Q : Except DirError VirtFile × FileSystem → Prop} (h : Owned fs d dir clusters)
    (hne : clusters ≠ [])
    (hl : Listed (d.record fs.bpb.cluster_size clusters)
      (record_cnt fs.bpb.cluster_size clusters) n)
    (hsplit : long_name_split name ≠ [])
    (hreach : min (fs.create_need dir n name) fs.free_cluster_cnt ≤ (fs.reachable dir).card)
    (hfind : fs₀.find_by_name dir name = .ok (option, fs))
    (hoption : ¬ option.any (·.attr = file_type))
    (hfull : ∀ e, fs.Full (fs.create_need dir n name) e → E e)
    (hrest : ∀ fs₁ d₁ added, Appended fs fs₁ d d₁ dir clusters added n
        (long_entries name (short_entry name file_type) ++ [short_entry name file_type]) →
      Entered fs fs₁ d d₁ dir clusters added [] n name file_type →
      added.length = fs.create_need dir n name →
      Meets (do
        match ← fs₁.find_by_name dir name with
        | (none, fs) => return (.error .CreateFileError, fs)
        | (some file, fs) =>
          match file_type with
          | .Dir => return (.ok file, ← fs.write_dots dir file)
          | .File => return (.ok file, fs)) E Q) :
    Meets (fs₀.create dir name file_type) E Q := by
  have hlen : (long_entries name (short_entry name file_type) ++
      [short_entry name file_type]).length = (lfn_vec name).length + 1 := by
    rw [List.length_append, length_long_entries, List.length_singleton]
  rw [FileSystem.create, hfind]
  simp only [bind, Except.bind]
  rw [if_neg hoption, if_neg hsplit, h.empty_entry_index, hl.end_index]
  simp only
  have hwrite := @Owned.write_records fs d dir clusters n
    (long_entries name (short_entry name file_type) ++ [short_entry name file_type]) h hne hl.le
    (by rw [hlen]; exact hreach)
  rw [hlen] at hwrite
  apply (hwrite.mono_error hfull).bind
  rintro fs₁ ⟨d₁, added, ha⟩
  have hneed := ha.length
  rw [hlen] at hneed
  have he := ha.entered hl
  have hfirst : ¬ (clusters ++ added).headD NEW_VIRT_FILE_CLUSTER < 2 := by
    rw [not_lt]
    exact (he.owned.first_in_use (List.append_ne_nil_of_left_ne_nil hne _)).1
  rw [he.owned.sees.first_cluster he.owned.sde_pos, he.owned.first_cluster]
  simp only
  rw [if_neg hfirst]
  exact hrest fs₁ d₁ added ha he hneed

/-- What `create` does with a name that is not there. -/
theorem Owned.create (h : Owned fs d dir clusters) (hne : clusters ≠ []) (hdir : dir.is_dir)
    (hlt : dir.cluster_chain < fs.next_chain)
    (hl : Listed (d.record fs.bpb.cluster_size clusters)
      (record_cnt fs.bpb.cluster_size clusters) n)
    (hsplit : long_name_split name ≠ []) (hname : '\x00' ∉ name) (hcnt : (lfn_vec name).length < 256)
    (hnone : lookup (d.record fs.bpb.cluster_size clusters)
      (record_cnt fs.bpb.cluster_size clusters) name = none)
    (hreach : fs.create_need dir n name ≤ (fs.reachable dir).card)
    (hreach' : file_type = .Dir → fs.create_need dir n name < fs.free_cluster_cnt →
      fs.create_need dir n name < (d.reachable (fs.bpb.data_cluster_cnt + 2) fs.recycled_cluster
        NEW_VIRT_FILE_CLUSTER).card) :
    Meets (fs.create dir name file_type)
      (fs.Full (fs.create_need dir n name + if file_type = .Dir then 1 else 0)) fun r =>
      ∃ d' added chain, Entered fs r.2 d d' dir clusters added chain n name file_type ∧
        added.length = fs.create_need dir n name ∧
        match r.1 with
        | .ok f => NewEntry fs r.2 d' (clusters ++ added) chain n name file_type f ∧
          lookup (d'.record fs.bpb.cluster_size (clusters ++ added))
            (record_cnt fs.bpb.cluster_size (clusters ++ added)) name = some (own_index name n)
        | .error e => e = .CreateFileError ∧
          lookup (d'.record fs.bpb.cluster_size (clusters ++ added))
            (record_cnt fs.bpb.cluster_size (clusters ++ added)) name = none := by
  apply h.create_meets hne hl hsplit ((min_le_left ..).trans hreach)
    (h.find_by_name_none hdir hnone) Bool.false_ne_true
    fun _ he => ⟨he.1, he.2.trans_le (Nat.le_add_right ..)⟩
  intro fs₁ d₁ added ha he hneed
  have hbpb := he.beside.bpb
  obtain hnone' | hown := he.records.lookup_new hl hsplit hname hcnt hnone
  · rw [← hbpb] at hnone'
    rw [he.owned.find_by_name_none hdir hnone', hbpb] at *
    exact ⟨d₁, added, [], he, hneed, rfl, hnone'⟩
  · obtain ⟨f, fs₂, hfind, he₂, hfile, hrecycled, hfree⟩ :=
      he.found hdir hlt hsplit ha.sde_record hown
    rw [hfind]
    cases file_type with
    | File => exact ⟨d₁, added, [], he₂, hneed, hfile, hown⟩
    | Dir =>
      have hcard := ha.reachable_card h (fs.bpb.data_cluster_cnt + 2) NEW_VIRT_FILE_CLUSTER
      have hreach₂ := hreach' rfl
      have hcount := ha.free_cluster_cnt
      have hpos : 0 < fs₂.free_cluster_cnt → 0 < (d₁.reachable (fs.bpb.data_cluster_cnt + 2)
          fs₂.recycled_cluster NEW_VIRT_FILE_CLUSTER).card := by
        rw [hrecycled, hfree]
        intro hpos
        have hreach₃ := hreach₂ (by omega)
        omega
      apply ((he₂.dots hfile hlt hpos).mono_error ?_).bind
      · rintro fs₃ ⟨d₃, chain, he₃, hfile₃, hsame⟩
        refine ⟨d₃, added, chain, he₃, hneed, hfile₃, ?_⟩
        rw [lookup_congr hsame]
        exact hown
      · rintro e ⟨he, hlt'⟩
        refine ⟨he, ?_⟩
        rw [hfree] at hlt'
        rw [if_pos rfl]
        omega

/-- A name that is there with its kind is not created again. -/
theorem Owned.create_exists (h : Owned fs d dir clusters) (hdir : dir.is_dir)
    (hsome : lookup (d.record fs.bpb.cluster_size clusters)
      (record_cnt fs.bpb.cluster_size clusters) name = some k)
    (htype : file_type = if (d.record fs.bpb.cluster_size clusters (k + lde_cnt name)).attr =
      ATTR_DIRECTORY then .Dir else .File)
    {r : Except DirError VirtFile × FileSystem} (hok : fs.create dir name file_type = .ok r) :
    r.1 = .error .FileHasExist ∧ Looked fs r.2 := by
  rw [FileSystem.create] at hok
  obtain ⟨⟨option, fs₁⟩, hfind, hok⟩ := bind_eq_ok.mp hok
  have hlooked := (find_by_name_searched hfind).looked
  obtain ⟨f, rfl, hattr⟩ := h.find_by_name_attr hdir hsome hfind
  rw [← htype] at hattr
  simp only [Option.any_some, hattr, decide_true, if_true] at hok
  cases hok
  exact ⟨rfl, hlooked⟩

end Create

end FileSystem

end MyGOS.Fat32
