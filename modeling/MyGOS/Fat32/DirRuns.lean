import MyGOS.Fat32.LegalNames

/-!
# Runs of calls on a directory

A live entry has its clusters to itself, or it is one of the two links of a
directory. Creating a name keeps this and the groups of long entries, and so does
removing one of which all records are found.
-/

namespace MyGOS.Fat32

open Outcome StepSystem FileSystem

theorem name_before_eq_none_iff {r : Nat → Dirent} {k : Nat} : name_before r k = none ↔
    ∀ j, j + 1 = k → (r j).is_deleted ∨ (r j).attr ≠ ATTR_LONG_NAME := by
  cases k with
  | zero => exact iff_of_true rfl fun j hj => absurd hj (Nat.succ_ne_zero j)
  | succ k =>
    rw [name_before, ite_eq_left_iff]
    constructor
    · intro h j hj
      obtain rfl := Nat.succ.inj hj
      by_contra hnot
      cases h hnot
    · exact fun h hnot => absurd (h k rfl) hnot

theorem Dirent.attr_delete (e : Dirent) : e.delete.attr = e.attr := rfl

namespace Looked

variable {fs fs' : FileSystem} {dir : VirtFile} {n : Nat} {name : Name}

theorem create_need (hl : Looked fs fs') (hlt : dir.cluster_chain < fs.next_chain) :
    fs'.create_need dir n name = fs.create_need dir n name := by
  unfold FileSystem.create_need need_cluster_cnt cluster_vec
  rw [hl.bpb, hl.chains _ hlt]

theorem reachable (hl : Looked fs fs') (hlt : dir.cluster_chain < fs.next_chain) :
    fs'.reachable dir = fs.reachable dir := by
  unfold FileSystem.reachable cluster_vec
  rw [hl.disk, hl.bpb, hl.recycled_cluster, hl.chains _ hlt]

end Looked

namespace FileSystem

/-- The record of `.` or `..`. -/
structure LinkAt (r : Nat → Dirent) (k : Nat) : Prop where
  attr : (r k).attr = ATTR_DIRECTORY
  name : (r k).get_name_uppercase = ['.'] ∨ (r k).get_name_uppercase = ['.', '.']
  fresh : name_before r k = none

/-- The clusters of an entry in a directory. -/
structure FileAt (fs : FileSystem) (d : Disk) (dir : VirtFile) (clusters : List Nat) (e : Dirent)
    (chain : List Nat) : Prop where
  entry : EntryChain fs d e chain
  disjoint : ∀ c ∈ chain, c ∉ clusters
  apart : dir.sde_pos.cluster ∉ chain
  file_size : e.file_size ≤ fs.bpb.cluster_size * chain.length
  dir_size : e.attr = ATTR_DIRECTORY → e.file_size = 0

/-- The clusters of each live entry, `none` for a link. -/
structure Files (fs : FileSystem) (d : Disk) (dir : VirtFile) (clusters : List Nat) (n : Nat)
    (r : Nat → Dirent) (files : Nat → Option (List Nat)) : Prop where
  link : ∀ k < n, is_live r k → files k = none → LinkAt r k
  file : ∀ k < n, is_live r k → ∀ chain, files k = some chain →
    FileAt fs d dir clusters (r k) chain
  disjoint : ∀ j < n, ∀ k < n, is_live r j → is_live r k → j ≠ k →
    ∀ a b, files j = some a → files k = some b → ∀ c ∈ a, c ∉ b

/-- What the calls on a directory keep. -/
structure DirState (fs : FileSystem) (d : Disk) (dir : VirtFile) (clusters : List Nat) (n : Nat)
    (files : Nat → Option (List Nat)) : Prop where
  directory : Directory fs d dir clusters n
  grouped : Grouped (d.record fs.bpb.cluster_size clusters) n
  files : Files fs d dir clusters n (d.record fs.bpb.cluster_size clusters) files

/-- Both listings have the live entries, each once and in the same order. -/
def ListingsAgree (fs : FileSystem) (dir : VirtFile) : Prop :=
  ∃ ks : List Nat, ks.Nodup ∧
    (∀ k, k ∈ ks ↔ k < end_index (fs.dir_record dir) (fs.dir_record_cnt dir) ∧
      is_live (fs.dir_record dir) k) ∧
    fs.dir_infos dir = .ok (ks.map (live_info (fs.dir_record dir))) ∧
    ∃ list, fs.ls_with_attr dir = .ok (.ok list) ∧
      list.map Prod.fst = ks.map fun k => (live_info (fs.dir_record dir) k).name

variable {fs fs' : FileSystem} {d d' : Disk} {dir f g : VirtFile}
  {clusters clusters' added taken chain : List Nat} {n m k : Nat} {name : Name}
  {file_type : VirtFileType} {entries : List DirEntryPos} {r r' : Nat → Dirent} {e : Dirent}
  {files : Nat → Option (List Nat)}

theorem LinkAt.same (h : LinkAt r k) (hr : ∀ j ≤ k, (r j).Same (r' j)) : LinkAt r' k where
  attr := (hr k le_rfl).attr.trans h.attr
  name := by
    rw [(hr k le_rfl).get_name_uppercase]
    exact h.name
  fresh := by
    rw [name_before_eq_none_iff]
    intro j hj
    rw [(hr j (by omega)).is_deleted, (hr j (by omega)).attr]
    exact name_before_eq_none_iff.mp h.fresh j hj

/-- The entry of another file keeps its clusters. -/
theorem FileAt.beside (h : FileAt fs d dir clusters e chain)
    (hb : Beside fs fs' d d' g taken added entries) (htaken : ∀ c ∈ chain, c ∉ taken)
    (hclusters : ∀ c ∈ clusters', c ∈ clusters ∨ c ∈ added) :
    FileAt fs' d' dir clusters' e chain := by
  have hadded : ∀ c ∈ chain, c ∉ added := fun c hc =>
    hb.notMem_added (htaken c hc) (chain_next_ne h.entry.chain h.entry.data c hc)
  constructor
  · refine ⟨h.entry.chain.congr fun c hc => hb.next c (htaken c hc) (hadded c hc), ?_,
      h.entry.first_cluster⟩
    rw [hb.bpb]
    exact h.entry.data
  · exact fun c hc hmem => (hclusters c hmem).elim (h.disjoint c hc) (hadded c hc)
  · exact h.apart
  · rw [hb.bpb]
    exact h.file_size
  · exact h.dir_size

section Listings

theorem DirState.same_listing (h : DirState fs d dir clusters n files) :
    ListingsAgree fs dir := by
  have hd := h.directory
  have hl := hd.listed_record
  have hdata : ∀ c ∈ fs.cluster_vec dir, fs.bpb.InData c := by
    rw [hd.owned.chained.vec]
    exact hd.owned.chained.data
  have hgrouped : Grouped (fs.dir_record dir) n := by
    apply h.grouped.same
    intro k hk
    rw [hd.owned.dir_record (hk.trans_le hd.listed.le)]
    exact .refl _
  refine ⟨_, nodup_live_from (fs.dir_record_cnt dir) 0, fun k => ?_,
    dir_infos_eq hd.owned.sees.layout hdata hd.is_dir, _,
    (ls_with_attr_iff hd.owned.sees.layout hdata hd.is_dir).mpr
      (hgrouped.ls_from hl (Nat.zero_le n) rfl), ?_⟩
  · rw [mem_live_from]
    exact and_congr_left fun _ => and_iff_right (Nat.zero_le k)
  · rw [List.map_map]
    rfl

end Listings

section Looks

theorem Sees.looked_beside (h : Sees fs d) (hl : Looked fs fs') :
    Beside fs fs' d d dir [] [] [] where
  sees := hl.sees h
  bpb := hl.bpb
  next_chain := hl.next_chain
  chains c hc _ := hl.chains c hc
  free _ hc := absurd hc List.not_mem_nil
  next _ _ _ := rfl
  data _ _ _ _ _ := rfl

theorem Files.beside (h : Files fs d dir clusters n r files)
    (hb : Beside fs fs' d d' g taken added entries)
    (htaken : ∀ k < n, is_live r k → ∀ chain, files k = some chain → ∀ c ∈ chain, c ∉ taken)
    (hclusters : ∀ c ∈ clusters', c ∈ clusters ∨ c ∈ added) :
    Files fs' d' dir clusters' n r files where
  link := h.link
  file k hk hlive chain hchain :=
    (h.file k hk hlive chain hchain).beside hb (htaken k hk hlive chain hchain) hclusters
  disjoint := h.disjoint

theorem DirState.looked (h : DirState fs d dir clusters n files) (hl : Looked fs fs') :
    DirState fs' d dir clusters n files := by
  have hd := h.directory
  have hbpb := hl.bpb
  have hb := @Sees.looked_beside fs fs' d dir hd.owned.sees hl
  refine ⟨hd.looked hl, ?_, ?_⟩
  · rw [hbpb]
    exact h.grouped
  · rw [hbpb]
    exact h.files.beside hb (fun _ _ _ _ _ _ _ => List.not_mem_nil) fun _ hc => .inl hc

end Looks

/-- One entry has other clusters; the others are as they were, or deleted. -/
theorem Files.update (h : Files fs d dir clusters n r files)
    (hb : Beside fs fs' d d' g taken added entries)
    (hold : ∀ j < m, j ≠ k → is_live r' j → j < n ∧ r' j = r j)
    (hlink : ∀ j < n, is_live r' j → LinkAt r j → LinkAt r' j)
    (hclusters : ∀ c ∈ clusters', c ∈ clusters ∨ c ∈ added)
    (hnew : is_live r' k → FileAt fs' d' dir clusters' (r' k) chain)
    (hapart : ∀ j < n, is_live r j → j ≠ k → ∀ a, files j = some a →
      ∀ c ∈ a, c ∉ taken ∧ c ∉ chain) :
    Files fs' d' dir clusters' m r' (Function.update files k (some chain)) := by
  have hwas : ∀ j < m, j ≠ k → is_live r' j → j < n ∧ is_live r j := by
    intro j hj hne hlive
    obtain ⟨hlt, heq⟩ := hold j hj hne hlive
    rw [is_live, heq] at hlive
    exact ⟨hlt, hlive⟩
  constructor
  · intro j hj hlive hnone
    have hne : j ≠ k := by
      rintro rfl
      rw [Function.update_self] at hnone
      cases hnone
    obtain ⟨hlt, hlive'⟩ := hwas j hj hne hlive
    rw [Function.update_of_ne hne] at hnone
    exact hlink j hlt hlive (h.link j hlt hlive' hnone)
  · intro j hj hlive a ha
    obtain rfl | hne := eq_or_ne j k
    · rw [Function.update_self, Option.some.injEq] at ha
      subst ha
      exact hnew hlive
    · rw [(hold j hj hne hlive).2]
      obtain ⟨hlt, hlive⟩ := hwas j hj hne hlive
      rw [Function.update_of_ne hne] at ha
      exact (h.file j hlt hlive a ha).beside hb
        (fun c hc => (hapart j hlt hlive hne a ha c hc).1) hclusters
  · intro i hi j hj hlivei hlivej hne a b ha hb' c hca hcb
    obtain rfl | hnei := eq_or_ne i k
    · obtain ⟨hltj, hlivej⟩ := hwas j hj hne.symm hlivej
      rw [Function.update_self, Option.some.injEq] at ha
      rw [Function.update_of_ne hne.symm] at hb'
      exact (hapart j hltj hlivej hne.symm b hb' c hcb).2 (ha ▸ hca)
    obtain ⟨hlti, hlivei⟩ := hwas i hi hnei hlivei
    rw [Function.update_of_ne hnei] at ha
    obtain rfl | hnej := eq_or_ne j k
    · rw [Function.update_self, Option.some.injEq] at hb'
      exact (hapart i hlti hlivei hnei a ha c hca).2 (hb' ▸ hcb)
    obtain ⟨hltj, hlivej⟩ := hwas j hj hnej hlivej
    rw [Function.update_of_ne hnej] at hb'
    exact h.disjoint i hlti j hltj hlivei hlivej hne a b ha hb' c hca hcb

section Append

/-- The records of a new name are added to those that there were. -/
theorem DirState.entered (h : DirState fs d dir clusters n files)
    (he : Entered fs fs' d d' dir clusters added [] n name file_type)
    (hsde : d'.record fs.bpb.cluster_size (clusters ++ added) (n + (lfn_vec name).length) =
      short_entry name file_type)
    (hsplit : long_name_split name ≠ []) (hzero : '\x00' ∉ name)
    (hc : (lfn_vec name).length < 64) (hlive : ¬ (short_entry name file_type).is_deleted) :
    DirState fs' d' dir (clusters ++ added) (n + (lfn_vec name).length + 1)
      (Function.update files (n + (lfn_vec name).length) (some [])) := by
  have hd := h.directory
  have hbpb := he.beside.bpb
  have hb := he.beside
  rw [List.append_nil] at hb
  have hold := he.old
  have hlde := fun i hi => (@Extends.lde_attr _ _ _ _ i _ _ he.records hi).1
  refine ⟨⟨he.owned, List.append_ne_nil_of_left_ne_nil hd.ne_nil _, hd.is_dir,
    hd.lt.trans_le hb.next_chain, ?_⟩, ?_, ?_⟩
  · rw [hbpb]
    exact he.records.listed hd.listed hzero (by omega)
  · rw [hbpb]
    exact h.grouped.extends he.records hsplit hc hlive
  rw [hbpb]
  apply h.files.update hb
  · intro k hk hne hlive
    obtain hlt | hge := lt_or_ge k n
    · exact ⟨hlt, hold k hlt⟩
    · obtain ⟨i, rfl⟩ := Nat.exists_eq_add_of_le hge
      exact absurd (hlde i (by omega)) (of_decide_eq_true hlive).2
  · intro k hk _ hlink
    apply hlink.same
    intro j hj
    rw [hold j (by omega)]
    exact .refl _
  · exact fun c hc => List.mem_append.mp hc
  · intro _
    rw [hsde]
    constructor
    · exact ⟨trivial, fun _ hc => absurd hc List.not_mem_nil,
        short_entry_first_cluster name file_type⟩
    · exact fun _ hc => absurd hc List.not_mem_nil
    · exact List.not_mem_nil
    · rw [short_entry_file_size]
      exact Nat.zero_le _
    · exact fun _ => short_entry_file_size name file_type
  · intro k hk hlive _ a ha c hc
    exact ⟨(h.files.file k hk hlive a ha).disjoint c hc, List.not_mem_nil⟩

end Append

section Handles

/-- The handle of the entry whose short record has the number `k`. -/
structure HandleAt (fs : FileSystem) (d : Disk) (dir : VirtFile) (clusters : List Nat)
    (f : VirtFile) (k : Nat) (chain : List Nat) : Prop where
  owned : Owned fs d f chain
  sde_pos : f.sde_pos = record_pos fs.bpb.cluster_size clusters k
  attr : f.is_dir ↔ (d.record fs.bpb.cluster_size clusters k).attr = ATTR_DIRECTORY
  cluster_chain : dir.cluster_chain ≠ f.cluster_chain

/-- An entry that has clusters is found. -/
theorem DirState.find_by_name (h : DirState fs d dir clusters n files)
    (hfound : lookup (d.record fs.bpb.cluster_size clusters)
      (record_cnt fs.bpb.cluster_size clusters) name = some k)
    (hlt : k + lde_cnt name < n)
    (hlive : is_live (d.record fs.bpb.cluster_size clusters) (k + lde_cnt name))
    (hchain : files (k + lde_cnt name) = some chain) :
    ∃ f fs', fs.find_by_name dir name = .ok (some f, fs') ∧ Looked fs fs' ∧
      HandleAt fs' d dir clusters f (k + lde_cnt name) chain ∧
      f.lde_pos = (List.range (lde_cnt name)).map fun i =>
        record_pos fs.bpb.cluster_size clusters (k + i) := by
  have hd := h.directory
  have hfile := h.files.file _ hlt hlive chain hchain
  have hfind := hd.owned.find_by_name_some hd.is_dir hfound rfl hfile.entry
  refine ⟨_, _, hfind, (find_by_name_searched hfind).looked, ⟨?_, rfl, ?_, hd.lt.ne⟩, rfl⟩
  · exact hd.owned.record_handle (hlt.trans_le hd.listed.le) hfile.entry hfile.disjoint
      hfile.file_size hfile.dir_size
  · rw [VirtFile.is_dir, decide_eq_true_eq]
    show (if _ = ATTR_DIRECTORY then VirtFileType.Dir else .File) = .Dir ↔ _
    split
    · next heq => exact iff_of_true rfl heq
    · next hne => exact iff_of_false (fun heq => by cases heq) hne

/-- The two entries of a directory are written to an entry that has clusters of its own. -/
theorem DirState.dots (h : DirState fs d dir clusters n files) (hk : k < n)
    (hlive : is_live (d.record fs.bpb.cluster_size clusters) k) (hchain : files k = some chain)
    (hf : HandleAt fs d dir clusters f k chain)
    (hreach : chain = [] → 0 < fs.free_cluster_cnt →
      0 < (d.reachable (fs.bpb.data_cluster_cnt + 2) fs.recycled_cluster
        NEW_VIRT_FILE_CLUSTER).card) :
    Meets (fs.write_dots dir f) (fs.Full 1) fun fs' => ∃ d' added,
      DirState fs' d' dir clusters n (Function.update files k (some (chain ++ added))) := by
  have hd := h.directory
  have hfile := h.files.file k hk hlive chain hchain
  have hcnt := hk.trans_le hd.listed.le
  apply (hd.owned.write_dots_to hf.owned hf.cluster_chain hd.lt hfile.disjoint hfile.apart hcnt
    hf.sde_pos hreach).mono
  rintro fs' ⟨d', added, hdir', hf', -, hb, haround⟩
  have hbpb := hb.bpb
  have hrecord : ∀ j < record_cnt fs.bpb.cluster_size clusters, j ≠ k →
      d'.record fs.bpb.cluster_size clusters j = d.record fs.bpb.cluster_size clusters j := by
    intro j hj hne
    apply hd.owned.record_beside hb hfile.disjoint hj
    exact List.forall_mem_singleton.mpr ⟨k, hcnt, hf.sde_pos, hne.symm⟩
  have hentry : ∀ d : Disk, d.entry f.sde_pos = d.record fs.bpb.cluster_size clusters k := by
    intro d
    rw [hf.sde_pos, d.entry_record_pos hd.owned.sees.layout]
  have hsame : ∀ j < record_cnt fs.bpb.cluster_size clusters,
      (d.record fs.bpb.cluster_size clusters j).Same
        (d'.record fs.bpb.cluster_size clusters j) := by
    intro j hj
    obtain rfl | hne := eq_or_ne j k
    · rw [hentry, hentry] at haround
      exact .of_short haround (of_decide_eq_true hlive).2
    · rw [hrecord j hj hne]
      exact .refl _
  have hadded : ∀ c ∈ chain ++ added, d.next c ≠ FREE_CLUSTER → c ∈ chain := by
    intro c hc huse
    exact (List.mem_append.mp hc).elim id fun hc => (hb.free c hc).resolve_left huse
  have hle := hd.listed.le
  refine ⟨d', added, ⟨hdir', hd.ne_nil, hd.is_dir, hd.lt.trans_le hb.next_chain, ?_⟩, ?_, ?_⟩
  · rw [hbpb]
    refine ⟨hle, fun j hj => ?_, fun j hj hj' => ?_, fun j hj => ?_⟩
    · rw [(hsame j (by omega)).is_empty]
      exact hd.listed.in_use j hj
    · rw [hrecord j hj' (by omega)]
      exact hd.listed.blank j hj hj'
    · rw [(hsame j (by omega)).attr]
      exact hd.listed.last j hj
  · rw [hbpb]
    exact h.grouped.same fun j hj => hsame j (hj.trans_le hle)
  rw [hbpb]
  apply h.files.update hb
  · exact fun j hj hne _ => ⟨hj, hrecord j (by omega) hne⟩
  · exact fun j hj _ hlink => hlink.same fun i hi => hsame i (by omega)
  · exact fun c hc => .inl hc
  · intro _
    rw [← hentry d']
    refine ⟨⟨hf'.chained.chain, hf'.chained.data, hf'.first_cluster⟩, ?_, ?_, hf'.file_size, ?_⟩
    · exact fun c hc hmem => hfile.disjoint c (hadded c hc (hd.owned.next_ne_free c hmem)) hmem
    · exact fun hmem => hfile.apart (hadded _ hmem hd.owned.in_use)
    · intro hattr
      rw [hentry d', (hsame k hcnt).attr] at hattr
      exact hf'.dir_size (hf.attr.mpr hattr)
  · intro j hj hlivej hne a ha c hc
    have hentry := (h.files.file j hj hlivej a ha).entry
    have hapart := h.files.disjoint j hj k hk hlivej hlive hne a chain ha hchain c hc
    exact ⟨hapart, fun hmem =>
      hapart (hadded c hmem (chain_next_ne hentry.chain hentry.data c hc))⟩

end Handles

section Clear

theorem Cleared.beside (h : Cleared fs fs' d d' f chain) :
    Beside fs fs' d d' f chain [] (f.sde_pos :: f.lde_pos) where
  sees := h.owned.sees
  bpb := h.bpb
  next_chain := h.next_chain.ge
  chains c _ := h.chains c
  free _ hc := absurd hc List.not_mem_nil
  next c hc _ := h.next c hc
  data c i _ _ := h.data c i

/-- An entry is removed with all its records. -/
theorem DirState.clear (h : DirState fs d dir clusters n files)
    (he : EntryAt (d.record fs.bpb.cluster_size clusters) k (k + m)) (hlast : k + m < n)
    (hchain : files (k + m) = some chain) (hf : HandleAt fs d dir clusters f (k + m) chain)
    (hlde : f.lde_pos = (List.range m).map fun i => record_pos fs.bpb.cluster_size clusters (k + i)) :
    Meets (fs.clear f) (fun _ => False) fun r => ∃ d',
      DirState r.2 d' dir clusters n (Function.update files (k + m) (some [])) := by
  have hd := h.directory
  have hL := hd.owned.sees.layout
  have hlive := he.is_live
  have hfile := h.files.file _ hlast hlive chain hchain
  have hle := hd.listed.le
  have hpos : ∀ pos ∈ f.sde_pos :: f.lde_pos, ∃ j, k ≤ j ∧ j ≤ k + m ∧
      pos = record_pos fs.bpb.cluster_size clusters j := by
    rw [hlde, hf.sde_pos]
    refine List.forall_mem_cons.mpr ⟨⟨k + m, Nat.le_add_right .., le_rfl, rfl⟩, fun pos hpos => ?_⟩
    obtain ⟨i, hi, rfl⟩ := List.mem_map.mp hpos
    rw [List.mem_range] at hi
    exact ⟨k + i, Nat.le_add_right .., by omega, rfl⟩
  have hlde_pos : ∀ pos ∈ f.lde_pos, EntryPos fs.bpb pos := by
    intro pos hmem
    obtain ⟨j, -, hj, rfl⟩ := hpos pos (List.mem_cons_of_mem _ hmem)
    exact hd.owned.record_entry_pos (by omega)
  apply (hf.owned.clear hlde_pos).mono
  rintro ⟨cnt, fs'⟩ ⟨-, d', hc⟩
  have hb := hc.beside
  have hbpb := hc.bpb
  dsimp only at hb hbpb ⊢
  have hrecord : ∀ j < record_cnt fs.bpb.cluster_size clusters, ¬ (k ≤ j ∧ j ≤ k + m) →
      d'.record fs.bpb.cluster_size clusters j = d.record fs.bpb.cluster_size clusters j := by
    intro j hj hout
    apply hd.owned.record_beside hb hfile.disjoint hj
    intro pos hmem
    obtain ⟨i, hi, hi', rfl⟩ := hpos pos hmem
    exact ⟨i, by omega, rfl, by rintro rfl; exact hout ⟨hi, hi'⟩⟩
  -- the long entries are not where the short one is
  have hout : ∀ i < m, (record_pos fs.bpb.cluster_size clusters (k + i)).Outside f.sde_pos := by
    intro i hi hcluster
    have hsep := DirEntryPos.separate_of_ne (hd.owned.record_entry_pos (k := k + i) (by omega)).aligned
      (hd.owned.record_entry_pos (k := k + m) (by omega)).aligned fun heq => by
        have hinj := hd.owned.record_pos_inj (by omega) (by omega) heq
        omega
    rw [hf.sde_pos] at hcluster ⊢
    have hsep := hsep hcluster
    unfold DIRENT_SIZE at hsep ⊢
    omega
  have hall : ∀ pos ∈ f.lde_pos, pos.Outside f.sde_pos := by
    intro pos hmem
    rw [hlde] at hmem
    obtain ⟨i, hi, rfl⟩ := List.mem_map.mp hmem
    exact hout i (List.mem_range.mp hi)
  have hsde : d'.record fs.bpb.cluster_size clusters (k + m) =
      (d.record fs.bpb.cluster_size clusters (k + m)).delete := by
    obtain ⟨e, he, hsame⟩ := hc.sde
    rw [hsame hall, hf.sde_pos, d'.entry_record_pos hL, d.entry_record_pos hL] at he
    exact he
  have hdeleted : ∀ j, k ≤ j → j ≤ k + m →
      (d'.record fs.bpb.cluster_size clusters j).is_deleted := by
    intro j hj hj'
    obtain ⟨i, rfl⟩ := Nat.exists_eq_add_of_le hj
    obtain hi | rfl : i < m ∨ i = m := by omega
    · rw [← d'.entry_record_pos hL]
      apply hc.lde _ _ (hout i hi)
      rw [hlde]
      exact List.mem_map.mpr ⟨i, List.mem_range.mpr hi, rfl⟩
    · rw [hsde]
      exact Dirent.is_deleted_delete _
  have hdir' : Owned fs' d' dir clusters := by
    apply hd.owned.beside hb hd.lt hf.cluster_chain
      (fun c hc hmem => hfile.disjoint c hmem hc) hfile.apart
    intro pos hmem hcluster
    obtain ⟨j, -, hj, rfl⟩ := hpos pos hmem
    exact absurd (hcluster ▸ hd.owned.record_cluster (by omega)) hd.owned.apart
  refine ⟨d', ⟨hdir', hd.ne_nil, hd.is_dir, hd.lt.trans_le hb.next_chain, ?_⟩, ?_, ?_⟩
  · rw [hbpb]
    refine ⟨hle, fun j hj => ?_, fun j hj hj' => ?_, fun j hj => ?_⟩
    · obtain hin | hin := em (k ≤ j ∧ j ≤ k + m)
      · exact Dirent.not_empty_of_deleted (hdeleted j hin.1 hin.2)
      · rw [hrecord j (by omega) hin]
        exact hd.listed.in_use j hj
    · rw [hrecord j hj' (by omega)]
      exact hd.listed.blank j hj hj'
    · obtain rfl | hne := eq_or_ne j (k + m)
      · rw [hsde, Dirent.attr_delete]
        exact hd.listed.last _ hj
      · rw [hrecord j (by omega) (by omega)]
        exact hd.listed.last j hj
  · rw [hbpb]
    exact h.grouped.delete he hlast hdeleted fun j hj => hrecord j (by omega)
  rw [hbpb]
  apply h.files.update hb
  · intro j hj _ hlivej
    refine ⟨hj, hrecord j (by omega) fun hin => ?_⟩
    exact (of_decide_eq_true hlivej).1 (hdeleted j hin.1 hin.2)
  · intro j hj hlivej hlink
    have hsame : d'.record fs.bpb.cluster_size clusters j =
        d.record fs.bpb.cluster_size clusters j :=
      hrecord j (by omega) fun hin => (of_decide_eq_true hlivej).1 (hdeleted j hin.1 hin.2)
    refine ⟨hsame ▸ hlink.attr, hsame ▸ hlink.name, name_before_eq_none_iff.mpr fun i hi => ?_⟩
    obtain hin | hin := em (k ≤ i ∧ i ≤ k + m)
    · exact .inl (hdeleted i hin.1 hin.2)
    · rw [hrecord i (by omega) hin]
      exact name_before_eq_none_iff.mp hlink.fresh i hi
  · exact fun c hc => .inl hc
  · intro hnew
    exact absurd (hdeleted _ (Nat.le_add_right ..) le_rfl) (of_decide_eq_true hnew).1
  · intro j hj hlivej hne a ha c hc
    exact ⟨h.files.disjoint j hj _ hlast hlivej hlive hne a chain ha hchain c hc,
      List.not_mem_nil⟩

end Clear

/-- The records of a new name are a group, and the allocator finds the clusters for them. -/
def Writable (fs : FileSystem) (dir : VirtFile) (name : Name) (file_type : VirtFileType) : Prop :=
  let need := fs.create_need dir (end_index (fs.dir_record dir) (fs.dir_record_cnt dir)) name
  '\x00' ∉ name ∧ (lfn_vec name).length < 64 ∧ ¬ (short_entry name file_type).is_deleted ∧
    need ≤ (fs.reachable dir).card ∧
    (file_type = .Dir → need < fs.free_cluster_cnt → need < (fs.disk.reachable
      (fs.bpb.data_cluster_cnt + 2) fs.recycled_cluster NEW_VIRT_FILE_CLUSTER).card)

section Create

theorem Directory.lookup_record (h : Directory fs d dir clusters n) (name : Name) :
    lookup (fs.dir_record dir) (fs.dir_record_cnt dir) name =
      lookup (d.record fs.bpb.cluster_size clusters)
        (record_cnt fs.bpb.cluster_size clusters) name := by
  rw [h.owned.dir_record_cnt]
  apply lookup_congr
  intro k hk
  rw [h.owned.dir_record hk]
  exact .refl _

theorem Directory.end_index_record (h : Directory fs d dir clusters n) :
    end_index (fs.dir_record dir) (fs.dir_record_cnt dir) = n := h.listed_record.end_index

/-- What a new directory writes to the entry that the search finds. -/
theorem DirState.found_dots (h : DirState fs d dir clusters n files)
    (hfound : lookup (d.record fs.bpb.cluster_size clusters)
      (record_cnt fs.bpb.cluster_size clusters) name = some k)
    (hlt : k + lde_cnt name < n)
    (hlive : is_live (d.record fs.bpb.cluster_size clusters) (k + lde_cnt name))
    (hchain : files (k + lde_cnt name) = some chain)
    (hreach : chain = [] → 0 < fs.free_cluster_cnt →
      0 < (d.reachable (fs.bpb.data_cluster_cnt + 2) fs.recycled_cluster
        NEW_VIRT_FILE_CLUSTER).card)
    (hfind : fs.find_by_name dir name = .ok (some f, fs')) {fs'' : FileSystem}
    (hdots : fs'.write_dots dir f = .ok fs'') :
    ∃ d' files', DirState fs'' d' dir clusters n files' := by
  obtain ⟨f', fs₁, hfind', hlooked, hf, -⟩ := h.find_by_name hfound hlt hlive hchain
  cases hfind.symm.trans hfind'
  have h' := h.looked hlooked
  have hbpb := hlooked.bpb
  rw [← hbpb] at hlive hreach
  have hdots' := h'.dots hlt hlive hchain hf (by
    rw [hlooked.recycled_cluster, hlooked.free_cluster_cnt]
    exact hreach)
  obtain ⟨d', added, h''⟩ := hdots'.of_ok hdots
  exact ⟨d', _, h''⟩

/-- The records of a new name are written, whether it is there or not. -/
theorem DirState.write_records (h : DirState fs d dir clusters n files)
    (hsplit : long_name_split name ≠ []) (hzero : '\x00' ∉ name)
    (hc : (lfn_vec name).length < 64) (hlive : ¬ (short_entry name file_type).is_deleted)
    (hreach : fs.create_need dir n name ≤ (fs.reachable dir).card)
    (hok : fs.write_records dir (DIRENT_SIZE * n)
      (long_entries name (short_entry name file_type) ++ [short_entry name file_type]) = .ok fs') :
    ∃ d' added, Appended fs fs' d d' dir clusters added n
        (long_entries name (short_entry name file_type) ++ [short_entry name file_type]) ∧
      DirState fs' d' dir (clusters ++ added) (n + (lfn_vec name).length + 1)
        (Function.update files (n + (lfn_vec name).length) (some [])) := by
  have hd := h.directory
  have hlen : (long_entries name (short_entry name file_type) ++
      [short_entry name file_type]).length = (lfn_vec name).length + 1 := by
    rw [List.length_append, length_long_entries, List.length_singleton]
  have hwrite := @Owned.write_records fs d dir clusters n
    (long_entries name (short_entry name file_type) ++ [short_entry name file_type]) hd.owned
    hd.ne_nil hd.listed.le (by rw [hlen]; exact (min_le_left ..).trans hreach)
  obtain ⟨d', added, ha⟩ := hwrite.of_ok hok
  exact ⟨d', added, ha, h.entered (ha.entered hd.listed) ha.sde_record hsplit hzero hc hlive⟩

/-- What the search for the name finds when its records are written has clusters. -/
theorem DirState.lookup_entered (h : DirState fs d dir clusters n files)
    (he : Entered fs fs' d d' dir clusters added [] n name file_type)
    (hsplit : long_name_split name ≠ []) (hzero : '\x00' ∉ name)
    (hc : (lfn_vec name).length < 64) (hlive : ¬ (short_entry name file_type).is_deleted)
    (hold : ∀ k, lookup (d.record fs.bpb.cluster_size clusters)
      (record_cnt fs.bpb.cluster_size clusters) name = some k →
      is_live (d.record fs.bpb.cluster_size clusters) (k + lde_cnt name) ∧
        files (k + lde_cnt name) ≠ none) :
    lookup (d'.record fs.bpb.cluster_size (clusters ++ added))
        (record_cnt fs.bpb.cluster_size (clusters ++ added)) name = none ∨
      ∃ k chain, lookup (d'.record fs.bpb.cluster_size (clusters ++ added))
          (record_cnt fs.bpb.cluster_size (clusters ++ added)) name = some k ∧
        k + lde_cnt name < n + (lfn_vec name).length + 1 ∧
        is_live (d'.record fs.bpb.cluster_size (clusters ++ added)) (k + lde_cnt name) ∧
        Function.update files (n + (lfn_vec name).length) (some []) (k + lde_cnt name) =
          some chain := by
  have hl := h.directory.listed
  have hsde := he.records.sde.is_deleted
  cases hlookup : lookup (d.record fs.bpb.cluster_size clusters)
      (record_cnt fs.bpb.cluster_size clusters) name with
  | none =>
    refine (he.records.lookup_new hl hsplit hzero (by omega) hlookup).imp_right fun hown => ?_
    refine ⟨own_index name n, [], hown, ?_⟩
    rw [own_index_add hsplit n, Function.update_self]
    refine ⟨Nat.lt_succ_self _, decide_eq_true ⟨?_, he.records.sde_attr⟩, rfl⟩
    rw [hsde]
    exact hlive
  | some k =>
    obtain ⟨hm, hk, -⟩ := lookup_eq_some.mp hlookup
    have hlt := hl.match_lt hzero hm hk
    obtain ⟨hlive_k, hfiles⟩ := hold k hlookup
    obtain ⟨chain, hchain⟩ := Option.ne_none_iff_exists'.mp hfiles
    have hne : k + lde_cnt name ≠ n + (lfn_vec name).length := by omega
    refine .inr ⟨k, chain, hl.lookup_some he.records.old (record_cnt_append_le ..) hzero hlookup,
      by omega, ?_, ?_⟩
    · rw [is_live, he.old _ hlt]
      exact hlive_k
    · rw [Function.update_of_ne hne]
      exact hchain

/-- A new directory finds a cluster after its records were written. -/
theorem Appended.free_reachable (hdir : Owned fs d dir clusters)
    (ha : Appended fs fs' d d' dir clusters added n
      (long_entries name (short_entry name file_type) ++ [short_entry name file_type]))
    (hreach : fs.create_need dir n name < fs.free_cluster_cnt →
      fs.create_need dir n name < (d.reachable (fs.bpb.data_cluster_cnt + 2) fs.recycled_cluster
        NEW_VIRT_FILE_CLUSTER).card) (hfree : 0 < fs'.free_cluster_cnt) :
    0 < (d'.reachable (fs'.bpb.data_cluster_cnt + 2) fs'.recycled_cluster
      NEW_VIRT_FILE_CLUSTER).card := by
  have hcard := ha.reachable_card hdir (fs.bpb.data_cluster_cnt + 2) NEW_VIRT_FILE_CLUSTER
  have hcount := ha.free_cluster_cnt
  have hneed : added.length = fs.create_need dir n name := by
    rw [ha.length, List.length_append, length_long_entries, List.length_singleton]
    rfl
  have hbpb := ha.beside.bpb
  have hreach := hreach (by omega)
  rw [hbpb]
  omega

/-- A name is created, or there is an entry of this name and kind. -/
theorem DirState.create (h : DirState fs d dir clusters n files)
    (hw : (∀ k, lookup (d.record fs.bpb.cluster_size clusters)
      (record_cnt fs.bpb.cluster_size clusters) name = some k →
      ¬ (file_type = if (d.record fs.bpb.cluster_size clusters (k + lde_cnt name)).attr =
        ATTR_DIRECTORY then .Dir else .File)) → fs.Writable dir name file_type ∧
      ∀ k, lookup (d.record fs.bpb.cluster_size clusters)
        (record_cnt fs.bpb.cluster_size clusters) name = some k → file_type = .Dir →
        is_live (d.record fs.bpb.cluster_size clusters) (k + lde_cnt name))
    {r : Except DirError VirtFile × FileSystem} (hok : fs.create dir name file_type = .ok r) :
    ∃ d' clusters' n' files', DirState r.2 d' dir clusters' n' files' := by
  have hd := h.directory
  rw [FileSystem.create] at hok
  obtain ⟨⟨option, fs₁⟩, hfind, hok⟩ := bind_eq_ok.mp hok
  have hlooked := (find_by_name_searched hfind).looked
  have h₁ := h.looked hlooked
  have hbpb₁ := hlooked.bpb
  simp only at hok
  split at hok
  · cases hok
    exact ⟨_, _, _, _, h₁⟩
  next hkind =>
  split at hok
  · cases hok
  next hsplit =>
  -- the name is not there with its kind
  have hkind : ∀ k, lookup (d.record fs.bpb.cluster_size clusters)
      (record_cnt fs.bpb.cluster_size clusters) name = some k →
      ¬ (file_type = if (d.record fs.bpb.cluster_size clusters (k + lde_cnt name)).attr =
        ATTR_DIRECTORY then .Dir else .File) := by
    intro k hk heq
    obtain ⟨f, rfl, hattr⟩ := hd.owned.find_by_name_attr hd.is_dir hk hfind
    apply hkind
    rw [Option.any_some, hattr, heq]
    exact decide_eq_true rfl
  obtain ⟨⟨hzero, hc, hlive, hreach, hreach'⟩, hp⟩ := hw hkind
  rw [hd.end_index_record] at hreach hreach'
  have hd₁ := h₁.directory
  obtain ⟨index, hindex, hok⟩ := bind_eq_ok.mp hok
  rw [hd₁.owned.empty_entry_index, hd₁.listed.end_index] at hindex
  cases hindex
  obtain ⟨fs₂, hwrite, hok⟩ := bind_eq_ok.mp hok
  obtain ⟨d₂, added, ha, h₂⟩ := h₁.write_records hsplit hzero hc hlive
    (by rwa [hlooked.create_need hd.lt, hlooked.reachable hd.lt]) hwrite
  obtain ⟨first, hfirst, hok⟩ := bind_eq_ok.mp hok
  split at hok
  · cases hok
  obtain ⟨⟨option₂, fs₃⟩, hfind₂, hok⟩ := bind_eq_ok.mp hok
  have hlooked₂ := (find_by_name_searched hfind₂).looked
  cases option₂ with
  | none =>
    cases hok
    exact ⟨_, _, _, _, h₂.looked hlooked₂⟩
  | some file =>
    cases file_type with
    | File =>
      cases hok
      exact ⟨_, _, _, _, h₂.looked hlooked₂⟩
    | Dir =>
      obtain ⟨fs₄, hdots, hok⟩ := bind_eq_ok.mp hok
      cases hok
      have he := ha.entered hd₁.listed
      have hbpb₂ := he.beside.bpb
      have hold : ∀ k, lookup (d.record fs₁.bpb.cluster_size clusters)
          (record_cnt fs₁.bpb.cluster_size clusters) name = some k →
          is_live (d.record fs₁.bpb.cluster_size clusters) (k + lde_cnt name) ∧
            files (k + lde_cnt name) ≠ none := by
        rw [hbpb₁]
        intro k hk
        have hlive_k := hp k hk rfl
        refine ⟨hlive_k, fun hnone => ?_⟩
        have hlt := hd.listed.match_lt hzero (lookup_eq_some.mp hk).1 (lookup_eq_some.mp hk).2.1
        exact hkind k hk (if_pos (h.files.link _ hlt hlive_k hnone).attr).symm
      have hfound := h₁.lookup_entered he hsplit hzero hc hlive hold
      rw [← hbpb₂] at hfound
      obtain hnone | ⟨k, chain, hsome, hlt, hlive_k, hchain⟩ := hfound
      · rw [h₂.directory.owned.find_by_name_none hd.is_dir hnone] at hfind₂
        cases hfind₂
      · have hreach₁ := hreach' rfl
        rw [Disk.reachable_congr fun c hc => hd.owned.sees.shows_disk.next c hc,
          ← hlooked.create_need hd.lt, ← hlooked.free_cluster_cnt, ← hlooked.recycled_cluster,
          ← hbpb₁] at hreach₁
        obtain ⟨d', files', h'⟩ := h₂.found_dots hsome hlt hlive_k hchain
          (fun _ => ha.free_reachable hd₁.owned hreach₁) hfind₂ hdots
        exact ⟨d', _, _, files', h'⟩

end Create

section Remove

/-- A link is found by its own name only. -/
theorem LinkAt.eq_dots (h : LinkAt r (k + lde_cnt name)) (hg : Grouped r n)
    (hm : name_match r name k) (he : EntryAt r k (k + lde_cnt name))
    (hlt : k + lde_cnt name < n) : name = ['.'] ∨ name = ['.', '.'] := by
  have hdot : ∀ c : Char, c.toUpper = '.' → c = '.' := fun c h => toUpper_eq_of_lt h (by decide)
  unfold name_match at hm
  split at hm
  · next hlong =>
    exfalso
    have hpos := List.length_pos_iff.mpr (long_name_split_of_is_long hlong)
    have hcnt : lde_cnt name = (long_name_split name).length := if_pos hlong
    have hfresh := h.fresh
    generalize hlast : k + lde_cnt name = last at he hlt hfresh
    cases he with
    | short _ _ => omega
    | long hgroup =>
      have hm := hgroup.pos
      rw [hg.name_before_end hgroup (by omega)] at hfresh
      cases hfresh
  · next hshort =>
    have hcnt : lde_cnt name = 0 := if_neg hshort
    have hname := h.name
    rw [sfn_match, decide_eq_true_eq] at hm
    rw [hcnt, Nat.add_zero, ← hm.2] at hname
    obtain hname | hname := hname
    · obtain ⟨c, rfl, hc⟩ := List.map_eq_singleton_iff.mp hname
      exact .inl (congrArg (fun c => [c]) (hdot c hc))
    · obtain ⟨c, cs, rfl, hc, hcs⟩ := List.map_eq_cons_iff.mp hname
      obtain ⟨c', rfl, hc'⟩ := List.map_eq_singleton_iff.mp hcs
      rw [hdot c hc, hdot c' hc']
      exact .inr rfl

/-- A name that is not there, or whose records are all found, is removed. -/
theorem DirState.remove (h : DirState fs d dir clusters n files) (hne : name ≠ [])
    (hdot : name ≠ ['.'])
    (hp : ∀ k, lookup (d.record fs.bpb.cluster_size clusters)
      (record_cnt fs.bpb.cluster_size clusters) name = some k →
      '\x00' ∉ name ∧ name ≠ ['.', '.'] ∧
      is_live (d.record fs.bpb.cluster_size clusters) (k + lde_cnt name) ∧
      (is_long name ∨ name_before (d.record fs.bpb.cluster_size clusters) k = none))
    {r : Except DirError Unit × FileSystem} (hok : fs.remove dir [name] = .ok r) :
    ∃ d' clusters' n' files', DirState r.2 d' dir clusters' n' files' := by
  have hd := h.directory
  have hdir : dir.is_dir := hd.is_dir
  rw [FileSystem.remove, find, if_neg (not_or.mpr ⟨hne, hdot⟩), if_neg (not_not.mpr hdir)] at hok
  cases hlookup : lookup (d.record fs.bpb.cluster_size clusters)
      (record_cnt fs.bpb.cluster_size clusters) name with
  | none =>
    rw [hd.owned.find_by_name_none hdir hlookup] at hok
    cases hok
    exact ⟨_, _, _, _, h⟩
  | some k =>
    obtain ⟨hzero, hdots, hlive, hall⟩ := hp k hlookup
    obtain ⟨he, hlt⟩ := h.grouped.found hd.listed hzero hlookup hlive hall
    cases hchain : files (k + lde_cnt name) with
    | none =>
      have hlink := h.files.link _ hlt hlive hchain
      exact absurd (hlink.eq_dots h.grouped (lookup_eq_some.mp hlookup).1 he hlt)
        (not_or.mpr ⟨hdot, hdots⟩)
    | some chain =>
      obtain ⟨f, fs₁, hfind, hlooked, hf, hlde⟩ := h.find_by_name hlookup hlt hlive hchain
      rw [← hlooked.bpb] at he hlde
      obtain ⟨⟨cnt, fs₂⟩, hclear, d', h'⟩ :=
        ((h.looked hlooked).clear he hlt hchain hf hlde).exists_ok
      simp only [hfind, bind, Except.bind, find, hclear] at hok
      cases hok
      exact ⟨d', _, _, _, h'⟩

end Remove

/-- The calls on a directory. -/
inductive DirCall where
  | create (name : Name) (file_type : VirtFileType)
  | remove (name : Name)

def dir_step (dir : VirtFile) (fs : FileSystem) : DirCall → Except FsPanic FileSystem
  | .create name file_type => Prod.snd <$> fs.create dir name file_type
  | .remove name => Prod.snd <$> fs.remove dir [name]

/-- Where the name is found, it is there with this kind, or it is written once more. -/
def PermitsCreate (fs : FileSystem) (dir : VirtFile) (name : Name) (file_type : VirtFileType) :
    Option Nat → Prop
  | none => fs.Writable dir name file_type
  | some k => (file_type = if (fs.dir_record dir (k + lde_cnt name)).attr = ATTR_DIRECTORY then .Dir
      else .File) ∨
    fs.Writable dir name file_type ∧
      (file_type = .Dir → is_live (fs.dir_record dir) (k + lde_cnt name))

/-- Where the name is found, it is that of a live entry which is no link, and the records that are
found are all that the entry has: the name is long, or the entry has no long name. -/
def PermitsRemove (fs : FileSystem) (dir : VirtFile) (name : Name) : Option Nat → Prop
  | none => True
  | some k => '\x00' ∉ name ∧ name ≠ ['.', '.'] ∧
    is_live (fs.dir_record dir) (k + lde_cnt name) ∧
    (is_long name ∨ name_before (fs.dir_record dir) k = none)

def DirCall.Permits (dir : VirtFile) (fs : FileSystem) : DirCall → Prop
  | .create name file_type => fs.PermitsCreate dir name file_type
      (lookup (fs.dir_record dir) (fs.dir_record_cnt dir) name)
  | .remove name => name ≠ [] ∧ name ≠ ['.'] ∧
      fs.PermitsRemove dir name (lookup (fs.dir_record dir) (fs.dir_record_cnt dir) name)

instance (fs : FileSystem) (dir : VirtFile) (name : Name) (file_type : VirtFileType) :
    Decidable (fs.Writable dir name file_type) :=
  inferInstanceAs (Decidable (_ ∧ _ ∧ _ ∧ _ ∧ _))

instance (fs : FileSystem) (dir : VirtFile) (name : Name) (file_type : VirtFileType) :
    DecidablePred (fs.PermitsCreate dir name file_type)
  | none => inferInstanceAs (Decidable (fs.Writable dir name file_type))
  | some _ => inferInstanceAs (Decidable (_ ∨ fs.Writable dir name file_type ∧ _))

instance (fs : FileSystem) (dir : VirtFile) (name : Name) :
    DecidablePred (fs.PermitsRemove dir name)
  | none => inferInstanceAs (Decidable True)
  | some _ => inferInstanceAs (Decidable (_ ∧ _ ∧ _ ∧ _))

instance (dir : VirtFile) (fs : FileSystem) : ∀ call, Decidable (DirCall.Permits dir fs call)
  | .create name file_type => inferInstanceAs (Decidable (fs.PermitsCreate dir name file_type _))
  | .remove name => inferInstanceAs (Decidable (_ ∧ _ ∧ fs.PermitsRemove dir name _))

section Run

/-- What a permitted call leaves, it finds in the records. -/
theorem Directory.found_record (h : Directory fs d dir clusters n)
    (hfound : lookup (d.record fs.bpb.cluster_size clusters)
      (record_cnt fs.bpb.cluster_size clusters) name = some k) :
    lookup (fs.dir_record dir) (fs.dir_record_cnt dir) name = some k ∧
      fs.dir_record dir (k + lde_cnt name) =
        d.record fs.bpb.cluster_size clusters (k + lde_cnt name) ∧
      name_before (fs.dir_record dir) k = name_before (d.record fs.bpb.cluster_size clusters) k := by
  have hlt := (lookup_eq_some.mp hfound).2.1
  refine ⟨(h.lookup_record name).trans hfound, h.owned.dir_record hlt, name_before_congr ?_⟩
  exact fun i hi => h.owned.dir_record (by omega)

/-- One permitted call. -/
theorem DirState.step (h : DirState fs d dir clusters n files) {call : DirCall}
    (hp : call.Permits dir fs) (hok : dir_step dir fs call = .ok fs') :
    ∃ d' clusters' n' files', DirState fs' d' dir clusters' n' files' := by
  have hd := h.directory
  cases call with
  | create name file_type =>
    obtain ⟨r, hcreate, rfl⟩ := map_eq_ok.mp hok
    refine h.create (fun hkind => ?_) hcreate
    rw [DirCall.Permits, hd.lookup_record] at hp
    cases hlookup : lookup (d.record fs.bpb.cluster_size clusters)
        (record_cnt fs.bpb.cluster_size clusters) name with
    | none =>
      rw [hlookup] at hp
      exact ⟨hp, fun k hk => by cases hk⟩
    | some k =>
      obtain ⟨-, hrecord, -⟩ := hd.found_record hlookup
      rw [hlookup, PermitsCreate, is_live, hrecord] at hp
      obtain ⟨hw, hlive⟩ := hp.resolve_left (hkind k hlookup)
      refine ⟨hw, fun j hj => ?_⟩
      cases hj
      exact hlive
  | remove name =>
    obtain ⟨r, hremove, rfl⟩ := map_eq_ok.mp hok
    obtain ⟨hne, hdot, hp⟩ := hp
    refine h.remove hne hdot (fun k hk => ?_) hremove
    obtain ⟨hlookup, hrecord, hbefore⟩ := hd.found_record hk
    rw [hlookup] at hp
    obtain ⟨hzero, hdots, hlive, hall⟩ := hp
    rw [is_live, hrecord] at hlive
    rw [hbefore] at hall
    exact ⟨hzero, hdots, hlive, hall⟩

/-- Along a run of permitted calls both listings have the live entries of the directory. -/
theorem listings_agree (h : DirState fs d dir clusters n files) {calls : List DirCall}
    (hC : Guarded (dir_step dir) (DirCall.Permits dir) fs calls) :
    ∀ t ∈ states (dir_step dir) fs calls, ListingsAgree t dir := by
  intro t ht
  have hinv : ∃ d clusters n files, DirState t d dir clusters n files := by
    apply invariant (fun t => ∃ d clusters n files, DirState t d dir clusters n files) ?_
      ⟨d, clusters, n, files, h⟩ hC t ht
    rintro s call t ⟨d, clusters, n, files, h⟩ hp hok
    exact h.step hp hok
  obtain ⟨d, clusters, n, files, h⟩ := hinv
  exact h.same_listing

end Run

section Floppy

theorem dirState_blank_root :
    DirState blank_root blank_root.disk root [2] 0 fun _ => none where
  directory := directory_blank_root
  grouped k hk := absurd hk (Nat.not_lt_zero k)
  files := by
    constructor
    · exact fun k hk => absurd hk (Nat.not_lt_zero k)
    · exact fun k hk => absurd hk (Nat.not_lt_zero k)
    · exact fun j hj => absurd hj (Nat.not_lt_zero j)

theorem remove_html_run : Meets (run (dir_step root) blank_root
    [.create ['a', '.', 'h', 't', 'm', 'l'] .File, .create ['b'] .Dir,
      .remove ['a', '.', 'h', 't', 'm', 'l']]) (fun _ => False)
    fun t => t.ls_with_attr root = .ok (.ok [(['b'], ATTR_DIRECTORY)]) := by
  decide +kernel

theorem listings_agree_html : ∃ t, run (dir_step root) blank_root
      [.create ['a', '.', 'h', 't', 'm', 'l'] .File, .create ['b'] .Dir,
        .remove ['a', '.', 'h', 't', 'm', 'l']] = .ok t ∧
    t.ls_with_attr root = .ok (.ok [(['b'], ATTR_DIRECTORY)]) ∧ ListingsAgree t root := by
  obtain ⟨t, ht, hls⟩ := remove_html_run.exists_ok
  refine ⟨t, ht, hls, listings_agree dirState_blank_root ?_ t (mem_states_of_run ht)⟩
  decide +kernel

theorem remove_short_run : Meets (run (dir_step root) blank_root
    [.create ['A'] .File, .remove ['A']]) (fun _ => False)
    fun t => t.dir_infos root = .ok [] ∧
      t.ls_with_attr root = .ok (.ok [(['A'], 0x20)]) := by
  decide +kernel

/-- A short name is removed without the long entry that was written for it. -/
theorem listings_of_removed : ∃ t, run (dir_step root) blank_root
      [.create ['A'] .File, .remove ['A']] = .ok t ∧
    t.dir_infos root = .ok [] ∧ t.ls_with_attr root = .ok (.ok [(['A'], 0x20)]) ∧
    ¬ ListingsAgree t root := by
  obtain ⟨t, ht, hinfos, hls⟩ := remove_short_run.exists_ok
  refine ⟨t, ht, hinfos, hls, ?_⟩
  rintro ⟨ks, -, -, hinfos', list, hls', hnames⟩
  have hks := List.map_eq_nil_iff.mp (Except.ok.inj (hinfos.symm.trans hinfos')).symm
  have hlist := Except.ok.inj (Except.ok.inj (hls.symm.trans hls'))
  rw [hks, ← hlist] at hnames
  cases hnames

end Floppy

end FileSystem

end MyGOS.Fat32
