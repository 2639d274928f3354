import MyGOS.Fat32.Create

/-!
# Two handles to a directory

Each handle has the clusters of the directory in a chain of its own. As long as
no entry is created for which the directory has to grow, the two are the same,
and what is created through one handle is found through both.
-/

namespace MyGOS.Fat32

open Outcome StepSystem

namespace FileSystem

variable {fs fs' : FileSystem} {d d' : Disk} {dir f : VirtFile} {clusters chain : List Nat}
  {n n' k : Nat} {name : Name}

section Search

/-- Handles of one entry. -/
def SameEntry (f g : VirtFile) : Prop :=
  g.sde_pos = f.sde_pos ∧ g.lde_pos = f.lde_pos ∧ g.attr = f.attr

/-- What the records say of a name that is found at number `k`. -/
structure Known (r : Nat → Dirent) (cluster_size : Nat) (clusters : List Nat) (name : Name)
    (f : VirtFile) (k : Nat) : Prop where
  lookup : lookup r (record_cnt cluster_size clusters) name = some k
  sde_pos : f.sde_pos = record_pos cluster_size clusters (k + lde_cnt name)
  lde_pos : f.lde_pos = (List.range (lde_cnt name)).map fun i =>
    record_pos cluster_size clusters (k + i)
  attr : f.attr = if (r (k + lde_cnt name)).attr = ATTR_DIRECTORY then .Dir else .File

theorem Known.lt {r : Nat → Dirent} {cluster_size : Nat}
    (h : Known r cluster_size clusters name f k) :
    k + lde_cnt name < record_cnt cluster_size clusters := (lookup_eq_some.mp h.lookup).2.1

theorem Known.congr {r r' : Nat → Dirent} {cluster_size : Nat}
    (h : Known r cluster_size clusters name f k)
    (hr : ∀ k < record_cnt cluster_size clusters, r' k = r k) :
    Known r' cluster_size clusters name f k := by
  refine ⟨?_, h.sde_pos, h.lde_pos, ?_⟩
  · rw [← h.lookup]
    apply lookup_congr
    intro k hk
    rw [hr k hk]
    exact .refl _
  · rw [hr _ h.lt]
    exact h.attr

theorem Known.sameEntry {r : Nat → Dirent} {cluster_size : Nat} {g : VirtFile}
    (h : Known r cluster_size clusters name f k) (h' : Known r cluster_size clusters name g k) :
    SameEntry f g :=
  ⟨h'.sde_pos.trans h.sde_pos.symm, h'.lde_pos.trans h.lde_pos.symm, h'.attr.trans h.attr.symm⟩

variable (h : Owned fs d dir clusters) (hdir : dir.is_dir)

include h hdir

/-- A handle that a search returns is that of the records where the name is found. -/
theorem Owned.find_by_name_known
    (hsome : lookup (d.record fs.bpb.cluster_size clusters)
      (record_cnt fs.bpb.cluster_size clusters) name = some k)
    {option : Option VirtFile} (hfind : fs.find_by_name dir name = .ok (option, fs')) :
    ∃ f, option = some f ∧
      Known (d.record fs.bpb.cluster_size clusters) fs.bpb.cluster_size clusters name f k := by
  have hlt : k + lde_cnt name < record_cnt fs.bpb.cluster_size clusters := by
    have hmem := List.mem_range.mp (List.mem_of_find?_eq_some hsome)
    omega
  have hoff : ∀ i, DIRENT_SIZE * k + i * DIRENT_SIZE = DIRENT_SIZE * (k + i) := by
    intro i
    rw [Nat.mul_add, Nat.mul_comm i]
  have hmap : (List.range (lde_cnt name)).mapM (fun i =>
      fs.dirent_cluster_pos dir (DIRENT_SIZE * k + i * DIRENT_SIZE)) =
      .ok ((List.range (lde_cnt name)).map fun i =>
        record_pos fs.bpb.cluster_size clusters (k + i)) := by
    apply mapM_eq_ok
    intro i hi
    have hi := List.mem_range.mp hi
    rw [hoff]
    exact h.dirent_cluster_pos (by omega)
  rw [h.find_by_name hdir, hsome] at hfind
  obtain ⟨⟨f, fs₁⟩, hfound, hok⟩ := bind_eq_ok.mp hfind
  cases hok
  rw [FileSystem.found, hoff, h.dirent_cluster_pos hlt] at hfound
  simp only [bind, Except.bind] at hfound
  rw [hmap] at hfound
  obtain ⟨clus_chain, -, hfound⟩ := bind_eq_ok.mp hfound
  cases hfound
  exact ⟨_, rfl, hsome, rfl, rfl, rfl⟩

end Search

section Twins

variable {a b : VirtFile}

/-- Handles of the same directory with chains of their own. -/
structure Twins (a b : VirtFile) : Prop where
  is_dir : a.is_dir
  sde_pos : b.sde_pos = a.sde_pos
  attr : b.attr = a.attr
  cluster_chain : a.cluster_chain ≠ b.cluster_chain

/-- Both handles have all the clusters of the directory, which has `n` records. -/
structure Together (fs : FileSystem) (a b : VirtFile) (clusters : List Nat) (n : Nat) : Prop where
  owned : Owned fs fs.disk a clusters
  vec : fs.cluster_vec b = clusters
  lt : a.cluster_chain < fs.next_chain
  lt' : b.cluster_chain < fs.next_chain
  listed : Listed (fs.disk.record fs.bpb.cluster_size clusters)
    (record_cnt fs.bpb.cluster_size clusters) n

theorem Twins.symm (ht : Twins a b) : Twins b a where
  is_dir := by
    rw [VirtFile.is_dir, ht.attr]
    exact ht.is_dir
  sde_pos := ht.sde_pos.symm
  attr := ht.attr.symm
  cluster_chain := ht.cluster_chain.symm

theorem Together.symm (ht : Twins a b) (h : Together fs a b clusters n) :
    Together fs b a clusters n where
  owned := by
    refine ⟨h.owned.sees, ?_, ⟨h.vec, h.owned.chained.chain, h.owned.chained.data⟩, ?_, ?_, ?_, ?_, ?_⟩
    · rw [ht.sde_pos]
      exact h.owned.sde_pos
    · rw [ht.sde_pos]
      exact h.owned.apart
    · rw [ht.sde_pos]
      exact h.owned.in_use
    · rw [ht.sde_pos]
      exact h.owned.first_cluster
    · rw [ht.sde_pos]
      exact h.owned.file_size
    · rw [ht.sde_pos]
      exact fun _ => h.owned.dir_size ht.is_dir
  vec := h.owned.chained.vec
  lt := h.lt'
  lt' := h.lt
  listed := h.listed

/-- A search reads the same through both handles. -/
theorem Together.find_by_name (ht : Twins a b) (h : Together fs a b clusters n) (name : Name) :
    fs.find_by_name b name = fs.find_by_name a name := by
  have hfound : fs.found b = fs.found a := by
    funext name index lde_cnt sde
    simp only [found, generate_cluster_chain, dirent_block_pos, dirent_cluster_pos, first_cluster,
      read_sde, entry_pos, ht.sde_pos]
  rw [h.owned.find_by_name ht.is_dir, (h.symm ht).owned.find_by_name ht.symm.is_dir, hfound]

/-- What a step through one of the handles does with the directory. -/
structure Later (fs fs' : FileSystem) (clusters : List Nat) (n n' : Nat) : Prop where
  le : n ≤ n'
  bpb : fs'.bpb = fs.bpb
  record : ∀ k < n, fs'.disk.record fs.bpb.cluster_size clusters k =
    fs.disk.record fs.bpb.cluster_size clusters k
  chain : ∀ e chain, EntryChain fs fs.disk e chain → (∀ c ∈ chain, c ∉ clusters) →
    EntryChain fs' fs'.disk e chain

theorem Later.looked (h : Looked fs fs') : Later fs fs' clusters n n where
  le := le_rfl
  bpb := h.bpb
  record _ _ := by rw [h.disk]
  chain e chain hc _ := by
    rw [h.disk]
    exact ⟨hc.chain, h.bpb ▸ hc.data, hc.first_cluster⟩

theorem Together.looked (h : Together fs a b clusters n) (hl : Looked fs fs') :
    Together fs' a b clusters n := by
  have hdisk := hl.disk
  refine ⟨?_, (hl.chains _ h.lt').trans h.vec, h.lt.trans_le hl.next_chain,
    h.lt'.trans_le hl.next_chain, ?_⟩
  · rw [hdisk]
    exact h.owned.keep (hl.sees h.owned.sees) hl.bpb ((hl.chains _ h.lt).trans h.owned.chained.vec)
      (fun _ _ => rfl) h.owned.in_use rfl
  · rw [hdisk, hl.bpb]
    exact h.listed

/-- A name stays where it is. -/
theorem Known.later
    (h : Known (fs.disk.record fs.bpb.cluster_size clusters) fs.bpb.cluster_size clusters name f k)
    (hl : Listed (fs.disk.record fs.bpb.cluster_size clusters)
      (record_cnt fs.bpb.cluster_size clusters) n) (hname : '\x00' ∉ name)
    (hlater : Later fs fs' clusters n n') :
    Known (fs'.disk.record fs'.bpb.cluster_size clusters) fs'.bpb.cluster_size clusters name f k := by
  have hlt := hl.match_lt hname (lookup_eq_some.mp h.lookup).1 h.lt
  rw [hlater.bpb]
  refine ⟨?_, h.sde_pos, h.lde_pos, ?_⟩
  · apply hl.lookup_some _ le_rfl hname h.lookup
    intro j hj
    rw [hlater.record j hj]
    exact .refl _
  · rw [hlater.record _ hlt]
    exact h.attr

/-- An entry whose clusters are a chain is found. -/
theorem Together.found (ht : Twins a b) (h : Together fs a b clusters n)
    (hk : Known (fs.disk.record fs.bpb.cluster_size clusters) fs.bpb.cluster_size clusters name f k)
    (hchain : EntryChain fs fs.disk
      (fs.disk.record fs.bpb.cluster_size clusters (k + lde_cnt name)) chain) :
    ∃ g fs', fs.find_by_name a name = .ok (some g, fs') ∧ SameEntry f g := by
  have hfind := h.owned.find_by_name_some ht.is_dir hk.lookup rfl hchain
  obtain ⟨g, hg, hknown⟩ := h.owned.find_by_name_known ht.is_dir hk.lookup hfind
  rw [hg] at hfind
  exact ⟨g, _, hfind, hk.sameEntry hknown⟩

end Twins

section Step

variable {a b : VirtFile} {file_type : VirtFileType}

inductive DirOp where
  | create (name : Name) (file_type : VirtFileType)
  | find_by_name (name : Name)

/-- An entry of the same name has the same kind; the records of a new name are in the clusters that
the handle has. A new directory finds its cluster, if the free count says that there is one. -/
def DirOp.Permits (fs : FileSystem) (dir : VirtFile) : DirOp → Prop
  | .create name file_type => '\x00' ∉ name ∧
    match lookup (fs.dir_record dir) (fs.dir_record_cnt dir) name with
    | some k => file_type =
        if (fs.dir_record dir (k + lde_cnt name)).attr = ATTR_DIRECTORY then .Dir else .File
    | none => (lfn_vec name).length < 256 ∧
        end_index (fs.dir_record dir) (fs.dir_record_cnt dir) + (lfn_vec name).length <
          fs.dir_record_cnt dir ∧
        (file_type = .Dir → 0 < fs.free_cluster_cnt → 0 < (fs.disk.reachable
          (fs.bpb.data_cluster_cnt + 2) fs.recycled_cluster NEW_VIRT_FILE_CLUSTER).card)
  | .find_by_name name => '\x00' ∉ name

instance (fs : FileSystem) (dir : VirtFile) : DecidablePred (DirOp.Permits fs dir)
  | .create name file_type =>
    match h : lookup (fs.dir_record dir) (fs.dir_record_cnt dir) name with
    | some k => decidable_of_iff ('\x00' ∉ name ∧ file_type =
        if (fs.dir_record dir (k + lde_cnt name)).attr = ATTR_DIRECTORY then .Dir else .File)
        (by simp only [DirOp.Permits, h])
    | none => decidable_of_iff ('\x00' ∉ name ∧ (lfn_vec name).length < 256 ∧
        end_index (fs.dir_record dir) (fs.dir_record_cnt dir) + (lfn_vec name).length <
          fs.dir_record_cnt dir ∧
        (file_type = .Dir → 0 < fs.free_cluster_cnt → 0 < (fs.disk.reachable
          (fs.bpb.data_cluster_cnt + 2) fs.recycled_cluster NEW_VIRT_FILE_CLUSTER).card))
        (by simp only [DirOp.Permits, h])
  | .find_by_name name => inferInstanceAs (Decidable ('\x00' ∉ name))

theorem Entered.later (h : Entered fs fs' fs.disk d' a clusters [] chain n name file_type)
    (hle : n ≤ record_cnt fs.bpb.cluster_size clusters) :
    Later fs fs' clusters n (n + (lfn_vec name).length + 1) := by
  have hbpb := h.beside.bpb
  have howned' := h.owned
  have hold := h.old
  rw [List.append_nil] at howned' hold
  refine ⟨by omega, hbpb, ?_, ?_⟩
  · intro k hk
    rw [← hold k hk, ← hbpb]
    apply howned'.record_disk
    rw [hbpb]
    exact hk.trans_le hle
  · intro e others hc hdisjoint
    refine ⟨hc.chain.congr ?_, hbpb ▸ hc.data, hc.first_cluster⟩
    intro c hmem
    have huse := chain_next_ne hc.chain hc.data c hmem
    exact (howned'.sees.shows_disk.next c (hbpb ▸ (hc.data c hmem).2)).trans
      (h.beside.next c (hdisjoint c hmem) (h.beside.notMem_added (hdisjoint c hmem) huse))

theorem Entered.together (ht : Twins a b) (h : Together fs a b clusters n)
    (he : Entered fs fs' fs.disk d' a clusters [] chain n name file_type) (hname : '\x00' ∉ name)
    (hcnt : (lfn_vec name).length < 256) :
    Together fs' a b clusters (n + (lfn_vec name).length + 1) := by
  have hbpb := he.beside.bpb
  have howned := he.owned
  have hlisted := he.records.listed h.listed hname hcnt
  rw [List.append_nil] at howned hlisted
  refine ⟨howned.disk, ?_, h.lt.trans_le he.beside.next_chain,
    h.lt'.trans_le he.beside.next_chain, ?_⟩
  · exact (he.beside.chains _ h.lt' ht.cluster_chain.symm).trans h.vec
  · rw [hbpb]
    apply hlisted.congr
    intro k hk
    rw [← hbpb]
    apply howned.record_disk
    rw [hbpb]
    exact hk

theorem NewEntry.known (h : NewEntry fs fs' d' clusters chain n name file_type f)
    (he : Entered fs fs' d d' dir clusters [] chain n name file_type)
    (hsplit : long_name_split name ≠ [])
    (hown : lookup (d'.record fs.bpb.cluster_size clusters)
      (record_cnt fs.bpb.cluster_size clusters) name = some (own_index name n)) :
    Known (fs'.disk.record fs'.bpb.cluster_size clusters) fs'.bpb.cluster_size clusters name f
        (own_index name n) ∧
      EntryChain fs' fs'.disk
        (fs'.disk.record fs'.bpb.cluster_size clusters (own_index name n + lde_cnt name)) chain := by
  have hbpb := he.beside.bpb
  have howned := he.owned
  have hle := he.records.le
  have hsde := he.records.sde
  have hindex := own_index_add hsplit n
  rw [List.append_nil] at howned hle hsde
  have hpos := h.sde_pos
  rw [← hbpb] at hown hle hsde hpos
  rw [hindex]
  constructor
  · have hknown : Known (d'.record fs'.bpb.cluster_size clusters) fs'.bpb.cluster_size clusters name
        f (own_index name n) := by
      refine ⟨hown, ?_, ?_, ?_⟩
      · rw [hindex]
        exact hpos
      · rw [hbpb]
        exact h.lde_pos
      · rw [hindex, hsde.attr, h.attr, short_entry_attr]
        cases file_type <;> decide
    exact hknown.congr fun k hk => howned.record_disk hk
  · have hdisk := h.owned.disk
    refine ⟨hdisk.chained.chain, hdisk.chained.data, ?_⟩
    rw [← hdisk.first_cluster, hpos, fs'.disk.entry_record_pos howned.sees.layout]

/-- What `create` does through the first handle. -/
theorem Together.create (ht : Twins a b) (h : Together fs a b clusters n)
    (hp : (DirOp.create name file_type).Permits fs a) {r : Except DirError VirtFile × FileSystem}
    (hok : fs.create a name file_type = .ok r) :
    ∃ n', Together r.2 a b clusters n' ∧ Later fs r.2 clusters n n' ∧ ∀ f, r.1 = .ok f → ∃ k chain,
      Known (r.2.disk.record r.2.bpb.cluster_size clusters) r.2.bpb.cluster_size clusters name f k ∧
      EntryChain r.2 r.2.disk
        (r.2.disk.record r.2.bpb.cluster_size clusters (k + lde_cnt name)) chain ∧
      ∀ c ∈ chain, c ∉ clusters := by
  obtain ⟨hname, hp⟩ := hp
  have hvec := h.owned.chained.vec
  unfold dir_record dir_record_cnt at hp
  rw [hvec, h.listed.end_index] at hp
  cases hlookup : lookup (fs.disk.record fs.bpb.cluster_size clusters)
    (record_cnt fs.bpb.cluster_size clusters) name with
  | some k =>
    rw [hlookup] at hp
    obtain ⟨herror, hlooked⟩ := h.owned.create_exists ht.is_dir hlookup hp hok
    refine ⟨n, h.looked hlooked, .looked hlooked, fun f hf => ?_⟩
    rw [herror] at hf
    cases hf
  | none =>
    rw [hlookup] at hp
    obtain ⟨hcnt, hfits, hreach⟩ := hp
    have hsplit : long_name_split name ≠ [] := by
      intro hnil
      rw [FileSystem.create, h.owned.find_by_name_none ht.is_dir hlookup] at hok
      simp only [bind, Except.bind, Option.any_none, Bool.false_eq_true, if_false,
        if_pos hnil] at hok
      cases hok
    have hne : clusters ≠ [] := by
      rintro rfl
      rw [record_cnt, List.length_nil, Nat.mul_zero, Nat.zero_div] at hfits
      exact absurd hfits (Nat.not_lt_zero _)
    have hneed : fs.create_need a n name = 0 := h.owned.need_of_le (by omega)
    have hcreate := @Owned.create fs fs.disk a clusters n name file_type h.owned hne ht.is_dir h.lt
      h.listed hsplit hname hcnt hlookup (by rw [hneed]; exact Nat.zero_le _)
      (by rw [hneed]; exact hreach)
    obtain ⟨d', added, chain, he, hlen, hr⟩ := hcreate.of_ok hok
    rw [hneed, List.length_eq_zero_iff] at hlen
    subst hlen
    refine ⟨_, he.together ht h hname hcnt, he.later h.listed.le, fun f hf => ?_⟩
    rw [hf] at hr
    obtain ⟨hnew, hown⟩ := hr
    rw [List.append_nil] at hnew hown
    obtain ⟨hknown, hchain⟩ := hnew.known he hsplit hown
    exact ⟨_, chain, hknown, hchain, hnew.disjoint⟩

end Step

end FileSystem

end MyGOS.Fat32
