import MyGOS.Fat32.Dir
import Mathlib.Algebra.Order.Ring.Nat

/-!
# What a lookup changes

A lookup reads the disk and adds a chain for every file on its way. The entry
of the file it returns is at a multiple of the size of an entry.
-/

namespace MyGOS.Fat32

open Outcome

namespace BIOSParameterBlock

/-- The sector sizes that a FAT volume may have are multiples of a block. -/
def Sectors (bpb : BIOSParameterBlock) : Prop := BLOCK_SIZE ∣ bpb.byts_per_sec

theorem Sectors.dirent_dvd {bpb : BIOSParameterBlock} (h : bpb.Sectors) :
    DIRENT_SIZE ∣ bpb.cluster_size :=
  ((by decide : DIRENT_SIZE ∣ BLOCK_SIZE).trans h).mul_left _

theorem Sectors.offset_dvd {bpb : BIOSParameterBlock} (h : bpb.Sectors) {cluster offset : Nat}
    (ho : bpb.offset cluster = .ok offset) : BLOCK_SIZE ∣ offset := by
  unfold BIOSParameterBlock.offset at ho
  split at ho
  · cases ho
    exact h.mul_left _
  · cases ho

end BIOSParameterBlock

/-- Nothing but chains that were not in use differs. -/
structure Looked (fs fs' : FileSystem) : Prop where
  device : fs'.device = fs.device
  free_cluster_cnt : fs'.free_cluster_cnt = fs.free_cluster_cnt
  bpb : fs'.bpb = fs.bpb
  recycled_cluster : fs'.recycled_cluster = fs.recycled_cluster
  root_dir_entry : fs'.root_dir_entry = fs.root_dir_entry
  next_chain : fs.next_chain ≤ fs'.next_chain
  chains : ∀ c < fs.next_chain, fs'.chains c = fs.chains c

namespace Looked

variable {fs fs' fs'' : FileSystem}

theorem refl (fs : FileSystem) : Looked fs fs := ⟨rfl, rfl, rfl, rfl, rfl, le_rfl, fun _ _ => rfl⟩

theorem trans (h : Looked fs fs') (h' : Looked fs' fs'') : Looked fs fs'' where
  device := h'.device.trans h.device
  free_cluster_cnt := h'.free_cluster_cnt.trans h.free_cluster_cnt
  bpb := h'.bpb.trans h.bpb
  recycled_cluster := h'.recycled_cluster.trans h.recycled_cluster
  root_dir_entry := h'.root_dir_entry.trans h.root_dir_entry
  next_chain := h.next_chain.trans h'.next_chain
  chains c hc := (h'.chains c (hc.trans_le h.next_chain)).trans (h.chains c hc)

theorem eq (hl : Looked fs fs') :
    fs' = { fs with chains := fs'.chains, next_chain := fs'.next_chain } := by
  obtain ⟨_, _, _, _, _, _, _⟩ := hl
  cases fs
  cases fs'
  simp_all

end Looked

namespace FileSystem

variable {fs fs' : FileSystem} {dir f : VirtFile} {name : Name}

/-- A file that a lookup in `fs` returned, which is `fs'` after it. -/
structure Located (fs fs' : FileSystem) (f : VirtFile) : Prop where
  looked : Looked fs fs'
  aligned : fs.bpb.Sectors → DIRENT_SIZE ∣ f.sde_pos.offset_in_cluster

theorem dirent_cluster_pos_offset {offset : Nat} {pos : DirEntryPos}
    (h : fs.dirent_cluster_pos dir offset = .ok pos) :
    pos.offset_in_cluster = offset % fs.bpb.cluster_size := by
  unfold dirent_cluster_pos at h
  obtain ⟨start_cluster, _, h⟩ := bind_eq_ok.mp h
  obtain ⟨cluster, _, h⟩ := bind_eq_ok.mp h
  cases cluster with
  | none => cases h
  | some cluster =>
    cases h
    rfl

theorem new_file_looked (fs : FileSystem) (name : Name) (sde_pos : DirEntryPos)
    (lde_pos : List DirEntryPos) (cluster_vec : List Nat) (sde : Dirent) :
    Looked fs (fs.new_file name sde_pos lde_pos cluster_vec sde).2 where
  device := rfl
  free_cluster_cnt := rfl
  bpb := rfl
  recycled_cluster := rfl
  root_dir_entry := rfl
  next_chain := Nat.le_succ _
  chains _ hc := Function.update_of_ne hc.ne _ _

theorem found_located {index lde_cnt : Nat} {sde : Dirent} (hi : DIRENT_SIZE ∣ index)
    (h : fs.found dir name index lde_cnt sde = .ok (f, fs')) : Located fs fs' f := by
  unfold found at h
  obtain ⟨sde_pos, hpos, h⟩ := bind_eq_ok.mp h
  obtain ⟨lde_pos, _, h⟩ := bind_eq_ok.mp h
  obtain ⟨clus_chain, _, h⟩ := bind_eq_ok.mp h
  cases h
  constructor
  · exact new_file_looked fs name sde_pos lde_pos clus_chain sde
  · intro hs
    have hoff : sde_pos.offset_in_cluster = _ := dirent_cluster_pos_offset hpos
    show DIRENT_SIZE ∣ sde_pos.offset_in_cluster
    rw [hoff]
    exact (Nat.dvd_mod_iff hs.dirent_dvd).mpr (Nat.dvd_add hi (Nat.dvd_mul_left ..))

/-- What a search in a directory returns. -/
def Searched (fs : FileSystem) : Option VirtFile × FileSystem → Prop
  | (some f, fs') => Located fs fs' f
  | (none, fs') => Looked fs fs'

theorem Searched.looked {r : Option VirtFile × FileSystem} (h : fs.Searched r) :
    Looked fs r.2 := by
  obtain ⟨_ | f, fs'⟩ := r
  · exact h
  · exact Located.looked h

theorem found_searched {index lde_cnt : Nat} {sde : Dirent} {r : Option VirtFile × FileSystem}
    (hi : DIRENT_SIZE ∣ index)
    (h : (do let (f, fs) ← fs.found dir name index lde_cnt sde; return (some f, fs)) = .ok r) :
    fs.Searched r := by
  obtain ⟨⟨f, fs'⟩, hf, h⟩ := bind_eq_ok.mp h
  cases h
  exact found_located hi hf

theorem find_by_sfn_loop_searched (fuel index : Nat) (hi : DIRENT_SIZE ∣ index)
    {r : Option VirtFile × FileSystem} (h : fs.find_by_sfn_loop dir name fuel index = .ok r) :
    fs.Searched r := by
  induction fuel generalizing index with
  | zero => cases h
  | succ fuel ih =>
    rw [find_by_sfn_loop] at h
    obtain ⟨record, _, h⟩ := bind_eq_ok.mp h
    cases record with
    | none =>
      cases h
      exact Looked.refl fs
    | some sde =>
      simp only at h
      split at h
      · exact found_searched hi h
      · exact ih _ (Nat.dvd_add hi dvd_rfl) h

theorem find_by_lfn_loop_searched (fuel index : Nat) (hi : DIRENT_SIZE ∣ index)
    {r : Option VirtFile × FileSystem} (h : fs.find_by_lfn_loop dir name fuel index = .ok r) :
    fs.Searched r := by
  induction fuel generalizing index with
  | zero => cases h
  | succ fuel ih =>
    rw [find_by_lfn_loop] at h
    obtain ⟨record, _, h⟩ := bind_eq_ok.mp h
    cases record with
    | none =>
      cases h
      exact Looked.refl fs
    | some lde =>
      have next := ih _ (Nat.dvd_add hi dvd_rfl)
      simp only at h
      split at h
      · split at h
        · exact next h
        · split at h
          · exact next h
          · obtain ⟨matched, _, h⟩ := bind_eq_ok.mp h
            match matched with
            | none =>
              cases h
              exact Looked.refl fs
            | some (_, false) => exact next h
            | some (lde, true) =>
              obtain ⟨record, _, h⟩ := bind_eq_ok.mp h
              cases record with
              | none =>
                cases h
                exact Looked.refl fs
              | some sde =>
                simp only at h
                split at h
                · exact found_searched hi h
                · exact next h
      · exact next h

theorem find_by_name_searched {r : Option VirtFile × FileSystem}
    (h : fs.find_by_name dir name = .ok r) : fs.Searched r := by
  unfold find_by_name at h
  split at h
  · split at h
    · unfold find_by_lfn at h
      split at h
      · cases h
      · exact find_by_lfn_loop_searched _ _ (Nat.dvd_zero _) h
    · exact find_by_sfn_loop_searched _ _ (Nat.dvd_zero _) h
  · cases h

/-- What `find` returns. -/
def Resolved (fs : FileSystem) : Except DirError VirtFile × FileSystem → Prop
  | (.ok f, fs') => Located fs fs' f
  | (.error _, fs') => Looked fs fs'

theorem Resolved.looked {r : Except DirError VirtFile × FileSystem} (h : fs.Resolved r) :
    Looked fs r.2 := by
  obtain ⟨_ | f, fs'⟩ := r
  · exact h
  · exact Located.looked h

theorem Resolved.of_looked {r : Except DirError VirtFile × FileSystem} (hl : Looked fs fs')
    (h : fs'.Resolved r) : fs.Resolved r := by
  obtain ⟨_ | f, fs''⟩ := r
  · exact hl.trans h
  · obtain ⟨h, ha⟩ := (h : Located _ _ _)
    exact ⟨hl.trans h, fun hs => ha (hl.bpb ▸ hs)⟩

theorem find_resolved {path : List Name} (hdir : DIRENT_SIZE ∣ dir.sde_pos.offset_in_cluster)
    (hs : fs.bpb.Sectors) {r : Except DirError VirtFile × FileSystem}
    (h : fs.find dir path = .ok r) : fs.Resolved r := by
  induction path generalizing fs dir with
  | nil =>
    cases h
    exact ⟨Looked.refl fs, fun _ => hdir⟩
  | cons name path ih =>
    rw [find] at h
    split at h
    · exact ih hdir hs h
    · split at h
      · cases h
        exact Looked.refl fs
      · obtain ⟨⟨_ | vfile, fs'⟩, hname, h⟩ := bind_eq_ok.mp h
        · cases h
          exact (find_by_name_searched hname : Looked _ _)
        · obtain ⟨hl, ha⟩ := (find_by_name_searched hname : Located _ _ _)
          exact .of_looked hl (ih (ha hs) (hl.bpb ▸ hs) h)

section Again

variable (fs) (chains : Nat → List Nat) (n : Nat)

/-- Other chains. -/
def with_chains : FileSystem := { fs with chains := chains, next_chain := n }

theorem get_cluster_at_chains (start index : Nat) :
    (fs.with_chains chains n).get_cluster_at start index = fs.get_cluster_at start index := by
  induction index generalizing start with
  | zero => rfl
  | succ index ih =>
    simp only [get_cluster_at, ih]
    rfl

theorem generate_rest_chains (fuel cluster : Nat) :
    (fs.with_chains chains n).generate_rest fuel cluster = fs.generate_rest fuel cluster := by
  induction fuel generalizing cluster with
  | zero => rfl
  | succ fuel ih =>
    simp only [generate_rest, ih]
    rfl

theorem dirent_cluster_pos_chains (dir : VirtFile) (offset : Nat) :
    (fs.with_chains chains n).dirent_cluster_pos dir offset = fs.dirent_cluster_pos dir offset := by
  unfold dirent_cluster_pos
  simp only [get_cluster_at_chains]
  rfl

theorem generate_cluster_chain_chains (dir : VirtFile) (offset : Nat) :
    (fs.with_chains chains n).generate_cluster_chain dir offset =
      fs.generate_cluster_chain dir offset := by
  unfold generate_cluster_chain dirent_block_pos generate
  simp only [dirent_cluster_pos_chains, generate_rest_chains]
  rfl

variable {fs chains n}

/-- What a search found is found again, whatever chains there are besides that of the directory. -/
theorem find_by_sfn_loop_again {fuel index : Nat} {r : FileSystem}
    (hdir : chains dir.cluster_chain = fs.chains dir.cluster_chain)
    (h : fs.find_by_sfn_loop dir name fuel index = .ok (some f, r)) :
    ∃ r', (fs.with_chains chains n).find_by_sfn_loop dir name fuel index =
      .ok (some { f with cluster_chain := n }, r') := by
  induction fuel generalizing index with
  | zero => cases h
  | succ fuel ih =>
    rw [find_by_sfn_loop] at h
    obtain ⟨record, hrecord, h⟩ := bind_eq_ok.mp h
    have hread : (fs.with_chains chains n).read_record dir index = .ok record := by
      rw [← hrecord]
      unfold read_record read_at cluster_vec
      simp only [with_chains, hdir]
    rw [find_by_sfn_loop, hread]
    cases record with
    | none => cases h
    | some sde =>
      simp only [bind, Except.bind] at h ⊢
      split at h
      · next hfound =>
        rw [if_pos hfound]
        obtain ⟨⟨f', r'⟩, hf, h⟩ := bind_eq_ok.mp h
        cases h
        unfold found at hf ⊢
        obtain ⟨sde_pos, hsde, hf⟩ := bind_eq_ok.mp hf
        obtain ⟨lde_pos, hlde, hf⟩ := bind_eq_ok.mp hf
        obtain ⟨clus_chain, hclus, hf⟩ := bind_eq_ok.mp hf
        cases hf
        simp only [dirent_cluster_pos_chains, generate_cluster_chain_chains, hsde, hlde, hclus]
        exact ⟨_, rfl⟩
      · next hnot =>
        rw [if_neg hnot]
        exact ih h

/-- The same for a name that differs by case, after other lookups. -/
theorem find_by_sfn_again {name' : Name} {r : FileSystem} (hl : Looked fs fs')
    (hdir : dir.cluster_chain < fs.next_chain)
    (hupper : name'.to_ascii_uppercase = name.to_ascii_uppercase)
    (h : fs.find_by_sfn dir name = .ok (some f, r)) :
    ∃ r', fs'.find_by_sfn dir name' = .ok (some { f with cluster_chain := fs'.next_chain }, r') := by
  have hchain := hl.chains _ hdir
  have hlimit : fs'.record_limit dir = fs.record_limit dir := by
    rw [record_limit, record_limit, cluster_vec, cluster_vec, hchain, hl.bpb]
  unfold find_by_sfn at h ⊢
  rw [hupper, hlimit, hl.eq]
  exact find_by_sfn_loop_again hchain h

theorem file_size_of_looked (hl : Looked fs fs') (f : VirtFile) :
    fs'.file_size f = fs.file_size f := by
  rw [hl.eq]
  rfl

end Again

end FileSystem

end MyGOS.Fat32
