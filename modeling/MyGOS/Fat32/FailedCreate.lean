import MyGOS.Fat32.LegalNames

/-!
# When `create` fails

The records of a name are written before the search that tells whether it can be
found, and they stay when it cannot. A name that is there with the other kind is
written again, and the handle is that of the old entry.
-/

namespace MyGOS.Fat32

open Outcome

namespace FileSystem

variable {fs fs' : FileSystem} {d d' : Disk} {dir f : VirtFile} {clusters added : List Nat}
  {n k : Nat} {name : Name} {file_type : VirtFileType}

/-- The records that are in use and not deleted, with their numbers. -/
def live_records (fs : FileSystem) (dir : VirtFile) : List (Nat × Dirent) :=
  ((List.range (end_index (fs.dir_record dir) (fs.dir_record_cnt dir))).filter
    fun k => ¬ (fs.dir_record dir k).is_deleted).map fun k => (k, fs.dir_record dir k)

/-- The directory has the same live entries, and every other chain of clusters its bytes. -/
structure Unchanged (fs fs' : FileSystem) (dir : VirtFile) : Prop where
  live_records : fs'.live_records dir = fs.live_records dir
  bytes : ∀ chain, fs.disk.Chain chain → (∀ c ∈ chain, c ∉ fs.cluster_vec dir) →
    fs'.disk.Chain chain ∧ ∀ k < fs.bpb.cluster_size * chain.length,
      fs'.disk.content fs.bpb.cluster_size chain k = fs.disk.content fs.bpb.cluster_size chain k

/-- Nothing changes when `create` returns an error, and it returns one if the name is there. -/
structure FailsClean (fs : FileSystem) (dir : VirtFile) (name : Name) (file_type : VirtFileType) :
    Prop where
  unchanged : ∀ e fs', fs.create dir name file_type = .ok (.error e, fs') → Unchanged fs fs' dir
  exists_error : ∀ f fs₁, fs.find_by_name dir name = .ok (some f, fs₁) →
    ∃ e fs', fs.create dir name file_type = .ok (.error e, fs')

/-- What is found has the kind, and a name that is not found can be found when it is written, or
is not written. -/
def Foreseen (fs : FileSystem) (dir : VirtFile) (name : Name) (file_type : VirtFileType) : Prop :=
  match fs.find_by_name dir name with
  | .ok (some f, _) => f.attr = file_type
  | .ok (none, _) => Findable name ∨ name = [] ∨ fs.free_cluster_cnt <
      fs.create_need dir (end_index (fs.dir_record dir) (fs.dir_record_cnt dir)) name
  | .error _ => True

section Live

theorem Looked.unchanged (h : Looked fs fs') (hlt : dir.cluster_chain < fs.next_chain) :
    Unchanged fs fs' dir where
  live_records := by
    have hrecord : fs'.dir_record dir = fs.dir_record dir := by
      rw [dir_record, dir_record, cluster_vec, cluster_vec, h.disk, h.bpb, h.chains _ hlt]
    have hcnt : fs'.dir_record_cnt dir = fs.dir_record_cnt dir := by
      rw [dir_record_cnt, dir_record_cnt, cluster_vec, cluster_vec, h.bpb, h.chains _ hlt]
    rw [FileSystem.live_records, FileSystem.live_records, hrecord, hcnt]
  bytes chain hchain _ := by
    rw [h.disk]
    exact ⟨hchain, fun _ _ => rfl⟩

theorem lt_end_index {r : Nat → Dirent} {cnt : Nat} (hk : k < cnt)
    (h : ∀ j ≤ k, ¬ (r j).is_empty) : k < end_index r cnt := by
  by_contra hge
  have hlt : end_index r cnt < cnt := (not_lt.mp hge).trans_lt hk
  exact h _ (not_lt.mp hge) (empty_end r hlt)

theorem mem_live_records {e : Dirent} : (k, e) ∈ fs.live_records dir ↔
    k < end_index (fs.dir_record dir) (fs.dir_record_cnt dir) ∧ ¬ (fs.dir_record dir k).is_deleted ∧
      fs.dir_record dir k = e := by
  simp only [FileSystem.live_records, List.mem_map, List.mem_filter, List.mem_range,
    Prod.mk.injEq, decide_eq_true_eq]
  constructor
  · rintro ⟨j, ⟨hlt, hlive⟩, rfl, he⟩
    exact ⟨hlt, hlive, he⟩
  · rintro ⟨hlt, hlive, he⟩
    exact ⟨k, ⟨hlt, hlive⟩, rfl, he⟩

end Live

section Written

/-- One of the first two long entries is in use. -/
theorem lde_order_in_use {c : Nat} (hc : 0 < c) :
    ∃ i < c, (∀ j ≤ i, lde_order c j ≠ 0) ∧ lde_order c i ≠ DIR_ENTRY_UNUSED := by
  have hmod : ∀ m, UInt8.ofNat m = UInt8.ofNat (m % 256) := by
    intro m
    apply UInt8.toNat.inj
    rw [UInt8.toNat_ofNat', UInt8.toNat_ofNat', Nat.mod_mod]
  have hfirst : lde_order c 0 = UInt8.ofNat (c % 256) ||| LAST_LONG_ENTRY := by
    rw [lde_order, if_pos rfl, Nat.sub_zero, hmod]
  have hzero : lde_order c 0 ≠ 0 := by
    rw [hfirst]
    exact order_or_ne_zero _ (Nat.mod_lt _ (by decide))
  by_cases hunused : lde_order c 0 = DIR_ENTRY_UNUSED
  · have hbits : ∀ m < 256, UInt8.ofNat m ||| LAST_LONG_ENTRY = DIR_ENTRY_UNUSED →
        m = 165 ∨ m = 229 := by decide +kernel
    rw [hfirst] at hunused
    have hcases := hbits _ (Nat.mod_lt _ (by decide)) hunused
    have hsecond : (lde_order c 1).toNat = (c - 1) % 256 := by
      rw [lde_order, if_neg Nat.one_ne_zero, UInt8.toNat_ofNat']
    refine ⟨1, by omega, fun j hj => ?_, fun heq => ?_⟩
    · obtain rfl | rfl := Nat.le_one_iff_eq_zero_or_eq_one.mp hj
      · exact hzero
      · intro heq
        rw [heq] at hsecond
        have h0 : (0 : UInt8).toNat = 0 := rfl
        omega
    · rw [heq] at hsecond
      have h229 : DIR_ENTRY_UNUSED.toNat = 229 := rfl
      omega
  · refine ⟨0, hc, fun j hj => ?_, hunused⟩
    rw [Nat.le_zero.mp hj]
    exact hzero

theorem exists_live_own {r r' : Nat → Dirent} {cnt cnt' : Nat}
    (h : Extends r r' cnt n name file_type) (hl : Listed r cnt' n)
    (hsplit : long_name_split name ≠ []) :
    ∃ k, n ≤ k ∧ k < end_index r' cnt ∧ ¬ (r' k).is_deleted := by
  obtain ⟨i, hi, horder, hlive⟩ := lde_order_in_use (length_lfn_vec name hsplit)
  have hle := h.le
  refine ⟨n + i, Nat.le_add_right n i, lt_end_index (by omega) fun j hj => ?_, ?_⟩
  · by_cases hjn : j < n
    · rw [(h.old j hjn).is_empty]
      exact hl.in_use j hjn
    · obtain ⟨m, rfl⟩ := Nat.exists_eq_add_of_le (not_lt.mp hjn)
      have hne := horder m (by omega)
      rw [← (h.lde_attr (show m < (lfn_vec name).length by omega)).2] at hne
      rw [Dirent.is_empty, decide_eq_true_eq]
      exact hne
  · rw [← (h.lde_attr hi).2] at hlive
    rw [Dirent.is_deleted, decide_eq_true_eq]
    exact hlive

/-- The records of a new name are live entries that there were not. -/
theorem Entered.not_unchanged {chain : List Nat} (hd : Directory fs d dir clusters n)
    (h : Entered fs fs' d d' dir clusters added chain n name file_type)
    (hsplit : long_name_split name ≠ []) : ¬ Unchanged fs fs' dir := by
  obtain ⟨hext, -⟩ := h.extends_record hd
  obtain ⟨k, hge, hlt, hlive⟩ := exists_live_own hext hd.listed_record hsplit
  intro hunchanged
  have hmem := (@mem_live_records fs' dir k _).mpr ⟨hlt, hlive, rfl⟩
  rw [hunchanged.live_records, mem_live_records, hd.listed_record.end_index] at hmem
  exact absurd hmem.1 (not_lt.mpr hge)

end Written

section Create

/-- A search that does not come back without a file leaves no error to return. -/
theorem returns_of_found (hfound : ∀ fs', fs.find_by_name dir name ≠ .ok (none, fs')) :
    Meets (do
      match ← fs.find_by_name dir name with
      | (none, fs) => return (.error .CreateFileError, fs)
      | (some file, fs) =>
        match file_type with
        | .Dir => return (.ok file, ← fs.write_dots dir file)
        | .File => return (.ok file, fs)) (fun _ => True)
      fun r : Except DirError VirtFile × FileSystem => ∃ f, r.1 = .ok f := by
  cases hfind : fs.find_by_name dir name with
  | error e => exact trivial
  | ok r =>
    obtain ⟨option, fs'⟩ := r
    cases option with
    | none => exact absurd hfind (hfound fs')
    | some f =>
      cases file_type with
      | File => exact ⟨f, rfl⟩
      | Dir =>
        have hdots : Meets (fs'.write_dots dir f) (fun _ => True) fun _ => True := by
          cases fs'.write_dots dir f <;> exact trivial
        exact hdots.bind fun _ _ => ⟨f, rfl⟩

variable (h : Directory fs d dir clusters n) (hname : '\x00' ∉ name)
  (hreach : min (fs.create_need dir n name) fs.free_cluster_cnt ≤ (fs.reachable dir).card)

include h hname hreach

/-- The records are written, and a search finds them or what was there before. -/
theorem Directory.create_returns {option : Option VirtFile}
    (hfind : fs.find_by_name dir name = .ok (option, fs'))
    (hoption : ¬ option.any (·.attr = file_type)) (hfound : Findable name ∨ option ≠ none) :
    Meets (fs.create dir name file_type) (fun _ => True) fun r => ∃ f, r.1 = .ok f := by
  by_cases hsplit : long_name_split name = []
  · rw [FileSystem.create, hfind]
    simp only [bind, Except.bind]
    rw [if_neg hoption, if_pos hsplit]
    exact trivial
  have hlooked := (find_by_name_searched hfind).looked
  have h' := h.looked hlooked
  have hvec : fs'.cluster_vec dir = fs.cluster_vec dir := hlooked.chains _ h.lt
  have hreach' : min (fs'.create_need dir n name) fs'.free_cluster_cnt ≤
      (fs'.reachable dir).card := by
    rwa [create_need, need_cluster_cnt, reachable, hvec, hlooked.disk, hlooked.bpb,
      hlooked.free_cluster_cnt, hlooked.recycled_cluster]
  apply h'.owned.create_meets h'.ne_nil h'.listed hsplit hreach' hfind hoption fun _ _ => trivial
  intro fs₁ d₁ added _ he _
  apply returns_of_found
  intro fs₂ hnone
  have hnone := (he.owned.find_by_name_none_iff h.is_dir hnone).mp rfl
  rw [he.beside.bpb] at hnone
  cases hlookup : lookup (d.record fs'.bpb.cluster_size clusters)
      (record_cnt fs'.bpb.cluster_size clusters) name with
  | none =>
    rw [hlooked.bpb] at hlookup
    have hoption_none := (h.owned.find_by_name_none_iff h.is_dir hfind).mpr hlookup
    exact he.records.lookup_ne_none hsplit (hfound.resolve_right fun hne => hne hoption_none) hnone
  | some k =>
    have hsome := h'.listed.lookup_some he.records.old
      (record_cnt_append_le fs'.bpb.cluster_size clusters added) hname hlookup
    cases hsome.symm.trans hnone

/-- The records of a name that cannot be found are written. -/
theorem Directory.create_fails (hsplit : long_name_split name ≠ [])
    (hlookup : lookup (d.record fs.bpb.cluster_size clusters)
      (record_cnt fs.bpb.cluster_size clusters) name = none) (hnot : ¬ Findable name) :
    Meets (fs.create dir name file_type) (fs.Full (fs.create_need dir n name)) fun r =>
      r.1 = .error .CreateFileError ∧ ∃ d' added,
        Entered fs r.2 d d' dir clusters added [] n name file_type := by
  apply h.owned.create_meets h.ne_nil h.listed hsplit hreach
    (h.owned.find_by_name_none h.is_dir hlookup) Bool.false_ne_true fun _ he => he
  intro fs₁ d₁ added _ he _
  have hnone := he.records.lookup_none h.listed hsplit hname hlookup hnot
  rw [← he.beside.bpb] at hnone
  rw [he.owned.find_by_name_none h.is_dir hnone]
  exact ⟨rfl, d₁, added, he⟩

omit hname in
/-- A name is not written that is empty, or for which the free count says that there is no room. -/
theorem Directory.create_stops
    (hlookup : lookup (d.record fs.bpb.cluster_size clusters)
      (record_cnt fs.bpb.cluster_size clusters) name = none)
    (hstop : name = [] ∨ fs.free_cluster_cnt < fs.create_need dir n name) :
    Meets (fs.create dir name file_type) (fun _ => True) fun r => ∃ f, r.1 = .ok f := by
  have hfind := h.owned.find_by_name_none h.is_dir hlookup
  by_cases hsplit : long_name_split name = []
  · rw [FileSystem.create, hfind]
    simp only [bind, Except.bind]
    rw [if_neg (by exact Bool.false_ne_true), if_pos hsplit]
    exact trivial
  · have hfull := hstop.resolve_left fun hnil => hsplit (by rw [hnil]; rfl)
    apply h.owned.create_meets h.ne_nil h.listed hsplit hreach hfind Bool.false_ne_true
      fun _ _ => trivial
    intro fs₁ d₁ added ha _ hlen
    have hcnt := ha.free_cluster_cnt
    omega

end Create

/-- `create` fails without an effect if and only if the name is there with its kind, or is not
there and can be found when it is written, or is not written. -/
theorem failsClean_iff (h : Directory fs d dir clusters n) (hname : '\x00' ∉ name)
    (hreach : min (fs.create_need dir n name) fs.free_cluster_cnt ≤ (fs.reachable dir).card) :
    fs.FailsClean dir name file_type ↔ fs.Foreseen dir name file_type := by
  rw [Foreseen]
  cases hfind : fs.find_by_name dir name with
  | error e =>
    have herror : fs.create dir name file_type = .error e := by
      rw [FileSystem.create, hfind]
      rfl
    refine iff_of_true ⟨fun _ _ hok => ?_, fun _ _ hok => ?_⟩ trivial
    · cases herror.symm.trans hok
    · cases hfind.symm.trans hok
  | ok r =>
    obtain ⟨option, fs₁⟩ := r
    cases option with
    | some f =>
      constructor
      · intro hclean
        by_contra hkind
        obtain ⟨e, fs', hok⟩ := hclean.exists_error f fs₁ hfind
        have hreturns := h.create_returns hname hreach hfind (by simpa using hkind)
          (.inr (Option.some_ne_none f))
        obtain ⟨f', hf'⟩ := hreturns.of_ok hok
        cases hf'
      · intro hkind
        have hexists : fs.create dir name file_type = .ok (.error .FileHasExist, fs₁) := by
          rw [FileSystem.create, hfind]
          simp only [bind, Except.bind]
          rw [if_pos (by simpa using hkind)]
          rfl
        refine ⟨fun e fs' hok => ?_, fun _ _ _ => ⟨_, _, hexists⟩⟩
        cases hexists.symm.trans hok
        exact Looked.unchanged (find_by_name_searched hfind).looked h.lt
    | none =>
      have hlookup := (h.owned.find_by_name_none_iff h.is_dir hfind).mp rfl
      rw [h.listed_record.end_index]
      constructor
      · intro hclean
        by_contra hnot
        obtain ⟨hnot, hne, hfree⟩ := not_or.mp hnot |>.imp_right not_or.mp
        have hsplit := long_name_split_ne_nil hne
        obtain ⟨⟨_, fs'⟩, hok, rfl, d', added, he⟩ :=
          ((h.create_fails hname hreach hsplit hlookup hnot).mono_error
            fun _ hfull => absurd hfull.2 hfree).exists_ok
        exact he.not_unchanged h hsplit (hclean.unchanged _ _ hok)
      · intro hforeseen
        have hreturns : Meets (fs.create dir name file_type) (fun _ => True)
            fun r => ∃ f, r.1 = .ok f := by
          obtain hfindable | hstop := hforeseen
          · exact h.create_returns hname hreach hfind Bool.false_ne_true (.inl hfindable)
          · exact h.create_stops hreach hlookup hstop
        refine ⟨fun e fs' hok => ?_, fun _ _ hok => ?_⟩
        · obtain ⟨f, hf⟩ := hreturns.of_ok hok
          cases hf
        · cases hfind.symm.trans hok

theorem failsClean_readme :
    blank_root.FailsClean root ['r', 'e', 'a', 'd', 'm', 'e', '.', 'm', 'd'] .File := by
  refine (failsClean_iff directory_blank_root (by decide)
    ((min_le_left ..).trans (space_blank_root .File (by decide)).reach)).mpr ?_
  rw [Foreseen, directory_blank_root.owned.find_by_name_none rfl (by decide +kernel)]
  exact .inl (by decide +kernel)

/-- A name with two dots leaves its long entry and its short entry behind. -/
theorem create_two_dots : Meets (blank_root.create root ['a', '.', 'b', '.', 'c'] .File)
    (fun _ => False) fun r => r.1 = .error .CreateFileError ∧
      (r.2.live_records root).length = (blank_root.live_records root).length + 2 := by
  decide +kernel

/-- A file that is created again as a directory. -/
theorem create_other_kind : Meets (blank_root.create root ['a'] .File) (fun _ => False) fun r =>
    Meets (r.2.find_by_name root ['a']) (fun _ => False) (fun found => found.1.isSome) ∧
      Meets (r.2.create root ['a'] .Dir) (fun _ => False) fun again => again.1.isOk := by
  decide +kernel

theorem not_failsClean :
    ¬ blank_root.FailsClean root ['a', '.', 'b', '.', 'c'] .File ∧
      ∃ f fs, blank_root.create root ['a'] .File = .ok (f, fs) ∧
        ¬ fs.FailsClean root ['a'] .Dir := by
  constructor
  · intro hclean
    obtain ⟨⟨_, fs'⟩, hok, rfl, hlen⟩ := create_two_dots.exists_ok
    rw [(hclean.unchanged _ _ hok).live_records] at hlen
    omega
  · obtain ⟨⟨f, fs⟩, hok, hfound, hagain⟩ := create_other_kind.exists_ok
    refine ⟨f, fs, hok, fun hclean => ?_⟩
    obtain ⟨⟨option, fs₁⟩, hfind, hsome⟩ := hfound.exists_ok
    obtain ⟨f₁, rfl⟩ := Option.isSome_iff_exists.mp hsome
    obtain ⟨e, fs₂, herror⟩ := hclean.exists_error f₁ fs₁ hfind
    cases hagain.of_ok herror

end FileSystem

end MyGOS.Fat32
