import MyGOS.Fs.OpenRuns

/-!
# One inode for a path

The cache is keyed by the components of a path. A file that is open keeps the
inode of its path in the cache, so that two open files share an inode if and
only if they were opened at the same components. `find` does not distinguish
names by case, so that this is not one inode for a file.
-/

namespace MyGOS.Fs

open Fat32 Outcome StepSystem

namespace FsState

variable {s t : FsState} {path p : AbsolutePath} {a b h : Nat} {k : KFile}

theorem lookup_shrink (s : FsState) (p : AbsolutePath) : s.shrink.inode_cache.lookup p =
    (s.inode_cache.lookup p).filter fun a => ¬ s.strong_count a = 1 :=
  MapErase.lookup_erase_filter fun a => s.strong_count a = 1

/-- An inode in the cache on which a file is open has two references. -/
theorem strong_count_of_open (hk : s.kfile h = .ok k)
    (hp : s.inode_cache.lookup p = some k.inode) : s.strong_count k.inode ≠ 1 := by
  have hcache : k.inode ∈ s.inode_cache.entries.map Sigma.snd := MapErase.mem_values hp
  have hlookup : s.files.lookup h = some k := by
    unfold kfile at hk
    split at hk
    · next f hf =>
      cases hk
      exact hf
    · cases hk
  have hfile : k.inode ∈ s.files.entries.map fun e => e.2.inode :=
    List.mem_map.mpr ⟨⟨h, k⟩, MapErase.mem_entries_iff.mpr hlookup, rfl⟩
  have hc := List.count_pos_iff.mpr hcache
  have hf := List.count_pos_iff.mpr hfile
  unfold strong_count
  omega

/-- What is in the cache after an insertion. -/
theorem lookup_cache_insert (hb : (s.cache_insert path a).inode_cache.lookup p = some b) :
    (p = path ∧ b = a) ∨ (p ≠ path ∧ s.inode_cache.lookup p = some b) := by
  have hinsert : (s.inode_cache.insert path a).lookup p = some b := by
    unfold cache_insert at hb
    simp only at hb
    split at hb
    · rw [lookup_shrink, Option.filter_eq_some_iff] at hb
      exact hb.1
    · exact hb
  by_cases he : p = path
  · subst he
    rw [AList.lookup_insert] at hinsert
    exact .inl ⟨rfl, (Option.some.inj hinsert).symm⟩
  · rw [AList.lookup_insert_ne he] at hinsert
    exact .inr ⟨he, hinsert⟩

/-- The inodes of open files stay in the cache. -/
theorem lookup_cache_insert_of_open (hk : s.kfile h = .ok k)
    (hp : (s.inode_cache.insert path a).lookup p = some k.inode) :
    (s.cache_insert path a).inode_cache.lookup p = some k.inode := by
  unfold cache_insert
  simp only
  split
  · rw [lookup_shrink, Option.filter_eq_some_iff]
    refine ⟨hp, ?_⟩
    have hcount := strong_count_of_open (s := { s with inode_cache := s.inode_cache.insert path a })
      hk hp
    simpa using hcount
  · exact hp

/-- Each inode belongs to one path, where it is cached as long as a file is open on it. -/
structure Keyed (owner : Nat → AbsolutePath) (s : FsState) : Prop where
  cached : ∀ p a, s.inode_cache.lookup p = some a → owner a = p ∧ a < s.next_inode
  opened : ∀ h k, s.kfile h = .ok k → s.inode_cache.lookup k.path = some k.inode

namespace Keyed

variable {owner : Nat → AbsolutePath}

theorem new (fs : FileSystem) : Keyed owner (.new fs) where
  cached p a hp := by simp [FsState.new] at hp
  opened h k hk := by simp [FsState.new, kfile] at hk

theorem framed (hs : s.Keyed owner) (hf : Framed s t) : t.Keyed owner where
  cached p a hp := by
    rw [hf.inode_cache] at hp
    rw [hf.next_inode]
    exact hs.cached p a hp
  opened h k' hk' := by
    obtain ⟨k, hk, hi, hpath⟩ := hf.files h k' hk'
    rw [hf.inode_cache, hi, hpath]
    exact hs.opened h k hk

theorem add_kfile (hs : s.Keyed owner) (hk : s.inode_cache.lookup k.path = some k.inode) :
    (s.add_kfile k).Keyed owner where
  cached := hs.cached
  opened h k' hk' := by
    by_cases he : h = s.next_file
    · subst he
      cases (kfile_add_kfile_self s k).symm.trans hk'
      exact hk
    · rw [kfile_add_kfile_of_ne he] at hk'
      exact hs.opened h k' hk'

theorem create_page_cache (hs : s.Keyed owner) (a : Nat) :
    (s.create_page_cache_if_needed a).Keyed owner := by
  unfold create_page_cache_if_needed
  split
  · exact hs.framed (.set_page_cache ..)
  · exact hs

/-- A new inode goes to the path that was not in the cache. -/
theorem loaded (hs : s.Keyed owner) {fs : FileSystem} {file : VirtFile} {size : Nat}
    {k k' : KFile} (hnone : s.inode_cache.lookup path = none) (hk : k.NewOn path s.next_inode)
    (hk' : k'.NewOn path s.next_inode) :
    ((((s.load fs file size).add_kfile k).cache_insert path s.next_inode).set_kfile
      s.next_file k').Keyed (Function.update owner s.next_inode path) where
  cached p a hp := by
    obtain ⟨c, hc⟩ := cache_insert_eq ((s.load fs file size).add_kfile k) path s.next_inode
    have hnext : (((s.load fs file size).add_kfile k).cache_insert path s.next_inode).next_inode =
        s.next_inode + 1 := by
      rw [hc]
      rfl
    show _ ∧ a < (((s.load fs file size).add_kfile k).cache_insert path s.next_inode).next_inode
    rw [hnext]
    obtain ⟨rfl, rfl⟩ | ⟨_, hold⟩ := lookup_cache_insert hp
    · exact ⟨Function.update_self .., Nat.lt_succ_self _⟩
    · obtain ⟨howner, hlt⟩ := hs.cached p a hold
      exact ⟨by rwa [Function.update_of_ne hlt.ne], hlt.trans (Nat.lt_succ_self _)⟩
  opened h k₁ hk₁ := by
    show (((s.load fs file size).add_kfile k).cache_insert path s.next_inode).inode_cache.lookup
      k₁.path = _
    have hopen (hk₀ : s.kfile h = .ok k₁) (hne : h ≠ s.next_file) :
        ((s.load fs file size).add_kfile k).kfile h = .ok k₁ :=
      (kfile_add_kfile_of_ne (s := s.load fs file size) hne k).trans hk₀
    by_cases he : h = s.next_file
    · subst he
      cases (kfile_set_kfile ..).symm.trans hk₁
      rw [hk'.inode, hk'.path, ← hk.inode]
      apply lookup_cache_insert_of_open (kfile_add_kfile_self (s.load fs file size) k)
      rw [hk.inode, AList.lookup_insert]
    · rw [kfile_set_kfile_of_ne _ he, kfile_cache_insert,
        kfile_add_kfile_of_ne (s := s.load fs file size) he] at hk₁
      have hcached := hs.opened h k₁ hk₁
      have hne : k₁.path ≠ path := by
        rintro rfl
        rw [hnone] at hcached
        cases hcached
      apply lookup_cache_insert_of_open (hopen hk₁ he)
      rw [AList.lookup_insert_ne hne]
      exact hcached

theorem close (hs : s.Keyed owner) (ho : s.close h = .ok t) : t.Keyed owner := by
  obtain ⟨k, _, ho⟩ := bind_eq_ok.mp ho
  cases ho
  constructor
  · exact hs.cached
  · intro h' k' hk'
    have hne : h' ≠ h := by
      rintro rfl
      simp [kfile] at hk'
    apply hs.opened h' k'
    simpa [kfile, AList.lookup_erase_ne hne] using hk'

theorem opening (hs : s.Keyed owner) {r : Except Errno Nat × FsState} (ho : Opening s path r) :
    ∃ owner', r.2.Keyed owner' := by
  cases ho with
  | cached a k hc hk =>
    have hcached : (s.create_page_cache_if_needed a).inode_cache.lookup k.path = some k.inode := by
      rw [hk.path, hk.inode]
      unfold create_page_cache_if_needed
      split
      · exact hc
      · exact hc
    exact ⟨owner, (hs.create_page_cache a).add_kfile hcached⟩
  | loaded fs file size k k' hnone hsize hk hk' => exact ⟨_, hs.loaded hnone hk hk'⟩
  | failed e fs hnone => exact ⟨owner, hs.cached, hs.opened⟩

theorem step (hs : s.Keyed owner) {op : FsOp} (ho : s.step op = .ok t) :
    ∃ owner', t.Keyed owner' := by
  cases op with
  | open_path path flags =>
    obtain ⟨r, hr, rfl⟩ := map_eq_ok.mp ho
    exact hs.opening (open_path_opening hr)
  | close h => exact ⟨owner, hs.close ho⟩
  | seek h offset =>
    obtain ⟨k, hk, ho⟩ := bind_eq_ok.mp ho
    cases ho
    exact ⟨owner, hs.framed (.set_kfile hk offset)⟩
  | transfer op =>
    obtain ⟨r, hr, rfl⟩ := map_eq_ok.mp ho
    exact ⟨owner, hs.framed (transfer_framed hr)⟩

/-- Two open files have the same inode if and only if they have the same path. -/
theorem inode_eq_iff (hs : s.Keyed owner) {h₁ h₂ : Nat} {k₁ k₂ : KFile}
    (hk₁ : s.kfile h₁ = .ok k₁) (hk₂ : s.kfile h₂ = .ok k₂) :
    k₁.inode = k₂.inode ↔ k₁.path = k₂.path := by
  have hc₁ := hs.opened h₁ k₁ hk₁
  have hc₂ := hs.opened h₂ k₂ hk₂
  constructor
  · intro hi
    rw [← (hs.cached _ _ hc₁).1, ← (hs.cached _ _ hc₂).1, hi]
  · intro hp
    rw [hp, hc₂] at hc₁
    exact (Option.some.inj hc₁).symm

end Keyed

/-- In every state of every run, files that are open share an inode, and with it the page cache,
if and only if they were opened at the same components. -/
theorem share_inode_iff (fs : FileSystem) (ops : List FsOp) :
    ∀ t ∈ states step (new fs) ops, ∀ h₁ h₂ k₁ k₂, t.kfile h₁ = .ok k₁ → t.kfile h₂ = .ok k₂ →
      (k₁.inode = k₂.inode ↔ k₁.path = k₂.path) := by
  have hinv : ∀ t ∈ states step (new fs) ops, ∃ owner, t.Keyed owner :=
    invariant (C := fun _ _ => True) _ (fun s op t hs _ ho => hs.elim fun _ hs => hs.step ho)
      ⟨fun _ => [], Keyed.new fs⟩ (.of_forall (fun _ _ => trivial) ops _)
  intro t ht h₁ h₂ k₁ k₂ hk₁ hk₂
  obtain ⟨owner, hs⟩ := hinv t ht
  exact hs.inode_eq_iff hk₁ hk₂

theorem same_path_shares : ∃ fs t k₁ k₂, open_volume one_file = .ok fs ∧
    run step (new fs) [.open_path [['A']] 0, .open_path [['A']] 1] = .ok t ∧
    t.kfile 0 = .ok k₁ ∧ t.kfile 1 = .ok k₂ ∧ k₁.inode = k₂.inode := by
  have hrun : Meets (do
      let t ← run step (new (← open_volume one_file)) [.open_path [['A']] 0, .open_path [['A']] 1]
      return (← t.kfile 0, ← t.kfile 1)) (fun _ => False) fun (k₁, k₂) => k₁.path = k₂.path := by
    decide +kernel
  obtain ⟨⟨k₁, k₂⟩, hr, hpath⟩ := hrun.exists_ok
  obtain ⟨fs, hfs, hr⟩ := bind_eq_ok.mp hr
  obtain ⟨t, ht, hr⟩ := bind_eq_ok.mp hr
  obtain ⟨_, hk₁, hr⟩ := bind_eq_ok.mp hr
  obtain ⟨_, hk₂, hr⟩ := bind_eq_ok.mp hr
  cases hr
  exact ⟨fs, t, k₁, k₂, hfs, ht, hk₁, hk₂,
    (share_inode_iff fs _ t (mem_states_of_run ht) 0 1 k₁ k₂ hk₁ hk₂).mpr hpath⟩

/-- Opens a file by two names and writes through the first. -/
def two_names : List FsOp :=
  [.open_path [['A']] 0, .open_path [['a']] 0, .transfer (.pwrite 0 [[1]] 0)]

/-- What is at the paths of the two files, and what is read through the second. -/
def look_at_both (t : FsState) : Except FsPanic
    ((KFile × Except DirError VirtFile) × (KFile × Except DirError VirtFile) × List UInt8) := do
  let k₁ ← t.kfile 0
  let k₂ ← t.kfile 1
  let (found₁, _) ← t.fs.find root k₁.path
  let (found₂, _) ← t.fs.find root k₂.path
  let (bytes, _, _) ← t.pread 1 [1] 0
  return ((k₁, found₁), (k₂, found₂), bytes)

/-- The files have one directory entry and two inodes; the write is not read. -/
theorem names_by_case_do_not_share : ∃ fs t k₁ k₂ f₁ f₂, open_volume one_file = .ok fs ∧
    run step (new fs) two_names = .ok t ∧
    look_at_both t = .ok ((k₁, .ok f₁), (k₂, .ok f₂), []) ∧
    f₁.sde_pos = f₂.sde_pos ∧ k₁.inode ≠ k₂.inode := by
  have hrun : Meets (do look_at_both (← run step (new (← open_volume one_file)) two_names))
      (fun _ => False) fun (file₁, file₂, bytes) => file₁.1.inode ≠ file₂.1.inode ∧ bytes = [] ∧
        Meets file₁.2 (fun _ => False) fun f₁ => Meets file₂.2 (fun _ => False) fun f₂ =>
          f₁.sde_pos = f₂.sde_pos := by
    decide +kernel
  obtain ⟨⟨⟨k₁, found₁⟩, ⟨k₂, found₂⟩, bytes⟩, hr, hne, rfl, hfound⟩ := hrun.exists_ok
  obtain ⟨f₁, rfl, hfound⟩ : ∃ f₁, found₁ = .ok f₁ ∧ _ := hfound.exists_ok
  have hfound₂ : Meets found₂ (fun _ => False) fun f₂ => f₁.sde_pos = f₂.sde_pos := hfound
  obtain ⟨f₂, rfl, hpos⟩ := hfound₂.exists_ok
  obtain ⟨fs, hfs, hr⟩ := bind_eq_ok.mp hr
  obtain ⟨t, ht, hr⟩ := bind_eq_ok.mp hr
  exact ⟨fs, t, k₁, k₂, f₁, f₂, hfs, ht, hr, hpos, hne⟩

end FsState

end MyGOS.Fs
