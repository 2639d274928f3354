import MyGOS.Fat32.Cache

/-!
# The block cache refines an array of blocks

`Refines` relates the cache with its device to the array: each handle's object
is the one the LRU map holds for its block. It is kept by every step that evicts
no entry a client still has a handle to, as when no handle is out.
-/

namespace MyGOS.Fat32

open StepSystem

/-- Cached blocks have their content in the cache, clean and uncached ones on the device. -/
structure Refines (s : CacheState) (a : BlockArray) : Prop where
  fresh : ∀ id arc, s.lru.lookup id = some arc → arc < s.next
  named : ∀ id arc, s.lru.lookup id = some arc → (s.heap arc).block_id = id
  cached : ∀ id arc, s.lru.lookup id = some arc → (s.heap arc).cache = a.blocks id
  clean : ∀ id arc, s.lru.lookup id = some arc → (s.heap arc).modified = false →
    s.device id = a.blocks id
  uncached : ∀ id, s.lru.lookup id = none → s.device id = a.blocks id
  handles : List.Forall₂ (fun arc id => s.lru.lookup id = some arc) s.handles a.handles
  len_le : s.lru.len ≤ BLOCK_CACHE_LIMIT

namespace Refines

variable {s : CacheState} {a : BlockArray} {id id' arc : Nat}

theorem new (device : BlockDevice) : Refines (.new device) ⟨device, []⟩ where
  fresh id arc h := by simp [CacheState.new] at h
  named id arc h := by simp [CacheState.new] at h
  cached id arc h := by simp [CacheState.new] at h
  clean id arc h := by simp [CacheState.new] at h
  uncached _ _ := rfl
  handles := List.Forall₂.nil
  len_le := by simp [CacheState.new, LruMap.len]

theorem inj (h : Refines s a) (hid : s.lru.lookup id = some arc)
    (hid' : s.lru.lookup id' = some arc) : id = id' :=
  (h.named id arc hid).symm.trans (h.named id' arc hid')

theorem handle_ok (h : Refines s a) {i : Nat} (hi : s.handle i = .ok arc) :
    ∃ id, a.handle i = .ok id ∧ s.lru.lookup id = some arc := by
  unfold CacheState.handle at hi
  split at hi
  · rename_i arc' harc
    cases hi
    obtain ⟨hlt, rfl⟩ := List.getElem?_eq_some_iff.mp harc
    have hlt' : i < a.handles.length := h.handles.length_eq ▸ hlt
    refine ⟨a.handles[i], ?_, h.handles.get hlt hlt'⟩
    simp [BlockArray.handle, List.getElem?_eq_getElem hlt']
  · cases hi

theorem handle_error (h : Refines s a) {i : Nat} {e : Panic} (hi : s.handle i = .error e) :
    a.handle i = .error e := by
  unfold CacheState.handle at hi
  split at hi
  · cases hi
  · rename_i harc
    cases hi
    have hle : a.handles.length ≤ i := h.handles.length_eq ▸ List.getElem?_eq_none_iff.mp harc
    simp [BlockArray.handle, List.getElem?_eq_none_iff.mpr hle]

/-- Writing a cached block back changes the device at that block only. -/
theorem device_sync (h : Refines s a) (hid : s.lru.lookup id = some arc) (id' : Nat) :
    (s.sync arc).device id' = if id' = id then a.blocks id else s.device id' := by
  show ((s.heap arc).sync s.device).2 id' = _
  unfold BlockCache.sync
  split
  · rw [h.named id arc hid, h.cached id arc hid]
    exact Function.update_apply _ _ _ _
  · rename_i hmod
    split
    · rename_i heq
      rw [heq]
      exact h.clean id arc hid (by simpa using hmod)
    · rfl

theorem heap_sync (s : CacheState) (arc arc' : Nat) :
    ((s.sync arc).heap arc').block_id = (s.heap arc').block_id ∧
      ((s.sync arc).heap arc').cache = (s.heap arc').cache ∧
      (arc' ≠ arc → ((s.sync arc).heap arc').modified = (s.heap arc').modified) := by
  show (Function.update s.heap arc ((s.heap arc).sync s.device).1 arc').block_id = _ ∧
    (Function.update s.heap arc ((s.heap arc).sync s.device).1 arc').cache = _ ∧ (_ →
    (Function.update s.heap arc ((s.heap arc).sync s.device).1 arc').modified = _)
  rcases eq_or_ne arc' arc with rfl | hne
  · rw [Function.update_self]
    unfold BlockCache.sync
    split <;> exact ⟨rfl, rfl, fun hne => absurd rfl hne⟩
  · rw [Function.update_of_ne hne]
    exact ⟨rfl, rfl, fun _ => rfl⟩

theorem drop_lru (s : CacheState) (arc : Nat) : (s.drop arc).lru = s.lru := by
  unfold CacheState.drop
  split <;> rfl

theorem drop_next (s : CacheState) (arc : Nat) : (s.drop arc).next = s.next := by
  unfold CacheState.drop
  split <;> rfl

theorem drop_handles (s : CacheState) (arc : Nat) : (s.drop arc).handles = s.handles := by
  unfold CacheState.drop
  split <;> rfl

theorem heap_drop (s : CacheState) (arc arc' : Nat) :
    ((s.drop arc).heap arc').block_id = (s.heap arc').block_id ∧
      ((s.drop arc).heap arc').cache = (s.heap arc').cache := by
  unfold CacheState.drop
  split
  · exact ⟨(heap_sync s arc arc').1, (heap_sync s arc arc').2.1⟩
  · exact ⟨rfl, rfl⟩

theorem sync (h : Refines s a) (hid : s.lru.lookup id = some arc) : Refines (s.sync arc) a where
  fresh := h.fresh
  named id' arc' hid' := (heap_sync s arc arc').1.trans (h.named id' arc' hid')
  cached id' arc' hid' := (heap_sync s arc arc').2.1.trans (h.cached id' arc' hid')
  clean id' arc' hid' hclean := by
    rw [h.device_sync hid]
    split
    · rename_i heq
      rw [heq]
    · rename_i hne
      have harc : arc' ≠ arc := by
        rintro rfl
        exact hne (h.inj hid' hid)
      exact h.clean id' arc' hid' (((heap_sync s arc arc').2.2 harc).symm.trans hclean)
  uncached id' hid' := by
    rw [h.device_sync hid]
    split
    · rename_i heq
      rw [heq]
    · exact h.uncached id' hid'
  handles := h.handles
  len_le := h.len_le

/-- The loop of `sync_all`, over any part of the entries. -/
theorem sync_entries (es : List (Sigma fun _ : Nat => Nat)) (h : Refines s a)
    (hes : ∀ e ∈ es, s.lru.lookup e.1 = some e.2) :
    let t := es.foldl (fun s e => s.sync e.2) s
    Refines t a ∧ t.lru = s.lru ∧ ∀ id, (s.device id = a.blocks id ∨ ∃ arc, ⟨id, arc⟩ ∈ es) →
      t.device id = a.blocks id := by
  induction es generalizing s with
  | nil => exact ⟨h, rfl, fun id hid => hid.elim (fun hid => hid) (by simp)⟩
  | cons e es ih =>
    have he := hes e List.mem_cons_self
    obtain ⟨ht, hlru, hdevice⟩ := ih (h.sync he) fun e' he' => hes e' (List.mem_cons_of_mem _ he')
    refine ⟨ht, hlru, fun id hid => hdevice id ?_⟩
    rw [h.device_sync he]
    split
    · rename_i heq
      exact Or.inl (by rw [heq])
    · rename_i hne
      refine hid.imp_right ?_
      rintro ⟨arc, hmem⟩
      rcases List.mem_cons.mp hmem with rfl | hmem
      · exact absurd rfl hne
      · exact ⟨arc, hmem⟩

/-- After `sync_all` the device is the array. -/
theorem sync_all (h : Refines s a) : Refines s.sync_all a ∧ s.sync_all.device = a.blocks := by
  obtain ⟨ht, _, hdevice⟩ := h.sync_entries s.lru.entries fun e => AList.mem_lookup_iff.mpr
  refine ⟨ht, funext fun id => hdevice id ?_⟩
  cases hid : s.lru.lookup id with
  | none => exact Or.inl (h.uncached id hid)
  | some arc => exact Or.inr ⟨arc, AList.mem_lookup_iff.mp hid⟩

/-- Entries hold different objects. -/
theorem nodup_values (h : Refines s a) : (s.lru.entries.map Sigma.snd).Nodup := by
  refine List.Nodup.map_on ?_ s.lru.nodupKeys.nodup
  rintro ⟨id, arc⟩ he ⟨id', arc'⟩ he' heq
  cases (heq : arc = arc')
  cases h.inj (AList.mem_lookup_iff.mpr he) (AList.mem_lookup_iff.mpr he')
  rfl

theorem strong_count_pos (s : CacheState) (hid : s.lru.lookup id = some arc) :
    0 < s.strong_count arc := by
  have hmem : arc ∈ s.lru.entries.map Sigma.snd :=
    List.mem_map.mpr ⟨⟨id, arc⟩, AList.mem_lookup_iff.mp hid, rfl⟩
  have hpos := List.count_pos_iff.mpr hmem
  unfold CacheState.strong_count
  omega

/-- With no handle out an entry is the only reference to its object. -/
theorem strong_count_eq_one (h : Refines s a) (hs : s.handles = [])
    (hid : s.lru.lookup id = some arc) : s.strong_count arc = 1 := by
  have hmem : arc ∈ s.lru.entries.map Sigma.snd :=
    List.mem_map.mpr ⟨⟨id, arc⟩, AList.mem_lookup_iff.mp hid, rfl⟩
  unfold CacheState.strong_count
  rw [hs, List.count_nil, List.count_eq_one_of_mem h.nodup_values hmem]

/-- An entry that is the only reference to its object has no handle. -/
theorem handle_ne (hone : s.strong_count arc = 1) (hid : s.lru.lookup id = some arc) :
    ∀ arc' ∈ s.handles, arc' ≠ arc := by
  rintro arc' hmem rfl
  have hpos := List.count_pos_iff.mpr (List.mem_map.mpr
    ⟨⟨id, arc'⟩, AList.mem_lookup_iff.mp hid, rfl⟩ : arc' ∈ s.lru.entries.map Sigma.snd)
  have hpos' := List.count_pos_iff.mpr hmem
  unfold CacheState.strong_count at hone
  omega

/-- Without handles nothing is pinned. -/
theorem unpinned (h : Refines s a) {op : CacheOp} (hop : s.Released op) : s.Unpinned op := by
  cases op with
  | get_block_cache id =>
    intro _ _ e he
    exact h.strong_count_eq_one hop (LruMap.lookup_peek_lru he)
  | read | modify | release | sync_all => trivial

/-- The handles name the same objects in another map that has their entries. -/
theorem handles_mono (h : Refines s a) {lru : LruMap Nat Nat}
    (hlookup : ∀ id arc, arc ∈ s.handles → s.lru.lookup id = some arc → lru.lookup id = some arc) :
    List.Forall₂ (fun arc id => lru.lookup id = some arc) s.handles a.handles := by
  have hhandles := h.handles
  generalize s.handles = handles, a.handles = ids at hhandles hlookup ⊢
  induction hhandles with
  | nil => exact List.Forall₂.nil
  | cons hid hrest ih =>
    refine List.Forall₂.cons (hlookup _ _ List.mem_cons_self hid) (ih ?_)
    exact fun id arc hmem => hlookup id arc (List.mem_cons_of_mem _ hmem)

/-- A new object is no entry's object. -/
theorem create (h : Refines s a) (id : Nat) : Refines (s.create id) a := by
  have hne : ∀ id' arc, s.lru.lookup id' = some arc →
      (s.create id).heap arc = s.heap arc := by
    intro id' arc hid'
    have hlt := h.fresh id' arc hid'
    exact Function.update_of_ne (by omega) _ _
  refine ⟨?_, ?_, ?_, ?_, h.uncached, h.handles, h.len_le⟩
  · intro id' arc hid'
    exact Nat.lt_succ_of_lt (h.fresh id' arc hid')
  · intro id' arc hid'
    exact (congrArg BlockCache.block_id (hne id' arc hid')).trans (h.named id' arc hid')
  · intro id' arc hid'
    exact (congrArg BlockCache.cache (hne id' arc hid')).trans (h.cached id' arc hid')
  · intro id' arc hid' hclean
    exact h.clean id' arc hid'
      ((congrArg BlockCache.modified (hne id' arc hid')).symm.trans hclean)

theorem heap_create (s : CacheState) (id : Nat) :
    (s.create id).heap s.next = .new id s.device := Function.update_self _ _ _

/-- Evicting the least recently used entry, with the write-back of its last reference. -/
theorem evict (h : Refines s a) {e : Sigma fun _ : Nat => Nat}
    (he : s.lru.peek_lru = some e) (hone : s.strong_count e.2 = 1) : Refines ({ s with lru := s.lru.pop_lru }.drop e.2) a := by
  have hid := LruMap.lookup_peek_lru he
  have hlookup : ∀ id arc, s.lru.pop_lru.lookup id = some arc →
      id ≠ e.1 ∧ s.lru.lookup id = some arc := by
    intro id arc
    rw [LruMap.lookup_pop_lru he]
    split
    · rintro ⟨⟩
    · rename_i hne
      exact fun hid' => ⟨hne, hid'⟩
  have hcount : { s with lru := s.lru.pop_lru }.strong_count e.2 = 0 := by
    have hcount := hone
    unfold CacheState.strong_count at hcount ⊢
    rw [LruMap.entries_pop_lru he] at hcount
    simp only [List.map_append, List.count_append, List.map_cons, List.map_nil,
      List.count_singleton_self] at hcount
    show (s.lru.pop_lru.entries.map Sigma.snd).count e.2 + s.handles.count e.2 = 0
    omega
  rw [CacheState.drop, if_pos hcount]
  have hsync := h.sync hid
  have hdevice := h.device_sync hid
  refine ⟨?_, ?_, ?_, ?_, ?_, ?_, ?_⟩
  · exact fun id arc h' => hsync.fresh id arc (hlookup id arc h').2
  · exact fun id arc h' => hsync.named id arc (hlookup id arc h').2
  · exact fun id arc h' => hsync.cached id arc (hlookup id arc h').2
  · exact fun id arc h' => hsync.clean id arc (hlookup id arc h').2
  · intro id h'
    refine (hdevice id).trans ?_
    split
    · rename_i heq
      rw [heq]
    · rename_i hne
      refine h.uncached id ?_
      have hpop : s.lru.pop_lru.lookup id = none := h'
      rwa [LruMap.lookup_pop_lru he, if_neg hne] at hpop
  · refine h.handles_mono fun id arc hmem hid' => ?_
    have hne : id ≠ e.1 := by
      rintro rfl
      exact handle_ne hone hid arc hmem (Option.some.inj (hid'.symm.trans hid))
    show s.lru.pop_lru.lookup id = some arc
    rw [LruMap.lookup_pop_lru he, if_neg hne]
    exact hid'
  · show s.lru.pop_lru.len ≤ _
    have hle := h.len_le
    rw [LruMap.len_pop_lru]
    omega

/-- Inserting the object of an uncached block. -/
theorem put (h : Refines s a) (hid : s.lru.lookup id = none)
    (hnext : arc < s.next) (hname : (s.heap arc).block_id = id)
    (hcache : (s.heap arc).cache = a.blocks id) (hlen : s.lru.len < BLOCK_CACHE_LIMIT) :
    Refines { s with lru := s.lru.put id arc } a := by
  have hdevice := h.uncached id hid
  have hlookup : ∀ P : Nat → Nat → Prop, P id arc →
      (∀ id' arc', s.lru.lookup id' = some arc' → P id' arc') →
      ∀ id' arc', (s.lru.put id arc).lookup id' = some arc' → P id' arc' := by
    intro P hnew hold id' arc' hid'
    rw [LruMap.lookup_put] at hid'
    split at hid'
    · rename_i heq
      cases hid'
      rwa [heq]
    · exact hold id' arc' hid'
  refine ⟨?_, ?_, ?_, ?_, ?_, ?_, ?_⟩
  · exact hlookup _ hnext h.fresh
  · exact hlookup _ hname h.named
  · exact hlookup _ hcache h.cached
  · exact hlookup _ (fun _ => hdevice) h.clean
  · intro id' hid'
    rw [LruMap.lookup_put] at hid'
    split at hid'
    · cases hid'
    · exact h.uncached id' hid'
  · refine h.handles_mono fun id' arc' _ hid' => ?_
    have hne : id' ≠ id := by
      rintro rfl
      cases hid'.symm.trans hid
    rw [LruMap.lookup_put, if_neg hne]
    exact hid'
  · show (s.lru.put id arc).len ≤ _
    rw [LruMap.len_put hid]
    omega

/-- Only the lookups of the map matter. -/
theorem congr_lru (h : Refines s a) {lru : LruMap Nat Nat}
    (hlookup : ∀ id, lru.lookup id = s.lru.lookup id) (hlen : lru.len ≤ s.lru.len) :
    Refines { s with lru := lru } a where
  fresh id arc hid := h.fresh id arc ((hlookup id).symm.trans hid)
  named id arc hid := h.named id arc ((hlookup id).symm.trans hid)
  cached id arc hid := h.cached id arc ((hlookup id).symm.trans hid)
  clean id arc hid := h.clean id arc ((hlookup id).symm.trans hid)
  uncached id hid := h.uncached id ((hlookup id).symm.trans hid)
  handles := by
    simp only [hlookup]
    exact h.handles
  len_le := Nat.le_trans hlen h.len_le

/-- The object a client gets is the map's one for its block. -/
theorem get_block_cache (h : Refines s a) (id : Nat) (hs : s.Unpinned (.get_block_cache id)) :
    ∃ arc t, s.get_block_cache id = .ok (arc, t) ∧ Refines t a ∧ t.lru.lookup id = some arc := by
  have hfst := LruMap.get_fst (m := s.lru) (k := id)
  have hsnd : ∀ id', (s.lru.get id).2.lookup id' = s.lru.lookup id' :=
    fun _ => LruMap.lookup_get
  have hlen := LruMap.len_get (m := s.lru) (k := id)
  unfold CacheState.get_block_cache
  split
  · rename_i arc lru hget
    rw [hget] at hfst hsnd hlen
    refine ⟨arc, _, rfl, h.congr_lru hsnd (Nat.le_of_eq hlen), ?_⟩
    exact (hsnd id).trans hfst.symm
  · rename_i lru hget
    rw [hget] at hfst
    have hid : s.lru.lookup id = none := hfst.symm
    have hcreate := h.create id
    have hname : ((s.create id).heap s.next).block_id = id := by
      rw [heap_create]
      rfl
    have hcache : ((s.create id).heap s.next).cache = a.blocks id := by
      rw [heap_create]
      exact h.uncached id hid
    dsimp only
    split
    · rename_i hfull
      have hfull : s.lru.len = BLOCK_CACHE_LIMIT := hfull
      obtain ⟨e, he⟩ := LruMap.exists_peek_lru (m := (s.create id).lru) (by
        show 0 < s.lru.len
        rw [hfull]
        decide)
      have hone : (s.create id).strong_count e.2 = 1 := hs hid hfull e he
      have hkeep := heap_drop { s.create id with lru := (s.create id).lru.pop_lru } e.2 s.next
      simp only [he, hone, if_true]
      refine ⟨_, _, rfl, (hcreate.evict he hone).put ?_ ?_ (hkeep.1.trans hname)
        (hkeep.2.trans hcache) ?_, ?_⟩
      · rw [drop_lru, LruMap.lookup_pop_lru he]
        exact ite_eq_left_iff.mpr fun _ => hid
      · rw [drop_next]
        exact Nat.lt_succ_self _
      · rw [drop_lru, LruMap.len_pop_lru]
        show s.lru.len - 1 < _
        rw [hfull]
        decide
      · rw [LruMap.lookup_put, if_pos rfl]
    · rename_i hfull
      have hfull : s.lru.len ≠ BLOCK_CACHE_LIMIT := hfull
      refine ⟨_, _, rfl, hcreate.put hid (Nat.lt_succ_self _) hname hcache ?_, ?_⟩
      · have hle := h.len_le
        show s.lru.len < _
        omega
      · rw [LruMap.lookup_put, if_pos rfl]

theorem modify (h : Refines s a) (hid : s.lru.lookup id = some arc) (c : Block) :
    Refines { s with heap := Function.update s.heap arc ⟨c, (s.heap arc).block_id, true⟩ }
      { a with blocks := Function.update a.blocks id c } where
  fresh := h.fresh
  named id' arc' hid' := by
    dsimp only
    rcases eq_or_ne arc' arc with rfl | hne
    · rw [Function.update_self]
      exact h.named id' arc' hid'
    · rw [Function.update_of_ne hne]
      exact h.named id' arc' hid'
  cached id' arc' hid' := by
    dsimp only
    rcases eq_or_ne arc' arc with rfl | hne
    · rw [h.inj hid' hid, Function.update_self, Function.update_self]
    · have hne' : id' ≠ id := by
        rintro rfl
        exact hne (Option.some.inj (hid'.symm.trans hid))
      rw [Function.update_of_ne hne, Function.update_of_ne hne']
      exact h.cached id' arc' hid'
  clean id' arc' hid' hclean := by
    dsimp only at hclean ⊢
    rcases eq_or_ne arc' arc with rfl | hne
    · rw [Function.update_self] at hclean
      cases hclean
    · have hne' : id' ≠ id := by
        rintro rfl
        exact hne (Option.some.inj (hid'.symm.trans hid))
      rw [Function.update_of_ne hne] at hclean
      rw [Function.update_of_ne hne']
      exact h.clean id' arc' hid' hclean
  uncached id' hid' := by
    have hne' : id' ≠ id := by
      rintro rfl
      exact absurd (hid'.symm.trans hid) (by simp)
    dsimp only
    rw [Function.update_of_ne hne']
    exact h.uncached id' hid'
  handles := h.handles
  len_le := h.len_le

theorem release (h : Refines s a) (i : Nat) (hid : s.lru.lookup id = some arc) :
    Refines ({ s with handles := s.handles.eraseIdx i }.drop arc)
      { a with handles := a.handles.eraseIdx i } := by
  have hpos := strong_count_pos { s with handles := s.handles.eraseIdx i } hid
  rw [CacheState.drop, if_neg (by omega)]
  refine ⟨h.fresh, h.named, h.cached, h.clean, h.uncached, ?_, h.len_le⟩
  simp only [List.eraseIdx_eq_take_drop_succ]
  exact List.rel_append (List.forall₂_take i h.handles) (List.forall₂_drop (i + 1) h.handles)

/-- One step of the cache is one step of the array. -/
theorem step (h : Refines s a) (op : CacheOp) (hop : s.Unpinned op) :
    Follows (fun _ => False) Refines (s.step op) (a.step op) := by
  cases op with
  | get_block_cache id =>
    obtain ⟨arc, t, hget, ht, hid⟩ := h.get_block_cache id hop
    rw [CacheState.step, hget]
    refine ⟨_, rfl, ht.fresh, ht.named, ht.cached, ht.clean, ht.uncached, ?_, ht.len_le⟩
    exact List.Forall₂.cons hid ht.handles
  | read i offset size =>
    simp only [CacheState.step, BlockArray.step]
    cases hi : s.handle i with
    | error e => exact Or.inr (by rw [h.handle_error hi]; rfl)
    | ok arc =>
      obtain ⟨id, ha, hid⟩ := h.handle_ok hi
      rw [ha]
      by_cases hrange : BlockCache.InRange offset size
      · simp only [bind, Except.bind, BlockCache.read, h.cached id arc hid, if_pos hrange]
        exact ⟨a, rfl, h⟩
      · simp only [bind, Except.bind, BlockCache.read, if_neg hrange]
        exact Or.inr rfl
  | modify i offset size f =>
    simp only [CacheState.step, BlockArray.step]
    cases hi : s.handle i with
    | error e => exact Or.inr (by rw [h.handle_error hi]; rfl)
    | ok arc =>
      obtain ⟨id, ha, hid⟩ := h.handle_ok hi
      rw [ha]
      by_cases hrange : BlockCache.InRange offset size
      · simp only [bind, Except.bind, BlockCache.modify, h.cached id arc hid, if_pos hrange]
        exact ⟨_, rfl, h.modify hid _⟩
      · simp only [bind, Except.bind, BlockCache.modify, if_neg hrange]
        exact Or.inr rfl
  | release i =>
    simp only [CacheState.step, BlockArray.step]
    cases hi : s.handle i with
    | error e => exact Or.inr (by rw [h.handle_error hi]; rfl)
    | ok arc =>
      obtain ⟨id, ha, hid⟩ := h.handle_ok hi
      rw [ha]
      exact ⟨_, rfl, h.release i hid⟩
  | sync_all => exact ⟨a, rfl, h.sync_all.1⟩

end Refines

/-- Reads of a run see what the array shows; a block that is not cached is up to date on the
device, so that it is loaded as it was last modified; `sync_all` makes the device the array. -/
def CacheState.RunRefines (device : BlockDevice) (ops : List CacheOp) : Prop :=
  match observe CacheState.step (.new device) ops with
  | .error e => observe BlockArray.step ⟨device, []⟩ ops = .error e
  | .ok (s, shown) => ∃ a, observe BlockArray.step ⟨device, []⟩ ops = .ok (a, shown) ∧
      (∀ id, s.lru.lookup id = none → s.device id = a.blocks id) ∧
      s.sync_all.device = a.blocks ∧ s.lru.len ≤ BLOCK_CACHE_LIMIT

/-- The runs along `Refines`. -/
theorem CacheState.runRefines {C : CacheState → CacheOp → Prop}
    (hC : ∀ s a op, Refines s a → C s op → s.Unpinned op) (device : BlockDevice)
    (ops : List CacheOp) (hops : Guarded (silent CacheState.step) C (.new device) ops) :
    CacheState.RunRefines device ops := by
  have hrun := Follows.observe (fun s a op h hop => Refines.step h op (hC s a op h hop))
    (Refines.new device) hops
  unfold CacheState.RunRefines
  cases hs : observe CacheState.step (.new device) ops with
  | error e =>
    rw [hs] at hrun
    exact hrun.resolve_left id
  | ok p =>
    rw [hs] at hrun
    obtain ⟨a, ha, h⟩ := hrun
    exact ⟨a, ha, h.uncached, h.sync_all.2, h.len_le⟩

theorem block_cache_refines (device : BlockDevice) (ops : List CacheOp)
    (hReleased : Guarded (silent CacheState.step) CacheState.Released (.new device) ops) :
    CacheState.RunRefines device ops :=
  CacheState.runRefines (fun _ _ _ h hop => h.unpinned hop) device ops hReleased

/-- A client that writes its number at the start of each of `n` blocks. -/
def writers (n : Nat) : List CacheOp :=
  (List.range n).flatMap fun id =>
    [.get_block_cache id, .modify 0 0 1 (fun _ _ => UInt8.ofNat id), .release 0]

theorem block_cache_refines_writers :
    CacheState.RunRefines (fun _ _ => 0) (writers 2 ++ [.get_block_cache 0, .read 0 0 1]) :=
  block_cache_refines _ _ (by decide)

end MyGOS.Fat32
