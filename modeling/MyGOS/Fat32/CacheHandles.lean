import MyGOS.Fat32.CacheRefinement

/-!
# The block cache with handles held

Clients may keep what `get_block_cache` returned. As long as no miss on a full
cache meets a least recently used entry with a handle to it, each block has one
object and the cache still refines the array; otherwise the new object is
returned without being cached, and the next call makes another one.
-/

namespace MyGOS.Fat32

open Outcome StepSystem

namespace CacheState

/-- At most one live object for each block. -/
def OneLive (s : CacheState) : Prop :=
  ∀ arc arc', 0 < s.strong_count arc → 0 < s.strong_count arc' →
    (s.heap arc).block_id = (s.heap arc').block_id → arc = arc'

end CacheState

namespace Refines

variable {s t : CacheState} {a : BlockArray} {arc : Nat}

/-- A live object is an entry's object. -/
theorem exists_lookup (h : Refines s a) (hlive : 0 < s.strong_count arc) :
    ∃ id, s.lru.lookup id = some arc := by
  unfold CacheState.strong_count at hlive
  rcases Nat.eq_zero_or_pos (s.handles.count arc) with hzero | hpos
  · have hmem : arc ∈ s.lru.entries.map Sigma.snd := List.count_pos_iff.mp (by omega)
    obtain ⟨⟨id, arc'⟩, he, rfl⟩ := List.mem_map.mp hmem
    exact ⟨id, AList.mem_lookup_iff.mpr he⟩
  · obtain ⟨i, hi, rfl⟩ := List.getElem_of_mem (List.count_pos_iff.mp hpos)
    exact ⟨_, h.handles.get hi (h.handles.length_eq ▸ hi)⟩

theorem oneLive (h : Refines s a) : s.OneLive := by
  intro arc arc' hlive hlive' hsame
  obtain ⟨id, hid⟩ := h.exists_lookup hlive
  obtain ⟨id', hid'⟩ := h.exists_lookup hlive'
  rw [h.named id arc hid, h.named id' arc' hid'] at hsame
  rw [hsame] at hid
  exact Option.some.inj (hid.symm.trans hid')

/-- The step without what it shows. -/
theorem silent_step (h : Refines s a) {op : CacheOp} (hop : s.Unpinned op)
    (hs : silent CacheState.step s op = .ok t) : ∃ b, Refines t b := by
  obtain ⟨⟨t', shown⟩, hstep, rfl⟩ := map_eq_ok.mp hs
  have hfollows := h.step op hop
  rw [hstep] at hfollows
  obtain ⟨b, _, hb⟩ := hfollows
  exact ⟨b, hb⟩

end Refines

theorem held_handles_coherent (device : BlockDevice) (ops : List CacheOp)
    (hops : Guarded (silent CacheState.step) CacheState.Unpinned (.new device) ops) :
    (∀ s ∈ states (silent CacheState.step) (.new device) ops, s.OneLive) ∧
      CacheState.RunRefines device ops := by
  constructor
  · intro s hs
    obtain ⟨a, h⟩ := invariant (fun s => ∃ a, Refines s a)
      (fun s op t ⟨a, h⟩ hop hstep => h.silent_step hop hstep) ⟨_, Refines.new device⟩ hops s hs
    exact h.oneLive
  · exact CacheState.runRefines (fun _ _ _ _ hop => hop) device ops hops

/-- A client that fills the cache, with a handle to the first block held throughout. -/
def pinning : List CacheOp :=
  .get_block_cache 0 :: ((List.range 63).flatMap fun i => [.get_block_cache (i + 1), .release 0])

/-- A write through a handle to a block that was not cached is not seen by the next one. -/
theorem pinned_entry_splits : ∃ s, observe CacheState.step (.new fun _ _ => 0) (pinning ++
    [.get_block_cache 64, .modify 0 0 1 (fun _ _ => 1), .get_block_cache 64, .read 0 0 1]) =
      .ok (s, List.replicate 130 [] ++ [[0]]) ∧ ¬ s.OneLive := by
  obtain ⟨⟨s, shown⟩, hs, rfl, hlive, hlive', hsame⟩ :
      ∃ p, observe CacheState.step (.new fun _ _ => 0) (pinning ++ [.get_block_cache 64,
        .modify 0 0 1 (fun _ _ => 1), .get_block_cache 64, .read 0 0 1]) = .ok p ∧
        p.2 = List.replicate 130 [] ++ [[0]] ∧ 0 < p.1.strong_count 64 ∧
        0 < p.1.strong_count 65 ∧ (p.1.heap 64).block_id = (p.1.heap 65).block_id :=
    Meets.exists_ok (by decide +kernel)
  exact ⟨s, hs, fun hone => absurd (hone 64 65 hlive hlive' hsame) (by decide)⟩

/-- A held handle, and another block's write in between. -/
theorem held_handles_coherent_two :
    (∀ s ∈ states (silent CacheState.step) (.new fun _ _ => 0) [.get_block_cache 0,
      .get_block_cache 1, .modify 1 0 1 (fun _ _ => 1), .get_block_cache 0, .read 0 0 1],
        s.OneLive) ∧
      CacheState.RunRefines (fun _ _ => 0) [.get_block_cache 0, .get_block_cache 1,
        .modify 1 0 1 (fun _ _ => 1), .get_block_cache 0, .read 0 0 1] :=
  held_handles_coherent _ _ (by decide)

end MyGOS.Fat32
