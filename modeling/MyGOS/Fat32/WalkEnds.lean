import MyGOS.Fat32.Layout
import MyGOS.Fat32.Walkers

/-!
# Walks on a damaged table

The walks follow the entries of the FAT as they are. They look neither for a
cluster that they have seen nor for one outside of the volume.
-/

namespace MyGOS.Fat32

open Outcome

/-- The links from `s` lead to an end mark, over fewer than `n` more clusters, all with
numbers from 2 on. -/
def EndsWithin (next : Nat → Nat) (s n : Nat) : Prop :=
  ∃ clusters, Linked next (END_OF_CLUSTER ≤ ·) (s :: clusters) ∧ (∀ c ∈ s :: clusters, 2 ≤ c) ∧
    clusters.length < n

namespace FileSystem

/-- Each walk from `s` returns, and has seen no more clusters than the volume has. -/
structure WalksEnd (fs : FileSystem) (s : Nat) : Prop where
  generate : ∃ v, fs.generate (new_chain s) = .ok v ∧ v.length ≤ fs.bpb.data_cluster_cnt
  get_all_cluster_id : ∃ v, fs.get_all_cluster_id s = .ok v ∧ v.length ≤ fs.bpb.data_cluster_cnt
  cluster_chain_len : ∃ len, fs.cluster_chain_len s = .ok len ∧ len ≤ fs.bpb.data_cluster_cnt
  cluster_chain_tail : ∃ tail, fs.cluster_chain_tail s = .ok tail ∧
    fs.tail_walk fs.bpb.data_cluster_cnt s = .ok tail

variable {fs : FileSystem} {s c : Nat}

theorem get_next_cluster_eq_ok {o : Option Nat} (hentry : fs.fat_entry c = .ok (fs.next c))
    (h : fs.get_next_cluster c = .ok o) : 2 ≤ fs.next c ∧
      o = if END_OF_CLUSTER ≤ fs.next c then none else some (fs.next c) := by
  rcases Nat.lt_or_ge (fs.next c) 2 with hlt | h2
  · rw [get_next_cluster, hentry, ok_bind, if_pos hlt] at h
    cases h
  · rw [get_next_cluster_of_entry hentry h2] at h
    exact ⟨h2, (Except.ok.inj h).symm⟩

/-- A walk that returns has followed the links to an end mark. -/
theorem linked_of_walk_chain (hentry : ∀ c, fs.fat_entry c = .ok (fs.next c)) {fuel : Nat}
    {v : List Nat} (h : fs.walk_chain fuel c = .ok v) :
    ∃ clusters, Linked fs.next (END_OF_CLUSTER ≤ ·) (c :: clusters) ∧ (∀ x ∈ clusters, 2 ≤ x) ∧
      clusters.length + 1 = v.length := by
  induction fuel generalizing c v with
  | zero => cases h
  | succ fuel ih =>
    rw [walk_chain] at h
    obtain ⟨o, ho, h⟩ := bind_eq_ok.mp h
    obtain ⟨h2, rfl⟩ := get_next_cluster_eq_ok (hentry c) ho
    rcases Nat.lt_or_ge (fs.next c) END_OF_CLUSTER with hlt | hge
    · rw [if_neg (not_le.mpr hlt)] at h
      obtain ⟨rest, hrest, h⟩ := bind_eq_ok.mp h
      cases h
      obtain ⟨clusters, hlinked, hall, hlen⟩ := ih hrest
      refine ⟨fs.next c :: clusters, ⟨rfl, not_le.mpr hlt, hlinked⟩, fun x hx => ?_, ?_⟩
      · rcases List.mem_cons.mp hx with rfl | hx
        · exact h2
        · exact hall x hx
      · rw [List.length_cons, List.length_cons, hlen]
    · rw [if_pos hge] at h
      cases h
      exact ⟨[], hge, fun x hx => absurd hx List.not_mem_nil, rfl⟩

theorem two_le_of_cluster_chain_tail {tail : Nat} (h : fs.cluster_chain_tail s = .ok tail) :
    2 ≤ s := by
  rw [cluster_chain_tail] at h
  split at h
  · next h2 => exact h2
  · cases h

/-- Numbers below the end mark do not repeat in a chain, so that the walks do not run on. -/
theorem length_lt_walk_limit {next : Nat → Nat} {clusters : List Nat}
    (h : Linked next (END_OF_CLUSTER ≤ ·) (s :: clusters)) : clusters.length < WALK_LIMIT := by
  have hsub : clusters ⊆ List.range END_OF_CLUSTER := fun c hc =>
    List.mem_range.mpr (not_le.mp (h.not_stop_of_mem c hc))
  have hlen := (List.subperm_of_subset h.tail.nodup hsub).length_le
  rw [List.length_range] at hlen
  exact hlen.trans_lt (by decide)

/-- Exactly where the links end, all walks do. -/
theorem walksEnd_iff (hbytes : BLOCK_SIZE ∣ fs.bpb.byts_per_sec) (s : Nat) :
    fs.WalksEnd s ↔ EndsWithin fs.next s fs.bpb.data_cluster_cnt := by
  constructor
  · intro h
    obtain ⟨v, hv, hle⟩ := h.get_all_cluster_id
    obtain ⟨tail, htail, -⟩ := h.cluster_chain_tail
    obtain ⟨clusters, hlinked, hall, hlen⟩ := linked_of_walk_chain (fat_entry_of_dvd hbytes) hv
    refine ⟨clusters, hlinked, fun c hc => ?_, by omega⟩
    rcases List.mem_cons.mp hc with rfl | hc
    · exact two_le_of_cluster_chain_tail htail
    · exact hall c hc
  · rintro ⟨clusters, hlinked, hall, hlt⟩
    have hnext : ∀ x ∈ s :: clusters, fs.fat_entry x = .ok (fs.next x) :=
      fun x _ => fat_entry_of_dvd hbytes x
    have h2 : 2 ≤ s := hall s List.mem_cons_self
    have hge : ∀ x ∈ clusters, 2 ≤ x := fun x hx => hall x (List.mem_cons_of_mem _ hx)
    have hlimit := length_lt_walk_limit hlinked
    constructor
    · refine ⟨s :: clusters, ?_, hlt⟩
      rw [new_chain, if_pos h2, generate, List.getLast?_singleton]
      simp only [generate_rest_linked hnext hlinked (fat1_offset_dvd hbytes) hlimit, ok_bind]
      rfl
    · refine ⟨_, walk_chain_linked hnext hlinked hge hlimit, ?_⟩
      rw [List.length_map]
      exact hlt
    · refine ⟨_, len_walk_linked hnext hlinked hge hlimit 0, ?_⟩
      rw [Nat.zero_add]
      exact hlt
    · refine ⟨_, ?_, tail_walk_linked hnext hlinked hge hlt⟩
      rw [cluster_chain_tail, if_pos h2, tail_walk_linked hnext hlinked hge hlimit]

theorem walksEnd_two_clusters : two_clusters.WalksEnd 2 := by
  refine (walksEnd_iff (Nat.dvd_refl _) 2).mpr ⟨[3], walkable_two_clusters.linked, by decide, ?_⟩
  decide

/-- The entry of the cluster 2 is the cluster 2. -/
def own_successor : FileSystem := of_fat [0, 0, 0, 0, 0, 0, 0, 0, 2]

theorem not_walksEnd_own_successor : ¬∀ (fs : FileSystem) (s : Nat),
    BLOCK_SIZE ∣ fs.bpb.byts_per_sec → fs.WalksEnd s := by
  intro h
  obtain ⟨v, hv, -⟩ := (h own_successor 2 (Nat.dvd_refl _)).get_all_cluster_id
  obtain ⟨clusters, hlinked, -, -⟩ :=
    linked_of_walk_chain (fat_entry_of_dvd (Nat.dvd_refl _)) hv
  have hself : own_successor.next 2 = 2 := by decide +kernel
  cases clusters with
  | nil =>
    have hend : END_OF_CLUSTER ≤ own_successor.next 2 := hlinked
    rw [hself] at hend
    exact absurd hend (by decide)
  | cons c clusters =>
    obtain rfl : 2 = c := hself.symm.trans hlinked.1
    exact absurd List.mem_cons_self (List.nodup_cons.mp hlinked.nodup).1

end FileSystem

end MyGOS.Fat32
