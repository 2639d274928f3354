import MyGOS.Mm.MappingRuns
import MyGOS.Mm.ForkLayout

/-!
# The resident pages of a range

The stack and the heap are large, and most of their pages are not mapped. Where
a third-level node is missing, none of the 512 pages below it is, so a loop that
passes over unmapped pages may leave out all of them. The runs on fixed inputs
are evaluated in this way.
-/

namespace MyGOS.Mm

open Outcome

/-- The pages from `start` to `stop` below a node that is there. -/
def PageTable.near (pt : PageTable) : Nat → Nat → Nat → List Nat
  | 0, start, stop => List.range' start (stop - start)
  | fuel + 1, start, stop =>
    if stop ≤ start then []
    else
      let next := min stop ((start / 2 ^ 9 + 1) * 2 ^ 9)
      if (pt.tab (tab_index start)).isSome then
        List.range' start (next - start) ++ pt.near fuel next stop
      else pt.near fuel next stop

/-- The mapped pages of a range. -/
def PageTable.resident (pt : PageTable) (r : VPNRange) : List Nat :=
  mapped_vpns pt (pt.near 1000 r.start r.end_)

section Resident

variable {pt : PageTable}

theorem mapped_vpns_near (fuel start stop : Nat) :
    mapped_vpns pt (pt.near fuel start stop) =
      mapped_vpns pt (List.range' start (stop - start)) := by
  induction fuel generalizing start with
  | zero => rfl
  | succ fuel ih =>
    rw [PageTable.near]
    split
    · next hle => rw [Nat.sub_eq_zero_of_le hle, List.range'_zero]
    · next hlt =>
      dsimp only
      have hnext : start ≤ min stop ((start / 2 ^ 9 + 1) * 2 ^ 9) := by omega
      generalize hn : min stop ((start / 2 ^ 9 + 1) * 2 ^ 9) = next at hnext
      have hcut : List.range' start (stop - start) =
          List.range' start (next - start) ++ List.range' next (stop - next) := by
        have h := @List.range'_append_1 start (next - start) (stop - next)
        rw [Nat.add_sub_cancel' hnext] at h
        rw [h]
        congr 1
        omega
      have happend (l l' : List Nat) :
          mapped_vpns pt (l ++ l') = mapped_vpns pt l ++ mapped_vpns pt l' := List.filter_append ..
      rw [hcut, happend, ← ih next]
      split
      · exact happend _ _
      · next htab =>
        -- all pages before `next` have the third-level node of `start`
        have hempty : mapped_vpns pt (List.range' start (next - start)) = [] := by
          refine List.filter_eq_nil_iff.mpr fun v hv => ?_
          obtain ⟨hge, hv⟩ := List.mem_range'_1.mp hv
          have hsame : tab_index v = tab_index start := by
            unfold tab_index index
            omega
          rw [PageTable.find_pte, if_neg]
          · exact Bool.false_ne_true
          · rw [hsame]
            exact fun h => htab h.2.1
        rw [hempty, List.nil_append]

theorem mapped_vpns_resident (r : VPNRange) : mapped_vpns pt r.vpns = pt.resident r :=
  (mapped_vpns_near 1000 r.start r.end_).symm

theorem mapped_keys_resident (r : VPNRange) :
    mapped_keys pt r.vpns = (pt.resident r).map index := by
  rw [mapped_keys, mapped_vpns_resident]

theorem mapped_ppns_mapped (vpns : List Nat) :
    mapped_ppns pt vpns = mapped_ppns pt (mapped_vpns pt vpns) := by
  induction vpns with
  | nil => rfl
  | cons v vpns ih =>
    cases hv : pt.find_pte v with
    | none => rw [mapped_ppns_cons_none hv, ih, mapped_vpns, mapped_vpns,
        List.filter_cons_of_neg (by simp [hv])]
    | some pte => rw [mapped_ppns_cons_some hv, ih, mapped_vpns, mapped_vpns,
        List.filter_cons_of_pos (by simp [hv]), mapped_ppns_cons_some hv]

theorem mapped_ppns_resident (r : VPNRange) :
    mapped_ppns pt r.vpns = mapped_ppns pt (pt.resident r) := by
  rw [mapped_ppns_mapped, mapped_vpns_resident]

end Resident

namespace CowState

variable {s s' : CowState} {vpn : Nat}

/-- No page of the parent becomes mapped, and none unmapped. -/
theorem track_lazy_mapped (h : s.track_lazy vpn = .ok s') (vpns : List Nat) :
    mapped_vpns s'.parent vpns = mapped_vpns s.parent vpns := by
  unfold track_lazy at h
  split at h
  · cases h
    rfl
  · next pte hpte =>
    obtain ⟨s₁, hshare, h⟩ := bind_eq_ok.mp h
    obtain ⟨⟨frame, ph₁⟩, _, h⟩ := bind_eq_ok.mp h
    obtain ⟨⟨m, ph₂⟩, _, h⟩ := bind_eq_ok.mp h
    cases h
    have hentered := (share_page_entered hpte hshare).1
    refine List.filter_congr fun v _ => ?_
    rw [hentered v]
    split
    · next heq =>
      have hv : s.parent.find_pte v = some pte := (PageTable.find_pte_congr _ heq).trans hpte
      rw [hv]
      rfl
    · rfl

theorem track_mapped_only (vpns : List Nat) (s : CowState) :
    vpns.foldlM track_lazy s = (mapped_vpns s.parent vpns).foldlM track_lazy s := by
  induction vpns generalizing s with
  | nil => rfl
  | cons v vpns ih =>
    cases hv : s.parent.find_pte v with
    | none =>
      have hskip : s.track_lazy v = .ok s := by
        have htranslate : s.parent.translate v = none := hv
        rw [track_lazy, htranslate]
      rw [List.foldlM_cons, hskip, mapped_vpns, List.filter_cons_of_neg (by simp [hv])]
      exact ih s
    | some pte =>
      rw [List.foldlM_cons, mapped_vpns, List.filter_cons_of_pos (by simp [hv]), List.foldlM_cons]
      cases hs : s.track_lazy v with
      | error e => rfl
      | ok s' =>
        have hmapped := track_lazy_mapped hs vpns
        exact (ih s').trans (by rw [hmapped]; rfl)

def copy_resident (s : CowState) (area : VmArea) : Except Panic (CowState × VmArea) := do
  let s ← (s.parent.resident area.vpn_range).foldlM track_lazy { s with frame_map := ∅ }
  return (s, { VmArea.from_another area with frame_map := s.frame_map })

theorem copy_lazy_area_eq : copy_lazy_area = copy_resident := by
  funext s area
  rw [copy_lazy_area, copy_resident, track_mapped_only, mapped_vpns_resident]

end CowState

namespace MemorySet

def fork_resident (text : KernelImage) (user_space : MemorySet) (ph : Phys) :
    Except Panic (MemorySet × MemorySet × Phys) := do
  let (ms, ph) ← new_bare ph
  let (ms, ph) ← ms.map_trampoline text ph
  let (ms, ph) ← ms.map_signal_trampoline text ph
  let s : CowState := ⟨user_space.page_table, ms.page_table, ph, ∅⟩
  let (s, map_areas) ← user_space.map_areas.foldlM CowState.copy_area (s, [])
  let (mmap_manager, ph) ← user_space.mmap_manager.clone s.ph
  let s ← user_space.mmap_manager.mmap_map.toList.foldlM CowState.share_mmap { s with ph := ph }
  let (s, user_stack_areas) ← s.copy_resident user_space.user_stack_areas
  let (s, heap_areas) ← s.copy_resident user_space.heap_areas
  let s ← user_space.shm_areas.foldlM CowState.copy_shm_area s
  return ({ user_space with page_table := s.parent },
    { page_table := s.child, map_areas, mmap_manager, heap_areas
      shm_areas := user_space.shm_areas.map VmArea.from_another
      shm_top := user_space.shm_top
      brk_start := user_space.brk_start
      brk := user_space.brk
      user_stack_areas
      user_stack_start := user_space.user_stack_start
      user_stack_end := user_space.user_stack_end }, s.ph)

theorem from_copy_on_write_eq : from_copy_on_write = fork_resident := by
  funext text ms ph
  rw [from_copy_on_write, fork_resident, CowState.copy_lazy_area_eq]

def resident_shares (ms : MemorySet) : Multiset Nat :=
  area_ppns ms.page_table ms.map_areas + ms.mmap_manager.frame_map.owned +
    mapped_ppns ms.page_table (ms.page_table.resident ms.user_stack_areas.vpn_range) +
    mapped_ppns ms.page_table (ms.page_table.resident ms.heap_areas.vpn_range)

theorem cow_shares_eq : cow_shares = resident_shares := by
  funext ms
  rw [cow_shares, mapped_ppns_resident, mapped_ppns_resident, resident_shares]

def resident_keys (ms : MemorySet) : List Nat :=
  [index (floor TRAMPOLINE), index (floor SIGNAL_TRAMPOLINE)] ++ ms.map_areas.flatMap area_keys ++
    ms.valid_keys ++ (ms.page_table.resident ms.user_stack_areas.vpn_range).map index ++
    (ms.page_table.resident ms.heap_areas.vpn_range).map index

theorem cow_keys_eq : cow_keys = resident_keys := by
  funext ms
  rw [cow_keys, stack_keys, heap_keys, mapped_keys_resident, mapped_keys_resident, resident_keys]

end MemorySet

namespace Machine

def step_resident (m : Machine) : MachineOp → Except Panic Machine
  | .fork pid => do
    let ms ← m.space pid
    let (parent, child, ph) ← ms.fork_resident m.text m.ph
    let m := m.put pid (parent, ph)
    return { m with spaces := m.spaces ++ [some child] }
  | op => m.step op

theorem step_eq : step = step_resident := by
  funext m op
  cases op with
  | fork pid => rw [step, step_resident, MemorySet.from_copy_on_write_eq]
  | _ => rfl

end Machine

end MyGOS.Mm
