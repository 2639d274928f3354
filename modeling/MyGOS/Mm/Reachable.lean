import MyGOS.Mm.Forked
import MyGOS.Mm.LoadSteps
import MyGOS.Mm.UserCopySteps

/-!
# Invariants of the machine

`Books X m` is the ownership invariant with the trackers `X` of an address
space that is not in the table yet; `Cow X m` says that nobody can write to a
frame with several trackers. `Permits` and `PermitsCow` are the steps that keep
them.
-/

namespace MyGOS.Mm

open Outcome

namespace Machine

def owned_of : Option MemorySet → Multiset Nat
  | some ms => ms.owned
  | none => 0

def spaces_owned (spaces : List (Option MemorySet)) : Multiset Nat := (spaces.map owned_of).sum

def held_owned (m : Machine) : Multiset Nat := ↑(m.held.map FrameTracker.ppn)

/-- The frames with a tracker, once for each tracker. -/
def live (m : Machine) : Multiset Nat := spaces_owned m.spaces + m.held_owned

/-- Those of everybody but `pid`. -/
def others (m : Machine) (pid : Nat) : Multiset Nat :=
  spaces_owned (m.spaces.set pid none) + m.held_owned

theorem spaces_owned_set (spaces : List (Option MemorySet)) :
    ∀ {pid : Nat} (s : Option MemorySet), pid < spaces.length →
      spaces_owned (spaces.set pid s) = owned_of s + spaces_owned (spaces.set pid none) := by
  induction spaces with
  | nil =>
    intro pid s h
    cases h
  | cons t spaces ih =>
    intro pid s h
    cases pid with
    | zero => simp [spaces_owned, owned_of]
    | succ pid =>
      have hrest := ih s (Nat.lt_of_succ_lt_succ h)
      simp only [spaces_owned, List.set_cons_succ, List.map_cons, List.sum_cons] at hrest ⊢
      rw [hrest]
      ac_rfl

variable {m m' : Machine} {pid : Nat} {ms ms' : MemorySet} {ph' : Phys}

theorem lt_of_space (h : m.spaces[pid]? = some (some ms)) : pid < m.spaces.length :=
  (List.getElem?_eq_some_iff.mp h).1

theorem live_split (h : m.spaces[pid]? = some (some ms)) : m.live = ms.owned + m.others pid := by
  have hset : m.spaces = m.spaces.set pid (some ms) := by
    obtain ⟨hlt, heq⟩ := List.getElem?_eq_some_iff.mp h
    rw [← heq, List.set_getElem_self]
  rw [live, others, hset, spaces_owned_set m.spaces _ (lt_of_space h), ← hset, add_assoc]
  rfl

theorem others_put (m : Machine) (pid : Nat) (s : MemorySet × Phys) :
    (m.put pid s).others pid = m.others pid := by
  simp only [others, put, List.set_set]
  rfl

theorem space_put (h : m.spaces[pid]? = some (some ms)) (s : MemorySet × Phys) (q : Nat) :
    (m.put pid s).spaces[q]? = if q = pid then some (some s.1) else m.spaces[q]? := by
  simp only [put, List.getElem?_set]
  rcases eq_or_ne pid q with rfl | hne
  · simp [lt_of_space h]
  · simp [hne, hne.symm]

/-- The frames of another address space are others' frames. -/
theorem owned_le_others {q : Nat} {other : MemorySet} (h : m.spaces[q]? = some (some other))
    (hne : q ≠ pid) : other.owned ≤ m.others pid := by
  have hset : (m.spaces.set pid none)[q]? = some (some other) := by
    rw [List.getElem?_set, if_neg hne.symm]
    exact h
  obtain ⟨hlt, heq⟩ := List.getElem?_eq_some_iff.mp hset
  have hself : m.spaces.set pid none = (m.spaces.set pid none).set q (some other) := by
    rw [← heq, List.set_getElem_self]
  rw [others, hself, spaces_owned_set _ _ hlt, add_assoc]
  exact Multiset.le_add_right _ _

theorem space_meets (m : Machine) (pid : Nat) :
    Meets (m.space pid) (fun _ => True) fun ms => m.spaces[pid]? = some (some ms) := by
  unfold space
  split
  · assumption
  · trivial

end Machine

/-- The ownership invariant; `X` are the trackers of an address space outside of the table. -/
structure Books (X : Multiset Nat) (m : Machine) : Prop where
  owned : Owned m.ph.allocator (X + m.live)
  base : m.ph.allocator.base_num = m.text.ekernel
  tracked : ∀ (pid : Nat) (ms : MemorySet), m.spaces[pid]? = some (some ms) → Tracked m.text ms

/-- Nobody can write to a frame with several trackers. -/
structure Cow (X : Multiset Nat) (m : Machine) : Prop where
  shares : ∀ (pid : Nat) (ms : MemorySet), m.spaces[pid]? = some (some ms) → ms.Shares
  alone : ∀ (pid : Nat) (ms : MemorySet), m.spaces[pid]? = some (some ms) →
    ∀ v pte, ms.translate v = some pte → pte.writable = true → (X + m.live).count pte.ppn ≤ 1

section Steps

variable {X X' : Multiset Nat} {m m' : Machine} {pid : Nat} {ms ms' child : MemorySet} {ph' : Phys}

/-- Each mapped frame is a trampoline or owned, and trampolines are nobody's. -/
theorem Books.mapped (h : Books X m) (hms : m.spaces[pid]? = some (some ms)) {v : Nat}
    {pte : PageTableEntry} (hv : ms.translate v = some pte) :
    pte.ppn < m.text.ekernel ∨ pte.ppn ∈ ms.owned :=
  ((h.tracked pid ms hms).mapped_owned hv).imp_left IsTrampoline.lt

theorem Books.owned_split (h : Books X m) (hms : m.spaces[pid]? = some (some ms)) :
    Owned m.ph.allocator (ms.owned + (X + m.others pid)) := by
  have howned := h.owned
  rw [Machine.live_split hms, add_left_comm] at howned
  exact howned

/-- One address space is replaced by another one in the table. -/
theorem Books.put (h : Books X m) (hms : m.spaces[pid]? = some (some ms))
    (hT : Tracked m.text ms') (howned : Owned ph'.allocator (X' + (ms'.owned + m.others pid)))
    (hbase : ph'.allocator.base_num = m.ph.allocator.base_num) :
    Books X' (m.put pid (ms', ph')) where
  owned := by
    have hms' : (m.put pid (ms', ph')).spaces[pid]? = some (some ms') := by
      rw [Machine.space_put hms, if_pos rfl]
    rw [Machine.live_split hms', Machine.others_put]
    exact howned
  base := hbase.trans h.base
  tracked q ms₁ hq := by
    rw [Machine.space_put hms] at hq
    split at hq
    · cases hq
      exact hT
    · exact h.tracked q ms₁ hq

theorem Cow.put (hbooks : Books X m) (h : Cow X m) (hms : m.spaces[pid]? = some (some ms))
    (hshares : ms'.Shares)
    (halone : ∀ v pte, ms'.translate v = some pte → pte.writable = true →
      (X' + (ms'.owned + m.others pid)).count pte.ppn ≤ 1)
    (hothers : ∀ p, p ∈ m.others pid → (X + m.live).count p ≤ 1 →
      (X' + (ms'.owned + m.others pid)).count p ≤ 1)
    (hlow : ∀ p < m.text.ekernel, p ∉ X' + (ms'.owned + m.others pid)) :
    Cow X' (m.put pid (ms', ph')) := by
  have hms' : (m.put pid (ms', ph')).spaces[pid]? = some (some ms') := by
    rw [Machine.space_put hms, if_pos rfl]
  constructor
  · intro q ms₁ hq
    rw [Machine.space_put hms] at hq
    split at hq
    · cases hq
      exact hshares
    · exact h.shares q ms₁ hq
  · intro q ms₁ hq v pte hv hw
    rw [Machine.live_split hms', Machine.others_put]
    rw [Machine.space_put hms] at hq
    split at hq
    · cases hq
      exact halone v pte hv hw
    · rename_i hne
      have hone := h.alone q ms₁ hq v pte hv hw
      rcases hbooks.mapped hq hv with hlt | hmem
      · rw [Multiset.count_eq_zero.mpr (hlow _ hlt)]
        exact Nat.zero_le 1
      · exact hothers _ (Multiset.mem_of_le (Machine.owned_le_others hq hne) hmem) hone

/-- The step of one address space. -/
theorem Books.local_step (h : Books 0 m) (hms : m.spaces[pid]? = some (some ms))
    (hs : LocalStep m.text (m.others pid) ms m.ph ms' ph') : Books 0 (m.put pid (ms', ph')) :=
  h.put hms hs.tracked (by rw [zero_add]; exact hs.moves.owned) hs.moves.base

theorem Cow.local_step (hbooks : Books 0 m) (h : Cow 0 m) (hms : m.spaces[pid]? = some (some ms))
    (hs : LocalStep m.text (m.others pid) ms m.ph ms' ph') (hk : CowKept (m.others pid) ms ms') :
    Cow 0 (m.put pid (ms', ph')) := by
  have hlive : (0 + m.live : Multiset Nat) = ms.owned + m.others pid := by
    rw [zero_add, Machine.live_split hms]
  refine Cow.put hbooks h hms (hk.shares (h.shares pid ms hms)) ?_ ?_ ?_
  · intro v pte hv hw
    rw [zero_add]
    rcases hk.writes v pte hv hw with ⟨v₀, pte₀, hv₀, hw₀, heq⟩ | hone
    · have hone := h.alone pid ms hms v₀ pte₀ hv₀ hw₀
      rw [hlive, heq] at hone
      exact (hs.calm pte.ppn).trans (max_le hone (le_refl 1))
    · exact hone
  · intro p _ hone
    rw [hlive] at hone
    rw [zero_add]
    exact (hs.calm p).trans (max_le hone (le_refl 1))
  · intro p hp hmem
    rw [zero_add] at hmem
    have hle := hs.moves.owned.base_le hmem
    rw [hs.moves.base, hbooks.base] at hle
    omega

/-- What an address space outside of the table has to satisfy to enter it. -/
structure Fits (X : Multiset Nat) (ms : MemorySet) (m : Machine) : Prop where
  shares : ms.Shares
  alone : ∀ v pte, ms.translate v = some pte → pte.writable = true →
    (X + m.live).count pte.ppn ≤ 1

theorem live_append (m : Machine) (child : MemorySet) :
    Machine.live { m with spaces := m.spaces ++ [some child] } = child.owned + m.live := by
  simp only [Machine.live, Machine.spaces_owned, Machine.held_owned, List.map_append,
    List.sum_append, List.map_cons, List.map_nil, List.sum_cons, List.sum_nil, Machine.owned_of,
    add_zero]
  ac_rfl

theorem space_append {spaces : List (Option MemorySet)} {q : Nat}
    (h : (spaces ++ [some child])[q]? = some (some ms)) :
    spaces[q]? = some (some ms) ∨ ms = child := by
  rw [List.getElem?_append] at h
  split at h
  · exact Or.inl h
  · rw [List.getElem?_singleton] at h
    split at h
    · cases h
      exact Or.inr rfl
    · cases h

theorem Books.push (h : Books child.owned m) (hT : Tracked m.text child) :
    Books 0 { m with spaces := m.spaces ++ [some child] } where
  owned := by
    rw [zero_add, live_append]
    exact h.owned
  base := h.base
  tracked q ms hq := by
    rcases space_append hq with hq | rfl
    · exact h.tracked q ms hq
    · exact hT

theorem Cow.push (h : Cow child.owned m) (hfits : Fits child.owned child m) :
    Cow 0 { m with spaces := m.spaces ++ [some child] } where
  shares q ms hq := by
    rcases space_append hq with hq | rfl
    · exact h.shares q ms hq
    · exact hfits.shares
  alone q ms hq v pte hv hw := by
    rw [zero_add, live_append]
    rcases space_append hq with hq | rfl
    · exact h.alone q ms hq v pte hv hw
    · exact hfits.alone v pte hv hw

theorem Books.low (h : Books X m) {p : Nat} (hp : p < m.text.ekernel) : p ∉ X + m.live := by
  intro hmem
  have hle := h.owned.base_le hmem
  rw [h.base] at hle
  omega

/-- The old address space goes, and everything it owned with it. -/
theorem Books.replace {ph : Phys} (h : Books child.owned { m with ph := ph })
    (hT : Tracked m.text child) :
    Meets (m.replace pid (child, ph)) (fun _ => True) fun m' =>
      Books 0 m' ∧ (Cow child.owned { m with ph := ph } →
        Fits child.owned child { m with ph := ph } → Cow 0 m') := by
  refine (Machine.space_meets m pid).bind fun old hold => ?_
  have hold' : { m with ph := ph }.spaces[pid]? = some (some old) := hold
  refine ((MemorySet.drop_meets (h.tracked pid old hold').no_shm
    (h.owned_split hold')).mono_error fun _ _ => trivial).bind fun ph' hmoves => ?_
  have howned : Owned ph'.allocator (0 + (child.owned + { m with ph := ph }.others pid)) :=
    hmoves.owned
  have hlive : (0 + (child.owned + { m with ph := ph }.others pid) : Multiset Nat) ≤
      child.owned + { m with ph := ph }.live := by
    rw [zero_add, Machine.live_split hold']
    exact add_le_add_right (Multiset.le_add_left _ _) _
  refine ⟨h.put hold' hT howned hmoves.base, fun hcow hfits => ?_⟩
  refine Cow.put (m := { m with ph := ph }) h hcow hold' hfits.shares (fun v pte hv hw => ?_)
    (fun p _ hone => ?_) ?_
  · exact (Multiset.count_le_of_le _ hlive).trans (hfits.alone v pte hv hw)
  · exact (Multiset.count_le_of_le _ hlive).trans hone
  · exact fun p hp hmem => h.low hp (Multiset.mem_of_le hlive hmem)

/-- The parent after a fork, with the child still outside of the table. -/
theorem Books.fork {par : MemorySet} (h : Books 0 m) (hms : m.spaces[pid]? = some (some ms))
    (hf : Forked m.text (m.others pid) ms m.ph par child ph') :
    Books child.owned (m.put pid (par, ph')) ∧ Tracked m.text child ∧
      (Cow 0 m → Cow child.owned (m.put pid (par, ph')) ∧
        Fits child.owned child (m.put pid (par, ph'))) := by
  have hT := h.tracked pid ms hms
  have howned : Owned ph'.allocator (child.owned + (par.owned + m.others pid)) := by
    rw [hf.parent_owned']
    exact hf.owned
  have hbooks : Books child.owned (m.put pid (par, ph')) :=
    h.put hms (hf.parent_tracked hT) howned hf.base
  refine ⟨hbooks, hf.child_tracked hT, fun hcow => ?_⟩
  have hlive : (0 + m.live : Multiset Nat) = ms.owned + m.others pid := by
    rw [zero_add, Machine.live_split hms]
  have hlow : ∀ p < m.text.ekernel, p ∉ child.owned + (par.owned + m.others pid) := by
    intro p hp hmem
    have hle := howned.base_le hmem
    rw [hf.base, h.base] at hle
    omega
  -- the child has no tracker of a frame that somebody can write to
  have hzero (p : Nat) (hone : (ms.owned + m.others pid).count p ≤ 1) (hnot : p ∉ child.owned) :
      (child.owned + (par.owned + m.others pid)).count p ≤ 1 := by
    rwa [hf.parent_owned', Multiset.count_add, Multiset.count_eq_zero.mpr hnot, zero_add]
  refine ⟨Cow.put h hcow hms (hf.parent_shares (hcow.shares pid ms hms)) ?_ ?_ hlow,
    hf.child_shares h.base, fun v pte hv hw => ?_⟩
  · intro v pte hv hw
    obtain ⟨pte₀, hpte₀, heq, ⟨hmem, rfl⟩ | ⟨hmem, rfl⟩⟩ := hf.parent_pte hv
    · rw [PageTableEntry.writable_cowed] at hw
      cases hw
    · have hone := hcow.alone pid ms hms v pte hpte₀ hw
      rw [hlive] at hone
      refine hzero _ hone fun hchild => ?_
      rcases hT.mapped_owned hpte₀ with htramp | howned'
      · exact hlow _ htramp.lt (Multiset.mem_add.mpr (Or.inl hchild))
      · have htwo := hf.not_shared hT (hcow.shares pid ms hms) h.base hpte₀ hmem howned' hchild
        rw [Multiset.count_add] at hone
        omega
  · intro p hp hone
    rw [hlive] at hone
    refine hzero p hone fun hchild => ?_
    have hmem := hf.mem_owned hT h.base (Multiset.mem_add.mpr (Or.inr hp)) hchild
    have := Multiset.count_pos.mpr hmem
    have := Multiset.count_pos.mpr hp
    rw [Multiset.count_add] at hone
    omega
  · have hmem : index v ∉ ms.shared_keys := by
      intro hmem
      obtain ⟨pte₀, _, hpte, _⟩ := hf.child_shared v hmem
      cases hpte.symm.trans hv
      rw [PageTableEntry.writable_cowed] at hw
      cases hw
    have hfresh := hf.own_fresh h.base hv hmem
    have hms' : (m.put pid (par, ph')).spaces[pid]? = some (some par) := by
      rw [Machine.space_put hms, if_pos rfl]
    rw [Machine.live_split hms', Machine.others_put, hf.parent_owned', Multiset.count_add,
      Multiset.count_eq_zero.mpr hfresh]
    exact hf.extra.fresh _ hfresh

end Steps

end MyGOS.Mm
