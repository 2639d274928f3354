import MyGOS.Mm.MappingSafety

/-!
# Kernel writes to user buffers

A write through the direct mapping reaches the frames of the buffer as they
are, shared or not. Another process sees nothing of it exactly when it maps
none of these frames.
-/

namespace MyGOS.Mm

open Outcome StepSystem Machine

section Views

variable {text : KernelImage} {E : Multiset Nat} {ms ms' other : MemorySet} {ph ph' : Phys}
  {ptr len start end_ : Nat} {slices : List Slice}

/-- No page of `[start, end_)` maps a frame that `other` maps too. -/
def Unaliased (ms other : MemorySet) (start end_ : Nat) : Prop :=
  ∀ va, start ≤ va → va < end_ → ∀ pte, ms.translate (floor va) = some pte →
    ∀ v pte', other.translate v = some pte' → pte'.ppn ≠ pte.ppn

theorem view_eq {v i : Nat} {pte : PageTableEntry} (hi : i < PAGE_SIZE)
    (hv : other.translate v = some pte) :
    other.view ph (v * PAGE_SIZE + i) = some (ph.bytes pte.ppn i) := by
  have hfloor : floor (v * PAGE_SIZE + i) = v := by
    simp only [floor, PAGE_SIZE] at hi ⊢
    omega
  have hoffset : page_offset (v * PAGE_SIZE + i) = i := by
    simp only [page_offset, PAGE_SIZE] at hi ⊢
    omega
  rw [MemorySet.view, hfloor, hv, hoffset]
  rfl

/-- Writing the slices of a buffer that shares nothing with `other`. -/
theorem Unaliased.view (halias : Unaliased ms other start end_)
    (hstep : BufferStep text E ms ph ms' ph')
    (hbase : ph.allocator.base_num = text.ekernel)
    (hother : ∀ v pte, other.translate v = some pte → pte.ppn < text.ekernel ∨ pte.ppn ∈ E)
    (hcovered : ∀ ppn i, Covered slices ppn i ↔ Behind ms' start end_ ppn i)
    (data : List UInt8) : other.view (write_slices ph' slices data) = other.view ph := by
  funext va
  simp only [MemorySet.view]
  cases hv : other.translate (floor va) with
  | none => rfl
  | some pte' =>
    have hnot : ¬ Covered slices pte'.ppn (page_offset va) := by
      rw [hcovered]
      rintro ⟨va', hle, hlt, _, pte, hpte, heq⟩
      cases hold : ms.translate (floor va') with
      | some pte₀ =>
        cases (hstep.mapped _ _ hold).symm.trans hpte
        exact halias va' hle hlt pte hold _ pte' hv heq.symm
      | none =>
        -- mapped on the way, to a frame that nobody had
        obtain ⟨hE, hlow⟩ := hstep.fresh _ pte hpte hold
        rw [heq] at hE hlow
        rcases hother _ pte' hv with hlt' | hmem
        · omega
        · exact hE hmem
    have hquiet : ph'.bytes pte'.ppn = ph.bytes pte'.ppn := by
      apply hstep.quiet
      rw [hbase]
      exact (hother _ pte' hv).symm
    simp only [Option.map_some]
    rw [write_slices_outside hnot, hquiet]

/-- Some byte for the whole buffer changes what `other` sees, when they share a page. -/
theorem unaliased_of_view (hstep : BufferStep text E ms ph ms' ph')
    (hcovered : ∀ ppn i, Covered slices ppn i ↔ Behind ms' start end_ ppn i)
    {n : Nat} (hn : (slices.map Slice.len).sum ≤ n)
    (hview : ∀ c, other.view (write_slices ph' slices (List.replicate n c)) = other.view ph) :
    Unaliased ms other start end_ := by
  intro va hle hlt pte hpte v pte' hpte' heq
  have hi : page_offset va < PAGE_SIZE := Nat.mod_lt _ (by decide)
  have hcov : Covered slices pte'.ppn (page_offset va) := by
    rw [hcovered, heq]
    exact ⟨va, hle, hlt, rfl, pte, hstep.mapped _ _ hpte, rfl⟩
  have hsame (c : UInt8) : ph.bytes pte'.ppn (page_offset va) = c := by
    have hwritten := congrFun (hview c) (v * PAGE_SIZE + page_offset va)
    rw [view_eq hi hpte', view_eq hi hpte', write_slices_replicate hcov c hn] at hwritten
    exact (Option.some.inj hwritten).symm
  exact absurd ((hsame 0).symm.trans (hsame 1)) (by decide)

/-- `translated_mut` maps nothing, and its value lies in one page. -/
theorem translated_ref_covered {size ppn offset : Nat}
    (hpa : translated_ref ms ptr size = .ok (ppn, offset)) (q i : Nat) :
    Covered [⟨ppn, offset, size⟩] q i ↔
      Behind ms (virt_addr ptr) (virt_addr ptr + size) q i := by
  unfold translated_ref at hpa
  split at hpa
  · cases hpa
  · rename_i hsize
    have hoffset : page_offset (virt_addr ptr) = ptr % PAGE_SIZE := by
      simp only [page_offset, virt_addr, PAGE_SIZE]
      split <;> omega
    rw [PageTable.translate_va] at hpa
    cases hpte : ms.page_table.find_pte (floor (virt_addr ptr)) with
    | none =>
      rw [hpte] at hpa
      cases hpa
    | some pte =>
      rw [hpte] at hpa
      cases hpa
      have hpage (va : Nat) (hle : virt_addr ptr ≤ va) (hlt : va < virt_addr ptr + size) :
          floor va = floor (virt_addr ptr) ∧
            page_offset va = page_offset (virt_addr ptr) + (va - virt_addr ptr) := by
        simp only [floor, page_offset, PAGE_SIZE] at *
        omega
      constructor
      · rintro ⟨s, hs, rfl, hle, hlt⟩
        cases List.mem_singleton.mp hs
        dsimp only at hle hlt
        obtain ⟨va, hva⟩ : ∃ va, va = virt_addr ptr + (i - page_offset (virt_addr ptr)) := ⟨_, rfl⟩
        obtain ⟨hfloor, hoff⟩ := hpage va (by omega) (by omega)
        refine ⟨va, by omega, by omega, by omega, pte, ?_, rfl⟩
        rw [hfloor]
        exact hpte
      · rintro ⟨va, hle, hlt, rfl, pte', hpte', rfl⟩
        obtain ⟨hfloor, hoff⟩ := hpage va hle hlt
        rw [hfloor] at hpte'
        cases hpte.symm.trans hpte'
        refine ⟨_, List.mem_singleton_self _, rfl, ?_, ?_⟩
        · dsimp only
          omega
        · dsimp only
          omega

end Views

namespace Machine

variable {text : KernelImage} {r : Nat} {ops : List MachineOp} {m : Machine} {p q : Nat}
  {ms other : MemorySet}

/-- The kernel writes to `len` bytes at `ptr` of the process `p`, by one of the three helpers.
Whatever it writes, `q` reads the same as before, exactly when `q` maps no frame of the buffer. -/
theorem kernel_write_isolated_iff (hops : Guarded step Permits (boot text r) ops)
    (hm : m ∈ states step (boot text r) ops) (hne : p ≠ q)
    (hp : m.spaces[p]? = some (some ms)) (hq : m.spaces[q]? = some (some other)) (ptr len : Nat) :
    (∀ slices ms' ph', translated_bytes_buffer ms m.ph ptr len = .ok (slices, ms', ph') →
      ((∀ data, other.view (write_slices ph' slices data) = other.view m.ph) ↔
        Unaliased ms other (virt_addr ptr) (buffer_end ptr len))) ∧
    (∀ src s, src.length = len → copyout ms m.ph ptr src = .ok s →
      ((∀ src' s', src'.length = len → copyout ms m.ph ptr src' = .ok s' →
        other.view s'.2 = other.view m.ph) ↔
        Unaliased ms other (virt_addr ptr) (buffer_end ptr len))) ∧
    (∀ ppn offset, translated_ref ms ptr len = .ok (ppn, offset) →
      ((∀ data, other.view (write_slices m.ph [⟨ppn, offset, len⟩] data) = other.view m.ph) ↔
        Unaliased ms other (virt_addr ptr) (virt_addr ptr + len))) := by
  have hbooks := books_of_permits hops m hm
  have hT := hbooks.tracked p ms hp
  have howned : Owned m.ph.allocator (ms.owned + m.others p) := by
    have h := hbooks.owned_split hp
    rwa [zero_add] at h
  have hother (v : Nat) (pte : PageTableEntry) (hv : other.translate v = some pte) :
      pte.ppn < m.text.ekernel ∨ pte.ppn ∈ m.others p :=
    (hbooks.mapped hq hv).imp_right (Multiset.mem_of_le (owned_le_others hq hne.symm))
  refine ⟨fun slices ms' ph' hok => ?_, fun src s hlen hok => ?_, fun ppn offset hok => ?_⟩
  · obtain ⟨hstep, hcovered⟩ := (translated_bytes_buffer_meets hT howned ptr len).of_ok hok
    constructor
    · intro hview
      exact unaliased_of_view hstep hcovered (le_refl _) fun c => hview _
    · intro halias data
      exact halias.view hstep hbooks.base hother hcovered data
  · cases hbuffer : translated_bytes_buffer ms m.ph ptr len with
    | error e =>
      rw [copyout, hlen, hbuffer] at hok
      cases hok
    | ok t =>
      obtain ⟨slices, ms', ph'⟩ := t
      obtain ⟨hstep, hcovered⟩ := (translated_bytes_buffer_meets hT howned ptr len).of_ok hbuffer
      have hcopy (src' : List UInt8) (hlen' : src'.length = len) : copyout ms m.ph ptr src' =
          if slices.isEmpty ∨ len < (slices.map Slice.len).sum then .error .outOfBounds
          else .ok (ms', write_slices ph' slices src') := by
        rw [copyout, hlen', hbuffer]
        rfl
      rw [hcopy src hlen] at hok
      split at hok
      · cases hok
      · rename_i hfits
        constructor
        · intro hview
          have hsum : (slices.map Slice.len).sum ≤ len :=
            Nat.not_lt.mp fun hlt => hfits (Or.inr hlt)
          refine unaliased_of_view hstep hcovered hsum fun c => ?_
          refine hview (List.replicate len c) (ms', _) List.length_replicate ?_
          rw [hcopy _ List.length_replicate, if_neg hfits]
        · intro halias src' s' hlen' hok'
          rw [hcopy src' hlen', if_neg hfits] at hok'
          cases hok'
          exact halias.view hstep hbooks.base hother hcovered src'
  · have hcovered := translated_ref_covered hok
    constructor
    · intro hview
      exact unaliased_of_view (BufferStep.refl hT howned) hcovered (le_refl _) fun c => hview _
    · intro halias data
      exact halias.view (BufferStep.refl hT howned) hbooks.base hother hcovered data

/-- After a fork the child reads what the kernel wrote for the parent. -/
theorem kernel_write_leaks : ∃ m, run step (boot image 64) [.spawn one_page, .fork 0] = .ok m ∧
    ∃ parent child, m.spaces[0]? = some (some parent) ∧ m.spaces[1]? = some (some child) ∧
      ∃ slices ms' ph', translated_bytes_buffer parent m.ph 0x10000 1 = .ok (slices, ms', ph') ∧
        child.view (write_slices ph' slices [1]) ≠ child.view m.ph := by
  obtain ⟨m, hm, _, parent, hparent, child, hchild, hmeets⟩ := forked_page
  obtain ⟨⟨slices, ms', ph'⟩, hok, hne⟩ := hmeets.exists_ok
  exact ⟨m, hm, parent, child, Option.join_eq_some_iff.mp hparent,
    Option.join_eq_some_iff.mp hchild, slices, ms', ph', hok, fun h => hne (congrFun h _)⟩

/-- Two programs that are no forks of each other. -/
theorem kernel_write_isolated_spawned :
    ∃ m, run step (boot image 64) [.spawn one_page, .spawn one_page] = .ok m ∧
      ∃ ms other, m.spaces[0]? = some (some ms) ∧ m.spaces[1]? = some (some other) ∧
        ∃ slices ms' ph', translated_bytes_buffer ms m.ph 0x10000 8 = .ok (slices, ms', ph') ∧
          ((∀ data, other.view (write_slices ph' slices data) = other.view m.ph) ↔
            Unaliased ms other (virt_addr 0x10000) (buffer_end 0x10000 8)) := by
  obtain ⟨m, hm, ms, hms, other, hother, hmeets⟩ :
      ∃ m, run step (boot image 64) [.spawn one_page, .spawn one_page] = .ok m ∧
        ∃ ms ∈ m.spaces[0]?.join, ∃ other ∈ m.spaces[1]?.join,
          Meets (translated_bytes_buffer ms m.ph 0x10000 8) (fun _ => False) fun _ => True :=
    Meets.exists_ok (by decide +kernel)
  obtain ⟨⟨slices, ms', ph'⟩, hok, _⟩ := hmeets.exists_ok
  have hp := Option.join_eq_some_iff.mp hms
  have hq := Option.join_eq_some_iff.mp hother
  refine ⟨m, hm, ms, other, hp, hq, slices, ms', ph', hok, ?_⟩
  exact (kernel_write_isolated_iff (by decide +kernel) (mem_states_of_run hm) (by decide) hp hq
    0x10000 8).1 slices ms' ph' hok

end Machine

end MyGOS.Mm
