import MyGOS.Fs.Pages
import Mathlib.Data.List.GetD

/-!
# Dirty blocks keep what was written

The bytes of a dirty block are those of the last writes, whatever is on the
disk: a load does not touch the block, and a read does not look further.
-/

namespace MyGOS.Fs

open Fat32 Outcome FlatArray

namespace FilePage

variable {fs : FileSystem} {file : VirtFile} {page p : FilePage}

/-- A byte of a dirty block. -/
def dirty (page : FilePage) (j : Nat) : Option UInt8 :=
  if page.data_states (j / BLOCK_SIZE) = .Dirty then some (page.bytes j) else none

theorem dirty_eq_some {j : Nat} {b : UInt8} : page.dirty j = some b ↔
    page.data_states (j / BLOCK_SIZE) = .Dirty ∧ page.bytes j = b := by
  simp [dirty]

/-- The dirty bytes of `page` are those of `p`. -/
def Stays (page p : FilePage) : Prop := ∀ j b, page.dirty j = some b → p.dirty j = some b

theorem load_block_stays {idx : Nat} (ho : page.load_block fs file idx = .ok p) : page.Stays p := by
  unfold load_block at ho
  split at ho
  · next hunload =>
    obtain ⟨src, _, ho⟩ := bind_eq_ok.mp ho
    cases ho
    intro j b hj
    obtain ⟨hdirty, hb⟩ := dirty_eq_some.mp hj
    have hne : j / BLOCK_SIZE ≠ idx := by
      rintro rfl
      rw [hunload] at hdirty
      cases hdirty
    have hout : ¬ (idx * BLOCK_SIZE ≤ j ∧ j < idx * BLOCK_SIZE + BLOCK_SIZE) := by
      unfold BLOCK_SIZE at hne ⊢
      omega
    rw [dirty_eq_some]
    constructor
    · simpa [Function.update_of_ne hne] using hdirty
    · simpa [hout] using hb
  · cases ho
    exact fun _ _ h => h

theorem mark_block_stays {idx : Nat} (ho : page.mark_block fs file idx = .ok p) :
    page.Stays p ∧ p.data_states idx = .Dirty ∧
      ∀ k, page.data_states k = .Dirty → p.data_states k = .Dirty := by
  obtain ⟨q, hq, ho⟩ := bind_eq_ok.mp ho
  cases ho
  have hkept : ∀ k, q.data_states k = .Dirty →
      Function.update q.data_states idx .Dirty k = .Dirty := by
    intro k hk
    by_cases he : k = idx
    · rw [he, Function.update_self]
    · rwa [Function.update_of_ne he]
  refine ⟨?_, Function.update_self .., ?_⟩
  · intro j b hj
    obtain ⟨hdirty, hb⟩ := dirty_eq_some.mp (load_block_stays hq j b hj)
    exact dirty_eq_some.mpr ⟨hkept _ hdirty, hb⟩
  · intro k hk
    apply hkept
    have hstays := load_block_stays hq (k * BLOCK_SIZE) (page.bytes (k * BLOCK_SIZE))
    have hdiv : k * BLOCK_SIZE / BLOCK_SIZE = k := Nat.mul_div_cancel k (by decide)
    rw [dirty_eq_some, dirty_eq_some, hdiv] at hstays
    exact (hstays ⟨hk, rfl⟩).1

theorem write_stays {offset : Nat} {buf : List UInt8} (ho : page.write fs file offset buf = .ok p) :
    ∀ j b, (if offset ≤ j ∧ j < offset + buf.length then some (buf.getD (j - offset) 0)
      else page.dirty j) = some b → p.dirty j = some b := by
  unfold write at ho
  split at ho
  · cases ho
  · simp only at ho
    split at ho
    · cases ho
    · next hstop =>
      have hstop : min (offset + buf.length) PAGE_SIZE = offset + buf.length := by omega
      rw [hstop] at ho
      obtain ⟨q, hq, ho⟩ := bind_eq_ok.mp ho
      cases ho
      have hloop : page.Stays q ∧ ∀ k ∈ buffers offset (offset + buf.length),
          k ∈ ([] : List Nat) ∨ q.data_states k = .Dirty := by
        refine foldlM_ok (I := fun ks q => page.Stays q ∧
          ∀ k ∈ buffers offset (offset + buf.length), k ∈ ks ∨ q.data_states k = .Dirty) ?_
          ⟨fun _ _ h => h, fun k hk => .inl hk⟩ hq
        rintro k ks q₁ q₂ ⟨hstays, hall⟩ hmark
        obtain ⟨hstays', hk, hmono⟩ := mark_block_stays hmark
        refine ⟨fun j b h => hstays' j b (hstays j b h), fun k' hk' => ?_⟩
        obtain hmem | hdirty := hall k' hk'
        · obtain rfl | hmem := List.mem_cons.mp hmem
          · exact .inr hk
          · exact .inl hmem
        · exact .inr (hmono k' hdirty)
      intro j b hj
      rw [dirty_eq_some]
      split at hj
      · next hin =>
        have hblock := (hloop.2 _ (block_mem_buffers hin.1 hin.2)).resolve_left List.not_mem_nil
        exact ⟨hblock, (if_pos hin).trans (Option.some.inj hj)⟩
      · next hout =>
        obtain ⟨hdirty, hb⟩ := dirty_eq_some.mp (hloop.1 j b hj)
        exact ⟨hdirty, (if_neg hout).trans hb⟩

theorem read_stays {offset len : Nat} {r : List UInt8 × FilePage}
    (ho : page.read fs file offset len = .ok r) : page.Stays r.2 := by
  unfold read at ho
  split at ho
  · cases ho
  · simp only at ho
    split at ho
    · cases ho
    · obtain ⟨q, hq, ho⟩ := bind_eq_ok.mp ho
      cases ho
      exact foldlM_ok (I := fun _ q => page.Stays q)
        (fun _ _ _ _ hstays hload j b h => load_block_stays hload j b (hstays j b h))
        (fun _ _ h => h) hq

/-- A read of a range that is dirty does not load anything. -/
theorem read_dirty {offset len : Nat} {v : Nat → UInt8} (hpos : 0 < len)
    (hlen : offset + len ≤ PAGE_SIZE)
    (h : ∀ j, offset ≤ j → j < offset + len → page.dirty j = some (v j)) :
    page.read fs file offset len = .ok (slice v offset len, page) := by
  have hstop : min (offset + len) PAGE_SIZE = offset + len := Nat.min_eq_left hlen
  have hload : page.load_buffer_if_needed fs file offset (offset + len) = .ok page := by
    apply foldlM_eq_self
    intro k hk
    obtain ⟨hlo, hhi⟩ := mem_buffers hk
    -- the block holds a byte of the range
    obtain ⟨j, hj, hj', rfl⟩ : ∃ j, offset ≤ j ∧ j < offset + len ∧ j / BLOCK_SIZE = k := by
      refine ⟨max offset (k * BLOCK_SIZE), ?_, ?_, ?_⟩
      all_goals
        unfold BLOCK_SIZE at *
        omega
    have hdirty := (dirty_eq_some.mp (h j hj hj')).1
    rw [load_block, if_neg (by rw [hdirty]; decide)]
  unfold read
  rw [if_neg (by omega), hstop, if_neg (by omega), hload]
  have hbytes : (List.range' offset len).map page.bytes = slice v offset len := by
    apply List.map_congr_left
    intro j hj
    rw [List.mem_range'_1] at hj
    exact (dirty_eq_some.mp (h j hj.1 hj.2)).2
  rw [← hbytes]
  rfl

end FilePage

namespace PageCache

variable {fs : FileSystem} {file : VirtFile} {c c' : PageCache}

def dirty (c : PageCache) (i : Nat) : Option UInt8 := (c.get_page i).dirty (i % PAGE_SIZE)

/-- The written bytes are dirty bytes of the cache. -/
def Keeps (c : PageCache) (g : Nat → Option UInt8) : Prop := ∀ i b, g i = some b → c.dirty i = some b

theorem dirty_set_page (c : PageCache) (page : FilePage) (offset i : Nat) :
    (c.set_page offset page).dirty i =
      if i / PAGE_SIZE = offset / PAGE_SIZE then page.dirty (i % PAGE_SIZE) else c.dirty i := by
  rw [dirty, get_page_set_page]
  split
  · rfl
  · rfl

theorem get_page_congr (c : PageCache) {i j : Nat} (h : i / PAGE_SIZE = j / PAGE_SIZE) :
    c.get_page i = c.get_page j := by
  rw [get_page, get_page, h]

theorem write_slice_keeps {fuel offset : Nat} {buf : List UInt8} {r : Nat × PageCache}
    {g : Nat → Option UInt8} (hfuel : buf.length ≤ fuel) (hoffset : offset < 2 ^ 64)
    (ho : write_slice fs file fuel buf c offset = .ok r) (h : c.Keeps g) :
    r.1 = stop (2 ^ 64) offset buf.length ∧
      r.2.Keeps (put (2 ^ 64) g offset (buf.map some)) := by
  induction fuel generalizing buf offset c g with
  | zero =>
    obtain rfl : buf = [] := List.length_eq_zero_iff.mp (by omega)
    cases ho
    exact ⟨(stop_zero hoffset).symm, h⟩
  | succ fuel ih =>
    rw [write_slice] at ho
    split at ho
    · next hnil =>
      subst hnil
      cases ho
      exact ⟨(stop_zero hoffset).symm, h⟩
    · next hne =>
      have hpos := List.length_pos_iff.mpr hne
      have hmod : offset % PAGE_SIZE < PAGE_SIZE := Nat.mod_lt _ (by decide)
      have hwrite : 0 < min buf.length (PAGE_SIZE - offset % PAGE_SIZE) := by omega
      have hpage : offset % PAGE_SIZE + min buf.length (PAGE_SIZE - offset % PAGE_SIZE) ≤
          PAGE_SIZE := by omega
      have hle : min buf.length (PAGE_SIZE - offset % PAGE_SIZE) ≤ buf.length :=
        Nat.min_le_left ..
      simp only at ho
      generalize min buf.length (PAGE_SIZE - offset % PAGE_SIZE) = n at hwrite hpage hle ho
      have htake : (buf.take n).length = n := by simp [hle]
      have hmap : ((buf.take n).map some).length = n := by simp [hle]
      have hm : offset + n ≤ 2 ^ 64 := by
        unfold PAGE_SIZE at *
        omega
      obtain ⟨page, hw, ho⟩ := bind_eq_ok.mp ho
      have hkeeps : (c.set_page offset page).Keeps
          (put (2 ^ 64) g offset ((buf.take n).map some)) := by
        intro i b hi
        rw [put_apply g (hmap.symm ▸ hm) i (some 0), List.getD_map, hmap] at hi
        rw [dirty_set_page]
        split
        · next hsame =>
          apply FilePage.write_stays hw
          have hrange : (offset ≤ i ∧ i < offset + n) ↔ (offset % PAGE_SIZE ≤ i % PAGE_SIZE ∧
              i % PAGE_SIZE < offset % PAGE_SIZE + n) := by
            unfold PAGE_SIZE at *
            omega
          have hsub : i % PAGE_SIZE - offset % PAGE_SIZE = i - offset := by
            unfold PAGE_SIZE at *
            omega
          rw [htake, hsub, ← if_congr hrange rfl rfl]
          split
          · next hin => rwa [if_pos hin] at hi
          · next hout =>
            rw [if_neg hout] at hi
            have hold := h i b hi
            rwa [dirty, get_page_congr c hsame] at hold
        · next hother =>
          rw [if_neg] at hi
          · exact h i b hi
          · unfold PAGE_SIZE at *
            omega
      have hlt : usize (offset + n) < 2 ^ 64 := Nat.mod_lt _ (by decide)
      obtain ⟨hstop, hrest⟩ := ih (by simp; omega) hlt ho hkeeps
      have husize : usize (offset + n) = stop (2 ^ 64) offset n := rfl
      constructor
      · rw [hstop, husize, stop_stop, List.length_drop, Nat.add_sub_cancel' hle]
      · rw [← List.take_append_drop n buf, List.map_append, put_append g hoffset, hmap]
        simpa [husize] using hrest

theorem write_slices_keeps {slices : List (List UInt8)} {offset : Nat} {r : Nat × PageCache}
    {g : Nat → Option UInt8} (hoffset : offset < 2 ^ 64)
    (ho : write_slices fs file slices c offset = .ok r) (h : c.Keeps g) :
    r.1 = stop (2 ^ 64) offset slices.flatten.length ∧
      r.2.Keeps (put (2 ^ 64) g offset (slices.flatten.map some)) := by
  induction slices generalizing offset c g with
  | nil =>
    cases ho
    exact ⟨(stop_zero hoffset).symm, h⟩
  | cons buf slices ih =>
    obtain ⟨⟨offset', c₁⟩, hw, ho⟩ := bind_eq_ok.mp ho
    obtain ⟨hstop, hkeeps⟩ := write_slice_keeps le_rfl hoffset hw h
    simp only at hstop hkeeps
    subst hstop
    obtain ⟨hstop, hkeeps⟩ := ih (stop_lt (by decide) _ _) ho hkeeps
    rw [List.flatten_cons, List.length_append, List.map_append, put_append g hoffset,
      List.length_map]
    exact ⟨hstop.trans (stop_stop ..), hkeeps⟩

theorem Keeps.set_page {g : Nat → Option UInt8} {offset : Nat} {page : FilePage} (h : c.Keeps g)
    (hpage : (c.get_page offset).Stays page) : (c.set_page offset page).Keeps g := by
  intro i b hi
  have hold := h i b hi
  rw [dirty_set_page]
  split
  · next hsame =>
    rw [dirty, get_page_congr c hsame] at hold
    exact hpage _ _ hold
  · exact hold

theorem read_slice_keeps {fuel len offset : Nat} {r : List UInt8 × Nat × PageCache}
    {g : Nat → Option UInt8} (hoffset : offset < 2 ^ 64)
    (ho : read_slice fs file fuel len c offset = .ok r) (h : c.Keeps g) :
    r.2.1 < 2 ^ 64 ∧ r.2.2.Keeps g := by
  induction fuel generalizing len offset c r with
  | zero =>
    cases ho
    exact ⟨hoffset, h⟩
  | succ fuel ih =>
    rw [read_slice] at ho
    split at ho
    · cases ho
      exact ⟨hoffset, h⟩
    · obtain ⟨⟨bytes, page⟩, hr, ho⟩ := bind_eq_ok.mp ho
      obtain ⟨r', hr', ho⟩ := bind_eq_ok.mp ho
      cases ho
      exact ih (r := r') (Nat.mod_lt _ (by decide)) hr' (h.set_page (FilePage.read_stays hr))

theorem read_slices_keeps {slices : List Nat} {offset : Nat} {r : List UInt8 × Nat × PageCache}
    {g : Nat → Option UInt8} (hoffset : offset < 2 ^ 64)
    (ho : read_slices fs file slices c offset = .ok r) (h : c.Keeps g) :
    r.2.1 < 2 ^ 64 ∧ r.2.2.Keeps g := by
  induction slices generalizing offset c r with
  | nil =>
    cases ho
    exact ⟨hoffset, h⟩
  | cons len slices ih =>
    obtain ⟨⟨bytes, offset', c₁⟩, hr, ho⟩ := bind_eq_ok.mp ho
    obtain ⟨r', hr', ho⟩ := bind_eq_ok.mp ho
    cases ho
    obtain ⟨hlt, hkeeps⟩ := read_slice_keeps hoffset hr h
    exact ih (r := r') hlt hr' hkeeps

theorem read_slice_dirty {fuel len offset : Nat} {v : Nat → UInt8} (hfuel : len ≤ fuel)
    (hlen : offset + len < 2 ^ 64)
    (h : ∀ i, offset ≤ i → i < offset + len → c.dirty i = some (v i)) :
    ∃ c', read_slice fs file fuel len c offset = .ok (slice v offset len, offset + len, c') ∧
      ∀ i, c'.dirty i = c.dirty i := by
  induction fuel generalizing len offset c with
  | zero =>
    obtain rfl : len = 0 := by omega
    exact ⟨c, rfl, fun _ => rfl⟩
  | succ fuel ih =>
    rw [read_slice]
    split
    · next hzero =>
      subst hzero
      exact ⟨c, rfl, fun _ => rfl⟩
    · next hpos =>
      have hmod : offset % PAGE_SIZE < PAGE_SIZE := Nat.mod_lt _ (by decide)
      have hread : 0 < min len (PAGE_SIZE - offset % PAGE_SIZE) := by omega
      have hpage : offset % PAGE_SIZE + min len (PAGE_SIZE - offset % PAGE_SIZE) ≤ PAGE_SIZE := by
        omega
      have hle : min len (PAGE_SIZE - offset % PAGE_SIZE) ≤ len := Nat.min_le_left ..
      simp only
      generalize min len (PAGE_SIZE - offset % PAGE_SIZE) = n at hread hpage hle ⊢
      have hdirty : ∀ j, offset % PAGE_SIZE ≤ j → j < offset % PAGE_SIZE + n →
          (c.get_page offset).dirty j = some (v (offset / PAGE_SIZE * PAGE_SIZE + j)) := by
        intro j hj hj'
        have hi := h (offset / PAGE_SIZE * PAGE_SIZE + j)
          (by unfold PAGE_SIZE at *; omega) (by unfold PAGE_SIZE at *; omega)
        have hdiv : (offset / PAGE_SIZE * PAGE_SIZE + j) / PAGE_SIZE = offset / PAGE_SIZE := by
          unfold PAGE_SIZE at *
          omega
        have hmod' : (offset / PAGE_SIZE * PAGE_SIZE + j) % PAGE_SIZE = j := by
          unfold PAGE_SIZE at *
          omega
        rwa [dirty, get_page_congr c hdiv, hmod'] at hi
      rw [FilePage.read_dirty hread hpage hdirty]
      have hsame : ∀ i, (c.set_page offset (c.get_page offset)).dirty i = c.dirty i := by
        intro i
        rw [dirty_set_page]
        split
        · next hdiv => rw [dirty, get_page_congr c hdiv]
        · rfl
      have husize : usize (offset + n) = offset + n := Nat.mod_eq_of_lt (by omega)
      obtain ⟨c', hr, hc'⟩ := @ih (c.set_page offset (c.get_page offset)) (len - n) (offset + n)
        (by omega) (by omega) fun i hi hi' => by
          rw [hsame]
          exact h i (by omega) (by omega)
      refine ⟨c', ?_, fun i => (hc' i).trans (hsame i)⟩
      simp only [bind, Except.bind, husize, hr, pure, Except.pure]
      have hsum : offset + n + (len - n) = offset + len := by omega
      rw [slice_shift, Nat.div_add_mod', slice_append, Nat.add_sub_cancel' hle, hsum]

theorem read_slices_dirty {slices : List Nat} {offset : Nat} {v : Nat → UInt8}
    (hlen : offset + slices.sum < 2 ^ 64)
    (h : ∀ i, offset ≤ i → i < offset + slices.sum → c.dirty i = some (v i)) :
    ∃ c', read_slices fs file slices c offset =
      .ok (slice v offset slices.sum, offset + slices.sum, c') := by
  induction slices generalizing offset c with
  | nil => exact ⟨c, rfl⟩
  | cons len slices ih =>
    rw [List.sum_cons] at hlen h ⊢
    obtain ⟨c₁, hr, hc₁⟩ := @read_slice_dirty fs file _ _ _ _ _ le_rfl
      (by omega : offset + len < 2 ^ 64) fun i hi hi' => h i hi (by omega)
    obtain ⟨c₂, hr'⟩ := @ih c₁ (offset + len) (by omega) fun i hi hi' => by
      rw [hc₁]
      exact h i (by omega) (by omega)
    refine ⟨c₂, ?_⟩
    rw [read_slices, hr]
    simp only [bind, Except.bind, hr', pure, Except.pure, slice_append, Nat.add_assoc]

end PageCache

end MyGOS.Fs
