import MyGOS.Fs.Content
import MyGOS.Lib.FlatArray
import Mathlib.Algebra.Order.Ring.Nat

/-!
# The page cache holds an array

A page holds the range of an array at its offset if each byte is that of the
array: in the page where its block was loaded, and on the disk where it was not.
Loads keep that, reads return it, and a write puts its bytes into the array.
-/

namespace MyGOS.Fs

open Fat32 Outcome FlatArray

theorem disk_byte_add {fs : FileSystem} {file : VirtFile} {base j : Nat} (hb : BLOCK_SIZE ∣ base)
    (hj : j < BLOCK_SIZE) : disk_byte fs file (base + j) =
      (do let src ← fs.read_at file base BLOCK_SIZE; return src.getD j 0) := by
  obtain ⟨k, rfl⟩ := hb
  have hdiv : (BLOCK_SIZE * k + j) / BLOCK_SIZE * BLOCK_SIZE = BLOCK_SIZE * k := by
    rw [Nat.mul_add_div (by decide), Nat.div_eq_of_lt hj, Nat.add_zero, Nat.mul_comm]
  have hmod : (BLOCK_SIZE * k + j) % BLOCK_SIZE = j := by
    rw [Nat.mul_add_mod, Nat.mod_eq_of_lt hj]
  rw [disk_byte, hdiv, hmod]

namespace FilePage

variable {fs : FileSystem} {file : VirtFile} {page : FilePage} {base : Nat} {v : Nat → UInt8}

def Loaded (page : FilePage) (idx : Nat) : Prop := page.data_states idx ≠ .Unload

/-- The page at `base` holds its range of `v`. -/
structure Holds (fs : FileSystem) (file : VirtFile) (base : Nat) (v : Nat → UInt8)
    (page : FilePage) : Prop where
  file_offset : page.file_offset = base
  loaded : ∀ j < PAGE_SIZE, page.Loaded (j / BLOCK_SIZE) → page.bytes j = v (base + j)
  disk : ∀ j < PAGE_SIZE, ¬ page.Loaded (j / BLOCK_SIZE) →
    disk_byte fs file (base + j) = .ok (v (base + j))

theorem Holds.new (h : ∀ j < PAGE_SIZE, disk_byte fs file (base + j) = .ok (v (base + j))) :
    (FilePage.new base).Holds fs file base v where
  file_offset := rfl
  loaded _ _ hl := absurd rfl hl
  disk j hj _ := h j hj

/-- Another array with the same range. -/
theorem Holds.congr {w : Nat → UInt8} (h : page.Holds fs file base v)
    (hw : ∀ j < PAGE_SIZE, w (base + j) = v (base + j)) : page.Holds fs file base w where
  file_offset := h.file_offset
  loaded j hj hl := (h.loaded j hj hl).trans (hw j hj).symm
  disk j hj hl := by rw [h.disk j hj hl, hw j hj]

/-- What `load_block` and `mark_block` do to a page. -/
def Touched (fs : FileSystem) (file : VirtFile) (base : Nat) (v : Nat → UInt8) (page : FilePage)
    (idx : Nat) (page' : FilePage) : Prop :=
  page'.Holds fs file base v ∧ page'.Loaded idx ∧ ∀ k, page.Loaded k → page'.Loaded k

theorem load_block_meets (h : page.Holds fs file base v) (hb : BLOCK_SIZE ∣ base) {idx : Nat}
    (hidx : idx < 8) :
    Meets (page.load_block fs file idx) (fun _ => False) (Touched fs file base v page idx) := by
  unfold load_block
  split
  · next hunload =>
    have hbyte : ∀ j < BLOCK_SIZE, disk_byte fs file (base + (idx * BLOCK_SIZE + j)) =
        .ok (v (base + (idx * BLOCK_SIZE + j))) := by
      intro j hj
      have hblock : (idx * BLOCK_SIZE + j) / BLOCK_SIZE = idx := by
        unfold BLOCK_SIZE at hj ⊢
        omega
      apply h.disk
      · unfold BLOCK_SIZE PAGE_SIZE at *
        omega
      · rw [hblock]
        exact fun hl => hl hunload
    have hbase : BLOCK_SIZE ∣ idx * BLOCK_SIZE + page.file_offset := by
      rw [h.file_offset]
      exact Nat.dvd_add (Nat.dvd_mul_left ..) hb
    have hsrc : ∀ j < BLOCK_SIZE, (do
        let src ← fs.read_at file (idx * BLOCK_SIZE + page.file_offset) BLOCK_SIZE
        return src.getD j 0) = Except.ok (v (base + (idx * BLOCK_SIZE + j))) := by
      intro j hj
      rw [← disk_byte_add hbase hj, ← hbyte j hj, h.file_offset]
      congr 1
      omega
    obtain ⟨src, hread, _⟩ := bind_eq_ok.mp (hsrc 0 (by decide))
    simp only [hread, bind, Except.bind, pure, Except.pure, Except.ok.injEq, meets_ok] at hsrc ⊢
    refine ⟨⟨h.file_offset, ?_, ?_⟩, ?_, ?_⟩
    · intro j hj hl
      show (if idx * BLOCK_SIZE ≤ j ∧ j < idx * BLOCK_SIZE + BLOCK_SIZE then _ else _) = _
      split
      · next hin =>
        have hj' := hsrc (j - idx * BLOCK_SIZE) (by omega)
        rw [hj', Nat.add_sub_cancel' hin.1]
      · next hin =>
        apply h.loaded j hj
        have hne : j / BLOCK_SIZE ≠ idx := by
          unfold BLOCK_SIZE at hin ⊢
          omega
        simpa [Loaded, Function.update_of_ne hne] using hl
    · intro j hj hl
      apply h.disk j hj
      intro hold
      apply hl
      show Function.update page.data_states idx .Load (j / BLOCK_SIZE) ≠ .Unload
      by_cases he : j / BLOCK_SIZE = idx
      · rw [he, Function.update_self]
        decide
      · rwa [Function.update_of_ne he]
    · simp [Loaded]
    · intro k hk
      show Function.update page.data_states idx .Load k ≠ .Unload
      by_cases he : k = idx
      · rw [he, Function.update_self]
        decide
      · rwa [Function.update_of_ne he]
  · next hload => exact ⟨h, hload, fun _ hk => hk⟩

theorem mark_block_meets (h : page.Holds fs file base v) (hb : BLOCK_SIZE ∣ base) {idx : Nat}
    (hidx : idx < 8) :
    Meets (page.mark_block fs file idx) (fun _ => False) (Touched fs file base v page idx) := by
  apply (load_block_meets h hb hidx).bind
  rintro p ⟨hp, hidx, hmono⟩
  have hiff : ∀ k, Loaded { p with data_states := Function.update p.data_states idx .Dirty } k ↔
      p.Loaded k := by
    intro k
    by_cases he : k = idx
    · subst he
      simp [Loaded]
      exact hidx
    · simp [Loaded, Function.update_of_ne he]
  refine ⟨⟨hp.file_offset, ?_, ?_⟩, (hiff idx).mpr hidx, fun k hk => (hiff k).mpr (hmono k hk)⟩
  · exact fun j hj hl => hp.loaded j hj ((hiff _).mp hl)
  · exact fun j hj hl => hp.disk j hj fun hl' => hl ((hiff _).mpr hl')

theorem mem_buffers {start stop k : Nat} (h : k ∈ buffers start stop) :
    start / BLOCK_SIZE ≤ k ∧ k < (stop - 1 + BLOCK_SIZE) / BLOCK_SIZE := by
  rw [buffers, List.mem_range'_1] at h
  omega

theorem block_mem_buffers {start stop j : Nat} (hs : start ≤ j) (hj : j < stop) :
    j / BLOCK_SIZE ∈ buffers start stop := by
  rw [buffers, List.mem_range'_1]
  unfold BLOCK_SIZE
  omega

/-- The loops over the blocks of a range. -/
theorem buffers_meet {f : FilePage → Nat → Except FsPanic FilePage}
    (hf : ∀ p : FilePage, p.Holds fs file base v → ∀ k < 8,
      Meets (f p k) (fun _ => False) (Touched fs file base v p k))
    (h : page.Holds fs file base v) {start stop : Nat} (hstop : stop ≤ PAGE_SIZE)
    (hpos : start < stop) :
    Meets ((buffers start stop).foldlM f page) (fun _ => False) fun p =>
      p.Holds fs file base v ∧ ∀ j, start ≤ j → j < stop → p.Loaded (j / BLOCK_SIZE) := by
  have hloop := Meets.foldlM (E := fun _ => False) (f := f)
    (I := fun ks p => p.Holds fs file base v ∧ (∀ k ∈ ks, k < 8) ∧
      ∀ k ∈ buffers start stop, k ∈ ks ∨ p.Loaded k) ?_ (buffers start stop) page ?_
  · apply hloop.mono
    rintro p ⟨hp, _, hall⟩
    exact ⟨hp, fun j hs hj => (hall _ (block_mem_buffers hs hj)).resolve_left (List.not_mem_nil)⟩
  · rintro k ks p ⟨hp, hlt, hall⟩
    apply (hf p hp k (hlt k List.mem_cons_self)).mono
    rintro q ⟨hq, hk, hmono⟩
    refine ⟨hq, fun k' hk' => hlt k' (List.mem_cons_of_mem _ hk'), ?_⟩
    intro k' hk'
    obtain hmem | hl := hall k' hk'
    · obtain rfl | hmem := List.mem_cons.mp hmem
      · exact .inr hk
      · exact .inl hmem
    · exact .inr (hmono k' hl)
  · refine ⟨h, fun k hk => ?_, fun k hk => .inl hk⟩
    have hlt := (mem_buffers hk).2
    unfold BLOCK_SIZE PAGE_SIZE at *
    omega

theorem read_meets (h : page.Holds fs file base v) (hb : BLOCK_SIZE ∣ base) {offset len : Nat}
    (hpos : 0 < len) (hlen : offset + len ≤ PAGE_SIZE) :
    Meets (page.read fs file offset len) (fun _ => False) fun r =>
      r.1 = slice v (base + offset) len ∧ r.2.Holds fs file base v := by
  have hstop : min (offset + len) PAGE_SIZE = offset + len := Nat.min_eq_left hlen
  unfold read
  rw [if_neg (by omega), hstop, if_neg (by omega)]
  apply (buffers_meet (fun p hp k hk => load_block_meets hp hb hk) h hlen (by omega)).bind
  rintro p ⟨hp, hl⟩
  constructor
  · show (List.range' offset len).map p.bytes = _
    rw [← slice_shift]
    apply slice_congr
    intro j hj hj'
    exact hp.loaded j (by omega) (hl j hj hj')
  · exact hp

theorem write_meets (h : page.Holds fs file base v) (hb : BLOCK_SIZE ∣ base) {offset : Nat}
    {buf : List UInt8} (hpos : buf ≠ []) (hlen : offset + buf.length ≤ PAGE_SIZE) {m : Nat}
    (hm : base + PAGE_SIZE ≤ m) :
    Meets (page.write fs file offset buf) (fun _ => False)
      (·.Holds fs file base (put m v (base + offset) buf)) := by
  have hpos := List.length_pos_iff.mpr hpos
  have hstop : min (offset + buf.length) PAGE_SIZE = offset + buf.length := Nat.min_eq_left hlen
  have hput := fun j => put_apply v (by omega : base + offset + buf.length ≤ m) (base + j) 0
  unfold write
  rw [if_neg (by omega), hstop, if_neg (by omega)]
  apply (buffers_meet (fun p hp k hk => mark_block_meets hp hb hk) h hlen (by omega)).bind
  rintro p ⟨hp, hl⟩
  refine ⟨hp.file_offset, ?_, ?_⟩
  · intro j hj hloaded
    rw [hput]
    show (if offset ≤ j ∧ j < offset + buf.length then _ else _) = _
    split
    · rw [if_pos (by omega), Nat.add_sub_add_left]
    · rw [if_neg (by omega)]
      exact hp.loaded j hj hloaded
  · intro j hj hloaded
    have hout : ¬ (offset ≤ j ∧ j < offset + buf.length) := fun hin => hloaded (hl j hin.1 hin.2)
    rw [hput, if_neg (by omega)]
    exact hp.disk j hj hloaded

end FilePage

theorem block_dvd_page (offset : Nat) : BLOCK_SIZE ∣ offset / PAGE_SIZE * PAGE_SIZE :=
  (by decide : BLOCK_SIZE ∣ PAGE_SIZE).mul_left _

namespace PageCache

variable {fs : FileSystem} {file : VirtFile} {c : PageCache} {v : Nat → UInt8}

/-- Each page of the cache holds its range of `v`, and so would a new one. -/
def Holds (fs : FileSystem) (file : VirtFile) (v : Nat → UInt8) (c : PageCache) : Prop :=
  ∀ offset, (c.get_page offset).Holds fs file (offset / PAGE_SIZE * PAGE_SIZE) v

theorem Holds.empty (h : ∀ i, disk_byte fs file i = .ok (v i)) : Holds fs file v ∅ := by
  intro offset
  exact .new fun j _ => h _

theorem get_page_set_page (c : PageCache) (page : FilePage) (offset offset' : Nat) :
    (c.set_page offset page).get_page offset' =
      if offset' / PAGE_SIZE = offset / PAGE_SIZE then page else c.get_page offset' := by
  unfold get_page set_page
  split
  · next he =>
    rw [he, AList.lookup_insert]
    rfl
  · next he => rw [AList.lookup_insert_ne he]

/-- An inode with such a page cache has the bytes of `v`. -/
theorem Holds.byte {inode : Inode} (h : Holds fs inode.file v c) (hc : inode.page_cache = some c)
    (i : Nat) : inode.byte fs i = .ok (v i) := by
  have hi : i / PAGE_SIZE * PAGE_SIZE + i % PAGE_SIZE = i := Nat.div_add_mod' ..
  have hlt : i % PAGE_SIZE < PAGE_SIZE := Nat.mod_lt _ (by decide)
  unfold Inode.byte
  rw [hc]
  simp only
  split
  · next hunload =>
    have hdisk := (h i).disk _ hlt fun hl => hl hunload
    rwa [hi] at hdisk
  · next hload =>
    rw [(h i).loaded _ hlt hload, hi]

theorem Holds.set_page {w : Nat → UInt8} {offset : Nat} {page : FilePage}
    (h : Holds fs file v c) (hpage : page.Holds fs file (offset / PAGE_SIZE * PAGE_SIZE) w)
    (hw : ∀ i, i / PAGE_SIZE ≠ offset / PAGE_SIZE → w i = v i) :
    Holds fs file w (c.set_page offset page) := by
  intro offset'
  rw [get_page_set_page]
  split
  · next he => rwa [he]
  · next he =>
    apply (h offset').congr
    intro j hj
    apply hw
    unfold PAGE_SIZE at *
    omega

theorem read_slice_meets {fuel len offset : Nat} (hfuel : len ≤ fuel) (h : Holds fs file v c)
    (hlen : offset + len < 2 ^ 64) :
    Meets (read_slice fs file fuel len c offset) (fun _ => False) fun r =>
      r.1 = slice v offset len ∧ r.2.1 = offset + len ∧ Holds fs file v r.2.2 := by
  induction fuel generalizing len offset c with
  | zero =>
    obtain rfl : len = 0 := by omega
    exact ⟨rfl, rfl, h⟩
  | succ fuel ih =>
    rw [read_slice]
    split
    · next hzero =>
      subst hzero
      exact ⟨rfl, rfl, h⟩
    · next hpos =>
      have hread : 0 < min len (PAGE_SIZE - offset % PAGE_SIZE) := by
        have : offset % PAGE_SIZE < PAGE_SIZE := Nat.mod_lt _ (by decide)
        omega
      have hpage : offset % PAGE_SIZE + min len (PAGE_SIZE - offset % PAGE_SIZE) ≤ PAGE_SIZE := by
        have : offset % PAGE_SIZE < PAGE_SIZE := Nat.mod_lt _ (by decide)
        omega
      have hle : min len (PAGE_SIZE - offset % PAGE_SIZE) ≤ len := Nat.min_le_left ..
      simp only
      generalize min len (PAGE_SIZE - offset % PAGE_SIZE) = n at hread hpage hle ⊢
      apply (FilePage.read_meets (h offset) (block_dvd_page _) hread hpage).bind
      rintro ⟨bytes, page⟩ ⟨hbytes, hp⟩
      have husize : usize (offset + n) = offset + n := Nat.mod_eq_of_lt (by omega)
      have hrest := @ih _ (len - n) (usize (offset + n)) (by omega)
        (h.set_page hp fun _ _ => rfl) (by omega)
      apply hrest.bind
      rintro ⟨rest, offset', c'⟩ ⟨hr, ho, hc⟩
      simp only at hbytes hr ho
      refine ⟨?_, ?_, hc⟩
      · show bytes ++ rest = _
        rw [hbytes, hr, husize, Nat.div_add_mod', slice_append, Nat.add_sub_cancel' hle]
      · show offset' = _
        omega

theorem write_slice_meets {fuel offset : Nat} {buf : List UInt8} (hfuel : buf.length ≤ fuel)
    (h : Holds fs file v c) (hoffset : offset < 2 ^ 64) :
    Meets (write_slice fs file fuel buf c offset) (fun _ => False) fun r =>
      r.1 = stop (2 ^ 64) offset buf.length ∧ Holds fs file (put (2 ^ 64) v offset buf) r.2 := by
  induction fuel generalizing buf offset c v with
  | zero =>
    obtain rfl : buf = [] := List.length_eq_zero_iff.mp (by omega)
    exact ⟨(stop_zero hoffset).symm, h⟩
  | succ fuel ih =>
    rw [write_slice]
    split
    · next hnil =>
      subst hnil
      exact ⟨(stop_zero hoffset).symm, h⟩
    · next hne =>
      have hpos := List.length_pos_iff.mpr hne
      have hmod : offset % PAGE_SIZE < PAGE_SIZE := Nat.mod_lt _ (by decide)
      have hwrite : 0 < min buf.length (PAGE_SIZE - offset % PAGE_SIZE) := by omega
      have hpage : offset % PAGE_SIZE + min buf.length (PAGE_SIZE - offset % PAGE_SIZE) ≤
          PAGE_SIZE := by omega
      have hle : min buf.length (PAGE_SIZE - offset % PAGE_SIZE) ≤ buf.length :=
        Nat.min_le_left ..
      simp only
      generalize min buf.length (PAGE_SIZE - offset % PAGE_SIZE) = n at hwrite hpage hle ⊢
      have htake : (buf.take n).length = n := by simp [hle]
      -- a page does not wrap
      have hm : offset / PAGE_SIZE * PAGE_SIZE + PAGE_SIZE ≤ 2 ^ 64 := by
        unfold PAGE_SIZE at *
        omega
      have hsplit : offset / PAGE_SIZE * PAGE_SIZE + offset % PAGE_SIZE = offset :=
        Nat.div_add_mod' ..
      apply (FilePage.write_meets (h offset) (block_dvd_page _)
        (List.ne_nil_of_length_pos (htake.symm ▸ hwrite)) (htake.symm ▸ hpage) hm).bind
      intro page hp
      rw [hsplit] at hp
      have hother : ∀ i, i / PAGE_SIZE ≠ offset / PAGE_SIZE →
          put (2 ^ 64) v offset (buf.take n) i = v i := by
        intro i hi
        rw [put_apply v (by omega) i 0, if_neg]
        unfold PAGE_SIZE at *
        omega
      have hrest := @ih _ _ (usize (offset + n)) (buf.drop n) (by simp; omega)
        (h.set_page hp hother) (Nat.mod_lt _ (by decide))
      apply hrest.mono
      rintro ⟨offset', c'⟩ ⟨ho, hc⟩
      have hstop : usize (offset + n) = stop (2 ^ 64) offset n := rfl
      constructor
      · show offset' = _
        rw [show offset' = _ from ho, hstop, stop_stop, List.length_drop,
          Nat.add_sub_cancel' hle]
      · rw [← List.take_append_drop n buf, put_append v hoffset, htake]
        simpa [hstop] using hc

theorem read_slices_meets {slices : List Nat} {offset : Nat} (h : Holds fs file v c)
    (hlen : offset + slices.sum < 2 ^ 64) :
    Meets (read_slices fs file slices c offset) (fun _ => False) fun r =>
      r.1 = slice v offset slices.sum ∧ r.2.1 = offset + slices.sum ∧ Holds fs file v r.2.2 := by
  induction slices generalizing offset c with
  | nil => exact ⟨rfl, rfl, h⟩
  | cons len slices ih =>
    rw [List.sum_cons] at hlen ⊢
    apply (read_slice_meets le_rfl h (by omega)).bind
    rintro ⟨bytes, offset', c'⟩ ⟨rfl, rfl, hc⟩
    apply (ih hc (by omega)).bind
    rintro ⟨rest, offset'', c''⟩ ⟨rfl, rfl, hc'⟩
    exact ⟨slice_append .., Nat.add_assoc .., hc'⟩

theorem write_slices_meets {slices : List (List UInt8)} {offset : Nat} (h : Holds fs file v c)
    (hoffset : offset < 2 ^ 64) :
    Meets (write_slices fs file slices c offset) (fun _ => False) fun r =>
      r.1 = stop (2 ^ 64) offset slices.flatten.length ∧
        Holds fs file (put (2 ^ 64) v offset slices.flatten) r.2 := by
  induction slices generalizing offset c v with
  | nil => exact ⟨(stop_zero hoffset).symm, h⟩
  | cons buf slices ih =>
    apply (write_slice_meets le_rfl h hoffset).bind
    rintro ⟨offset', c'⟩ ⟨rfl, hc⟩
    apply (ih hc (stop_lt (by decide) _ _)).mono
    rintro ⟨offset'', c''⟩ ⟨rfl, hc'⟩
    rw [List.flatten_cons, List.length_append, put_append v hoffset]
    exact ⟨stop_stop .., hc'⟩

end PageCache

end MyGOS.Fs
