import MyGOS.Fs.FlatFile

/-!
# One file, step by step

A read or a write of one file changes the array of its inode and its offset, and
nothing else. So the reads and writes of that file one after the other can be
followed on the array alone.
-/

namespace MyGOS.Fs

open Fat32 Outcome FlatArray

namespace FlatFile

variable (f : FlatFile) (h : Nat)

theorem offset_seek (offset : Nat) : (f.seek h offset).offset h = offset :=
  Function.update_self ..

/-- A write of the file `h`; a write of nothing does not seek. -/
def wrote (data : List UInt8) : FlatFile :=
  let start := f.start h (f.offset h)
  if data = [] then f.write start []
  else (f.write start data).seek h (stop (2 ^ 64) start data.length)

/-- Writes one after the other. -/
def writes (ds : List (List UInt8)) : FlatFile := ds.foldl (fun f d => f.wrote h d) f

end FlatFile

namespace FsState

section Frame

variable {s : FsState} {h a b : Nat}

theorem inodes_grow_of_ne (hb : b ≠ a) (offset : Nat) :
    ((s.grow a offset).inodes b) = s.inodes b := by
  unfold grow
  split
  · simp [set_inode, Function.update_of_ne hb]
  · rfl

theorem file_size_grow (offset : Nat) :
    ((s.grow a offset).inodes a).file_size = max (s.inodes a).file_size offset := by
  unfold grow
  split
  · next hlt => simp [set_inode, Nat.max_eq_right hlt.le]
  · next hle => exact (Nat.max_eq_left (not_lt.mp hle)).symm

theorem fs_grow (offset : Nat) : (s.grow a offset).fs = s.fs := by
  unfold grow
  split <;> rfl

theorem kfile_grow (offset : Nat) : (s.grow a offset).kfile h = s.kfile h := by
  unfold grow
  split <;> rfl

theorem inodes_set_page_cache_of_ne (hb : b ≠ a) (c : PageCache) :
    (s.set_page_cache a c).inodes b = s.inodes b := by
  simp [set_page_cache, set_inode, Function.update_of_ne hb]

theorem file_size_set_page_cache (c : PageCache) :
    ((s.set_page_cache a c).inodes b).file_size = (s.inodes b).file_size := by
  by_cases hb : b = a
  · subst hb
    simp [set_page_cache, set_inode]
  · rw [inodes_set_page_cache_of_ne hb]

end Frame

/-- Both states have the same files with the same bytes, sizes and offsets. -/
structure Same (s t : FsState) : Prop where
  byte : ∀ b i, (s.inodes b).byte s.fs i = (t.inodes b).byte t.fs i
  file_size : ∀ b, (s.inodes b).file_size = (t.inodes b).file_size
  kfile : ∀ h, s.kfile h = t.kfile h

/-- `t` is `s`, but for the array that the inode of the file `h` holds, and its offset. -/
structure Becomes (s t : FsState) (h : Nat) (k : KFile) (g : FlatFile) : Prop where
  mirrors : Mirrors k.inode t g
  kfile : t.kfile h = .ok { k with offset := g.offset h }
  kfile_of_ne : ∀ h' ≠ h, t.kfile h' = s.kfile h'
  fs : t.fs = s.fs
  inodes : ∀ b ≠ k.inode, t.inodes b = s.inodes b

variable {s t u : FsState} {h : Nat} {k : KFile} {f g g' : FlatFile}

theorem Becomes.refl (hm : Mirrors k.inode s f) (hk : s.kfile h = .ok k) : Becomes s s h k f where
  mirrors := hm
  kfile := by
    rw [hk, ← (hm.files h k hk rfl).offset]
  kfile_of_ne _ _ := rfl
  fs := rfl
  inodes _ _ := rfl

theorem Becomes.trans (hst : Becomes s t h k g)
    (htu : Becomes t u h { k with offset := g.offset h } g') : Becomes s u h k g' where
  mirrors := htu.mirrors
  kfile := htu.kfile
  kfile_of_ne h' hne := (htu.kfile_of_ne h' hne).trans (hst.kfile_of_ne h' hne)
  fs := htu.fs.trans hst.fs
  inodes b hb := (htu.inodes b hb).trans (hst.inodes b hb)

/-- Two ways from one state are the same, if the array and the offset are. -/
theorem Becomes.same_iff (ht : Becomes s t h k g) (hu : Becomes s u h k g') :
    Same t u ↔ g.bytes = g'.bytes ∧ g.size = g'.size ∧ g.offset h = g'.offset h := by
  constructor
  · intro hsame
    refine ⟨?_, ?_, ?_⟩
    · funext i
      have hbyte := hsame.byte k.inode i
      rw [ht.mirrors.describes.byte, hu.mirrors.describes.byte] at hbyte
      exact Except.ok.inj hbyte
    · rw [← ht.mirrors.size, ← hu.mirrors.size, hsame.file_size]
    · have hkfile := hsame.kfile h
      rw [ht.kfile, hu.kfile] at hkfile
      exact congrArg KFile.offset (Except.ok.inj hkfile)
  · rintro ⟨hbytes, hsize, hoffset⟩
    constructor
    · intro b i
      obtain rfl | hb := eq_or_ne b k.inode
      · rw [ht.mirrors.describes.byte, hu.mirrors.describes.byte, hbytes]
      · rw [ht.inodes b hb, hu.inodes b hb, ht.fs, hu.fs]
    · intro b
      obtain rfl | hb := eq_or_ne b k.inode
      · rw [ht.mirrors.size, hu.mirrors.size, hsize]
      · rw [ht.inodes b hb, hu.inodes b hb]
    · intro h'
      obtain rfl | hne := eq_or_ne h' h
      · rw [ht.kfile, hu.kfile, hoffset]
      · rw [ht.kfile_of_ne h' hne, hu.kfile_of_ne h' hne]

section Transfers

variable (hm : Mirrors k.inode s f) (hk : s.kfile h = .ok k)

include hm hk

/-- A read within the file. -/
theorem read_to_ubuf_becomes {slices : List Nat}
    (hlen : k.offset + slices.sum ≤ (s.inodes k.inode).file_size) :
    ∃ t, s.read_to_ubuf h slices = .ok (slice f.bytes k.offset slices.sum, slices.sum, t) ∧
      Becomes s t h k (f.seek h (k.offset + slices.sum)) := by
  have hoffset := (hm.files h k hk rfl).offset
  have hsize := hm.size
  have hlt := hm.size_lt
  -- a read of nothing does not look at the pages
  have hstay : slices.sum = 0 →
      ∃ t, ([], 0, s) = (slice f.bytes k.offset slices.sum, slices.sum, t) ∧
        Becomes s t h k (f.seek h (k.offset + slices.sum)) := by
    intro hsum
    have hseek : f.seek h (k.offset + slices.sum) = f := by
      rw [hsum, Nat.add_zero, hoffset, FlatFile.seek, Function.update_eq_self]
    rw [hseek, hsum]
    exact ⟨s, rfl, .refl hm hk⟩
  rw [read_to_ubuf, hk]
  simp only [ok_bind, pure, Except.pure]
  by_cases hzero : (s.inodes k.inode).file_size = 0
  · have hsum := sum_eq_zero_of_end hlen (.inl hzero)
    have hbytes : (if k.name = zero then List.replicate slices.sum 0 else ([] : List UInt8)) =
        [] := by
      rw [hsum]
      exact ite_self _
    obtain ⟨t, heq, ht⟩ := hstay hsum
    rw [if_pos hzero, hbytes, heq]
    exact ⟨t, rfl, ht⟩
  · rw [if_neg hzero]
    by_cases hend : (s.inodes k.inode).file_size ≤ k.offset
    · obtain ⟨t, heq, ht⟩ := hstay (sum_eq_zero_of_end hlen (.inr hend))
      rw [if_pos hend, heq]
      exact ⟨t, rfl, ht⟩
    · obtain ⟨c, hc, -⟩ := hm.pages
      obtain ⟨c', hr, ht⟩ := hm.read_slices (hsize ▸ hlen) hc
      rw [if_neg hend, page_cache, hc]
      simp only [hr, ok_bind, length_slice]
      refine ⟨_, rfl, ht.seek hk rfl (by omega), ?_, ?_, rfl, ?_⟩
      · rw [FlatFile.offset_seek]
        exact kfile_set_kfile _ h _
      · exact fun h' hne => kfile_set_kfile_of_ne _ hne _
      · exact fun b hb => inodes_set_page_cache_of_ne hb c'

theorem write_from_ubuf_becomes (slices : List (List UInt8)) :
    ∃ t, s.write_from_ubuf h slices = .ok (slices.flatten.length, t) ∧
      Becomes s t h k (f.wrote h slices.flatten) := by
  have hnamed := hm.files h k hk rfl
  have hlt := @Mirrors.start_lt _ _ h _ hm _ hnamed.offset_lt
  obtain ⟨c, c', hc, hr, ht⟩ := hm.write_slices slices hlt
  rw [write_from_ubuf, hk]
  simp only [ok_bind, page_cache, hc, hm.start hk rfl, hnamed.offset]
  rw [hnamed.offset] at hr ht
  simp only [hr, ok_bind, pure, Except.pure]
  refine ⟨_, rfl, ?_⟩
  have hstop := stop_lt (by decide : 0 < 2 ^ 64) (f.start h (f.offset h)) slices.flatten.length
  rw [FlatFile.wrote]
  by_cases hnil : slices.flatten = []
  · simp only [hnil, if_true] at ht hstop ⊢
    refine ⟨ht.grow hstop, ?_, fun h' _ => kfile_grow _, fs_grow _, fun b hb => ?_⟩
    · rw [kfile_grow]
      exact (Becomes.refl hm hk).kfile
    · exact (inodes_grow_of_ne hb _).trans (inodes_set_page_cache_of_ne hb c')
  · simp only [if_neg hnil]
    refine ⟨(ht.seek hk rfl hstop).grow hstop, ?_, fun h' hne => ?_, fs_grow _, fun b hb => ?_⟩
    · rw [kfile_grow, FlatFile.offset_seek]
      exact kfile_set_kfile _ h _
    · exact (kfile_grow _).trans (kfile_set_kfile_of_ne _ hne _)
    · exact (inodes_grow_of_ne hb _).trans (inodes_set_page_cache_of_ne hb c')

end Transfers

end FsState

end MyGOS.Fs
