import MyGOS.Lib.StepSystem
import Mathlib.Data.Finset.Card
import Mathlib.Data.Finset.Range
import Mathlib.Data.List.FinRange
import Mathlib.Data.List.Nodup
import Mathlib.Algebra.GroupWithZero.Nat

/-!
# Sets of descriptors

User space keeps descriptor `d` in bit `d mod 64` of word `d div 64`. The kernel
looks for it in word `d div 256`, and clears the whole word. A shift by 64 or
more is one by its remainder.
-/

namespace MyGOS.Fs

open StepSystem

structure FdSet where
  fd_list : Fin 16 → BitVec 64

namespace FdSet

def new : FdSet := ⟨fun _ => 0⟩

def check_fd (fd : Nat) : Bool := fd < 1024

/-- `self.fd_list[index]` is written; the index of a descriptor that is checked is one. -/
def modify (s : FdSet) (index : Nat) (f : BitVec 64 → BitVec 64) : FdSet :=
  ⟨fun i => if i.val = index then f (s.fd_list i) else s.fd_list i⟩

def set_fd (s : FdSet) (fd : Nat) : FdSet :=
  if check_fd fd then
    let index := fd >>> 8
    let offset := fd - (index <<< 8)
    s.modify index fun word => word ||| 1#64 <<< (offset % 64)
  else s

def clear_fd (s : FdSet) (fd : Nat) : FdSet :=
  if check_fd fd then
    let index := fd >>> 8
    let offset := fd - (index <<< 8)
    s.modify index fun word => word &&& (0#64 <<< (offset % 64) &&& 0xFFFFFFFFFFFFFFFF#64)
  else s

def clear_all (_ : FdSet) : FdSet := ⟨fun _ => 0⟩

/-- The loop over the bits of a word. -/
def push_word (i : Nat) (fd_v : List Nat) (tmp : BitVec 64) : List Nat :=
  ((List.range 64).foldl (fun (fd_v, tmp) off =>
    let fd_bit := tmp &&& 1#64
    (if fd_bit = 1#64 then fd_v ++ [(i <<< 8) + off] else fd_v, tmp >>> 1)) (fd_v, tmp)).1

def get_fd_vec (s : FdSet) : List Nat :=
  (List.finRange 16).foldl (fun fd_v (i : Fin 16) => push_word i fd_v (s.fd_list i)) []

def count (s : FdSet) : Nat := s.get_fd_vec.length

/-- Whether user space finds descriptor `d` in the set. -/
def bit (s : FdSet) (d : Nat) : Bool :=
  if h : d / 64 < 16 then (s.fd_list ⟨d / 64, h⟩).getLsbD (d % 64) else false

/-- The set as user space has it. -/
def members (s : FdSet) : Finset Nat := (Finset.range 1024).filter fun d => s.bit d

/-- Every view of `s` is the set `S`. -/
structure Exact (s : FdSet) (S : Finset Nat) : Prop where
  layout : s.members = S
  list : ∀ d, d ∈ s.get_fd_vec ↔ d ∈ S
  count : s.count = S.card

/-- All bits are in the first word. -/
def Low (s : FdSet) : Prop := ∀ i : Fin 16, i ≠ 0 → s.fd_list i = 0

instance (s : FdSet) : Decidable s.Low := inferInstanceAs (Decidable (∀ _, _))

variable {s : FdSet} {S : Finset Nat} {d fd : Nat}

section Listing

/-- What one word adds to the list. -/
def word_vec (i : Nat) (word : BitVec 64) : List Nat :=
  ((List.range 64).filter fun off => word.getLsbD off).map fun off => (i <<< 8) + off

theorem and_one_iff (word : BitVec 64) : word &&& 1#64 = 1#64 ↔ word.getLsbD 0 = true := by
  rw [BitVec.and_one_eq_setWidth_ofBool_getLsbD]
  cases word.getLsbD 0 <;> decide

theorem push_bits (i : Nat) (fd_v : List Nat) (tmp : BitVec 64) (n : Nat) :
    (List.range n).foldl (fun (fd_v, tmp) off =>
      let fd_bit := tmp &&& 1#64
      (if fd_bit = 1#64 then fd_v ++ [(i <<< 8) + off] else fd_v, tmp >>> 1)) (fd_v, tmp) =
      (fd_v ++ ((List.range n).filter fun off => tmp.getLsbD off).map fun off => (i <<< 8) + off,
        tmp >>> n) := by
  induction n with
  | zero => simp
  | succ n ih =>
    rw [List.range_succ, List.foldl_append, ih, List.filter_append, List.map_append,
      ← List.append_assoc]
    have hbit : tmp >>> n &&& 1#64 = 1#64 ↔ tmp.getLsbD n = true := by
      rw [and_one_iff, BitVec.getLsbD_ushiftRight, Nat.add_zero]
    cases hn : tmp.getLsbD n with
    | true => simp [hbit.mpr hn, hn, BitVec.shiftRight_add]
    | false =>
      have hclear : ¬ tmp >>> n &&& 1#64 = 1#64 := fun h => by simp [hbit.mp h] at hn
      simp [hclear, hn, BitVec.shiftRight_add]

theorem push_word_eq (i : Nat) (fd_v : List Nat) (tmp : BitVec 64) :
    push_word i fd_v tmp = fd_v ++ word_vec i tmp := by
  rw [push_word, push_bits, word_vec]

theorem get_fd_vec_eq (s : FdSet) :
    s.get_fd_vec = (List.finRange 16).flatMap fun i : Fin 16 => word_vec i (s.fd_list i) := by
  simp only [get_fd_vec, push_word_eq, List.flatMap_eq_foldl]

theorem mem_word_vec {i : Nat} {word : BitVec 64} :
    d ∈ word_vec i word ↔ d / 256 = i ∧ word.getLsbD (d % 256) = true ∧ d % 256 < 64 := by
  simp only [word_vec, List.mem_map, List.mem_filter, List.mem_range, Nat.shiftLeft_eq]
  constructor
  · rintro ⟨off, ⟨hlt, hbit⟩, rfl⟩
    rw [show (i * 2 ^ 8 + off) % 256 = off by omega]
    exact ⟨by omega, hbit, hlt⟩
  · rintro ⟨hi, hbit, hlt⟩
    exact ⟨d % 256, ⟨hlt, hbit⟩, by omega⟩

theorem mem_get_fd_vec :
    d ∈ s.get_fd_vec ↔ d % 256 < 64 ∧ ∃ i : Fin 16, d / 256 = i ∧
      (s.fd_list i).getLsbD (d % 256) = true := by
  simp only [get_fd_vec_eq, List.mem_flatMap, List.mem_finRange, true_and, mem_word_vec]
  constructor
  · rintro ⟨i, hi, hbit, hlt⟩
    exact ⟨hlt, i, hi, hbit⟩
  · rintro ⟨hlt, i, hi, hbit⟩
    exact ⟨i, hi, hbit, hlt⟩

theorem nodup_get_fd_vec (s : FdSet) : s.get_fd_vec.Nodup := by
  rw [get_fd_vec_eq, List.nodup_flatMap]
  constructor
  · intro i _
    exact (List.nodup_range.filter _).map fun _ _ h => Nat.add_left_cancel h
  · refine (List.nodup_finRange 16).imp ?_
    intro i j hne d hi hj
    exact hne (Fin.ext ((mem_word_vec.mp hi).1.symm.trans (mem_word_vec.mp hj).1))

/-- The count is that of the list, whatever the bits. -/
theorem count_of_list (h : ∀ d, d ∈ s.get_fd_vec ↔ d ∈ S) : s.count = S.card := by
  have hS : s.get_fd_vec.toFinset = S := by
    ext d
    rw [List.mem_toFinset, h]
  rw [count, ← hS, List.toFinset_card_of_nodup s.nodup_get_fd_vec]

end Listing

theorem mem_members : d ∈ s.members ↔
    ∃ i : Fin 16, d / 64 = i ∧ (s.fd_list i).getLsbD (d % 64) = true := by
  rw [members, Finset.mem_filter, Finset.mem_range, bit]
  constructor
  · rintro ⟨hlt, hbit⟩
    rw [dif_pos (by omega)] at hbit
    exact ⟨_, rfl, hbit⟩
  · rintro ⟨i, hi, hbit⟩
    have hlt := i.isLt
    refine ⟨by omega, ?_⟩
    rw [dif_pos (by omega)]
    simpa only [hi] using hbit

/-- A set with all bits in the first word is what user space has. -/
theorem Low.mem_get_fd_vec_iff (h : s.Low) : d ∈ s.get_fd_vec ↔ d ∈ s.members := by
  rw [mem_get_fd_vec, mem_members]
  constructor
  · rintro ⟨hlt, i, hi, hbit⟩
    rcases eq_or_ne i 0 with rfl | hne
    · exact ⟨0, by simp at hi ⊢; omega, by rwa [show d % 64 = d % 256 by omega]⟩
    · simp [h i hne] at hbit
  · rintro ⟨i, hi, hbit⟩
    rcases eq_or_ne i 0 with rfl | hne
    · simp at hi
      exact ⟨by omega, 0, by simp; omega, by rwa [show d % 256 = d % 64 by omega]⟩
    · simp [h i hne] at hbit

/-- A bit of another word is read as a descriptor of a word four times as far. -/
theorem low_of_list (h : ∀ d, d ∈ s.get_fd_vec → d ∈ s.members) : s.Low := by
  have hfar : ∀ i : Fin 16, ∀ off < 64, (s.fd_list i).getLsbD off = true →
      ∃ j : Fin 16, 4 * i.val = j.val ∧ (s.fd_list j).getLsbD off = true := by
    intro i off hoff hbit
    have hlist : 256 * i.val + off ∈ s.get_fd_vec :=
      mem_get_fd_vec.mpr ⟨by omega, i, by omega, by
        rwa [show (256 * i.val + off) % 256 = off by omega]⟩
    obtain ⟨j, hj, hbit⟩ := mem_members.mp (h _ hlist)
    exact ⟨j, by omega, by rwa [show (256 * i.val + off) % 64 = off by omega] at hbit⟩
  intro i hi
  apply BitVec.eq_of_getLsbD_eq
  intro off hoff
  by_contra hbit
  have hbit : (s.fd_list i).getLsbD off = true := by simpa using hbit
  obtain ⟨j, hj, hbit⟩ := hfar i off hoff hbit
  obtain ⟨k, hk, -⟩ := hfar j off hoff hbit
  have hpos := Fin.pos_iff_ne_zero.mpr hi
  have := Fin.lt_def.mp hpos
  omega

theorem exact_iff : Exact s S ↔ s.Low ∧ s.members = S := by
  constructor
  · rintro ⟨rfl, hlist, -⟩
    exact ⟨low_of_list fun d => (hlist d).mp, rfl⟩
  · rintro ⟨hlow, rfl⟩
    have hlist : ∀ d, d ∈ s.get_fd_vec ↔ d ∈ s.members := fun d => hlow.mem_get_fd_vec_iff
    exact ⟨rfl, hlist, count_of_list hlist⟩

theorem Low.mem_members (h : s.Low) :
    d ∈ s.members ↔ d < 64 ∧ (s.fd_list 0).getLsbD d = true := by
  rw [FdSet.mem_members]
  constructor
  · rintro ⟨i, hi, hbit⟩
    rcases eq_or_ne i 0 with rfl | hne
    · simp at hi
      exact ⟨hi, by rwa [Nat.mod_eq_of_lt hi] at hbit⟩
    · simp [h i hne] at hbit
  · rintro ⟨hlt, hbit⟩
    exact ⟨0, by simpa using hlt, by rwa [Nat.mod_eq_of_lt hlt]⟩

section Operations

/-- The word and the bit that the shifts pick. -/
theorem set_fd_eq (s : FdSet) (h : fd < 1024) :
    s.set_fd fd = s.modify (fd / 256) fun word => word ||| 1#64 <<< (fd % 64) := by
  have hoffset : (fd - fd / 256 * 256) % 64 = fd % 64 := by omega
  simp [set_fd, check_fd, h, Nat.shiftRight_eq_div_pow, Nat.shiftLeft_eq, hoffset]

theorem clear_fd_eq (s : FdSet) (h : fd < 1024) :
    s.clear_fd fd = s.modify (fd / 256) fun _ => 0 := by
  simp [clear_fd, check_fd, h, Nat.shiftRight_eq_div_pow]

theorem getLsbD_set_fd (s : FdSet) (h : fd < 1024) (i : Fin 16) (off : Nat) :
    ((s.set_fd fd).fd_list i).getLsbD off = true ↔
      (s.fd_list i).getLsbD off = true ∨ i.val = fd / 256 ∧ off = fd % 64 := by
  have hone : (1#64 <<< (fd % 64)).getLsbD off = true ↔ off = fd % 64 := by
    rw [show 1#64 <<< (fd % 64) = BitVec.twoPow 64 (fd % 64) from rfl, BitVec.getLsbD_twoPow]
    simp
    omega
  rw [set_fd_eq s h, modify]
  dsimp only
  split
  · rename_i hi
    simp only [BitVec.getLsbD_or, Bool.or_eq_true, hone, hi, true_and]
  · rename_i hi
    simp only [hi, false_and, or_false]

theorem exact_set_fd_iff (h : Exact s S) (hfd : fd < 1024) :
    Exact (s.set_fd fd) (insert fd S) ↔ fd < 64 := by
  obtain ⟨hlow, rfl⟩ := exact_iff.mp h
  rw [exact_iff]
  constructor
  · rintro ⟨hlow', hmembers⟩
    have hmem : fd ∈ (s.set_fd fd).members := hmembers ▸ Finset.mem_insert_self _ _
    exact (hlow'.mem_members.mp hmem).1
  · intro hlt
    have hlow' : (s.set_fd fd).Low := by
      intro i hi
      apply BitVec.eq_of_getLsbD_eq
      intro off _
      have hne : i.val ≠ fd / 256 := by
        rw [Nat.div_eq_of_lt (by omega)]
        exact Fin.val_ne_zero_iff.mpr hi
      have hbit := getLsbD_set_fd s hfd i off
      simpa [hlow i hi, hne] using hbit
    refine ⟨hlow', ?_⟩
    ext d
    have hword : (0 : Fin 16).val = fd / 256 := (Nat.div_eq_of_lt (by omega)).symm
    rw [hlow'.mem_members, Finset.mem_insert, hlow.mem_members, getLsbD_set_fd s hfd,
      Nat.mod_eq_of_lt hlt, and_iff_right hword]
    constructor
    · rintro ⟨hd, hbit | rfl⟩
      · exact Or.inr ⟨hd, hbit⟩
      · exact Or.inl rfl
    · rintro (rfl | ⟨hd, hbit⟩)
      · exact ⟨hlt, Or.inr rfl⟩
      · exact ⟨hd, Or.inl hbit⟩

theorem exact_new : Exact new ∅ := by
  rw [exact_iff]
  refine ⟨fun _ _ => rfl, Finset.eq_empty_iff_forall_notMem.mpr fun d hd => ?_⟩
  obtain ⟨i, -, hbit⟩ := mem_members.mp hd
  simp [new] at hbit

theorem Exact.get_fd_vec_eq_nil (h : Exact s ∅) : s.get_fd_vec = [] :=
  List.eq_nil_iff_forall_not_mem.mpr fun d hd => Finset.notMem_empty d ((h.list d).mp hd)

/-- The first word is cleared, and with it the set. -/
theorem Low.clear_fd (h : s.Low) (hfd : fd < 256) : s.clear_fd fd = new := by
  have hwords : (s.modify (fd / 256) fun _ => 0).fd_list = new.fd_list := by
    funext i
    rw [modify]
    dsimp only
    split
    · rfl
    · next hi =>
      rw [Nat.div_eq_of_lt hfd] at hi
      exact h i (Fin.val_ne_zero_iff.mp hi)
  rw [clear_fd_eq s (by omega)]
  exact congrArg FdSet.mk hwords

theorem exact_clear_fd_iff (h : Exact s S) (hfd : fd < 1024) :
    Exact (s.clear_fd fd) (S.erase fd) ↔ 256 ≤ fd ∨ S ⊆ {fd} := by
  obtain ⟨hlow, rfl⟩ := exact_iff.mp h
  rcases Nat.lt_or_ge fd 256 with hlt | hge
  · obtain ⟨hlow', hempty⟩ := exact_iff.mp exact_new
    rw [hlow.clear_fd hlt, exact_iff, and_iff_right hlow', hempty,
      or_iff_right (Nat.not_le.mpr hlt), eq_comm, Finset.erase_eq_empty_iff, Finset.subset_singleton_iff]
  · have hsame : (s.modify (fd / 256) fun _ => 0) = s := by
      have hwords : (s.modify (fd / 256) fun _ => 0).fd_list = s.fd_list := by
        funext i
        rw [modify]
        dsimp only
        split
        · rw [hlow i (by rintro rfl; simp at *; omega)]
        · rfl
      exact congrArg FdSet.mk hwords
    have hnot : fd ∉ s.members := fun hmem => by
      have := (hlow.mem_members.mp hmem).1
      omega
    rw [clear_fd_eq s hfd, hsame, Finset.erase_eq_of_notMem hnot]
    exact iff_of_true h (Or.inl hge)

/-- Descriptors the set has no room for are ignored. -/
theorem set_fd_of_ge (h : 1024 ≤ fd) : s.set_fd fd = s := by
  simp [set_fd, check_fd, Nat.not_lt.mpr h]

theorem clear_fd_of_ge (h : 1024 ≤ fd) : s.clear_fd fd = s := by
  simp [clear_fd, check_fd, Nat.not_lt.mpr h]

end Operations

end FdSet

inductive FdSetOp where
  | set_fd (fd : Nat)
  | clear_fd (fd : Nat)
deriving DecidableEq, Repr

namespace FdSetOp

open FdSet

/-- The set of the kernel, beside the set that the calls make of the first one. -/
def step (w : FdSet × Finset Nat) : FdSetOp → Except Empty (FdSet × Finset Nat)
  | set_fd fd => .ok (w.1.set_fd fd, if fd < 1024 then insert fd w.2 else w.2)
  | clear_fd fd => .ok (w.1.clear_fd fd, if fd < 1024 then w.2.erase fd else w.2)

/-- Only descriptors of the first word are set, and one of the first four is cleared only when
there is no other. -/
def Keeps (w : FdSet × Finset Nat) : FdSetOp → Prop
  | set_fd fd => fd < 64 ∨ 1024 ≤ fd
  | clear_fd fd => 256 ≤ fd ∨ w.2 ⊆ {fd}

theorem exact_step_iff {w t : FdSet × Finset Nat} (h : Exact w.1 w.2) (op : FdSetOp)
    (hok : step w op = .ok t) : Exact t.1 t.2 ↔ op.Keeps w := by
  cases op with
  | set_fd fd =>
    cases hok
    rcases Nat.lt_or_ge fd 1024 with hlt | hge
    · simp only [if_pos hlt, Keeps, or_iff_left (Nat.not_le.mpr hlt)]
      exact exact_set_fd_iff h hlt
    · simp only [if_neg (Nat.not_lt.mpr hge), set_fd_of_ge hge, Keeps]
      exact iff_of_true h (Or.inr hge)
  | clear_fd fd =>
    cases hok
    rcases Nat.lt_or_ge fd 1024 with hlt | hge
    · simp only [if_pos hlt, Keeps]
      exact exact_clear_fd_iff h hlt
    · simp only [if_neg (Nat.not_lt.mpr hge), clear_fd_of_ge hge, Keeps]
      exact iff_of_true h (Or.inl (by omega))

/-- The set is the one that user space has after every call of a sequence. -/
theorem fd_set_exact_iff (s : FdSet) (ops : List FdSetOp) :
    (∀ w ∈ states step (s, s.members) ops, Exact w.1 w.2) ↔
      s.Low ∧ Guarded step (fun w op => op.Keeps w) (s, s.members) ops := by
  constructor
  · intro h
    have hfirst := h _ (mem_states_self _ _)
    refine ⟨(exact_iff.mp hfirst).1, guarded_of_states (fun w op hw hnext => ?_) h⟩
    obtain ⟨t, ht⟩ : ∃ t, step w op = .ok t := by cases op <;> exact ⟨_, rfl⟩
    exact (exact_step_iff hw op ht).mp (hnext t ht)
  · rintro ⟨hlow, hkeeps⟩
    exact StepSystem.invariant (fun w => Exact w.1 w.2)
      (fun w op t hw hop ht => (exact_step_iff hw op ht).mpr hop)
      (exact_iff.mpr ⟨hlow, rfl⟩) hkeeps

/-- Of two descriptors one is cleared, and both are gone. -/
theorem clear_fd_clears_word :
    ¬ ∀ w ∈ states step (FdSet.new, FdSet.new.members) [set_fd 3, set_fd 5, clear_fd 3],
      Exact w.1 w.2 := by
  intro h
  have hpair := h _ (List.mem_cons_of_mem _ (List.mem_cons_of_mem _ List.mem_cons_self))
  have hlast := h _ (List.mem_cons_of_mem _ (List.mem_cons_of_mem _ (List.mem_cons_of_mem _
    List.mem_cons_self)))
  rcases (@exact_clear_fd_iff _ _ 3 hpair (by decide)).mp hlast with hge | hsub
  · exact absurd hge (by decide)
  · exact absurd (Finset.mem_singleton.mp (hsub (Finset.mem_insert_self _ _))) (by decide)

end FdSetOp

end MyGOS.Fs
