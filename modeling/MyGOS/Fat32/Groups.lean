import MyGOS.Fat32.Listing

/-!
# Long entries in groups

A long entry that is not deleted belongs to a live short entry: it is in a run
right before it, whose first record has the number of records in its order. On
such records both listings find the same names.
-/

namespace MyGOS.Fat32

open FileSystem

section Order

/-- The order of the first of `c` long entries. -/
theorem first_order : ∀ c < 64, 0 < c → UInt8.ofNat c ||| LAST_LONG_ENTRY ≠ DIR_ENTRY_UNUSED ∧
    (UInt8.ofNat c ||| LAST_LONG_ENTRY) &&& LAST_LONG_ENTRY ≠ 0 ∧
    ((UInt8.ofNat c ||| LAST_LONG_ENTRY) ^^^ LAST_LONG_ENTRY).toNat = c := by
  decide +kernel

theorem order_and_eq_zero : ∀ c < 64, UInt8.ofNat c &&& LAST_LONG_ENTRY = 0 := by
  decide +kernel

theorem lde_order_ne_unused {c i : Nat} (hc : c < 64) (hi : i < c) :
    lde_order c i ≠ DIR_ENTRY_UNUSED := by
  unfold lde_order
  split
  · exact (first_order (c - i) (by omega) (by omega)).1
  · intro heq
    have hnat := congrArg UInt8.toNat heq
    rw [UInt8.toNat_ofNat', show DIR_ENTRY_UNUSED.toNat = 229 from rfl] at hnat
    omega

end Order

/-- The `m` records from `s` on are the long entries of the short entry behind them. -/
structure Group (r : Nat → Dirent) (s m : Nat) : Prop where
  pos : 0 < m
  lt : m < 64
  lde : ∀ i < m, (r (s + i)).attr = ATTR_LONG_NAME ∧ (r (s + i)).order = lde_order m i
  live : is_live r (s + m)

/-- Each of the first `n` records that is a long entry and not deleted is in a group. -/
def Grouped (r : Nat → Dirent) (n : Nat) : Prop :=
  ∀ k < n, ¬ (r k).is_deleted → (r k).attr = ATTR_LONG_NAME →
    ∃ s m, Group r s m ∧ s ≤ k ∧ k < s + m ∧ s + m < n

namespace Group

variable {r r' : Nat → Dirent} {s s' m m' k : Nat}

theorem is_deleted (h : Group r s m) {i : Nat} (hi : i < m) : ¬ (r (s + i)).is_deleted := by
  have hne := lde_order_ne_unused h.lt hi
  rw [← (h.lde i hi).2] at hne
  rw [Dirent.is_deleted, decide_eq_true_eq]
  exact hne

theorem congr (h : Group r s m) (hr : ∀ i ≤ m, (r (s + i)).Same (r' (s + i))) : Group r' s m where
  pos := h.pos
  lt := h.lt
  lde i hi := by
    rw [(hr i hi.le).attr, (hr i hi.le).order]
    exact h.lde i hi
  live := by
    have hlive := h.live
    rw [is_live] at hlive ⊢
    rwa [(hr m le_rfl).is_deleted, (hr m le_rfl).attr]

/-- A short entry is in no group but at its end. -/
theorem end_le (h : Group r s m) (h' : Group r s' m') (hle : s' ≤ s + m) : s' + m' ≤ s + m := by
  by_contra hlt
  obtain ⟨i, hi⟩ := Nat.exists_eq_add_of_le hle
  have hattr := (h'.lde i (by omega)).1
  rw [← hi] at hattr
  exact (of_decide_eq_true h.live).2 hattr

theorem start_le (h : Group r s m) (h' : Group r s' m') (hle : s ≤ s') (hlt : s' < s + m) :
    s' ≤ s := by
  by_contra hne
  obtain ⟨i, rfl⟩ := Nat.exists_eq_add_of_le hle
  have horder := (h.lde i (by omega)).2
  have horder' := (h'.lde 0 h'.pos).2
  rw [Nat.add_zero, horder, lde_order, if_neg (by omega), lde_order, if_pos rfl] at horder'
  apply (first_order (m' - 0) (by have := h'.lt; omega) (by have := h'.pos; omega)).2.1
  rw [← horder']
  exact order_and_eq_zero _ (by have := h.lt; omega)

/-- Two groups with a long entry in common are one. -/
theorem unique (h : Group r s m) (h' : Group r s' m') (hk : s ≤ k ∧ k < s + m)
    (hk' : s' ≤ k ∧ k < s' + m') : s = s' ∧ m = m' := by
  have hend := h.end_le h' (by omega)
  have hend' := h'.end_le h (by omega)
  have hstart : s = s' := by
    obtain hle | hle := le_total s s'
    · exact le_antisymm hle (h.start_le h' hle (by omega))
    · exact le_antisymm (h'.start_le h hle (by omega)) hle
  exact ⟨hstart, by omega⟩

end Group

namespace Grouped

variable {r r' : Nat → Dirent} {cnt n k s m : Nat}

/-- No long entries come before a group. -/
theorem name_before_start (hg : Grouped r n) (h : Group r s m) (hlt : s < n) :
    name_before r s = none := by
  cases s with
  | zero => rfl
  | succ t =>
    rw [name_before]
    by_cases hlong : (r t).is_deleted ∨ (r t).attr ≠ ATTR_LONG_NAME
    · exact if_pos hlong
    · exfalso
      rw [not_or, not_not] at hlong
      obtain ⟨s', m', h', hle, hlt', -⟩ := hg t (by omega) hlong.1 hlong.2
      have hpos := h.pos
      have hne : t + 1 ≠ s' + m' := by
        intro heq
        have hattr := (h.lde 0 hpos).1
        rw [Nat.add_zero, heq] at hattr
        exact (of_decide_eq_true h'.live).2 hattr
      have hsame := (h.unique h' ⟨le_rfl, by omega⟩ ⟨by omega, by omega⟩).1
      omega

/-- A long entry after no other one is the first of its group. -/
theorem start (hg : Grouped r n) (hk : k < n) (hfresh : name_before r k = none)
    (hdeleted : ¬ (r k).is_deleted) (hattr : (r k).attr = ATTR_LONG_NAME) :
    ∃ m, Group r k m ∧ k + m < n := by
  obtain ⟨s, m, h, hle, hlt, hn⟩ := hg k hk hdeleted hattr
  obtain rfl | hlt' := hle.eq_or_lt
  · exact ⟨m, h, hn⟩
  · exfalso
    obtain ⟨i, hi⟩ := Nat.exists_eq_add_of_lt hlt'
    rw [hi, name_before, if_neg] at hfresh
    · cases hfresh
    · rintro (hdeleted | hattr)
      · exact h.is_deleted (by omega) hdeleted
      · exact hattr (h.lde i (by omega)).1

/-- The name that is put together for the short entry of a group. -/
theorem name_before_end (hg : Grouped r n) (h : Group r s m) (hlt : s < n) :
    name_before r (s + m) = some (run_name r m s) := by
  have hlde : ∀ i < m, ¬ ((r (s + i)).is_deleted ∨ (r (s + i)).attr ≠ ATTR_LONG_NAME) := by
    rintro i hi (hdeleted | hattr)
    · exact h.is_deleted hi hdeleted
    · exact hattr (h.lde i hi).1
  have hrun := name_before_run hlde
  rw [hg.name_before_start h hlt, Option.getD_none, List.append_nil] at hrun
  obtain ⟨t, ht⟩ := Nat.exists_eq_add_of_lt h.pos
  have hlast := hlde t (by omega)
  rw [show s + m = s + t + 1 by omega, name_before, if_neg hlast] at hrun ⊢
  exact congrArg some hrun

theorem live_from_group (h : Group r s m) (hn : s + m < end_index r cnt) :
    live_from r cnt s = (s + m) :: live_from r cnt (s + m + 1) := by
  have hskip : ∀ i ≤ m, live_from r cnt s = live_from r cnt (s + i) := by
    intro i hi
    induction i with
    | zero => rfl
    | succ i ih =>
      have hlive : ¬ is_live r (s + i) := fun hlive =>
        (of_decide_eq_true hlive).2 (h.lde i hi).1
      rw [ih (by omega), live_from_of_lt (by omega), if_neg hlive]
      rfl
  rw [hskip m le_rfl, live_from_of_lt hn, if_pos h.live]

/-- What a listing has of a live entry. -/
def shown (r : Nat → Dirent) (k : Nat) : Name × UInt8 := ((live_info r k).name, (r k).attr)

/-- `ls_with_attr` lists the live entries, with the names that `dir_info` gives them. -/
theorem ls_from (hg : Grouped r n) (hl : Listed r cnt n) (hk : k ≤ n)
    (hfresh : name_before r k = none) :
    LsFrom r cnt k ((live_from r cnt k).map (shown r)) := by
  have hle := hl.le
  have hend := hl.end_index
  induction hm : n - k using Nat.strong_induction_on generalizing k with
  | _ m ih =>
    subst hm
    obtain rfl | hlt := hk.eq_or_lt
    · rw [live_from_of_ge hend.le]
      refine .done fun hlt => ?_
      rw [hl.blank k le_rfl hlt]
      rfl
    have hin_use := hl.in_use k hlt
    by_cases hdeleted : (r k).is_deleted
    · have hlive : ¬ is_live r k := fun hlive => (of_decide_eq_true hlive).1 hdeleted
      rw [live_from_of_lt (by omega), if_neg hlive]
      refine .deleted (by omega) hdeleted (ih (n - (k + 1)) (by omega) (by omega) ?_ rfl)
      rw [name_before, if_pos (.inl hdeleted)]
    by_cases hattr : (r k).attr = ATTR_LONG_NAME
    · obtain ⟨m, h, hn⟩ := hg.start hlt hfresh hdeleted hattr
      have hfirst := first_order m h.lt h.pos
      have horder := (h.lde 0 h.pos).2
      rw [Nat.add_zero, lde_order, if_pos rfl, Nat.sub_zero] at horder
      have hshown : shown r (k + m) = (run_name r m k, (r (k + m)).attr) := by
        rw [shown, live_info, hg.name_before_end h hlt]
        rfl
      rw [live_from_group h (by omega), List.map_cons, hshown]
      refine .long (by omega) hin_use hdeleted hattr (horder ▸ hfirst.2.2) ?_
        (ih (n - (k + m + 1)) (by omega) (by omega) (name_before_of_live r h.live) rfl)
      exact fun i _ hi => ⟨by omega, hl.in_use i (by omega)⟩
    · have hlive : is_live r k := decide_eq_true ⟨hdeleted, hattr⟩
      have hshown : shown r k = ((r k).get_name_lowercase, (r k).attr) := by
        rw [shown, live_info, hfresh]
        rfl
      rw [live_from_of_lt (by omega), if_pos hlive, List.map_cons, hshown]
      exact .short (by omega) hin_use hlive
        (ih (n - (k + 1)) (by omega) (by omega) (name_before_of_live r hlive) rfl)

/-- Short entries may change what is not their name. -/
theorem same (hg : Grouped r n) (hr : ∀ k < n, (r k).Same (r' k)) : Grouped r' n := by
  intro k hk hdeleted hattr
  rw [(hr k hk).is_deleted] at hdeleted
  rw [(hr k hk).attr] at hattr
  obtain ⟨s, m, h, hle, hlt, hn⟩ := hg k hk hdeleted hattr
  exact ⟨s, m, h.congr fun i _ => hr (s + i) (by omega), hle, hlt, hn⟩

end Grouped

/-- The records of the entry whose short record is `last`, from `first` on. -/
inductive EntryAt (r : Nat → Dirent) : (first last : Nat) → Prop where
  | short {k : Nat} (hlive : is_live r k) (hfresh : name_before r k = none) : EntryAt r k k
  | long {s m : Nat} (h : Group r s m) : EntryAt r s (s + m)

theorem EntryAt.is_live {r : Nat → Dirent} {first last : Nat} (h : EntryAt r first last) : is_live r last := by
  cases h with
  | short hlive _ => exact hlive
  | long h => exact h.live

/-- An entry is deleted with all its records. -/
theorem Grouped.delete {r r' : Nat → Dirent} {n first last : Nat} (hg : Grouped r n)
    (he : EntryAt r first last) (hlast : last < n)
    (hdeleted : ∀ k, first ≤ k → k ≤ last → (r' k).is_deleted)
    (hkeep : ∀ k < n, ¬ (first ≤ k ∧ k ≤ last) → r' k = r k) : Grouped r' n := by
  intro k hk hnot hattr
  have hout : ¬ (first ≤ k ∧ k ≤ last) := fun ⟨hge, hle⟩ => hnot (hdeleted k hge hle)
  rw [hkeep k hk hout] at hnot hattr
  obtain ⟨s, m, h, hle, hlt, hn⟩ := hg k hk hnot hattr
  have hapart : ∀ i ≤ m, ¬ (first ≤ s + i ∧ s + i ≤ last) := by
    intro i hi ⟨hge, hle'⟩
    cases he with
    | short hlive hfresh =>
      obtain rfl : first = s + i := le_antisymm hge hle'
      obtain hi | rfl := hi.lt_or_eq
      · exact (of_decide_eq_true hlive).2 (h.lde i hi).1
      · rw [hg.name_before_end h (by omega)] at hfresh
        cases hfresh
    | @long m' h' =>
      have hsame : ∃ j, (s ≤ j ∧ j < s + m) ∧ first ≤ j ∧ j < first + m' := by
        obtain hi | rfl := hi.lt_or_eq
        · refine ⟨s + i, ⟨Nat.le_add_right .., by omega⟩, hge, hle'.lt_of_ne fun heq => ?_⟩
          have hattr := (h.lde i hi).1
          rw [heq] at hattr
          exact (of_decide_eq_true h'.live).2 hattr
        · have hpos := h.pos
          have hpos' := h'.pos
          have hend := h.end_le h' hge
          exact ⟨s + i - 1, ⟨by omega, by omega⟩, by omega, by omega⟩
      obtain ⟨j, hj, hj'⟩ := hsame
      obtain ⟨rfl, rfl⟩ := h.unique h' hj hj'
      exact hout ⟨hle, hlt.le⟩
  refine ⟨s, m, h.congr fun i hi => ?_, hle, hlt, hn⟩
  rw [hkeep (s + i) (by omega) (hapart i hi)]
  exact .refl _

/-- The long entries of a new name are a group. -/
theorem Grouped.extends {r r' : Nat → Dirent} {cnt n : Nat} {name : Name}
    {file_type : VirtFileType} (hg : Grouped r n) (h : Extends r r' cnt n name file_type)
    (hsplit : long_name_split name ≠ []) (hc : (lfn_vec name).length < 64)
    (hlive : ¬ (short_entry name file_type).is_deleted) :
    Grouped r' (n + (lfn_vec name).length + 1) := by
  have hnew : Group r' n (lfn_vec name).length := by
    refine ⟨length_lfn_vec name hsplit, hc, fun i hi => h.lde_attr hi, decide_eq_true ⟨?_, h.sde_attr⟩⟩
    rw [h.sde.is_deleted]
    exact hlive
  intro k hk hdeleted hattr
  by_cases hkn : k < n
  · rw [(h.old k hkn).is_deleted] at hdeleted
    rw [(h.old k hkn).attr] at hattr
    obtain ⟨s, m, hgroup, hle, hlt, hn⟩ := hg k hkn hdeleted hattr
    exact ⟨s, m, hgroup.congr fun i hi => h.old (s + i) (by omega), hle, hlt, by omega⟩
  · refine ⟨n, _, hnew, by omega, ?_, by omega⟩
    obtain hlt | rfl : k < n + (lfn_vec name).length ∨ k = n + (lfn_vec name).length := by omega
    · exact hlt
    · exact absurd hattr h.sde_attr

/-- What a search finds is an entry with all its records, if no long entries are left out. -/
theorem Grouped.found {r : Nat → Dirent} {cnt n k : Nat} {name : Name} (hg : Grouped r n)
    (hl : Listed r cnt n) (hzero : '\x00' ∉ name) (hfound : lookup r cnt name = some k)
    (hlive : is_live r (k + lde_cnt name)) (hall : is_long name ∨ name_before r k = none) :
    EntryAt r k (k + lde_cnt name) ∧ k + lde_cnt name < n := by
  obtain ⟨hm, hk, -⟩ := lookup_eq_some.mp hfound
  have hlt := hl.match_lt hzero hm hk
  refine ⟨?_, hlt⟩
  unfold name_match at hm
  unfold lde_cnt at hlt hlive ⊢
  split at hm
  · next hlong =>
    rw [if_pos hlong] at hlt ⊢
    have hpos := List.length_pos_iff.mpr (long_name_split_of_is_long hlong)
    rw [lfn_match, decide_eq_true_eq, not_or] at hm
    obtain ⟨⟨hattr, -⟩, ⟨hbit, hunused⟩, horder, -⟩ := hm
    have hdeleted : ¬ (r k).is_deleted := by
      rw [Dirent.is_deleted, decide_eq_true_eq]
      exact hunused
    obtain ⟨s, m, h, hle, hks, -⟩ := hg k (by omega) hdeleted hattr
    obtain ⟨i, rfl⟩ := Nat.exists_eq_add_of_le hle
    have hi := (h.lde i (by omega)).2
    obtain rfl | hi0 := Nat.eq_zero_or_pos i
    · have hm := (first_order m h.lt h.pos).2.2
      rw [hi, lde_order, if_pos rfl, Nat.sub_zero, hm] at horder
      rw [Nat.add_zero, ← horder]
      exact .long h
    · rw [hi, lde_order, if_neg (by omega)] at hbit
      exact absurd (order_and_eq_zero _ (by have := h.lt; omega)) hbit
  · next hshort =>
    rw [if_neg hshort] at hlive ⊢
    exact .short hlive (hall.resolve_left hshort)

end MyGOS.Fat32
