import MyGOS.Fat32.Create
import MyGOS.Fat32.Groups
import MyGOS.Fat32.Mount
import MyGOS.Fat32.ShortNames
import MyGOS.Fat32.Utf16

/-!
# Which names can be created

The search for a short name compares it with the upper-case name in the short
entry, so a name that this entry has only a part of is written but not found. A
long name is found by its long entries, which are decoded one by one.
-/

namespace MyGOS.Fat32

open Outcome FileSystem

/-- The characters that are not in a long name. -/
def is_forbidden (c : Char) : Prop :=
  c.toNat < 32 ∨ c ∈ ['"', '*', '/', ':', '<', '>', '?', '\\', '|']

instance : DecidablePred is_forbidden := fun _ => inferInstanceAs (Decidable (_ ∨ _))

structure LegalName (name : Name) : Prop where
  ne_nil : name ≠ []
  length : name.length ≤ 255
  legal : ∀ c ∈ name, ¬ is_forbidden c
  ne_dot : name ≠ ['.']
  ne_dots : name ≠ ['.', '.']

instance : DecidablePred LegalName := fun name =>
  decidable_of_iff (name ≠ [] ∧ name.length ≤ 255 ∧ name.all (fun c => ¬ is_forbidden c) ∧
      name ≠ ['.'] ∧ name ≠ ['.', '.'])
    ⟨fun h => ⟨h.1, h.2.1, by simpa using h.2.2.1, h.2.2.2.1, h.2.2.2.2⟩,
      fun h => ⟨h.ne_nil, h.length, by simpa using h.legal, h.ne_dot, h.ne_dots⟩⟩

/-- A name that is found and listed when it was created. -/
def Creatable (name : Name) : Prop :=
  if is_long name then Paired (name_parts name) else ShortForm name

instance : DecidablePred Creatable := fun name =>
  inferInstanceAs (Decidable (if is_long name then _ else _))

/-- A search finds the records of the name once they are written: the order of the first long entry
has the number of the pieces, or the short entry has the name as a whole. -/
def Findable (name : Name) : Prop :=
  if is_long name then
    (lfn_vec name).length < 256 ∧ UInt8.ofNat (lfn_vec name).length &&& LAST_LONG_ENTRY = 0 ∧
      (lfn_vec name).length ≠ 165
  else name = ['.'] ∨ name = ['.', '.'] ∨ ShortForm name

instance : DecidablePred Findable := fun name =>
  inferInstanceAs (Decidable (if is_long name then _ else _))

/-- The name that is read from the long entries of a new name. -/
def written_name (name : Name) : Name :=
  ((lfn_vec name).map (·.takeWhile (· ≠ 0))).flatMap Name.from_utf16_lossy

namespace LegalName

variable {name : Name}

theorem zero_notMem (h : LegalName name) : '\x00' ∉ name :=
  fun hc => h.legal _ hc (.inl (by decide))

theorem length_pieces (h : LegalName name) : (long_name_split name).length ≤ 40 := by
  have hunits : ∀ name : Name, name.encode_utf16.length ≤ 2 * name.length := by
    intro name
    induction name with
    | nil => exact le_rfl
    | cons c cs ih =>
      have hc : (Name.encode_utf16_char c).length ≤ 2 := by
        unfold Name.encode_utf16_char
        split <;> simp
      rw [Name.encode_utf16] at ih ⊢
      rw [List.flatMap_cons, List.length_append, List.length_cons]
      omega
  have hlen := hunits name
  have hle := h.length
  rw [length_long_name_split]
  unfold LONG_NAME_LEN_CAP
  omega

theorem length_lfn_vec_le (h : LegalName name) : (lfn_vec name).length ≤ 40 := by
  have hle := h.length_pieces
  unfold lfn_vec
  split
  · exact hle
  · rw [List.length_take]
    omega

end LegalName

section Order

/-- The order of the first of `c` long entries is read as `c`. -/
theorem first_order_iff : ∀ c < 256, ¬ (lde_order c 0 &&& LAST_LONG_ENTRY = 0 ∨
      lde_order c 0 = DIR_ENTRY_UNUSED) ∧ (lde_order c 0 ^^^ LAST_LONG_ENTRY).toNat = c ↔
    UInt8.ofNat c &&& LAST_LONG_ENTRY = 0 ∧ c ≠ 165 := by
  decide +kernel

theorem findable_iff {name : Name} (hc : (lfn_vec name).length < 64) (hdot : name ≠ ['.'])
    (hdots : name ≠ ['.', '.']) : Findable name ↔ is_long name ∨ ShortForm name := by
  rw [Findable]
  split
  · next hlong =>
    have hbit := order_and_eq_zero _ hc
    exact iff_of_true ⟨by omega, hbit, by omega⟩ (.inl hlong)
  · next hshort =>
    constructor
    · exact fun h => .inr ((h.resolve_left hdot).resolve_left hdots)
    · exact fun h => .inr (.inr (h.resolve_left hshort))

end Order

section Match

variable {r : Nat → Dirent} {k : Nat}

theorem pieces_match_of {pieces : List (List Nat)} (h : ∀ i (hi : i < pieces.length),
    (r (k + 1 + i)).name_utf16 = pieces[i] ∧ (r (k + 1 + i)).attr = ATTR_LONG_NAME) :
    pieces_match r k pieces := by
  induction pieces generalizing k with
  | nil => rfl
  | cons piece pieces ih =>
    have hfirst := h 0 (Nat.succ_pos _)
    rw [pieces_match, decide_eq_true_eq]
    refine ⟨hfirst.1, hfirst.2, ih fun i hi => ?_⟩
    have hnext := h (i + 1) (by rw [List.length_cons]; omega)
    rw [List.getElem_cons_succ, show k + 1 + (i + 1) = k + 1 + 1 + i by omega] at hnext
    exact hnext

end Match

namespace Extends

variable {r r' : Nat → Dirent} {cnt n i : Nat} {name : Name} {file_type : VirtFileType}

theorem lde_record (h : Extends r r' cnt n name file_type) (hi : i < (lfn_vec name).length) :
    r' (n + i) = .new_form_name_slice (lde_order (lfn_vec name).length i)
      (lfn_vec name)[(lfn_vec name).length - 1 - i]
      (short_entry name file_type).gen_check_sum := by
  have hget := h.lde i hi
  rw [getElem_long_entries _ _ hi, Option.some.injEq] at hget
  exact hget.symm

theorem lde_name_utf16 (h : Extends r r' cnt n name file_type) (hi : i < (lfn_vec name).length) :
    (r' (n + i)).name_utf16 = (lfn_vec name)[(lfn_vec name).length - 1 - i] := by
  have hpiece : (lfn_vec name)[(lfn_vec name).length - 1 - i] ∈ long_name_split name :=
    mem_lfn_vec name (List.getElem_mem _)
  rw [h.lde_record hi]
  exact Dirent.name_utf16_new_form_name_slice _ _ _ (length_of_mem_long_name_split name hpiece)
    (lt_of_mem_long_name_split name hpiece)

theorem lde_is_deleted (h : Extends r r' cnt n name file_type) (hc : (lfn_vec name).length < 64)
    (hi : i < (lfn_vec name).length) : ¬ (r' (n + i)).is_deleted := by
  have horder := (h.lde_attr hi).2
  have hne := lde_order_ne_unused hc hi
  rw [← horder] at hne
  rw [Dirent.is_deleted, decide_eq_true_eq]
  exact hne

theorem sde_is_deleted (h : Extends r r' cnt n name file_type)
    (hform : is_long name ∨ ∀ c ∈ name, c.toNat < 256) :
    ¬ (r' (n + (lfn_vec name).length)).is_deleted := by
  rw [h.sde.is_deleted]
  apply short_entry_is_deleted
  split
  · exact generate_short_name_lt name
  · next hshort => exact hform.resolve_left hshort

/-- The records of a long name match it, if the order of the first one has their number. -/
theorem lfn_match_own_iff (h : Extends r r' cnt n name file_type) (hlong : is_long name) :
    lfn_match r' name n ↔
      ¬ (lde_order (lfn_vec name).length 0 &&& LAST_LONG_ENTRY = 0 ∨
        lde_order (lfn_vec name).length 0 = DIR_ENTRY_UNUSED) ∧
      (lde_order (lfn_vec name).length 0 ^^^ LAST_LONG_ENTRY).toNat = (lfn_vec name).length := by
  have hvec := lfn_vec_of_is_long name hlong
  have hpos := List.length_pos_iff.mpr (long_name_split_of_is_long hlong)
  have hname := fun i => @lde_name_utf16 r r' cnt n i name file_type h
  have hattr := fun i hi => (@lde_attr r r' cnt n i name file_type h hi)
  have hsum := (@lde_record r r' cnt n ((lfn_vec name).length - 1) name file_type h (by
    rw [hvec]
    omega))
  have hdeleted := h.sde_is_deleted (.inl hlong)
  simp only [hvec] at hname hattr hsum hdeleted ⊢
  have horder := (hattr 0 hpos).2
  rw [Nat.add_zero] at horder
  have hhead : (r' n).attr = ATTR_LONG_NAME ∧
      (r' n).name_utf16 = (long_name_split name).getLastD [] := by
    have hlast := hname 0 hpos
    rw [Nat.add_zero] at hlast
    refine ⟨(hattr 0 hpos).1, ?_⟩
    rw [hlast, List.getLastD_eq_getLast?, List.getLast?_eq_getElem?,
      List.getElem?_eq_getElem (by omega)]
    rfl
  have hpieces : pieces_match r' n (long_name_split name).dropLast.reverse := by
    apply pieces_match_of
    intro i hi
    rw [List.length_reverse, List.length_dropLast] at hi
    have hadd : n + 1 + i = n + (i + 1) := by omega
    rw [hadd]
    refine ⟨?_, (hattr (i + 1) (by omega)).1⟩
    rw [hname (i + 1) (by omega), List.getElem_reverse, List.getElem_dropLast]
    congr 1
    rw [List.length_dropLast]
    omega
  have hcheck : (r' (n + ((long_name_split name).length - 1))).check_sum =
      (r' (n + (long_name_split name).length)).gen_check_sum := by
    have hsde := h.sde.gen_check_sum
    rw [hvec] at hsde
    rw [hsum, Dirent.check_sum_new_form_name_slice _ _ _ (Dirent.gen_check_sum_lt _), hsde]
  rw [lfn_match, decide_eq_true_eq, horder]
  exact ⟨fun hm => ⟨hm.2.1, hm.2.2.1⟩, fun hm => ⟨hhead, hm.1, hm.2, hpieces, hdeleted, hcheck⟩⟩

theorem length_lfn_vec_short (hsplit : long_name_split name ≠ []) (hshort : ¬ is_long name) :
    (lfn_vec name).length = 1 := by
  have hpos := length_lfn_vec name hsplit
  rw [lfn_vec, if_neg hshort, List.length_take] at hpos ⊢
  omega

/-- A short name, in upper case, is that of its short entry. -/
theorem short_entry_name_iff (hshort : ¬ is_long name) (file_type : VirtFileType) :
    name.to_ascii_uppercase = (short_entry name file_type).get_name_uppercase ↔
      name = ['.'] ∨ name = ['.', '.'] ∨ ShortForm name := by
  by_cases hdot : name = ['.']
  · subst hdot
    cases file_type <;> decide
  by_cases hdots : name = ['.', '.']
  · subst hdots
    cases file_type <;> decide
  rw [short_form_iff hshort hdot hdots]
  exact ⟨fun h => .inr (.inr h), fun h => (h.resolve_left hdot).resolve_left hdots⟩

/-- The records of a name match it if it can be found. -/
theorem name_match_own_iff (h : Extends r r' cnt n name file_type)
    (hsplit : long_name_split name ≠ []) :
    name_match r' name (own_index name n) ↔ Findable name := by
  have hown := own_index_add hsplit n
  unfold lde_cnt at hown
  rw [name_match, Findable]
  split
  · next hlong =>
    rw [if_pos hlong, ← lfn_vec_of_is_long name hlong] at hown
    rw [show own_index name n = n by omega, h.lfn_match_own_iff hlong]
    by_cases hc : (lfn_vec name).length < 256
    · rw [first_order_iff _ hc]
      exact ⟨fun hm => ⟨hc, hm⟩, fun hm => hm.2⟩
    · have hlt := (lde_order (lfn_vec name).length 0 ^^^ LAST_LONG_ENTRY).toNat_lt
      exact iff_of_false (fun hm => hc (hm.2 ▸ hlt)) fun hm => hc hm.1
  · next hshort =>
    rw [if_neg hshort, Nat.add_zero] at hown
    rw [hown, sfn_match, decide_eq_true_eq, h.sde.get_name_uppercase,
      short_entry_name_iff hshort]
    refine ⟨fun hm => hm.2, fun hform => ⟨h.sde_is_deleted (.inr fun c hc => ?_), hform⟩⟩
    obtain rfl | rfl | hform := hform
    · rw [List.mem_singleton.mp hc]
      decide
    · rw [List.eq_of_mem_replicate (n := 2) hc]
      decide
    · have hlt := toNat_of_ascii (hform.1 c hc).1
      omega

/-- A name that can be found is found once its records are there. -/
theorem lookup_ne_none (h : Extends r r' cnt n name file_type) (hsplit : long_name_split name ≠ [])
    (hfindable : Findable name) : lookup r' cnt name ≠ none := by
  intro hnone
  have hle := h.le
  have hown := own_index_add hsplit n
  exact lookup_eq_none.mp hnone _ (by omega) ((h.name_match_own_iff hsplit).mpr hfindable)

/-- Any other name is not, if it was not there before. -/
theorem lookup_none {cnt' : Nat} (h : Extends r r' cnt n name file_type) (hl : Listed r cnt' n)
    (hsplit : long_name_split name ≠ []) (hzero : '\x00' ∉ name)
    (hnone : lookup r cnt' name = none) (hnot : ¬ Findable name) : lookup r' cnt name = none := by
  by_cases hc : (lfn_vec name).length < 256
  · refine (h.lookup_new hl hsplit hzero hc hnone).resolve_right fun hown => hnot ?_
    exact (h.name_match_own_iff hsplit).mp (lookup_eq_some.mp hown).1
  · have hlong : is_long name := by
      by_contra hshort
      rw [length_lfn_vec_short hsplit hshort] at hc
      exact hc (by decide)
    rw [lfn_vec_of_is_long name hlong] at hc
    apply lookup_eq_none.mpr
    intro k _ hm
    rw [name_match, if_pos hlong, lfn_match, decide_eq_true_eq] at hm
    have hlt := ((r' k).order ^^^ LAST_LONG_ENTRY).toNat_lt
    rw [hm.2.2.1] at hlt
    exact hc hlt

theorem lookup_own_iff (h : Extends r r' cnt n name file_type)
    (hsplit : long_name_split name ≠ []) (hc : (lfn_vec name).length < 64) (hdot : name ≠ ['.'])
    (hdots : name ≠ ['.', '.'])
    (hnew : lookup r' cnt name = none ∨ lookup r' cnt name = some (own_index name n)) :
    lookup r' cnt name = some (own_index name n) ↔ is_long name ∨ ShortForm name := by
  rw [← findable_iff hc hdot hdots]
  constructor
  · exact fun hfound => (h.name_match_own_iff hsplit).mp (lookup_eq_some.mp hfound).1
  · exact fun hfindable => hnew.resolve_left (h.lookup_ne_none hsplit hfindable)

/-- The parts of the name before its short entry. -/
theorem parts_before_own {cnt' : Nat} (h : Extends r r' cnt n name file_type)
    (hl : Listed r cnt' n) (hc : (lfn_vec name).length < 64) {m : Nat}
    (hm : m ≤ (lfn_vec name).length) : parts_before r' (n + m) =
      ((lfn_vec name).drop ((lfn_vec name).length - m)).map (·.takeWhile (· ≠ 0)) := by
  induction m with
  | zero =>
    rw [Nat.sub_zero, List.drop_length, Nat.add_zero]
    cases n with
    | zero => rfl
    | succ n =>
      have hattr := hl.last n rfl
      rw [← (h.old n (Nat.lt_succ_self n)).attr] at hattr
      rw [parts_before, if_pos (.inr hattr)]
      rfl
  | succ m ih =>
    have hlong : ¬ ((r' (n + m)).is_deleted ∨ (r' (n + m)).attr ≠ ATTR_LONG_NAME) := by
      rintro (hdeleted | hattr)
      · exact h.lde_is_deleted hc hm hdeleted
      · exact hattr (h.lde_attr hm).1
    have hdrop : (lfn_vec name).drop ((lfn_vec name).length - (m + 1)) =
        (lfn_vec name)[(lfn_vec name).length - 1 - m] ::
          (lfn_vec name).drop ((lfn_vec name).length - m) := by
      rw [List.drop_eq_getElem_cons (by omega)]
      congr 1
      · congr 1
        omega
      · congr 1
        omega
    rw [← Nat.add_assoc, parts_before, if_neg hlong, h.lde_name_utf16 hm, ih (by omega), hdrop,
      List.map_cons]

/-- The name that is put together from the long entries. -/
theorem name_before_own {cnt' : Nat} (h : Extends r r' cnt n name file_type)
    (hl : Listed r cnt' n) (hc : (lfn_vec name).length < 64) (hsplit : long_name_split name ≠ []) :
    name_before r' (n + (lfn_vec name).length) = some (written_name name) := by
  have hparts := h.parts_before_own hl hc le_rfl
  have hpos := length_lfn_vec name hsplit
  obtain ⟨hname, hnone⟩ := name_before_parts r' (n + (lfn_vec name).length)
  rw [Nat.sub_self, List.drop_zero] at hparts
  rw [hparts] at hname hnone
  cases hbefore : name_before r' (n + (lfn_vec name).length) with
  | none =>
    rw [List.map_eq_nil_iff] at hnone
    rw [hnone.mp hbefore] at hpos
    exact absurd hpos (lt_irrefl 0)
  | some before =>
    rw [hbefore] at hname
    exact congrArg some hname

end Extends

section Names

variable {name : Name}

/-- The parts of a long name give it back if they are paired. -/
theorem flatMap_name_parts_iff (hzero : '\x00' ∉ name) :
    (name_parts name).flatMap Name.from_utf16_lossy = name ↔ Paired (name_parts name) := by
  have hflat : Name.from_utf16_lossy (name_parts name).flatten = name := by
    rw [flatten_name_parts hzero, Name.from_utf16_lossy_encode_utf16]
  constructor
  · intro heq
    by_contra hnot
    obtain ⟨before, c, after, after', hwhole, hc, hparts⟩ := Name.from_utf16_lossy_flatten_ne hnot
    rw [hflat] at hwhole
    rw [heq, hwhole] at hparts
    have hhead := (List.cons.inj (List.append_cancel_left hparts)).1
    rw [hhead] at hc
    exact absurd hc (by decide)
  · intro hpaired
    rw [← Name.from_utf16_lossy_flatten hpaired, hflat]

theorem ShortForm.length_le (h : ShortForm name) (hshort : ¬ is_long name) : name.length ≤ 12 := by
  have hlen : (split_name_ext name).1.len ≤ 8 ∧ (split_name_ext name).2.len ≤ 3 := by
    rw [is_long, decide_eq_true_eq, not_or, not_lt, not_lt] at hshort
    exact hshort
  by_cases hmem : '.' ∈ name
  · obtain ⟨base, rest, rfl, hbase⟩ := List.eq_append_cons_of_mem hmem
    obtain ⟨ext, tail, rfl, hext, htail⟩ := exists_part rest
    have hlast := h.2.2
    obtain ⟨hascii, hascii', -, rfl⟩ := (short_form_cons_iff hbase hext htail).mp h
    rw [split_name_ext_cons hbase hext htail ?_ ?_] at hlen
    · rw [Name.len_of_ascii fun c hc => (hascii c hc).1,
        Name.len_of_ascii fun c hc => (hascii' c hc).1] at hlen
      rw [List.append_nil, List.length_append, List.length_cons]
      omega
    · intro heq
      exact hlast (congrArg List.getLast? heq)
    · intro heq
      exact hlast (congrArg List.getLast? heq)
  · rw [split_name_ext_of_notMem hmem, Name.len_of_ascii fun c hc => (h.1 c hc).1] at hlen
    omega

/-- A short name of the form for that is in one long entry. -/
theorem ShortForm.lfn_vec_eq (h : ShortForm name) (hne : name ≠ []) (hshort : ¬ is_long name) :
    lfn_vec name = long_name_split name ∧ Paired (name_parts name) := by
  have hunits : name.encode_utf16.length = name.length := by
    have hascii := fun c hc => (h.1 c hc).1
    clear h hne hshort
    induction name with
    | nil => rfl
    | cons c cs ih =>
      have hc := toNat_of_ascii (hascii c List.mem_cons_self)
      have hcs := ih fun c hc => hascii c (List.mem_cons_of_mem _ hc)
      rw [Name.encode_utf16] at hcs ⊢
      rw [List.flatMap_cons, List.length_append, hcs, Name.encode_utf16_char, if_pos (by omega),
        List.length_singleton, List.length_cons, Nat.add_comm]
  have hle := h.length_le hshort
  have hpos := List.length_pos_iff.mpr hne
  have hlen := length_long_name_split name
  rw [hunits] at hlen
  have hone : (long_name_split name).length = 1 := by
    unfold LONG_NAME_LEN_CAP at hlen
    omega
  obtain ⟨piece, hpiece⟩ := List.length_eq_one_iff.mp hone
  rw [lfn_vec, if_neg hshort, name_parts, hpiece]
  refine ⟨rfl, fun hhalved => ?_, trivial⟩
  obtain ⟨v, hv, -⟩ := hhalved.2
  cases hv

end Names

/-- The name in the long entries of a new name is the name, if it can be created. -/
theorem written_name_iff {name : Name} (h : LegalName name)
    (hform : is_long name ∨ ShortForm name) : written_name name = name ↔ Creatable name := by
  rw [Creatable, written_name]
  split
  · next hlong =>
    rw [lfn_vec_of_is_long name hlong]
    exact flatMap_name_parts_iff h.zero_notMem
  · next hshort =>
    have hform := hform.resolve_left hshort
    obtain ⟨hvec, hpaired⟩ := hform.lfn_vec_eq h.ne_nil hshort
    rw [hvec]
    exact iff_of_true ((flatMap_name_parts_iff h.zero_notMem).mpr hpaired) hform

namespace Extends

variable {r r' : Nat → Dirent} {cnt cnt' n : Nat} {name : Name} {file_type : VirtFileType}

theorem end_index_eq (h : Extends r r' cnt' n name file_type) (hl : Listed r cnt n)
    (hzero : '\x00' ∉ name) (hc : (lfn_vec name).length < 64) :
    end_index r' cnt' = n + (lfn_vec name).length + 1 :=
  (h.listed hl hzero (by omega)).end_index

theorem congr (h : Extends r r' cnt' n name file_type) {s s' : Nat → Dirent}
    (hs : ∀ k < n, s k = r k) (hs' : ∀ k < cnt', s' k = r' k) :
    Extends s s' cnt' n name file_type where
  le := h.le
  old k hk := by
    have hle := h.le
    rw [hs k hk, hs' k (by omega)]
    exact h.old k hk
  lde i hi := by
    have hle := h.le
    rw [hs' (n + i) (by omega)]
    exact h.lde i hi
  sde := by
    rw [hs' _ h.le]
    exact h.sde
  blank k hk hk' := (hs' k hk').trans (h.blank k hk hk')

/-- The new entry is behind those that were there. -/
theorem live_from_own (h : Extends r r' cnt' n name file_type) (hl : Listed r cnt n)
    (hzero : '\x00' ∉ name) (hc : (lfn_vec name).length < 64)
    (hform : is_long name ∨ ShortForm name) :
    live_from r' cnt' 0 = live_from r cnt 0 ++ [n + (lfn_vec name).length] := by
  have hlde : ∀ k ∈ List.range' n (lfn_vec name).length, ¬ is_live r' k := by
    intro k hk hlive
    obtain ⟨hge, hlt⟩ := List.mem_range'_1.mp hk
    obtain ⟨i, rfl⟩ := Nat.exists_eq_add_of_le hge
    exact (of_decide_eq_true hlive).2 (h.lde_attr (by omega)).1
  have hsde : is_live r' (n + (lfn_vec name).length) := by
    apply decide_eq_true
    refine ⟨h.sde_is_deleted (hform.imp_right fun hform c hc => ?_), h.sde_attr⟩
    have hlt := toNat_of_ascii (hform.1 c hc).1
    omega
  have hold : (List.range' 0 n).filter (is_live r') = (List.range' 0 n).filter (is_live r) := by
    apply List.filter_congr
    intro k hk
    have hsame := h.old k (by have := (List.mem_range'_1.mp hk).2; omega)
    rw [is_live, is_live, hsame.is_deleted, hsame.attr]
  rw [live_from, live_from, h.end_index_eq hl hzero hc, hl.end_index, Nat.sub_zero, Nat.sub_zero,
    List.range'_1_concat, List.filter_append, List.filter_singleton, Nat.zero_add, hsde,
    ← List.range'_append_1, List.filter_append, hold, Nat.zero_add,
    List.filter_eq_nil_iff.mpr hlde, List.append_nil]
  rfl

/-- The long entries of a new name are listed as one. -/
theorem ls_from_own (h : Extends r r' cnt' n name file_type) (hl : Listed r cnt n)
    (hsplit : long_name_split name ≠ []) (hzero : '\x00' ∉ name)
    (hc : (lfn_vec name).length < 64) :
    LsFrom r' cnt' n [(written_name name, file_type.attr)] := by
  have hpos := length_lfn_vec name hsplit
  have hle := h.le
  have hl' := h.listed hl hzero (by omega)
  have hfirst := first_order _ hc hpos
  have horder := (h.lde_attr hpos).2
  rw [lde_order, if_pos rfl, Nat.sub_zero, Nat.add_zero] at horder
  have hrun := @name_before_run r' (lfn_vec name).length n (by
    rintro i hi (hdeleted | hattr)
    · exact h.lde_is_deleted hc hi hdeleted
    · exact hattr (h.lde_attr hi).1)
  have hfresh := (name_before_parts r' n).1
  have hparts := h.parts_before_own hl hc (Nat.zero_le _)
  rw [Nat.sub_zero, List.drop_length, Nat.add_zero] at hparts
  rw [hparts] at hfresh
  rw [h.name_before_own hl hc hsplit, hfresh, Option.getD_some] at hrun
  have hattr : (r' (n + (lfn_vec name).length)).attr = file_type.attr := h.sde.attr
  have hdeleted := h.lde_is_deleted hc hpos
  have hlong := (h.lde_attr hpos).1
  rw [Nat.add_zero] at hdeleted hlong
  rw [hrun, ← hattr]
  simp only [List.map_nil, List.flatMap_nil, List.append_nil]
  refine .long (by omega) (hl'.in_use n (by omega)) hdeleted hlong ?_ ?_ (.done fun hlt => ?_)
  · rw [horder]
    exact hfirst.2.2
  · exact fun i _ hi => ⟨by omega, hl'.in_use i (by omega)⟩
  · rw [h.blank _ (by omega) hlt]
    rfl

end Extends

namespace FileSystem

variable {fs fs' : FileSystem} {d d' : Disk} {dir f : VirtFile}
  {clusters added chain : List Nat} {n : Nat} {name : Name} {file_type : VirtFileType}

/-- The name is created, a search finds its entry, and both listings have it behind the entries
that there were. -/
def Creates (fs : FileSystem) (dir : VirtFile) (name : Name) (file_type : VirtFileType) : Prop :=
  ∃ f fs', fs.create dir name file_type = .ok (.ok f, fs') ∧
    (∃ f' fs'', fs'.find_by_name dir name = .ok (some f', fs'') ∧ f'.sde_pos = f.sde_pos ∧
      f'.attr = file_type) ∧
    (∃ infos info, fs.dir_infos dir = .ok infos ∧ fs'.dir_infos dir = .ok (infos ++ [info]) ∧
      info.name = name ∧ info.attr = file_type.attr.toNat) ∧
    ∀ list, fs.ls_with_attr dir = .ok (.ok list) →
      fs'.ls_with_attr dir = .ok (.ok (list ++ [(name, file_type.attr)]))

/-- A directory with clusters; the first `n` of its records are in use. -/
structure Directory (fs : FileSystem) (d : Disk) (dir : VirtFile) (clusters : List Nat) (n : Nat) :
    Prop where
  owned : Owned fs d dir clusters
  ne_nil : clusters ≠ []
  is_dir : dir.is_dir
  lt : dir.cluster_chain < fs.next_chain
  listed : Listed (d.record fs.bpb.cluster_size clusters) (record_cnt fs.bpb.cluster_size clusters) n

/-- The clusters that a new name needs are free, and the allocator finds them. -/
structure Space (fs : FileSystem) (d : Disk) (dir : VirtFile) (n : Nat) (name : Name)
    (file_type : VirtFileType) : Prop where
  free : fs.create_need dir n name + (if file_type = .Dir then 1 else 0) ≤ fs.free_cluster_cnt
  reach : fs.create_need dir n name ≤ (fs.reachable dir).card
  dots : file_type = .Dir → fs.create_need dir n name < (d.reachable (fs.bpb.data_cluster_cnt + 2)
    fs.recycled_cluster NEW_VIRT_FILE_CLUSTER).card

section Records

theorem Owned.dir_record_cnt (h : Owned fs d dir clusters) :
    fs.dir_record_cnt dir = record_cnt fs.bpb.cluster_size clusters := by
  rw [FileSystem.dir_record_cnt, h.chained.vec]

/-- The records that the listings read. -/
theorem Owned.dir_record (h : Owned fs d dir clusters) {k : Nat}
    (hk : k < record_cnt fs.bpb.cluster_size clusters) :
    fs.dir_record dir k = d.record fs.bpb.cluster_size clusters k := by
  rw [FileSystem.dir_record, h.chained.vec]
  exact h.record_disk hk

theorem Directory.looked (h : Directory fs d dir clusters n) (hl : Looked fs fs') :
    Directory fs' d dir clusters n where
  owned := h.owned.keep (hl.sees h.owned.sees) hl.bpb
    ((hl.chains _ h.lt).trans h.owned.chained.vec) (fun _ _ => rfl) h.owned.in_use rfl
  ne_nil := h.ne_nil
  is_dir := h.is_dir
  lt := h.lt.trans_le hl.next_chain
  listed := by
    rw [hl.bpb]
    exact h.listed

theorem Directory.listed_record (h : Directory fs d dir clusters n) :
    Listed (fs.dir_record dir) (fs.dir_record_cnt dir) n := by
  rw [h.owned.dir_record_cnt]
  exact h.listed.congr fun k hk => h.owned.dir_record hk

/-- The records of a new name, as they are read. -/
theorem Entered.extends_record (hd : Directory fs d dir clusters n)
    (h : Entered fs fs' d d' dir clusters added chain n name file_type) :
    Extends (fs.dir_record dir) (fs'.dir_record dir) (fs'.dir_record_cnt dir) n name file_type ∧
      ∀ k < n, fs'.dir_record dir k = fs.dir_record dir k := by
  have hbpb := h.beside.bpb
  have hle := h.records.le
  have hcnt := h.owned.dir_record_cnt
  have hold : ∀ k < n, fs.dir_record dir k = d.record fs.bpb.cluster_size clusters k :=
    fun k hk => hd.owned.dir_record (hk.trans_le hd.listed.le)
  have hnew := fun k => @Owned.dir_record fs' d' dir (clusters ++ added) h.owned k
  rw [hbpb] at hcnt hnew
  rw [hcnt]
  refine ⟨h.records.congr hold hnew, fun k hk => ?_⟩
  rw [hnew k (by omega), hold k hk]
  exact h.old k hk

end Records

section Listings

variable (hd : Directory fs d dir clusters n)
  (h : Entered fs fs' d d' dir clusters added chain n name file_type)
  (hlegal : LegalName name)

include hd h hlegal

theorem Entered.dir_infos (hform : is_long name ∨ ShortForm name) :
    ∃ infos info, fs.dir_infos dir = .ok infos ∧ fs'.dir_infos dir = .ok (infos ++ [info]) ∧
      info.name = written_name name ∧ info.attr = file_type.attr.toNat := by
  obtain ⟨hext, hold⟩ := h.extends_record hd
  have hl := hd.listed_record
  have hc : (lfn_vec name).length < 64 := by
    have hle := hlegal.length_lfn_vec_le
    omega
  have hdata : ∀ c ∈ fs.cluster_vec dir, fs.bpb.InData c := by
    rw [hd.owned.chained.vec]
    exact hd.owned.chained.data
  have hdata' : ∀ c ∈ fs'.cluster_vec dir, fs'.bpb.InData c := by
    rw [h.owned.chained.vec]
    exact h.owned.chained.data
  have hsplit := long_name_split_ne_nil hlegal.ne_nil
  have hinfo : ∀ k ∈ live_from (fs.dir_record dir) (fs.dir_record_cnt dir) 0,
      live_info (fs'.dir_record dir) k = live_info (fs.dir_record dir) k := by
    intro k hk
    have hlt := (mem_live_from.mp hk).1.2
    rw [hl.end_index] at hlt
    exact live_info_congr fun i hi => hold i (hi.trans_lt hlt)
  refine ⟨_, live_info (fs'.dir_record dir) (n + (lfn_vec name).length),
    dir_infos_eq hd.owned.sees.layout hdata hd.is_dir, ?_, ?_, ?_⟩
  · rw [dir_infos_eq h.owned.sees.layout hdata' hd.is_dir,
      hext.live_from_own hl hlegal.zero_notMem hc hform, List.map_append,
      List.map_congr_left hinfo]
    rfl
  · show (name_before _ _).getD _ = _
    rw [hext.name_before_own hl hc hsplit]
    rfl
  · show (fs'.dir_record dir (n + (lfn_vec name).length)).attr.toNat = _
    rw [hext.sde.attr]
    rfl

theorem Entered.ls_with_attr {list : List (Name × UInt8)}
    (hlist : fs.ls_with_attr dir = .ok (.ok list)) : fs'.ls_with_attr dir =
      .ok (.ok (list ++ [(written_name name, file_type.attr)])) := by
  obtain ⟨hext, hold⟩ := h.extends_record hd
  have hl := hd.listed_record
  have hle := hext.le
  have hc : (lfn_vec name).length < 64 := by
    have hle := hlegal.length_lfn_vec_le
    omega
  have hdata : ∀ c ∈ fs.cluster_vec dir, fs.bpb.InData c := by
    rw [hd.owned.chained.vec]
    exact hd.owned.chained.data
  have hdata' : ∀ c ∈ fs'.cluster_vec dir, fs'.bpb.InData c := by
    rw [h.owned.chained.vec]
    exact h.owned.chained.data
  rw [ls_with_attr_iff hd.owned.sees.layout hdata hd.is_dir] at hlist
  rw [ls_with_attr_iff h.owned.sees.layout hdata' hd.is_dir]
  exact hlist.append hl (Nat.zero_le _) (by omega) hold
    (hext.ls_from_own hl (long_name_split_ne_nil hlegal.ne_nil) hlegal.zero_notMem hc)

end Listings

/-- A name that was created is found again at its short entry. -/
theorem Entered.find_again (hd : Directory fs d dir clusters n)
    (h : Entered fs fs' d d' dir clusters added chain n name file_type)
    (hf : NewEntry fs fs' d' (clusters ++ added) chain n name file_type f)
    (hsplit : long_name_split name ≠ [])
    (hfound : lookup (d'.record fs.bpb.cluster_size (clusters ++ added))
      (record_cnt fs.bpb.cluster_size (clusters ++ added)) name = some (own_index name n)) :
    ∃ f' fs'', fs'.find_by_name dir name = .ok (some f', fs'') ∧ f'.sde_pos = f.sde_pos ∧
      f'.attr = file_type := by
  have hbpb := h.beside.bpb
  have hown := own_index_add hsplit n
  have hpos := hf.sde_pos
  have hattr := h.records.sde.attr
  have hfirst := hf.owned.first_cluster
  rw [hpos, ← hbpb, d'.entry_record_pos h.owned.sees.layout] at hfirst
  rw [← hbpb] at hfound hpos hattr
  refine ⟨_, _, h.owned.find_by_name_some hd.is_dir hfound (congrArg _ hown)
    ⟨hf.owned.chained.chain, hf.owned.chained.data, hfirst⟩, ?_, ?_⟩
  · rw [hpos, ← hown]
    rfl
  · show (if Dirent.attr _ = ATTR_DIRECTORY then VirtFileType.Dir else .File) = _
    rw [hattr, short_entry_attr]
    cases file_type <;> decide

/-- A legal name that is not found is created, found again and listed if and only if it is long
and no pair of its units is in two parts, or it has the form of a short name. -/
theorem creates_iff (h : Directory fs d dir clusters n) (hlegal : LegalName name)
    (hspace : Space fs d dir n name file_type) {fs₀ : FileSystem}
    (hnone : fs.find_by_name dir name = .ok (none, fs₀)) :
    fs.Creates dir name file_type ↔ Creatable name := by
  have hc : (lfn_vec name).length < 64 := by
    have hle := hlegal.length_lfn_vec_le
    omega
  have hsplit := long_name_split_ne_nil hlegal.ne_nil
  have hlookup : lookup (d.record fs.bpb.cluster_size clusters)
      (record_cnt fs.bpb.cluster_size clusters) name = none :=
    (h.owned.find_by_name_none_iff h.is_dir hnone).mp rfl
  have hcreate := h.owned.create h.ne_nil h.is_dir h.lt h.listed hsplit hlegal.zero_notMem
    (show (lfn_vec name).length < 256 by omega) hlookup hspace.reach
    (fun hdir _ => hspace.dots hdir)
  obtain ⟨⟨result, fs'⟩, hok, d', added, chain, he, -, hresult⟩ :=
    (hcreate.mono_error fun _ herr => absurd hspace.free (not_le.mpr herr.2)).exists_ok
  have hiff := he.records.lookup_own_iff hsplit hc hlegal.ne_dot hlegal.ne_dots
  cases result with
  | error e =>
    obtain ⟨-, hnone'⟩ := hresult
    have hform := mt (hiff (.inl hnone')).mpr (by
      rw [hnone']
      exact fun h => by cases h)
    constructor
    · rintro ⟨f, fs'', hok', -⟩
      cases hok.symm.trans hok'
    · intro hcreatable
      rw [Creatable] at hcreatable
      split at hcreatable
      · next hlong => exact absurd (.inl hlong) hform
      · exact absurd (.inr hcreatable) hform
  | ok f =>
    obtain ⟨hf, hfound⟩ := hresult
    have hform := (hiff (.inr hfound)).mp hfound
    have hname := written_name_iff hlegal hform
    obtain ⟨infos, info, hinfos, hinfos', hinfo, hattr⟩ := he.dir_infos h hlegal hform
    constructor
    · rintro ⟨f', fs'', hok', -, ⟨infos', info', hinfos₁, hinfos₂, hinfo', -⟩, -⟩
      cases hok.symm.trans hok'
      cases hinfos.symm.trans hinfos₁
      have heq := List.append_cancel_left (Except.ok.inj (hinfos'.symm.trans hinfos₂))
      cases heq
      exact hname.mp (hinfo.symm.trans hinfo')
    · intro hcreatable
      have hwritten := hname.mpr hcreatable
      refine ⟨f, fs', hok, he.find_again h hf hsplit hfound, ⟨infos, info, hinfos, hinfos',
        hinfo.trans hwritten, hattr⟩, fun list hlist => ?_⟩
      have hls := he.ls_with_attr h hlegal hlist
      rwa [hwritten] at hls

section Floppy

/-- The volume has an empty root directory. -/
def blank_root : FileSystem :=
  { device := floppy []
    free_cluster_cnt := 12
    bpb := .of_block (floppy [] 0)
    recycled_cluster := []
    root_dir_entry := .new 2 [ROOT] [] .Dir
    chains := fun _ => [2]
    next_chain := 1 }

theorem directory_blank_root : Directory blank_root blank_root.disk root [2] 0 where
  owned := by
    constructor
    · refine ⟨⟨?_, shows_disk _, ⟨?_, ?_, List.nodup_nil⟩, ?_⟩, disk_root _⟩
      · constructor <;> decide +kernel
      · exact fun c hc => absurd hc List.not_mem_nil
      · exact fun c hc => absurd hc List.not_mem_nil
      · constructor <;> decide +kernel
    · exact .root rfl
    · have hend : END_OF_CLUSTER ≤ blank_root.disk.next 2 := by decide +kernel
      refine ⟨rfl, hend, List.forall_mem_singleton.mpr ⟨?_, ?_⟩⟩ <;> decide +kernel
    · decide
    · decide +kernel
    · decide +kernel
    · decide +kernel
    · decide +kernel
  ne_nil := List.cons_ne_nil _ _
  is_dir := rfl
  lt := by decide
  listed := by
    refine ⟨Nat.zero_le _, ?_, ?_, ?_⟩
    · exact fun k hk => absurd hk (Nat.not_lt_zero k)
    · decide +kernel
    · exact fun k hk => absurd hk (Nat.succ_ne_zero k)

theorem space_blank_root {name : Name} (file_type : VirtFileType)
    (hlen : (lfn_vec name).length = 1) :
    Space blank_root blank_root.disk root 0 name file_type := by
  have hneed : blank_root.create_need root 0 name = 0 := by
    rw [create_need, hlen]
    decide +kernel
  refine ⟨?_, ?_, fun _ => ?_⟩ <;> rw [hneed]
  · cases file_type <;> decide +kernel
  · exact Nat.zero_le _
  · decide +kernel

theorem creates_iff_readme :
    blank_root.Creates root ['r', 'e', 'a', 'd', 'm', 'e', '.', 'm', 'd'] .File := by
  have hlegal : LegalName ['r', 'e', 'a', 'd', 'm', 'e', '.', 'm', 'd'] := by decide
  have hnone : ∃ fs₀, blank_root.find_by_name root
      ['r', 'e', 'a', 'd', 'm', 'e', '.', 'm', 'd'] = .ok (none, fs₀) := by
    refine ⟨blank_root, directory_blank_root.owned.find_by_name_none rfl ?_⟩
    decide +kernel
  obtain ⟨fs₀, hnone⟩ := hnone
  exact (creates_iff directory_blank_root hlegal (space_blank_root _ (by decide)) hnone).mpr
    (by decide +kernel)

/-- A legal name with two dots is written, and the search for it fails. -/
theorem creates_two_dots : LegalName ['a', '.', 'b', '.', 'c'] ∧
    Directory blank_root blank_root.disk root [2] 0 ∧
    Space blank_root blank_root.disk root 0 ['a', '.', 'b', '.', 'c'] .File ∧
    blank_root.find_by_name root ['a', '.', 'b', '.', 'c'] = .ok (none, blank_root) ∧
    (∃ fs', blank_root.create root ['a', '.', 'b', '.', 'c'] .File =
      .ok (.error .CreateFileError, fs')) ∧
    ¬ blank_root.Creates root ['a', '.', 'b', '.', 'c'] .File := by
  have hrun : Meets (blank_root.create root ['a', '.', 'b', '.', 'c'] .File) (fun _ => False)
      fun r => r.1 = .error .CreateFileError := by
    decide +kernel
  obtain ⟨⟨result, fs'⟩, hok, hresult⟩ := hrun.exists_ok
  rw [show result = _ from hresult] at hok
  refine ⟨by decide, directory_blank_root, space_blank_root _ (by decide),
    directory_blank_root.owned.find_by_name_none rfl (by decide +kernel), ⟨fs', hok⟩, ?_⟩
  rintro ⟨f, fs'', hok', -⟩
  cases hok.symm.trans hok'

end Floppy

end FileSystem

end MyGOS.Fat32
