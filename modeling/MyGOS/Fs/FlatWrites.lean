import MyGOS.Fs.FlatSteps

/-!
# Writes one after the other

Pieces that are written one after the other leave what one write of their
concatenation leaves, as long as no piece goes over the end of the index range.
-/

namespace MyGOS.Fs.FlatFile

open FlatArray

/-- Where the pieces end that are written from an offset on. -/
def ends (offset : Nat) : List (List UInt8) → List Nat
  | [] => []
  | d :: ds => stop (2 ^ 64) offset d.length :: ends (stop (2 ^ 64) offset d.length) ds

variable {f : FlatFile} {h : Nat} {ds : List (List UInt8)} {data : List UInt8}

section Wrote

@[simp] theorem append_wrote : (f.wrote h data).append = f.append := by
  unfold wrote
  dsimp only
  split <;> rfl

@[simp] theorem bytes_wrote :
    (f.wrote h data).bytes = put (2 ^ 64) f.bytes (f.start h (f.offset h)) data := by
  unfold wrote
  dsimp only
  split
  · next hnil => rw [hnil]; rfl
  · rfl

@[simp] theorem size_wrote : (f.wrote h data).size =
    max f.size (stop (2 ^ 64) (f.start h (f.offset h)) data.length) := by
  unfold wrote
  dsimp only
  split
  · next hnil => rw [hnil]; rfl
  · rfl

theorem offset_wrote (hne : data ≠ []) : (f.wrote h data).offset h =
    stop (2 ^ 64) (f.start h (f.offset h)) data.length := by
  rw [wrote, if_neg hne, offset_seek]

theorem offset_wrote_nil : (f.wrote h []).offset h = f.offset h := rfl

theorem writes_cons (d : List UInt8) : f.writes h (d :: ds) = (f.wrote h d).writes h ds := rfl

theorem writes_concat (d : List UInt8) : f.writes h (ds ++ [d]) = (f.writes h ds).wrote h d := by
  rw [writes, List.foldl_append]
  rfl

@[simp] theorem append_writes : (f.writes h ds).append = f.append := by
  induction ds generalizing f with
  | nil => rfl
  | cons d ds ih => rw [writes_cons, ih, append_wrote]

theorem size_le_writes : f.size ≤ (f.writes h ds).size := by
  induction ds generalizing f with
  | nil => exact le_rfl
  | cons d ds ih =>
    rw [writes_cons]
    exact (size_wrote (f := f) ▸ Nat.le_max_left _ _ : f.size ≤ (f.wrote h d).size).trans ih

end Wrote

/-- Two arrays with the same offset of a file. -/
def Matches (h : Nat) (f g : FlatFile) : Prop :=
  f.bytes = g.bytes ∧ f.size = g.size ∧ f.offset h = g.offset h

section Plain

variable (happend : f.append h = false) (hoffset : f.offset h < 2 ^ 64)

include happend hoffset

theorem writes_plain : (f.writes h ds).bytes = put (2 ^ 64) f.bytes (f.offset h) ds.flatten ∧
    (f.writes h ds).size = (ends (f.offset h) ds).foldl max f.size ∧
    (f.writes h ds).offset h = stop (2 ^ 64) (f.offset h) ds.flatten.length := by
  induction ds generalizing f with
  | nil => exact ⟨rfl, rfl, (stop_zero hoffset).symm⟩
  | cons d ds ih =>
    have hstart : f.start h (f.offset h) = f.offset h := by
      rw [start, happend]
      rfl
    have hd : (f.wrote h d).offset h = stop (2 ^ 64) (f.offset h) d.length := by
      obtain rfl | hne := eq_or_ne d []
      · exact (stop_zero hoffset).symm
      · rw [offset_wrote hne, hstart]
    have hlt := stop_lt (by decide : 0 < 2 ^ 64) (f.offset h) d.length
    obtain ⟨hbytes, hsize, hend⟩ := @ih (f.wrote h d) (by rw [append_wrote, happend]) (hd ▸ hlt)
    rw [writes_cons, hbytes, hsize, hend, hd, bytes_wrote, size_wrote, hstart, List.flatten_cons,
      put_append _ hoffset, stop_stop, List.length_append]
    exact ⟨rfl, rfl, rfl⟩

end Plain

section Ends

theorem foldl_max_le {l : List Nat} {a b : Nat} :
    l.foldl max a ≤ b ↔ a ≤ b ∧ ∀ e ∈ l, e ≤ b := by
  induction l generalizing a with
  | nil => simp
  | cons e l ih => rw [List.foldl_cons, ih, Nat.max_le, List.forall_mem_cons, and_assoc]

/-- The last piece ends where the concatenation does. -/
theorem stop_mem_ends {offset : Nat} (hne : ds ≠ []) :
    stop (2 ^ 64) offset ds.flatten.length ∈ ends offset ds := by
  induction ds generalizing offset with
  | nil => exact absurd rfl hne
  | cons d ds ih =>
    rw [List.flatten_cons, List.length_append, ← stop_stop, ends]
    obtain rfl | hds := eq_or_ne ds []
    · rw [List.flatten_nil, List.length_nil, stop_zero (stop_lt (by decide) _ _)]
      exact List.mem_cons_self
    · exact List.mem_cons_of_mem _ (ih hds)

end Ends

section Append

variable (happend : f.append h = true)

include happend

theorem start_append (offset : Nat) : f.start h offset = f.size := by
  rw [start, happend]
  rfl

theorem wrote_nil (hsize : f.size < 2 ^ 64) : f.wrote h [] = f := by
  have hmax : max f.size (stop (2 ^ 64) f.size 0) = f.size := by
    rw [stop_zero hsize, Nat.max_self]
  rw [wrote, if_pos rfl, start_append happend, write, List.length_nil, hmax]
  rfl

/-- Pieces without bytes change nothing. -/
theorem writes_filter (hsize : f.size < 2 ^ 64) :
    f.writes h (ds.filter (· ≠ [])) = f.writes h ds := by
  induction ds generalizing f with
  | nil => rfl
  | cons d ds ih =>
    obtain rfl | hne := eq_or_ne d []
    · rw [List.filter_cons_of_neg (by simp), writes_cons, wrote_nil happend hsize,
        ih happend hsize]
    · rw [List.filter_cons_of_pos (by simpa using hne), writes_cons, writes_cons]
      apply ih (by rw [append_wrote, happend])
      rw [size_wrote]
      exact Nat.max_lt.mpr ⟨hsize, stop_lt (by decide) _ _⟩

theorem wrote_of_ne_nil (hne : data ≠ []) :
    f.wrote h data = (f.write f.size data).seek h (stop (2 ^ 64) f.size data.length) := by
  rw [wrote, if_neg hne, start_append happend]

theorem wrote_wrote {data data' : List UInt8}
    (hlt : f.size + (data ++ data').length < 2 ^ 64) :
    (f.wrote h data).wrote h data' = f.wrote h (data ++ data') := by
  rw [List.length_append] at hlt
  have hsize : f.size < 2 ^ 64 := by omega
  have hstop : stop (2 ^ 64) f.size data.length = f.size + data.length :=
    Nat.mod_eq_of_lt (by omega)
  have hmax : max f.size (f.size + data.length) = f.size + data.length :=
    Nat.max_eq_right (Nat.le_add_right _ _)
  have happend' : (f.wrote h data).append h = true := by rw [append_wrote, happend]
  have hwrote : (f.wrote h data).size = f.size + data.length := by
    rw [size_wrote, start_append happend, hstop, hmax]
  obtain rfl | hne := eq_or_ne data' []
  · rw [List.append_nil, wrote_nil happend' (by omega)]
  · obtain rfl | hne' := eq_or_ne data []
    · rw [List.nil_append, wrote_nil happend hsize]
    · have hcat : data ++ data' ≠ [] := by simp [hne]
      have hstop' : stop (2 ^ 64) f.size (data ++ data').length =
          f.size + data.length + data'.length := by
        rw [List.length_append, Nat.add_assoc]
        exact Nat.mod_eq_of_lt hlt
      have hnext : stop (2 ^ 64) (f.size + data.length) data'.length =
          f.size + data.length + data'.length := Nat.mod_eq_of_lt (by omega)
      rw [wrote_of_ne_nil happend' hne, hwrote, wrote_of_ne_nil happend hne',
        wrote_of_ne_nil happend hcat, hstop, hstop', hnext]
      simp only [write, seek, Function.update_idem, FlatFile.mk.injEq, and_true]
      constructor
      · rw [put_append _ hsize, hstop]
      · rw [hstop, hstop', hnext]
        omega

theorem writes_eq_wrote (hlt : f.size + ds.flatten.length < 2 ^ 64) :
    f.writes h ds = f.wrote h ds.flatten := by
  induction ds generalizing f with
  | nil => exact (wrote_nil happend (by omega)).symm
  | cons d ds ih =>
    rw [List.flatten_cons] at hlt ⊢
    have hsize : (f.wrote h d).size = f.size + d.length := by
      rw [List.length_append] at hlt
      have hstop : stop (2 ^ 64) f.size d.length = f.size + d.length :=
        Nat.mod_eq_of_lt (by omega)
      rw [size_wrote, start_append happend, hstop, Nat.max_eq_right (Nat.le_add_right _ _)]
    rw [writes_cons, ih (by rw [append_wrote, happend]), wrote_wrote happend hlt]
    rw [hsize, Nat.add_assoc, ← List.length_append]
    exact hlt

/-- Where the size stays, each piece has wrapped. -/
theorem offset_writes_of_size {d : List UInt8} (hne : d ≠ [])
    (hsize : (f.writes h (ds ++ [d])).size = f.size) :
    (f.writes h (ds ++ [d])).offset h = stop (2 ^ 64) f.size d.length := by
  rw [writes_concat] at hsize ⊢
  have happend' : (f.writes h ds).append h = true := by rw [append_writes, happend]
  have hle : (f.writes h ds).size ≤ f.size := by
    rw [← hsize, size_wrote]
    exact Nat.le_max_left _ _
  rw [offset_wrote hne, start_append happend', Nat.le_antisymm hle size_le_writes]

end Append

/-- The pieces `ds` are written as one, as far as the file goes over the end of the index range. -/
def Steady (f : FlatFile) (h : Nat) (ds : List (List UInt8)) : Prop :=
  if f.append h then
    f.size + ds.flatten.length < 2 ^ 64 ∨ (ds.filter (· ≠ [])).length ≤ 1
  else
    (ds = [] → f.offset h ≤ f.size) ∧ ∀ e ∈ ends (f.offset h) ds,
      e ≤ max f.size (stop (2 ^ 64) (f.offset h) ds.flatten.length)

section Append

variable (happend : f.append h = true) (hsize : f.size < 2 ^ 64)

include happend hsize

theorem writes_of_steady
    (hsteady : f.size + ds.flatten.length < 2 ^ 64 ∨ (ds.filter (· ≠ [])).length ≤ 1) :
    f.writes h ds = f.wrote h ds.flatten := by
  obtain hlt | hone := hsteady
  · exact writes_eq_wrote happend hlt
  · have hflat : (ds.filter (· ≠ [])).flatten = ds.flatten := List.flatten_filter_ne_nil
    rw [← writes_filter happend hsize, ← hflat]
    match ds.filter (· ≠ []), hone with
    | [], _ => exact (wrote_nil happend hsize).symm
    | [d], _ =>
      rw [List.flatten_singleton]
      rfl

/-- Of two pieces that wrap, each starts at the end of the file. -/
theorem steady_of_matches (hlen : data.length < 2 ^ 64)
    (hmatches : Matches h (f.writes h ds) (f.wrote h data))
    (hlength : ds.flatten.length = data.length) :
    f.size + ds.flatten.length < 2 ^ 64 ∨ (ds.filter (· ≠ [])).length ≤ 1 := by
  obtain ⟨-, hsizes, hoffsets⟩ := hmatches
  by_contra hnot
  rw [not_or, not_lt, not_le] at hnot
  obtain ⟨hwrap, htwo⟩ := hnot
  have hflat : (ds.filter (· ≠ [])).flatten = ds.flatten := List.flatten_filter_ne_nil
  rw [← writes_filter happend hsize] at hsizes hoffsets
  obtain ⟨init, d, hds⟩ : ∃ init d, ds.filter (· ≠ []) = init ++ [d] := by
    obtain hnil | ⟨init, d, hconcat⟩ := List.eq_nil_or_concat (ds.filter (· ≠ []))
    · rw [hnil] at htwo
      exact absurd htwo (by decide)
    · exact ⟨init, d, hconcat.trans List.concat_eq_append⟩
  have hpieces : ∀ e ∈ init ++ [d], e ≠ [] := by
    intro e he
    rw [← hds] at he
    exact of_decide_eq_true (List.mem_filter.mp he).2
  have hd : d ≠ [] := hpieces d (List.mem_append_right _ List.mem_cons_self)
  have hinit : init.flatten ≠ [] := by
    rw [hds, List.length_append, List.length_singleton] at htwo
    intro hnil
    obtain ⟨e, he⟩ := List.exists_mem_of_length_pos (by omega : 0 < init.length)
    exact hpieces e (List.mem_append_left _ he) (List.flatten_eq_nil_iff.mp hnil e he)
  have hall : ds.flatten.length = init.flatten.length + d.length := by
    rw [← hflat, hds, List.flatten_append, List.flatten_singleton, List.length_append]
  have hpos := List.length_pos_iff.mpr hinit
  have hne : data ≠ [] := List.length_pos_iff.mp (by omega)
  have hstop : stop (2 ^ 64) f.size data.length ≤ f.size := by
    unfold stop
    omega
  rw [size_wrote, start_append happend, Nat.max_eq_left hstop, hds] at hsizes
  rw [offset_wrote hne, start_append happend, hds,
    offset_writes_of_size happend hd hsizes] at hoffsets
  unfold stop at hoffsets
  omega

end Append

section Plain

variable (happend : f.append h = false) (hoffset : f.offset h < 2 ^ 64)

include happend hoffset

theorem matches_plain_iff : Matches h (f.writes h ds) (f.wrote h data) ↔
    put (2 ^ 64) f.bytes (f.offset h) ds.flatten = put (2 ^ 64) f.bytes (f.offset h) data ∧
      (ends (f.offset h) ds).foldl max f.size =
        max f.size (stop (2 ^ 64) (f.offset h) data.length) ∧
      stop (2 ^ 64) (f.offset h) ds.flatten.length = stop (2 ^ 64) (f.offset h) data.length := by
  obtain ⟨hbytes, hends, hend⟩ := @writes_plain f h ds happend hoffset
  have hstart : f.start h (f.offset h) = f.offset h := by
    rw [start, happend]
    rfl
  have hwrote : (f.wrote h data).offset h = stop (2 ^ 64) (f.offset h) data.length := by
    obtain rfl | hne := eq_or_ne data []
    · exact (stop_zero hoffset).symm
    · rw [offset_wrote hne, hstart]
  rw [Matches, hbytes, hends, hend, bytes_wrote, size_wrote, hstart, hwrote]

omit happend in
/-- The size is that of one write, if no piece before the last one ends behind it. -/
theorem foldl_ends_iff : (ends (f.offset h) ds).foldl max f.size =
      max f.size (stop (2 ^ 64) (f.offset h) ds.flatten.length) ↔
    (ds = [] → f.offset h ≤ f.size) ∧ ∀ e ∈ ends (f.offset h) ds,
      e ≤ max f.size (stop (2 ^ 64) (f.offset h) ds.flatten.length) := by
  constructor
  · intro heq
    refine ⟨?_, (foldl_max_le.mp heq.le).2⟩
    rintro rfl
    have hmax := heq.symm.le
    rw [List.flatten_nil, List.length_nil, stop_zero hoffset] at hmax
    exact (Nat.le_max_right _ _).trans hmax
  · rintro ⟨hnil, hle⟩
    apply Nat.le_antisymm (foldl_max_le.mpr ⟨Nat.le_max_left _ _, hle⟩)
    have hbound := foldl_max_le.mp (le_refl ((ends (f.offset h) ds).foldl max f.size))
    apply Nat.max_le.mpr ⟨hbound.1, ?_⟩
    obtain rfl | hne := eq_or_ne ds []
    · rw [List.flatten_nil, List.length_nil, stop_zero hoffset]
      exact hnil rfl
    · exact hbound.2 _ (stop_mem_ends hne)

end Plain

/-- Pieces leave what a write of `data` leaves, if they are its parts and steady. -/
theorem writes_matches_iff (hsize : f.size < 2 ^ 64) (hoffset : f.offset h < 2 ^ 64)
    (hlen : data.length < 2 ^ 64) :
    (Matches h (f.writes h ds) (f.wrote h data) ∧ ds.flatten.length = data.length) ↔
      ds.flatten = data ∧ f.Steady h ds := by
  unfold Steady
  constructor
  · rintro ⟨hmatches, hlength⟩
    split
    · next happend =>
      have hsteady := steady_of_matches happend hsize hlen hmatches hlength
      have hbytes := hmatches.1
      rw [writes_of_steady happend hsize hsteady, bytes_wrote, bytes_wrote] at hbytes
      have hstart : f.start h (f.offset h) < 2 ^ 64 := by rwa [start_append happend]
      exact ⟨put_injective hstart hlength (hlength ▸ hlen.le) hbytes, hsteady⟩
    · next happend =>
      rw [Bool.not_eq_true] at happend
      obtain ⟨hbytes, hsizes, -⟩ := (matches_plain_iff happend hoffset).mp hmatches
      have heq := put_injective hoffset hlength (hlength ▸ hlen.le) hbytes
      subst heq
      exact ⟨rfl, (foldl_ends_iff hoffset).mp hsizes⟩
  · rintro ⟨rfl, hsteady⟩
    refine ⟨?_, rfl⟩
    split at hsteady
    · next happend =>
      rw [writes_of_steady happend hsize hsteady]
      exact ⟨rfl, rfl, rfl⟩
    · next happend =>
      rw [Bool.not_eq_true] at happend
      exact (matches_plain_iff happend hoffset).mpr ⟨rfl, (foldl_ends_iff hoffset).mpr hsteady, rfl⟩

end MyGOS.Fs.FlatFile
