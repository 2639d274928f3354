import MyGOS.Fs.FdTable
import Mathlib.Data.List.Nodup
import Mathlib.Order.Basic

/-!
# Calls that fail after they took a descriptor

The loop of `F_DUPFD_CLOEXEC` fills free slots, from the lowest on, until it has
filled one that is high enough. When there is no such slot it indexes outside of
the table or, if the table has grown over the limit, takes the slot at the limit.
-/

namespace MyGOS.Fs

open Outcome

namespace FDTable

variable {F : Type} {stdin : F} {t₀ t t' : FDTable F} {fd_limit start_num n i : Nat}
  {tmp_fd : List Nat}

/-- The loop has filled the slots `tmp_fd` of `t₀`, each of them too low. -/
structure Taken (stdin : F) (fd_limit start_num : Nat) (t₀ t : FDTable F) (tmp_fd : List Nat) :
    Prop where
  slots : ∀ i, t.slot i = if i ∈ tmp_fd then some stdin else t₀.slot i
  low : ∀ i ∈ tmp_fd, t₀.Free fd_limit i ∧ i < start_num ∧ i < t.length
  length_le : t₀.length ≤ t.length
  length_max : t.length ≤ max t₀.length fd_limit
  nodup : tmp_fd.Nodup

namespace Taken

theorem nil (t : FDTable F) : Taken stdin fd_limit start_num t t [] :=
  ⟨fun _ => by simp, fun _ h => absurd h List.not_mem_nil, Nat.le_refl _, Nat.le_max_left ..,
    List.nodup_nil⟩

theorem free_iff (h : Taken stdin fd_limit start_num t₀ t tmp_fd) (i : Nat) :
    t.Free fd_limit i ↔ t₀.Free fd_limit i ∧ i ∉ tmp_fd := by
  have hle := h.length_le
  have hmax := h.length_max
  unfold Free
  rw [h.slots]
  by_cases hi : i ∈ tmp_fd
  · simp [hi]
  · rw [if_neg hi, and_iff_left hi, and_congr_right_iff]
    omega

theorem length_tmp (h : Taken stdin fd_limit start_num t₀ t tmp_fd) :
    tmp_fd.length ≤ start_num := by
  have hsub : tmp_fd ⊆ List.range start_num := fun i hi => List.mem_range.mpr (h.low i hi).2.1
  have hle := (List.subperm_of_subset h.nodup hsub).length_le
  rwa [List.length_range] at hle

/-- The slot that `alloc_fd` finds is filled. -/
theorem fill (h : Taken stdin fd_limit start_num t₀ t tmp_fd) (hfree : t.Free fd_limit n)
    (hslots : ∀ i, t'.slot i = t.slot i) (hlt : n < t'.length) (hle : t.length ≤ t'.length)
    (hmax : t'.length ≤ max t.length fd_limit) (hlow : n < start_num) :
    Taken stdin fd_limit start_num t₀ (t'.set n (some stdin)) (tmp_fd ++ [n]) := by
  obtain ⟨hfree₀, hnot⟩ := (h.free_iff n).mp hfree
  have hle₀ := h.length_le
  have hmax₀ := h.length_max
  refine ⟨fun i => ?_, fun i hi => ?_, ?_, ?_, ?_⟩
  · rw [slot_set hlt, hslots, h.slots]
    by_cases hi : i = n
    · simp [hi]
    · simp [hi]
  · rw [List.length_set]
    rcases List.mem_append.mp hi with hi | hi
    · obtain ⟨hf, hs, hl⟩ := h.low i hi
      exact ⟨hf, hs, Nat.lt_of_lt_of_le hl hle⟩
    · obtain rfl := List.mem_singleton.mp hi
      exact ⟨hfree₀, hlow, hlt⟩
  · rw [List.length_set]
    omega
  · rw [List.length_set]
    omega
  · rw [List.nodup_append]
    refine ⟨h.nodup, List.nodup_singleton n, ?_⟩
    rintro a ha b hb rfl
    exact hnot (List.mem_singleton.mp hb ▸ ha)

end Taken

/-- The table has a slot for `start_num` or more, and `n` is the lowest. -/
def Lowest (t : FDTable F) (fd_limit start_num n : Nat) : Prop :=
  t.Free fd_limit n ∧ start_num ≤ n ∧ ∀ m, t.Free fd_limit m → start_num ≤ m → n ≤ m

/-- Every slot that is free is too low. -/
def Short (t : FDTable F) (fd_limit start_num : Nat) : Prop :=
  ∀ n, t.Free fd_limit n → n < start_num

theorem Taken.short (h : Taken stdin fd_limit start_num t₀ t tmp_fd)
    (hfull : ∀ i, ¬t.Free fd_limit i) : t₀.Short fd_limit start_num := by
  intro n hn
  by_contra hge
  exact hfull n ((h.free_iff n).mpr ⟨hn, fun hmem => hge (h.low n hmem).2.1⟩)

/-- The loop ends with slot `n` filled as well. -/
structure Ended (stdin : F) (fd_limit start_num : Nat) (t₀ : FDTable F) (n : Nat) (t : FDTable F)
    (tmp_fd : List Nat) : Prop where
  place : t₀.Lowest fd_limit start_num n ∨
    t₀.Short fd_limit start_num ∧ n = fd_limit ∧ fd_limit < t₀.length ∧ start_num ≤ fd_limit
  slots : ∀ i, t.slot i = if i = n ∨ i ∈ tmp_fd then some stdin else t₀.slot i
  low : ∀ i ∈ tmp_fd, t₀.slot i = none ∧ i < start_num ∧ i < t.length
  lt_length : n < t.length

/-- The ends of the loop, of the slots `t₀` it started from. -/
def LoopEnd (stdin : F) (fd_limit start_num : Nat) (t₀ : FDTable F)
    (x : Except Panic (Option (Nat × FDTable F × List Nat))) : Prop :=
  match x with
  | .error e => e = .outOfBounds ∧ t₀.Short fd_limit start_num ∧ t₀.length ≤ fd_limit
  | .ok none => True
  | .ok (some (n, t, tmp_fd)) => Ended stdin fd_limit start_num t₀ n t tmp_fd

/-- With every slot taken and the limit under the length of the table, a loop that
wants a higher slot than the limit does not end. -/
theorem dupfd_loop_spins (hfull : ∀ i, ¬t.Free fd_limit i) (hlt : fd_limit < t.length)
    (hlow : fd_limit < start_num) (fuel : Nat) (tmp_fd : List Nat) :
    dupfd_loop stdin fd_limit start_num fuel t tmp_fd = .ok none := by
  induction fuel generalizing t tmp_fd with
  | zero => rfl
  | succ fuel ih =>
    rw [dupfd_loop]
    have h := t.alloc_fd_spec fd_limit
    generalize t.alloc_fd fd_limit = r at h ⊢
    cases h with
    | free hfree => exact absurd hfree (hfull _)
    | full =>
      dsimp only
      rw [put_eq hlt]
      simp only [bind, Except.bind, if_neg (Nat.not_le.mpr hlow)]
      apply ih
      · rintro i ⟨hnone, hi⟩
        rw [slot_set hlt] at hnone
        split at hnone
        · cases hnone
        · rw [List.length_set] at hi
          exact hfull i ⟨hnone, hi⟩
      · rwa [List.length_set]

theorem dupfd_loop_end (h : Taken stdin fd_limit start_num t₀ t tmp_fd) (fuel : Nat) :
    LoopEnd stdin fd_limit start_num t₀ (dupfd_loop stdin fd_limit start_num fuel t tmp_fd) := by
  induction fuel generalizing t tmp_fd with
  | zero => trivial
  | succ fuel ih =>
    rw [dupfd_loop]
    have halloc := t.alloc_fd_spec fd_limit
    generalize t.alloc_fd fd_limit = r at halloc ⊢
    cases halloc with
    | free hfree hlowest hslots hlt hle hmax =>
      rename_i n t'
      dsimp only
      rw [put_eq hlt]
      simp only [bind, Except.bind]
      obtain ⟨hfree₀, hnot⟩ := (h.free_iff n).mp hfree
      split
      · next hge =>
        refine ⟨.inl ⟨hfree₀, hge, fun m hm hm' => ?_⟩, fun i => ?_, fun i hi => ?_, ?_⟩
        · apply hlowest
          rw [h.free_iff]
          exact ⟨hm, fun hmem => absurd (h.low m hmem).2.1 (Nat.not_lt.mpr hm')⟩
        · rw [slot_set hlt, hslots, h.slots]
          by_cases hi : i = n
          · simp [hi]
          · simp [hi]
        · obtain ⟨hf, hs, hl⟩ := h.low i hi
          refine ⟨hf.1, hs, ?_⟩
          rw [List.length_set]
          exact Nat.lt_of_lt_of_le hl hle
        · rwa [List.length_set]
      · next hlow =>
        exact ih (h.fill hfree hslots hlt hle hmax (Nat.lt_of_not_le hlow))
    | full hfull hle =>
      have hshort := h.short hfull
      have hmax := h.length_max
      dsimp only
      by_cases hlt : fd_limit < t.length
      · rw [put_eq hlt]
        simp only [bind, Except.bind]
        have hlt₀ : fd_limit < t₀.length := by omega
        split
        · next hge =>
          refine ⟨.inr ⟨hshort, rfl, hlt₀, hge⟩, fun i => ?_, fun i hi => ?_, ?_⟩
          · rw [slot_set hlt, h.slots]
            by_cases hi : i = fd_limit
            · simp [hi]
            · simp [hi]
          · obtain ⟨hf, hs, hl⟩ := h.low i hi
            rw [List.length_set]
            exact ⟨hf.1, hs, hl⟩
          · rwa [List.length_set]
        · next hlow =>
          rw [dupfd_loop_spins _ (by rwa [List.length_set]) (Nat.lt_of_not_le hlow)]
          · trivial
          · rintro i ⟨hnone, hi⟩
            rw [slot_set hlt] at hnone
            split at hnone
            · cases hnone
            · rw [List.length_set] at hi
              exact hfull i ⟨hnone, hi⟩
      · rw [put, if_neg hlt]
        exact ⟨rfl, hshort, Nat.le_trans h.length_le (Nat.le_of_not_lt hlt)⟩

theorem dupfd_round_full (h : Taken stdin fd_limit start_num t₀ t tmp_fd)
    (hstops : ¬(t₀.Short fd_limit start_num ∧ fd_limit < t₀.length ∧ fd_limit < start_num))
    (hfull : ∀ i, ¬t.Free fd_limit i) {fuel : Nat} :
    (do
      let t ← t.put fd_limit (some stdin)
      if fd_limit ≥ start_num then return some (fd_limit, t, tmp_fd)
      else dupfd_loop stdin fd_limit start_num fuel t (tmp_fd ++ [fd_limit])) ≠ .ok none := by
  by_cases hlt : fd_limit < t.length
  · rw [put_eq hlt]
    simp only [bind, Except.bind]
    have hmax := h.length_max
    rw [if_pos]
    · intro h
      cases h
    · by_contra hlow
      exact hstops ⟨h.short hfull, by omega, Nat.lt_of_not_le hlow⟩
  · rw [put, if_neg hlt]
    intro h
    cases h

/-- Each round that goes on fills a slot under `start_num`. -/
theorem dupfd_loop_stops (h : Taken stdin fd_limit start_num t₀ t tmp_fd)
    (hstops : ¬(t₀.Short fd_limit start_num ∧ fd_limit < t₀.length ∧ fd_limit < start_num))
    {k : Nat} (hk : start_num - tmp_fd.length ≤ k) :
    dupfd_loop stdin fd_limit start_num (k + 1) t tmp_fd ≠ .ok none := by
  induction k generalizing t tmp_fd with
  | zero =>
    rw [dupfd_loop]
    have halloc := t.alloc_fd_spec fd_limit
    generalize t.alloc_fd fd_limit = r at halloc ⊢
    cases halloc with
    | free hfree hlowest hslots hlt hle hmax =>
      rename_i n t'
      dsimp only
      rw [put_eq hlt]
      simp only [bind, Except.bind]
      split
      · intro h
        cases h
      · next hlow =>
        have hlen := (h.fill hfree hslots hlt hle hmax (Nat.lt_of_not_le hlow)).length_tmp
        rw [List.length_append, List.length_singleton] at hlen
        omega
    | full hfull hle => exact dupfd_round_full h hstops hfull
  | succ k ih =>
    rw [dupfd_loop]
    have halloc := t.alloc_fd_spec fd_limit
    generalize t.alloc_fd fd_limit = r at halloc ⊢
    cases halloc with
    | free hfree hlowest hslots hlt hle hmax =>
      rename_i n t'
      dsimp only
      rw [put_eq hlt]
      simp only [bind, Except.bind]
      split
      · intro h
        cases h
      · next hlow =>
        apply ih (h.fill hfree hslots hlt hle hmax (Nat.lt_of_not_le hlow))
        rw [List.length_append, List.length_singleton]
        omega
    | full hfull hle => exact dupfd_round_full h hstops hfull

/-- `tmp_fd` is given back. -/
theorem take_tmp (hlt : ∀ i ∈ tmp_fd, i < t.length) :
    ∃ t', tmp_fd.foldlM (fun t i => t.put i none) t = .ok t' ∧ t'.length = t.length ∧
      ∀ i, t'.slot i = if i ∈ tmp_fd then none else t.slot i := by
  induction tmp_fd generalizing t with
  | nil => exact ⟨t, rfl, rfl, fun i => by simp⟩
  | cons j tmp_fd ih =>
    obtain ⟨hj, hrest⟩ := List.forall_mem_cons.mp hlt
    obtain ⟨t', hrun, hlen, hslots⟩ := @ih (t.set j none) (by
      intro i hi
      rw [List.length_set]
      exact hrest i hi)
    rw [List.length_set] at hlen
    refine ⟨t', ?_, hlen, fun i => ?_⟩
    · rw [List.foldlM_cons, put_eq hj]
      exact hrun
    · rw [hslots, slot_set hj]
      by_cases hi : i = j
      · simp [hi]
      · simp [hi]

/-- After the loop and the return of `tmp_fd`, slot `n` alone holds something new. -/
theorem Ended.take_tmp (h : Ended stdin fd_limit start_num t₀ n t tmp_fd) :
    ∃ t', tmp_fd.foldlM (fun t i => t.put i none) t = .ok t' ∧ n < t'.length ∧
      ∀ i, t'.slot i = if i = n then some stdin else t₀.slot i := by
  obtain ⟨t', hrun, hlen, hslots⟩ := FDTable.take_tmp fun i hi => (h.low i hi).2.2
  have hn : n ∉ tmp_fd := by
    intro hmem
    have hlow := (h.low n hmem).2.1
    rcases h.place with ⟨_, hge, _⟩ | ⟨_, rfl, _, hge⟩ <;> omega
  refine ⟨t', hrun, hlen ▸ h.lt_length, fun i => ?_⟩
  rw [hslots, h.slots]
  by_cases hi : i ∈ tmp_fd
  · have hne : i ≠ n := fun heq => hn (heq ▸ hi)
    rw [if_pos hi, if_neg hne, (h.low i hi).1]
  · simp [hi]

end FDTable

namespace FdCall

open FDTable

variable {F : Type} {t : FDTable F} {fd_limit : Nat}

/-- `F_DUPFD_CLOEXEC` finds a slot and something to put there, or it has nothing
to fill and leaves a table that is longer than the limit alone. -/
def DupSafe (t : FDTable F) (fd_limit fd start_num : Nat) : Prop :=
  (∃ n, t.Lowest fd_limit start_num n ∧ ((t.slot fd).isSome ∨ fd = n)) ∨
    t.Short fd_limit start_num ∧ fd_limit < t.length ∧
      (start_num ≤ fd_limit → (t.slot fd).isSome)

/-- A call that came to the end of its loop is as it should be if it has found a file. -/
theorem intact_ended_iff {stdin : F} (hnew : some stdin ∉ t) {start_num n : Nat} {u : FDTable F}
    {tmp_fd : List Nat} (h : Ended stdin fd_limit start_num t n u tmp_fd) (fd : Nat) :
    Intact t (Except.map (Option.map failure) (do
      let u ← tmp_fd.foldlM (fun u i => u.put i none) u
      if fd < u.length then
        match u.slot fd with
        | none => return some (.error .EBADF, u)
        | some file =>
          let u ← u.put n (some file)
          return some (.ok n, u)
      else .error .outOfBounds)) ↔ (t.slot fd).isSome ∨ fd = n := by
  obtain ⟨u', hrun, hlt, hslots⟩ := h.take_tmp
  rw [hrun]
  simp only [bind, Except.bind]
  split
  · next hfd =>
    split
    · next hnone =>
      rw [hslots] at hnone
      have hne : fd ≠ n := by
        rintro rfl
        rw [if_pos rfl] at hnone
        cases hnone
      rw [if_neg hne] at hnone
      refine iff_of_false (fun hintact => ?_) (by simp [hnone, hne])
      have hn := hintact n
      rw [hslots, if_pos rfl] at hn
      exact hnew (Option.join_eq_some_iff.mp hn.symm |> List.mem_of_getElem?)
    · next file hfile =>
      rw [put_eq hlt]
      refine iff_of_true trivial ?_
      rw [hslots] at hfile
      by_cases heq : fd = n
      · exact .inr heq
      · rw [if_neg heq] at hfile
        rw [hfile]
        exact .inl rfl
  · next hfd =>
    refine iff_of_false (fun hintact => hintact rfl) ?_
    rintro (hsome | rfl)
    · obtain ⟨file, hfile⟩ := Option.isSome_iff_exists.mp hsome
      have hslot := hslots fd
      rw [slot_of_le (Nat.le_of_not_lt hfd), hfile] at hslot
      split at hslot <;> cases hslot
    · exact hfd hlt

theorem intact_fcntl_dupfd_iff {stdin : F} (hnew : some stdin ∉ t) (fd : Int) (start_num : Nat) :
    (∀ fuel, Intact t (run fuel t fd_limit (.fcntl_dupfd stdin fd start_num))) ↔
      DupSafe t fd_limit (as_usize fd) start_num := by
  have hnil : Taken stdin fd_limit start_num t t [] := .nil t
  have hlimit : t.Short fd_limit start_num → fd_limit < t.length → start_num ≤ fd_limit →
      (t.slot fd_limit).isSome := by
    intro hshort hlt hge
    rw [Option.isSome_iff_ne_none]
    intro hnone
    exact absurd (hshort fd_limit ⟨hnone, .inl hlt⟩) (Nat.not_lt.mpr hge)
  constructor
  · intro hintact
    by_cases hspins : t.Short fd_limit start_num ∧ fd_limit < t.length ∧ fd_limit < start_num
    · obtain ⟨hshort, hlt, hlow⟩ := hspins
      exact .inr ⟨hshort, hlt, fun hge => absurd hge (Nat.not_le.mpr hlow)⟩
    · have hstops := dupfd_loop_stops hnil hspins (Nat.le_refl _)
      generalize start_num - ([] : List Nat).length + 1 = fuel at hstops
      have hintact := hintact fuel
      have hend := dupfd_loop_end hnil fuel
      rw [run, sys_fcntl_dupfd] at hintact
      rcases hloop : dupfd_loop stdin fd_limit start_num fuel t [] with e | _ | ⟨n, u, tmp_fd⟩
      · rw [hloop] at hintact hend
        exact absurd hend.1 hintact
      · exact absurd hloop hstops
      · rw [hloop] at hintact hend
        have hfound := (intact_ended_iff hnew hend _).mp hintact
        rcases hend.place with hlowest | ⟨hshort, rfl, hlt, _⟩
        · exact .inl ⟨n, hlowest, hfound⟩
        · refine .inr ⟨hshort, hlt, fun hge => ?_⟩
          rcases hfound with hsome | heq
          · exact hsome
          · rw [heq]
            exact hlimit hshort hlt hge
  · intro hsafe fuel
    have hend := dupfd_loop_end hnil fuel
    rw [run, sys_fcntl_dupfd]
    rcases hloop : dupfd_loop stdin fd_limit start_num fuel t [] with e | _ | ⟨n, u, tmp_fd⟩
    · rw [hloop] at hend
      obtain ⟨_, hshort, hle⟩ := hend
      rcases hsafe with ⟨n, ⟨hfree, hge, _⟩, _⟩ | ⟨_, hlt, _⟩
      · exact absurd (hshort n hfree) (Nat.not_lt.mpr hge)
      · exact absurd hlt (Nat.not_lt.mpr hle)
    · trivial
    · rw [hloop] at hend
      apply (intact_ended_iff hnew hend _).mpr
      rcases hend.place with ⟨hfree, hge, hlowest⟩ | ⟨hshort, rfl, hlt, hge⟩
      · rcases hsafe with ⟨m, ⟨hfree', hge', hlowest'⟩, hfound⟩ | ⟨hshort, _⟩
        · rw [Nat.le_antisymm (hlowest m hfree' hge') (hlowest' n hfree hge)]
          exact hfound
        · exact absurd (hshort n hfree) (Nat.not_lt.mpr hge)
      · rcases hsafe with ⟨m, ⟨hfree', hge', _⟩, _⟩ | ⟨_, _, hfound⟩
        · exact absurd (hshort m hfree') (Nat.not_lt.mpr hge')
        · exact .inl (hfound hge)

/-- When a failing call leaves the table alone. -/
def Safe (t : FDTable F) (fd_limit : Nat) : FdCall F → Prop
  | pipe2 .. | socketpair .. => ¬∃! fd, fd < fd_limit ∧ t.slot fd = none
  | dup _ | openat .. => True
  | dup3 old_fd new_fd => t.slot old_fd = none ∨ new_fd < t.length ∨ new_fd + 1 < 2 ^ 64
  | fcntl_dupfd _ fd start_num => DupSafe t fd_limit (as_usize fd) start_num

/-- `Arc::new(Stdin)` is none of the files of the table. -/
def New (t : FDTable F) : FdCall F → Prop
  | fcntl_dupfd stdin _ _ => some stdin ∉ t
  | _ => True

theorem intact_iff (fd_limit : Nat) (call : FdCall F) (hnew : call.New t) :
    (∀ fuel, Intact t (call.run fuel t fd_limit)) ↔ call.Safe t fd_limit := by
  cases call with
  | pipe2 file0 file1 => exact forall_const Nat |>.trans (intact_alloc_pair_iff t fd_limit file0 file1)
  | socketpair file0 file1 =>
    exact forall_const Nat |>.trans (intact_alloc_pair_iff t fd_limit file0 file1)
  | dup old_fd => exact iff_of_true (fun _ => intact_dup t fd_limit old_fd) trivial
  | openat fd open_at => exact iff_of_true (fun _ => intact_openat t fd_limit fd open_at) trivial
  | dup3 old_fd new_fd => exact forall_const Nat |>.trans (intact_dup3_iff t old_fd new_fd)
  | fcntl_dupfd stdin fd start_num => exact intact_fcntl_dupfd_iff hnew fd start_num

/-- A descriptor of a small table is copied to a free slot. -/
theorem intact_dupfd_free :
    Intact [some 0, none, some 2] (run 4 [some 0, none, some 2] 8 (.fcntl_dupfd 9 2 3)) := by
  apply (intact_iff 8 (.fcntl_dupfd 9 2 3) (by decide : some 9 ∉ [some 0, none, some 2])).mpr
  refine .inl ⟨3, ⟨⟨rfl, .inr (by decide)⟩, Nat.le_refl 3, fun m _ hm => hm⟩, .inl (by decide)⟩

/-- A pipe does not fit next to three files when the limit is four. -/
theorem pipe2_leaks :
    ¬∀ (t : FDTable Nat) (fd_limit : Nat) (call : FdCall Nat) (fuel : Nat),
      Intact t (call.run fuel t fd_limit) := by
  intro h
  have hslot := h [some 0, some 1, some 2] 4 (.pipe2 3 4) 0 3
  exact absurd hslot (by decide)

end FdCall

end MyGOS.Fs
