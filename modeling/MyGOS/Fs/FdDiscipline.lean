import MyGOS.Fs.FdExits
import MyGOS.Lib.StepSystem
import Mathlib.Order.Bounds.Basic

/-!
# Which descriptor a call gives out

A table is read as the function from descriptors to files. `Answers` says what
a call that succeeds does to that function: the lowest free descriptor gets the
file, and no other changes. The calls keep to it, with the exceptions that
`Permits` leaves out.
-/

namespace MyGOS.Fs

open Outcome StepSystem

namespace FDTable

variable {F : Type} {t t' : FDTable F} {fd_limit fd n : Nat} {file : F}

def sys_close (fd_table : FDTable F) (fd : Nat) :
    Except Panic (Except Errno Unit × FDTable F) :=
  if fd ≥ fd_table.length then .ok (.error .EBADF, fd_table)
  else
    match fd_table.slot fd with
    | none => .ok (.error .EBADF, fd_table)
    | some _ => do
      let fd_table ← fd_table.put fd none
      return (.ok (), fd_table)

/-- No open descriptor at or above the limit. -/
def Bounded (fd_limit : Nat) (t : FDTable F) : Prop := ∀ i, fd_limit ≤ i → t.slot i = none

/-- The free descriptors from `min` on. -/
def free (s : Nat → Option F) (min : Nat) : Set Nat := {n | min ≤ n ∧ s n = none}

theorem slot_put (h : fd < t.length) (file : Option F) :
    slot (t.set fd file) = Function.update t.slot fd file := by
  funext i
  rw [slot_set h, Function.update_apply]

theorem Bounded.update (h : t.Bounded fd_limit) (hlt : n < fd_limit) {file : Option F}
    (hslots : t'.slot = Function.update t.slot n file) : t'.Bounded fd_limit := by
  intro i hi
  rw [hslots, Function.update_of_ne (by omega)]
  exact h i hi

/-- What a call that takes one descriptor comes to. -/
inductive Placed (t : FDTable F) (fd_limit : Nat) (file : F) : Except Errno Nat × FDTable F → Prop where
  | full {e : Errno} {t' : FDTable F} (hfull : ∀ i, i < fd_limit → t.slot i ≠ none)
      (hslots : t'.slot = t.slot) : Placed t fd_limit file (.error e, t')
  | placed {fd : Nat} {t' : FDTable F} (hlt : fd < fd_limit) (hleast : IsLeast (free t.slot 0) fd)
      (hslots : t'.slot = Function.update t.slot fd (some file)) :
      Placed t fd_limit file (.ok fd, t')

theorem alloc_one_placed (t : FDTable F) (fd_limit : Nat) (file : F) :
    ∃ r, t.alloc_one fd_limit file = .ok r ∧ t.Placed fd_limit file r := by
  rw [alloc_one]
  have h := t.alloc_fd_spec fd_limit
  generalize t.alloc_fd fd_limit = r at h ⊢
  cases h with
  | full hfull hle =>
    dsimp only
    rw [if_pos (Nat.le_refl fd_limit)]
    exact ⟨_, rfl, .full (fun i hi hnone => hfull i ⟨hnone, .inr hi⟩) rfl⟩
  | free hfree hlowest hslots hlt hle hmax =>
    rename_i n t'
    dsimp only
    split
    · next hge =>
      refine ⟨_, rfl, .full (fun i hi hnone => ?_) (funext hslots)⟩
      exact absurd (hlowest i ⟨hnone, .inr hi⟩) (by omega)
    · next hlow =>
      have hlt' : n < fd_limit := Nat.lt_of_not_le hlow
      rw [put_eq hlt]
      refine ⟨_, rfl, .placed hlt' ⟨⟨Nat.zero_le _, hfree.1⟩, ?_⟩ ?_⟩
      · rintro m ⟨-, hm⟩
        rcases Nat.lt_or_ge m fd_limit with hm' | hm'
        · exact hlowest m ⟨hm, .inr hm'⟩
        · omega
      · rw [slot_put hlt, funext hslots]

/-- What `pipe2` comes to: two descriptors, or none when none is free, or only one. -/
inductive PairPlaced (t : FDTable F) (fd_limit : Nat) (file0 file1 : F) :
    Except Errno (Nat × Nat) × FDTable F → Prop where
  | full {e : Errno} {t' : FDTable F} (hfull : ∀ i, i < fd_limit → t.slot i ≠ none)
      (hslots : t'.slot = t.slot) : PairPlaced t fd_limit file0 file1 (.error e, t')
  | half {e : Errno} {t' : FDTable F} {fd0 : Nat} (hlt : fd0 < fd_limit)
      (hfree : t.slot fd0 = none) (honly : ∀ i, i < fd_limit → t.slot i = none → i = fd0)
      (hslots : t'.slot = Function.update t.slot fd0 (some file0)) :
      PairPlaced t fd_limit file0 file1 (.error e, t')
  | placed {fd0 fd1 : Nat} {t' : FDTable F} (hlt0 : fd0 < fd_limit) (hlt1 : fd1 < fd_limit)
      (hleast0 : IsLeast (free t.slot 0) fd0)
      (hleast1 : IsLeast (free (Function.update t.slot fd0 (some file0)) 0) fd1)
      (hslots : t'.slot =
        Function.update (Function.update t.slot fd0 (some file0)) fd1 (some file1)) :
      PairPlaced t fd_limit file0 file1 (.ok (fd0, fd1), t')

/-- A pair is one descriptor after the other. -/
theorem alloc_pair_eq (t : FDTable F) (fd_limit : Nat) (file0 file1 : F) :
    t.alloc_pair fd_limit file0 file1 = (do
      let (fd0, t) ← t.alloc_one fd_limit file0
      match fd0 with
      | .error e => return (.error e, t)
      | .ok fd0 =>
        let (fd1, t) ← t.alloc_one fd_limit file1
        return (fd1.map fun fd1 => (fd0, fd1), t)) := by
  rw [alloc_pair, alloc_one]
  generalize t.alloc_fd fd_limit = r
  obtain ⟨fd0, t'⟩ := r
  dsimp only
  split
  · rfl
  · cases t'.put fd0 (some file0) with
    | error e => rfl
    | ok u =>
      simp only [bind, Except.bind, pure, Except.pure, alloc_one]
      split
      · rfl
      · cases (u.alloc_fd fd_limit).2.put (u.alloc_fd fd_limit).1 (some file1) <;> rfl

theorem alloc_pair_placed (t : FDTable F) (fd_limit : Nat) (file0 file1 : F) :
    ∃ r, t.alloc_pair fd_limit file0 file1 = .ok r ∧ t.PairPlaced fd_limit file0 file1 r := by
  rw [alloc_pair_eq]
  obtain ⟨r, hr, hplaced⟩ := t.alloc_one_placed fd_limit file0
  rw [hr]
  cases hplaced with
  | full hfull hslots => exact ⟨_, rfl, .full hfull hslots⟩
  | placed hlt hleast hslots =>
    rename_i fd0 u
    obtain ⟨r', hr', hplaced'⟩ := u.alloc_one_placed fd_limit file1
    simp only [bind, Except.bind, hr']
    cases hplaced' with
    | full hfull hslots' =>
      refine ⟨_, rfl, .half hlt hleast.1.2 (fun i hi hnone => ?_) (hslots'.trans hslots)⟩
      by_contra hne
      apply hfull i hi
      rw [hslots, Function.update_of_ne hne, hnone]
    | placed hlt' hleast' hslots' =>
      rw [hslots] at hleast' hslots'
      exact ⟨_, rfl, .placed hlt hlt' hleast hleast' hslots'⟩

section Dupfd

variable {stdin : F} {fuel start_num : Nat} {fd : Int} {u : FDTable F} {tmp_fd : List Nat}

/-- The end of `F_DUPFD_CLOEXEC` for an open file. -/
theorem Ended.finish_open (h : Ended stdin fd_limit start_num t n u tmp_fd)
    (hloop : dupfd_loop stdin fd_limit start_num fuel t [] = .ok (some (n, u, tmp_fd)))
    (hfile : t.slot (as_usize fd) = some file) (hne : as_usize fd ≠ n) :
    ∃ u', t.sys_fcntl_dupfd stdin fuel fd_limit fd start_num = .ok (some (.ok n, u')) ∧
      u'.slot = Function.update t.slot n (some file) := by
  obtain ⟨u', htake, hlt, hslots⟩ := h.take_tmp
  have hslot : u'.slot (as_usize fd) = some file := by rw [hslots, if_neg hne, hfile]
  refine ⟨u'.set n (some file), ?_, funext fun i => ?_⟩
  · rw [sys_fcntl_dupfd, hloop]
    simp only [bind, Except.bind, htake]
    rw [if_pos (lt_of_slot hslot), hslot]
    simp only [put_eq hlt]
    rfl
  · rw [slot_set hlt, hslots, Function.update_apply]
    split
    · rfl
    · rfl

/-- For a closed one, the new slot holds `stdin` when the call ends. -/
theorem Ended.finish_closed (h : Ended stdin fd_limit start_num t n u tmp_fd)
    (hloop : dupfd_loop stdin fd_limit start_num fuel t [] = .ok (some (n, u, tmp_fd)))
    (hclosed : t.slot (as_usize fd) = none) {r : Except Errno Nat × FDTable F}
    (hrun : t.sys_fcntl_dupfd stdin fuel fd_limit fd start_num = .ok (some r)) :
    r.2.slot n = some stdin ∧ (r.1 = .error .EBADF ∨ r.1 = .ok n) := by
  obtain ⟨u', htake, hlt, hslots⟩ := h.take_tmp
  rw [sys_fcntl_dupfd, hloop] at hrun
  simp only [bind, Except.bind, htake] at hrun
  split at hrun
  · split at hrun
    · cases hrun
      exact ⟨by rw [hslots, if_pos rfl], .inl rfl⟩
    · next file hfile =>
      rw [put_eq hlt] at hrun
      cases hrun
      rw [hslots] at hfile
      split at hfile
      · cases hfile
        exact ⟨by rw [slot_set hlt, if_pos rfl], .inr rfl⟩
      · rw [hclosed] at hfile
        cases hfile
  · cases hrun

end Dupfd

end FDTable

/-- The calls that open and close descriptors. -/
inductive TableOp (F : Type) where
  | openat (fd : Int) (open_at : Option F → Except Errno F)
  | dup (old_fd : Nat)
  | dup3 (old_fd new_fd : Nat)
  | pipe2 (pipe_read pipe_write : F)
  | fcntl_dupfd (stdin : F) (fd : Int) (start_num : Nat)
  | close (fd : Nat)

namespace TableOp

open FDTable

variable {F : Type} {t t' : FDTable F} {fd_limit : Nat}

/-- The descriptors the call gives out, and the table it leaves; `none` while it runs. -/
def run (fuel fd_limit : Nat) (t : FDTable F) :
    TableOp F → Except Panic (Option (Except Errno (List Nat) × FDTable F))
  | openat fd open_at => do
    let (r, t) ← t.sys_openat fd_limit fd open_at
    return some (r.map fun fd => [fd], t)
  | dup old_fd => do
    let (r, t) ← t.sys_dup fd_limit old_fd
    return some (r.map fun fd => [fd], t)
  | dup3 old_fd new_fd => do
    let (r, t) ← t.sys_dup3 old_fd new_fd
    return some (r.map fun fd => [fd], t)
  | pipe2 pipe_read pipe_write => do
    let (r, t) ← t.sys_pipe2 fd_limit pipe_read pipe_write
    return some (r.map fun fds => [fds.1, fds.2], t)
  | fcntl_dupfd stdin fd start_num => do
    let r ← t.sys_fcntl_dupfd stdin fuel fd_limit fd start_num
    return r.map fun r => (r.1.map fun fd => [fd], r.2)
  | close fd => do
    let (r, t) ← t.sys_close fd
    return some (r.map fun _ => [], t)

/-- The table a call leaves. -/
def step (fuel fd_limit : Nat) (t : FDTable F) (op : TableOp F) :
    Except (Option Panic) (FDTable F) :=
  match op.run fuel fd_limit t with
  | .ok (some (_, t')) => .ok t'
  | .ok none => .error none
  | .error e => .error (some e)

/-- The directory that a path of `openat` is followed from. -/
def dir (s : Nat → Option F) (fd : Int) : Option F := if fd = AT_FDCWD then none else s (as_usize fd)

/-- What a call that succeeds is to do, on descriptors as a function. -/
def Answers (s : Nat → Option F) : TableOp F → List Nat → (Nat → Option F) → Prop
  | openat fd open_at, fds, s' => ∃ file n, open_at (dir s fd) = .ok file ∧ fds = [n] ∧
      IsLeast (free s 0) n ∧ s' = Function.update s n (some file)
  | dup old_fd, fds, s' => ∃ file n, s old_fd = some file ∧ fds = [n] ∧
      IsLeast (free s 0) n ∧ s' = Function.update s n (some file)
  | dup3 old_fd new_fd, fds, s' => ∃ file, s old_fd = some file ∧ fds = [new_fd] ∧
      s' = Function.update s new_fd (some file)
  | pipe2 pipe_read pipe_write, fds, s' => ∃ fd0 fd1, fds = [fd0, fd1] ∧
      IsLeast (free s 0) fd0 ∧ IsLeast (free (Function.update s fd0 (some pipe_read)) 0) fd1 ∧
      s' = Function.update (Function.update s fd0 (some pipe_read)) fd1 (some pipe_write)
  | fcntl_dupfd _ fd start_num, fds, s' => ∃ file n, s (as_usize fd) = some file ∧ fds = [n] ∧
      IsLeast (free s start_num) n ∧ s' = Function.update s n (some file)
  | close fd, fds, s' => s fd ≠ none ∧ fds = [] ∧ s' = Function.update s fd none

/-- No descriptor is open from the limit on; a call that fails leaves every descriptor as it was,
and one that does not does what it is to do. -/
def Orderly (fd_limit : Nat) (t : FDTable F) (op : TableOp F)
    (x : Except Errno (List Nat) × FDTable F) : Prop :=
  x.2.Bounded fd_limit ∧
    match x.1 with
    | .error _ => x.2.slot = t.slot
    | .ok fds => op.Answers t.slot fds x.2.slot

/-- The call returns in order, and it indexes the table nowhere outside. -/
def Disciplined (fd_limit : Nat) (t : FDTable F) (op : TableOp F) : Prop :=
  (∃ fuel x, op.run fuel fd_limit t = .ok (some x)) ∧
    ∀ fuel, Meets (op.run fuel fd_limit t) (fun _ => False) fun r =>
      ∀ x ∈ r, op.Orderly fd_limit t x

/-- The calls that keep to the discipline. -/
def Permits (fd_limit : Nat) (t : FDTable F) : TableOp F → Prop
  | openat .. | dup _ | close _ => True
  | dup3 old_fd new_fd => t.slot old_fd = none ∨ new_fd < fd_limit
  | pipe2 .. => ¬∃! fd, fd < fd_limit ∧ t.slot fd = none
  | fcntl_dupfd _ fd start_num => t.slot (as_usize fd) ≠ none ∧
      ∃ n, start_num ≤ n ∧ n < fd_limit ∧ t.slot n = none

variable {r : Except Errno Nat × FDTable F} {file : F}

theorem Disciplined.of_run {op : TableOp F} {x : Except Errno (List Nat) × FDTable F}
    (hrun : ∀ fuel, op.run fuel fd_limit t = .ok (some x)) (horderly : op.Orderly fd_limit t x) :
    Disciplined fd_limit t op := by
  refine ⟨⟨0, x, hrun 0⟩, fun fuel => ?_⟩
  rw [hrun fuel]
  rintro _ ⟨⟩
  exact horderly

theorem Disciplined.orderly {op : TableOp F} (h : Disciplined fd_limit t op) {fuel : Nat}
    {x : Except Errno (List Nat) × FDTable F} (hrun : op.run fuel fd_limit t = .ok (some x)) :
    op.Orderly fd_limit t x :=
  (h.2 fuel).of_ok hrun x rfl

/-- A call that takes one descriptor keeps to the discipline if it does on success. -/
theorem Disciplined.of_placed {op : TableOp F} (hbounded : t.Bounded fd_limit)
    (hrun : ∀ fuel, op.run fuel fd_limit t = .ok (some (r.1.map fun fd => [fd], r.2)))
    (hplaced : t.Placed fd_limit file r)
    (hanswers : ∀ n, IsLeast (free t.slot 0) n →
      op.Answers t.slot [n] (Function.update t.slot n (some file))) :
    Disciplined fd_limit t op := by
  apply Disciplined.of_run hrun
  cases hplaced with
  | full hfull hslots => exact ⟨fun i hi => (congrFun hslots i).trans (hbounded i hi), hslots⟩
  | placed hlt hleast hslots =>
    refine ⟨hbounded.update hlt hslots, ?_⟩
    dsimp only [Except.map]
    rw [hslots]
    exact hanswers _ hleast

/-- A call that fails before it looks for a descriptor. -/
theorem Disciplined.of_refused {op : TableOp F} (e : Errno) (hbounded : t.Bounded fd_limit)
    (hrun : ∀ fuel, op.run fuel fd_limit t = .ok (some (.error e, t))) :
    Disciplined fd_limit t op :=
  .of_run hrun ⟨hbounded, rfl⟩

theorem disciplined_dup (hbounded : t.Bounded fd_limit) (old_fd : Nat) :
    Disciplined fd_limit t (.dup old_fd) := by
  by_cases hlen : old_fd ≥ t.length
  · exact .of_refused .EBADF hbounded fun fuel => by rw [run, sys_dup, if_pos hlen]; rfl
  · cases hslot : t.slot old_fd with
    | none => exact .of_refused .EBADF hbounded fun fuel => by rw [run, sys_dup, if_neg hlen, hslot]; rfl
    | some file =>
      obtain ⟨r, hr, hplaced⟩ := t.alloc_one_placed fd_limit file
      refine .of_placed hbounded (fun fuel => ?_) hplaced fun n hn => ⟨file, n, hslot, rfl, hn, rfl⟩
      rw [run, sys_dup, if_neg hlen, hslot]
      simp only [hr]
      rfl

theorem disciplined_openat (hbounded : t.Bounded fd_limit) (fd : Int)
    (open_at : Option F → Except Errno F) : Disciplined fd_limit t (.openat fd open_at) := by
  have hplace : ∀ file, open_at (dir t.slot fd) = .ok file →
      t.sys_openat fd_limit fd open_at = t.alloc_one fd_limit file →
      Disciplined fd_limit t (.openat fd open_at) := by
    intro file hopen heq
    obtain ⟨r, hr, hplaced⟩ := t.alloc_one_placed fd_limit file
    refine .of_placed hbounded (fun fuel => ?_) hplaced fun n hn => ⟨file, n, hopen, rfl, hn, rfl⟩
    rw [run, heq, hr]
    rfl
  have hrefuse : ∀ e, t.sys_openat fd_limit fd open_at = .ok (.error e, t) →
      Disciplined fd_limit t (.openat fd open_at) := by
    intro e heq
    refine .of_refused e hbounded fun fuel => ?_
    rw [run, heq]
    rfl
  by_cases hcwd : fd = AT_FDCWD
  · cases hopen : open_at none with
    | error e => exact hrefuse e (by rw [sys_openat, if_pos hcwd, hopen])
    | ok file =>
      exact hplace file (by rw [dir, if_pos hcwd, hopen]) (by rw [sys_openat, if_pos hcwd, hopen])
  · by_cases hlen : as_usize fd ≥ t.length
    · exact hrefuse .EINVAL (by rw [sys_openat, if_neg hcwd, if_pos hlen])
    · by_cases hmax : as_usize fd ≥ fd_limit
      · exact hrefuse .EMFILE (by rw [sys_openat, if_neg hcwd, if_neg hlen, if_pos hmax])
      · cases hslot : t.slot (as_usize fd) with
        | none =>
          exact hrefuse .ENOENT (by rw [sys_openat, if_neg hcwd, if_neg hlen, if_neg hmax, hslot])
        | some dirfd =>
          cases hopen : open_at (some dirfd) with
          | error e =>
            apply hrefuse e
            rw [sys_openat, if_neg hcwd, if_neg hlen, if_neg hmax, hslot]
            simp only [hopen]
          | ok file =>
            apply hplace file
            · rw [dir, if_neg hcwd, hslot, hopen]
            · rw [sys_openat, if_neg hcwd, if_neg hlen, if_neg hmax, hslot]
              simp only [hopen]

theorem disciplined_close (hbounded : t.Bounded fd_limit) (fd : Nat) :
    Disciplined fd_limit t (.close fd) := by
  by_cases hlen : fd ≥ t.length
  · exact .of_refused .EBADF hbounded fun fuel => by rw [run, sys_close, if_pos hlen]; rfl
  · cases hslot : t.slot fd with
    | none => exact .of_refused .EBADF hbounded fun fuel => by rw [run, sys_close, if_neg hlen, hslot]; rfl
    | some file =>
      have hlt : fd < t.length := Nat.lt_of_not_le hlen
      have hrun : ∀ fuel, run fuel fd_limit t (.close fd) = .ok (some (.ok [], t.set fd none)) := by
        intro fuel
        rw [run, sys_close, if_neg hlen, hslot]
        simp only [put_eq hlt]
        rfl
      refine .of_run hrun ⟨fun i hi => ?_, ?_, rfl, slot_put hlt none⟩
      · rw [slot_set hlt, hbounded i hi, ite_self]
      · rw [hslot]
        exact Option.some_ne_none file

/-- A pair fails half way when there is room for just one. -/
theorem disciplined_pipe2_iff (hbounded : t.Bounded fd_limit) (pipe_read pipe_write : F) :
    Disciplined fd_limit t (.pipe2 pipe_read pipe_write) ↔
      ¬∃! fd, fd < fd_limit ∧ t.slot fd = none := by
  obtain ⟨r, hr, hplaced⟩ := t.alloc_pair_placed fd_limit pipe_read pipe_write
  have hrun : ∀ fuel, run fuel fd_limit t (.pipe2 pipe_read pipe_write) =
      .ok (some (r.1.map fun fds => [fds.1, fds.2], r.2)) := by
    intro fuel
    rw [run, sys_pipe2, hr]
    rfl
  cases hplaced with
  | full hfull hslots =>
    refine iff_of_true (.of_run hrun ⟨?_, hslots⟩) ?_
    · exact fun i hi => (congrFun hslots i).trans (hbounded i hi)
    · rintro ⟨fd, ⟨hlt, hnone⟩, -⟩
      exact hfull fd hlt hnone
  | half hlt hfree honly hslots =>
    refine iff_of_false ?_ (not_not_intro ⟨_, ⟨hlt, hfree⟩, fun i hi => honly i hi.1 hi.2⟩)
    intro hdisciplined
    rename_i fd0
    have hsame := congrFun (hslots.symm.trans (hdisciplined.orderly (hrun 0)).2) fd0
    rw [Function.update_self, hfree] at hsame
    cases hsame
  | placed hlt0 hlt1 hleast0 hleast1 hslots =>
    refine iff_of_true (.of_run hrun ⟨?_, ?_⟩) ?_
    · intro i hi
      rw [hslots, Function.update_of_ne (by omega), Function.update_of_ne (by omega)]
      exact hbounded i hi
    · exact ⟨_, _, rfl, hleast0, hleast1, hslots⟩
    · rintro ⟨fd, -, hunique⟩
      rename_i fd0 fd1 t'
      have hfree := hleast1.1.2
      have hne : fd1 ≠ fd0 := by
        rintro rfl
        rw [Function.update_self] at hfree
        cases hfree
      rw [Function.update_of_ne hne] at hfree
      exact hne ((hunique fd1 ⟨hlt1, hfree⟩).trans (hunique fd0 ⟨hlt0, hleast0.1.2⟩).symm)

/-- The number of `dup3` is not compared with the limit. -/
theorem disciplined_dup3_iff (hlimit : fd_limit < 2 ^ 64) (hbounded : t.Bounded fd_limit)
    (old_fd new_fd : Nat) : Disciplined fd_limit t (.dup3 old_fd new_fd) ↔
      t.slot old_fd = none ∨ new_fd < fd_limit := by
  cases hslot : t.slot old_fd with
  | none =>
    refine iff_of_true (.of_refused .EBADF hbounded fun fuel => ?_) (.inl rfl)
    rw [run, sys_dup3, hslot]
    rfl
  | some file =>
    generalize hgrown : (if new_fd ≥ t.length then
      t ++ List.replicate ((new_fd + 1) % 2 ^ 64 - t.length) none else t) = u
    have hsame : u.slot = t.slot := by
      funext i
      rw [← hgrown]
      split
      · exact slot_append_none t _ i
      · rfl
    have hrun : ∀ fuel, run fuel fd_limit t (.dup3 old_fd new_fd) =
        (u.put new_fd (some file)).map fun t' => some (.ok [new_fd], t') := by
      intro fuel
      rw [run, sys_dup3, hslot]
      simp only [hgrown]
      cases u.put new_fd (some file) <;> rfl
    constructor
    · intro hdisciplined
      obtain ⟨fuel, ⟨r, t'⟩, hrun'⟩ := hdisciplined.1
      obtain ⟨hbounded', -⟩ := hdisciplined.orderly hrun'
      rw [hrun fuel] at hrun'
      by_cases hlt : new_fd < u.length
      · rw [put_eq hlt] at hrun'
        cases hrun'
        refine .inr (Nat.lt_of_not_le fun hle => ?_)
        have hnone := hbounded' new_fd hle
        rw [slot_set hlt, if_pos rfl] at hnone
        cases hnone
      · rw [put, if_neg hlt] at hrun'
        cases hrun'
    · rintro (hnone | hlt)
      · cases hnone
      · have hlen : new_fd < u.length := by
          rw [← hgrown]
          split
          · rw [List.length_append, List.length_replicate, Nat.mod_eq_of_lt (by omega)]
            omega
          · omega
        have hslots : slot (u.set new_fd (some file)) =
            Function.update t.slot new_fd (some file) := by
          rw [slot_put hlen, hsame]
        have horderly : Orderly fd_limit t (.dup3 old_fd new_fd)
            (.ok [new_fd], u.set new_fd (some file)) :=
          ⟨hbounded.update hlt hslots, file, hslot, rfl, hslots⟩
        refine .of_run (fun fuel => ?_) horderly
        rw [hrun, put_eq hlen]
        rfl

/-- `F_DUPFD_CLOEXEC` fills a slot before it looks at the file, and does not compare the slot with
the limit. -/
theorem disciplined_fcntl_dupfd_iff (hbounded : t.Bounded fd_limit) (stdin : F) (fd : Int)
    (start_num : Nat) : Disciplined fd_limit t (.fcntl_dupfd stdin fd start_num) ↔
      t.slot (as_usize fd) ≠ none ∧ ∃ n, start_num ≤ n ∧ n < fd_limit ∧ t.slot n = none := by
  have hloops := dupfd_loop_end (Taken.nil t : Taken stdin fd_limit start_num t t [])
  constructor
  · intro hdisciplined
    obtain ⟨fuel, ⟨r, t'⟩, hrun⟩ := hdisciplined.1
    obtain ⟨hbounded', hanswer⟩ := hdisciplined.orderly hrun
    have hend := hloops fuel
    rcases hloop : dupfd_loop stdin fd_limit start_num fuel t [] with e | _ | ⟨n, u, tmp_fd⟩
    · rw [run, sys_fcntl_dupfd, hloop] at hrun
      cases hrun
    · rw [run, sys_fcntl_dupfd, hloop] at hrun
      cases hrun
    · rw [hloop] at hend
      have hnone : t.slot n = none := by
        rcases hend.place with hlowest | ⟨-, rfl, -, -⟩
        · exact hlowest.1.1
        · exact hbounded n (Nat.le_refl n)
      cases hfile : t.slot (as_usize fd) with
      | none =>
        exfalso
        obtain ⟨x, hx, hrun⟩ := bind_eq_ok.mp hrun
        obtain ⟨y, rfl, hy⟩ := Option.map_eq_some_iff.mp (Except.ok.inj hrun)
        cases hy
        obtain ⟨hslot, hr⟩ := hend.finish_closed hloop hfile hx
        obtain ⟨a, u'⟩ := y
        rcases hr with rfl | rfl
        · have hsame := (congrFun hanswer n).symm.trans hslot
          rw [hnone] at hsame
          cases hsame
        · obtain ⟨file, _, hsome, -⟩ := hanswer
          rw [hfile] at hsome
          cases hsome
      | some file =>
        have hne : as_usize fd ≠ n := by
          rintro rfl
          rw [hnone] at hfile
          cases hfile
        obtain ⟨u', hfinish, hslots⟩ := hend.finish_open hloop hfile hne
        rw [run, hfinish] at hrun
        cases hrun
        have hlt : n < fd_limit := by
          by_contra hle
          have hbound := hbounded' n (Nat.le_of_not_lt hle)
          rw [hslots, Function.update_self] at hbound
          cases hbound
        refine ⟨Option.some_ne_none file, n, ?_, hlt, hnone⟩
        rcases hend.place with hlowest | ⟨-, rfl, -, hge⟩
        · exact hlowest.2.1
        · exact hge
  · rintro ⟨hsome, n, hge, hlt, hnone⟩
    have hfree : t.Free fd_limit n := ⟨hnone, .inr hlt⟩
    have hlong : ¬ t.Short fd_limit start_num := fun hshort => absurd (hshort n hfree) (by omega)
    obtain ⟨file, hfile⟩ := Option.ne_none_iff_exists'.mp hsome
    have hfinish : ∀ {fuel m u tmp_fd},
        dupfd_loop stdin fd_limit start_num fuel t [] = .ok (some (m, u, tmp_fd)) →
        ∃ u', run fuel fd_limit t (.fcntl_dupfd stdin fd start_num) = .ok (some (.ok [m], u')) ∧
          Orderly fd_limit t (.fcntl_dupfd stdin fd start_num) (.ok [m], u') := by
      intro fuel m u tmp_fd hloop
      have hend := hloops fuel
      rw [hloop] at hend
      obtain ⟨hfree', hge', hlowest⟩ := hend.place.resolve_right fun h => hlong h.1
      have hlt' : m < fd_limit := Nat.lt_of_le_of_lt (hlowest n hfree hge) hlt
      have hne : as_usize fd ≠ m := by
        rintro rfl
        rw [hfree'.1] at hfile
        cases hfile
      obtain ⟨u', hfinish, hslots⟩ := hend.finish_open hloop hfile hne
      refine ⟨u', ?_, hbounded.update hlt' hslots, file, m, hfile, rfl, ⟨⟨hge', hfree'.1⟩, ?_⟩,
        hslots⟩
      · rw [run, hfinish]
        rfl
      · rintro i ⟨hi, hi'⟩
        rcases Nat.lt_or_ge i fd_limit with hi'' | hi''
        · exact hlowest i ⟨hi', .inr hi''⟩ hi
        · exact Nat.le_of_lt (Nat.lt_of_lt_of_le hlt' hi'')
    have hmeets : ∀ fuel, Meets (dupfd_loop stdin fd_limit start_num fuel t []) (fun _ => False)
        fun _ => True := by
      intro fuel
      have hend := hloops fuel
      rcases hloop : dupfd_loop stdin fd_limit start_num fuel t [] with e | r
      · rw [hloop] at hend
        exact hlong hend.2.1
      · trivial
    constructor
    · have hstops := dupfd_loop_stops (Taken.nil t : Taken stdin fd_limit start_num t t [])
        (fun h => hlong h.1) (Nat.le_refl _)
      obtain ⟨r, hloop, -⟩ := (hmeets (start_num - ([] : List Nat).length + 1)).exists_ok
      cases r with
      | none => exact absurd hloop hstops
      | some r =>
        obtain ⟨u', hrun, -⟩ := hfinish hloop
        exact ⟨_, _, hrun⟩
    · intro fuel
      obtain ⟨r, hloop, -⟩ := (hmeets fuel).exists_ok
      cases r with
      | none =>
        rw [run, sys_fcntl_dupfd, hloop]
        intro _ h
        cases h
      | some r =>
        obtain ⟨u', hrun, horderly⟩ := hfinish hloop
        rw [hrun]
        rintro _ ⟨⟩
        exact horderly

theorem disciplined_iff (hlimit : fd_limit < 2 ^ 64) (hbounded : t.Bounded fd_limit)
    (op : TableOp F) : Disciplined fd_limit t op ↔ op.Permits fd_limit t := by
  cases op with
  | openat fd open_at => exact iff_of_true (disciplined_openat hbounded fd open_at) trivial
  | dup old_fd => exact iff_of_true (disciplined_dup hbounded old_fd) trivial
  | close fd => exact iff_of_true (disciplined_close hbounded fd) trivial
  | dup3 old_fd new_fd => exact disciplined_dup3_iff hlimit hbounded old_fd new_fd
  | pipe2 pipe_read pipe_write => exact disciplined_pipe2_iff hbounded pipe_read pipe_write
  | fcntl_dupfd stdin fd start_num => exact disciplined_fcntl_dupfd_iff hbounded stdin fd start_num

/-- In every state of a run of such calls the table is bounded, and these are all the calls that
keep to the discipline. -/
theorem fd_discipline (hlimit : fd_limit < 2 ^ 64) (hbounded : t.Bounded fd_limit) {fuel : Nat}
    {ops : List (TableOp F)}
    (hops : Guarded (step fuel fd_limit) (fun t op => op.Permits fd_limit t) t ops) :
    ∀ u ∈ states (step fuel fd_limit) t ops, u.Bounded fd_limit ∧
      ∀ op, Disciplined fd_limit u op ↔ op.Permits fd_limit u := by
  have hinv := invariant (Bounded fd_limit) (fun u op u' hu hp hstep => ?_) hbounded hops
  · exact fun u hu => ⟨hinv u hu, disciplined_iff hlimit (hinv u hu)⟩
  · have hdisciplined := (disciplined_iff hlimit hu op).mpr hp
    unfold step at hstep
    split at hstep
    · next hrun =>
      cases hstep
      exact (hdisciplined.orderly hrun).1
    · cases hstep
    · cases hstep

/-- Each call once, on three open files under a limit of eight. -/
def each_call : List (TableOp Nat) :=
  [.dup 0, .openat AT_FDCWD (fun _ => .ok 4), .close 1, .pipe2 5 6, .dup3 0 7, .close 7,
    .fcntl_dupfd 9 2 6]

theorem fd_discipline_each :
    Guarded (step 8 8) (fun t op => op.Permits 8 t) [some 0, some 1, some 2] each_call ∧
    ∀ u ∈ states (step 8 8) [some 0, some 1, some 2] each_call, u.Bounded 8 ∧
      ∀ op, Disciplined 8 u op ↔ op.Permits 8 u := by
  have hguarded : Guarded (step 8 8) (fun t op => op.Permits 8 t) [some 0, some 1, some 2]
      each_call := by
    refine ⟨trivial, trivial, trivial, ?_, .inr (by decide), trivial, ⟨by decide, 6, by decide⟩,
      trivial⟩
    rintro ⟨fd, -, hunique⟩
    exact absurd ((hunique 1 (by decide)).trans (hunique 5 (by decide)).symm) (by decide)
  exact ⟨hguarded, fd_discipline (by decide) (fun i hi => slot_of_le (Nat.le_trans (by decide) hi))
    hguarded⟩

/-- `dup3` opens the descriptor at the limit. -/
theorem dup3_exceeds : Bounded 4 [some 0, some 1, some 2] ∧
    ∃ t ∈ states (step 0 4) [some 0, some 1, some 2] [.dup3 0 4], ¬ t.Bounded 4 := by
  refine ⟨fun i hi => slot_of_le (Nat.le_trans (by decide) hi),
    [some 0, some 1, some 2, none, some 0], by decide, fun hbounded => ?_⟩
  exact absurd (hbounded 4 (Nat.le_refl 4)) (by decide)

end TableOp

end MyGOS.Fs
