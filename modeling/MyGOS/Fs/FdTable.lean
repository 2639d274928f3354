import MyGOS.Basic
import MyGOS.Lib.Outcome
import Mathlib.Data.List.Basic
import Mathlib.Order.Defs.LinearOrder
import Mathlib.Data.List.Perm.Subperm
import Mathlib.Tactic.SplitIfs
import Mathlib.Algebra.Group.Int.Defs

/-!
# File descriptor tables

The calls that take a descriptor: each looks for the lowest free slot, and grows
the table when there is none. What the calls read from and write to the memory
of the user is left out, and so is what they do to the files.
-/

namespace MyGOS.Fs

open Outcome

/-- `F` is the type of `Arc<dyn File>`. -/
abbrev FDTable (F : Type) := List (Option F)

namespace FDTable

variable {F : Type}

/-- What descriptor `fd` refers to. -/
def slot (fd_table : FDTable F) (fd : Nat) : Option F := fd_table[fd]?.join

/-- `fd_table[fd] = file`. -/
def put (fd_table : FDTable F) (fd : Nat) (file : Option F) : Except Panic (FDTable F) :=
  if fd < fd_table.length then .ok (fd_table.set fd file) else .error .outOfBounds

def alloc_fd (fd_table : FDTable F) (fd_limit : Nat) : Nat × FDTable F :=
  match fd_table.findIdx? (·.isNone) with
  | some fd => (fd, fd_table)
  | none =>
    if fd_table.length ≥ fd_limit then (fd_limit, fd_table)
    else (fd_table.length, fd_table ++ [none])

/-- The two ends of a pipe, as `sys_pipe2` and `sys_socketpair` enter them. -/
def alloc_pair (fd_table : FDTable F) (fd_limit : Nat) (file0 file1 : F) :
    Except Panic (Except Errno (Nat × Nat) × FDTable F) := do
  let (fd0, fd_table) := fd_table.alloc_fd fd_limit
  if fd0 ≥ fd_limit then return (.error .EMFILE, fd_table)
  let fd_table ← fd_table.put fd0 (some file0)
  let (fd1, fd_table) := fd_table.alloc_fd fd_limit
  if fd1 ≥ fd_limit then return (.error .EMFILE, fd_table)
  let fd_table ← fd_table.put fd1 (some file1)
  return (.ok (fd0, fd1), fd_table)

def sys_pipe2 (fd_table : FDTable F) (fd_limit : Nat) (pipe_read pipe_write : F) :
    Except Panic (Except Errno (Nat × Nat) × FDTable F) :=
  fd_table.alloc_pair fd_limit pipe_read pipe_write

def sys_socketpair (fd_table : FDTable F) (fd_limit : Nat) (sv0 sv1 : F) :
    Except Panic (Except Errno (Nat × Nat) × FDTable F) :=
  fd_table.alloc_pair fd_limit sv0 sv1

/-- A slot for `file`, as `sys_dup` and `sys_openat` take it. -/
def alloc_one (fd_table : FDTable F) (fd_limit : Nat) (file : F) :
    Except Panic (Except Errno Nat × FDTable F) := do
  let (fd, fd_table) := fd_table.alloc_fd fd_limit
  if fd ≥ fd_limit then return (.error .EMFILE, fd_table)
  let fd_table ← fd_table.put fd (some file)
  return (.ok fd, fd_table)

def sys_dup (fd_table : FDTable F) (fd_limit old_fd : Nat) :
    Except Panic (Except Errno Nat × FDTable F) :=
  if old_fd ≥ fd_table.length then .ok (.error .EBADF, fd_table)
  else
    match fd_table.slot old_fd with
    | none => .ok (.error .EBADF, fd_table)
    | some file => fd_table.alloc_one fd_limit file

/-- `new_fd + 1` wraps. -/
def sys_dup3 (fd_table : FDTable F) (old_fd new_fd : Nat) :
    Except Panic (Except Errno Nat × FDTable F) :=
  match fd_table.slot old_fd with
  | none => .ok (.error .EBADF, fd_table)
  | some file => do
    let fd_table :=
      if new_fd ≥ fd_table.length then
        fd_table ++ List.replicate ((new_fd + 1) % 2 ^ 64 - fd_table.length) none
      else fd_table
    let fd_table ← fd_table.put new_fd (some file)
    return (.ok new_fd, fd_table)

def AT_FDCWD : Int := -100

/-- `fd as usize`. -/
def as_usize (fd : Int) : Nat := (fd % 2 ^ 64).toNat

/-- `open_at` is what `open` answers to the path, followed from the working
directory or from that of a file. -/
def sys_openat (fd_table : FDTable F) (fd_limit : Nat) (fd : Int)
    (open_at : Option F → Except Errno F) : Except Panic (Except Errno Nat × FDTable F) :=
  if fd = AT_FDCWD then
    match open_at none with
    | .error e => .ok (.error e, fd_table)
    | .ok inode => fd_table.alloc_one fd_limit inode
  else if as_usize fd ≥ fd_table.length then .ok (.error .EINVAL, fd_table)
  else if as_usize fd ≥ fd_limit then .ok (.error .EMFILE, fd_table)
  else
    match fd_table.slot (as_usize fd) with
    | none => .ok (.error .ENOENT, fd_table)
    | some file =>
      match open_at (some file) with
      | .error e => .ok (.error e, fd_table)
      | .ok tar_file => fd_table.alloc_one fd_limit tar_file

/-- The loop of `F_DUPFD_CLOEXEC`: slots are filled with `stdin` until one is high
enough. It is still running when it has taken `fuel` rounds. -/
def dupfd_loop (stdin : F) (fd_limit start_num : Nat) : Nat → FDTable F → List Nat →
    Except Panic (Option (Nat × FDTable F × List Nat))
  | 0, _, _ => .ok none
  | fuel + 1, fd_table, tmp_fd => do
    let (new_fd, fd_table) := fd_table.alloc_fd fd_limit
    let fd_table ← fd_table.put new_fd (some stdin)
    if new_fd ≥ start_num then return some (new_fd, fd_table, tmp_fd)
    else dupfd_loop stdin fd_limit start_num fuel fd_table (tmp_fd ++ [new_fd])

/-- `sys_fcntl` with `F_DUPFD_CLOEXEC`. -/
def sys_fcntl_dupfd (stdin : F) (fuel : Nat) (fd_table : FDTable F) (fd_limit : Nat) (fd : Int)
    (start_num : Nat) : Except Panic (Option (Except Errno Nat × FDTable F)) := do
  match ← dupfd_loop stdin fd_limit start_num fuel fd_table [] with
  | none => return none
  | some (new_fd, fd_table, tmp_fd) =>
    let fd_table ← tmp_fd.foldlM (fun fd_table i => fd_table.put i none) fd_table
    if as_usize fd < fd_table.length then
      match fd_table.slot (as_usize fd) with
      | none => return some (.error .EBADF, fd_table)
      | some file =>
        let fd_table ← fd_table.put new_fd (some file)
        return some (.ok new_fd, fd_table)
    else .error .outOfBounds

/-! ## What the operations do to the slots -/

variable {t t' : FDTable F} {fd_limit fd i : Nat} {file : F}

theorem slot_of_le (h : t.length ≤ i) : t.slot i = none := by
  rw [slot, List.getElem?_eq_none h, Option.join_none]

theorem lt_of_slot (h : t.slot i = some file) : i < t.length := by
  by_contra hle
  rw [slot_of_le (Nat.le_of_not_lt hle)] at h
  cases h

theorem slot_set (hlt : fd < t.length) (file : Option F) (i : Nat) :
    slot (t.set fd file) i = if i = fd then file else t.slot i := by
  unfold slot
  by_cases h : i = fd
  · subst h
    rw [if_pos rfl, List.getElem?_set_self hlt, Option.join_some]
  · rw [if_neg h, List.getElem?_set_ne (Ne.symm h)]

theorem slot_append_none (t : FDTable F) (n i : Nat) :
    slot (t ++ List.replicate n none) i = t.slot i := by
  by_cases hlt : i < t.length
  · rw [slot, slot, List.getElem?_append_left hlt]
  · rw [slot_of_le (Nat.le_of_not_lt hlt), slot, List.getElem?_append_right (Nat.le_of_not_lt hlt),
      List.getElem?_replicate]
    split <;> rfl

theorem put_eq (h : fd < t.length) (file : Option F) : t.put fd file = .ok (t.set fd file) :=
  if_pos h

/-- A descriptor the table has, or may grow by, and that refers to nothing. -/
def Free (t : FDTable F) (fd_limit fd : Nat) : Prop :=
  t.slot fd = none ∧ (fd < t.length ∨ fd < fd_limit)

/-- The outcomes of `alloc_fd`. -/
inductive Allocated (t : FDTable F) (fd_limit : Nat) : Nat × FDTable F → Prop where
  | free {fd : Nat} {t' : FDTable F} (hfree : t.Free fd_limit fd)
      (hlowest : ∀ i, t.Free fd_limit i → fd ≤ i) (hslots : ∀ i, t'.slot i = t.slot i)
      (hlt : fd < t'.length) (hle : t.length ≤ t'.length)
      (hmax : t'.length ≤ max t.length fd_limit) : Allocated t fd_limit (fd, t')
  | full (hfull : ∀ i, ¬t.Free fd_limit i) (hle : fd_limit ≤ t.length) :
      Allocated t fd_limit (fd_limit, t)

theorem alloc_fd_spec (t : FDTable F) (fd_limit : Nat) :
    t.Allocated fd_limit (t.alloc_fd fd_limit) := by
  unfold alloc_fd
  split
  · next fd hfind =>
    obtain ⟨hlt, hnone, hbefore⟩ := List.findIdx?_eq_some_iff_getElem.mp hfind
    have hslot : t.slot fd = none := by
      rw [slot, List.getElem?_eq_getElem hlt, Option.isNone_iff_eq_none.mp hnone, Option.join_some]
    refine .free ⟨hslot, .inl hlt⟩ (fun i hi => ?_) (fun i => rfl) hlt (Nat.le_refl _)
      (Nat.le_max_left ..)
    by_contra hi'
    have hlt' : i < fd := Nat.lt_of_not_le hi'
    have hsome := hbefore i hlt'
    have hi := hi.1
    rw [slot, List.getElem?_eq_getElem (Nat.lt_trans hlt' hlt), Option.join_some] at hi
    rw [hi] at hsome
    exact hsome rfl
  · next hnone =>
    have hsome : ∀ i < t.length, t.slot i ≠ none := by
      intro i hi hslot
      have hmem := List.findIdx?_eq_none_iff.mp hnone t[i] (List.getElem_mem hi)
      rw [slot, List.getElem?_eq_getElem hi, Option.join_some] at hslot
      rw [hslot] at hmem
      cases hmem
    split
    · next hge =>
      refine .full (fun i hi => ?_) hge
      exact hsome i (hi.2.elim id fun h => Nat.lt_of_lt_of_le h hge) hi.1
    · next hlt =>
      have hlen : (t ++ [none]).length = t.length + 1 := by simp
      refine .free ⟨slot_of_le (Nat.le_refl _), .inr (Nat.lt_of_not_le hlt)⟩ (fun i hi => ?_)
        (slot_append_none t 1) (by omega) (by omega) (by omega)
      by_contra hi'
      exact hsome i (Nat.lt_of_not_le hi') hi.1

end FDTable

/-- The calls that take a descriptor. -/
inductive FdCall (F : Type) where
  | pipe2 (pipe_read pipe_write : F)
  | socketpair (sv0 sv1 : F)
  | dup (old_fd : Nat)
  | dup3 (old_fd new_fd : Nat)
  | openat (fd : Int) (open_at : Option F → Except Errno F)
  | fcntl_dupfd (stdin : F) (fd : Int) (start_num : Nat)

namespace FdCall

open FDTable

variable {F : Type}

/-- Whether the call failed, and the table it leaves. -/
def failure {α : Type} (r : Except Errno α × FDTable F) : Option Errno × FDTable F :=
  (match r.1 with | .error e => some e | .ok _ => none, r.2)

def answer {α : Type} (x : Except Panic (Except Errno α × FDTable F)) :
    Except Panic (Option (Option Errno × FDTable F)) :=
  x.map fun r => some (failure r)

/-- How the call leaves the table; `none` while it runs. -/
def run (fuel : Nat) (fd_table : FDTable F) (fd_limit : Nat) :
    FdCall F → Except Panic (Option (Option Errno × FDTable F))
  | pipe2 pipe_read pipe_write => answer (fd_table.sys_pipe2 fd_limit pipe_read pipe_write)
  | socketpair sv0 sv1 => answer (fd_table.sys_socketpair fd_limit sv0 sv1)
  | dup old_fd => answer (fd_table.sys_dup fd_limit old_fd)
  | dup3 old_fd new_fd => answer (fd_table.sys_dup3 old_fd new_fd)
  | openat fd open_at => answer (fd_table.sys_openat fd_limit fd open_at)
  | fcntl_dupfd stdin fd start_num =>
    (fd_table.sys_fcntl_dupfd stdin fuel fd_limit fd start_num).map (·.map failure)

/-- A call that fails leaves every slot as it was, and no call indexes outside of the table. -/
def Intact (t : FDTable F) (x : Except Panic (Option (Option Errno × FDTable F))) : Prop :=
  match x with
  | .error e => e ≠ .outOfBounds
  | .ok none => True
  | .ok (some (none, _)) => True
  | .ok (some (some _, t')) => ∀ i, t'.slot i = t.slot i

variable {t : FDTable F} {fd_limit : Nat}

theorem intact_alloc_one (t : FDTable F) (fd_limit : Nat) (file : F) :
    Intact t (answer (t.alloc_one fd_limit file)) := by
  rw [alloc_one]
  have h := t.alloc_fd_spec fd_limit
  generalize t.alloc_fd fd_limit = r at h ⊢
  cases h with
  | full hfull hle =>
    dsimp only
    rw [if_pos (Nat.le_refl fd_limit)]
    exact fun i => rfl
  | free hfree hlowest hslots hlt hle hmax =>
    simp only
    split
    · exact hslots
    · rw [put_eq hlt]
      trivial

/-- A pair of descriptors fails half way when there is room for just one. -/
theorem intact_alloc_pair_iff (t : FDTable F) (fd_limit : Nat) (file0 file1 : F) :
    Intact t (answer (t.alloc_pair fd_limit file0 file1)) ↔
      ¬∃! fd, fd < fd_limit ∧ t.slot fd = none := by
  rw [alloc_pair]
  have h := t.alloc_fd_spec fd_limit
  generalize t.alloc_fd fd_limit = r at h ⊢
  cases h with
  | full hfull hle =>
    dsimp only
    rw [if_pos (Nat.le_refl fd_limit)]
    refine iff_of_true (fun i => rfl) ?_
    rintro ⟨fd, ⟨hlt, hnone⟩, _⟩
    exact hfull fd ⟨hnone, .inr hlt⟩
  | free hfree hlowest hslots hlt hle hmax =>
    rename_i fd0 t'
    simp only
    split
    · next hge =>
      refine iff_of_true hslots ?_
      rintro ⟨fd, ⟨hlt', hnone⟩, _⟩
      exact absurd (hlowest fd ⟨hnone, .inr hlt'⟩) (by omega)
    · next hlow =>
      rw [put_eq hlt]
      have hslots' := slot_set hlt (some file0)
      simp only [hslots] at hslots'
      obtain ⟨u, hu⟩ : ∃ u : FDTable F, u = t'.set fd0 (some file0) := ⟨_, rfl⟩
      simp only [bind, Except.bind]
      rw [← hu] at hslots' ⊢
      have h := u.alloc_fd_spec fd_limit
      have hhalf : ∀ u' : FDTable F, (∀ i, u'.slot i = u.slot i) → ¬∀ i, u'.slot i = t.slot i := by
        intro u' hu' hintact
        have hfd0 := (hu' fd0).symm.trans (hintact fd0)
        rw [hslots', if_pos rfl, hfree.1] at hfd0
        cases hfd0
      generalize u.alloc_fd fd_limit = r at h ⊢
      cases h with
      | full hfull hle =>
        dsimp only
        rw [if_pos (Nat.le_refl fd_limit)]
        refine iff_of_false (hhalf u fun i => rfl) (not_not_intro ⟨fd0, ⟨by omega, hfree.1⟩, ?_⟩)
        rintro fd ⟨hlt', hnone⟩
        by_contra hne
        exact hfull fd ⟨by rw [hslots', if_neg hne, hnone], .inr hlt'⟩
      | free hfree' hlowest' hslots'' hlt' hle' hmax' =>
        rename_i fd1 u'
        dsimp only
        split
        · next hge =>
          refine iff_of_false (hhalf u' hslots'') (not_not_intro ⟨fd0, ⟨by omega, hfree.1⟩, ?_⟩)
          rintro fd ⟨hlt', hnone⟩
          by_contra hne
          have hle := hlowest' fd ⟨by rw [hslots', if_neg hne, hnone], .inr hlt'⟩
          omega
        · next hlow' =>
          rw [put_eq hlt']
          refine iff_of_true trivial ?_
          rintro ⟨fd, _, hunique⟩
          have hfd1 := hfree'.1
          rw [hslots'] at hfd1
          have hne : fd1 ≠ fd0 := by
            rintro rfl
            rw [if_pos rfl] at hfd1
            cases hfd1
          rw [if_neg hne] at hfd1
          exact hne ((hunique fd1 ⟨by omega, hfd1⟩).trans
            (hunique fd0 ⟨by omega, hfree.1⟩).symm)

theorem intact_dup (t : FDTable F) (fd_limit old_fd : Nat) :
    Intact t (answer (t.sys_dup fd_limit old_fd)) := by
  unfold sys_dup
  split
  · exact fun i => rfl
  · split
    · exact fun i => rfl
    · exact intact_alloc_one t fd_limit _

theorem intact_openat (t : FDTable F) (fd_limit : Nat) (fd : Int)
    (open_at : Option F → Except Errno F) :
    Intact t (answer (t.sys_openat fd_limit fd open_at)) := by
  unfold sys_openat
  split
  · split
    · exact fun i => rfl
    · exact intact_alloc_one t fd_limit _
  · split
    · exact fun i => rfl
    · split
      · exact fun i => rfl
      · split
        · exact fun i => rfl
        · split
          · exact fun i => rfl
          · exact intact_alloc_one t fd_limit _

/-- Only the last descriptor of all, one more than which is none, is not reached by growing. -/
theorem intact_dup3_iff (t : FDTable F) (old_fd new_fd : Nat) :
    Intact t (answer (t.sys_dup3 old_fd new_fd)) ↔
      t.slot old_fd = none ∨ new_fd < t.length ∨ new_fd + 1 < 2 ^ 64 := by
  unfold sys_dup3
  split
  · next hnone => exact iff_of_true (fun i => rfl) (.inl hnone)
  · next file hfile =>
    rw [hfile]
    generalize hgrown : (if new_fd ≥ t.length then
      t ++ List.replicate ((new_fd + 1) % 2 ^ 64 - t.length) none else t) = u
    dsimp only
    by_cases hlt : new_fd < u.length
    · rw [put_eq hlt]
      refine iff_of_true trivial (.inr ?_)
      rw [← hgrown] at hlt
      split at hlt
      · rw [List.length_append, List.length_replicate] at hlt
        have hmod : (new_fd + 1) % 2 ^ 64 < 2 ^ 64 := Nat.mod_lt _ (by decide)
        omega
      · exact .inl (by omega)
    · simp only [put, if_neg hlt]
      refine iff_of_false (fun h => h rfl) ?_
      rw [← hgrown] at hlt
      rintro (h | h | h)
      · cases h
      · rw [if_neg (by omega)] at hlt
        exact hlt h
      · rw [Nat.mod_eq_of_lt h] at hlt
        split at hlt
        · rw [List.length_append, List.length_replicate] at hlt
          omega
        · omega

end FdCall

end MyGOS.Fs
