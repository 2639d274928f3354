import MyGOS.Fs.FdDiscipline
import MyGOS.Lib.StepSystem

/-!
# Close on exec

The mark is kept in the file, so that all descriptors of a file carry it. `exec`
looks for a marked slot and takes the reference that `find` answers with, not
the file that the slot holds.
-/

namespace MyGOS.Fs

open Outcome

/-- The files that can be open, with the fields that `set_cloexec` writes. -/
inductive OpenFile where
  | KFile (available : Bool)
  | Pipe (readable writable : Bool)
  | Stdin
  | Stdout
deriving DecidableEq, Repr

namespace OpenFile

def available : OpenFile → Bool
  | .KFile available => available
  | .Pipe .. | .Stdin | .Stdout => true

def set_cloexec : OpenFile → Except Panic OpenFile
  | .KFile _ => .ok (.KFile false)
  | .Pipe .. => .ok (.Pipe false false)
  -- "{} not implement set_cloexec"
  | .Stdin => .error .fileMethod
  | .Stdout => .ok .Stdout

end OpenFile

inductive FcntlFlags where
  | F_GETFD
  | F_SETFD
  | F_DUPFD_CLOEXEC
deriving DecidableEq, Repr

/-- An `Arc<dyn File>` is an address in `files`. -/
structure TaskFiles where
  files : Nat → OpenFile
  fd_table : FDTable Nat

namespace TaskFiles

variable (s : TaskFiles)

def available (file : Nat) : Bool := (s.files file).available

def set_cloexec (file : Nat) : Except Panic TaskFiles := do
  let marked ← (s.files file).set_cloexec
  return { s with files := Function.update s.files file marked }

/-- `&fd_table[fd as usize]`. -/
def file (fd : Int) : Except Panic (Option Nat) :=
  if FDTable.as_usize fd < s.fd_table.length then .ok (s.fd_table.slot (FDTable.as_usize fd))
  else .error .outOfBounds

/-- `sys_fcntl` on the mark. `stdin` is the address of a file that fills slots, and `fuel`
bounds the rounds of the loop that does; without a result it goes on. -/
def sys_fcntl (stdin fuel fd_limit : Nat) (fd : Int) (cmd : FcntlFlags) (arg : Nat) :
    Except Panic (Option (Except Errno Nat × TaskFiles)) :=
  match cmd with
  | .F_GETFD => do
    match ← s.file fd with
    | some file => return some (.ok (s.available file).toNat, s)
    | none => return some (.error .EBADF, s)
  | .F_SETFD => do
    match ← s.file fd with
    | some file =>
      if arg ≠ 0 then
        let s ← s.set_cloexec file
        return some (.ok 0, s)
      else return some (.ok 0, s)
    | none => return some (.error .EBADF, s)
  | .F_DUPFD_CLOEXEC => do
    match ← FDTable.sys_fcntl_dupfd stdin fuel s.fd_table fd_limit fd arg with
    | none => return none
    | some (.error e, fd_table) => return some (.error e, { s with fd_table := fd_table })
    | some (.ok new_fd, fd_table) =>
      match fd_table.slot new_fd with
      | none => .error .assertion
      | some file =>
        let s ← { s with fd_table := fd_table }.set_cloexec file
        return some (.ok new_fd, s)

/-- `Option::take`: what was there, and what is left. -/
def take {α : Type} (option : Option α) : Option α × Option α := (option, none)

/-- What `exec` does to the table. The option that it empties is the answer of `find`. -/
def exec : TaskFiles :=
  let found := s.fd_table.findIdx? fun fd => fd.any fun file => !s.available file
  let (_slot, _found) := take found
  s

/-- Of the open files, `exec` keeps those that are not marked and no others. -/
structure ClosesMarked (before after : TaskFiles) : Prop where
  closed : ∀ fd file, after.fd_table.slot fd = some file → after.available file = true
  kept : ∀ fd file, before.fd_table.slot fd = some file → before.available file = true →
    after.fd_table.slot fd = some file

/-- No open file is marked. -/
def Unmarked : Prop := ∀ fd file, s.fd_table.slot fd = some file → s.available file = true

variable {s} {s' : TaskFiles} {fd : Int} {n file : Nat}

/-- Nothing is closed. -/
theorem Unmarked.exec (h : s.Unmarked) : ClosesMarked s s.exec where
  closed := h
  kept _ _ hslot _ := hslot

theorem exec_closes_iff (s : TaskFiles) : ClosesMarked s s.exec ↔ s.Unmarked :=
  ⟨fun h => h.closed, Unmarked.exec⟩

theorem file_of_slot (h : s.fd_table.slot (FDTable.as_usize fd) = some file) :
    s.file fd = .ok (some file) := by
  rw [TaskFiles.file, if_pos (FDTable.lt_of_slot h), h]

/-- A kernel file is marked in every slot it is in, and no other file is. -/
theorem sys_fcntl_setfd {stdin fuel fd_limit arg : Nat} {available : Bool}
    (hslot : s.fd_table.slot (FDTable.as_usize fd) = some file)
    (hkfile : s.files file = .KFile available) (harg : arg ≠ 0) :
    ∃ s', s.sys_fcntl stdin fuel fd_limit fd .F_SETFD arg = .ok (some (.ok 0, s')) ∧
      s'.fd_table = s.fd_table ∧
      ∀ g, s'.available g = if g = file then false else s.available g := by
  refine ⟨{ s with files := Function.update s.files file (.KFile false) }, ?_, rfl, fun g => ?_⟩
  · simp [sys_fcntl, file_of_slot hslot, harg, set_cloexec, hkfile, OpenFile.set_cloexec,
      bind, Except.bind, pure, Except.pure]
  · rcases eq_or_ne g file with rfl | hne
    · simp [TaskFiles.available, OpenFile.available]
    · simp [TaskFiles.available, hne]

/-- After it `exec` does not do what it is for. -/
theorem exec_after_setfd {stdin fuel fd_limit arg : Nat} {available : Bool}
    (hslot : s.fd_table.slot (FDTable.as_usize fd) = some file)
    (hkfile : s.files file = .KFile available) (harg : arg ≠ 0) :
    ∃ s', s.sys_fcntl stdin fuel fd_limit fd .F_SETFD arg = .ok (some (.ok 0, s')) ∧
      ¬ ClosesMarked s' s'.exec := by
  obtain ⟨s', hok, htable, hmarked⟩ :=
    @sys_fcntl_setfd s fd file stdin fuel fd_limit arg _ hslot hkfile harg
  refine ⟨s', hok, fun h => ?_⟩
  have hopen := h.closed (FDTable.as_usize fd) file (htable ▸ hslot)
  rw [show s'.exec.available file = s'.available file from rfl] at hopen
  rw [hmarked, if_pos rfl] at hopen
  cases hopen

end TaskFiles

inductive MarkOp where
  | sys_fcntl (stdin fuel fd_limit : Nat) (fd : Int) (cmd : FcntlFlags) (arg : Nat)
  | sys_dup (fd_limit old_fd : Nat)
  | sys_close (fd : Nat)
  | exec

namespace TaskFiles

/-- A call that is still in its loop leaves the state as it was. -/
def step (s : TaskFiles) : MarkOp → Except Panic TaskFiles
  | .sys_fcntl stdin fuel fd_limit fd cmd arg => do
    let r ← s.sys_fcntl stdin fuel fd_limit fd cmd arg
    return (r.map Prod.snd).getD s
  | .sys_dup fd_limit old_fd => do
    let (_, fd_table) ← s.fd_table.sys_dup fd_limit old_fd
    return { s with fd_table := fd_table }
  | .sys_close fd => do
    let (_, fd_table) ← s.fd_table.sys_close fd
    return { s with fd_table := fd_table }
  | .exec => .ok s.exec

/-- No kernel file is marked. -/
def Spares (s : TaskFiles) : MarkOp → Prop
  | .sys_fcntl _ _ _ fd .F_SETFD arg =>
    arg = 0 ∨ ∀ file a, s.file fd = .ok (some file) → s.files file ≠ .KFile a
  | .sys_fcntl _ _ _ _ .F_DUPFD_CLOEXEC _ => False
  | _ => True

variable {s s' : TaskFiles} {fd : Int} {n file : Nat}

theorem Unmarked.set_cloexec (h : s.Unmarked) (hkfile : ∀ a, s.files file ≠ .KFile a)
    (hok : s.set_cloexec file = .ok s') : s'.Unmarked := by
  obtain ⟨marked, hmarked, hok⟩ := bind_eq_ok.mp hok
  cases hok
  intro n g hslot
  rcases eq_or_ne g file with rfl | hne
  · simp only [available, Function.update_self]
    cases hfile : s.files g with
    | KFile a => exact absurd hfile (hkfile a)
    | Pipe | Stdout =>
      rw [hfile] at hmarked
      cases hmarked
      rfl
    | Stdin =>
      rw [hfile] at hmarked
      cases hmarked
  · simpa [available, hne] using h n g hslot

/-- A table in which each file was open before. -/
theorem Unmarked.of_slots (h : s.Unmarked) {fd_table : FDTable Nat}
    (hslots : ∀ n file, fd_table.slot n = some file → ∃ m, s.fd_table.slot m = some file) :
    Unmarked { s with fd_table := fd_table } := by
  intro n file hslot
  obtain ⟨m, hm⟩ := hslots n file hslot
  exact h m file hm

theorem Unmarked.step {op : MarkOp} (h : s.Unmarked) (hspares : s.Spares op)
    (hok : s.step op = .ok s') : s'.Unmarked := by
  cases op with
  | sys_fcntl stdin fuel fd_limit fd cmd arg =>
    obtain ⟨r, hr, hok⟩ := bind_eq_ok.mp hok
    cases hok
    cases cmd with
    | F_GETFD =>
      obtain ⟨slot, -, hr⟩ := bind_eq_ok.mp hr
      cases slot with
      | none =>
        cases hr
        exact h
      | some file =>
        cases hr
        exact h
    | F_SETFD =>
      obtain ⟨slot, hslot, hr⟩ := bind_eq_ok.mp hr
      cases slot with
      | none =>
        cases hr
        exact h
      | some file =>
        rcases hspares with harg | hkfile
        · simp only [harg, ne_eq, not_true_eq_false, if_false] at hr
          cases hr
          exact h
        · dsimp only at hr
          split at hr
          · obtain ⟨s', hs', hr⟩ := bind_eq_ok.mp hr
            cases hr
            exact h.set_cloexec (fun a => hkfile file a hslot) hs'
          · cases hr
            exact h
    | F_DUPFD_CLOEXEC => exact hspares.elim
  | sys_dup fd_limit old_fd =>
    obtain ⟨⟨r, fd_table⟩, hdup, hok⟩ := bind_eq_ok.mp hok
    cases hok
    unfold FDTable.sys_dup at hdup
    split at hdup
    · cases hdup
      exact h
    · split at hdup
      · cases hdup
        exact h
      · rename_i file hfile
        obtain ⟨r', hr', hplaced⟩ := s.fd_table.alloc_one_placed fd_limit file
        cases hdup.symm.trans hr'
        apply h.of_slots
        intro n g hslot
        cases hplaced with
        | full hfull hslots => exact ⟨n, hslots ▸ hslot⟩
        | placed hlt hleast hslots =>
          rename_i new_fd
          rw [hslots] at hslot
          rcases eq_or_ne n new_fd with rfl | hne
          · rw [Function.update_self] at hslot
            exact ⟨old_fd, hfile.trans hslot⟩
          · exact ⟨n, by rwa [Function.update_of_ne hne] at hslot⟩
  | sys_close fd =>
    obtain ⟨⟨r, fd_table⟩, hclose, hok⟩ := bind_eq_ok.mp hok
    cases hok
    unfold FDTable.sys_close at hclose
    split at hclose
    · cases hclose
      exact h
    · rename_i hlt
      split at hclose
      · cases hclose
        exact h
      · rw [FDTable.put_eq (Nat.lt_of_not_le hlt)] at hclose
        cases hclose
        apply h.of_slots
        intro n g hslot
        rw [FDTable.slot_set (Nat.lt_of_not_le hlt)] at hslot
        split at hslot
        · cases hslot
        · exact ⟨n, hslot⟩
  | exec =>
    cases hok
    exact h

/-- In a run that marks no kernel file `exec` closes what it should, which is nothing. -/
theorem exec_closes_run {ops : List MarkOp} (h : s.Unmarked)
    (hspares : StepSystem.Guarded step Spares s ops) :
    ∀ s' ∈ StepSystem.states step s ops, ClosesMarked s' s'.exec := fun s' hs' =>
  (StepSystem.invariant Unmarked (fun _ _ _ hs hop hok => hs.step hop hok) h hspares s' hs').exec

/-- A file that is marked by its only descriptor stays open. -/
theorem exec_keeps_marked :
    ∃ s', TaskFiles.sys_fcntl ⟨fun _ => .KFile true, [none, some 7]⟩ 0 0 256 1 .F_SETFD 1 =
      .ok (some (.ok 0, s')) ∧ ¬ ClosesMarked s' s'.exec :=
  @exec_after_setfd ⟨fun _ => .KFile true, [none, some 7]⟩ 1 7 0 0 256 1 true rfl rfl (by decide)

end TaskFiles

end MyGOS.Fs
