import MyGOS.Fs.FdSet
import MyGOS.Fs.FdTable
import MyGOS.Time.TimeVal

/-!
# Waiting for descriptors

`sys_pselect6` goes over the descriptors of its sets until all are ready or the
time is up. Between two rounds other tasks run, so each round has a descriptor
table and a time of its own.
-/

namespace MyGOS.Fs

open StepSystem Time

/-- What `r_ready` and `w_ready` say of a file in one round. -/
structure Readiness where
  r_ready : Bool
  w_ready : Bool
deriving DecidableEq, Repr

structure Round where
  fd_table : FDTable Readiness
  /-- `get_timeval()` -/
  now : TimeVal

/-- The ways out of the loop. -/
inductive Exit (σ : Type) where
  /-- an index outside of the table -/
  | outOfBounds
  | errno (e : Errno)
  | ret (n : Nat) (s : σ)

/-- Whether the file of a descriptor is ready. -/
def is_ready (ready : Readiness → Bool) (fd_table : FDTable Readiness) (fd : Nat) : Bool :=
  (fd_table.slot fd).any ready

/-- What the loop over `fd_vec` leaves. -/
structure Scan where
  fd_set : FdSet
  fd_vec : List Nat
  ready_count : Nat
  has_nready : Bool

/-- The loop over `fd_vec`; descriptors that are ready are replaced by 1024. -/
def scan {σ : Type} (ready : Readiness → Bool) (nfds : Nat) (fd_table : FDTable Readiness) :
    (fd_vec : List Nat) → FdSet → (ready_count : Nat) → Except (Exit σ) Scan
  | [], fd_set, ready_count => .ok ⟨fd_set, [], ready_count, false⟩
  | fd :: fds, fd_set, ready_count =>
    if fd ≥ nfds ∨ fd = 1024 then do
      let c ← scan ready nfds fd_table fds fd_set ready_count
      return { c with fd_vec := fd :: c.fd_vec }
    else if fd > fd_table.length then .error (.errno .EBADF)
    else
      match fd_table[fd]? with
      | none => .error .outOfBounds
      | some none => .error (.errno .EBADF)
      | some (some fdescript) =>
        if ready fdescript then do
          let c ← scan ready nfds fd_table fds (fd_set.set_fd fd) (ready_count + 1)
          return { c with fd_vec := 1024 :: c.fd_vec }
        else do
          let c ← scan ready nfds fd_table fds (fd_set.clear_fd fd) ready_count
          return { c with fd_vec := fd :: c.fd_vec, has_nready := true }

/-- `rfd_set`, `rfd_vec`, `r_ready_count`, `r_all_ready` and the memory at `readfds`, or the ones
for writing. A null pointer is `none`. -/
structure Watched where
  ubuf_fds : Option FdSet
  fd_set : FdSet
  fd_vec : List Nat
  ready_count : Nat
  all_ready : Bool

namespace Watched

def new (fds : Option FdSet) : Watched :=
  let fd_set := fds.getD .new
  ⟨fds, fd_set, fd_set.get_fd_vec, 0, false⟩

/-- `ubuf_fds.write(fd_set.as_bytes())` -/
def write_back (w : Watched) : Watched := { w with ubuf_fds := w.ubuf_fds.map fun _ => w.fd_set }

variable {σ : Type} (ready : Readiness → Bool) (nfds : Nat) (fd_table : FDTable Readiness)

/-- The block of a round for one set, and whether a descriptor was not ready. -/
def handle (w : Watched) : Except (Exit σ) (Watched × Bool) :=
  if w.ubuf_fds.isNone ∨ w.all_ready = true then .ok (w, false)
  else do
    let c ← scan ready nfds fd_table w.fd_vec w.fd_set w.ready_count
    let w : Watched := ⟨w.ubuf_fds, c.fd_set, c.fd_vec, c.ready_count, w.all_ready⟩
    if c.has_nready then return (w, true)
    else return ({ w with all_ready := true }.write_back, false)

/-- The block for `wfd_set` lists the set again when the list is empty. -/
def refill (w : Watched) : Watched :=
  if w.ubuf_fds.isNone ∨ w.all_ready = true then w
  else if w.fd_vec.length = 0 then { w with fd_vec := w.fd_set.get_fd_vec }
  else w

end Watched

structure Pselect where
  r : Watched
  w : Watched
  ubuf_efds : Option FdSet

namespace Pselect

/-- One round of the loop. It suspends, or it is left. -/
def round (nfds : Nat) (timer : TimeVal) (s : Pselect) (env : Round) :
    Except (Exit Pselect) Pselect := do
  let (r, r_has_nready) ← s.r.handle Readiness.r_ready nfds env.fd_table
  let (w, w_has_nready) ← s.w.refill.handle Readiness.w_ready nfds env.fd_table
  let e_ready_count := (s.ubuf_efds.map FdSet.count).getD 0
  let s : Pselect := ⟨r, w, s.ubuf_efds.map FdSet.clear_all⟩
  let count := r.ready_count + w.ready_count + e_ready_count
  if r_has_nready || w_has_nready then
    let time_remain := env.now - timer
    if time_remain = .zero then return s
    else .error (.ret count { s with r := r.write_back, w := w.write_back })
  else .error (.ret count s)

def new (readfds writefds exceptfds : Option FdSet) : Pselect :=
  ⟨.new readfds, .new writefds, exceptfds⟩

end Pselect

/-- The call starts at `now`; it is still waiting when the rounds are over. -/
def sys_pselect6 (nfds : Nat) (readfds writefds exceptfds : Option FdSet) (timeout now : TimeVal)
    (rounds : List Round) : Except (Exit Pselect) Pselect :=
  run (Pselect.round nfds (timeout + now)) (.new readfds writefds exceptfds) rounds

/-- The members of a set, or none at a null pointer. -/
def members (fds : Option FdSet) : Finset Nat := (fds.map FdSet.members).getD ∅

def Open (fd_table : FDTable Readiness) (fd : Nat) : Prop := (fd_table.slot fd).isSome

instance (fd_table : FDTable Readiness) (fd : Nat) : Decidable (Open fd_table fd) :=
  inferInstanceAs (Decidable (_ = _))

/-- A returned set has descriptors that were asked for and became ready. -/
def Reports (nfds : Nat) (ready : Readiness → Bool) (rounds : List Round)
    (requested returned : Option FdSet) : Prop :=
  ∀ d ∈ members returned, d ∈ members requested ∧ d < nfds ∧
    ∃ env ∈ rounds, is_ready ready env.fd_table d = true

/-- What a call should do. No file has an exceptional condition. -/
structure Selects (nfds : Nat) (readfds writefds exceptfds : Option FdSet) (rounds : List Round)
    (x : Except (Exit Pselect) Pselect) : Prop where
  in_bounds : x ≠ .error .outOfBounds
  closed : ∀ env ∈ rounds.head?, ∀ d < nfds,
    d ∈ members readfds ∪ members writefds ∪ members exceptfds → ¬ Open env.fd_table d →
      x = .error (.errno .EBADF)
  reports : ∀ n t, x = .error (.ret n t) →
    Reports nfds Readiness.r_ready rounds readfds t.r.ubuf_fds ∧
      Reports nfds Readiness.w_ready rounds writefds t.w.ubuf_fds ∧ members t.ubuf_efds = ∅
  counts : ∀ n t, x = .error (.ret n t) → n = (members t.r.ubuf_fds).card +
    (members t.w.ubuf_fds).card + (members t.ubuf_efds).card

section Scan

variable {σ : Type} {ready : Readiness → Bool} {nfds : Nat} {fd_table : FDTable Readiness}
  {fds : List Nat} {fd_set : FdSet} {n fd : Nat}

/-- The descriptors that the loop looks at. -/
def pending (nfds : Nat) (fd_vec : List Nat) : List Nat :=
  fd_vec.filter fun fd => fd < nfds ∧ fd ≠ 1024

/-- The first one that is not open. -/
def first_closed (fd_table : FDTable Readiness) (fds : List Nat) : Option Nat :=
  fds.find? fun fd => ¬ Open fd_table fd

theorem pending_of_skip (h : fd ≥ nfds ∨ fd = 1024) :
    pending nfds (fd :: fds) = pending nfds fds := by
  apply List.filter_cons_of_neg
  rw [decide_eq_true_eq]
  omega

theorem pending_of_look (h : ¬ (fd ≥ nfds ∨ fd = 1024)) :
    pending nfds (fd :: fds) = fd :: pending nfds fds := by
  apply List.filter_cons_of_pos
  rw [decide_eq_true_eq]
  omega

/-- The descriptor behind the last one is not caught. -/
theorem scan_closed (h : first_closed fd_table (pending nfds fds) = some fd) :
    (scan ready nfds fd_table fds fd_set n : Except (Exit σ) Scan) =
      .error (if fd = fd_table.length then .outOfBounds else .errno .EBADF) := by
  induction fds generalizing fd_set n with
  | nil => cases h
  | cons a fds ih =>
    rw [scan]
    split
    · next hskip =>
      rw [pending_of_skip hskip] at h
      rw [ih h]
      rfl
    · next hlook =>
      rw [pending_of_look hlook, first_closed, List.find?_cons] at h
      split
      · next hgt =>
        have hclosed : ¬ Open fd_table a := by simp [Open, FDTable.slot, hgt.le]
        simp only [hclosed, not_false_eq_true, decide_true, Option.some.injEq] at h
        rw [if_neg (by omega)]
      · next hle =>
        split
        · next hnone =>
          have hclosed : ¬ Open fd_table a := by simp [Open, FDTable.slot, hnone]
          simp only [hclosed, not_false_eq_true, decide_true, Option.some.injEq] at h
          rw [if_pos]
          have hge := List.getElem?_eq_none_iff.mp hnone
          omega
        · next hnone =>
          have hclosed : ¬ Open fd_table a := by simp [Open, FDTable.slot, hnone]
          simp only [hclosed, not_false_eq_true, decide_true, Option.some.injEq] at h
          obtain ⟨hlt, -⟩ := List.getElem?_eq_some_iff.mp hnone
          rw [if_neg (by omega)]
        · next fdescript hsome =>
          have hopen : Open fd_table a := by simp [Open, FDTable.slot, hsome]
          simp only [hopen, not_true_eq_false, decide_false] at h
          split <;> rw [ih h] <;> rfl

/-- What the loop does with one descriptor. -/
def touch (ready : Readiness → Bool) (fd_table : FDTable Readiness) (fd_set : FdSet) (fd : Nat) :
    FdSet :=
  if is_ready ready fd_table fd then fd_set.set_fd fd else fd_set.clear_fd fd

def mark (ready : Readiness → Bool) (nfds : Nat) (fd_table : FDTable Readiness) (fd : Nat) : Nat :=
  if fd < nfds ∧ is_ready ready fd_table fd then 1024 else fd

theorem scan_open (h : first_closed fd_table (pending nfds fds) = none) :
    (scan ready nfds fd_table fds fd_set n : Except (Exit σ) Scan) =
      .ok ⟨(pending nfds fds).foldl (touch ready fd_table) fd_set,
        fds.map (mark ready nfds fd_table),
        n + (pending nfds fds).countP (is_ready ready fd_table),
        (pending nfds fds).any fun fd => !is_ready ready fd_table fd⟩ := by
  induction fds generalizing fd_set n with
  | nil => rfl
  | cons a fds ih =>
    rw [scan]
    split
    · next hskip =>
      have hmark : mark ready nfds fd_table a = a := by
        rw [mark]
        split <;> omega
      rw [pending_of_skip hskip] at h ⊢
      rw [ih h, List.map_cons, hmark]
      rfl
    · next hlook =>
      rw [pending_of_look hlook, first_closed, List.find?_cons] at h
      split at h
      · cases h
      · next hopen =>
        have hopen : Open fd_table a := by simpa using hopen
        obtain ⟨f, hf⟩ : ∃ f, fd_table[a]? = some (some f) := by
          rw [Open, FDTable.slot, Option.isSome_iff_exists] at hopen
          simpa only [Option.join_eq_some_iff] using hopen
        have hready : is_ready ready fd_table a = ready f := by
          simp [is_ready, FDTable.slot, hf]
        obtain ⟨hlt, -⟩ := List.getElem?_eq_some_iff.mp hf
        rw [if_neg (by omega), hf, pending_of_look hlook, List.foldl_cons, List.map_cons,
          List.countP_cons, List.any_cons]
        simp only [touch, mark, hready]
        cases ready f with
        | true =>
          simp only [if_true]
          rw [ih h, Outcome.ok_bind, Bool.not_true, Bool.false_or, if_pos ⟨by omega, trivial⟩,
            Nat.add_assoc, Nat.add_comm 1]
          rfl
        | false =>
          simp only [Bool.false_eq_true, if_false]
          rw [ih h, Outcome.ok_bind, Bool.not_false, Bool.true_or, if_neg And.right]
          rfl

end Scan

end MyGOS.Fs
