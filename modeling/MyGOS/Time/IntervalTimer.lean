import MyGOS.Basic
import MyGOS.Time.Clocks
import Mathlib.Data.List.Basic

/-!
# Interval timers

A timer keeps the time at which it was set. An expiry puts the interval in the
place of the first value and leaves that time as it is, so that every check
after the first expiry compares the time since `setitimer` with the interval.
-/

namespace MyGOS.Time

structure itimerval where
  it_interval : TimeVal
  it_value : TimeVal
deriving DecidableEq, Repr

structure IntervalTimer where
  creation_time : TimeVal
  timer_value : itimerval
deriving DecidableEq, Repr

inductive IntervalTimerType where
  | Real
  | Virtual
  | Profile
deriving DecidableEq, Repr

def IntervalTimerType.try_from : Int → Option IntervalTimerType
  | 0 => some .Real
  | 1 => some .Virtual
  | 2 => some .Profile
  | _ => none

/-- "ITIMER_VIRTUAL", "ITIMER_PROF" -/
structure Unimplemented where
  itimer_type : IntervalTimerType
deriving DecidableEq, Repr

/-- What `sys_setitimer` returns and writes to `old_value`, and the timer of the task. -/
structure SetResult where
  ret : Except Errno Nat
  old_value : Option itimerval
  interval_timer : Option IntervalTimer

/-- `sys_setitimer`; `new_value` is what the pointer points to, if it is not null, and
`wants_old` whether the other pointer is not null. -/
def sys_setitimer (which : Int) (new_value : Option itimerval) (wants_old : Bool) (now : TimeVal)
    (interval_timer : Option IntervalTimer) : Except Unimplemented SetResult :=
  match new_value with
  | none => .ok ⟨.error .EFAULT, none, interval_timer⟩
  | some nv =>
    match IntervalTimerType.try_from which with
    | none => .ok ⟨.error .EINVAL, none, interval_timer⟩
    | some .Real =>
      let old_value := if wants_old then interval_timer.map (·.timer_value) else none
      if nv.it_interval = .zero ∧ nv.it_value = .zero then .ok ⟨.ok 0, old_value, none⟩
      else .ok ⟨.ok 0, old_value, some ⟨now, nv⟩⟩
    | some itimer_type => .error ⟨itimer_type⟩

/-- `check_interval_timer`: the timer of the task, and whether `SIGALRM` is set. -/
def check_interval_timer (now : TimeVal) :
    Option IntervalTimer → Option IntervalTimer × Bool
  | none => (none, false)
  | some itimer =>
    let duration := now - itimer.creation_time
    let itime_value := itimer.timer_value
    if itime_value.it_value < duration then
      if itime_value.it_interval = .zero then (none, true)
      else
        let timer_value := { itime_value with it_value := itime_value.it_interval }
        (some { itimer with timer_value := timer_value }, true)
    else (some itimer, false)

/-- The checks of a run at which the signal is raised. -/
def alarms : Option IntervalTimer → List TimeVal → List TimeVal
  | _, [] => []
  | timer, now :: rest =>
    let (timer, raised) := check_interval_timer now timer
    if raised then now :: alarms timer rest else alarms timer rest

/-- The alarm numbered `k` from zero comes `k` intervals after the first value or later. -/
structure NoneEarly (set : TimeVal) (value : itimerval) (alarms : List TimeVal) : Prop where
  late : ∀ k now, alarms[k]? = some now →
    set.micros + value.it_value.micros + k * value.it_interval.micros ≤ now.micros
  once : value.it_interval = .zero → alarms.length ≤ 1

/-- The first check after the value finds it expired in microseconds too, which only counts
where `it_value` has more than a second of them. Of the checks that follow it, those made more
than an interval after the timer was set are on schedule: the `m`-th is made no earlier than `m`
intervals after the value. -/
def OnSchedule (set : TimeVal) (value : itimerval) (checks : List TimeVal) : Prop :=
  match checks.dropWhile fun now => ¬ value.it_value < now - set with
  | [] => True
  | first :: rest =>
    (value.it_value.Normal ∨ set.micros + value.it_value.micros ≤ first.micros) ∧
      (value.it_interval = .zero ∨
        ∀ m now, (rest.filter fun now => value.it_interval < now - set)[m]? = some now →
          set.micros + value.it_value.micros + (m + 1) * value.it_interval.micros ≤ now.micros)

variable {set : TimeVal} {value : itimerval}

@[simp] theorem alarms_none (checks : List TimeVal) : alarms none checks = [] := by
  induction checks with
  | nil => rfl
  | cons now rest ih => simpa [alarms, check_interval_timer] using ih

/-- Once the interval has taken the place of the value, it is never changed again. -/
theorem alarms_rearmed {i : TimeVal} (hi : i ≠ .zero) (checks : List TimeVal) :
    alarms (some ⟨set, ⟨i, i⟩⟩) checks = checks.filter fun now => i < now - set := by
  induction checks with
  | nil => rfl
  | cons now rest ih =>
    rcases Decidable.em (i < now - set) with hlt | hge
    · simp [alarms, check_interval_timer, hlt, hi, ih]
    · simp [alarms, check_interval_timer, hge, ih]

theorem alarms_set (checks : List TimeVal) :
    alarms (some ⟨set, value⟩) checks =
      match checks.dropWhile fun now => ¬ value.it_value < now - set with
      | [] => []
      | first :: rest => first :: if value.it_interval = .zero then []
          else rest.filter fun now => value.it_interval < now - set := by
  induction checks with
  | nil => rfl
  | cons now rest ih =>
    rcases Decidable.em (value.it_value < now - set) with hlt | hge
    · rcases eq_or_ne value.it_interval .zero with hi | hi
      · simp [alarms, check_interval_timer, hlt, hi]
      · simp [alarms, check_interval_timer, hlt, hi, alarms_rearmed hi]
    · simpa [alarms, check_interval_timer, hge] using ih

theorem lt_of_expired {now : TimeVal} (hset : set.Normal) (hnow : now.Normal)
    (hv : value.it_value.Normal) (h : value.it_value < now - set) :
    set.micros + value.it_value.micros ≤ now.micros := by
  have hlt := (hv.lt_iff (hnow.sub hset)).mp h
  rw [hnow.micros_sub hset] at hlt
  omega

theorem noneEarly_nil : NoneEarly set value [] where
  late := by simp
  once := by simp

theorem noneEarly_cons {first : TimeVal} {rest : List TimeVal}
    (honce : value.it_interval = .zero → rest = []) : NoneEarly set value (first :: rest) ↔
      set.micros + value.it_value.micros ≤ first.micros ∧ ∀ m now, rest[m]? = some now →
        set.micros + value.it_value.micros + (m + 1) * value.it_interval.micros ≤ now.micros := by
  constructor
  · rintro ⟨hlate, -⟩
    exact ⟨by simpa using hlate 0 first rfl, fun m now hm => hlate (m + 1) now hm⟩
  · rintro ⟨hfirst, hrest⟩
    constructor
    · intro k now hk
      cases k with
      | zero =>
        cases hk
        simpa using hfirst
      | succ m => exact hrest m now hk
    · intro hi
      simp [honce hi]

/-- The alarms of a timer set at `set`, over any checks. -/
theorem noneEarly_iff (hset : set.Normal) {checks : List TimeVal}
    (hchecks : ∀ now ∈ checks, now.Normal) :
    NoneEarly set value (alarms (some ⟨set, value⟩) checks) ↔ OnSchedule set value checks := by
  rw [alarms_set, OnSchedule]
  cases hdue : checks.dropWhile fun now => ¬ value.it_value < now - set with
  | nil => simp [noneEarly_nil]
  | cons first rest =>
    have hfirst : first.Normal :=
      hchecks first (List.dropWhile_sublist _ |>.subset (hdue ▸ List.mem_cons_self))
    have hexpired : value.it_value < first - set := by
      have hhead := List.head?_dropWhile_not (fun now => ¬ value.it_value < now - set) checks
      rw [hdue] at hhead
      simpa using hhead
    dsimp only
    rw [noneEarly_cons (by simp +contextual)]
    have hhead : value.it_value.Normal ∨ set.micros + value.it_value.micros ≤ first.micros ↔
        set.micros + value.it_value.micros ≤ first.micros :=
      or_iff_right_of_imp fun hv => lt_of_expired hset hfirst hv hexpired
    rw [hhead]
    rcases eq_or_ne value.it_interval .zero with hi | hi
    · simp [hi]
    · simp [hi]

/-- The timer that a call of `setitimer` with a value leaves raises no early alarm exactly
when the checks are on schedule. -/
theorem no_early_alarm_iff {b : Board} {set : Nat} {value : itimerval} {which : Int}
    {wants_old : Bool} {timer : Option IntervalTimer} {r : SetResult}
    (hv : value.it_value ≠ .zero)
    (hset : sys_setitimer which (some value) wants_old (get_timeval b set) timer = .ok r)
    (hret : r.ret = .ok 0) (checks : List Nat) :
    NoneEarly (get_timeval b set) value (alarms r.interval_timer (checks.map (get_timeval b))) ↔
      OnSchedule (get_timeval b set) value (checks.map (get_timeval b)) := by
  have htimer : r.interval_timer = some ⟨get_timeval b set, value⟩ := by
    unfold sys_setitimer at hset
    dsimp only at hset
    split at hset
    · cases hset
      cases hret
    · rw [if_neg fun h => hv h.2] at hset
      cases hset
      rfl
    · cases hset
  rw [htimer]
  exact noneEarly_iff (get_timeval_normal b set) (by simp)

/-- Ten seconds, and five from then on. -/
def ten_then_five : itimerval := ⟨⟨5, 0⟩, ⟨10, 0⟩⟩

theorem no_early_alarm_iff_once :
    ∃ r, sys_setitimer 0 (some ⟨.zero, ⟨10, 0⟩⟩) false (get_timeval .qemu 0) none = .ok r ∧
      NoneEarly (get_timeval .qemu 0) ⟨.zero, ⟨10, 0⟩⟩
        (alarms r.interval_timer ([100000000, 137500000].map (get_timeval .qemu))) := by
  have hset : sys_setitimer 0 (some ⟨.zero, ⟨10, 0⟩⟩) false (get_timeval .qemu 0) none =
      .ok ⟨.ok 0, none, some ⟨get_timeval .qemu 0, ⟨.zero, ⟨10, 0⟩⟩⟩⟩ := rfl
  refine ⟨_, hset, (no_early_alarm_iff (by decide) hset rfl _).mpr ?_⟩
  exact ⟨Or.inl (by decide), Or.inl rfl⟩

/-- Two checks eleven seconds after the call raise two alarms, the second four seconds early. -/
theorem alarm_early : [137500000, 137500000].Pairwise (· ≤ ·) ∧
    ∃ r, sys_setitimer 0 (some ten_then_five) false (get_timeval .qemu 0) none = .ok r ∧
      ¬ NoneEarly (get_timeval .qemu 0) ten_then_five
        (alarms r.interval_timer ([137500000, 137500000].map (get_timeval .qemu))) := by
  refine ⟨by decide, _, rfl, fun h => ?_⟩
  exact absurd (h.late 1 ⟨11, 0⟩ rfl) (by decide)

end MyGOS.Time
