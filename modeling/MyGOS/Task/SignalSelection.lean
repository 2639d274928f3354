import MyGOS.Task.SignalMasks

/-!
# Which signal is taken

The loop of `exec_signal_handlers` takes the unmasked pending signals one after
another, the smallest first, and goes on only over those that are ignored. Each
round leaves the signals above the one it took, so the rounds end.
-/

namespace MyGOS.Task

open Mm Outcome

namespace SigSet

variable {s : SigSet} {signum i : Nat}

theorem getLsbD_sub (hpos : 0 < signum) (hlt : signum < 64) :
    (s.sub signum).getLsbD i = (s.getLsbD i && decide (i + 1 ≠ signum)) := by
  rcases Nat.lt_or_ge i 64 with hi | hi
  · rw [sub, difference, of_signum_eq hpos hlt, BitVec.getLsbD_and, BitVec.getLsbD_not,
      BitVec.getLsbD_twoPow]
    rcases eq_or_ne (i + 1) signum with rfl | hne
    · simp
    · have hne' : signum - 1 ≠ i := by omega
      simp [hi, hne, hne']
  · rw [BitVec.getLsbD_of_ge _ i hi, BitVec.getLsbD_of_ge _ i hi, Bool.false_and]

theorem fetch_eq_none (h : s.fetch = none) (hpos : 0 < signum) (hlt : signum < 64) :
    s.getLsbD (signum - 1) = false := by
  have hall := List.find?_eq_none.mp h signum (List.mem_range'_1.mpr ⟨hpos, by omega⟩)
  rw [contains_of_signum hpos hlt] at hall
  exact Bool.eq_false_iff.mpr hall

/-- The signal that is fetched is in the set, and no smaller one is. -/
theorem fetch_eq_some (h : s.fetch = some signum) : s.getLsbD (signum - 1) = true ∧
    ∀ m, 0 < m → m < signum → s.getLsbD (m - 1) = false := by
  obtain ⟨hpos, hlt⟩ := fetch_range h
  obtain ⟨hcontains, front, back, hsplit, hnot⟩ := List.find?_eq_some_iff_append.mp h
  rw [contains_of_signum hpos hlt] at hcontains
  refine ⟨hcontains, fun m hm hless => ?_⟩
  have hmem : m ∈ front ++ signum :: back := by
    rw [← hsplit]
    exact List.mem_range'_1.mpr ⟨hm, by omega⟩
  have hsorted : (front ++ signum :: back).Pairwise (· < ·) := by
    rw [← hsplit]
    exact List.pairwise_lt_range'
  rcases List.mem_append.mp hmem with hfront | hback
  · have hm' := hnot m hfront
    rw [contains_of_signum hm (hless.trans hlt)] at hm'
    exact Bool.not_eq_true' _ |>.mp hm'
  · have hafter := (List.pairwise_cons.mp (List.pairwise_append.mp hsorted).2.1).1
    rcases List.mem_cons.mp hback with rfl | hback
    · exact absurd hless (lt_irrefl _)
    · exact absurd (hafter m hback) (by omega)

end SigSet

namespace Signals

/-- The signal is pending and not masked. -/
def Unmasked (s : Signals) (n : Nat) : Prop :=
  1 ≤ n ∧ n ≤ 63 ∧ s.pending_signals.getLsbD (n - 1) = true ∧ s.sigmask.getLsbD (n - 1) = false

/-- The unmasked pending signals up to `top` are removed, and nothing else happens. -/
structure Takes (s : Signals) (top : Nat) (s' : Signals) : Prop where
  trap_cx : s'.trap_cx = s.trap_cx
  sigmask : s'.sigmask = s.sigmask
  pending : ∀ i, s'.pending_signals.getLsbD i = true ↔
    s.pending_signals.getLsbD i = true ∧ ¬ (s.Unmasked (i + 1) ∧ i + 1 ≤ top)

end Signals

namespace SigActions

def action (sigactions : SigActions) (n : Nat) : SigActionRecord := sigactions (Fin.ofNat 64 n)

def Ignores (sigactions : SigActions) (n : Nat) : Prop :=
  (sigactions.action n).sa_handler.toNat = SIG_IGN

end SigActions

namespace Signals

variable {s s' s'' : Signals} {sigactions : SigActions} {signum top : Nat} {mem : UserMemory}

/-- The signal is the smallest unmasked pending one that is not ignored. -/
structure Selects (sigactions : SigActions) (s : Signals) (n : Nat) : Prop where
  unmasked : s.Unmasked n
  heeded : ¬ sigactions.Ignores n
  smallest : ∀ m, m < n → s.Unmasked m → sigactions.Ignores m

/-- What the loop over the pending signals ends with. -/
def Picks (sigactions : SigActions) (s : Signals) : Taken → Signals → Prop
  | .nothing, s' => s.Takes 63 s' ∧ ∀ n, s.Unmasked n → sigactions.Ignores n
  | .default n, s' => s.Takes n s' ∧ Selects sigactions s n ∧
      (sigactions.action n).sa_handler.toNat = SIG_DFL
  | .handler n sa, s' => s.Takes n s' ∧ Selects sigactions s n ∧
      (sigactions.action n).sa_handler.toNat ≠ SIG_DFL ∧ sa = sigactions.action n

theorem unmasked_iff (hpos : 1 ≤ signum) (hle : signum ≤ 63) :
    s.Unmasked signum ↔ (s.pending_signals.difference s.sigmask).getLsbD (signum - 1) = true := by
  have hlt : signum - 1 < 64 := by omega
  rw [SigSet.difference, BitVec.getLsbD_and, BitVec.getLsbD_not]
  simp [Unmasked, hpos, hle, hlt]

/-- Where no unmasked signal is pending, nothing is taken. -/
theorem Takes.of_none (h : ∀ n, n ≤ top → ¬ s.Unmasked n) : s.Takes top s where
  trap_cx := rfl
  sigmask := rfl
  pending i := by
    have hnone : ¬ (s.Unmasked (i + 1) ∧ i + 1 ≤ top) := fun hi => h _ hi.2 hi.1
    rw [and_iff_left hnone]

/-- The state after the signal is taken out. -/
def without (s : Signals) (signum : Nat) : Signals :=
  { s with pending_signals := s.pending_signals.sub signum }

theorem unmasked_without (h : s.Unmasked signum) (n : Nat) :
    (s.without signum).Unmasked n ↔ s.Unmasked n ∧ n ≠ signum := by
  have hbit := SigSet.getLsbD_sub (s := s.pending_signals) (i := n - 1) h.1
    (Nat.lt_succ_of_le h.2.1)
  unfold Unmasked without
  rw [hbit]
  rcases Nat.eq_zero_or_pos n with rfl | hpos
  · simp
  · have hindex : n - 1 + 1 = n := by omega
    rw [hindex]
    simp only [Bool.and_eq_true, decide_eq_true_iff]
    tauto

theorem takes_without (h : s.Unmasked signum) (ht : (s.without signum).Takes top s')
     (hle : signum ≤ top) : s.Takes top s' where
  trap_cx := ht.trap_cx
  sigmask := ht.sigmask
  pending i := by
    have hbit := SigSet.getLsbD_sub (s := s.pending_signals) (i := i) h.1
      (Nat.lt_succ_of_le h.2.1)
    rw [ht.pending i, unmasked_without h]
    change (s.pending_signals.sub signum).getLsbD i = true ∧ _ ↔ _
    rw [hbit, Bool.and_eq_true, decide_eq_true_iff]
    rcases eq_or_ne (i + 1) signum with heq | hne
    · simp [heq, h, hle]
    · simp [hne]

theorem Selects.of_without (h : s.Unmasked signum) (hign : sigactions.Ignores signum)
    (hs : Selects sigactions (s.without signum) top) : Selects sigactions s top where
  unmasked := ((unmasked_without h _).mp hs.unmasked).1
  heeded := hs.heeded
  smallest m hm hunmasked := by
    rcases eq_or_ne m signum with rfl | hne
    · exact hign
    · exact hs.smallest m hm ((unmasked_without h m).mpr ⟨hunmasked, hne⟩)

/-- An ignored signal is taken on the way. -/
theorem Picks.of_without {taken : Taken} (h : s.Unmasked signum)
    (hfirst : ∀ m, m < signum → ¬ s.Unmasked m) (hign : sigactions.Ignores signum)
    (hp : Picks sigactions (s.without signum) taken s') : Picks sigactions s taken s' := by
  have hle (n : Nat) (hn : (s.without signum).Unmasked n) : signum ≤ n := by
    by_contra hlt
    exact hfirst n (not_le.mp hlt) ((unmasked_without h n).mp hn).1
  cases taken with
  | nothing =>
    refine ⟨takes_without h hp.1 h.2.1, fun n hn => ?_⟩
    rcases eq_or_ne n signum with rfl | hne
    · exact hign
    · exact hp.2 n ((unmasked_without h n).mpr ⟨hn, hne⟩)
  | default n =>
    obtain ⟨ht, hs, hdfl⟩ := hp
    exact ⟨takes_without h ht (hle n hs.unmasked), hs.of_without h hign, hdfl⟩
  | handler n sa =>
    obtain ⟨ht, hs, hdfl, hsa⟩ := hp
    exact ⟨takes_without h ht (hle n hs.unmasked), hs.of_without h hign, hdfl, hsa⟩

/-- The signals still to come are above `lo`, so `64 - lo` rounds are enough. -/
theorem take_loop_picks (fuel : Nat) : ∀ (s : Signals) (lo : Nat), (∀ n, s.Unmasked n → lo < n) →
    64 ≤ lo + fuel → lo < 64 →
      ∃ taken s', s.take_loop sigactions fuel = .ok (taken, s') ∧ Picks sigactions s taken s' := by
  induction fuel with
  | zero =>
    intro s lo _ hfuel hlo
    omega
  | succ fuel ih =>
    intro s lo habove hfuel hlo
    unfold take_loop
    cases hfetch : (s.pending_signals.difference s.sigmask).fetch with
    | none =>
      have hnone (n : Nat) : ¬ s.Unmasked n := by
        intro hn
        have hbit := (unmasked_iff hn.1 hn.2.1).mp hn
        rw [SigSet.fetch_eq_none hfetch hn.1 (Nat.lt_succ_of_le hn.2.1)] at hbit
        cases hbit
      exact ⟨.nothing, s, rfl, .of_none fun n _ => hnone n, fun n hn => absurd hn (hnone n)⟩
    | some signum =>
      obtain ⟨hpos, hlt⟩ := SigSet.fetch_range hfetch
      obtain ⟨hbit, hless⟩ := SigSet.fetch_eq_some hfetch
      have hunmasked : s.Unmasked signum := (unmasked_iff hpos (by omega)).mpr hbit
      have hfirst (m : Nat) (hm : m < signum) : ¬ s.Unmasked m := by
        intro hn
        have hset := (unmasked_iff hn.1 hn.2.1).mp hn
        rw [hless m hn.1 hm] at hset
        cases hset
      have htakes : s.Takes signum (s.without signum) := by
        refine takes_without hunmasked (.of_none fun n hn hcontra => ?_) (le_refl _)
        obtain ⟨hn', hne⟩ := (unmasked_without hunmasked n).mp hcontra
        exact hfirst n (lt_of_le_of_ne hn hne) hn'
      have hindex : (⟨signum, hlt⟩ : Fin 64) = Fin.ofNat 64 signum :=
        Fin.ext (Nat.mod_eq_of_lt hlt).symm
      dsimp only
      rw [dif_pos hlt, hindex]
      change ∃ taken s', (if (sigactions.action signum).sa_handler.toNat = SIG_IGN then
        (s.without signum).take_loop sigactions fuel
        else if (sigactions.action signum).sa_handler.toNat = SIG_DFL then
          .ok (.default signum, s.without signum)
        else .ok (.handler signum (sigactions.action signum), s.without signum)) =
          .ok (taken, s') ∧ Picks sigactions s taken s'
      have hselects (hheeded : ¬ sigactions.Ignores signum) : Selects sigactions s signum :=
        ⟨hunmasked, hheeded, fun m hm hn => absurd hn (hfirst m hm)⟩
      split
      · rename_i hign
        have habove' (n : Nat) (hn : (s.without signum).Unmasked n) : signum < n := by
          obtain ⟨hn', hne⟩ := (unmasked_without hunmasked n).mp hn
          by_contra hnot
          exact hfirst n (lt_of_le_of_ne (not_lt.mp hnot) hne) hn'
        have hlo' := habove signum hunmasked
        obtain ⟨taken, s', hloop, hpicks⟩ :=
          ih (s.without signum) signum habove' (by omega) hlt
        exact ⟨taken, s', hloop, hpicks.of_without hunmasked hfirst hign⟩
      · rename_i hign
        split
        · rename_i hdfl
          exact ⟨_, _, rfl, htakes, hselects hign, hdfl⟩
        · rename_i hdfl
          exact ⟨_, _, rfl, htakes, hselects hign, hdfl, rfl⟩

theorem take_signal_picks (sigactions : SigActions) (s : Signals) :
    ∃ taken s', s.take_signal sigactions = .ok (taken, s') ∧ Picks sigactions s taken s' := by
  unfold take_signal
  split
  · rename_i hzero
    have hnone (n : Nat) : ¬ s.Unmasked n := by
      intro hn
      have hbit := hn.2.2.1
      rw [hzero] at hbit
      simp at hbit
    exact ⟨.nothing, s, rfl, .of_none fun n _ => hnone n, fun n hn => absurd hn (hnone n)⟩
  · refine take_loop_picks 64 s 0 (fun n hn => hn.1) (by decide) (by decide)

/-- The mask that a handler runs with. -/
def handler_mask (old : SigSet) (signum : Nat) (sa : SigActionRecord) : SigSet :=
  old ||| sa.sa_mask ||| if sa.nodefer then 0 else BitVec.twoPow 64 (signum - 1)

theorem deliver_ok {sa : SigActionRecord} {mem' : UserMemory} (hpos : 1 ≤ signum)
    (hle : signum ≤ 63) (h : s.deliver mem signum sa = .ok (s', mem')) :
    s'.sigmask = handler_mask s.sigmask signum sa ∧ s'.pending_signals = s.pending_signals ∧
      s'.trap_cx.sepc = sa.sa_handler ∧ s'.trap_cx.x 10 = .ofNat 64 signum := by
  have hmask := deliver_sigmask h
  refine ⟨?_, ?_⟩
  · rw [hmask, handler_mask, SigSet.add, SigSet.of_signum_eq hpos (Nat.lt_succ_of_le hle)]
    cases sa.nodefer with
    | true => simp [BitVec.or_comm]
    | false =>
      simp only [Bool.false_eq_true, if_false]
      rw [BitVec.or_comm, BitVec.or_assoc]
  · rw [deliver] at h
    obtain ⟨m, -, h⟩ := bind_eq_ok.mp h
    obtain ⟨m', -, h⟩ := bind_eq_ok.mp h
    cases h
    exact ⟨rfl, rfl, by simp [TrapContext.set_x_x_of_ne]⟩

end Signals

end MyGOS.Task
