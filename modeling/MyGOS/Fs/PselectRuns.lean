import MyGOS.Fs.Pselect

/-!
# Runs of the loop that waits

As long as the sets are in their first word, and no descriptor that is not ready
comes after one that is, the set of the kernel has the descriptors that were
found ready, and the count is theirs.
-/

namespace MyGOS.Fs

open StepSystem Time FdSet

/-- The descriptors are in the first word, and below `nfds`. -/
def InFirstWord (nfds : Nat) (fds : Option FdSet) : Prop :=
  ∀ s ∈ fds, s.Low ∧ ∀ d ∈ s.members, d < nfds

/-- Of the descriptors that are looked at in a round, the ready ones come last, unless all are
ready; nor was one found ready before. -/
def Watched.Orderly (ready : Readiness → Bool) (nfds : Nat) (fd_table : FDTable Readiness)
    (w : Watched) : Prop :=
  (∃ fd ∈ pending nfds w.fd_vec, is_ready ready fd_table fd = false) →
    w.ready_count = 0 ∧ (pending nfds w.fd_vec).Pairwise fun a b =>
      is_ready ready fd_table a → is_ready ready fd_table b

instance (ready : Readiness → Bool) (nfds : Nat) (fd_table : FDTable Readiness) (w : Watched) :
    Decidable (w.Orderly ready nfds fd_table) :=
  inferInstanceAs (Decidable (_ → _))

namespace Pselect

variable (nfds : Nat) (timer : TimeVal) (s : Pselect) (env : Round)

def examined : List Nat := pending nfds s.r.fd_vec ++ pending nfds s.w.fd_vec

/-- The first descriptor that is not open is not the one behind the table. -/
def Refuses : Prop :=
  ∃ fd ∈ first_closed env.fd_table (s.examined nfds), fd ≠ env.fd_table.length

/-- The call returns in this round. -/
def Ends : Prop :=
  ((∀ fd ∈ pending nfds s.r.fd_vec, is_ready Readiness.r_ready env.fd_table fd) ∧
    ∀ fd ∈ pending nfds s.w.fd_vec, is_ready Readiness.w_ready env.fd_table fd) ∨
  env.now - timer ≠ .zero

def Keeps : Prop :=
  s.Refuses nfds env ∨ first_closed env.fd_table (s.examined nfds) = none ∧
    s.r.Orderly Readiness.r_ready nfds env.fd_table ∧
    s.w.Orderly Readiness.w_ready nfds env.fd_table ∧
    (s.Ends nfds timer env → ∀ e ∈ s.ubuf_efds, e.count = 0)

instance : Decidable (s.Refuses nfds env) := inferInstanceAs (Decidable (∃ _ ∈ _, _))

instance : Decidable (s.Ends nfds timer env) := inferInstanceAs (Decidable (_ ∨ _))

instance : Decidable (s.Keeps nfds timer env) := inferInstanceAs (Decidable (_ ∨ _))

end Pselect

section Sets

variable {nfds d : Nat} {fds : Option FdSet} {ready : Readiness → Bool}
  {fd_table : FDTable Readiness} {s : FdSet} {M : Finset Nat} {l : List Nat}

theorem InFirstWord.mem_get_fd_vec (h : InFirstWord nfds fds) :
    d ∈ (fds.getD .new).get_fd_vec ↔ d ∈ members fds := by
  cases fds with
  | none =>
    have hnone := exact_new.list d
    exact hnone
  | some s => exact (h s rfl).1.mem_get_fd_vec_iff

theorem InFirstWord.lt (h : InFirstWord nfds fds) (hd : d ∈ members fds) : d < 64 ∧ d < nfds := by
  cases fds with
  | none => exact absurd hd (Finset.notMem_empty d)
  | some s => exact ⟨((h s rfl).1.mem_members.mp hd).1, (h s rfl).2 d hd⟩

theorem InFirstWord.exact (h : InFirstWord nfds fds) : Exact (fds.getD .new) (members fds) := by
  cases fds with
  | none => exact exact_new
  | some s => exact exact_iff.mpr ⟨(h s rfl).1, rfl⟩

/-- A set of which all descriptors are ready. -/
theorem exact_foldl_of_ready (hs : Exact s M) (hl : ∀ d ∈ l, d < 64)
    (hready : ∀ d ∈ l, is_ready ready fd_table d = true) :
    Exact (l.foldl (touch ready fd_table) s) (M ∪ l.toFinset) := by
  induction l generalizing s M with
  | nil => simpa using hs
  | cons a l ih =>
    rw [List.forall_mem_cons] at hl hready
    have hset := (exact_set_fd_iff hs (by omega)).mpr hl.1
    rw [List.foldl_cons, touch, if_pos hready.1, List.toFinset_cons, Finset.union_insert,
      ← Finset.insert_union]
    exact ih hset hl.2 hready.2

/-- Each descriptor that is not ready clears the set, so it is to be ready ones that follow. -/
theorem exact_foldl_of_pairwise (hs : Exact s M) (hl : ∀ d ∈ l, d < 64)
    (hpairwise : l.Pairwise fun a b => is_ready ready fd_table a → is_ready ready fd_table b)
    (hnot : ∃ d ∈ l, is_ready ready fd_table d = false) :
    Exact (l.foldl (touch ready fd_table) s) (l.filter (is_ready ready fd_table)).toFinset := by
  induction l generalizing s M with
  | nil => exact absurd hnot (by simp)
  | cons a l ih =>
    rw [List.forall_mem_cons] at hl
    obtain ⟨hfirst, hrest⟩ := List.pairwise_cons.mp hpairwise
    cases ha : is_ready ready fd_table a with
    | true =>
      obtain ⟨d, hd, hfalse⟩ := hnot
      obtain rfl | hd := List.mem_cons.mp hd
      · exact absurd (ha.symm.trans hfalse) (by decide)
      · exact absurd ((hfirst d hd ha).symm.trans hfalse) (by decide)
    | false =>
      have hclear : Exact (s.clear_fd a) ∅ := by
        rw [(exact_iff.mp hs).1.clear_fd (by omega)]
        exact exact_new
      rw [List.foldl_cons, touch, ha, List.filter_cons_of_neg (by simp [ha])]
      by_cases hall : ∀ d ∈ l, is_ready ready fd_table d = true
      · have hfold := exact_foldl_of_ready hclear hl.2 hall
        rw [Finset.empty_union] at hfold
        rw [List.filter_eq_self.mpr hall]
        exact hfold
      · push Not at hall
        exact ih hclear hl.2 hrest (by simpa using hall)

end Sets

/-- `F` are the descriptors that were found ready. The set still has all that were asked for as
long as there is none. -/
structure Watching (ready : Readiness → Bool) (request : Option FdSet) (past : List Round)
    (F : Finset Nat) (w : Watched) : Prop where
  sub : F ⊆ members request
  ready : ∀ d ∈ F, ∃ env ∈ past, is_ready ready env.fd_table d = true
  vec : w.fd_vec = (request.getD .new).get_fd_vec.map fun d => if d ∈ F then 1024 else d
  count : w.ready_count = F.card
  set : Exact w.fd_set F ∨ F = ∅ ∧ Exact w.fd_set (members request)
  isSome : w.ubuf_fds.isSome = request.isSome
  all_ready : w.all_ready = true →
    F = members request ∧ w.ubuf_fds = request.map fun _ => w.fd_set

section Watching

variable {nfds : Nat} {ready : Readiness → Bool} {request : Option FdSet} {past : List Round}
  {F : Finset Nat} {w : Watched} {env : Round}

theorem watching_new (hp : InFirstWord nfds request) :
    Watching ready request [] ∅ (.new request) where
  sub := Finset.empty_subset _
  ready d hd := absurd hd (Finset.notMem_empty d)
  vec := by simp [Watched.new]
  count := rfl
  set := .inr ⟨rfl, hp.exact⟩
  isSome := rfl
  all_ready h := by cases h

variable (hp : InFirstWord nfds request) (h : Watching ready request past F w)

include hp h

theorem Watching.pending_eq : pending nfds w.fd_vec =
    (request.getD .new).get_fd_vec.filter fun d => d ∉ F := by
  have hlt : ∀ d ∈ (request.getD .new).get_fd_vec, d < 64 ∧ d < nfds :=
    fun d hd => hp.lt (hp.mem_get_fd_vec.mp hd)
  rw [h.vec, pending, List.filter_map]
  generalize (request.getD .new).get_fd_vec = l at hlt
  induction l with
  | nil => rfl
  | cons a l ih =>
    rw [List.forall_mem_cons] at hlt
    by_cases ha : a ∈ F
    · rw [List.filter_cons_of_neg (by simp [ha]), List.filter_cons_of_neg (by simp [ha])]
      exact ih hlt.2
    · have hne : a ≠ 1024 := by omega
      rw [List.filter_cons_of_pos (by simp [ha, hne, hlt.1.2]),
        List.filter_cons_of_pos (by simp [ha]), List.map_cons, if_neg ha, ih hlt.2]

theorem Watching.mem_pending {d : Nat} :
    d ∈ pending nfds w.fd_vec ↔ d ∈ members request ∧ d ∉ F := by
  rw [h.pending_eq hp, List.mem_filter, hp.mem_get_fd_vec, decide_eq_true_eq]

theorem Watching.idle (hidle : w.ubuf_fds.isNone ∨ w.all_ready = true) :
    F = members request ∧ pending nfds w.fd_vec = [] ∧
      w.ubuf_fds = request.map fun _ => w.fd_set := by
  have hF : F = members request ∧ w.ubuf_fds = request.map fun _ => w.fd_set := by
    obtain hnone | hall := hidle
    · have hsome := h.isSome
      rw [Option.isNone_iff_eq_none.mp hnone, Option.isSome_none, eq_comm,
        Option.isSome_eq_false_iff, Option.isNone_iff_eq_none] at hsome
      subst hsome
      exact ⟨Finset.subset_empty.mp h.sub, Option.isNone_iff_eq_none.mp hnone⟩
    · exact h.all_ready hall
  refine ⟨hF.1, List.eq_nil_iff_forall_not_mem.mpr fun d hd => ?_, hF.2⟩
  have hmem := (h.mem_pending hp).mp hd
  exact hmem.2 (hF.1 ▸ hmem.1)

theorem Watching.refill_eq : w.refill = w := by
  rw [Watched.refill]
  split
  · rfl
  · split
    · next hnil =>
      rw [h.vec, List.length_map, List.length_eq_zero_iff] at hnil
      have hnone : members request = ∅ := by
        rw [Finset.eq_empty_iff_forall_notMem]
        intro d hd
        rw [← hp.mem_get_fd_vec, hnil] at hd
        exact List.not_mem_nil hd
      have hexact : Exact w.fd_set ∅ := by
        obtain hF | ⟨-, hS⟩ := h.set
        · have hempty : F = ∅ := Finset.subset_empty.mp (hnone ▸ h.sub)
          rwa [hempty] at hF
        · rwa [hnone] at hS
      rw [hexact.get_fd_vec_eq_nil, ← List.map_nil (f := fun d => if d ∈ F then 1024 else d),
        ← hnil, ← h.vec]
    · rfl

/-- The loop over a set that is still watched. -/
theorem Watching.scan {c : Scan} (hactive : ¬ (w.ubuf_fds.isNone ∨ w.all_ready = true))
    (horderly : w.Orderly ready nfds env.fd_table)
    (hc : c = ⟨(pending nfds w.fd_vec).foldl (touch ready env.fd_table) w.fd_set,
      w.fd_vec.map (mark ready nfds env.fd_table),
      w.ready_count + (pending nfds w.fd_vec).countP (is_ready ready env.fd_table),
      (pending nfds w.fd_vec).any fun fd => !is_ready ready env.fd_table fd⟩) :
    ∃ F', Watching ready request (past ++ [env]) F' ⟨w.ubuf_fds, c.fd_set, c.fd_vec, c.ready_count,
        w.all_ready⟩ ∧ Exact c.fd_set F' ∧ (c.has_nready = false → F' = members request) := by
  subst hc
  have hmem : ∀ d, d ∈ pending nfds w.fd_vec ↔ d ∈ members request ∧ d ∉ F :=
    fun d => h.mem_pending hp
  have hlt : ∀ d ∈ pending nfds w.fd_vec, d < 64 := fun d hd => (hp.lt ((hmem d).mp hd).1).1
  have hnodup : (pending nfds w.fd_vec).Nodup := by
    rw [h.pending_eq hp]
    exact (nodup_get_fd_vec _).filter _
  have hready : ∀ d, d ∈ ((pending nfds w.fd_vec).filter (is_ready ready env.fd_table)).toFinset ↔
      (d ∈ members request ∧ d ∉ F) ∧ is_ready ready env.fd_table d = true := by
    intro d
    rw [List.mem_toFinset, List.mem_filter, hmem]
  have hdisjoint : Disjoint F
      ((pending nfds w.fd_vec).filter (is_ready ready env.fd_table)).toFinset := by
    rw [Finset.disjoint_left]
    exact fun d hd hd' => ((hready d).mp hd').1.2 hd
  -- all are ready, or those that are follow the ones that are not
  have hexact : Exact ((pending nfds w.fd_vec).foldl (touch ready env.fd_table) w.fd_set)
        (F ∪ ((pending nfds w.fd_vec).filter (is_ready ready env.fd_table)).toFinset) ∧
      (((pending nfds w.fd_vec).any fun fd => !is_ready ready env.fd_table fd) = false →
        F ∪ ((pending nfds w.fd_vec).filter (is_ready ready env.fd_table)).toFinset =
          members request) := by
    by_cases hall : ∀ d ∈ pending nfds w.fd_vec, is_ready ready env.fd_table d = true
    · have hS : F ∪ (pending nfds w.fd_vec).toFinset = members request := by
        ext d
        rw [Finset.mem_union, List.mem_toFinset, hmem]
        constructor
        · rintro (hd | hd)
          · exact h.sub hd
          · exact hd.1
        · exact fun hd => (em (d ∈ F)).imp_right fun hnot => ⟨hd, hnot⟩
      rw [List.filter_eq_self.mpr hall]
      refine ⟨?_, fun _ => hS⟩
      obtain hF | ⟨hF, hfresh⟩ := h.set
      · exact exact_foldl_of_ready hF hlt hall
      · have hfold := exact_foldl_of_ready hfresh hlt hall
        have hsub : (pending nfds w.fd_vec).toFinset ⊆ members request :=
          hS ▸ Finset.subset_union_right
        rwa [Finset.union_eq_left.mpr hsub, ← hS] at hfold
    · push Not at hall
      obtain ⟨d, hd, hfalse⟩ := hall
      rw [ne_eq, Bool.not_eq_true] at hfalse
      obtain ⟨hzero, hpairwise⟩ := horderly ⟨d, hd, hfalse⟩
      have hF : F = ∅ := Finset.card_eq_zero.mp (h.count.symm.trans hzero)
      rw [hF, Finset.empty_union]
      constructor
      · obtain hM | ⟨-, hM⟩ := h.set <;>
          exact exact_foldl_of_pairwise hM hlt hpairwise ⟨d, hd, hfalse⟩
      · intro hany
        rw [List.any_eq_false] at hany
        exact absurd hfalse (by simpa using hany d hd)
  refine ⟨_, ?_, hexact.1, hexact.2⟩
  constructor
  · intro d hd
    obtain hd | hd := Finset.mem_union.mp hd
    · exact h.sub hd
    · exact ((hready d).mp hd).1.1
  · intro d hd
    obtain hd | hd := Finset.mem_union.mp hd
    · obtain ⟨e, he, hr⟩ := h.ready d hd
      exact ⟨e, List.mem_append_left _ he, hr⟩
    · exact ⟨env, List.mem_append_right _ List.mem_cons_self, ((hready d).mp hd).2⟩
  · refine (congrArg (List.map _) h.vec).trans ?_
    rw [List.map_map]
    apply List.map_congr_left
    intro d hd
    have hS := hp.mem_get_fd_vec.mp hd
    simp only [Function.comp_apply, Finset.mem_union, hready, mark]
    by_cases hF : d ∈ F
    · simp only [hF, true_or, if_true]
      exact ite_self _
    · simp only [hF, if_false, hS, (hp.lt hS).2, true_and, false_or, not_false_eq_true]
  · rw [Finset.card_union_of_disjoint hdisjoint, List.toFinset_card_of_nodup (hnodup.filter _),
      ← List.countP_eq_length_filter, ← h.count]
  · exact .inl hexact.1
  · exact h.isSome
  · exact fun hall => absurd (.inr hall) hactive

/-- The block of a round, where all descriptors are open. -/
theorem Watching.handle (hopen : first_closed env.fd_table (pending nfds w.fd_vec) = none)
    (horderly : w.Orderly ready nfds env.fd_table) :
    ∃ F' w' b, (w.handle ready nfds env.fd_table : Except (Exit Pselect) _) = .ok (w', b) ∧
      Watching ready request (past ++ [env]) F' w' ∧ Exact w'.fd_set F' ∧
      (b = true ↔ ∃ fd ∈ pending nfds w.fd_vec, is_ready ready env.fd_table fd = false) ∧
      (b = false → w'.ubuf_fds = request.map fun _ => w'.fd_set) := by
  rw [Watched.handle]
  split
  · next hidle =>
    obtain ⟨hF, hnil, hubuf⟩ := h.idle hp hidle
    have hexact : Exact w.fd_set F := by
      obtain hM | ⟨-, hM⟩ := h.set
      · exact hM
      · rwa [← hF] at hM
    refine ⟨F, w, false, rfl, ?_, hexact, by simp [hnil], fun _ => hubuf⟩
    refine ⟨h.sub, fun d hd => ?_, h.vec, h.count, h.set, h.isSome, h.all_ready⟩
    obtain ⟨e, he, hr⟩ := h.ready d hd
    exact ⟨e, List.mem_append_left _ he, hr⟩
  · next hactive =>
    rw [scan_open hopen]
    generalize hc : Scan.mk _ _ _ _ = c
    obtain ⟨F', hw, hexact, hall⟩ := h.scan hp hactive horderly hc.symm
    have hb : c.has_nready = true ↔
        ∃ fd ∈ pending nfds w.fd_vec, is_ready ready env.fd_table fd = false := by
      rw [← hc]
      simp
    rw [Outcome.ok_bind]
    split
    · next hn =>
      exact ⟨F', _, true, rfl, hw, hexact, by simpa [hn] using hb, by simp⟩
    · next hn =>
      rw [Bool.not_eq_true] at hn
      have hsome : w.ubuf_fds.map (fun _ => c.fd_set) = request.map fun _ => c.fd_set := by
        have hsome := h.isSome
        cases hw : w.ubuf_fds <;> cases hr : request <;> simp_all
      refine ⟨F', _, false, rfl, ?_, hexact, by simpa [hn] using hb, fun _ => hsome⟩
      refine ⟨hw.sub, hw.ready, hw.vec, hw.count, hw.set, ?_, fun _ => ⟨hall hn, hsome⟩⟩
      rw [Watched.write_back, Option.isSome_map]
      exact hw.isSome

omit hp in
/-- What is written back are the descriptors that were found ready. -/
theorem Watching.returned (hexact : Exact w.fd_set F) :
    members (request.map fun _ => w.fd_set) = F := by
  cases request with
  | none => exact (Finset.subset_empty.mp h.sub).symm
  | some s => exact hexact.layout

omit hp in
theorem Watching.write_back : w.write_back.ubuf_fds = request.map fun _ => w.fd_set := by
  have hsome := h.isSome
  rw [Watched.write_back]
  cases hw : w.ubuf_fds <;> cases hr : request <;> simp_all

theorem Watching.reports (hexact : Exact w.fd_set F) :
    Reports nfds ready past request (request.map fun _ => w.fd_set) ∧
      w.ready_count = (members (request.map fun _ => w.fd_set)).card := by
  rw [Reports, h.returned hexact]
  exact ⟨fun d hd => ⟨h.sub hd, (hp.lt (h.sub hd)).2, h.ready d hd⟩, h.count⟩

end Watching

namespace Pselect

variable {nfds : Nat} {timer : TimeVal} {s : Pselect} {env : Round}
  {readfds writefds exceptfds : Option FdSet} {past : List Round}

/-- A block is left with an error where the first descriptor that is not open is. -/
theorem handle_closed {ready : Readiness → Bool} {w : Watched} {fd : Nat}
    (hidle : w.ubuf_fds.isNone ∨ w.all_ready = true → pending nfds w.fd_vec = [])
    (h : first_closed env.fd_table (pending nfds w.fd_vec) = some fd)
    (hne : fd ≠ env.fd_table.length) :
    (w.handle ready nfds env.fd_table : Except (Exit Pselect) _) = .error (.errno .EBADF) := by
  rw [Watched.handle]
  split
  · next hi =>
    rw [hidle hi] at h
    cases h
  · rw [scan_closed h, if_neg hne]
    rfl

theorem handle_opened {ready : Readiness → Bool} {w : Watched}
    (h : first_closed env.fd_table (pending nfds w.fd_vec) = none) :
    ∃ r, (w.handle ready nfds env.fd_table : Except (Exit Pselect) _) = .ok r := by
  rw [Watched.handle]
  split
  · exact ⟨_, rfl⟩
  · rw [scan_open h, Outcome.ok_bind]
    split <;> exact ⟨_, rfl⟩

theorem round_of_refuses (hr : s.r.ubuf_fds.isNone ∨ s.r.all_ready = true →
      pending nfds s.r.fd_vec = [])
    (hw : s.w.ubuf_fds.isNone ∨ s.w.all_ready = true → pending nfds s.w.fd_vec = [])
    (hrefill : s.w.refill = s.w) (h : s.Refuses nfds env) :
    round nfds timer s env = .error (.errno .EBADF) := by
  obtain ⟨fd, hfd, hne⟩ := h
  rw [Option.mem_def, examined, first_closed, List.find?_append, Option.or_eq_some_iff] at hfd
  rw [round, hrefill]
  obtain hfd | ⟨hnone, hfd⟩ := hfd
  · rw [handle_closed hr hfd hne]
    rfl
  · obtain ⟨r, hok⟩ := handle_opened hnone
    rw [hok, Outcome.ok_bind, handle_closed hw hfd hne]
    rfl

/-- The call is refused, or it goes on, or it returns what it should. -/
structure Watches (readfds writefds : Option FdSet) (past : List Round) (s : Pselect) : Prop where
  r : ∃ F, Watching Readiness.r_ready readfds past F s.r
  w : ∃ F, Watching Readiness.w_ready writefds past F s.w

/-- What is returned after the rounds `past`. -/
structure Returns (nfds : Nat) (readfds writefds : Option FdSet) (past : List Round)
    (n : Nat) (t : Pselect) : Prop where
  r : Reports nfds Readiness.r_ready past readfds t.r.ubuf_fds
  w : Reports nfds Readiness.w_ready past writefds t.w.ubuf_fds
  e : members t.ubuf_efds = ∅
  counts : n = (members t.r.ubuf_fds).card + (members t.w.ubuf_fds).card

theorem members_cleared (fds : Option FdSet) : members (fds.map FdSet.clear_all) = ∅ := by
  cases fds with
  | none => rfl
  | some s => exact exact_new.layout

theorem round_keeps (hr : InFirstWord nfds readfds) (hw : InFirstWord nfds writefds)
    (h : Watches readfds writefds past s) (hkeeps : s.Keeps nfds timer env) :
    round nfds timer s env = .error (.errno .EBADF) ∨
    (∃ t, round nfds timer s env = .ok t ∧ Watches readfds writefds (past ++ [env]) t) ∨
    ∃ n t, round nfds timer s env = .error (.ret n t) ∧
      Returns nfds readfds writefds (past ++ [env]) n t := by
  obtain ⟨⟨F, hF⟩, ⟨G, hG⟩⟩ := h
  have hrefill := hG.refill_eq hw
  obtain hrefuses | ⟨hopen, hro, hwo, hends⟩ := hkeeps
  · exact .inl (round_of_refuses (fun hi => (hF.idle hr hi).2.1) (fun hi => (hG.idle hw hi).2.1)
      hrefill hrefuses)
  · rw [examined, first_closed, List.find?_append, Option.or_eq_none_iff] at hopen
    obtain ⟨F', r, b, hhandle, hF', hFe, hb, hwritten⟩ := hF.handle hr hopen.1 hro
    obtain ⟨G', w, b', hhandle', hG', hGe, hb', hwritten'⟩ := hG.handle hw hopen.2 hwo
    have hcount : s.Ends nfds timer env → (s.ubuf_efds.map FdSet.count).getD 0 = 0 := by
      intro he
      cases hefds : s.ubuf_efds with
      | none => rfl
      | some e => exact hends he e hefds
    have hreports := hF'.reports hr hFe
    have hreports' := hG'.reports hw hGe
    rw [round, hhandle, Outcome.ok_bind]
    simp only [hrefill, hhandle', Outcome.ok_bind]
    cases hbb : b || b' with
    | true =>
      simp only [if_true]
      split
      · exact .inr (.inl ⟨_, rfl, ⟨F', hF'⟩, ⟨G', hG'⟩⟩)
      · next htime =>
        refine .inr (.inr ⟨_, _, rfl, ?_⟩)
        have hbr := hF'.write_back
        have hbw := hG'.write_back
        refine ⟨?_, ?_, members_cleared _, ?_⟩
        · simp only [hbr]
          exact hreports.1
        · simp only [hbw]
          exact hreports'.1
        · simp only [hbr, hbw, hcount (.inr htime), Nat.add_zero]
          rw [hreports.2, hreports'.2]
    | false =>
      rw [Bool.or_eq_false_iff] at hbb
      have hall : s.Ends nfds timer env := by
        refine .inl ⟨fun d hd => ?_, fun d hd => ?_⟩
        · by_contra hnot
          exact absurd (hb.mpr ⟨d, hd, Bool.eq_false_iff.mpr hnot⟩) (by simp [hbb.1])
        · by_contra hnot
          exact absurd (hb'.mpr ⟨d, hd, Bool.eq_false_iff.mpr hnot⟩) (by simp [hbb.2])
      refine .inr (.inr ⟨_, _, rfl, ?_⟩)
      refine ⟨?_, ?_, members_cleared _, ?_⟩
      · simp only [hwritten hbb.1]
        exact hreports.1
      · simp only [hwritten' hbb.2]
        exact hreports'.1
      · simp only [hwritten hbb.1, hwritten' hbb.2, hcount hall, Nat.add_zero]
        rw [hreports.2, hreports'.2]

theorem Returns.mono {n : Nat} {t : Pselect} (h : Returns nfds readfds writefds past n t)
    (rest : List Round) : Returns nfds readfds writefds (past ++ rest) n t where
  r d hd := by
    obtain ⟨hmem, hlt, e, he, hready⟩ := h.r d hd
    exact ⟨hmem, hlt, e, List.mem_append_left _ he, hready⟩
  w d hd := by
    obtain ⟨hmem, hlt, e, he, hready⟩ := h.w d hd
    exact ⟨hmem, hlt, e, List.mem_append_left _ he, hready⟩
  e := h.e
  counts := h.counts

/-- A run of rounds that keep the sets right. -/
theorem run_keeps {rounds : List Round} (hr : InFirstWord nfds readfds)
    (hw : InFirstWord nfds writefds)
    (h : Watches readfds writefds past s)
    (hkeeps : Guarded (round nfds timer) (Keeps nfds timer) s rounds) :
    run (round nfds timer) s rounds ≠ .error .outOfBounds ∧
      ∀ n t, run (round nfds timer) s rounds = .error (.ret n t) →
        Returns nfds readfds writefds (past ++ rounds) n t := by
  induction rounds generalizing s past with
  | nil => exact ⟨by simp, fun n t hr => by cases hr⟩
  | cons env rounds ih =>
    obtain ⟨hkeep, hrest⟩ := hkeeps
    rw [run_cons]
    obtain hround | ⟨t, hround, ht⟩ | ⟨n, t, hround, ht⟩ := round_keeps hr hw h hkeep
    · rw [hround]
      exact ⟨by rintro ⟨⟩, fun n t hr => by cases hr⟩
    · rw [hround] at hrest
      rw [hround, Outcome.ok_bind, List.append_cons]
      exact ih ht hrest
    · rw [hround]
      refine ⟨by rintro ⟨⟩, fun n' t' hr => ?_⟩
      cases hr
      rw [List.append_cons]
      exact ht.mono rounds

theorem Watched.idle_new {fds : Option FdSet}
    (h : (Watched.new fds).ubuf_fds.isNone ∨ (Watched.new fds).all_ready = true) :
    pending nfds (Watched.new fds).fd_vec = [] := by
  obtain hnone | hall := h
  · cases fds with
    | none =>
      rw [Watched.new, Option.getD_none, exact_new.get_fd_vec_eq_nil]
      rfl
    | some s => cases hnone
  · cases hall

theorem round_new_of_refuses (h : (Pselect.new readfds writefds exceptfds).Refuses nfds env) :
    round nfds timer (.new readfds writefds exceptfds) env = .error (.errno .EBADF) := by
  apply round_of_refuses Watched.idle_new Watched.idle_new ?_ h
  rw [Watched.refill]
  split
  · rfl
  · split <;> rfl

end Pselect

theorem Selects.of_refused {nfds : Nat} {readfds writefds exceptfds : Option FdSet}
    {rounds : List Round} {x : Except (Exit Pselect) Pselect} (h : x = .error (.errno .EBADF)) :
    Selects nfds readfds writefds exceptfds rounds x := by
  subst h
  constructor
  · rintro ⟨⟩
  · exact fun _ _ _ _ _ _ => rfl
  · rintro n t ⟨⟩
  · rintro n t ⟨⟩

section Pair

/-- Descriptors 0 to 2 are open. -/
def three_open (r_ready : Bool) : Round where
  fd_table := [some ⟨r_ready, true⟩, some ⟨r_ready, true⟩, some ⟨r_ready, true⟩]
  now := ⟨1, 0⟩

/-- The set of one descriptor. -/
def single (fd : Nat) : FdSet := FdSet.new.set_fd fd

theorem single_in_first_word {nfds fd : Nat} (hfd : fd < 64) (hlt : fd < nfds) :
    InFirstWord nfds (some (single fd)) := by
  have hexact := (exact_set_fd_iff exact_new (by omega : fd < 1024)).mpr hfd
  rintro s ⟨⟩
  refine ⟨(exact_iff.mp hexact).1, fun d hd => ?_⟩
  rw [single, hexact.layout, Finset.mem_insert, or_iff_left (Finset.notMem_empty d)] at hd
  omega

end Pair

end MyGOS.Fs
