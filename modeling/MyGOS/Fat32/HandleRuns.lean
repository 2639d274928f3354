import MyGOS.Fat32.DirRuns
import MyGOS.Fat32.TwoHandles

/-!
# Runs of calls through two handles

Two searches for a directory return handles with a chain each. The calls that
either of them takes go through one file system, with the names that were
created so far and the handles that `create` returned for them.
-/

namespace MyGOS.Fat32

open Outcome StepSystem

namespace FileSystem

variable {fs fs' fs₁ fs₂ : FileSystem} {d : Disk} {dir parent a b f : VirtFile}
  {clusters parents chain : List Nat} {m n n' n'' k : Nat} {name : Name}

/-- The clusters of the directory of a handle, as the FAT has them. -/
def DirChain (fs : FileSystem) (dir : VirtFile) (clusters : List Nat) : Prop :=
  EntryChain fs fs.disk (fs.disk.entry dir.sde_pos) clusters

/-- The directory keeps its clusters, and the records that were in use. -/
def KeepsRecords (fs fs' : FileSystem) (dir : VirtFile) : Prop :=
  ∀ clusters, fs.DirChain dir clusters → ∃ clusters', fs'.DirChain dir clusters' ∧
    clusters <+: clusters' ∧
    ∀ k < end_index (fs.disk.record fs.bpb.cluster_size clusters)
        (record_cnt fs.bpb.cluster_size clusters),
      fs'.disk.record fs'.bpb.cluster_size clusters' k =
        fs.disk.record fs.bpb.cluster_size clusters k

/-- The entry of a handle is found by its name through both handles. -/
def BothFind (fs : FileSystem) (a b : VirtFile) (name : Name) (f : VirtFile) : Prop :=
  ∃ g fs₁ g' fs₂, fs.find_by_name a name = .ok (some g, fs₁) ∧ SameEntry f g ∧
    fs.find_by_name b name = .ok (some g', fs₂) ∧ SameEntry f g'

/-- A call through one of two handles. -/
inductive HandleCall where
  | first (op : DirOp)
  | second (op : DirOp)

/-- A call, after which the names that were created are known with their handles. -/
def dir_op (dir : VirtFile) (s : FileSystem × List (Name × VirtFile)) :
    DirOp → Except FsPanic (FileSystem × List (Name × VirtFile))
  | .create name file_type => do
    match ← s.1.create dir name file_type with
    | (.ok f, fs) => return (fs, (name, f) :: s.2)
    | (.error _, fs) => return (fs, s.2)
  | .find_by_name name => do
    let (_, fs) ← s.1.find_by_name dir name
    return (fs, s.2)

def handle_call (a b : VirtFile) (s : FileSystem × List (Name × VirtFile)) :
    HandleCall → Except FsPanic (FileSystem × List (Name × VirtFile))
  | .first op => dir_op a s op
  | .second op => dir_op b s op

def HandleCall.Permits (a b : VirtFile) (s : FileSystem × List (Name × VirtFile)) :
    HandleCall → Prop
  | .first op => op.Permits s.1 a
  | .second op => op.Permits s.1 b

instance (a b : VirtFile) (s : FileSystem × List (Name × VirtFile)) :
    DecidablePred (HandleCall.Permits a b s)
  | .first op => inferInstanceAs (Decidable (op.Permits s.1 a))
  | .second op => inferInstanceAs (Decidable (op.Permits s.1 b))

/-- From each state of a run to each later one the directory keeps its records, and the names that
were created are found through both handles. -/
def HandlesAgree (a b : VirtFile) (s : FileSystem × List (Name × VirtFile))
    (calls : List HandleCall) : Prop :=
  ∀ before after t u, before ++ after <+: calls → run (handle_call a b) s before = .ok t →
    run (handle_call a b) t after = .ok u →
    KeepsRecords t.1 u.1 a ∧ ∀ p ∈ u.2, BothFind u.1 a b p.1 p.2

section Start

/-- A directory of the volume: the entry of `name` in its parent has these clusters, and the first
`n` of its records are in use. -/
structure Subdirectory (fs : FileSystem) (d : Disk) (parent : VirtFile) (parents : List Nat) (m : Nat)
    (name : Name) (k : Nat) (clusters : List Nat) (n : Nat) : Prop where
  directory : Directory fs d parent parents m
  found : lookup (d.record fs.bpb.cluster_size parents) (record_cnt fs.bpb.cluster_size parents)
    name = some k
  file : FileAt fs d parent parents
    (d.record fs.bpb.cluster_size parents (k + lde_cnt name)) clusters
  attr : (d.record fs.bpb.cluster_size parents (k + lde_cnt name)).attr = ATTR_DIRECTORY
  listed : Listed (d.record fs.bpb.cluster_size clusters) (record_cnt fs.bpb.cluster_size clusters) n

theorem Subdirectory.looked (h : Subdirectory fs d parent parents m name k clusters n)
    (hl : Looked fs fs') : Subdirectory fs' d parent parents m name k clusters n := by
  have hbpb := hl.bpb
  refine ⟨h.directory.looked hl, ?_, ?_, ?_, ?_⟩ <;> rw [hbpb]
  · exact h.found
  · have hfile := h.file
    refine ⟨⟨hfile.entry.chain, ?_, hfile.entry.first_cluster⟩, hfile.disjoint, hfile.apart, ?_,
      hfile.dir_size⟩
    · rw [hbpb]
      exact hfile.entry.data
    · rw [hbpb]
      exact hfile.file_size
  · exact h.attr
  · exact h.listed

/-- A search returns a handle to the directory. -/
theorem Subdirectory.find_by_name (h : Subdirectory fs d parent parents m name k clusters n)
    (hfind : fs.find_by_name parent name = .ok (some f, fs')) :
    Owned fs' d f clusters ∧ Looked fs fs' ∧ f.attr = .Dir ∧
      f.sde_pos = record_pos fs.bpb.cluster_size parents (k + lde_cnt name) ∧
      fs.next_chain ≤ f.cluster_chain ∧ f.cluster_chain < fs'.next_chain := by
  have hlt := (lookup_eq_some.mp h.found).2.1
  have hlooked := (find_by_name_searched hfind).looked
  have hhandle := h.directory.owned.find_by_name_some h.directory.is_dir h.found rfl h.file.entry
  cases hfind.symm.trans hhandle
  refine ⟨?_, hlooked, if_pos h.attr, rfl, le_rfl, Nat.lt_succ_self _⟩
  exact h.directory.owned.record_handle hlt h.file.entry h.file.disjoint h.file.file_size
    h.file.dir_size

/-- Two handles that separate searches return. -/
theorem Subdirectory.find_twice (h : Subdirectory fs d parent parents m name k clusters n)
    (ha : fs.find_by_name parent name = .ok (some a, fs₁))
    (hb : fs₁.find_by_name parent name = .ok (some b, fs₂)) :
    Twins a b ∧ Together fs₂ a b clusters n := by
  obtain ⟨howned, hlooked, hattr, hpos, -, hlt⟩ := h.find_by_name ha
  obtain ⟨howned', hlooked', hattr', hpos', hge', hlt'⟩ := (h.looked hlooked).find_by_name hb
  have hvec : fs₂.cluster_vec a = clusters :=
    (hlooked'.chains _ hlt).trans howned.chained.vec
  have hbpb : fs₂.bpb = fs.bpb := hlooked'.bpb.trans hlooked.bpb
  refine ⟨⟨?_, ?_, hattr'.trans hattr.symm, (hlt.trans_le hge').ne⟩, ⟨?_, howned'.chained.vec,
    hlt.trans_le hlooked'.next_chain, hlt', ?_⟩⟩
  · rw [VirtFile.is_dir, hattr]
    rfl
  · rw [hpos', hpos, hlooked.bpb]
  · exact (howned.keep howned'.sees hlooked'.bpb hvec (fun _ _ => rfl) howned.in_use rfl).disk
  · rw [hbpb]
    apply h.listed.congr
    intro j hj
    rw [← hbpb] at hj ⊢
    exact howned'.record_disk hj

end Start

section Run

variable {s t u : FileSystem × List (Name × VirtFile)} {calls before after : List HandleCall}

/-- The handles have the directory, and every name that was created is known in its records. -/
structure Agreed (a b : VirtFile) (clusters : List Nat) (n : Nat)
    (s : FileSystem × List (Name × VirtFile)) : Prop where
  together : Together s.1 a b clusters n
  created : ∀ p ∈ s.2, '\x00' ∉ p.1 ∧ ∃ k chain,
    Known (s.1.disk.record s.1.bpb.cluster_size clusters) s.1.bpb.cluster_size clusters p.1 p.2 k ∧
    EntryChain s.1 s.1.disk
      (s.1.disk.record s.1.bpb.cluster_size clusters (k + lde_cnt p.1)) chain ∧
    ∀ c ∈ chain, c ∉ clusters

theorem Later.trans (h : Later fs fs₁ clusters n n') (h' : Later fs₁ fs₂ clusters n' n'') :
    Later fs fs₂ clusters n n'' where
  le := h.le.trans h'.le
  bpb := h'.bpb.trans h.bpb
  record k hk := by
    rw [← h.record k hk, ← h.bpb]
    exact h'.record k (hk.trans_le h.le)
  chain e chain hc hdisjoint := h'.chain e chain (h.chain e chain hc hdisjoint) hdisjoint

theorem Agreed.symm (ht : Twins a b) (h : Agreed a b clusters n s) : Agreed b a clusters n s :=
  ⟨h.together.symm ht, h.created⟩

/-- The names that were created stay known. -/
theorem Agreed.later {created : List (Name × VirtFile)} (h : Agreed a b clusters n (fs, created))
    (ht : Together fs' a b clusters n') (hl : Later fs fs' clusters n n') :
    Agreed a b clusters n' (fs', created) := by
  refine ⟨ht, fun p hp => ?_⟩
  obtain ⟨hname, k, chain, hknown, hchain, hdisjoint⟩ := h.created p hp
  have hlisted := h.together.listed
  have hlt := hlisted.match_lt hname (lookup_eq_some.mp hknown.lookup).1 hknown.lt
  refine ⟨hname, k, chain, hknown.later hlisted hname hl, ?_, hdisjoint⟩
  rw [hl.bpb, hl.record _ hlt]
  exact hl.chain _ chain hchain hdisjoint

/-- A call through the first handle. -/
theorem Agreed.dir_op (ht : Twins a b) (h : Agreed a b clusters n s) {op : DirOp}
    (hp : op.Permits s.1 a) (hok : dir_op a s op = .ok t) :
    ∃ n', Agreed a b clusters n' t ∧ Later s.1 t.1 clusters n n' := by
  obtain ⟨fs, created⟩ := s
  cases op with
  | create name file_type =>
    obtain ⟨⟨result, fs'⟩, hcreate, hok⟩ := bind_eq_ok.mp hok
    obtain ⟨n', htogether, hlater, hknown⟩ := h.together.create ht hp hcreate
    have hlater' := h.later htogether hlater
    cases result with
    | error e =>
      cases hok
      exact ⟨n', hlater', hlater⟩
    | ok f =>
      cases hok
      refine ⟨n', ⟨htogether, List.forall_mem_cons.mpr ⟨?_, hlater'.created⟩⟩, hlater⟩
      exact ⟨hp.1, hknown f rfl⟩
  | find_by_name name =>
    obtain ⟨⟨option, fs'⟩, hfind, hok⟩ := bind_eq_ok.mp hok
    cases hok
    have hlooked := (find_by_name_searched hfind).looked
    have hlater : Later fs fs' clusters n n := .looked hlooked
    exact ⟨n, h.later (h.together.looked hlooked) hlater, hlater⟩

theorem Agreed.handle_call (ht : Twins a b) (h : Agreed a b clusters n s) {call : HandleCall}
    (hp : call.Permits a b s) (hok : handle_call a b s call = .ok t) :
    ∃ n', Agreed a b clusters n' t ∧ Later s.1 t.1 clusters n n' := by
  cases call with
  | first op => exact h.dir_op ht hp hok
  | second op =>
    obtain ⟨n', h', hlater⟩ := (h.symm ht).dir_op ht.symm hp hok
    exact ⟨n', h'.symm ht.symm, hlater⟩

/-- A run of permitted calls. -/
theorem Agreed.run (ht : Twins a b) (h : Agreed a b clusters n s)
    (hC : Guarded (FileSystem.handle_call a b) (HandleCall.Permits a b) s calls)
    (hrun : StepSystem.run (FileSystem.handle_call a b) s calls = .ok t) :
    ∃ n', Agreed a b clusters n' t ∧ Later s.1 t.1 clusters n n' := by
  apply invariant (fun t => ∃ n', Agreed a b clusters n' t ∧ Later s.1 t.1 clusters n n') ?_
    ⟨n, h, .looked (.refl _)⟩ hC t (mem_states_of_run hrun)
  rintro u call v ⟨n', hu, hlater⟩ hp hok
  obtain ⟨n'', hv, hlater'⟩ := hu.handle_call ht hp hok
  exact ⟨n'', hv, hlater.trans hlater'⟩

theorem Agreed.both_find (ht : Twins a b) (h : Agreed a b clusters n s) {p : Name × VirtFile}
    (hp : p ∈ s.2) : BothFind s.1 a b p.1 p.2 := by
  obtain ⟨-, k, chain, hknown, hchain, -⟩ := h.created p hp
  obtain ⟨g, fs₁, hfind, hsame⟩ := h.together.found ht hknown hchain
  obtain ⟨g', fs₂, hfind', hsame'⟩ := (h.together.symm ht).found ht.symm hknown hchain
  exact ⟨g, fs₁, g', fs₂, hfind, hsame, hfind', hsame'⟩

/-- The clusters of the handles are those that the FAT has. -/
theorem Together.dirChain_iff (h : Together fs a b clusters n) :
    fs.DirChain a chain ↔ chain = clusters := by
  have howned : fs.DirChain a clusters :=
    ⟨h.owned.chained.chain, h.owned.chained.data, h.owned.first_cluster⟩
  constructor
  · intro hchain
    have hsees := h.owned.sees
    exact Except.ok.inj ((hchain.generate hsees).symm.trans (howned.generate hsees))
  · rintro rfl
    exact howned

theorem Agreed.keepsRecords (h : Agreed a b clusters n s) (h' : Agreed a b clusters n' t)
    (hlater : Later s.1 t.1 clusters n n') : KeepsRecords s.1 t.1 a := by
  intro chain hchain
  cases h.together.dirChain_iff.mp hchain
  refine ⟨clusters, h'.together.dirChain_iff.mpr rfl, List.prefix_refl _, fun k hk => ?_⟩
  rw [h.together.listed.end_index] at hk
  rw [hlater.bpb]
  exact hlater.record k hk

/-- Two handles to a directory agree along every run in which the directory does not have to
grow. -/
theorem handles_agree (h : Subdirectory fs d parent parents m name k clusters n)
    (ha : fs.find_by_name parent name = .ok (some a, fs₁))
    (hb : fs₁.find_by_name parent name = .ok (some b, fs₂))
    (hC : Guarded (handle_call a b) (HandleCall.Permits a b) (fs₂, []) calls) :
    HandlesAgree a b (fs₂, []) calls := by
  obtain ⟨htwins, htogether⟩ := h.find_twice ha hb
  have hstart : Agreed a b clusters n (fs₂, []) :=
    ⟨htogether, fun _ hp => absurd hp List.not_mem_nil⟩
  intro before after t u hprefix ht hu
  have hC' := hC.of_prefix hprefix
  obtain ⟨n₁, hagreed, -⟩ := hstart.run htwins (hC'.of_prefix (List.prefix_append _ _)) ht
  obtain ⟨n₂, hagreed', hlater⟩ := hagreed.run htwins (hC'.of_append ht) hu
  exact ⟨hagreed.keepsRecords hagreed' hlater, fun p hp => hagreed'.both_find htwins hp⟩

end Run

section Floppy

/-- A volume with a directory that has a cluster of 16 blank records. -/
def one_directory : FileSystem :=
  { blank_root with
    device := fun sector =>
      if sector = 2 then .of_numbers [(0, 4, END_OF_CLUSTER), (4, 4, END_OF_CLUSTER),
        (8, 4, END_OF_CLUSTER), (12, 4, END_OF_CLUSTER)]
      else floppy [.new 3 [68] [] .Dir] sector
    free_cluster_cnt := 11 }

theorem subdirectory_one_directory :
    Subdirectory one_directory one_directory.disk root [2] 1 ['D'] 0 [3] 0 where
  directory := by
    refine ⟨?_, List.cons_ne_nil _ _, rfl, by decide, ⟨by decide, ?_, ?_, ?_⟩⟩
    · constructor
      · refine ⟨⟨?_, shows_disk _, ⟨?_, ?_, List.nodup_nil⟩, ?_⟩, disk_root _⟩
        · constructor <;> decide +kernel
        · exact fun c hc => absurd hc List.not_mem_nil
        · exact fun c hc => absurd hc List.not_mem_nil
        · constructor <;> decide +kernel
      · exact .root rfl
      · have hend : END_OF_CLUSTER ≤ one_directory.disk.next 2 := by decide +kernel
        refine ⟨rfl, hend, List.forall_mem_singleton.mpr ⟨?_, ?_⟩⟩ <;> decide +kernel
      · decide
      · decide +kernel
      · decide +kernel
      · decide +kernel
      · decide +kernel
    · decide +kernel
    · decide +kernel
    · intro k hk
      obtain rfl := Nat.succ.inj hk
      decide +kernel
  found := by decide +kernel
  file := by
    have hend : END_OF_CLUSTER ≤ one_directory.disk.next 3 := by decide +kernel
    refine ⟨⟨hend, List.forall_mem_singleton.mpr ⟨?_, ?_⟩, ?_⟩, ?_, ?_, ?_, ?_⟩ <;> decide +kernel
  attr := by decide +kernel
  listed := by
    refine ⟨Nat.zero_le _, ?_, ?_, ?_⟩
    · exact fun k hk => absurd hk (Nat.not_lt_zero k)
    · decide +kernel
    · exact fun k hk => absurd hk (Nat.succ_ne_zero k)

/-- Two searches for the directory. -/
def opened_twice : Except FsPanic (VirtFile × VirtFile × FileSystem) := do
  let first ← one_directory.find_by_name root ['D']
  let second ← first.2.find_by_name root ['D']
  let a ← first.1.elim (.error .notOpen) .ok
  let b ← second.1.elim (.error .notOpen) .ok
  return (a, b, second.2)

theorem opened_twice_ok {r : VirtFile × VirtFile × FileSystem} (h : opened_twice = .ok r) :
    ∃ fs₁, one_directory.find_by_name root ['D'] = .ok (some r.1, fs₁) ∧
      fs₁.find_by_name root ['D'] = .ok (some r.2.1, r.2.2) := by
  obtain ⟨⟨first, fs₁⟩, hfirst, h⟩ := bind_eq_ok.mp h
  obtain ⟨⟨second, fs₂⟩, hsecond, h⟩ := bind_eq_ok.mp h
  obtain ⟨a, ha, h⟩ := bind_eq_ok.mp h
  obtain ⟨b, hb, h⟩ := bind_eq_ok.mp h
  cases h
  cases first with
  | none => cases ha
  | some a' =>
    cases ha
    cases second with
    | none => cases hb
    | some b' =>
      cases hb
      exact ⟨fs₁, hfirst, hsecond⟩

theorem handles_agree_readme : ∃ a fs₁ b fs₂,
    one_directory.find_by_name root ['D'] = .ok (some a, fs₁) ∧
    fs₁.find_by_name root ['D'] = .ok (some b, fs₂) ∧
    HandlesAgree a b (fs₂, []) [.first (.create ['a', '.', 'h', 't', 'm', 'l'] .File),
      .second (.create ['b'] .Dir), .first (.find_by_name ['b'])] := by
  have hrun : Meets opened_twice (fun _ => False) fun r =>
      Guarded (handle_call r.1 r.2.1) (HandleCall.Permits r.1 r.2.1) (r.2.2, [])
        [.first (.create ['a', '.', 'h', 't', 'm', 'l'] .File), .second (.create ['b'] .Dir),
          .first (.find_by_name ['b'])] := by
    decide +kernel
  obtain ⟨⟨a, b, fs₂⟩, hr, hguarded⟩ := hrun.exists_ok
  obtain ⟨fs₁, ha, hb⟩ := opened_twice_ok hr
  exact ⟨a, fs₁, b, fs₂, ha, hb, handles_agree subdirectory_one_directory ha hb hguarded⟩

def long_file_name : Name := List.replicate 200 'a'

/-- The records of a name of 200 characters go into a new cluster, which the other handle has
not. -/
theorem create_behind : Meets opened_twice (fun _ => False) fun r =>
    Meets (run (handle_call r.1 r.2.1) (r.2.2, []) [.first (.create long_file_name .File)])
      (fun _ => False) fun t => t.2.map Prod.fst = [long_file_name] ∧
        Meets (t.1.find_by_name r.2.1 long_file_name) (fun _ => False)
          fun found => found.1.isNone := by
  decide +kernel

theorem not_handles_agree : ∃ a fs₁ b fs₂,
    one_directory.find_by_name root ['D'] = .ok (some a, fs₁) ∧
    fs₁.find_by_name root ['D'] = .ok (some b, fs₂) ∧
    ¬ HandlesAgree a b (fs₂, []) [.first (.create long_file_name .File)] := by
  obtain ⟨⟨a, b, fs₂⟩, hr, hstep⟩ := create_behind.exists_ok
  obtain ⟨fs₁, ha, hb⟩ := opened_twice_ok hr
  obtain ⟨t, ht, hnames, hfind⟩ := hstep.exists_ok
  refine ⟨a, fs₁, b, fs₂, ha, hb, fun hagree => ?_⟩
  obtain ⟨⟨name, f⟩, hp, hname⟩ := List.map_eq_singleton_iff.mp hnames
  obtain ⟨-, hboth⟩ := hagree [] _ (fs₂, []) t (List.prefix_refl _) rfl ht
  obtain ⟨_, _, g', fs₃, -, -, hfound, -⟩ := hboth (name, f) (by rw [hp]; exact List.mem_cons_self)
  rw [show name = long_file_name from hname] at hfound
  cases hfind.of_ok hfound

end Floppy

end FileSystem

end MyGOS.Fat32
