import MyGOS.Fat32.Blanks
import MyGOS.Fat32.Found
import MyGOS.Lib.WriteLog

/-!
# Files as arrays of bytes

Regular files that are written through one handle each. A write to one of them
puts its bytes there and may take clusters that were free; the other files, and
the bytes around the buffer, stay as they were.
-/

namespace MyGOS.Fat32

open Outcome StepSystem FlatArray WriteLog

/-- A call of `write_at` on one of the files. -/
structure FileWrite (ι : Type*) where
  file : ι
  offset : Nat
  buf : List UInt8

/-- The buffer is not empty, and the entry can hold the size. -/
def FileWrite.Fits {ι : Type*} (w : FileWrite ι) : Prop :=
  w.buf ≠ [] ∧ w.offset + w.buf.length < 2 ^ 32

instance {ι : Type*} (w : FileWrite ι) : Decidable w.Fits := inferInstanceAs (Decidable (_ ∧ _))

/-- A byte is not in the entry at the place. -/
def DirEntryPos.Avoids (pos : DirEntryPos) (c k : Nat) : Prop :=
  pos.cluster = c → k < pos.offset_in_cluster ∨ pos.offset_in_cluster + DIRENT_SIZE ≤ k

section Writes

variable {ι : Type*} [DecidableEq ι]

/-- What the calls write to one file. -/
def writes_on (i : ι) (ws : List (FileWrite ι)) : List (Nat × List UInt8) :=
  (ws.filter (·.file = i)).map fun w => (w.offset, w.buf)

theorem writes_on_append (i : ι) (ws ws' : List (FileWrite ι)) :
    writes_on i (ws ++ ws') = writes_on i ws ++ writes_on i ws' := by
  rw [writes_on, List.filter_append, List.map_append, writes_on, writes_on]

theorem writes_on_self (w : FileWrite ι) : writes_on w.file [w] = [(w.offset, w.buf)] := by
  simp [writes_on]

theorem writes_on_of_ne {i : ι} {w : FileWrite ι} (h : i ≠ w.file) : writes_on i [w] = [] := by
  rw [writes_on, List.filter_cons_of_neg fun heq => h (of_decide_eq_true heq).symm]
  rfl

end Writes

namespace FileSystem

variable {ι : Type*} {file : ι → VirtFile} {fs fs' fs'' : FileSystem} {d d' d'' : Disk}
  {clusters clusters' clusters'' : ι → List Nat}

/-- Regular files, with one handle each. -/
structure FileSet (fs : FileSystem) (d : Disk) (file : ι → VirtFile) (clusters : ι → List Nat) :
    Prop where
  sees : Sees fs d
  owned : ∀ i, Owned fs d (file i) (clusters i)
  regular : ∀ i, ¬ (file i).is_dir
  chain_lt : ∀ i, (file i).cluster_chain < fs.next_chain
  chain_ne : ∀ i j, i ≠ j → (file i).cluster_chain ≠ (file j).cluster_chain
  sde_ne : ∀ i j, i ≠ j → (file i).sde_pos ≠ (file j).sde_pos
  disjoint : ∀ i j, i ≠ j → ∀ c ∈ clusters i, c ∉ clusters j
  /-- the entries are in clusters of directories -/
  sde_notMem : ∀ i j, (file i).sde_pos.cluster ∉ clusters j

/-- The bytes of a file are those of its clusters. -/
def capacity (fs : FileSystem) (f : VirtFile) : Nat :=
  fs.bpb.cluster_size * (fs.cluster_vec f).length

def write_step (file : ι → VirtFile) (fs : FileSystem) (w : FileWrite ι) :
    Except FsPanic (FileSystem × Nat) := Prod.swap <$> fs.write_at (file w.file) w.offset w.buf

/-- The free count allows what the file needs, and as many clusters are recycled, or free and above
the one that the scan starts from. -/
def Supplied (fs : FileSystem) (f : VirtFile) (new_size : Nat) : Prop :=
  fs.need_cluster_cnt f new_size ≤ fs.free_cluster_cnt ∧
    fs.need_cluster_cnt f new_size ≤ (fs.disk.blanks (fs.bpb.data_cluster_cnt + 2)
      fs.recycled_cluster ((fs.cluster_vec f).headD NEW_VIRT_FILE_CLUSTER)).card

/-- A write that fits, and for which there are clusters. -/
def Takes (file : ι → VirtFile) (fs : FileSystem) (w : FileWrite ι) : Prop :=
  w.Fits ∧ Supplied fs (file w.file) (w.offset + w.buf.length)

instance (fs : FileSystem) (f : VirtFile) (new_size : Nat) : Decidable (Supplied fs f new_size) :=
  inferInstanceAs (Decidable (_ ∧ _))

instance (fs : FileSystem) (w : FileWrite ι) : Decidable (Takes file fs w) :=
  inferInstanceAs (Decidable (_ ∧ _))

/-- What a file is after some writes: it has the last byte that was written at a place, or the one
that it had, or zero where it had no cluster. -/
structure ReadsAs (fs fs' : FileSystem) (f : VirtFile) (ws : List (Nat × List UInt8)) : Prop where
  mirrors : Mirrors fs' f
  capacity_le : fs.capacity f ≤ fs'.capacity f
  file_size : ∃ size, fs.file_size f = .ok size ∧ fs'.file_size f = .ok (extent size ws) ∧
    extent size ws ≤ fs'.capacity f
  read_at : ∃ bytes, fs.read_at f 0 (fs.capacity f) = .ok bytes ∧
    bytes.length = fs.capacity f ∧ ∀ offset len, fs'.read_at f offset len =
      .ok (slice (fun k => (last k ws).getD (bytes.getD k 0)) offset
        (min (offset + len) (fs'.capacity f) - offset))
  taken : ∀ c ∈ fs'.cluster_vec f, c ∈ fs.cluster_vec f ∨ fs.next c = FREE_CLUSTER

/-- Outside of the files, only their entries differ. -/
def OthersKept (file : ι → VirtFile) (fs fs' : FileSystem) (ws : List (FileWrite ι)) : Prop :=
  ∀ c, fs.bpb.InData c → (∀ i, c ∉ fs'.cluster_vec (file i)) → ∀ k < fs.bpb.cluster_size,
    (∀ w ∈ ws, (file w.file).sde_pos.Avoids c k) →
    fs'.device (fs.bpb.first_sector_of_cluster c + k / BLOCK_SIZE) (k % BLOCK_SIZE) =
      fs.device (fs.bpb.first_sector_of_cluster c + k / BLOCK_SIZE) (k % BLOCK_SIZE)

/-- Every write returns the length of its buffer, and each file is read as its bytes. -/
def RefineBytes [DecidableEq ι] (file : ι → VirtFile) (fs : FileSystem) (ws : List (FileWrite ι)) :
    Prop :=
  ∃ fs', observe (write_step file) fs ws = .ok (fs', ws.map (·.buf.length)) ∧
    (∀ i, ReadsAs fs fs' (file i) (writes_on i ws)) ∧ OthersKept file fs fs' ws

/-- What the writes leave of the files and of the rest of the volume. -/
structure Wrote [DecidableEq ι] (fs fs' : FileSystem) (d d' : Disk) (file : ι → VirtFile)
    (clusters clusters' : ι → List Nat) (ws : List (FileWrite ι)) : Prop where
  files : FileSet fs' d' file clusters'
  bpb : fs'.bpb = fs.bpb
  grown : ∀ i, ∃ added, clusters' i = clusters i ++ added ∧ ∀ c ∈ added, d.next c = FREE_CLUSTER
  file_size : ∀ i, (d'.entry (file i).sde_pos).file_size =
    extent (d.entry (file i).sde_pos).file_size (writes_on i ws)
  content : ∀ i, ∀ k < fs.bpb.cluster_size * (clusters' i).length,
    d'.content fs.bpb.cluster_size (clusters' i) k = (last k (writes_on i ws)).getD
      (if k < fs.bpb.cluster_size * (clusters i).length then
        d.content fs.bpb.cluster_size (clusters i) k
      else 0)
  next : ∀ c, (∀ i, c ∉ clusters' i) → d'.next c = d.next c
  data : ∀ c k, (∀ i, c ∉ clusters' i) → (∀ w ∈ ws, (file w.file).sde_pos.Avoids c k) →
    d'.data c k = d.data c k

section Run

variable [DecidableEq ι] {ws ws' : List (FileWrite ι)} {w : FileWrite ι}

theorem Wrote.refl (h : FileSet fs d file clusters) : Wrote fs fs d d file clusters clusters [] where
  files := h
  bpb := rfl
  grown _ := ⟨[], (List.append_nil _).symm, fun _ hc => absurd hc List.not_mem_nil⟩
  file_size _ := rfl
  content _ _ hk := (if_pos hk).symm
  next _ _ := rfl
  data _ _ _ _ := rfl

/-- The clusters of a file stay its clusters. -/
theorem Wrote.mem (h : Wrote fs fs' d d' file clusters clusters' ws) {i : ι} {c : Nat}
    (hc : c ∈ clusters i) : c ∈ clusters' i := by
  obtain ⟨added, hadded, -⟩ := h.grown i
  rw [hadded]
  exact List.mem_append_left _ hc

theorem Wrote.size_le (h : Wrote fs fs' d d' file clusters clusters' ws) (i : ι) :
    fs.bpb.cluster_size * (clusters i).length ≤ fs.bpb.cluster_size * (clusters' i).length := by
  obtain ⟨added, hadded, -⟩ := h.grown i
  rw [hadded, List.length_append]
  exact Nat.mul_le_mul_left _ (Nat.le_add_right ..)

/-- What is free after the writes was free before them. -/
theorem Wrote.free (h : Wrote fs fs' d d' file clusters clusters' ws) {c : Nat}
    (hc : d'.next c = FREE_CLUSTER) : d.next c = FREE_CLUSTER := by
  rw [← h.next c fun i => (h.files.owned i).chained.notMem hc]
  exact hc

/-- What is written is in the clusters. -/
theorem Wrote.lt (h : Wrote fs fs' d d' file clusters clusters' ws) {i : ι} {k : Nat} {x : UInt8}
    (hk : last k (writes_on i ws) = some x) : k < fs.bpb.cluster_size * (clusters' i).length := by
  have hsize := (h.files.owned i).file_size
  rw [h.file_size, h.bpb] at hsize
  exact (lt_extent _ hk).trans_le hsize

theorem Wrote.trans (h : Wrote fs fs' d d' file clusters clusters' ws)
    (h' : Wrote fs' fs'' d' d'' file clusters' clusters'' ws') :
    Wrote fs fs'' d d'' file clusters clusters'' (ws ++ ws') where
  files := h'.files
  bpb := h'.bpb.trans h.bpb
  grown i := by
    obtain ⟨added, hadded, hfree⟩ := h.grown i
    obtain ⟨added', hadded', hfree'⟩ := h'.grown i
    refine ⟨added ++ added', ?_, List.forall_mem_append.mpr ⟨hfree, fun c hc => ?_⟩⟩
    · rw [hadded', hadded, List.append_assoc]
    · exact h.free (hfree' c hc)
  file_size i := by rw [writes_on_append, extent_append, ← h.file_size, h'.file_size]
  content i k hk := by
    have hcontent := h'.content i k (by rwa [h.bpb])
    rw [h.bpb] at hcontent
    rw [hcontent, writes_on_append, last_append]
    cases last k (writes_on i ws') with
    | some x => rfl
    | none =>
      rw [Option.none_or, Option.getD_none]
      split
      · next hlt => exact h.content i k hlt
      · next hge =>
        -- the cluster was not there in between, so that nothing was written to it
        have hnone : last k (writes_on i ws) = none := by
          cases hlast : last k (writes_on i ws) with
          | none => rfl
          | some x => exact absurd (h.lt hlast) hge
        rw [hnone, Option.getD_none, if_neg fun hlt => hge (hlt.trans_le (h.size_le i))]
  next c hc := (h'.next c hc).trans (h.next c fun i hmem => hc i (h'.mem hmem))
  data c k hc hk := by
    obtain ⟨hws, hws'⟩ := List.forall_mem_append.mp hk
    exact (h'.data c k hc hws').trans (h.data c k (fun i hmem => hc i (h'.mem hmem)) hws)

end Run

section Step

variable {w : FileWrite ι} {added : List Nat}

theorem Supplied.room {f : VirtFile} {new_size : Nat} (h : Supplied fs f new_size)
    (hsees : Sees fs d) : Room fs f new_size := by
  intro hneed _
  exact (Disk.allocs_isSome_iff hsees.disk.recycled hsees.disk.reserved hneed).mpr h.2

/-- The clusters that are added were free. -/
theorem WroteAt.free {f : VirtFile} {clusters : List Nat} {offset : Nat} {buf : List UInt8}
    (h : WroteAt fs fs' d d' f clusters added offset buf) :
    ∀ c ∈ added, d.next c = FREE_CLUSTER := by
  obtain ⟨_, _, _, hgrown, -⟩ := h.written
  exact hgrown.free

section OneFile

variable (h : FileSet fs d file clusters)

include h

theorem FileSet.sde_separate {i j : ι} (hi : i ≠ j) :
    ∀ pos ∈ [(file j).sde_pos], pos.Separate (file i).sde_pos := by
  intro pos hpos
  rw [List.mem_singleton.mp hpos]
  exact DirEntryPos.separate_of_ne (h.owned j).sde_pos.aligned (h.owned i).sde_pos.aligned
    (h.sde_ne _ _ hi.symm)

theorem FileSet.next_ne_free {i : ι} : ∀ c ∈ clusters i, d.next c ≠ FREE_CLUSTER :=
  (h.owned i).next_ne_free

variable [DecidableEq ι]
  (hw : WroteAt fs fs' d d' (file w.file) (clusters w.file) added w.offset w.buf)

include hw

/-- The files after a write to one of them. -/
theorem FileSet.wrote : FileSet fs' d' file
    (Function.update clusters w.file (clusters w.file ++ added)) where
  sees := hw.owned.sees
  owned i := by
    by_cases hi : i = w.file
    · subst hi
      rw [Function.update_self]
      exact hw.owned
    · rw [Function.update_of_ne hi]
      exact (h.owned i).beside hw.beside (h.chain_lt i) (h.chain_ne _ _ hi) (h.disjoint _ _ hi)
        (h.sde_notMem _ _) (h.sde_separate hi)
  regular := h.regular
  chain_lt i := (h.chain_lt i).trans_le hw.beside.next_chain
  chain_ne := h.chain_ne
  sde_ne := h.sde_ne
  disjoint i j hij c hi hj := by
    by_cases hiw : i = w.file
    · subst hiw
      rw [Function.update_self] at hi
      rw [Function.update_of_ne hij.symm] at hj
      rcases List.mem_append.mp hi with hi | hi
      · exact h.disjoint _ _ hij c hi hj
      · exact h.next_ne_free c hj (hw.free c hi)
    · rw [Function.update_of_ne hiw] at hi
      by_cases hjw : j = w.file
      · subst hjw
        rw [Function.update_self] at hj
        rcases List.mem_append.mp hj with hj | hj
        · exact h.disjoint _ _ hij c hi hj
        · exact h.next_ne_free c hi (hw.free c hj)
      · rw [Function.update_of_ne hjw] at hj
        exact h.disjoint _ _ hij c hi hj
  sde_notMem i j hmem := by
    by_cases hj : j = w.file
    · subst hj
      rw [Function.update_self] at hmem
      rcases List.mem_append.mp hmem with hmem | hmem
      · exact h.sde_notMem i _ hmem
      · exact (h.owned i).in_use (hw.free _ hmem)
    · rw [Function.update_of_ne hj] at hmem
      exact h.sde_notMem i j hmem

theorem FileSet.wrote_one (hfits : w.Fits) : Wrote fs fs' d d' file clusters
    (Function.update clusters w.file (clusters w.file ++ added)) [w] where
  files := h.wrote hw
  bpb := hw.beside.bpb
  grown i := by
    by_cases hi : i = w.file
    · subst hi
      exact ⟨added, Function.update_self .., hw.free⟩
    · rw [Function.update_of_ne hi]
      exact ⟨[], (List.append_nil _).symm, fun _ hc => absurd hc List.not_mem_nil⟩
  file_size i := by
    by_cases hi : i = w.file
    · subst hi
      rw [writes_on_self, extent_singleton, hw.file_size, if_neg (h.regular _),
        Nat.mod_eq_of_lt hfits.2]
      show _ = max _ (w.offset + w.buf.length)
      split
      · next hle => exact (Nat.max_eq_left hle).symm
      · next hlt => exact (Nat.max_eq_right (not_le.mp hlt).le).symm
    · rw [writes_on_of_ne hi, extent_nil]
      exact congrArg Dirent.file_size
        (hw.beside.entry (h.sde_notMem _ _) (h.owned i).in_use (h.sde_separate hi))
  content i k hk := by
    by_cases hi : i = w.file
    · subst hi
      rw [Function.update_self] at hk ⊢
      rw [writes_on_self, last_singleton, getD_value _ _ _ 0]
      exact hw.content (h.owned _) hk
    · rw [Function.update_of_ne hi] at hk ⊢
      rw [writes_on_of_ne hi, last_nil, Option.getD_none, if_pos hk]
      apply (h.owned i).content_beside hw.beside (h.disjoint _ _ hi) hk
      intro pos hpos heq
      rw [List.mem_singleton.mp hpos,
        List.getD_eq_getElem _ _ (Nat.div_lt_of_lt_mul hk)] at heq
      exact absurd (heq ▸ List.getElem_mem _) (h.sde_notMem w.file i)
  next c hc := by
    have hmem := hc w.file
    rw [Function.update_self, List.mem_append, not_or] at hmem
    exact hw.beside.next c hmem.1 hmem.2
  data c k hc hk := by
    have hmem := hc w.file
    rw [Function.update_self, List.mem_append, not_or] at hmem
    apply hw.beside.data c k hmem.1 hmem.2
    intro pos hpos
    rw [List.mem_singleton.mp hpos]
    exact hk w (List.mem_singleton_self w)

end OneFile

/-- A write for which there are clusters. -/
theorem FileSet.step [DecidableEq ι] (h : FileSet fs d file clusters) (hfits : w.Fits)
    (hs : Supplied fs (file w.file) (w.offset + w.buf.length)) :
    ∃ fs' d' clusters', write_step file fs w = .ok (fs', w.buf.length) ∧
      Wrote fs fs' d d' file clusters clusters' [w] := by
  have howned := h.owned w.file
  have hwrite := (howned.write_at hfits.1 (hs.room howned.sees)).mono_error
    (F := fun _ => False) fun _ he => absurd he.2 (not_lt.mpr hs.1)
  obtain ⟨⟨n, fs'⟩, hok, rfl, d', added, hw⟩ := hwrite.exists_ok
  exact ⟨fs', d', _, by rw [write_step, hok]; rfl, h.wrote_one hw hfits⟩

end Step

section Refine

variable [DecidableEq ι] {ws : List (FileWrite ι)}

theorem FileSet.run (h : FileSet fs d file clusters)
    (hC : Guarded (silent (write_step file)) (Takes file) fs ws) :
    ∃ fs' d' clusters', observe (write_step file) fs ws = .ok (fs', ws.map (·.buf.length)) ∧
      Wrote fs fs' d d' file clusters clusters' ws := by
  induction ws generalizing fs d clusters with
  | nil => exact ⟨fs, d, clusters, rfl, .refl h⟩
  | cons w ws ih =>
    obtain ⟨⟨hfits, hs⟩, hrest⟩ := hC
    obtain ⟨fs₁, d₁, clusters₁, hok, hone⟩ := h.step hfits hs
    simp only [silent, hok, Except.map] at hrest
    obtain ⟨fs', d', clusters', hrun, hall⟩ := ih hone.files hrest
    refine ⟨fs', d', clusters', ?_, hone.trans hall⟩
    rw [observe_cons, hok]
    simp only [bind, Except.bind, hrun]
    rfl

theorem Wrote.readsAs (hw : Wrote fs fs' d d' file clusters clusters' ws)
    (h : FileSet fs d file clusters) (i : ι) : ReadsAs fs fs' (file i) (writes_on i ws) := by
  have hi := h.owned i
  have hi' := hw.files.owned i
  have hL := hi.sees.layout
  have hvec := hi.chained.vec
  have hvec' := hi'.chained.vec
  have hcap : fs.capacity (file i) = fs.bpb.cluster_size * (clusters i).length := by
    rw [capacity, hvec]
  have hcap' : fs'.capacity (file i) = fs.bpb.cluster_size * (clusters' i).length := by
    rw [capacity, hvec', hw.bpb]
  constructor
  · exact hi'.mirrors
  · rw [hcap, hcap']
    exact hw.size_le i
  · refine ⟨_, hi.sees.file_size hi.sde_pos, ?_, ?_⟩
    · rw [hi'.sees.file_size hi'.sde_pos, hw.file_size]
    · rw [← hw.file_size, capacity, hvec']
      exact hi'.file_size
  · refine ⟨_, read_at_eq hL hi.sees.shows_disk (hvec.symm ▸ hi.chained.data) .., ?_, ?_⟩
    · rw [length_slice, hcap, hvec]
      omega
    · intro offset len
      rw [read_at_eq hi'.sees.layout hi'.sees.shows_disk (hvec'.symm ▸ hi'.chained.data), hvec',
        hvec, hw.bpb, hcap, hcap']
      congr 1
      apply slice_congr
      intro k hk hk'
      rw [hw.content i k (by omega), getD_slice, Nat.zero_add, Nat.zero_add, Nat.min_self,
        Nat.sub_zero]
  · intro c hc
    rw [hvec'] at hc
    rw [hvec]
    obtain ⟨added, hadded, hfree⟩ := hw.grown i
    rw [hadded] at hc
    refine (List.mem_append.mp hc).imp_right fun hmem => ?_
    have hdata := hi'.chained.data c (hadded ▸ List.mem_append_right _ hmem)
    rw [next_eq_of_shows hL hi.sees.shows_disk (hw.bpb ▸ hdata.2)]
    exact hfree c hmem

theorem Wrote.othersKept (hw : Wrote fs fs' d d' file clusters clusters' ws)
    (h : FileSet fs d file clusters) : OthersKept file fs fs' ws := by
  intro c hc hnot k hk hentries
  have hshows := hw.files.sees.shows_disk.data c (hw.bpb ▸ hc) k (hw.bpb ▸ hk)
  rw [hw.bpb] at hshows
  rw [hshows, h.sees.shows_disk.data c hc k hk]
  refine hw.data c k (fun i => ?_) hentries
  rw [← (hw.files.owned i).chained.vec]
  exact hnot i

/-- Files of which every write finds its clusters are arrays of bytes. -/
theorem files_refine_bytes (h : FileSet fs d file clusters)
    (hC : Guarded (silent (write_step file)) (Takes file) fs ws) : RefineBytes file fs ws := by
  obtain ⟨fs', d', clusters', hrun, hw⟩ := h.run hC
  exact ⟨fs', hrun, hw.readsAs h, hw.othersKept h⟩

end Refine

section FullVolume

/-- The FAT of a volume of 126 clusters. The one of a first file is 4, that of a second one is 2,
the root directory has 5, and a third file has those from 6 on; cluster 3 is free. -/
def full_fat (c : Nat) : Nat :=
  if c = 3 then FREE_CLUSTER else if 6 ≤ c ∧ c < 127 then c + 1 else END_OF_CLUSTER

def full_device : BlockDevice
  | 0 => .of_numbers [(11, 2, BLOCK_SIZE), (13, 1, 1), (14, 2, 2), (16, 1, 1), (32, 4, 129),
      (36, 4, 1), (44, 4, 5), (48, 2, 1)]
  | 1 => .of_numbers [(0, 4, LEAD_SIGNATURE), (484, 4, STRUCT_SIGNATURE), (488, 4, 1),
      (508, 4, TRAIL_SIGNATURE)]
  | 2 => fun i => UInt8.ofNat (full_fat (i / 4) / 2 ^ (8 * (i % 4)))
  | 6 => fun i => ([(Dirent.new 4 [0x41] [] .File).set_file_size 512,
      (Dirent.new 2 [0x42] [] .File).set_file_size 512,
      (Dirent.new 6 [0x43] [] .File).set_file_size 62464][i / DIRENT_SIZE]?.map
        fun e => e (Fin.ofNat 32 i)).getD 0
  | _ => fun _ => 0

/-- The volume with handles to its first two files. -/
def full_volume : FileSystem where
  device := full_device
  free_cluster_cnt := 1
  bpb := .of_block (full_device 0)
  recycled_cluster := []
  root_dir_entry := .new 5 [ROOT] [] .Dir
  chains n := if n = 1 then [4] else if n = 2 then [2] else []
  next_chain := 3

def full_files : Bool → VirtFile
  | true => ⟨['A'], ⟨5, 0⟩, [], 1, .File⟩
  | false => ⟨['B'], ⟨5, 32⟩, [], 2, .File⟩

def full_clusters : Bool → List Nat
  | true => [4]
  | false => [2]

theorem full_volume_sees : Sees full_volume full_volume.disk := by
  refine ⟨⟨?_, shows_disk _, ⟨?_, ?_, List.nodup_nil⟩, ?_⟩, disk_root _⟩
  · constructor <;> decide +kernel
  · exact fun c hc => absurd hc List.not_mem_nil
  · exact fun c hc => absurd hc List.not_mem_nil
  · constructor <;> decide +kernel

theorem full_volume_files : FileSet full_volume full_volume.disk full_files full_clusters where
  sees := full_volume_sees
  owned i := by
    cases i
    all_goals
      constructor
      · exact full_volume_sees
      · refine .disk ⟨⟨?_, ?_⟩, ?_, ?_⟩ <;> decide +kernel
      · refine ⟨rfl, ?_, List.forall_mem_singleton.mpr ⟨?_, ?_⟩⟩
        · show END_OF_CLUSTER ≤ full_volume.disk.next _
          decide +kernel
        · decide +kernel
        · decide +kernel
      · decide +kernel
      · decide +kernel
      · decide +kernel
      · decide +kernel
      · decide +kernel
  regular := by decide
  chain_lt := by decide
  chain_ne := by decide
  sde_ne := by decide
  disjoint := by decide
  sde_notMem := by decide

theorem files_refine_bytes_full_volume :
    RefineBytes full_files full_volume [⟨false, 512, [7]⟩, ⟨true, 0, [8]⟩] :=
  files_refine_bytes full_volume_files (by decide +kernel)

theorem full_volume_run : Meets (observe (write_step full_files) full_volume [⟨true, 512, [7]⟩])
    (fun _ => False) fun r => r.1.read_at (full_files false) 0 1 = .ok [0xF8] := by
  decide +kernel

theorem full_volume_zero : Meets (full_volume.read_at (full_files false) 0
    (full_volume.capacity (full_files false))) (fun _ => False) fun bytes => bytes.getD 0 0 = 0 := by
  decide +kernel

/-- The free cluster is below that of the first file. The scan goes on behind the FAT, where the
second file has a zero, and the link of the new cluster replaces bytes of the second file. -/
theorem not_files_refine_bytes : FileSet full_volume full_volume.disk full_files full_clusters ∧
    full_volume.free_cluster_cnt =
      ((Finset.Ico 2 (full_volume.bpb.data_cluster_cnt + 2)).filter
        fun c => full_volume.next c = FREE_CLUSTER).card ∧
    FileWrite.Fits (⟨true, 512, [7]⟩ : FileWrite Bool) ∧
    full_volume.need_cluster_cnt (full_files true) (512 + 1) ≤ full_volume.free_cluster_cnt ∧
    ¬ RefineBytes full_files full_volume [⟨true, 512, [7]⟩] := by
  refine ⟨full_volume_files, by decide +kernel, by decide, by decide +kernel, ?_⟩
  rintro ⟨fs', hrun, hreads, -⟩
  have hread := full_volume_run.of_ok hrun
  obtain ⟨bytes, hbytes, -, hslice⟩ := (hreads false).read_at
  have hzero := full_volume_zero.of_ok hbytes
  rw [hslice 0 1] at hread
  have hfirst := congrArg (List.getD · 0 0) (Except.ok.inj hread)
  rw [getD_slice, Nat.zero_add, writes_on_of_ne Bool.false_ne_true, last_nil, Option.getD_none,
    hzero, ite_self] at hfirst
  exact absurd hfirst (by decide)

end FullVolume

end FileSystem

end MyGOS.Fat32
