import MyGOS.Lib.NodeTree
import MyGOS.Lib.StepSystem
import MyGOS.Mm.PteBits

/-!
# The walk through a page table

The page table in memory: a node is a frame of 512 entries, and each of the two
walks reads the frame of the next node from an entry. One of them stops at an
entry that is not valid, the other one puts a new frame there.
-/

namespace MyGOS.Mm

open Outcome NodeTree StepSystem

namespace Sv39

/-- `VirtPageNum::indexes`: the three groups of nine bits, the highest first. -/
def indexes (vpn : Nat) : List (Fin 512) :=
  [Fin.ofNat 512 (vpn >>> 18), Fin.ofNat 512 (vpn >>> 9), Fin.ofNat 512 vpn]

structure PageTable where
  root_ppn : Nat
  frames : List Nat

/-- The table, the frames of memory as rows of entries, and the frames that
`alloc_frame` is going to hand out. -/
structure State where
  table : PageTable
  mem : Nat → Fin 512 → PteBits
  supply : List Nat

namespace State

/-- `alloc_frame().unwrap()`: the frame is zeroed. -/
def alloc_frame (s : State) : Except Panic (Nat × State) :=
  match s.supply with
  | [] => .error .outOfMemory
  | frame :: supply =>
    .ok (frame, { s with mem := Function.update s.mem frame fun _ => 0, supply := supply })

def write_pte (s : State) (place : Nat × Fin 512) (pte : PteBits) : State :=
  { s with mem := set s.mem place.1 place.2 pte }

/-- The entry `idx` of the node `ppn` gets a node when it has none. -/
def create_node (s : State) (ppn : Nat) (idx : Fin 512) : Except Panic State := do
  if ← (s.mem ppn idx).is_valid then return s
  else
    let (frame, s) ← s.alloc_frame
    let s := s.write_pte (ppn, idx) (.new frame PTEFlags.V)
    return { s with table := { s.table with frames := s.table.frames ++ [frame] } }

def create_loop : List (Fin 512) → Nat → State → Except Panic (Option (Nat × Fin 512) × State)
  | [], _, s => .ok (none, s)
  | [idx], ppn, s => .ok (some (ppn, idx), s)
  | idx :: idxs, ppn, s => do
    let s ← s.create_node ppn idx
    create_loop idxs (s.mem ppn idx).ppn s

/-- The place of the entry of `vpn`; the frames on the way are created. -/
def find_pte_create (s : State) (vpn : Nat) : Except Panic (Option (Nat × Fin 512) × State) :=
  create_loop (indexes vpn) s.table.root_ppn s

def find_loop (mem : Nat → Fin 512 → PteBits) :
    List (Fin 512) → Nat → Except Panic (Option (Nat × Fin 512))
  | [], _ => .ok none
  | [idx], ppn => do
    let valid ← (mem ppn idx).is_valid
    return if valid then some (ppn, idx) else none
  | idx :: idxs, ppn => do
    let valid ← (mem ppn idx).is_valid
    if valid then find_loop mem idxs (mem ppn idx).ppn else return none

def find_pte (s : State) (vpn : Nat) : Except Panic (Option (Nat × Fin 512)) :=
  find_loop s.mem (indexes vpn) s.table.root_ppn

def translate (s : State) (vpn : Nat) : Except Panic (Option PteBits) := do
  return (← s.find_pte vpn).map fun place => s.mem place.1 place.2

def map (s : State) (vpn ppn : Nat) (flags : PTEFlags) : Except Panic State := do
  match ← s.find_pte_create vpn with
  | (none, _) => .error .outOfBounds
  | (some place, s) =>
    if ← (s.mem place.1 place.2).is_valid then .error (.mappedBefore vpn)
    else return s.write_pte place (.new ppn (flags ||| PTEFlags.V))

def unmap (s : State) (vpn : Nat) : Except Panic State := do
  match ← s.find_pte vpn with
  | none => return s
  | some place =>
    if ← (s.mem place.1 place.2).is_valid then return s.write_pte place 0
    else .error .assertion

/-- `find_pte_create(vpn).unwrap()` and an update of the entry. -/
def update_pte (s : State) (vpn : Nat) (f : PteBits → Except Panic PteBits) :
    Except Panic State := do
  match ← s.find_pte_create vpn with
  | (none, _) => .error .outOfBounds
  | (some place, s) =>
    let pte ← f (s.mem place.1 place.2)
    return s.write_pte place pte

def set_cow (s : State) (vpn : Nat) : Except Panic State :=
  s.update_pte vpn fun pte => return pte.set_cow

def reset_cow (s : State) (vpn : Nat) : Except Panic State :=
  s.update_pte vpn fun pte => return pte.reset_cow

def set_flags (s : State) (vpn : Nat) (flags : PTEFlags) : Except Panic State :=
  s.update_pte vpn fun pte => return pte.set_flags flags

/-- The copy fills the whole frame `ppn`. -/
def remap_cow (s : State) (vpn ppn former_ppn : Nat) : Except Panic State := do
  let s ← s.update_pte vpn fun pte => return .new ppn ((← pte.flags) ||| PTEFlags.W)
  return { s with mem := Function.update s.mem ppn (s.mem former_ppn) }

end State

inductive Op where
  | map (vpn ppn : Nat) (flags : PTEFlags)
  | unmap (vpn : Nat)
  | set_flags (vpn : Nat) (flags : PTEFlags)
  | set_cow (vpn : Nat)
  | reset_cow (vpn : Nat)
  | remap_cow (vpn ppn former_ppn : Nat)

def Op.apply (s : State) : Op → Except Panic State
  | map vpn ppn flags => s.map vpn ppn flags
  | unmap vpn => s.unmap vpn
  | set_flags vpn flags => s.set_flags vpn flags
  | set_cow vpn => s.set_cow vpn
  | reset_cow vpn => s.reset_cow vpn
  | remap_cow vpn ppn former_ppn => s.remap_cow vpn ppn former_ppn

/-- `PageTable::new` on the frame `root`. -/
def new (mem : Nat → Fin 512 → PteBits) (root : Nat) : State :=
  ⟨⟨root, [root]⟩, Function.update mem root fun _ => 0, []⟩

/-- An operation, and the frames that `alloc_frame` hands out during it. -/
def State.step (s : State) (x : Op × List Nat) : Except Panic State :=
  x.1.apply { s with supply := x.2 }

/-- The node an entry leads to. -/
def link (pte : PteBits) : Option Nat := if pte.getLsbD 0 then some pte.ppn else none

namespace State

def walk (s : State) (p : List (Fin 512)) : Option Nat :=
  NodeTree.walk link s.mem s.table.root_ppn p

/-- Each node is reached along one path, and is a frame of the table. -/
structure Wf (s : State) : Prop where
  reach : ∀ p n, p.length ≤ 2 → s.walk p = some n → n ∈ s.table.frames
  separate : Separate link s.mem s.table.root_ppn 2
  clean : ∀ n ∈ s.table.frames, ∀ i, (s.mem n i).Clean

/-- The frames to come are different from each other and from those of the table. -/
structure Supplied (s : State) : Prop where
  nodup : s.supply.Nodup
  fresh : ∀ f ∈ s.supply, f ∉ s.table.frames ∧ f < 2 ^ 44

/-- The valid entry at the end of a path. -/
def look (s : State) (p : List (Fin 512)) (k : Fin 512) : Option PteBits :=
  (s.walk p).bind fun n => if (s.mem n k).getLsbD 0 then some (s.mem n k) else none

variable {s s' : State} {p q : List (Fin 512)} {n f : Nat} {i k : Fin 512} {pte : PteBits}
  {row : Fin 512 → PteBits}

theorem Wf.walk_ne (h : Wf s) (hf : f ∉ s.table.frames) (hp : p.length ≤ 2) : s.walk p ≠ some f :=
  fun hwalk => hf (h.reach p f hp hwalk)

theorem Wf.walk_update (h : Wf s) (hf : f ∉ s.table.frames) (hp : p.length ≤ 2) :
    walk { s with mem := Function.update s.mem f row } p = s.walk p := by
  apply walk_update_of_ne
  exact fun q hq => h.walk_ne hf (by omega)

/-- A frame that is not of the table may hold anything. -/
theorem Wf.update (h : Wf s) (hf : f ∉ s.table.frames) (row : Fin 512 → PteBits) :
    Wf { s with mem := Function.update s.mem f row } where
  reach p n hp hn := by
    rw [h.walk_update hf hp] at hn
    exact h.reach p n hp hn
  separate p q n hp hq hn hn' := by
    have hn := (h.walk_update hf hp).symm.trans hn
    have hn' := (h.walk_update hf hq).symm.trans hn'
    exact h.separate p q n hp hq hn hn'
  clean n hn i := by
    have hne : n ≠ f := fun heq => hf (heq ▸ hn)
    simp only [Function.update_of_ne hne]
    exact h.clean n hn i

theorem Wf.look_update (h : Wf s) (hf : f ∉ s.table.frames) (row : Fin 512 → PteBits)
    (hp : p.length ≤ 2) (k : Fin 512) :
    look { s with mem := Function.update s.mem f row } p k = s.look p k := by
  rw [look, h.walk_update hf hp, look]
  cases hn : s.walk p with
  | none => rfl
  | some n =>
    have hne : n ≠ f := fun heq => hf (heq ▸ h.reach p n hp hn)
    simp only [Option.bind_some, Function.update_of_ne hne]

/-- An update of an entry at the bottom. -/
theorem Wf.write_pte (h : Wf s) (hp : p.length = 2) (hn : s.walk p = some n) (hpte : pte.Clean) :
    Wf (s.write_pte (n, k) pte) ∧ ∀ q j, q.length = 2 → (s.write_pte (n, k) pte).look q j =
      if q = p ∧ j = k then if pte.getLsbD 0 then some pte else none else s.look q j := by
  have hwalk : ∀ q, q.length ≤ 2 → (s.write_pte (n, k) pte).walk q = s.walk q :=
    fun q hq => walk_set_bottom h.separate hp hn k pte hq
  refine ⟨⟨fun q m hq hm => ?_, fun q q' m hq hq' hm hm' => ?_, fun m hm j => ?_⟩,
    fun q j hq => ?_⟩
  · rw [hwalk q hq] at hm
    exact h.reach q m hq hm
  · have hm := (hwalk q hq).symm.trans hm
    have hm' := (hwalk q' hq').symm.trans hm'
    exact h.separate q q' m hq hq' hm hm'
  · by_cases hmj : m = n ∧ j = k
    · obtain ⟨rfl, rfl⟩ := hmj
      simp only [State.write_pte, set_self]
      exact hpte
    · simp only [State.write_pte]
      rw [set_of_ne s.mem pte fun hmn hjk => hmj ⟨hmn, hjk⟩]
      exact h.clean m hm j
  · rw [look, hwalk q hq.le, look]
    by_cases hqj : q = p ∧ j = k
    · obtain ⟨rfl, rfl⟩ := hqj
      simp only [hn, State.write_pte, Option.bind_some, set_self, and_self, if_true]
    · rw [if_neg hqj]
      cases hm : s.walk q with
      | none => rfl
      | some m =>
        have hcell : set s.mem n k pte m j = s.mem m j := by
          apply set_of_ne
          rintro rfl rfl
          exact hqj ⟨h.separate q p m hq.le hp.le hm hn, rfl⟩
        simp only [State.write_pte, Option.bind_some, hcell]

/-- The walk that creates nothing. -/
theorem Wf.find_loop_eq (h : Wf s) (k : Fin 512) (hq : q.length + p.length = 2)
    (hn : s.walk q = some n) : find_loop s.mem (p ++ [k]) n = .ok ((s.walk (q ++ p)).bind fun m =>
      if (s.mem m k).getLsbD 0 then some (m, k) else none) := by
  have hclean : ∀ i, (s.mem n i).Clean := h.clean n (h.reach q n (by omega) hn)
  induction p generalizing q n with
  | nil =>
    rw [List.append_nil, hn, List.nil_append, find_loop, PteBits.is_valid_eq (hclean k)]
    rfl
  | cons i p ih =>
    rw [List.length_cons] at hq
    have hcell : s.walk (q ++ [i]) = link (s.mem n i) := by
      rw [walk, walk_concat, ← walk, hn, Option.bind_some]
    have hsplit : q ++ i :: p = (q ++ [i]) ++ p := by
      rw [List.append_assoc, List.singleton_append]
    rw [List.cons_append, find_loop, PteBits.is_valid_eq (hclean i)]
    · by_cases hv : (s.mem n i).getLsbD 0
      · rw [link, if_pos hv] at hcell
        have hlen : (q ++ [i]).length + p.length = 2 := by
          rw [List.length_append, List.length_singleton]
          omega
        rw [hsplit, ← ih hlen hcell (h.clean _ (h.reach (q ++ [i]) _ (by omega) hcell))]
        simp only [bind, Except.bind, hv, if_true]
      · rw [link, if_neg hv] at hcell
        rw [hsplit, walk, walk_append, ← walk, hcell]
        simp only [bind, Except.bind, hv, pure, Except.pure, Option.bind_none,
          Bool.false_eq_true, if_false]
    · exact fun hnil => by simp at hnil

theorem walk_root (s : State) : s.walk [] = some s.table.root_ppn := rfl

/-- The path to the node of a page, and the entry of the page in that node. -/
def node_path (vpn : Nat) : List (Fin 512) := [Fin.ofNat 512 (vpn >>> 18), Fin.ofNat 512 (vpn >>> 9)]

theorem length_node_path (vpn : Nat) : (node_path vpn).length = 2 := rfl

theorem indexes_eq (vpn : Nat) : indexes vpn = node_path vpn ++ [Fin.ofNat 512 vpn] := rfl

theorem Wf.find_pte_eq (h : Wf s) (vpn : Nat) :
    s.find_pte vpn = .ok ((s.walk (node_path vpn)).bind fun m =>
      if (s.mem m (Fin.ofNat 512 vpn)).getLsbD 0 then some (m, Fin.ofNat 512 vpn) else none) := by
  rw [find_pte, indexes_eq, h.find_loop_eq _ (by rfl) s.walk_root, List.nil_append]

theorem Wf.translate_eq (h : Wf s) (vpn : Nat) :
    s.translate vpn = .ok (s.look (node_path vpn) (Fin.ofNat 512 vpn)) := by
  rw [translate, h.find_pte_eq, look]
  cases s.walk (node_path vpn) with
  | none => rfl
  | some m =>
    simp only [bind, Except.bind, pure, Except.pure, Option.bind_some]
    split <;> rfl

/-- What the creation of nodes keeps. -/
structure Grows (s t : State) : Prop where
  wf : Wf t
  supplied : Supplied t
  root : t.table.root_ppn = s.table.root_ppn
  walk : ∀ q m, q.length ≤ 2 → s.walk q = some m → t.walk q = some m
  look : ∀ q j, q.length = 2 → t.look q j = s.look q j

theorem Grows.refl (h : Wf s) (hs : Supplied s) : Grows s s :=
  ⟨h, hs, rfl, fun _ _ _ hm => hm, fun _ _ _ => rfl⟩

theorem Grows.trans {u : State} (h : Grows s s') (h' : Grows s' u) : Grows s u where
  wf := h'.wf
  supplied := h'.supplied
  root := h'.root.trans h.root
  walk q m hq hm := h'.walk q m hq (h.walk q m hq hm)
  look q j hq := (h'.look q j hq).trans (h.look q j hq)

theorem link_new (hf : f < 2 ^ 44) : link (PteBits.new f PTEFlags.V) = some f := by
  have hv : (PteBits.new f PTEFlags.V).getLsbD 0 = true := by
    rw [PteBits.getLsbD_new_low f PTEFlags.V (by decide), PteBits.getLsbD_flags_bits]
    rfl
  rw [link, if_pos hv, PteBits.ppn_new hf]

/-- A node at the top, at an entry that had none. -/
theorem Wf.new_node (h : Wf s) (hs : Supplied s) (hp : p.length < 2) (hn : s.walk p = some n)
    (hcell : link (s.mem n i) = none) {rest : List Nat} (hsupply : s.supply = f :: rest) :
    let t : State := ⟨⟨s.table.root_ppn, s.table.frames ++ [f]⟩,
      set (Function.update s.mem f fun _ => 0) n i (.new f PTEFlags.V), rest⟩
    Grows s t ∧ t.walk (p ++ [i]) = some f := by
  intro t
  obtain ⟨hfresh, hlt⟩ := hs.fresh f (by rw [hsupply]; exact List.mem_cons_self)
  have hnodup := hs.nodup
  rw [hsupply, List.nodup_cons] at hnodup
  have hne : n ≠ f := fun heq => hfresh (heq ▸ h.reach p n (by omega) hn)
  -- the frame is zeroed while no entry leads to it
  let u : State := { s with mem := Function.update s.mem f fun _ => 0 }
  have hu : Wf u := h.update hfresh _
  have hwalk : ∀ q, q.length ≤ 2 → u.walk q = s.walk q := fun q hq => h.walk_update hfresh hq
  have hun : u.walk p = some n := by rw [hwalk p (by omega), hn]
  have hucell : link (u.mem n i) = none := by
    simp only [u, Function.update_of_ne hne]
    exact hcell
  have hunreached : ∀ q, q.length ≤ 2 → u.walk q ≠ some f := by
    intro q hq
    rw [hwalk q hq]
    exact h.walk_ne hfresh hq
  have hempty : ∀ j, link (u.mem f j) = none := by
    intro j
    simp only [u, Function.update_self]
    rfl
  have htwalk : ∀ q, q.length ≤ 2 → t.walk q = if q = p ++ [i] then some f else s.walk q := by
    intro q hq
    rw [← hwalk q hq]
    exact walk_set_link hu.separate hp hun hucell (link_new hlt) hunreached hempty hq
  have hpath : (p ++ [i]).length ≤ 2 := by
    rw [List.length_append, List.length_singleton]
    omega
  have hsold : s.walk (p ++ [i]) = none := by
    rw [walk, walk_concat, ← walk, hn]
    exact hcell
  have hcells : ∀ m j, (m = n → j ≠ i) → m ≠ f → t.mem m j = s.mem m j := by
    intro m j hmj hmf
    have hset : t.mem m j = u.mem m j := set_of_ne u.mem _ hmj
    rw [hset]
    simp only [u, Function.update_of_ne hmf]
  have hzero : ∀ j, t.mem f j = 0 := by
    intro j
    have hset : t.mem f j = u.mem f j := set_of_ne u.mem _ fun heq => absurd heq.symm hne
    rw [hset]
    simp only [u, Function.update_self]
  refine ⟨⟨⟨fun q m hq hm => ?_, ?_, fun m hm j => ?_⟩, ⟨hnodup.2, fun g hg => ?_⟩, rfl,
    fun q m hq hm => ?_, fun q j hq => ?_⟩, ?_⟩
  · rw [htwalk q hq] at hm
    split at hm
    · cases hm
      exact List.mem_append_right _ (List.mem_singleton_self f)
    · exact List.mem_append_left _ (h.reach q m hq hm)
  · exact hu.separate.set_link hp hun hucell (link_new hlt) hunreached hempty
  · rcases List.mem_append.mp hm with hm | hm
    · by_cases hmj : m = n ∧ j = i
      · obtain ⟨rfl, rfl⟩ := hmj
        simp only [t, set_self]
        exact PteBits.clean_new f PTEFlags.V
      · rw [hcells m j (fun hmn hji => hmj ⟨hmn, hji⟩) fun heq => hfresh (heq ▸ hm)]
        exact h.clean m hm j
    · rw [List.mem_singleton.mp hm, hzero]
      rfl
  · have hold := hs.fresh g (by rw [hsupply]; exact List.mem_cons_of_mem _ hg)
    refine ⟨fun hmem => ?_, hold.2⟩
    rcases List.mem_append.mp hmem with hmem | hmem
    · exact hold.1 hmem
    · rw [List.mem_singleton.mp hmem] at hg
      exact hnodup.1 hg
  · rw [htwalk q hq, if_neg, hm]
    rintro rfl
    rw [hsold] at hm
    cases hm
  · rw [State.look, State.look, htwalk q hq.le]
    by_cases hqp : q = p ++ [i]
    · rw [if_pos hqp, hqp, hsold]
      simp only [Option.bind_some, Option.bind_none, hzero]
      rfl
    · rw [if_neg hqp]
      cases hm : s.walk q with
      | none => rfl
      | some m =>
        have hmf : m ≠ f := fun heq => h.walk_ne hfresh hq.le (heq ▸ hm)
        have hmn : m = n → j ≠ i := by
          rintro rfl
          have heq := h.separate q p m hq.le (by omega) hm hn
          rw [heq] at hq
          omega
        simp only [Option.bind_some, hcells m j hmn hmf]
  · rw [htwalk _ hpath, if_pos rfl]

theorem Wf.create_node_of_node (h : Wf s) (hp : p.length ≤ 2) (hn : s.walk p = some n) {m : Nat}
    (hm : link (s.mem n i) = some m) : s.create_node n i = .ok s ∧ (s.mem n i).ppn = m := by
  have hv : (s.mem n i).getLsbD 0 = true := by
    by_contra hv
    rw [link, if_neg hv] at hm
    cases hm
  rw [link, if_pos hv] at hm
  refine ⟨?_, Option.some.inj hm⟩
  rw [create_node, PteBits.is_valid_eq (h.clean n (h.reach p n hp hn) i), hv]
  rfl

theorem Wf.create_node_meets (h : Wf s) (hs : Supplied s) (hp : p.length < 2)
    (hn : s.walk p = some n) (i : Fin 512) : Meets (s.create_node n i) (· = .outOfMemory)
      fun t => Grows s t ∧ t.walk (p ++ [i]) = some (t.mem n i).ppn := by
  cases hcell : link (s.mem n i) with
  | some m =>
    obtain ⟨hok, hppn⟩ := h.create_node_of_node (by omega) hn hcell
    rw [hok]
    refine ⟨.refl h hs, ?_⟩
    rw [walk, walk_concat, ← walk, hn, Option.bind_some, hcell, hppn]
  | none =>
    have hv : (s.mem n i).getLsbD 0 = false := by
      by_contra hv
      rw [link, if_pos (Bool.eq_true_of_not_eq_false hv)] at hcell
      cases hcell
    rw [create_node, PteBits.is_valid_eq (h.clean n (h.reach p n (by omega) hn) i), hv]
    cases hsupply : s.supply with
    | nil =>
      rw [alloc_frame, hsupply]
      rfl
    | cons f rest =>
      obtain ⟨hgrows, hwalk⟩ := h.new_node hs hp hn hcell hsupply
      obtain ⟨hfresh, hlt⟩ := hs.fresh f (by rw [hsupply]; exact List.mem_cons_self)
      rw [alloc_frame, hsupply]
      refine ⟨hgrows, hwalk.trans ?_⟩
      simp only [State.write_pte, set_self, PteBits.ppn_new hlt]

/-- The walk that creates nodes ends at the entry of the page. -/
theorem Wf.create_loop_meets (h : Wf s) (hs : Supplied s) (k : Fin 512)
    (hq : q.length + p.length = 2) (hn : s.walk q = some n) :
    Meets (create_loop (p ++ [k]) n s) (· = .outOfMemory)
      fun r => ∃ m, r.1 = some (m, k) ∧ Grows s r.2 ∧ r.2.walk (q ++ p) = some m := by
  induction p generalizing s q n with
  | nil =>
    refine ⟨n, rfl, .refl h hs, ?_⟩
    rw [List.append_nil, hn]
  | cons i p ih =>
    rw [List.length_cons] at hq
    have hsplit : q ++ i :: p = (q ++ [i]) ++ p := by
      rw [List.append_assoc, List.singleton_append]
    rw [List.cons_append, create_loop]
    · apply (h.create_node_meets hs (by omega) hn i).bind
      intro t ht
      obtain ⟨hgrows, hwalk⟩ := ht
      have hlen : (q ++ [i]).length + p.length = 2 := by
        rw [List.length_append, List.length_singleton]
        omega
      apply (ih hgrows.wf hgrows.supplied hlen hwalk).mono
      rintro r ⟨m, hm, hgrows', hwalk'⟩
      exact ⟨m, hm, hgrows.trans hgrows', by rw [hsplit, hwalk']⟩
    · exact fun hnil => by simp at hnil

/-- Where the page has its nodes, the walk creates none. -/
theorem Wf.create_loop_of_node (h : Wf s) (k : Fin 512) (hq : q.length + p.length = 2)
    (hn : s.walk q = some n) {m : Nat} (hm : s.walk (q ++ p) = some m) :
    create_loop (p ++ [k]) n s = .ok (some (m, k), s) := by
  induction p generalizing q n with
  | nil =>
    rw [List.append_nil, hn] at hm
    cases hm
    rfl
  | cons i p ih =>
    rw [List.length_cons] at hq
    have hsplit : q ++ i :: p = (q ++ [i]) ++ p := by
      rw [List.append_assoc, List.singleton_append]
    rw [hsplit] at hm
    have hcell : s.walk (q ++ [i]) = link (s.mem n i) := by
      rw [walk, walk_concat, ← walk, hn, Option.bind_some]
    cases hlink : link (s.mem n i) with
    | none =>
      rw [walk, walk_append, ← walk, hcell, hlink] at hm
      cases hm
    | some a =>
      obtain ⟨hok, hppn⟩ := h.create_node_of_node (by omega) hn hlink
      rw [hlink] at hcell
      have hlen : (q ++ [i]).length + p.length = 2 := by
        rw [List.length_append, List.length_singleton]
        omega
      rw [List.cons_append, create_loop]
      · rw [hok]
        simp only [bind, Except.bind, hppn]
        exact ih hlen hcell hm
      · exact fun hnil => by simp at hnil

theorem Wf.find_pte_create_meets (h : Wf s) (hs : Supplied s) (vpn : Nat) :
    Meets (s.find_pte_create vpn) (· = .outOfMemory) fun r => ∃ m,
      r.1 = some (m, Fin.ofNat 512 vpn) ∧ Grows s r.2 ∧ r.2.walk (node_path vpn) = some m := by
  have hlen : ([] : List (Fin 512)).length + (node_path vpn).length = 2 := rfl
  rw [find_pte_create, indexes_eq]
  exact h.create_loop_meets hs _ hlen s.walk_root

theorem Wf.find_pte_create_of_node (h : Wf s) {vpn m : Nat}
    (hm : s.walk (node_path vpn) = some m) :
    s.find_pte_create vpn = .ok (some (m, Fin.ofNat 512 vpn), s) := by
  have hlen : ([] : List (Fin 512)).length + (node_path vpn).length = 2 := rfl
  rw [find_pte_create, indexes_eq]
  exact h.create_loop_of_node _ hlen s.walk_root hm

end State

end Sv39

end MyGOS.Mm
