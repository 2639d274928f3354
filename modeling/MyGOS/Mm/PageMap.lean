import MyGOS.Mm.PageWalk

/-!
# The page table as a finite map

What a sequence of operations leaves is a map from the low 27 bits of a page
number to entries. The nodes below the root do not show in it.
-/

namespace MyGOS.Mm

open Outcome NodeTree StepSystem

namespace Sv39

namespace State

/-- The entry that `translate` finds. -/
def at_page (s : State) (vpn : Nat) : Option PteBits :=
  s.look (node_path vpn) (Fin.ofNat 512 vpn)

/-- The entry of `vpn` is `r` now, and the other pages have theirs. -/
structure Leaves (s t : State) (vpn : Nat) (r : Option PteBits) : Prop where
  wf : Wf t
  self : t.at_page vpn = r
  other : ∀ v, index v ≠ index vpn → t.at_page v = s.at_page v

variable {s t : State} {vpn v ppn n : Nat} {flags : PTEFlags} {pte pte' : PteBits}

/-- The three indices of a page are its low 27 bits. -/
theorem indexes_eq_iff : node_path v = node_path vpn ∧ Fin.ofNat 512 v = Fin.ofNat 512 vpn ↔
    index v = index vpn := by
  simp only [node_path, List.cons.injEq, Fin.ext_iff, Fin.val_ofNat, index,
    Nat.shiftRight_eq_div_pow, and_true]
  omega

theorem at_page_congr (s : State) (h : index v = index vpn) : s.at_page v = s.at_page vpn := by
  obtain ⟨hpath, hlast⟩ := indexes_eq_iff.mpr h
  rw [at_page, hpath, hlast, at_page]

theorem Wf.clean_of_look {p : List (Fin 512)} {k : Fin 512} (h : Wf s) (hp : p.length ≤ 2)
    (hlook : s.look p k = some pte) :
    ∃ n, s.walk p = some n ∧ s.mem n k = pte ∧ pte.getLsbD 0 = true ∧ pte.Clean := by
  rw [look] at hlook
  obtain ⟨n, hn, hcell⟩ := Option.bind_eq_some_iff.mp hlook
  split at hcell
  · next hv =>
    cases hcell
    exact ⟨n, hn, rfl, hv, h.clean n (h.reach p n hp hn) k⟩
  · cases hcell

/-- A write to the entry of a page leaves that entry. -/
theorem Wf.leaves_write (h : Wf s) (hn : s.walk (node_path vpn) = some n) (hpte : pte.Clean) :
    Leaves s (s.write_pte (n, Fin.ofNat 512 vpn) pte) vpn
      (if pte.getLsbD 0 then some pte else none) := by
  obtain ⟨hwf, hlook⟩ := h.write_pte (length_node_path vpn) hn hpte
  constructor
  · exact hwf
  · rw [at_page, hlook _ _ (length_node_path vpn), if_pos ⟨rfl, rfl⟩]
  · intro v hv
    rw [at_page, hlook _ _ (length_node_path v), if_neg, at_page]
    exact fun heq => hv (indexes_eq_iff.mp heq)

theorem Grows.leaves {r : Option PteBits} (h : Grows s t) {u : State} (hu : Leaves t u vpn r) :
    Leaves s u vpn r where
  wf := hu.wf
  self := hu.self
  other v hv := (hu.other v hv).trans (h.look _ _ (length_node_path v))

theorem valid_new : (PteBits.new ppn (flags ||| PTEFlags.V)).getLsbD 0 = true := by
  rw [PteBits.getLsbD_new_low _ _ (by decide), PteBits.getLsbD_flags_bits]
  exact Bool.or_true flags.v

theorem Wf.map_meets (h : Wf s) (hs : Supplied s) (hnone : s.at_page vpn = none) (ppn : Nat)
    (flags : PTEFlags) : Meets (s.map vpn ppn flags) (· = .outOfMemory)
      fun t => Leaves s t vpn (some (.new ppn (flags ||| PTEFlags.V))) := by
  apply (h.find_pte_create_meets hs vpn).bind
  rintro ⟨place, t⟩ ⟨m, rfl, hgrows, hwalk⟩
  have hinvalid : (t.mem m (Fin.ofNat 512 vpn)).getLsbD 0 = false := by
    rw [at_page, ← hgrows.look _ _ (length_node_path vpn), look, hwalk, Option.bind_some] at hnone
    by_contra hv
    rw [if_pos (Bool.eq_true_of_not_eq_false hv)] at hnone
    cases hnone
  have hclean := hgrows.wf.clean m (hgrows.wf.reach _ m (length_node_path vpn).le hwalk)
  have hleaves := hgrows.wf.leaves_write hwalk (PteBits.clean_new ppn (flags ||| PTEFlags.V))
  rw [if_pos valid_new] at hleaves
  dsimp only
  rw [PteBits.is_valid_eq (hclean _), hinvalid]
  exact hgrows.leaves hleaves

theorem Wf.unmap_meets (h : Wf s) (vpn : Nat) :
    Meets (s.unmap vpn) (fun _ => False) fun t => Leaves s t vpn none := by
  rw [unmap, h.find_pte_eq]
  cases hn : s.walk (node_path vpn) with
  | none =>
    refine ⟨h, ?_, fun v hv => rfl⟩
    rw [at_page, look, hn]
    rfl
  | some n =>
    have hclean := h.clean n (h.reach _ n (length_node_path vpn).le hn)
    have hleaves := h.leaves_write hn (rfl : PteBits.Clean 0)
    by_cases hv : (s.mem n (Fin.ofNat 512 vpn)).getLsbD 0
    · rw [Option.bind_some, if_pos hv]
      simp only [bind, Except.bind]
      rw [PteBits.is_valid_eq (hclean _), hv]
      exact hleaves
    · rw [Option.bind_some, if_neg hv]
      refine ⟨h, ?_, fun v hv => rfl⟩
      rw [at_page, look, hn, Option.bind_some, if_neg hv]

/-- An update of the entry of a mapped page creates no node. -/
theorem Wf.update_pte_eq (h : Wf s) (hpte : s.at_page vpn = some pte)
    {f : PteBits → Except Panic PteBits} (hf : f pte = .ok pte') (hclean : pte'.Clean)
    (hvalid : pte'.getLsbD 0 = true) : ∃ t, s.update_pte vpn f = .ok t ∧
      Leaves s t vpn (some pte') ∧ t.table = s.table := by
  obtain ⟨n, hn, hcell, -, -⟩ := h.clean_of_look (length_node_path vpn).le hpte
  have hleaves := h.leaves_write hn hclean
  rw [if_pos hvalid] at hleaves
  refine ⟨_, ?_, hleaves, rfl⟩
  rw [update_pte, h.find_pte_create_of_node hn]
  simp only [bind, Except.bind, hcell, hf]
  rfl

end State

/-- The page an operation is about. -/
def Op.vpn : Op → Nat
  | map vpn _ _ | unmap vpn | set_flags vpn _ | set_cow vpn | reset_cow vpn
  | remap_cow vpn _ _ => vpn

/-- What an operation leaves on its page. -/
def Op.left (e : Option PageTableEntry) : Op → Option PageTableEntry
  | map _ ppn flags => some ⟨ppn, flags ||| PTEFlags.V⟩
  | unmap _ => none
  | set_flags _ flags => e.map (PageTableEntry.set_flags flags)
  | set_cow _ => e.map PageTableEntry.set_cow
  | reset_cow _ => e.map PageTableEntry.reset_cow
  | remap_cow _ ppn _ => e.map fun e => ⟨ppn, e.flags ||| PTEFlags.W⟩

abbrev PageMap := Nat → Option PageTableEntry

def PageMap.record (m : PageMap) (op : Op) : PageMap :=
  Function.update m (index op.vpn) (op.left (m (index op.vpn)))

/-- The page is free for `map` and mapped for the updates. -/
def Op.Allowed (frames : List Nat) (e : Option PageTableEntry) : Op → Prop
  | map _ ppn _ => e = none ∧ ppn < 2 ^ 44
  | unmap _ => True
  | set_flags _ flags => e ≠ none ∧ flags.v = true
  | set_cow _ | reset_cow _ => e ≠ none
  | remap_cow _ ppn _ => e ≠ none ∧ ppn < 2 ^ 44 ∧ ppn ∉ frames

instance (frames : List Nat) (e : Option PageTableEntry) : ∀ op : Op, Decidable (op.Allowed frames e)
  | .map _ _ _ => inferInstanceAs (Decidable (_ ∧ _))
  | .unmap _ => inferInstanceAs (Decidable True)
  | .set_flags _ _ => inferInstanceAs (Decidable (_ ∧ _))
  | .set_cow _ | .reset_cow _ => inferInstanceAs (Decidable (_ ≠ _))
  | .remap_cow _ _ _ => inferInstanceAs (Decidable (_ ∧ _ ∧ _))

instance (s : State) : Decidable s.Supplied :=
  decidable_of_iff (s.supply.Nodup ∧ ∀ f ∈ s.supply, f ∉ s.table.frames ∧ f < 2 ^ 44)
    ⟨fun h => ⟨h.1, h.2⟩, fun h => ⟨h.nodup, h.fresh⟩⟩

/-- An operation as its callers make it: the frames it may take are in no use. -/
def Permits (x : State × PageMap) (y : Op × List Nat) : Prop :=
  State.Supplied { x.1 with supply := y.2 } ∧
    y.1.Allowed x.1.table.frames (x.2 (index y.1.vpn))

instance (x : State × PageMap) (y : Op × List Nat) : Decidable (Permits x y) :=
  inferInstanceAs (Decidable (_ ∧ _))

/-- The page table holds the map. -/
structure Holds (s : State) (m : PageMap) : Prop where
  wf : s.Wf
  entries : ∀ vpn, (s.at_page vpn).map PteBits.entry = m (index vpn)

/-- A step, with the map that the operations so far have left. -/
def step_recorded (x : State × PageMap) (y : Op × List Nat) : Except Panic (State × PageMap) := do
  return (← x.1.step y, x.2.record y.1)

variable {s t : State} {m : PageMap} {op : Op}

theorem State.Wf.with_supply (h : s.Wf) (supply : List Nat) : Wf { s with supply := supply } :=
  ⟨h.reach, h.separate, h.clean⟩

theorem Holds.leaves (h : Holds s m) {r : Option PteBits} (hl : State.Leaves s t op.vpn r)
    (hr : r.map PteBits.entry = op.left (m (index op.vpn))) : Holds t (m.record op) where
  wf := hl.wf
  entries v := by
    by_cases hv : index v = index op.vpn
    · rw [t.at_page_congr hv, hl.self, hv, PageMap.record, Function.update_self]
      exact hr
    · rw [hl.other v hv, PageMap.record, Function.update_of_ne hv]
      exact h.entries v

theorem Holds.at_page_of_ne_none (h : Holds s m) {vpn : Nat} (hm : m (index vpn) ≠ none) :
    ∃ pte, s.at_page vpn = some pte ∧ m (index vpn) = some pte.entry ∧ pte.Clean ∧
      pte.getLsbD 0 = true := by
  rw [← h.entries vpn] at hm ⊢
  cases hpte : s.at_page vpn with
  | none =>
    rw [hpte] at hm
    exact absurd rfl hm
  | some pte =>
    obtain ⟨_, _, _, hv, hclean⟩ := h.wf.clean_of_look (State.length_node_path vpn).le hpte
    exact ⟨pte, rfl, rfl, hclean, hv⟩

/-- What one operation does to the table, and to the entries of the other pages. -/
def Follows (s t : State) (m : PageMap) (op : Op) : Prop :=
  Holds t (m.record op) ∧ ∀ v, index v ≠ index op.vpn → t.at_page v = s.at_page v

/-- An update of a mapped page to an entry that is valid. -/
theorem Holds.update (op : Op) (h : Holds s m) (hmapped : m (index op.vpn) ≠ none)
    {f : PteBits → Except Panic PteBits} {e : PageTableEntry → PageTableEntry}
    (hf : ∀ pte : PteBits, pte.Clean → pte.getLsbD 0 = true → ∃ pte', f pte = .ok pte' ∧
      pte'.Clean ∧ pte'.getLsbD 0 = true ∧ pte'.entry = e pte.entry)
    (hleft : op.left (m (index op.vpn)) = (m (index op.vpn)).map e) :
    Meets (s.update_pte op.vpn f) (· = .outOfMemory) fun t =>
      Follows s t m op ∧ t.table = s.table := by
  obtain ⟨pte, hpte, hentry, hclean, hv⟩ := h.at_page_of_ne_none hmapped
  obtain ⟨pte', hok, hclean', hv', hentry'⟩ := hf pte hclean hv
  obtain ⟨t, ht, hl, htable⟩ := h.wf.update_pte_eq hpte hok hclean' hv'
  rw [ht]
  refine ⟨⟨h.leaves hl ?_, hl.other⟩, htable⟩
  rw [hleft, hentry, Option.map_some, Option.map_some, hentry']

/-- A frame outside the table may be filled. -/
theorem Holds.fill (h : Holds s m) {ppn : Nat} (hppn : ppn ∉ s.table.frames)
    (row : Fin 512 → PteBits) : Holds { s with mem := Function.update s.mem ppn row } m ∧
      ∀ v, State.at_page { s with mem := Function.update s.mem ppn row } v = s.at_page v := by
  have hsame : ∀ v, State.at_page { s with mem := Function.update s.mem ppn row } v = s.at_page v :=
    fun v => h.wf.look_update hppn row (State.length_node_path v).le _
  refine ⟨⟨h.wf.update hppn row, fun v => ?_⟩, hsame⟩
  rw [hsame]
  exact h.entries v

theorem Holds.map (h : Holds s m) (hs : s.Supplied) {vpn ppn : Nat} (flags : PTEFlags)
    (hfree : m (index vpn) = none) (hlt : ppn < 2 ^ 44) :
    Meets (s.map vpn ppn flags) (· = .outOfMemory)
      fun t => Follows s t m (.map vpn ppn flags) := by
  have hnone : s.at_page vpn = none := by
    have hentry := h.entries vpn
    rw [hfree] at hentry
    exact Option.map_eq_none_iff.mp hentry
  apply (h.wf.map_meets hs hnone ppn flags).mono
  intro t hl
  refine ⟨h.leaves hl ?_, hl.other⟩
  rw [Option.map_some, PteBits.entry_new hlt]
  rfl

theorem Holds.unmap (h : Holds s m) (vpn : Nat) :
    Meets (s.unmap vpn) (fun _ => False) fun t => Follows s t m (.unmap vpn) := by
  apply (h.wf.unmap_meets vpn).mono
  intro t hl
  exact ⟨h.leaves hl rfl, hl.other⟩

theorem Holds.set_flags (h : Holds s m) {vpn : Nat} {flags : PTEFlags}
    (hmapped : m (index vpn) ≠ none) (hv : flags.v = true) :
    Meets (s.set_flags vpn flags) (· = .outOfMemory)
      fun t => Follows s t m (.set_flags vpn flags) ∧ t.table = s.table := by
  refine h.update (.set_flags vpn flags) hmapped ?_ rfl
  intro pte _ _
  refine ⟨_, rfl, PteBits.Clean.set_flags pte flags, ?_, PteBits.entry_set_flags pte flags⟩
  rw [PteBits.set_flags_low _ _ (by decide), PteBits.getLsbD_flags_bits]
  exact hv

theorem Holds.set_cow (h : Holds s m) {vpn : Nat} (hmapped : m (index vpn) ≠ none) :
    Meets (s.set_cow vpn) (· = .outOfMemory)
      fun t => Follows s t m (.set_cow vpn) ∧ t.table = s.table := by
  refine h.update (.set_cow vpn) hmapped ?_ rfl
  intro pte hclean hv
  refine ⟨_, rfl, hclean.set_cow, ?_, PteBits.entry_set_cow pte⟩
  rw [PteBits.getLsbD_set_cow, hv, Bool.true_or]

theorem Holds.reset_cow (h : Holds s m) {vpn : Nat} (hmapped : m (index vpn) ≠ none) :
    Meets (s.reset_cow vpn) (· = .outOfMemory)
      fun t => Follows s t m (.reset_cow vpn) ∧ t.table = s.table := by
  refine h.update (.reset_cow vpn) hmapped ?_ rfl
  intro pte hclean hv
  refine ⟨_, rfl, hclean.reset_cow, ?_, PteBits.entry_reset_cow pte⟩
  rw [PteBits.getLsbD_reset_cow _ (by decide), hv]
  rfl

theorem Holds.remap_cow (h : Holds s m) {vpn ppn : Nat} (former_ppn : Nat)
    (hmapped : m (index vpn) ≠ none) (hlt : ppn < 2 ^ 44) (hppn : ppn ∉ s.table.frames) :
    Meets (s.remap_cow vpn ppn former_ppn) (· = .outOfMemory)
      fun t => Follows s t m (.remap_cow vpn ppn former_ppn) := by
  have hupdate : Meets (s.update_pte vpn fun pte => return .new ppn ((← pte.flags) ||| PTEFlags.W))
      (· = .outOfMemory)
      fun t => Follows s t m (.remap_cow vpn ppn former_ppn) ∧ t.table = s.table := by
    refine h.update (.remap_cow vpn ppn former_ppn) hmapped ?_ rfl
    intro pte hclean hv
    refine ⟨.new ppn (pte.pte_flags ||| PTEFlags.W), ?_, PteBits.clean_new _ _, ?_,
      PteBits.entry_new hlt _⟩
    · rw [PteBits.flags_eq hclean]
      rfl
    · rw [PteBits.getLsbD_new_low _ _ (by decide), PteBits.getLsbD_flags_bits]
      exact congrArg (· || false) hv
  apply hupdate.bind
  rintro t ⟨⟨hholds, hother⟩, htable⟩
  obtain ⟨hfill, hsame⟩ := hholds.fill (htable ▸ hppn) (t.mem former_ppn)
  exact ⟨hfill, fun v hv => (hsame v).trans (hother v hv)⟩

/-- One permitted operation is the operation on the map. -/
theorem Holds.step (h : Holds s m) {supply : List Nat} (hp : Permits (s, m) (op, supply)) :
    Meets (s.step (op, supply)) (· = .outOfMemory) fun t => Follows s t m op := by
  obtain ⟨hsupplied, hallowed⟩ := hp
  have hs : Holds { s with supply := supply } m := ⟨h.wf.with_supply supply, h.entries⟩
  cases op with
  | map vpn ppn flags => exact hs.map hsupplied flags hallowed.1 hallowed.2
  | unmap vpn => exact (hs.unmap vpn).mono_error fun _ hfalse => hfalse.elim
  | set_flags vpn flags => exact (hs.set_flags hallowed.1 hallowed.2).mono fun t ht => ht.1
  | set_cow vpn => exact (hs.set_cow hallowed).mono fun t ht => ht.1
  | reset_cow vpn => exact (hs.reset_cow hallowed).mono fun t ht => ht.1
  | remap_cow vpn ppn former_ppn => exact hs.remap_cow former_ppn hallowed.1 hallowed.2.1 hallowed.2.2

theorem Holds.new (mem : Nat → Fin 512 → PteBits) (root : Nat) :
    Holds (Sv39.new mem root) fun _ => none := by
  have hlink : ∀ i, link ((Sv39.new mem root).mem root i) = none := by
    intro i
    simp only [Sv39.new, Function.update_self]
    rfl
  have hwalk : ∀ p, (Sv39.new mem root).walk p = if p = [] then some root else none := by
    intro p
    cases p with
    | nil => rfl
    | cons i p =>
      rw [State.walk, walk, if_neg (List.cons_ne_nil i p)]
      have hroot : link ((Sv39.new mem root).mem (Sv39.new mem root).table.root_ppn i) = none :=
        hlink i
      rw [hroot]
      rfl
  refine ⟨⟨fun p n _ hn => ?_, fun p q n _ _ hp hq => ?_, fun n hn i => ?_⟩, fun vpn => ?_⟩
  · rw [hwalk] at hn
    split at hn
    · cases hn
      exact List.mem_singleton_self root
    · cases hn
  · have hp := (hwalk p).symm.trans hp
    have hq := (hwalk q).symm.trans hq
    split at hp
    · next heq =>
      split at hq
      · next heq' => rw [heq, heq']
      · cases hq
    · cases hp
  · rw [List.mem_singleton.mp hn]
    simp only [Sv39.new, Function.update_self]
    rfl
  · rw [State.at_page, State.look, hwalk]
    rfl

theorem holds_states (mem : Nat → Fin 512 → PteBits) (root : Nat) {ops : List (Op × List Nat)}
    (h : Guarded step_recorded Permits (new mem root, fun _ => none) ops) :
    ∀ x ∈ states step_recorded (new mem root, fun _ => none) ops, Holds x.1 x.2 := by
  refine invariant (fun x => Holds x.1 x.2) ?_ (Holds.new mem root) h
  intro x y t hx hy ht
  obtain ⟨u, hu, hret⟩ := bind_eq_ok.mp ht
  cases hret
  exact ((hx.step hy).of_ok hu).1

/-- Two pages of one node, one of them copied on a write and then unmapped. -/
def copied_and_unmapped : List (Op × List Nat) :=
  [(.map 0x40201 5 { r := true, w := true, u := true }, [2, 3]),
    (.map 0x40202 6 { r := true, u := true }, []),
    (.set_flags 0x40201 { v := true, r := true, u := true }, []),
    (.set_cow 0x40201, []),
    (.remap_cow 0x40201 9 5, []),
    (.reset_cow 0x40201, []),
    (.unmap 0x8040201, []),
    (.map 0x80000 7 { r := true }, [4, 8])]

end Sv39

end MyGOS.Mm
