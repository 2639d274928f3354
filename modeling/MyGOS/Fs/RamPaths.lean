import MyGOS.Fs.RamDir
import Mathlib.Data.List.Find
import Mathlib.Data.List.Induction

/-!
# When the paths of the RAM file system are right

Where each node is an entry of one directory, a node has one path, and it is the
right one exactly if the node says so and no other entry has its name.
-/

namespace MyGOS.Fs

open Fat32 Outcome StepSystem

namespace RamFs

/-- The directory a path leads to. -/
def walk (s : RamFs) (path : AbsolutePath) : Option Nat := NodeTree.walk id s.open_dir root path

/-- A node is an entry of one directory at most. -/
structure Tree (s : RamFs) : Prop where
  unique : ∀ p q n, n ∈ s.children p → n ∈ s.children q → p = q
  root_free : ∀ p, root ∉ s.children p
  fresh : ∀ p n, n ∈ s.children p → n < s.next
  root_lt : root < s.next
  root_dir : s.is_dir root
  root_name : s.filename root = ['/']
  root_path : s.path root = []
  split : ∀ n, ∀ name ∈ s.path n, '/' ∉ name

variable {s : RamFs} {path path' : AbsolutePath} {name : Name} {d e n p q : Nat}

theorem children_set_children (s : RamFs) (d e : Nat) (cs : List Nat) :
    (s.set_children d cs).children e = if e = d then cs else s.children e := by
  by_cases h : e = d
  · subst h
    simp [set_children, set_node, children]
  · simp [set_children, set_node, children, h]

@[simp] theorem filename_set_children (s : RamFs) (d : Nat) (cs : List Nat) :
    (s.set_children d cs).filename = s.filename := by
  funext e
  by_cases h : e = d
  · subst h
    simp [set_children, set_node, filename]
  · simp [set_children, set_node, filename, h]

@[simp] theorem path_set_children (s : RamFs) (d : Nat) (cs : List Nat) :
    (s.set_children d cs).path = s.path := by
  funext e
  by_cases h : e = d
  · subst h
    simp [set_children, set_node, RamFs.path]
  · simp [set_children, set_node, RamFs.path, h]

theorem is_dir_set_children (cs : List Nat) (hd : s.is_dir d) :
    (s.set_children d cs).is_dir = s.is_dir := by
  funext e
  by_cases h : e = d
  · subst h
    rw [hd]
    simp [set_children, set_node, is_dir]
  · simp [set_children, set_node, is_dir, h]

theorem open_child_eq_some (h : s.open_child d name = some n) :
    n ∈ s.children d ∧ s.filename n = name :=
  ⟨List.mem_of_find?_eq_some h, by simpa using List.find?_some h⟩

theorem open_dir_eq_some (h : s.open_dir d name = some n) :
    n ∈ s.children d ∧ s.is_dir n ∧ s.filename n = name :=
  ⟨List.mem_of_find?_eq_some h, by simpa using List.find?_some h⟩

theorem open_child_isSome (hn : n ∈ s.children d) (hname : s.filename n = name) :
    ∃ c, s.open_child d name = some c := by
  rw [← Option.isSome_iff_exists, open_child, List.find?_isSome]
  exact ⟨n, hn, by simpa using hname⟩

theorem walk_concat (s : RamFs) (path : AbsolutePath) (name : Name) :
    s.walk (path ++ [name]) = (s.walk path).bind fun d => s.open_dir d name :=
  NodeTree.walk_concat ..

theorem find_parent_dir_eq (s : RamFs) (path : AbsolutePath) :
    s.find_parent_dir path = s.walk path.dropLast := by
  have hfold : ∀ (names : List Name) (d : Nat),
      names.foldlM s.open_dir d = NodeTree.walk id s.open_dir d names := by
    intro names
    induction names with
    | nil => exact fun _ => rfl
    | cons name names ih =>
      intro d
      rw [List.foldlM_cons, NodeTree.walk]
      exact Option.bind_congr fun e _ => ih e
  rw [find_parent_dir, ← List.dropLast_eq_take, hfold]
  split
  · next h => rw [h]; rfl
  · rfl

theorem opens_iff : s.Opens path p n ↔
    ∃ dir name, path = dir ++ [name] ∧ s.walk dir = some p ∧ s.open_child p name = some n := by
  constructor
  · rintro ⟨hne, hparent, hentry⟩
    rw [find_parent_dir_eq] at hparent
    refine ⟨path.dropLast, path.getLast hne, (List.dropLast_append_getLast hne).symm, hparent, ?_⟩
    rwa [AbsolutePath.last_eq hne] at hentry
  · rintro ⟨dir, name, rfl, hwalk, hentry⟩
    refine ⟨by simp, ?_, ?_⟩
    · rwa [find_parent_dir_eq, List.dropLast_concat]
    · simpa [AbsolutePath.last] using hentry

theorem is_dir_of_walk (ht : s.Tree) (h : s.walk path = some d) : s.is_dir d := by
  induction path using List.reverseRecOn with
  | nil =>
    cases h
    exact ht.root_dir
  | append_singleton path name _ =>
    rw [walk_concat] at h
    obtain ⟨e, -, he⟩ := Option.bind_eq_some_iff.mp h
    exact (open_dir_eq_some he).2.1

namespace Tree

/-- Two ways to a directory are one. -/
theorem walk_unique (ht : s.Tree) (h : s.walk path = some d) (h' : s.walk path' = some d) :
    path = path' := by
  induction path using List.reverseRecOn generalizing path' d with
  | nil =>
    cases h
    rcases List.eq_nil_or_concat path' with rfl | ⟨dir, name, rfl⟩
    · rfl
    · rw [List.concat_eq_append, walk_concat] at h'
      obtain ⟨e, -, he⟩ := Option.bind_eq_some_iff.mp h'
      exact absurd (open_dir_eq_some he).1 (ht.root_free e)
  | append_singleton path name ih =>
    rw [walk_concat] at h
    obtain ⟨e, he, hn⟩ := Option.bind_eq_some_iff.mp h
    obtain ⟨hmem, -, hname⟩ := open_dir_eq_some hn
    rcases List.eq_nil_or_concat path' with rfl | ⟨dir, other, rfl⟩
    · cases h'
      exact absurd hmem (ht.root_free e)
    · rw [List.concat_eq_append, walk_concat] at h'
      obtain ⟨e', he', hn'⟩ := Option.bind_eq_some_iff.mp h'
      obtain ⟨hmem', -, hname'⟩ := open_dir_eq_some hn'
      obtain rfl := ht.unique _ _ _ hmem hmem'
      rw [ih he he', ← hname, ← hname', List.concat_eq_append]

theorem opens_unique (ht : s.Tree) (h : s.Opens path p n) (h' : s.Opens path' q n) :
    path = path' ∧ p = q := by
  obtain ⟨dir, name, rfl, hdir, hn⟩ := opens_iff.mp h
  obtain ⟨dir', name', rfl, hdir', hn'⟩ := opens_iff.mp h'
  obtain ⟨hmem, rfl⟩ := open_child_eq_some hn
  obtain ⟨hmem', rfl⟩ := open_child_eq_some hn'
  obtain rfl := ht.unique _ _ _ hmem hmem'
  exact ⟨by rw [ht.walk_unique hdir hdir'], rfl⟩

end Tree

theorem parent_dir_eq_ok : s.parent_dir path = .ok p ↔ s.find_parent_dir path = some p := by
  rw [parent_dir]
  cases s.find_parent_dir path <;> simp

theorem remove_eq (hn : n ∈ s.children p) :
    s.remove p (s.filename n) =
      .ok (s.set_children p ((s.children p).filter fun x => s.filename x ≠ s.filename n)) := by
  rw [remove, if_pos]
  rw [List.length_filter_lt_length_iff_exists]
  exact ⟨n, hn, by simp⟩

/-- What a node says of itself, and what there is beside it. -/
structure Placed (s : RamFs) (path : AbsolutePath) (p n : Nat) : Prop where
  stored : s.path n = path
  alone : ∀ c ∈ s.children p, s.filename c = s.filename n → c = n

theorem Placed.remove (hp : s.Placed path p n) (hn : n ∈ s.children p) :
    s.remove p (s.filename n) = .ok (s.unlink p n) := by
  rw [remove_eq hn, unlink]
  congr 2
  apply List.filter_congr
  intro c hc
  rw [decide_eq_decide, not_iff_not]
  exact ⟨hp.alone c hc, fun h => by rw [h]⟩

theorem namesRight_iff (ht : s.Tree) (ho : s.Opens path p n) :
    s.NamesRight p n ↔ s.Placed path p n := by
  have hn : n ∈ s.children p := (open_child_eq_some ho.entry).1
  constructor
  · intro hr
    obtain ⟨q, hq⟩ := hr.resolves
    have hstored : s.path n = path := (ht.opens_unique hq ho).1
    refine ⟨hstored, ?_⟩
    intro c hc hname
    have hdelete := hr.delete
    rw [delete, hstored, parent_dir_eq_ok.mpr ho.parent, ok_bind, remove_eq hn] at hdelete
    have hcs := congrArg (fun s => children s p) (Except.ok.inj hdelete)
    simp only [unlink, children_set_children, if_true] at hcs
    by_contra hne
    have hin : c ∈ (s.children p).filter fun x => x ≠ n := List.mem_filter.mpr ⟨hc, by simpa⟩
    rw [← hcs, List.mem_filter] at hin
    simp [hname] at hin
  · intro hp
    have hparent : s.parent_dir (s.path n) = .ok p := by
      rw [hp.stored]
      exact parent_dir_eq_ok.mpr ho.parent
    refine ⟨⟨p, by rw [hp.stored]; exact ho⟩, ?_, ?_⟩
    · rw [delete, hparent, ok_bind, hp.remove hn]
    · intro new_path q hq
      rw [rename, parent_dir_eq_ok.mpr hq, ok_bind, hparent, ok_bind, hp.remove hn]
      rfl

/-- Each node is found where it says, under a name of its own. -/
def Named (s : RamFs) : Prop := ∀ path p n, s.Opens path p n → s.Placed path p n

theorem pathsRight_iff (ht : s.Tree) : s.PathsRight ↔ s.Named :=
  ⟨fun h path p n ho => (namesRight_iff ht ho).mp (h path p n ho),
    fun h path p n ho => (namesRight_iff ht ho).mpr (h path p n ho)⟩

namespace Named

/-- An entry of a directory that is reached is the one its name opens. -/
theorem open_child (hs : s.Named) (hw : s.walk path = some p) (hn : n ∈ s.children p) :
    s.open_child p (s.filename n) = some n := by
  obtain ⟨c, hc⟩ := open_child_isSome hn rfl
  have hplaced := hs (path ++ [s.filename n]) p c (opens_iff.mpr ⟨path, _, rfl, hw, hc⟩)
  rw [hc, hplaced.alone n hn (open_child_eq_some hc).2.symm]

theorem open_dir (hs : s.Named) (hw : s.walk path = some p) (hn : n ∈ s.children p) :
    s.open_dir p (s.filename n) = if s.is_dir n then some n else none := by
  have hplaced := hs _ _ _ (opens_iff.mpr ⟨path, _, rfl, hw, hs.open_child hw hn⟩)
  cases hd : s.open_dir p (s.filename n) with
  | none =>
    rw [if_neg]
    intro hdir
    rw [RamFs.open_dir, List.find?_eq_none] at hd
    exact hd n hn (by simpa using hdir)
  | some m =>
    obtain ⟨hm, hdir, hname⟩ := open_dir_eq_some hd
    obtain rfl := hplaced.alone m hm hname
    rw [if_pos hdir]

theorem opens (hs : s.Named) (hw : s.walk path = some p) (hn : n ∈ s.children p) :
    s.Opens (path ++ [s.filename n]) p n :=
  opens_iff.mpr ⟨path, _, rfl, hw, hs.open_child hw hn⟩

/-- A directory other than the root is opened by the path that leads to it. -/
theorem opens_of_walk (hs : s.Named) (hw : s.walk (path ++ [name]) = some d) :
    ∃ p, s.Opens (path ++ [name]) p d := by
  rw [walk_concat] at hw
  obtain ⟨p, hp, hd⟩ := Option.bind_eq_some_iff.mp hw
  obtain ⟨hmem, -, rfl⟩ := open_dir_eq_some hd
  exact ⟨p, hs.opens hp hmem⟩

/-- Paths are right where names open what they open in a state whose paths are. -/
theorem congr {t : RamFs} (hs : s.Named) (hname : t.filename = s.filename)
    (hpath : t.path = s.path) (hdir : t.open_dir = s.open_dir)
    (hchild : ∀ d name, t.open_child d name = s.open_child d name)
    (hsub : ∀ d, ∀ c ∈ t.children d, c ∈ s.children d) : t.Named := by
  intro path p n h
  obtain ⟨dir, name, rfl, hw, hn⟩ := opens_iff.mp h
  rw [walk, hdir] at hw
  rw [hchild] at hn
  obtain ⟨hstored, halone⟩ := hs _ _ _ (opens_iff.mpr ⟨dir, name, rfl, hw, hn⟩)
  refine ⟨by rw [hpath, hstored], ?_⟩
  intro c hc heq
  rw [hname] at heq
  exact halone c (hsub p c hc) heq

end Named

section Unlink

variable (hs : s.Named) (ht : s.Tree) (ho : s.Opens path p n)

include ho

theorem Opens.mem : n ∈ s.children p := (open_child_eq_some ho.entry).1

theorem Opens.walk_dropLast : s.walk path.dropLast = some p := by
  rw [← find_parent_dir_eq]
  exact ho.parent

theorem Opens.path_eq : path = path.dropLast ++ [s.filename n] := by
  obtain ⟨dir, name, rfl, -, hn⟩ := opens_iff.mp ho
  rw [List.dropLast_concat, (open_child_eq_some hn).2]

include hs

theorem find_unlink {P : Nat → Bool} (hP : ∀ c, P c → s.filename c = name) (d : Nat) :
    ((s.unlink p n).children d).find? P =
      if d = p ∧ name = s.filename n then none else (s.children d).find? P := by
  rw [unlink, children_set_children]
  by_cases hd : d = p
  · subst hd
    rw [if_pos rfl, List.find?_filter]
    by_cases hname : name = s.filename n
    · rw [if_pos ⟨rfl, hname⟩, List.find?_eq_none]
      intro c hc hboth
      obtain ⟨hne, hc'⟩ := of_decide_eq_true hboth
      have heq : c = n := (hs path d n ho).alone c hc ((hP c hc').trans hname)
      exact of_decide_eq_true hne heq
    · rw [if_neg (fun h => hname h.2)]
      congr 1
      funext c
      by_cases hc : c = n
      · subst hc
        have hnot : P c = false := Bool.eq_false_iff.mpr fun h => hname (hP c h).symm
        simp [hnot]
      · simp [hc]
  · rw [if_neg hd, if_neg (fun h => hd h.1)]

include ht

omit hs in
theorem is_dir_unlink : (s.unlink p n).is_dir = s.is_dir :=
  is_dir_set_children _ (is_dir_of_walk ht ho.walk_dropLast)

omit ht in
theorem open_child_unlink (d : Nat) (name : Name) :
    (s.unlink p n).open_child d name =
      if d = p ∧ name = s.filename n then none else s.open_child d name := by
  have hP : ∀ c, decide (s.filename c = name) = true → s.filename c = name :=
    fun c hc => of_decide_eq_true hc
  rw [RamFs.open_child, RamFs.open_child, ← find_unlink hs ho hP d, unlink,
    filename_set_children]

theorem open_dir_unlink (d : Nat) (name : Name) :
    (s.unlink p n).open_dir d name =
      if d = p ∧ name = s.filename n then none else s.open_dir d name := by
  have hP : ∀ c, decide (s.is_dir c = true ∧ s.filename c = name) = true → s.filename c = name :=
    fun c hc => (of_decide_eq_true hc).2
  rw [open_dir, open_dir, ← find_unlink hs ho hP d, is_dir_unlink ht ho, unlink,
    filename_set_children]

/-- The ways below the entry are gone, and the others stay. -/
theorem walk_unlink (dir : AbsolutePath) :
    (s.unlink p n).walk dir = if path <+: dir then none else s.walk dir := by
  induction dir using List.reverseRecOn with
  | nil =>
    rw [if_neg]
    · rfl
    · exact fun h => ho.ne_nil (List.prefix_nil.mp h)
  | append_singleton dir name ih =>
    rw [walk_concat, walk_concat, ih]
    by_cases hpre : path <+: dir
    · rw [if_pos hpre, if_pos (hpre.trans (List.prefix_append ..))]
      rfl
    rw [if_neg hpre]
    cases hw : s.walk dir with
    | none => split <;> rfl
    | some d =>
      rw [Option.bind_some, Option.bind_some, open_dir_unlink hs ht ho]
      congr 1
      rw [eq_iff_iff]
      constructor
      · rintro ⟨rfl, rfl⟩
        have hpath : dir ++ [s.filename n] = path := by
          rw [ht.walk_unique hw ho.walk_dropLast]
          exact ho.path_eq.symm
        exact ⟨[], (List.append_nil path).trans hpath.symm⟩
      · intro hle
        have heq : path = dir ++ [name] := by
          rcases List.prefix_concat_iff.mp hle with heq | hle
          · exact heq
          · exact absurd hle hpre
        have hdir : dir = path.dropLast := by rw [heq, List.dropLast_concat]
        have hname : [name] = [s.filename n] := by
          have := ho.path_eq
          rw [← hdir, heq] at this
          exact List.append_cancel_left this
        refine ⟨?_, List.singleton_inj.mp hname⟩
        rw [hdir, ho.walk_dropLast] at hw
        exact (Option.some.inj hw).symm

omit hs in
theorem not_mem_children_unlink (d : Nat) : n ∉ (s.unlink p n).children d := by
  rw [unlink, children_set_children]
  split
  · simp
  · next hd => exact fun h => hd (ht.unique _ _ _ h ho.mem)

theorem opens_of_unlink (h : (s.unlink p n).Opens path' q e) : s.Opens path' q e := by
  obtain ⟨dir, name, rfl, hw, he⟩ := opens_iff.mp h
  rw [walk_unlink hs ht ho] at hw
  rw [open_child_unlink hs ho] at he
  split at hw
  · cases hw
  split at he
  · cases he
  exact opens_iff.mpr ⟨dir, name, rfl, hw, he⟩

omit hs ht ho in
theorem mem_of_mem_children_unlink (h : e ∈ (s.unlink p n).children d) : e ∈ s.children d := by
  rw [unlink, children_set_children] at h
  split at h
  · next hd =>
    rw [hd]
    exact List.mem_of_mem_filter h
  · exact h

theorem Named.unlink : (s.unlink p n).Named := by
  intro path' q e h
  have hplaced := hs path' q e (opens_of_unlink hs ht ho h)
  refine ⟨?_, ?_⟩
  · rw [RamFs.unlink, path_set_children]
    exact hplaced.stored
  · intro c hc hname
    rw [RamFs.unlink, filename_set_children] at hname
    exact hplaced.alone c (mem_of_mem_children_unlink hc) hname

omit hs in
theorem Tree.unlink : (s.unlink p n).Tree where
  unique _ _ _ h h' :=
    ht.unique _ _ _ (mem_of_mem_children_unlink h) (mem_of_mem_children_unlink h')
  root_free _ h := ht.root_free _ (mem_of_mem_children_unlink h)
  fresh _ _ h := ht.fresh _ _ (mem_of_mem_children_unlink h)
  root_lt := ht.root_lt
  root_dir := by
    rw [RamFs.unlink, is_dir_set_children _ (is_dir_of_walk ht ho.walk_dropLast)]
    exact ht.root_dir
  root_name := by
    rw [RamFs.unlink, filename_set_children]
    exact ht.root_name
  root_path := by
    rw [RamFs.unlink, path_set_children]
    exact ht.root_path
  split := by
    rw [RamFs.unlink, path_set_children]
    exact ht.split

end Unlink

section Attach

/-- A node `n` with these names and children, as a new entry of `q`. -/
def attach (s : RamFs) (q n : Nat) (node : RamNode) : RamFs :=
  (s.set_node n node).add_from_container q n

variable {node : RamNode} {dir : AbsolutePath} (ho : ∀ d, n ∉ s.children d)

theorem filename_attach (s : RamFs) (q n e : Nat) (node : RamNode) :
    (s.attach q n node).filename e = if e = n then node.name else s.filename e := by
  rw [attach, add_from_container, filename_set_children]
  by_cases h : e = n
  · subst h
    simp [set_node, filename]
  · simp [set_node, filename, h]

theorem path_attach (s : RamFs) (q n e : Nat) (node : RamNode) :
    (s.attach q n node).path e = if e = n then node.dir_path else s.path e := by
  rw [attach, add_from_container, path_set_children]
  by_cases h : e = n
  · subst h
    simp [set_node, RamFs.path]
  · simp [set_node, RamFs.path, h]

theorem children_attach_of_ne (s : RamFs) (q : Nat) (node : RamNode) (h : d ≠ n) :
    (s.attach q n node).children d = if d = q then s.children d ++ [n] else s.children d := by
  rw [attach, add_from_container, children_set_children]
  split
  · next hd =>
    subst hd
    simp [set_node, children, h]
  · simp [set_node, children, h]

theorem children_attach_self (s : RamFs) (node : RamNode) (h : n ≠ q) :
    (s.attach q n node).children n = node.children.getD [] := by
  rw [attach, add_from_container, children_set_children, if_neg h]
  simp [set_node, children]

theorem is_dir_attach_of_ne (node : RamNode) (hq : s.is_dir q) (h : e ≠ n) :
    (s.attach q n node).is_dir e = s.is_dir e := by
  by_cases he : e = q
  · rw [he, hq]
    simp [attach, add_from_container, set_children, set_node, is_dir]
  · simp [attach, add_from_container, set_children, set_node, is_dir, h, he]

theorem is_dir_attach_self (s : RamFs) (node : RamNode) (h : n ≠ q) :
    (s.attach q n node).is_dir n = node.children.isSome := by
  simp [attach, add_from_container, set_children, set_node, is_dir, h]

include ho

/-- A node without an entry is not reached. -/
theorem walk_ne_of_orphan (hroot : n ≠ root) (hw : s.walk dir = some d) : d ≠ n := by
  rintro rfl
  rcases List.eq_nil_or_concat dir with rfl | ⟨dir, name, rfl⟩
  · cases hw
    exact hroot rfl
  · rw [List.concat_eq_append, walk_concat] at hw
    obtain ⟨e, -, he⟩ := Option.bind_eq_some_iff.mp hw
    exact ho e (open_dir_eq_some he).1

theorem open_child_attach (node : RamNode) (hd : d ≠ n) (name : Name) :
    (s.attach q n node).open_child d name =
      if d = q then (s.open_child d name).or (if node.name = name then some n else none)
      else s.open_child d name := by
  have hcongr : (s.children d).find? (fun x => (s.attach q n node).filename x = name) =
      s.open_child d name := by
    apply List.find?_congr
    intro c hc
    rw [filename_attach, if_neg]
    rintro rfl
    exact ho d hc
  rw [open_child, children_attach_of_ne s q node hd]
  split
  · rw [List.find?_append, hcongr, List.find?_singleton, filename_attach, if_pos rfl]
    simp
  · exact hcongr

theorem open_dir_attach (hroot : n ≠ root) (hw : s.walk dir = some q) (hq : s.is_dir q)
    (hd : d ≠ n) (name : Name) :
    (s.attach q n node).open_dir d name =
      if d = q then
        (s.open_dir d name).or (if node.children.isSome ∧ node.name = name then some n else none)
      else s.open_dir d name := by
  have hne : n ≠ q := (walk_ne_of_orphan ho hroot hw).symm
  have hcongr : (s.children d).find?
      (fun x => (s.attach q n node).is_dir x ∧ (s.attach q n node).filename x = name) =
      s.open_dir d name := by
    apply List.find?_congr
    intro c hc
    have hc' : c ≠ n := by
      rintro rfl
      exact ho d hc
    rw [filename_attach, if_neg hc', is_dir_attach_of_ne node hq hc']
  rw [open_dir, children_attach_of_ne s q node hd]
  split
  · rw [List.find?_append, hcongr, List.find?_singleton, filename_attach, if_pos rfl,
      is_dir_attach_self s node hne]
    simp
  · exact hcongr

section Reached

variable (hroot : n ≠ root) (ht : s.Tree) (hw : s.walk dir = some q)

include hroot ht hw

/-- The ways that there were stay. -/
theorem walk_attach_of_walk (h : s.walk path = some d) :
    (s.attach q n node).walk path = some d := by
  induction path using List.reverseRecOn generalizing d with
  | nil => exact h
  | append_singleton path name ih =>
    rw [walk_concat] at h ⊢
    obtain ⟨e, he, hd⟩ := Option.bind_eq_some_iff.mp h
    rw [ih he, Option.bind_some,
      open_dir_attach ho hroot hw (is_dir_of_walk ht hw) (walk_ne_of_orphan ho hroot he), hd]
    split <;> rfl

/-- A directory that is reached is the new node, or below it, or was reached before. -/
theorem walk_of_walk_attach (hleaf : node.children.getD [] = [])
    (h : (s.attach q n node).walk path = some d) : d = n ∨ s.walk path = some d := by
  induction path using List.reverseRecOn generalizing d with
  | nil => exact Or.inr h
  | append_singleton path name ih =>
    rw [walk_concat] at h
    obtain ⟨e, he, hd⟩ := Option.bind_eq_some_iff.mp h
    rcases ih he with rfl | he
    · have hmem := (open_dir_eq_some hd).1
      rw [children_attach_self s node (walk_ne_of_orphan ho hroot hw).symm, hleaf] at hmem
      cases hmem
    rw [open_dir_attach ho hroot hw (is_dir_of_walk ht hw) (walk_ne_of_orphan ho hroot he)] at hd
    split at hd
    · rcases Option.or_eq_some_iff.mp hd with hd | ⟨-, hd⟩
      · exact Or.inr (by rw [walk_concat, he, Option.bind_some, hd])
      · split at hd
        · exact Or.inl (Option.some.inj hd).symm
        · cases hd
    · exact Or.inr (by rw [walk_concat, he, Option.bind_some, hd])

/-- Where the new entry is right, its name was free and its path is the one that leads to it. -/
theorem Named.free_of_attach (h : (s.attach q n node).Named) :
    (∀ c ∈ s.children q, s.filename c ≠ node.name) ∧ node.dir_path = dir ++ [node.name] := by
  have hq : q ≠ n := walk_ne_of_orphan ho hroot hw
  have hwalk : (s.attach q n node).walk dir = some q := walk_attach_of_walk ho hroot ht hw hw
  have hn : n ∈ (s.attach q n node).children q := by
    rw [children_attach_of_ne s q node hq, if_pos rfl]
    exact List.mem_append_right _ (List.mem_singleton.mpr rfl)
  have hopens := h.opens hwalk hn
  have hname : (s.attach q n node).filename n = node.name := by rw [filename_attach, if_pos rfl]
  have hplaced := h _ _ _ hopens
  refine ⟨?_, ?_⟩
  · intro c hc heq
    have hcn : c ≠ n := by
      rintro rfl
      exact ho q hc
    apply hcn
    apply hplaced.alone
    · rw [children_attach_of_ne s q node hq, if_pos rfl]
      exact List.mem_append_left _ hc
    · rw [hname, filename_attach, if_neg hcn, heq]
  · have hstored := hplaced.stored
    rw [hname, path_attach, if_pos rfl] at hstored
    exact hstored

/-- So does each node below it. -/
theorem Named.below_of_attach (h : (s.attach q n node).Named) {c : Nat}
    (hc : c ∈ node.children.getD []) (hcn : c ≠ n) :
    s.path c = dir ++ [node.name] ++ [s.filename c] := by
  have hq : q ≠ n := walk_ne_of_orphan ho hroot hw
  have hfree := (h.free_of_attach ho hroot ht hw).1
  have hnone : s.open_dir q node.name = none := by
    rw [RamFs.open_dir, List.find?_eq_none]
    intro c hc hboth
    exact hfree c hc (of_decide_eq_true hboth).2
  have hdir : node.children.isSome ∧ node.name = node.name := by
    refine ⟨?_, rfl⟩
    cases hch : node.children with
    | none =>
      rw [hch] at hc
      cases hc
    | some cs => rfl
  have hwalk : (s.attach q n node).walk (dir ++ [node.name]) = some n := by
    rw [walk_concat, walk_attach_of_walk ho hroot ht hw hw, Option.bind_some,
      open_dir_attach ho hroot hw (is_dir_of_walk ht hw) hq, if_pos rfl, hnone, if_pos hdir]
    rfl
  have hmem : c ∈ (s.attach q n node).children n := by
    rw [children_attach_self s node hq.symm]
    exact hc
  have hstored := (h _ _ _ (h.opens hwalk hmem)).stored
  rw [path_attach, if_neg hcn, filename_attach, if_neg hcn] at hstored
  exact hstored

theorem Named.attach (hs : s.Named) (hleaf : node.children.getD [] = [])
    (hfree : ∀ c ∈ s.children q, s.filename c ≠ node.name)
    (hpath : node.dir_path = dir ++ [node.name]) : (s.attach q n node).Named := by
  intro path' p e h
  obtain ⟨dir', name, rfl, hw', he⟩ := opens_iff.mp h
  rcases walk_of_walk_attach ho hroot ht hw hleaf hw' with rfl | hp
  · have hmem := (open_child_eq_some he).1
    rw [children_attach_self s node (walk_ne_of_orphan ho hroot hw).symm, hleaf] at hmem
    cases hmem
  have hpn : p ≠ n := walk_ne_of_orphan ho hroot hp
  have hold : ∀ {e}, e ≠ n → s.open_child p name = some e →
      (s.attach q n node).Placed (dir' ++ [name]) p e := by
    intro e hen he
    have hplaced := hs _ _ _ (opens_iff.mpr ⟨dir', name, rfl, hp, he⟩)
    refine ⟨?_, ?_⟩
    · rw [path_attach, if_neg hen]
      exact hplaced.stored
    · intro c hc hname
      rw [children_attach_of_ne s q node hpn] at hc
      rw [filename_attach, filename_attach, if_neg hen] at hname
      have hin : c ∈ s.children p := by
        split at hc
        · next hpq =>
          rcases List.mem_append.mp hc with hc | hc
          · exact hc
          · rw [if_pos (List.mem_singleton.mp hc)] at hname
            exact absurd hname.symm (hfree e (hpq ▸ (open_child_eq_some he).1))
        · exact hc
      have hcn : c ≠ n := by
        rintro rfl
        exact ho p hin
      rw [if_neg hcn] at hname
      exact hplaced.alone c hin hname
  have hmem : ∀ {e}, s.open_child p name = some e → e ≠ n := by
    intro e he hen
    exact ho p (hen ▸ (open_child_eq_some he).1)
  rw [open_child_attach ho node hpn] at he
  split at he
  · next hpq =>
    rcases Option.or_eq_some_iff.mp he with he | ⟨-, he⟩
    · exact hold (hmem he) he
    · split at he
      · next hname =>
        obtain rfl := Option.some.inj he
        subst hpq
        refine ⟨?_, ?_⟩
        · rw [path_attach, if_pos rfl, hpath, hname, ht.walk_unique hw hp]
        · intro c hc heq
          by_contra hcn
          rw [children_attach_of_ne s p node hpn, if_pos rfl] at hc
          rw [filename_attach, filename_attach, if_neg hcn, if_pos rfl] at heq
          rcases List.mem_append.mp hc with hc | hc
          · exact hfree c hc heq
          · exact hcn (List.mem_singleton.mp hc)
      · cases he
  · exact hold (hmem he) he

end Reached

/-- An entry in a directory that is not reached. -/
theorem Named.attach_unreached (hs : s.Named) (hroot : n ≠ root) (hqd : s.is_dir q)
    (hq : ∀ dir, s.walk dir ≠ some q) : (s.attach q n node).Named := by
  have hdir : ∀ {dir d}, s.walk dir = some d → (s.attach q n node).children d = s.children d := by
    intro dir d hw
    rw [children_attach_of_ne s q node (walk_ne_of_orphan ho hroot hw), if_neg]
    rintro rfl
    exact hq dir hw
  have hentry : ∀ {d c}, c ∈ s.children d →
      (s.attach q n node).filename c = s.filename c := by
    intro d c hc
    rw [filename_attach, if_neg]
    rintro rfl
    exact ho d hc
  have hwalk : ∀ dir, (s.attach q n node).walk dir = s.walk dir := by
    intro dir
    apply NodeTree.walk_congr
    intro pre name post d _ hd
    have hd : s.walk pre = some d := hd
    rw [RamFs.open_dir, RamFs.open_dir, hdir hd]
    apply List.find?_congr
    intro c hc
    have hcn : c ≠ n := by
      rintro rfl
      exact ho d hc
    rw [hentry hc, is_dir_attach_of_ne node hqd hcn]
  intro path' p e h
  obtain ⟨dir', name, rfl, hw', he⟩ := opens_iff.mp h
  rw [hwalk] at hw'
  have he' : s.open_child p name = some e := by
    rw [← he, RamFs.open_child, RamFs.open_child, hdir hw']
    apply List.find?_congr
    intro c hc
    rw [hentry hc]
  have hmem := (open_child_eq_some he').1
  have hplaced := hs _ _ _ (opens_iff.mpr ⟨dir', name, rfl, hw', he'⟩)
  refine ⟨?_, ?_⟩
  · rw [path_attach, if_neg]
    · exact hplaced.stored
    · rintro rfl
      exact ho p hmem
  · intro c hc hname
    rw [hdir hw'] at hc
    rw [hentry hc, hentry hmem] at hname
    exact hplaced.alone c hc hname

omit ho in
theorem mem_children_attach (hsub : ∀ c ∈ node.children.getD [], c ∈ s.children n) {c : Nat}
    (h : c ∈ (s.attach q n node).children d) : c ∈ s.children d ∨ c = n ∧ d = q := by
  have hset : ∀ c, c ∈ (s.set_node n node).children d → c ∈ s.children d := by
    intro c hc
    by_cases hd : d = n
    · subst hd
      simp only [set_node, children, Function.update_self] at hc
      exact hsub c hc
    · simpa [set_node, children, hd] using hc
  rw [attach, add_from_container, children_set_children] at h
  split at h
  · next hd =>
    subst hd
    rcases List.mem_append.mp h with h | h
    · exact Or.inl (hset c h)
    · exact Or.inr ⟨List.mem_singleton.mp h, rfl⟩
  · exact Or.inl (hset c h)

theorem Tree.attach (ht : s.Tree) (hroot : n ≠ root) (hqd : s.is_dir q)
    (hsub : ∀ c ∈ node.children.getD [], c ∈ s.children n)
    (hsplit : ∀ name ∈ node.dir_path, '/' ∉ name) {k : Nat} (hk : s.next ≤ k) (hn : n < k) :
    Tree { s.attach q n node with next := k } where
  unique p p' c h h' := by
    rcases mem_children_attach hsub h with hold | ⟨hc, hp⟩
    · rcases mem_children_attach hsub h' with hold' | ⟨hc', -⟩
      · exact ht.unique _ _ _ hold hold'
      · exact absurd (hc' ▸ hold) (ho p)
    · rcases mem_children_attach hsub h' with hold' | ⟨-, hp'⟩
      · exact absurd (hc ▸ hold') (ho p')
      · rw [hp, hp']
  root_free p h := by
    rcases mem_children_attach hsub h with h | ⟨rfl, -⟩
    · exact ht.root_free p h
    · exact hroot rfl
  fresh p c h := by
    rcases mem_children_attach hsub h with h | ⟨rfl, -⟩
    · exact Nat.lt_of_lt_of_le (ht.fresh p c h) hk
    · exact hn
  root_lt := Nat.lt_of_lt_of_le ht.root_lt hk
  root_dir := (is_dir_attach_of_ne node hqd hroot.symm).trans ht.root_dir
  root_name := by
    have h := filename_attach s q n root node
    rw [if_neg hroot.symm] at h
    exact h.trans ht.root_name
  root_path := by
    have h := path_attach s q n root node
    rw [if_neg hroot.symm] at h
    exact h.trans ht.root_path
  split e name h := by
    have h : name ∈ (s.attach q n node).path e := h
    rw [path_attach] at h
    split at h
    · exact hsplit name h
    · exact ht.split e name h

end Attach

/-- The address of the next node says nothing of names. -/
theorem Named.with_next (hs : s.Named) (k : Nat) : Named { s with next := k } := by
  intro path p n h
  obtain ⟨dir, name, hpath, hw, hn⟩ := opens_iff.mp h
  obtain ⟨hstored, halone⟩ := hs path p n (opens_iff.mpr ⟨dir, name, hpath, hw, hn⟩)
  exact ⟨hstored, halone⟩

end RamFs

end MyGOS.Fs
