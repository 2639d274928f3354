import MyGOS.Fs.RamPaths

/-!
# Runs of the RAM file system

What a call does to right paths: a node that is created gets the path of its
directory with the name of the directory once more, and a rename of a directory
leaves the paths below it as they were.
-/

namespace MyGOS.Fs

open Fat32 Outcome StepSystem

namespace RamFs

variable {s : RamFs} {path new_path : AbsolutePath} {name : Name} {n p q : Nat}

theorem tree_new : Tree new where
  unique _ _ _ h := absurd h List.not_mem_nil
  root_free _ := List.not_mem_nil
  fresh _ _ h := absurd h List.not_mem_nil
  root_lt := by decide
  root_dir := rfl
  root_name := rfl
  root_path := rfl
  split _ _ h := absurd h List.not_mem_nil

theorem named_new : Named new := fun _ _ _ h => absurd h.mem List.not_mem_nil

/-- The path that a new node gets is one of its directory. -/
theorem Named.path_in_eq (hs : s.Named) (ht : s.Tree) (hw : s.walk path = some p) :
    AbsolutePath.from_string (AbsolutePath.to_string (s.path p) ++ '/' :: s.filename p) =
      path_in path := by
  rcases List.eq_nil_or_concat path with rfl | ⟨dir, name, rfl⟩
  · obtain rfl : root = p := Option.some.inj hw
    rw [ht.root_path, ht.root_name]
    rfl
  · rw [List.concat_eq_append] at hw ⊢
    obtain ⟨e, ho⟩ := hs.opens_of_walk hw
    have hname : s.filename p = AbsolutePath.last (dir ++ [name]) := (open_child_eq_some ho.entry).2
    rw [(hs _ _ _ ho).stored, hname]
    rfl

/-- Below the root it is the path of the directory with its own name once more. -/
theorem path_in_normal (hs : AbsolutePath.Normal path) (hsplit : ∀ name ∈ path, '/' ∉ name)
    (hne : path ≠ []) : path_in path = path ++ [AbsolutePath.last path] := by
  have hlast : AbsolutePath.last path ∈ path := by
    rw [AbsolutePath.last_eq hne]
    exact List.getLast_mem hne
  have hprint : AbsolutePath.to_string path ++ '/' :: AbsolutePath.last path =
      AbsolutePath.to_string (path ++ [AbsolutePath.last path]) := by
    simp [AbsolutePath.to_string, AbsolutePath.is_root, hne]
  have hmem : ∀ name ∈ path ++ [AbsolutePath.last path], name ∈ path := by
    intro name h
    rcases List.mem_append.mp h with h | h
    · exact h
    · rw [List.mem_singleton.mp h]
      exact hlast
  rw [path_in, hprint, AbsolutePath.from_string_to_string _ fun name h => hsplit name (hmem name h)]
  exact AbsolutePath.Normal.foldl_push_name (fun name h => hs name (hmem name h)) []

example : path_in [] = [] := by decide

/-- The cases in which an `open` creates a node in `p`. -/
structure CreatesIn (s : RamFs) (path : AbsolutePath) (flags : OpenFlags) (p : Nat) : Prop where
  ne_nil : path ≠ []
  parent : s.find_parent_dir path = some p
  free : s.open_child p (AbsolutePath.last path) = none
  create : OpenFlags.contains flags .O_CREAT = true

theorem add_node_eq (children : Option (List Nat)) (h : s.open_child p name = none) :
    s.add_node p name children = .ok (s.next, { s.attach p s.next
      ⟨name, AbsolutePath.from_string
        (AbsolutePath.to_string (s.path p) ++ '/' :: s.filename p), children⟩ with
      next := s.next + 1 }) := by
  rw [add_node, h]
  rfl

theorem open_path_cases (s : RamFs) (path : AbsolutePath) (flags : OpenFlags) :
    (s.open_path path flags).2 = s ∧ (∀ p, ¬ s.CreatesIn path flags p) ∨
    ∃ p children, s.CreatesIn path flags p ∧ children.getD [] = [] ∧
      (s.open_path path flags).2 = { s.attach p s.next
        ⟨AbsolutePath.last path, AbsolutePath.from_string
          (AbsolutePath.to_string (s.path p) ++ '/' :: s.filename p), children⟩ with
        next := s.next + 1 } := by
  rw [open_path]
  split
  · next h => exact Or.inl ⟨rfl, fun p hp => hp.ne_nil h⟩
  next hne =>
  simp only
  cases hparent : s.find_parent_dir path with
  | none =>
    refine Or.inl ⟨rfl, fun p hp => ?_⟩
    rw [hp.parent] at hparent
    cases hparent
  | some p =>
    simp only
    cases hentry : s.open_child p (AbsolutePath.last path) with
    | some n =>
      refine Or.inl ⟨rfl, fun p' hp => ?_⟩
      obtain rfl := Option.some.inj (hparent.symm.trans hp.parent)
      have hfree := hp.free
      rw [hentry] at hfree
      cases hfree
    | none =>
      simp only
      split
      · next hcreat =>
        have hmkdir : s.mkdir p (AbsolutePath.last path) = _ := add_node_eq (some []) hentry
        have htouch : s.touch p (AbsolutePath.last path) = _ := add_node_eq none hentry
        by_cases hdir : OpenFlags.contains flags .O_DIRECTORY
        · refine Or.inr ⟨p, some [], ⟨hne, hparent, hentry, hcreat⟩, rfl, ?_⟩
          rw [if_pos hdir, hmkdir]
        · refine Or.inr ⟨p, none, ⟨hne, hparent, hentry, hcreat⟩, rfl, ?_⟩
          rw [if_neg hdir, htouch]
      · next hcreat => exact Or.inl ⟨rfl, fun p hp => hcreat hp.create⟩

/-- What the paths of the file system are after an `open`. -/
theorem open_path_spec (hs : s.Named) (ht : s.Tree) (path : SplitPath) (flags : OpenFlags) :
    (s.open_path path.val flags).2.Tree ∧
      ((s.open_path path.val flags).2.Named ↔ s.Permits (.open_path path flags)) := by
  rcases open_path_cases s path.val flags with ⟨heq, hno⟩ | ⟨p, children, hc, hleaf, heq⟩
  · rw [heq]
    refine ⟨ht, iff_of_true hs ?_⟩
    exact fun p hne hparent hfree hcreat => absurd ⟨hne, hparent, hfree, hcreat⟩ (hno p)
  have hw : s.walk path.val.dropLast = some p := by
    rw [← find_parent_dir_eq]
    exact hc.parent
  have hroot : s.next ≠ root := Nat.ne_of_gt ht.root_lt
  have ho : ∀ d, s.next ∉ s.children d := fun d h => Nat.lt_irrefl _ (ht.fresh d _ h)
  have hpath : path.val.dropLast ++ [AbsolutePath.last path.val] = path.val :=
    AbsolutePath.dropLast_append_last hc.ne_nil
  have hfree : ∀ c ∈ s.children p, s.filename c ≠ AbsolutePath.last path.val := by
    intro c hmem hname
    obtain ⟨e, he⟩ := open_child_isSome hmem hname
    rw [hc.free] at he
    cases he
  rw [heq, hs.path_in_eq ht hw]
  refine ⟨?_, ?_⟩
  · exact Tree.attach ho ht hroot (is_dir_of_walk ht hw) (by simp [hleaf])
      (AbsolutePath.from_string_split _) (Nat.le_succ _) (Nat.lt_succ_self _)
  constructor
  · intro hnamed p' hne hparent hnone hcreat
    have hstored := (Named.free_of_attach ho hroot ht hw (hnamed.with_next s.next)).2
    rwa [hpath] at hstored
  · intro hpermits
    apply Named.with_next
    apply Named.attach ho hroot ht hw hs hleaf hfree
    rw [hpath]
    exact hpermits p hc.ne_nil hc.parent hc.free hc.create

/-- An `open` that creates nothing. -/
theorem open_path_found (s : RamFs) (path : AbsolutePath) :
    path = [] ∧ s.open_path path 0 = (.ok root, s) ∨
    (∃ p n, s.Opens path p n ∧ s.open_path path 0 = (.ok n, s)) ∨
    (∀ p n, ¬ s.Opens path p n) ∧ ∃ e, s.open_path path 0 = (.error e, s) := by
  rw [open_path]
  by_cases hne : path = []
  · rw [if_pos hne]
    exact Or.inl ⟨hne, rfl⟩
  rw [if_neg hne]
  simp only
  cases hparent : s.find_parent_dir path with
  | none =>
    refine Or.inr (Or.inr ⟨fun p n ho => ?_, _, rfl⟩)
    rw [ho.parent] at hparent
    cases hparent
  | some p =>
    simp only
    cases hentry : s.open_child p (AbsolutePath.last path) with
    | some n => exact Or.inr (Or.inl ⟨p, n, ⟨hne, hparent, hentry⟩, rfl⟩)
    | none =>
      refine Or.inr (Or.inr ⟨fun p' n ho => ?_, _, rfl⟩)
      obtain rfl := Option.some.inj (hparent.symm.trans ho.parent)
      have he := ho.entry
      rw [hentry] at he
      cases he

/-- No entry has the name of the root. -/
theorem Named.remove_root (hs : s.Named) (ht : s.Tree) :
    s.remove root (s.filename root) = .error (.fileNotFound (s.filename root)) := by
  have hkept : ((s.children root).filter fun x => s.filename x ≠ s.filename root) =
      s.children root := by
    rw [List.filter_eq_self]
    intro c hc
    have hstored := (hs _ _ _ (hs.opens (show s.walk [] = some root from rfl) hc)).stored
    have hslash : '/' ∉ s.filename c := by
      apply ht.split c
      rw [hstored]
      exact List.mem_singleton.mpr rfl
    rw [ht.root_name]
    apply decide_eq_true
    intro heq
    rw [heq] at hslash
    exact hslash (List.mem_singleton.mpr rfl)
  rw [remove, hkept, if_neg (Nat.lt_irrefl _)]

theorem Named.parent_dir_root (ht : s.Tree) : s.parent_dir (s.path root) = .ok root := by
  rw [ht.root_path]
  rfl

theorem delete_spec (hs : s.Named) (ht : s.Tree) (path : SplitPath) :
    Meets (s.step (.delete path)) (fun _ => True) fun t => t.Tree ∧ t.Named := by
  rcases s.open_path_found path.val with ⟨-, heq⟩ | ⟨p, n, ho, heq⟩ | ⟨-, e, heq⟩
  · simp only [step, heq, delete, Named.parent_dir_root ht, ok_bind, hs.remove_root ht]
    trivial
  · simp only [step, heq]
    rw [((namesRight_iff ht ho).mpr (hs _ _ _ ho)).delete]
    exact ⟨ht.unlink ho, hs.unlink ht ho⟩
  · simp only [step, heq]
    exact ⟨ht, hs⟩

section Rename

variable (hs : s.Named) (ht : s.Tree) (ho : s.Opens path p n)

include ht ho

theorem Opens.ne_root : n ≠ root := by
  rintro rfl
  exact ht.root_free p ho.mem

include hs

omit ht in
/-- The entries of the node itself are reached through its path. -/
theorem Opens.walk_eq {c : Nat} (hc : c ∈ s.children n) : s.walk path = some n := by
  have hdir : s.is_dir n := by
    rw [is_dir]
    cases hch : (s.nodes n).children with
    | none =>
      rw [children, hch] at hc
      cases hc
    | some cs => rfl
  rw [ho.path_eq, walk_concat, ho.walk_dropLast, Option.bind_some,
    hs.open_dir ho.walk_dropLast ho.mem, if_pos hdir]

theorem Opens.ne_parent : n ≠ p := by
  rintro rfl
  have hw := ho.walk_eq hs ho.mem
  have hlen := congrArg List.length (ht.walk_unique hw ho.walk_dropLast)
  rw [List.length_dropLast] at hlen
  have hpos := List.length_pos_iff.mpr ho.ne_nil
  omega

theorem children_unlink_self : (s.unlink p n).children n = s.children n := by
  rw [unlink, children_set_children, if_neg (ho.ne_parent hs ht)]

omit hs in
theorem mem_children_unlink {c d : Nat} :
    c ∈ (s.unlink p n).children d ↔ c ∈ s.children d ∧ c ≠ n := by
  constructor
  · intro h
    refine ⟨mem_of_mem_children_unlink h, ?_⟩
    rintro rfl
    exact not_mem_children_unlink ht ho d h
  · rintro ⟨hc, hne⟩
    rw [unlink, children_set_children]
    split
    · next hd => exact List.mem_filter.mpr ⟨hd ▸ hc, by simpa using hne⟩
    · exact hc

omit hs ht ho in
theorem link_eq (new_path : AbsolutePath) :
    (s.unlink p n).link q n new_path = { (s.unlink p n).attach q n
      ⟨AbsolutePath.last new_path, new_path, ((s.unlink p n).nodes n).children⟩ with
      next := s.next } := rfl

omit hs in
theorem Tree.link (hq : s.is_dir q) (hsplit : ∀ name ∈ new_path, '/' ∉ name) :
    ((s.unlink p n).link q n new_path).Tree := by
  rw [link_eq]
  apply Tree.attach (not_mem_children_unlink ht ho) (ht.unlink ho) (ho.ne_root ht)
  · rw [is_dir_unlink ht ho]
    exact hq
  · exact fun c hc => hc
  · exact hsplit
  · exact Nat.le_refl _
  · exact ht.fresh p n ho.mem

/-- A rename to the same path leaves what each name opens. -/
theorem Named.link_same : ((s.unlink p n).link p n path).Named := by
  have horphan := not_mem_children_unlink ht ho
  have hnp := ho.ne_parent hs ht
  have hlast : AbsolutePath.last path = s.filename n := (open_child_eq_some ho.entry).2.symm
  have hw : (s.unlink p n).walk path.dropLast = some p := by
    rw [walk_unlink hs ht ho, if_neg, ho.walk_dropLast]
    intro hpre
    have hle := hpre.length_le
    have hpos := List.length_pos_iff.mpr ho.ne_nil
    rw [List.length_dropLast] at hle
    omega
  have hpd := is_dir_of_walk (ht.unlink ho) hw
  rw [link_eq]
  apply Named.with_next
  generalize hnode : (⟨AbsolutePath.last path, path, ((s.unlink p n).nodes n).children⟩ : RamNode) =
    node
  have hself : node.children.getD [] = s.children n := by
    rw [← hnode]
    exact children_unlink_self hs ht ho
  have hname : node.name = s.filename n := by rw [← hnode, hlast]
  have hfilename : ((s.unlink p n).attach p n node).filename = s.filename := by
    funext e
    rw [filename_attach, RamFs.unlink, filename_set_children]
    split
    · next he => rw [he, hname]
    · rfl
  have hpath : ((s.unlink p n).attach p n node).path = s.path := by
    funext e
    rw [path_attach, RamFs.unlink, path_set_children]
    split
    · next he => rw [he, ← hnode, (hs _ _ _ ho).stored]
    · rfl
  have hsome : node.children.isSome = s.is_dir n := by
    rw [← is_dir_unlink ht ho, ← hnode]
    rfl
  have hdir : ((s.unlink p n).attach p n node).is_dir = s.is_dir := by
    funext e
    by_cases he : e = n
    · rw [he, is_dir_attach_self _ _ hnp, hsome]
    · rw [is_dir_attach_of_ne node hpd he, is_dir_unlink ht ho]
  apply hs.congr hfilename hpath
  · funext d name
    by_cases hd : d = n
    · rw [hd, RamFs.open_dir, RamFs.open_dir, hfilename, hdir, children_attach_self _ _ hnp, hself]
    rw [open_dir_attach horphan (ho.ne_root ht) hw hpd hd, open_dir_unlink hs ht ho]
    by_cases hdp : d = p
    · rw [if_pos hdp, hdp, hname, hsome]
      by_cases heq : s.filename n = name
      · rw [← heq, if_pos ⟨rfl, rfl⟩, hs.open_dir ho.walk_dropLast ho.mem]
        simp
      · rw [if_neg fun h => heq h.2.symm, if_neg fun h => heq h.2, Option.or_none]
    · rw [if_neg hdp, if_neg fun h => hdp h.1]
  · intro d name
    by_cases hd : d = n
    · rw [hd, RamFs.open_child, RamFs.open_child, hfilename, children_attach_self _ _ hnp, hself]
    rw [open_child_attach horphan node hd, open_child_unlink hs ho]
    by_cases hdp : d = p
    · rw [if_pos hdp, hdp, hname]
      by_cases heq : s.filename n = name
      · rw [← heq, if_pos ⟨rfl, rfl⟩, hs.open_child ho.walk_dropLast ho.mem, if_pos rfl]
        rfl
      · rw [if_neg fun h => heq h.2.symm, if_neg heq, Option.or_none]
    · rw [if_neg hdp, if_neg fun h => hdp h.1]
  · intro d c hc
    have hsub : ∀ c ∈ node.children.getD [], c ∈ (s.unlink p n).children n := by
      intro c hc
      rwa [children_unlink_self hs ht ho, ← hself]
    rcases mem_children_attach hsub hc with hc | ⟨rfl, rfl⟩
    · exact mem_of_mem_children_unlink hc
    · exact ho.mem

/-- A directory that goes below itself is no longer reached. -/
theorem Named.link_below (hq : s.walk new_path.dropLast = some q)
    (hbelow : path <+: new_path.dropLast) : ((s.unlink p n).link q n new_path).Named := by
  rw [link_eq]
  apply Named.with_next
  apply Named.attach_unreached (not_mem_children_unlink ht ho) (hs.unlink ht ho) (ho.ne_root ht)
  · rw [is_dir_unlink ht ho]
    exact is_dir_of_walk ht hq
  · intro dir hdir
    rw [walk_unlink hs ht ho] at hdir
    split at hdir
    · cases hdir
    · next hpre =>
      rw [ht.walk_unique hdir hq] at hpre
      exact hpre hbelow

/-- Elsewhere a node keeps no children, and its new name is free. -/
theorem named_link_iff (hq : s.walk new_path.dropLast = some q)
    (hbelow : ¬ path <+: new_path.dropLast) (hne : new_path ≠ path) :
    ((s.unlink p n).link q n new_path).Named ↔
      new_path ≠ [] ∧ s.children n = [] ∧
        ∀ c ∈ s.children q, c ≠ n → s.filename c ≠ AbsolutePath.last new_path := by
  have horphan := not_mem_children_unlink ht ho
  have hroot := ho.ne_root ht
  have ht' := ht.unlink ho
  have hw : (s.unlink p n).walk new_path.dropLast = some q := by
    rw [walk_unlink hs ht ho, if_neg hbelow, hq]
  have hname : (s.unlink p n).filename = s.filename := filename_set_children ..
  have hpath : (s.unlink p n).path = s.path := path_set_children ..
  have hself : ((s.unlink p n).nodes n).children.getD [] = s.children n :=
    children_unlink_self hs ht ho
  rw [link_eq]
  constructor
  · intro hnamed
    have hnamed := hnamed.with_next (s.unlink p n).next
    obtain ⟨hfree, hlast⟩ := Named.free_of_attach horphan hroot ht' hw hnamed
    refine ⟨?_, ?_, ?_⟩
    · intro hnil
      rw [hnil] at hlast
      cases hlast
    · by_contra hchildren
      obtain ⟨c, hc⟩ := List.exists_mem_of_ne_nil _ hchildren
      have hcn : c ≠ n := by
        rintro rfl
        exact ho.ne_parent hs ht (ht.unique _ _ _ hc ho.mem)
      have hbelow := Named.below_of_attach horphan hroot ht' hw hnamed (hself ▸ hc) hcn
      have hstored := (hs _ _ _ (hs.opens (ho.walk_eq hs hc) hc)).stored
      rw [hpath, hname, hstored, ← hlast] at hbelow
      exact hne (List.append_cancel_right hbelow).symm
    · intro c hc hcn
      rw [← hname]
      exact hfree c ((mem_children_unlink ht ho).mpr ⟨hc, hcn⟩)
  · rintro ⟨hnil, hchildren, hfree⟩
    apply Named.with_next
    apply Named.attach horphan hroot ht' hw (hs.unlink ht ho)
    · exact hself.trans hchildren
    · intro c hc
      rw [hname]
      obtain ⟨hc, hcn⟩ := (mem_children_unlink ht ho).mp hc
      exact hfree c hc hcn
    · exact (AbsolutePath.dropLast_append_last hnil).symm

end Rename

theorem rename_spec (hs : s.Named) (ht : s.Tree) (path new_path : SplitPath) :
    Meets (s.step (.rename path new_path)) (fun _ => s.Permits (.rename path new_path))
      fun t => t.Tree ∧ (t.Named ↔ s.Permits (.rename path new_path)) := by
  rcases s.open_path_found path.val with ⟨hnil, heq⟩ | ⟨p, n, ho, heq⟩ | ⟨hno, e, heq⟩
  · have hpermits : s.Permits (.rename path new_path) :=
      fun p n q ho => absurd hnil ho.ne_nil
    simp only [step, heq, rename, Named.parent_dir_root ht, ok_bind, hs.remove_root ht]
    cases s.parent_dir new_path.val <;> exact hpermits
  · simp only [step, heq]
    cases hq : s.find_parent_dir new_path.val with
    | none =>
      rw [rename, parent_dir, hq]
      intro p' n' q _ hq'
      rw [hq] at hq'
      cases hq'
    | some q =>
      rw [((namesRight_iff ht ho).mpr (hs _ _ _ ho)).rename _ _ hq]
      have hw : s.walk new_path.val.dropLast = some q := by
        rw [← find_parent_dir_eq]
        exact hq
      refine ⟨ht.link ho (is_dir_of_walk ht hw) new_path.property, ?_⟩
      have hpermits : s.Permits (.rename path new_path) ↔
          path.val <+: new_path.val.dropLast ∨ new_path.val = path.val ∨
            new_path.val ≠ [] ∧ s.children n = [] ∧
              ∀ c ∈ s.children q, c ≠ n → s.filename c ≠ AbsolutePath.last new_path.val := by
        constructor
        · exact fun h => h p n q ho hq
        · intro h p' n' q' ho' hq'
          obtain rfl := Option.some.inj (ho.parent.symm.trans ho'.parent)
          obtain rfl := Option.some.inj (ho.entry.symm.trans ho'.entry)
          obtain rfl := Option.some.inj (hq.symm.trans hq')
          exact h
      rw [hpermits]
      by_cases hbelow : path.val <+: new_path.val.dropLast
      · exact iff_of_true (hs.link_below ht ho hw hbelow) (Or.inl hbelow)
      by_cases hsame : new_path.val = path.val
      · have hqp : q = p := by
          rw [hsame] at hw
          exact Option.some.inj (hw.symm.trans ho.walk_dropLast)
        rw [hqp, hsame]
        exact iff_of_true (hs.link_same ht ho) (Or.inr (Or.inl rfl))
      rw [named_link_iff hs ht ho hw hbelow hsame]
      simp only [hbelow, hsame, false_or]
  · simp only [step, heq]
    exact ⟨ht, iff_of_true hs fun p n q ho => absurd ho (hno p n)⟩

/-- One call. -/
theorem step_spec (hs : s.Named) (ht : s.Tree) (call : RamCall) :
    Meets (s.step call) (fun _ => s.Permits call)
      fun t => t.Tree ∧ (t.Named ↔ s.Permits call) := by
  cases call with
  | open_path path flags => exact open_path_spec hs ht path flags
  | delete path =>
    refine ((delete_spec hs ht path).mono fun t h => ⟨h.1, ?_⟩).mono_error fun _ h => h
    exact iff_of_true h.2 trivial
  | rename path new_path => exact rename_spec hs ht path new_path

/-- From a tree whose paths are right, a run keeps them right exactly as long as each call is
one that is permitted. -/
theorem pathsRight_iff_guarded (ht : s.Tree) (hs : s.PathsRight) (calls : List RamCall) :
    (∀ t ∈ states step s calls, t.PathsRight) ↔ Guarded step Permits s calls := by
  rw [RamFs.pathsRight_iff ht] at hs
  induction calls generalizing s with
  | nil =>
    refine iff_of_true ?_ trivial
    intro t h
    rw [List.mem_singleton.mp h, pathsRight_iff ht]
    exact hs
  | cons call calls ih =>
    have hstep := step_spec hs ht call
    simp only [states, List.forall_mem_cons, Guarded, pathsRight_iff ht]
    cases hcall : s.step call with
    | error e =>
      rw [hcall] at hstep
      simp only [List.not_mem_nil, false_imp_iff, implies_true, and_true]
      exact iff_of_true hs hstep
    | ok t =>
      rw [hcall] at hstep
      obtain ⟨ht', hiff⟩ := hstep
      simp only
      constructor
      · rintro ⟨-, hall⟩
        have hnamed := (pathsRight_iff ht').mp (hall t (mem_states_self t calls))
        exact ⟨hiff.mp hnamed, (ih ht' hnamed).mp hall⟩
      · rintro ⟨hpermits, hrest⟩
        exact ⟨hs, (ih ht' (hiff.mpr hpermits)).mpr hrest⟩

section OneFile

def plain_path (names : AbsolutePath) (h : ∀ name ∈ names, '/' ∉ name := by decide) : SplitPath :=
  ⟨names, h⟩

/-- The file `/a`, after a rename. -/
def one_file : RamFs := { new.attach root 1 ⟨['a'], [['a']], none⟩ with next := 2 }

theorem tree_one_file : one_file.Tree :=
  Tree.attach (fun _ => List.not_mem_nil) tree_new (by decide) rfl
    (fun _ h => absurd h List.not_mem_nil) (by decide) (by decide) (by decide)

theorem named_one_file : one_file.Named :=
  (Named.attach (fun _ => List.not_mem_nil) (by decide) tree_new
    (show new.walk [] = some root from rfl) named_new rfl
    (fun _ h => absurd h List.not_mem_nil) rfl).with_next 2

theorem pathsRight_rename_file : ∃ t,
    run step one_file [.rename (plain_path [['a']]) (plain_path [['b']])] = .ok t ∧
      t.PathsRight := by
  obtain ⟨t, ht⟩ : ∃ t,
      run step one_file [.rename (plain_path [['a']]) (plain_path [['b']])] = .ok t := ⟨_, rfl⟩
  have hguarded : Guarded step Permits one_file
      [.rename (plain_path [['a']]) (plain_path [['b']])] := by
    refine ⟨?_, trivial⟩
    intro p n q ho hq
    obtain rfl : root = p := Option.some.inj ho.parent
    obtain rfl : root = q := Option.some.inj hq
    obtain rfl : 1 = n := Option.some.inj ho.entry
    refine Or.inr (Or.inr ⟨by decide, rfl, ?_⟩)
    intro c hc hne
    exact absurd (List.mem_singleton.mp hc) hne
  exact ⟨t, ht, (pathsRight_iff_guarded tree_one_file
    ((pathsRight_iff tree_one_file).mpr named_one_file) _).mpr hguarded t (mem_states_of_run ht)⟩

end OneFile

/-- The directory `/d` and the file `/d/f`. -/
def file_below : List RamCall :=
  [.open_path (plain_path [['d']]) (.O_CREAT ||| .O_DIRECTORY),
    .open_path (plain_path [['d'], ['f']]) .O_CREAT]

/-- The path of the file is the one of its directory. -/
theorem not_pathsRight_file_below : ¬ ∀ t ∈ states step new file_below, t.PathsRight := by
  intro h
  obtain ⟨t, ht⟩ : ∃ t, run step new file_below = .ok t := ⟨_, rfl⟩
  have hright := h t (mem_states_of_run ht)
  obtain rfl := Except.ok.inj ht
  obtain ⟨q, ho⟩ := (hright [['d'], ['f']] 1 2 ⟨by decide, rfl, rfl⟩).resolves
  obtain rfl : root = q := Option.some.inj ho.parent
  have hentry : some 1 = some 2 := ho.entry
  cases hentry

end RamFs

end MyGOS.Fs
