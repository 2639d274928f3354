import MyGOS.Fs.AbsolutePath
import MyGOS.Lib.NodeTree
import MyGOS.Lib.StepSystem

/-!
# Directories of the RAM file system

A node has a name and a path of its own, and a directory has the nodes of its
entries. A node is created with the path of its directory, and a rename gives it
its whole path. Flags, times and contents play no part in this.
-/

namespace MyGOS.Fs

open Fat32 Outcome StepSystem

/-- The last name of a path. -/
def AbsolutePath.last (path : AbsolutePath) : Name := path.getLastD ['/']

theorem AbsolutePath.last_eq {path : AbsolutePath} (h : path ≠ []) :
    AbsolutePath.last path = path.getLast h := by
  rw [last, List.getLastD_eq_getLast?, List.getLast?_eq_getLast_of_ne_nil h, Option.getD_some]

theorem AbsolutePath.dropLast_append_last {path : AbsolutePath} (h : path ≠ []) :
    path.dropLast ++ [AbsolutePath.last path] = path := by
  rw [last_eq h, List.dropLast_append_getLast h]

/-- What a `RamFileInner` or a `RamDirInner` says of names. A file has no list of children. -/
structure RamNode where
  name : Name
  dir_path : AbsolutePath
  children : Option (List Nat)

/-- The nodes of the file system by their addresses; node 0 is the root. -/
structure RamFs where
  nodes : Nat → RamNode
  next : Nat

inductive RamErrno where
  | ENOENT
  | EEXIST
deriving DecidableEq

/-- The `unwrap`s of `delete` and `rename`. -/
inductive RamPanic where
  | noParent (path : AbsolutePath)
  | fileNotFound (name : Name)
deriving DecidableEq

namespace RamFs

def root : Nat := 0

def new : RamFs where
  nodes _ := ⟨['/'], [], some []⟩
  next := 1

variable (s : RamFs)

def filename (n : Nat) : Name := (s.nodes n).name

def path (n : Nat) : AbsolutePath := (s.nodes n).dir_path

def children (d : Nat) : List Nat := (s.nodes d).children.getD []

def is_dir (n : Nat) : Bool := (s.nodes n).children.isSome

def set_node (n : Nat) (node : RamNode) : RamFs :=
  { s with nodes := Function.update s.nodes n node }

def set_children (d : Nat) (children : List Nat) : RamFs :=
  s.set_node d { s.nodes d with children := some children }

/-- `RamDir::open`. -/
def open_child (d : Nat) (name : Name) : Option Nat :=
  (s.children d).find? fun x => s.filename x = name

def open_dir (d : Nat) (name : Name) : Option Nat :=
  (s.children d).find? fun x => s.is_dir x ∧ s.filename x = name

def add_from_container (d n : Nat) : RamFs := s.set_children d (s.children d ++ [n])

/-- What `touch` and `mkdir` have in common: the new node gets the path and the name of the
directory as its path. -/
def add_node (d : Nat) (name : Name) (children : Option (List Nat)) :
    Except RamErrno (Nat × RamFs) :=
  if (s.open_child d name).isSome then .error .EEXIST
  else
    let new_path := AbsolutePath.to_string (s.path d) ++ '/' :: s.filename d
    let s' := s.set_node s.next ⟨name, AbsolutePath.from_string new_path, children⟩
    .ok (s.next, { s'.add_from_container d s.next with next := s.next + 1 })

def touch (d : Nat) (name : Name) : Except RamErrno (Nat × RamFs) := s.add_node d name none

def mkdir (d : Nat) (name : Name) : Except RamErrno (Nat × RamFs) := s.add_node d name (some [])

/-- `drain_filter` takes every entry of the name. -/
def remove (d : Nat) (name : Name) : Except RamPanic RamFs :=
  let kept := (s.children d).filter fun x => s.filename x ≠ name
  if kept.length < (s.children d).length then .ok (s.set_children d kept)
  else .error (.fileNotFound name)

def find_parent_dir (path : AbsolutePath) : Option Nat :=
  if path = [] then some root
  else (path.take (path.length - 1)).foldlM s.open_dir root

def open_path (path : AbsolutePath) (flags : OpenFlags) : Except RamErrno Nat × RamFs :=
  if path = [] then (.ok root, s)
  else
    let target := AbsolutePath.last path
    match s.find_parent_dir path with
    | none => (.error .ENOENT, s)
    | some parent =>
      match s.open_child parent target with
      | some file => (.ok file, s)
      | none =>
        if OpenFlags.contains flags .O_CREAT then
          let created := if OpenFlags.contains flags .O_DIRECTORY then s.mkdir parent target
            else s.touch parent target
          match created with
          | .ok (file, s) => (.ok file, s)
          | .error e => (.error e, s)
        else (.error .ENOENT, s)

/-- `find_parent_dir(path).unwrap()`. -/
def parent_dir (path : AbsolutePath) : Except RamPanic Nat :=
  match s.find_parent_dir path with
  | some d => .ok d
  | none => .error (.noParent path)

def delete (n : Nat) : Except RamPanic RamFs := do
  let parent ← s.parent_dir (s.path n)
  s.remove parent (s.filename n)

def rename (n : Nat) (new_path : AbsolutePath) : Except RamPanic RamFs := do
  let new_parent ← s.parent_dir new_path
  let old_parent ← s.parent_dir (s.path n)
  let s ← s.remove old_parent (s.filename n)
  let s := s.set_node n
    { s.nodes n with dir_path := new_path, name := AbsolutePath.last new_path }
  return s.add_from_container new_parent n

end RamFs

/-- A path whose names come from a string cut at each `/`. -/
abbrev SplitPath := {path : AbsolutePath // ∀ name ∈ path, '/' ∉ name}

/-- The calls on paths. The flags of an `open_path` tell whether it creates a file or a
directory. -/
inductive RamCall where
  | open_path (path : SplitPath) (flags : OpenFlags)
  | delete (path : SplitPath)
  | rename (path new_path : SplitPath)

namespace RamFs

/-- A node is deleted or renamed through what an `open` without `O_CREAT` returns. -/
def step (s : RamFs) : RamCall → Except RamPanic RamFs
  | .open_path path flags => .ok (s.open_path path.val flags).2
  | .delete path =>
    match s.open_path path.val 0 with
    | (.ok n, s) => s.delete n
    | (.error _, s) => .ok s
  | .rename path new_path =>
    match s.open_path path.val 0 with
    | (.ok n, s) => s.rename n new_path.val
    | (.error _, s) => .ok s

/-- `path` opens the node `n`, which is an entry of the directory `p`. -/
structure Opens (s : RamFs) (path : AbsolutePath) (p n : Nat) : Prop where
  ne_nil : path ≠ []
  parent : s.find_parent_dir path = some p
  entry : s.open_child p (AbsolutePath.last path) = some n

/-- The entry of `n` is taken from `p`, and nothing else. -/
def unlink (s : RamFs) (p n : Nat) : RamFs :=
  s.set_children p ((s.children p).filter fun x => x ≠ n)

/-- An entry for `n` under the last name of `path`. -/
def link (s : RamFs) (q n : Nat) (path : AbsolutePath) : RamFs :=
  (s.set_node n { s.nodes n with dir_path := path, name := AbsolutePath.last path })
    |>.add_from_container q n

/-- The path of `n` leads to `n`, and its entry in `p` is what goes when it is deleted, and what
moves when it is renamed. -/
structure NamesRight (s : RamFs) (p n : Nat) : Prop where
  resolves : ∃ q, s.Opens (s.path n) q n
  delete : s.delete n = .ok (s.unlink p n)
  rename : ∀ new_path q, s.find_parent_dir new_path = some q →
    s.rename n new_path = .ok ((s.unlink p n).link q n new_path)

/-- So it is for every node that can be opened. -/
def PathsRight (s : RamFs) : Prop := ∀ path p n, s.Opens path p n → s.NamesRight p n

/-- The path of a node that is created in the directory of this path. -/
def path_in (dir : AbsolutePath) : AbsolutePath :=
  AbsolutePath.from_string (AbsolutePath.to_string dir ++ '/' :: AbsolutePath.last dir)

/-- A new node gets the path it has. A renamed node has no children, unless it goes below itself
or stays, and finds its new name free. -/
def Permits (s : RamFs) : RamCall → Prop
  | .open_path path flags => ∀ p, path.val ≠ [] → s.find_parent_dir path.val = some p →
      s.open_child p (AbsolutePath.last path.val) = none →
      OpenFlags.contains flags .O_CREAT → path_in path.val.dropLast = path.val
  | .delete _ => True
  | .rename path new_path => ∀ p n q, s.Opens path.val p n →
      s.find_parent_dir new_path.val = some q →
      path.val <+: new_path.val.dropLast ∨ new_path.val = path.val ∨
        new_path.val ≠ [] ∧ s.children n = [] ∧
          ∀ c ∈ s.children q, c ≠ n → s.filename c ≠ AbsolutePath.last new_path.val

end RamFs

end MyGOS.Fs
