import MyGOS.Fs.KFile
import Mathlib.Algebra.Group.Nat.Even

/-!
# Absolute paths

`AbsolutePath::from_string` resolves the `..` of one string, and keeps one that
finds no name before it. `AbsolutePath::cd` resolves a relative path in this way
and then appends what is left of it to the path it starts from.
-/

namespace MyGOS.Fs

open Fat32

namespace AbsolutePath

def dot : Name := ['.']
def dotdot : Name := ['.', '.']

/-- One round of the loop of `AbsolutePath::from`. -/
def push_name (components : List Name) (name : Name) : List Name :=
  if name = dot ∨ name = [] then components
  else if name = dotdot then
    match components.getLast? with
    | none => components ++ [name]
    | some _ => components.dropLast
  else components ++ [name]

def from_names (names : List Name) : AbsolutePath := names.foldl push_name []

def from_string (path : List Char) : AbsolutePath := from_names (path.splitOn '/')

def is_root (self : AbsolutePath) : Bool := self.length == 0

def to_string (self : AbsolutePath) : List Char :=
  if self.is_root then ['/'] else self.flatMap ('/' :: ·)

def cd (self : AbsolutePath) (path : List Char) : AbsolutePath :=
  if path.head? = some '/' then from_string path
  else (from_string path).foldl (fun res p => res ++ [p]) self

/-! ## Lexical resolution -/

/-- Every component is the name of an entry. -/
def Normal (path : AbsolutePath) : Prop :=
  ∀ name ∈ path, name ≠ [] ∧ name ≠ dot ∧ name ≠ dotdot

/-- `..` leads to the parent, and the root is its own parent. -/
def resolve_name (stack : List Name) (name : Name) : List Name :=
  if name = dot ∨ name = [] then stack
  else if name = dotdot then stack.dropLast
  else stack ++ [name]

/-- Where `path` starts when it is followed from `self`. -/
def base (self : AbsolutePath) (path : List Char) : AbsolutePath :=
  if path.head? = some '/' then [] else self

def resolve (self : AbsolutePath) (path : List Char) : AbsolutePath :=
  (path.splitOn '/').foldl resolve_name (self.base path)

/-- How many of the `..` among `names` find nothing of `stack` left to leave. -/
def climbs (stack : List Name) : List Name → Nat
  | [] => 0
  | name :: names =>
    (if name = dotdot ∧ stack = [] then 1 else 0) + climbs (resolve_name stack name) names

section

variable {a : AbsolutePath} {stack names : List Name} {name other : Name}

theorem resolve_name_append (hs : stack ≠ []) (a : List Name) (name : Name) :
    resolve_name (a ++ stack) name = a ++ resolve_name stack name := by
  unfold resolve_name
  split_ifs
  · rfl
  · exact List.dropLast_append_of_ne_nil hs
  · exact List.append_assoc ..

theorem resolve_name_plain (h : name ≠ dotdot) (a stack : List Name) :
    resolve_name (a ++ stack) name = a ++ resolve_name stack name := by
  unfold resolve_name
  split_ifs
  · rfl
  · exact List.append_assoc ..

theorem resolve_name_dotdot (stack : List Name) : resolve_name stack dotdot = stack.dropLast := rfl

/-- A path followed from `a` takes away one name of `a` for each `..` that would
leave its own start, and then adds what it leads to from there. -/
theorem foldl_resolve_name (names a stack : List Name) :
    names.foldl resolve_name (a ++ stack) =
      a.take (a.length - climbs stack names) ++ names.foldl resolve_name stack := by
  induction names generalizing a stack with
  | nil => simp [climbs]
  | cons name names ih =>
    rw [List.foldl_cons, List.foldl_cons, climbs]
    by_cases h : name = dotdot ∧ stack = []
    · obtain ⟨rfl, rfl⟩ := h
      rw [if_pos ⟨rfl, rfl⟩, List.append_nil, resolve_name_dotdot, resolve_name_dotdot,
        List.dropLast_nil, ← List.append_nil a.dropLast, ih, List.dropLast_eq_take, List.take_take,
        List.length_take]
      congr 2
      omega
    · rw [if_neg h, Nat.zero_add]
      have happend : resolve_name (a ++ stack) name = a ++ resolve_name stack name := by
        by_cases hname : name = dotdot
        · exact resolve_name_append (fun hs => h ⟨hname, hs⟩) a name
        · exact resolve_name_plain hname a stack
      rw [happend, ih]

theorem push_name_eq (stack : List Name) (name : Name) :
    push_name stack name =
      if name = dotdot ∧ stack = [] then [dotdot] else resolve_name stack name := by
  unfold push_name resolve_name
  by_cases hdot : name = dot ∨ name = []
  · have hne : name ≠ dotdot := by
      rintro rfl
      simp [dot, dotdot] at hdot
    rw [if_pos hdot, if_pos hdot, if_neg fun h => hne h.1]
  · rw [if_neg hdot, if_neg hdot]
    by_cases hname : name = dotdot
    · subst hname
      rcases List.eq_nil_or_concat stack with rfl | ⟨front, last, rfl⟩
      · rfl
      · simp
    · rw [if_neg hname, if_neg hname, if_neg fun h => hname h.1]

/-- What the loop of `from` holds: the resolved names, under a `..` that was
kept when an odd number of them found nothing to leave. -/
def kept (odd : Bool) (stack : List Name) : List Name := if odd then dotdot :: stack else stack

theorem push_name_kept (odd : Bool) (stack : List Name) (name : Name) :
    push_name (kept odd stack) name =
      kept (odd ^^ decide (name = dotdot ∧ stack = [])) (resolve_name stack name) := by
  rw [push_name_eq]
  cases odd with
  | false =>
    by_cases h : name = dotdot ∧ stack = []
    · obtain ⟨rfl, rfl⟩ := h
      rfl
    · simp [kept, h]
  | true =>
    have hne : dotdot :: stack ≠ [] := List.cons_ne_nil _ _
    rw [kept, if_pos rfl, if_neg fun h => hne h.2]
    by_cases h : name = dotdot ∧ stack = []
    · obtain ⟨rfl, rfl⟩ := h
      rfl
    · have happend : resolve_name ([dotdot] ++ stack) name = [dotdot] ++ resolve_name stack name := by
        by_cases hname : name = dotdot
        · exact resolve_name_append (fun hs => h ⟨hname, hs⟩) _ name
        · exact resolve_name_plain hname _ stack
      simpa [kept, h] using happend

theorem foldl_push_name (names : List Name) (odd : Bool) (stack : List Name) :
    names.foldl push_name (kept odd stack) =
      kept (odd ^^ decide (climbs stack names % 2 = 1)) (names.foldl resolve_name stack) := by
  induction names generalizing odd stack with
  | nil => simp [climbs]
  | cons name names ih =>
    rw [List.foldl_cons, List.foldl_cons, climbs, push_name_kept, ih, Bool.xor_assoc]
    congr 2
    by_cases h : name = dotdot ∧ stack = []
    · rw [if_pos h, decide_eq_true h, Bool.true_xor, ← decide_not, decide_eq_decide]
      omega
    · rw [if_neg h, decide_eq_false h, Bool.false_xor, Nat.zero_add]

theorem from_string_eq (path : List Char) :
    from_string path = kept (decide (climbs [] (path.splitOn '/') % 2 = 1))
      ((path.splitOn '/').foldl resolve_name []) := by
  have h := foldl_push_name (path.splitOn '/') false []
  rwa [Bool.false_xor] at h

theorem foldl_concat (names a : List Name) :
    names.foldl (fun res p => res ++ [p]) a = a ++ names := by
  induction names generalizing a with
  | nil => simp
  | cons name names ih => simp [ih]

theorem cd_eq (a : AbsolutePath) (path : List Char) :
    a.cd path = a.base path ++ from_string path := by
  unfold cd base
  split_ifs
  · rfl
  · exact foldl_concat _ _

theorem Normal.resolve_name (hs : Normal stack) (name : Name) :
    Normal (resolve_name stack name) := by
  unfold AbsolutePath.resolve_name
  split_ifs with hdot hname
  · exact hs
  · exact fun other h => hs other (List.dropLast_subset _ h)
  · intro other h
    rcases List.mem_append.mp h with h | h
    · exact hs other h
    · obtain rfl := List.mem_singleton.mp h
      exact ⟨fun h => hdot (.inr h), fun h => hdot (.inl h), hname⟩

theorem Normal.foldl_resolve_name (hs : Normal stack) (names : List Name) :
    Normal (names.foldl AbsolutePath.resolve_name stack) := by
  induction names generalizing stack with
  | nil => exact hs
  | cons name names ih => exact ih (hs.resolve_name name)

theorem Normal.resolve (ha : a.Normal) (path : List Char) : (a.resolve path).Normal := by
  apply Normal.foldl_resolve_name
  unfold base
  split_ifs
  · exact fun name h => absurd h List.not_mem_nil
  · exact ha

theorem resolve_eq (a : AbsolutePath) (path : List Char) :
    a.resolve path =
      (a.base path).take ((a.base path).length - climbs [] (path.splitOn '/')) ++
        (path.splitOn '/').foldl resolve_name [] := by
  rw [resolve, ← foldl_resolve_name, List.append_nil]

/-- `cd` follows a path as lexical resolution does when no `..` of it leaves the
place it starts from, and also when an even number of them do and that place is
the root. -/
theorem cd_resolves_iff (ha : a.Normal) (path : List Char) :
    (a.cd path = a.resolve path ∧ dotdot ∉ a.cd path) ↔
      climbs [] (path.splitOn '/') = 0 ∨
        (a.base path = [] ∧ climbs [] (path.splitOn '/') % 2 = 0) := by
  have hnormal := ha.resolve path
  have hresolve := a.resolve_eq path
  rw [cd_eq, from_string_eq]
  generalize climbs [] (path.splitOn '/') = n at hresolve ⊢
  generalize (path.splitOn '/').foldl resolve_name [] = s at hresolve ⊢
  constructor
  · rintro ⟨heq, _⟩
    have hlen := congrArg List.length (heq.trans hresolve)
    rw [List.length_append, List.length_append, List.length_take] at hlen
    by_cases hodd : n % 2 = 1
    · rw [decide_eq_true hodd, kept, if_pos rfl, List.length_cons] at hlen
      omega
    · rw [decide_eq_false hodd, kept, if_neg Bool.false_ne_true] at hlen
      rcases Nat.eq_zero_or_pos n with hn | hn
      · exact .inl hn
      · exact .inr ⟨List.length_eq_zero_iff.mp (by omega), by omega⟩
  · intro h
    have heven : ¬n % 2 = 1 := by omega
    have htake : (a.base path).take ((a.base path).length - n) = a.base path := by
      rcases h with rfl | ⟨hbase, _⟩
      · rw [Nat.sub_zero, List.take_length]
      · rw [hbase, List.take_nil]
    have heq : a.base path ++ kept (decide (n % 2 = 1)) s = a.resolve path := by
      rw [hresolve, htake, decide_eq_false heven, kept, if_neg Bool.false_ne_true]
    rw [heq]
    exact ⟨rfl, fun h => (hnormal _ h).2.2 rfl⟩

/-- `/a/b` followed along `c/../d`. -/
theorem cd_resolves_down :
    AbsolutePath.cd [['a'], ['b']] ['c', '/', '.', '.', '/', 'd'] = [['a'], ['b'], ['d']] ∧
      dotdot ∉ AbsolutePath.cd [['a'], ['b']] ['c', '/', '.', '.', '/', 'd'] := by
  have hnormal : Normal [['a'], ['b']] := by
    intro name h
    rcases List.mem_pair.mp h with rfl | rfl <;> decide
  have h := (cd_resolves_iff hnormal ['c', '/', '.', '.', '/', 'd']).mpr (.inl (by decide))
  exact ⟨h.1.trans (by decide), h.2⟩

/-- `/a/b` followed along `../c` ends at `/a/b/../c`. -/
theorem cd_keeps_dotdot :
    ¬∀ (a : AbsolutePath) (path : List Char), a.Normal →
      a.cd path = a.resolve path ∧ dotdot ∉ a.cd path := by
  intro h
  have hnormal : Normal [['a'], ['b']] := by
    intro name h
    rcases List.mem_pair.mp h with rfl | rfl <;> decide
  exact absurd (h [['a'], ['b']] ['.', '.', '/', 'c'] hnormal).1 (by decide)

/-! ## The normal form of a path -/

theorem mem_of_mem_resolve_name (h : name ∈ resolve_name stack other) :
    name ∈ stack ∨ name = other := by
  unfold resolve_name at h
  split_ifs at h
  · exact .inl h
  · exact .inl (List.dropLast_subset _ h)
  · exact (List.mem_append.mp h).imp_right List.mem_singleton.mp

theorem mem_of_mem_foldl_resolve_name (h : name ∈ names.foldl resolve_name stack) :
    name ∈ stack ∨ name ∈ names := by
  induction names generalizing stack with
  | nil => exact .inl h
  | cons other names ih =>
    rcases ih h with h | h
    · rcases mem_of_mem_resolve_name h with h | rfl
      · exact .inl h
      · exact .inr List.mem_cons_self
    · exact .inr (List.mem_cons_of_mem _ h)

/-- A name taken from a path holds no separator. -/
theorem not_mem_of_mem_splitOn {path : List Char} (h : name ∈ path.splitOn '/') :
    '/' ∉ name := by
  induction path generalizing name with
  | nil => simp_all
  | cons c path ih =>
    rw [List.splitOn_cons_eq_if_modifyHead] at h
    split_ifs at h with hc
    · rcases List.mem_cons.mp h with rfl | h
      · exact List.not_mem_nil
      · exact ih h
    · obtain ⟨first, rest, heq⟩ := List.exists_cons_of_ne_nil (List.splitOn_ne_nil '/' path)
      rw [heq, List.modifyHead_cons] at h
      rw [heq] at ih
      rcases List.mem_cons.mp h with rfl | h
      · have hfirst := ih List.mem_cons_self
        intro hmem
        rcases List.mem_cons.mp hmem with rfl | hmem
        · exact hc (beq_self_eq_true _)
        · exact hfirst hmem
      · exact ih (List.mem_cons_of_mem _ h)

theorem splitOn_flatMap (hname : '/' ∉ name) (hnames : ∀ other ∈ names, '/' ∉ other) :
    (name ++ names.flatMap ('/' :: ·)).splitOn '/' = name :: names := by
  induction names generalizing name with
  | nil => rw [List.flatMap_nil, List.append_nil, List.splitOn_eq_singleton hname]
  | cons other names ih =>
    rw [List.flatMap_cons, List.cons_append, List.splitOn_append_cons_self_of_not_mem hname,
      ih (hnames other List.mem_cons_self) fun n h => hnames n (List.mem_cons_of_mem _ h)]

/-- What was resolved once is only collected the next time. -/
theorem Normal.foldl_push_name (hs : Normal stack) (a : List Name) :
    stack.foldl push_name a = a ++ stack := by
  induction stack generalizing a with
  | nil => rw [List.foldl_nil, List.append_nil]
  | cons name stack ih =>
    obtain ⟨hne, hdot, hdotdot⟩ := hs name List.mem_cons_self
    have hpush : push_name a name = a ++ [name] := by
      rw [push_name, if_neg (not_or.mpr ⟨hdot, hne⟩), if_neg hdotdot]
    rw [List.foldl_cons, hpush, ih fun n h => hs n (List.mem_cons_of_mem _ h),
      List.append_assoc, List.singleton_append]

theorem from_names_kept (odd : Bool) (hs : Normal stack) :
    from_names (kept odd stack) = kept odd stack := by
  cases odd with
  | false => exact hs.foldl_push_name []
  | true => exact hs.foldl_push_name [dotdot]

theorem from_string_to_string (p : AbsolutePath) (hp : ∀ name ∈ p, '/' ∉ name) :
    from_string (to_string p) = from_names p := by
  cases p with
  | nil => rfl
  | cons name names =>
    have hsplit := splitOn_flatMap (List.not_mem_nil (a := '/')) hp
    rw [List.nil_append] at hsplit
    rw [from_string, to_string, is_root, if_neg (by simp), hsplit]
    rfl

/-- The names of a path were cut at each `/`. -/
theorem from_string_split (path : List Char) : ∀ name ∈ from_string path, '/' ∉ name := by
  rw [from_string_eq]
  have hin : ∀ name ∈ (path.splitOn '/').foldl AbsolutePath.resolve_name [], '/' ∉ name :=
    fun name h => not_mem_of_mem_splitOn
      ((mem_of_mem_foldl_resolve_name h).resolve_left List.not_mem_nil)
  cases decide (climbs [] (path.splitOn '/') % 2 = 1) with
  | false => exact hin
  | true =>
    intro name h
    rcases List.mem_cons.mp h with rfl | h
    · decide
    · exact hin name h

/-- A path that was built from a string holds no empty name and no `.`, and a
`..` only in front. Building it once more, from its names or from what it
prints, gives the same path. -/
theorem from_string_normal (path : List Char) :
    (∀ (i : Nat) (name : Name), (from_string path)[i]? = some name →
      name ≠ [] ∧ name ≠ dot ∧ (name = dotdot → i = 0)) ∧
    from_names (from_string path) = from_string path ∧
    from_string (to_string (from_string path)) = from_string path := by
  have hs : Normal ((path.splitOn '/').foldl AbsolutePath.resolve_name []) :=
    Normal.foldl_resolve_name (fun name h => absurd h List.not_mem_nil) _
  have hnames : from_names (from_string path) = from_string path := by
    rw [from_string_eq]
    exact from_names_kept _ hs
  refine ⟨?_, hnames, (from_string_to_string _ (from_string_split path)).trans hnames⟩
  rw [from_string_eq]
  cases decide (climbs [] (path.splitOn '/') % 2 = 1) with
  | false =>
    intro i name h
    obtain ⟨hne, hdot, hdotdot⟩ := hs name (List.mem_of_getElem? h)
    exact ⟨hne, hdot, fun h => absurd h hdotdot⟩
  | true =>
    intro i name h
    cases i with
    | zero =>
      obtain rfl : dotdot = name := Option.some.inj h
      exact ⟨by decide, by decide, fun _ => rfl⟩
    | succ i =>
      obtain ⟨hne, hdot, hdotdot⟩ := hs name (List.mem_of_getElem? h)
      exact ⟨hne, hdot, fun h => absurd h hdotdot⟩

end

end AbsolutePath

end MyGOS.Fs
