import Mathlib.Data.List.Basic
import Mathlib.Logic.Function.Basic
import Mathlib.Order.Basic

/-!
# Trees of nodes in a memory

A node is a row of cells, and a cell may hold a link to another node. In a tree
whose nodes are reached along one path each, a write to the cells of one node
does not change the ways to the others.
-/

universe u v w

namespace NodeTree

variable {N : Type u} {ι : Type v} {W : Type w} (link : W → Option N)

/-- The node at the end of a path. -/
def walk (mem : N → ι → W) : N → List ι → Option N
  | n, [] => some n
  | n, i :: p => (link (mem n i)).bind fun m => walk mem m p

/-- The nodes up to `d` steps below the root are reached along one path each. -/
def Separate (mem : N → ι → W) (root : N) (d : Nat) : Prop :=
  ∀ p q n, p.length ≤ d → q.length ≤ d → walk link mem root p = some n →
    walk link mem root q = some n → p = q

/-- A write to one cell. -/
def set [DecidableEq N] [DecidableEq ι] (mem : N → ι → W) (n : N) (i : ι) (w : W) : N → ι → W :=
  Function.update mem n (Function.update (mem n) i w)

variable {link} {mem mem' : N → ι → W} {root n m f : N} {p q : List ι} {i : ι} {w : W} {d : Nat}

@[simp] theorem walk_nil (mem : N → ι → W) (n : N) : walk link mem n [] = some n := rfl

theorem walk_append (mem : N → ι → W) (n : N) (p q : List ι) :
    walk link mem n (p ++ q) = (walk link mem n p).bind fun m => walk link mem m q := by
  induction p generalizing n with
  | nil => rfl
  | cons i p ih =>
    rw [List.cons_append, walk, walk, Option.bind_assoc]
    congr 1
    funext m
    exact ih m

theorem walk_concat (mem : N → ι → W) (n : N) (p : List ι) (i : ι) :
    walk link mem n (p ++ [i]) = (walk link mem n p).bind fun m => link (mem m i) := by
  rw [walk_append]
  congr 1
  funext m
  cases hlink : link (mem m i) <;> simp [walk, hlink]

/-- A walk reads only the cells on its way. -/
theorem walk_congr
    (h : ∀ q i r n, p = q ++ i :: r → walk link mem root q = some n → mem' n i = mem n i) :
    walk link mem' root p = walk link mem root p := by
  induction p generalizing root with
  | nil => rfl
  | cons i p ih =>
    rw [walk, walk, h [] i p root rfl rfl]
    cases hlink : link (mem root i) with
    | none => rfl
    | some m =>
      apply ih
      intro q j r n hp hn
      apply h (i :: q) j r n (by rw [hp, List.cons_append])
      rw [walk, hlink]
      exact hn

/-- A node that is not reached may be written to. -/
theorem walk_update_of_ne [DecidableEq N] (hf : ∀ q, q.length < p.length →
    walk link mem root q ≠ some f) (row : ι → W) :
    walk link (Function.update mem f row) root p = walk link mem root p := by
  apply walk_congr
  intro q i r n hp hn
  have hne : n ≠ f := by
    rintro rfl
    exact hf q (by rw [hp, List.length_append, List.length_cons]; omega) hn
  rw [Function.update_of_ne hne]

variable [DecidableEq N] [DecidableEq ι]

@[simp] theorem set_self (mem : N → ι → W) (n : N) (i : ι) (w : W) : set mem n i w n i = w := by
  simp [set]

theorem set_of_ne (mem : N → ι → W) (w : W) {j : ι} (h : m = n → j ≠ i) :
    set mem n i w m j = mem m j := by
  unfold set
  by_cases hm : m = n
  · subst hm
    rw [Function.update_self, Function.update_of_ne (h rfl)]
  · rw [Function.update_of_ne hm]

/-- A write to a node at the bottom changes no walk. -/
theorem walk_set_bottom (h : Separate link mem root d) (hp : p.length = d)
    (hn : walk link mem root p = some n) (i : ι) (w : W) (hq : q.length ≤ d) :
    walk link (set mem n i w) root q = walk link mem root q := by
  apply walk_congr
  intro q' j r m hsplit hm
  rw [hsplit, List.length_append, List.length_cons] at hq
  apply set_of_ne
  rintro rfl
  have heq := h p q' m (by omega) (by omega) hn hm
  rw [heq] at hp
  omega

section Link

variable (h : Separate link mem root d) (hp : p.length < d) (hn : walk link mem root p = some n)
  (hcell : link (mem n i) = none) (hw : link w = some f)
  (hf : ∀ q, q.length ≤ d → walk link mem root q ≠ some f) (hempty : ∀ j, link (mem f j) = none)

include h hp hn hcell hw hf hempty

/-- A link to an empty node that was not reached adds one path. -/
theorem walk_set_link (hq : q.length ≤ d) :
    walk link (set mem n i w) root q =
      if q = p ++ [i] then some f else walk link mem root q := by
  have hne : f ≠ n := by
    rintro rfl
    exact hf p (Nat.le_of_lt hp) hn
  have hother : ∀ q, q.length ≤ d → ¬(p ++ [i] <+: q) →
      walk link (set mem n i w) root q = walk link mem root q := by
    intro q hq hprefix
    apply walk_congr
    intro q' j r m hsplit hm
    apply set_of_ne
    rintro rfl rfl
    rw [hsplit, List.length_append, List.length_cons] at hq
    obtain rfl := h p q' m (by omega) (by omega) hn hm
    exact hprefix ⟨r, by rw [hsplit, List.append_assoc, List.singleton_append]⟩
  have hpath : walk link (set mem n i w) root p = some n := by
    rw [hother p (Nat.le_of_lt hp), hn]
    intro hprefix
    have hle := hprefix.length_le
    rw [List.length_append, List.length_singleton] at hle
    omega
  by_cases hprefix : p ++ [i] <+: q
  · obtain ⟨r, rfl⟩ := hprefix
    have hold : walk link mem root (p ++ [i]) = none := by
      rw [walk_concat, hn]
      exact hcell
    have hnew : walk link (set mem n i w) root (p ++ [i]) = some f := by
      rw [walk_concat, hpath, Option.bind_some, set_self, hw]
    rw [walk_append _ _ (p ++ [i]), walk_append _ _ (p ++ [i]), hold, hnew]
    cases r with
    | nil => simp
    | cons j r =>
      rw [if_neg (by simp), Option.bind_some, Option.bind_none, walk,
        set_of_ne mem w fun heq => absurd heq hne, hempty, Option.bind_none]
  · rw [hother q hq hprefix, if_neg]
    rintro rfl
    exact hprefix (List.prefix_refl _)

theorem Separate.set_link : Separate link (set mem n i w) root d := by
  intro q q' m hq hq' hm hm'
  rw [walk_set_link h hp hn hcell hw hf hempty hq] at hm
  rw [walk_set_link h hp hn hcell hw hf hempty hq'] at hm'
  split at hm
  · next heq =>
    split at hm'
    · next heq' => rw [heq, heq']
    · cases hm
      exact absurd hm' (hf q' hq')
  · split at hm'
    · cases hm'
      exact absurd hm (hf q hq)
    · exact h q q' m hq hq' hm hm'

end Link

end NodeTree
