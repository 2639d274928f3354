import MyGOS.Lib.CMemory

/-!
# The stack that a program starts with

A C runtime finds, from the stack pointer up, the number of arguments, pointers
to them and a null, pointers to the environment and a null, and pairs of words
up to a zero key. `walk` reads these as the runtime does.
-/

namespace CMemory

open LittleEndian

/-- What the runtime finds; strings come with their addresses. -/
structure Startup where
  args : List (Nat × List UInt8)
  envs : List (Nat × List UInt8)
  auxs : List (Nat × Nat)

def strings (mem : Memory) (fuel : Nat) (ptrs : List Nat) : Option (List (Nat × List UInt8)) :=
  ptrs.mapM fun ptr => (fun l => (ptr, l)) <$> string mem fuel ptr

/-- `fuel` bounds the length of what is read up to a zero. -/
def walk (mem : Memory) (fuel sp : Nat) : Option Startup := do
  let argc ← word mem sp
  let argv ← words mem (sp + 8) argc
  let null ← word mem (sp + 8 + 8 * argc)
  if null ≠ 0 then none
  else
    let envp ← words_to_zero mem fuel (sp + 8 + 8 * argc + 8)
    let auxs ← pairs_to_zero mem fuel (sp + 8 + 8 * argc + 8 + 8 * (envp.length + 1))
    let args ← strings mem fuel argv
    let envs ← strings mem fuel envp
    return { args, envs, auxs }

namespace Startup

/-- The part that the runtime walks over. -/
def table (u : Startup) : List UInt8 :=
  bytes 8 u.args.length ++ (word_row (u.args.map Prod.fst) ++ (bytes 8 0 ++
    ((word_row (u.envs.map Prod.fst) ++ bytes 8 0) ++ (pair_row u.auxs ++ bytes 8 0))))

/-- The areas with their starts and lengths. -/
def areas (u : Startup) (sp : Nat) : List (Nat × Nat) :=
  [(sp, 8), (sp + 8, 8 * (u.args.length + 1)),
    (sp + 16 + 8 * u.args.length, 8 * (u.envs.length + 1)),
    (sp + 24 + 8 * (u.args.length + u.envs.length), 16 * u.auxs.length + 8)] ++
    (u.args ++ u.envs).map fun s => (s.1, s.2.length + 1)

end Startup

/-- Two areas, each with its start and length, have no address in common. -/
def Apart (a b : Nat × Nat) : Prop := a.1 + a.2 ≤ b.1 ∨ b.1 + b.2 ≤ a.1

/-- A string in memory at an address that a pointer can hold. -/
structure Stands (mem : Memory) (fuel : Nat) (s : Nat × List UInt8) : Prop where
  ptr_lt : s.1 < 2 ^ 64
  ptr_ne : s.1 ≠ 0
  no_zero : 0 ∉ s.2
  short : s.2.length < fuel
  holds : Holds mem s.1 (s.2 ++ [0])

variable {mem : Memory} {fuel sp : Nat} {u : Startup}

theorem strings_of_stands {l : List (Nat × List UInt8)} (h : ∀ s ∈ l, Stands mem fuel s) :
    strings mem fuel (l.map Prod.fst) = some l := by
  induction l with
  | nil => rfl
  | cons s l ih =>
    obtain ⟨hs, hl⟩ := List.forall_mem_cons.mp h
    rw [List.map_cons, strings, List.mapM_cons, hs.holds.string hs.no_zero hs.short]
    rw [strings] at ih
    rw [ih hl]
    rfl

theorem walk_of_holds (h : Holds mem sp u.table) (hargc : u.args.length < 2 ^ 64)
    (henvc : u.envs.length < fuel) (hauxc : u.auxs.length < fuel)
    (hargs : ∀ s ∈ u.args, Stands mem fuel s) (henvs : ∀ s ∈ u.envs, Stands mem fuel s)
    (hauxs : ∀ p ∈ u.auxs, p.1 ≠ 0 ∧ p.1 < 2 ^ 64 ∧ p.2 < 2 ^ 64) :
    walk mem fuel sp = some u := by
  obtain ⟨hcount, h⟩ := holds_append.mp h
  obtain ⟨hargv, h⟩ := holds_append.mp h
  obtain ⟨hnull, h⟩ := holds_append.mp h
  obtain ⟨henvp, hpairs⟩ := holds_append.mp h
  simp only [length_bytes, length_word_row, List.length_map, List.length_append]
    at hargv hnull henvp hpairs
  have hargv' := hargv.words fun w hw => by
    obtain ⟨s, hs, rfl⟩ := List.mem_map.mp hw
    exact (hargs s hs).ptr_lt
  have henvp' : words_to_zero mem fuel _ = some (u.envs.map Prod.fst) :=
    henvp.words_to_zero (fun w hw => by
      obtain ⟨s, hs, rfl⟩ := List.mem_map.mp hw
      exact ⟨(henvs s hs).ptr_ne, (henvs s hs).ptr_lt⟩) (by rwa [List.length_map])
  have hpairs' : pairs_to_zero mem fuel _ = some u.auxs := hpairs.pairs_to_zero hauxs hauxc
  rw [List.length_map] at hargv'
  have hrow : 8 * (u.envs.length + 1) = 8 * u.envs.length + 8 := rfl
  simp only [walk, hcount.word hargc, hargv', hnull.word (by decide), henvp', hrow, hpairs',
    strings_of_stands hargs, strings_of_stands henvs, Option.bind_eq_bind, Option.bind_some,
    List.length_map]
  rfl

theorem length_table (u : Startup) : u.table.length =
    32 + 8 * (u.args.length + u.envs.length) + 16 * u.auxs.length := by
  simp only [Startup.table, List.length_append, length_bytes, length_word_row, length_pair_row,
    List.length_map]
  omega

/-- The area of a string with its end mark. -/
def string_area (s : Nat × List UInt8) : Nat × Nat := (s.1, s.2.length + 1)

/-- The parts of the table are next to each other, and the strings are above them. -/
theorem areas_apart (habove : ∀ s ∈ u.args ++ u.envs, sp + u.table.length ≤ s.1)
    (hstrings : ((u.args ++ u.envs).map string_area).Pairwise Apart) :
    (u.areas sp).Pairwise Apart := by
  rw [length_table] at habove
  refine List.pairwise_append.mpr ⟨?_, hstrings, fun a ha b hb => ?_⟩
  · simp only [List.pairwise_cons, List.mem_cons, List.not_mem_nil, or_false, forall_eq_or_imp,
      forall_eq, Apart, false_implies, implies_true, List.Pairwise.nil, and_true]
    omega
  · obtain ⟨s, hs, rfl⟩ := List.mem_map.mp hb
    have hle := habove s hs
    simp only [List.mem_cons, List.not_mem_nil, or_false] at ha
    rcases ha with rfl | rfl | rfl | rfl <;> exact Or.inl (by dsimp only; omega)

section Stacked

variable {top : Nat} {ls : List (List UInt8)}

/-- Strings placed one below the other, the first one right below `top`. -/
def stacked : (top : Nat) → List (List UInt8) → List (Nat × List UInt8)
  | _, [] => []
  | top, l :: ls => (top - (l.length + 1), l) :: stacked (top - (l.length + 1)) ls

def stacked_len (ls : List (List UInt8)) : Nat := (ls.map fun l => l.length + 1).sum

def stacked_bytes : List (List UInt8) → List UInt8
  | [] => []
  | l :: ls => stacked_bytes ls ++ (l ++ [0])

theorem stacked_len_cons (l : List UInt8) (ls : List (List UInt8)) :
    stacked_len (l :: ls) = l.length + 1 + stacked_len ls := by
  rw [stacked_len, List.map_cons, List.sum_cons, stacked_len]

@[simp] theorem length_stacked_bytes (ls : List (List UInt8)) :
    (stacked_bytes ls).length = stacked_len ls := by
  induction ls with
  | nil => rfl
  | cons l ls ih =>
    rw [stacked_bytes, List.length_append, ih, List.length_append, List.length_singleton,
      stacked_len_cons, Nat.add_comm]

theorem map_snd_stacked (top : Nat) (ls : List (List UInt8)) :
    (stacked top ls).map Prod.snd = ls := by
  induction ls generalizing top with
  | nil => rfl
  | cons l ls ih => rw [stacked, List.map_cons, ih]

/-- Each string lies in the range of all of them. -/
theorem stacked_mem (h : stacked_len ls ≤ top) : ∀ s ∈ stacked top ls,
    top - stacked_len ls ≤ s.1 ∧ s.1 + (s.2.length + 1) ≤ top ∧ s.2 ∈ ls := by
  induction ls generalizing top with
  | nil => simp [stacked]
  | cons l ls ih =>
    rw [stacked_len_cons] at h ⊢
    refine List.forall_mem_cons.mpr ⟨⟨?_, ?_, List.mem_cons_self⟩, fun s hs => ?_⟩
    · dsimp only
      omega
    · dsimp only
      omega
    · obtain ⟨hlo, hhi, hmem⟩ := ih (by omega) s hs
      exact ⟨by omega, by omega, List.mem_cons_of_mem _ hmem⟩

theorem stacked_apart (h : stacked_len ls ≤ top) :
    ((stacked top ls).map string_area).Pairwise Apart := by
  induction ls generalizing top with
  | nil => exact List.Pairwise.nil
  | cons l ls ih =>
    rw [stacked_len_cons] at h
    refine List.pairwise_cons.mpr ⟨fun b hb => ?_, ih (by omega)⟩
    obtain ⟨s, hs, rfl⟩ := List.mem_map.mp hb
    exact Or.inr (stacked_mem (by omega) s hs).2.1

theorem stacked_holds (h : stacked_len ls ≤ top)
    (hholds : Holds mem (top - stacked_len ls) (stacked_bytes ls)) :
    ∀ s ∈ stacked top ls, Holds mem s.1 (s.2 ++ [0]) := by
  induction ls generalizing top with
  | nil => simp [stacked]
  | cons l ls ih =>
    obtain ⟨hbelow, hself⟩ := holds_append.mp hholds
    rw [stacked_len_cons] at h hbelow hself
    rw [length_stacked_bytes] at hself
    have hplace : top - (l.length + 1 + stacked_len ls) + stacked_len ls = top - (l.length + 1) := by
      omega
    rw [hplace] at hself
    rw [← Nat.sub_sub] at hbelow
    exact List.forall_mem_cons.mpr ⟨hself, ih (by omega) hbelow⟩

/-- The strings below `top` do not meet those above it. -/
theorem stacked_append_apart {top' : Nat} {ls' : List (List UInt8)} (h : stacked_len ls ≤ top)
    (h' : stacked_len ls' ≤ top') (hbelow : top ≤ top' - stacked_len ls') :
    ((stacked top ls ++ stacked top' ls').map string_area).Pairwise Apart := by
  rw [List.map_append]
  refine List.pairwise_append.mpr ⟨stacked_apart h, stacked_apart h', fun a ha b hb => ?_⟩
  obtain ⟨s, hs, rfl⟩ := List.mem_map.mp ha
  obtain ⟨s', hs', rfl⟩ := List.mem_map.mp hb
  have hend := (stacked_mem h s hs).2.1
  have hstart := (stacked_mem h' s' hs').1
  exact Or.inl (by simp only [string_area]; omega)

end Stacked

end CMemory
