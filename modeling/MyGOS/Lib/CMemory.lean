import MyGOS.Lib.LittleEndian

/-!
# Memory as a C program reads it

A memory gives the byte at an address, where there is one. A program reads
words of eight bytes, rows of words up to a zero, rows of pairs up to a zero
key, and strings up to a zero byte. Each of them is read back from a memory that
holds its bytes.
-/

namespace CMemory

open LittleEndian

abbrev Memory := Nat → Option UInt8

/-- The bytes stand at the address. -/
def Holds (mem : Memory) (start : Nat) (l : List UInt8) : Prop :=
  ∀ i < l.length, mem (start + i) = l[i]?

instance (mem : Memory) (start : Nat) (l : List UInt8) : Decidable (Holds mem start l) :=
  inferInstanceAs (Decidable (∀ i < l.length, mem (start + i) = l[i]?))

def peek (mem : Memory) : (start n : Nat) → Option (List UInt8)
  | _, 0 => some []
  | start, n + 1 => do
    let b ← mem start
    let l ← peek mem (start + 1) n
    return b :: l

def word (mem : Memory) (start : Nat) : Option Nat := value <$> peek mem start 8

def words (mem : Memory) : (start n : Nat) → Option (List Nat)
  | _, 0 => some []
  | start, n + 1 => do
    let w ← word mem start
    let ws ← words mem (start + 8) n
    return w :: ws

/-- The words before the first that is zero; `fuel` bounds the words that are read. -/
def words_to_zero (mem : Memory) : (fuel start : Nat) → Option (List Nat)
  | 0, _ => none
  | fuel + 1, start => do
    let w ← word mem start
    if w = 0 then return []
    else
      let ws ← words_to_zero mem fuel (start + 8)
      return w :: ws

/-- The pairs of words before the first key that is zero. -/
def pairs_to_zero (mem : Memory) : (fuel start : Nat) → Option (List (Nat × Nat))
  | 0, _ => none
  | fuel + 1, start => do
    let key ← word mem start
    if key = 0 then return []
    else
      let w ← word mem (start + 8)
      let rest ← pairs_to_zero mem fuel (start + 16)
      return (key, w) :: rest

def string (mem : Memory) : (fuel start : Nat) → Option (List UInt8)
  | 0, _ => none
  | fuel + 1, start => do
    let b ← mem start
    if b = 0 then return []
    else
      let l ← string mem fuel (start + 1)
      return b :: l

/-- The bytes of a row of words. -/
def word_row (ws : List Nat) : List UInt8 := ws.flatMap (bytes 8)

def pair_row (ps : List (Nat × Nat)) : List UInt8 := ps.flatMap fun p => bytes 8 p.1 ++ bytes 8 p.2

@[simp] theorem length_word_row (ws : List Nat) : (word_row ws).length = 8 * ws.length := by
  induction ws with
  | nil => rfl
  | cons w ws ih =>
    have hrow : word_row (w :: ws) = bytes 8 w ++ word_row ws := rfl
    rw [hrow, List.length_append, length_bytes, ih, List.length_cons]
    omega

@[simp] theorem length_pair_row (ps : List (Nat × Nat)) :
    (pair_row ps).length = 16 * ps.length := by
  induction ps with
  | nil => rfl
  | cons p ps ih =>
    have hrow : pair_row (p :: ps) = (bytes 8 p.1 ++ bytes 8 p.2) ++ pair_row ps := rfl
    rw [hrow, List.length_append, List.length_append, length_bytes, length_bytes, ih,
      List.length_cons]
    omega

variable {mem mem' : Memory} {start n w fuel : Nat} {l l' : List UInt8} {b : UInt8}

theorem holds_nil (mem : Memory) (start : Nat) : Holds mem start [] := fun i hi => by
  rw [List.length_nil] at hi
  omega

theorem holds_cons : Holds mem start (b :: l) ↔ mem start = some b ∧ Holds mem (start + 1) l := by
  constructor
  · intro h
    refine ⟨h 0 (Nat.succ_pos _), fun i hi => ?_⟩
    have hi' := h (i + 1) (Nat.succ_lt_succ hi)
    rwa [List.getElem?_cons_succ, Nat.add_comm i, ← Nat.add_assoc] at hi'
  · rintro ⟨hb, hl⟩ i hi
    cases i with
    | zero => exact hb
    | succ i =>
      rw [List.getElem?_cons_succ, Nat.add_comm i, ← Nat.add_assoc]
      exact hl i (Nat.lt_of_succ_lt_succ hi)

theorem holds_append :
    Holds mem start (l ++ l') ↔ Holds mem start l ∧ Holds mem (start + l.length) l' := by
  induction l generalizing start with
  | nil => exact ⟨fun h => ⟨holds_nil _ _, h⟩, fun h => h.2⟩
  | cons b l ih =>
    rw [List.cons_append, holds_cons, holds_cons, ih, and_assoc, List.length_cons,
      Nat.add_comm l.length, Nat.add_assoc]

/-- A memory that changes elsewhere. -/
theorem Holds.congr (h : Holds mem start l)
    (hmem : ∀ va, start ≤ va → va < start + l.length → ∀ b, mem va = some b → mem' va = some b) :
    Holds mem' start l := by
  intro i hi
  have hget := List.getElem?_eq_getElem hi
  rw [hget]
  exact hmem _ (by omega) (by omega) _ ((h i hi).trans hget)

theorem Holds.peek (h : Holds mem start l) : peek mem start l.length = some l := by
  induction l generalizing start with
  | nil => rfl
  | cons b l ih =>
    obtain ⟨hb, hl⟩ := holds_cons.mp h
    rw [List.length_cons, CMemory.peek, hb, ih hl]
    rfl

theorem Holds.word (h : Holds mem start (bytes 8 w)) (hw : w < 2 ^ 64) :
    word mem start = some w := by
  have hpeek := h.peek
  rw [length_bytes] at hpeek
  have hvalue : value (bytes 8 w) = w := by
    rw [value_bytes]
    exact Nat.mod_eq_of_lt hw
  rw [CMemory.word, hpeek]
  exact congrArg some hvalue

theorem Holds.words {ws : List Nat} (h : Holds mem start (word_row ws)) (hw : ∀ w ∈ ws, w < 2 ^ 64) :
    words mem start ws.length = some ws := by
  induction ws generalizing start with
  | nil => rfl
  | cons w ws ih =>
    obtain ⟨hhead, htail⟩ := holds_append.mp h
    obtain ⟨hlt, hws⟩ := List.forall_mem_cons.mp hw
    rw [length_bytes] at htail
    rw [List.length_cons, CMemory.words, hhead.word hlt, ih htail hws]
    rfl

/-- A row of words that are not zero, and a zero. -/
theorem Holds.words_to_zero {ws : List Nat} (h : Holds mem start (word_row ws ++ bytes 8 0))
    (hw : ∀ w ∈ ws, w ≠ 0 ∧ w < 2 ^ 64) (hfuel : ws.length < fuel) :
    words_to_zero mem fuel start = some ws := by
  induction ws generalizing start fuel with
  | nil =>
    obtain ⟨fuel, rfl⟩ : ∃ k, fuel = k + 1 := ⟨fuel - 1, by omega⟩
    rw [CMemory.words_to_zero, Holds.word h (by decide)]
    rfl
  | cons w ws ih =>
    obtain ⟨fuel, rfl⟩ : ∃ k, fuel = k + 1 := ⟨fuel - 1, by omega⟩
    have hrow : word_row (w :: ws) ++ bytes 8 0 = bytes 8 w ++ (word_row ws ++ bytes 8 0) :=
      List.append_assoc _ _ _
    rw [hrow] at h
    obtain ⟨hhead, htail⟩ := holds_append.mp h
    obtain ⟨⟨hne, hlt⟩, hws⟩ := List.forall_mem_cons.mp hw
    rw [length_bytes] at htail
    rw [List.length_cons] at hfuel
    rw [CMemory.words_to_zero, hhead.word hlt]
    simp only [Option.bind_eq_bind, Option.bind_some, if_neg hne, ih htail hws (Nat.lt_of_succ_lt_succ hfuel)]
    rfl

/-- A row of pairs with keys that are not zero, and a zero key. -/
theorem Holds.pairs_to_zero {ps : List (Nat × Nat)} (h : Holds mem start (pair_row ps ++ bytes 8 0))
    (hp : ∀ p ∈ ps, p.1 ≠ 0 ∧ p.1 < 2 ^ 64 ∧ p.2 < 2 ^ 64) (hfuel : ps.length < fuel) :
    pairs_to_zero mem fuel start = some ps := by
  induction ps generalizing start fuel with
  | nil =>
    obtain ⟨fuel, rfl⟩ : ∃ k, fuel = k + 1 := ⟨fuel - 1, by omega⟩
    rw [CMemory.pairs_to_zero, Holds.word h (by decide)]
    rfl
  | cons p ps ih =>
    obtain ⟨fuel, rfl⟩ : ∃ k, fuel = k + 1 := ⟨fuel - 1, by omega⟩
    have hrow : pair_row (p :: ps) ++ bytes 8 0 =
        bytes 8 p.1 ++ (bytes 8 p.2 ++ (pair_row ps ++ bytes 8 0)) := by
      rw [← List.append_assoc, ← List.append_assoc]
      rfl
    rw [hrow] at h
    obtain ⟨hkey, h⟩ := holds_append.mp h
    obtain ⟨hval, htail⟩ := holds_append.mp h
    obtain ⟨⟨hne, hlt, hlt'⟩, hps⟩ := List.forall_mem_cons.mp hp
    rw [length_bytes] at hval htail
    rw [length_bytes, Nat.add_assoc] at htail
    rw [List.length_cons] at hfuel
    rw [CMemory.pairs_to_zero, hkey.word hlt]
    simp only [Option.bind_eq_bind, Option.bind_some, if_neg hne, hval.word hlt',
      ih htail hps (Nat.lt_of_succ_lt_succ hfuel)]
    rfl

theorem Holds.string (h : Holds mem start (l ++ [0])) (hl : 0 ∉ l) (hfuel : l.length < fuel) :
    string mem fuel start = some l := by
  induction l generalizing start fuel with
  | nil =>
    obtain ⟨fuel, rfl⟩ : ∃ k, fuel = k + 1 := ⟨fuel - 1, by omega⟩
    rw [CMemory.string, (holds_cons.mp h).1]
    rfl
  | cons b l ih =>
    obtain ⟨fuel, rfl⟩ : ∃ k, fuel = k + 1 := ⟨fuel - 1, by omega⟩
    obtain ⟨hb, htail⟩ := holds_cons.mp h
    rw [List.mem_cons, not_or] at hl
    rw [List.length_cons] at hfuel
    rw [CMemory.string, hb]
    simp only [Option.bind_eq_bind, Option.bind_some, if_neg (Ne.symm hl.1),
      ih htail hl.2 (Nat.lt_of_succ_lt_succ hfuel)]
    rfl

end CMemory
