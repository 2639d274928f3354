import MyGOS.Lib.StartupStack
import MyGOS.Mm.StackCopies
import MyGOS.Task.ExecStrings

/-!
# The stack of a new program

`init_ustack` builds the stack downwards: the strings of the environment, those
of the arguments, the auxiliary entries and the rows of pointers. The walk of a
C runtime from the returned stack pointer finds what was passed.
-/

namespace MyGOS.Task

open Mm Outcome CMemory
open LittleEndian (bytes length_bytes)

/-- A key and its value, in this order in memory. -/
structure AuxEntry where
  key : UInt64
  value : UInt64
deriving DecidableEq

/-- `user_sp - n`. -/
@[irreducible] def below (user_sp n : Nat) : Nat := (user_sp + 2 ^ 64 - n) % 2 ^ 64

/-- The loop over the bytes of a string, and its end mark. -/
def copy_str : (ptr : Nat) → List UInt8 → MemorySet × Phys → Except Panic (MemorySet × Phys)
  | ptr, [], s => copyout s.1 s.2 ptr [0]
  | ptr, c :: cs, s => do
    let s ← copyout s.1 s.2 ptr [c]
    copy_str (ptr + 1) cs s

/-- The pointers to the strings, and the lower `user_sp`. -/
def push_strs : (user_sp : Nat) → List (List Char) → MemorySet × Phys →
    Except Panic (List Nat × Nat × MemorySet × Phys)
  | user_sp, [], s => .ok ([], user_sp, s)
  | user_sp, str :: strs, s => do
    let user_sp := below user_sp ((as_bytes str).length + 1)
    let s ← copy_str user_sp (as_bytes str) s
    let (ptrv, low_sp, s) ← push_strs user_sp strs s
    return (user_sp :: ptrv, low_sp, s)

/-- The new `user_sp` is the address of the word. -/
def push_word (user_sp w : Nat) (s : MemorySet × Phys) : Except Panic (Nat × MemorySet × Phys) := do
  let user_sp := below user_sp 8
  let s ← copyout s.1 s.2 user_sp (bytes 8 w)
  return (user_sp, s)

def push_auxs : (user_sp : Nat) → List AuxEntry → MemorySet × Phys →
    Except Panic (Nat × MemorySet × Phys)
  | user_sp, [], s => .ok (user_sp, s)
  | user_sp, e :: auxv, s => do
    let user_sp := below user_sp 16
    let s ← copyout s.1 s.2 user_sp (bytes 8 e.key.toNat ++ bytes 8 e.value.toNat)
    push_auxs user_sp auxv s

def copy_ptrs : (ptr : Nat) → List Nat → MemorySet × Phys → Except Panic (MemorySet × Phys)
  | _, [], s => .ok s
  | ptr, p :: ptrv, s => do
    let s ← copyout s.1 s.2 ptr (bytes 8 p)
    copy_ptrs (ptr + 8) ptrv s

/-- The new `user_sp` is the address of the row. -/
def push_ptrs (user_sp : Nat) (ptrv : List Nat) (s : MemorySet × Phys) :
    Except Panic (Nat × MemorySet × Phys) := do
  let ptr_base := below user_sp (ptrv.length * 8)
  let s ← copy_ptrs ptr_base ptrv s
  return (ptr_base, s)

/-- The results are the stack pointer and the addresses of the two rows of pointers. -/
def init_ustack (s : MemorySet × Phys) (user_sp : Nat) (args envs : List (List Char))
    (auxv : List AuxEntry) : Except Panic ((Nat × Nat × Nat) × MemorySet × Phys) := do
  let (envs_ptrv, user_sp, s) ← push_strs user_sp envs s
  let (args_ptrv, user_sp, s) ← push_strs user_sp args s
  let (user_sp, s) ← push_word user_sp 0 s
  let (user_sp, s) ← push_auxs user_sp auxv s
  let (user_sp, s) ← push_word user_sp 0 s
  let (envs_ptr_base, s) ← push_ptrs user_sp envs_ptrv s
  let (user_sp, s) ← push_word envs_ptr_base 0 s
  let (args_ptr_base, s) ← push_ptrs user_sp args_ptrv s
  let (user_sp, s) ← push_word args_ptr_base args.length s
  return ((user_sp, args_ptr_base, envs_ptr_base), s)

section Written

variable {text : KernelImage} {E : Multiset Nat} {ms₀ : MemorySet} {top gap sp n : Nat}
  {s : MemorySet × Phys} {done image data : List UInt8}

/-- Below `top` stands `image`, below it a gap, and below the gap, from `sp` on, the part `done`
of what is to fill it. -/
structure Written (text : KernelImage) (E : Multiset Nat) (ms₀ : MemorySet) (top sp : Nat)
    (done : List UInt8) (gap : Nat) (image : List UInt8) (s : MemorySet × Phys) : Prop where
  grounded : Grounded text E s.1 s.2
  mapped : ∀ v pte, ms₀.translate v = some pte → s.1.translate v = some pte
  bottom : user_stack_bottom ≤ sp
  filled : sp + done.length + gap + image.length = top
  top_le : top ≤ USER_STACK_BASE
  low : Holds (s.1.view s.2) sp done
  high : Holds (s.1.view s.2) (sp + done.length + gap) image

/-- From `sp` up to `top` stands `image`. -/
abbrev Built (text : KernelImage) (E : Multiset Nat) (ms₀ : MemorySet) (top sp : Nat)
    (image : List UInt8) (s : MemorySet × Phys) : Prop :=
  Written text E ms₀ top sp [] 0 image s

theorem Written.filled_nil (h : Built text E ms₀ top sp image s) : sp + image.length = top := h.filled

theorem Written.below (h : Built text E ms₀ top sp image s) (hroom : user_stack_bottom + n ≤ sp) :
    below sp n = sp - n := by
  have hfilled := h.filled_nil
  have htop := h.top_le
  have hbase : USER_STACK_BASE < 2 ^ 64 := by decide
  rw [Task.below]
  omega

theorem Written.open (h : Built text E ms₀ top sp image s) (hroom : user_stack_bottom + n ≤ sp) :
    Written text E ms₀ top (sp - n) [] n image s where
  grounded := h.grounded
  mapped := h.mapped
  bottom := by omega
  filled := by
    rw [List.length_nil, Nat.add_zero, Nat.sub_add_cancel (by omega)]
    exact h.filled
  top_le := h.top_le
  low := holds_nil _ _
  high := by
    rw [List.length_nil, Nat.add_zero, Nat.sub_add_cancel (by omega)]
    exact h.high

theorem Written.close (h : Written text E ms₀ top sp done 0 image s) :
    Built text E ms₀ top sp (done ++ image) s where
  grounded := h.grounded
  mapped := h.mapped
  bottom := h.bottom
  filled := by
    have := h.filled
    simp only [List.length_nil, List.length_append]
    omega
  top_le := h.top_le
  low := holds_nil _ _
  high := holds_append.mpr ⟨h.low, h.high⟩

/-- The next part of the gap is filled. -/
theorem Written.copyout (h : Written text E ms₀ top sp done gap image s) (hpos : data ≠ [])
    (hgap : data.length ≤ gap) :
    Meets (copyout s.1 s.2 (sp + done.length) data) (· = .outOfMemory) fun s' =>
      Written text E ms₀ top sp (done ++ data) (gap - data.length) image s' := by
  have hfilled := h.filled
  have htop := h.top_le
  have hbottom := h.bottom
  refine (h.grounded.copyout hpos (by omega) (by omega)).mono ?_
  rintro ⟨ms, ph⟩ ⟨hg, hmapped, hholds, hkept⟩
  refine ⟨hg, fun v pte hv => hmapped v pte (h.mapped v pte hv), hbottom, ?_, htop, holds_append.mpr ⟨?_, hholds⟩, ?_⟩
  · rw [List.length_append]
    omega
  · exact h.low.congr fun va hle hlt => hkept va ⟨by omega, by omega⟩ (by omega)
  · have hplace : sp + (done ++ data).length + (gap - data.length) = sp + done.length + gap := by
      rw [List.length_append]
      omega
    rw [hplace]
    exact h.high.congr fun va hle hlt => hkept va ⟨by omega, by omega⟩ (by omega)

theorem copy_str_meets (cs : List UInt8) : ∀ {done : List UInt8} {gap : Nat} {s : MemorySet × Phys},
    Written text E ms₀ top sp done gap image s → cs.length + 1 ≤ gap →
      Meets (copy_str (sp + done.length) cs s) (· = .outOfMemory) fun s' =>
        Written text E ms₀ top sp (done ++ (cs ++ [0])) (gap - (cs.length + 1)) image s' := by
  induction cs with
  | nil =>
    intro done gap s h hgap
    exact h.copyout (List.cons_ne_nil _ _) hgap
  | cons c cs ih =>
    intro done gap s h hgap
    rw [List.length_cons] at hgap
    have hplace : sp + done.length + 1 = sp + (done ++ [c]).length := by
      rw [List.length_append, List.length_singleton, Nat.add_assoc]
    have hleft : gap - 1 - (cs.length + 1) = gap - (cs.length + 1 + 1) := by omega
    rw [copy_str, hplace]
    refine (h.copyout (List.cons_ne_nil c []) (by rw [List.length_singleton]; omega)).bind ?_
    intro s₁ h₁
    rw [List.length_singleton] at h₁
    have hrest := ih h₁ (by omega)
    rw [hleft, List.append_assoc] at hrest
    exact hrest

theorem word_ne_nil (w : Nat) : bytes 8 w ≠ [] := List.cons_ne_nil _ _

theorem copy_ptrs_meets (ptrv : List Nat) : ∀ {done : List UInt8} {gap : Nat}
    {s : MemorySet × Phys}, Written text E ms₀ top sp done gap image s → 8 * ptrv.length ≤ gap →
      Meets (copy_ptrs (sp + done.length) ptrv s) (· = .outOfMemory) fun s' =>
        Written text E ms₀ top sp (done ++ word_row ptrv) (gap - 8 * ptrv.length) image s' := by
  induction ptrv with
  | nil =>
    intro done gap s h _
    rw [word_row, List.flatMap_nil, List.append_nil]
    exact h
  | cons ptr ptrv ih =>
    intro done gap s h hgap
    rw [List.length_cons] at hgap
    have hplace : sp + done.length + 8 = sp + (done ++ bytes 8 ptr).length := by
      rw [List.length_append, length_bytes, Nat.add_assoc]
    have hleft : gap - 8 - 8 * ptrv.length = gap - 8 * (ptrv.length + 1) := by omega
    rw [copy_ptrs, hplace]
    refine (h.copyout (word_ne_nil ptr) (by rw [length_bytes]; omega)).bind ?_
    intro s₁ h₁
    rw [length_bytes] at h₁
    have hrest := ih h₁ (by omega)
    rw [hleft, List.append_assoc] at hrest
    exact hrest

/-- The strings, by induction: each one is right below the one before. -/
theorem push_strs_meets (strs : List (List Char)) : ∀ {sp : Nat} {image : List UInt8}
    {s : MemorySet × Phys}, Built text E ms₀ top sp image s →
      user_stack_bottom + stacked_len (strs.map as_bytes) ≤ sp →
      Meets (push_strs sp strs s) (· = .outOfMemory) fun r =>
        r.1 = (stacked sp (strs.map as_bytes)).map Prod.fst ∧
          r.2.1 + stacked_len (strs.map as_bytes) = sp ∧
          Built text E ms₀ top r.2.1 (stacked_bytes (strs.map as_bytes) ++ image) r.2.2 := by
  induction strs with
  | nil => exact fun h _ => ⟨rfl, rfl, h⟩
  | cons str strs ih =>
    intro sp image s h hroom
    rw [List.map_cons, stacked_len_cons] at hroom
    rw [push_strs, h.below (by omega)]
    refine (copy_str_meets (as_bytes str) (h.open (by omega)) le_rfl).bind fun s₁ h₁ => ?_
    rw [Nat.sub_self, List.nil_append] at h₁
    refine (ih h₁.close (by omega)).bind ?_
    rintro ⟨ptrv, low_sp, s₂⟩ ⟨rfl, hlow, h₂⟩
    rw [List.map_cons, stacked_len_cons, stacked_bytes, stacked, List.append_assoc]
    exact ⟨rfl, by dsimp only at hlow ⊢; omega, h₂⟩

theorem push_word_meets (h : Built text E ms₀ top sp image s) (hroom : user_stack_bottom + 8 ≤ sp)
    (w : Nat) :
    Meets (push_word sp w s) (· = .outOfMemory) fun r =>
      r.1 + 8 = sp ∧ Built text E ms₀ top r.1 (bytes 8 w ++ image) r.2 := by
  rw [push_word, h.below hroom]
  refine ((h.open hroom).copyout (word_ne_nil w) (length_bytes 8 w).le).bind fun s₁ h₁ => ?_
  rw [length_bytes, Nat.sub_self, List.nil_append] at h₁
  exact ⟨Nat.sub_add_cancel (by omega), h₁.close⟩

/-- The pairs as they stand in memory. -/
def aux_pairs (auxv : List AuxEntry) : List (Nat × Nat) :=
  auxv.reverse.map fun e => (e.key.toNat, e.value.toNat)

theorem push_auxs_meets (auxv : List AuxEntry) : ∀ {sp : Nat} {image : List UInt8}
    {s : MemorySet × Phys}, Built text E ms₀ top sp image s → user_stack_bottom + 16 * auxv.length ≤ sp →
      Meets (push_auxs sp auxv s) (· = .outOfMemory) fun r => r.1 + 16 * auxv.length = sp ∧
        Built text E ms₀ top r.1 (pair_row (aux_pairs auxv) ++ image) r.2 := by
  induction auxv with
  | nil => exact fun h _ => ⟨rfl, h⟩
  | cons e auxv ih =>
    intro sp image s h hroom
    rw [List.length_cons] at hroom ⊢
    have hrow : pair_row (aux_pairs (e :: auxv)) =
        pair_row (aux_pairs auxv) ++ (bytes 8 e.key.toNat ++ bytes 8 e.value.toNat) := by
      simp [pair_row, aux_pairs]
    have hlen : (bytes 8 e.key.toNat ++ bytes 8 e.value.toNat).length = 16 := by
      rw [List.length_append, length_bytes, length_bytes]
    have hpos : bytes 8 e.key.toNat ++ bytes 8 e.value.toNat ≠ [] :=
      List.append_ne_nil_of_left_ne_nil (word_ne_nil _) _
    rw [push_auxs, h.below (by omega), hrow]
    refine ((h.open (by omega)).copyout hpos hlen.le).bind fun s₁ h₁ => ?_
    rw [hlen, Nat.sub_self, List.nil_append] at h₁
    refine (ih h₁.close (by omega)).mono ?_
    rintro r ⟨hsp, h₂⟩
    rw [List.append_assoc]
    exact ⟨by omega, h₂⟩

theorem push_ptrs_meets (h : Built text E ms₀ top sp image s) (ptrv : List Nat)
    (hroom : user_stack_bottom + 8 * ptrv.length ≤ sp) :
    Meets (push_ptrs sp ptrv s) (· = .outOfMemory) fun r =>
      r.1 + 8 * ptrv.length = sp ∧ Built text E ms₀ top r.1 (word_row ptrv ++ image) r.2 := by
  rw [Nat.mul_comm] at hroom
  rw [push_ptrs, h.below hroom]
  refine (copy_ptrs_meets ptrv (h.open hroom) (Nat.mul_comm _ _).le).bind fun s₁ h₁ => ?_
  rw [Nat.mul_comm 8, Nat.sub_self, List.nil_append] at h₁
  exact ⟨by dsimp only; omega, h₁.close⟩

end Written

section Decode

variable {text : KernelImage} {E : Multiset Nat} {user_sp : Nat} {s : MemorySet × Phys}
  {args envs : List (List Char)} {auxv : List AuxEntry}

/-- What a runtime finds. -/
def startup (user_sp : Nat) (args envs : List (List Char)) (auxv : List AuxEntry) : Startup where
  args := stacked (user_sp - stacked_len (envs.map as_bytes)) (args.map as_bytes)
  envs := stacked user_sp (envs.map as_bytes)
  auxs := aux_pairs auxv

/-- The bytes that `init_ustack` writes. -/
def ustack_len (args envs : List (List Char)) (auxv : List AuxEntry) : Nat :=
  stacked_len (envs.map as_bytes) + stacked_len (args.map as_bytes) + 32 +
    8 * (args.length + envs.length) + 16 * auxv.length

theorem length_stacked (top : Nat) (ls : List (List UInt8)) : (stacked top ls).length = ls.length := by
  rw [← List.length_map Prod.snd, map_snd_stacked]

theorem length_table_startup (user_sp : Nat) (args envs : List (List Char)) (auxv : List AuxEntry) :
    (startup user_sp args envs auxv).table.length =
      32 + 8 * (args.length + envs.length) + 16 * auxv.length := by
  simp only [length_table, startup, length_stacked, aux_pairs, List.length_map, List.length_reverse]

theorem length_ptrv (top : Nat) (strs : List (List Char)) :
    ((stacked top (strs.map as_bytes)).map Prod.fst).length = strs.length := by
  rw [List.length_map, length_stacked, List.length_map]

/-- The stack as `init_ustack` leaves it, from its pointer up. -/
theorem init_ustack_built (h : Grounded text E s.1 s.2) (htop : user_sp ≤ USER_STACK_BASE)
    (hfit : user_stack_bottom + ustack_len args envs auxv ≤ user_sp) :
    Meets (init_ustack s user_sp args envs auxv) (· = .outOfMemory) fun r =>
      r.1.1 + ustack_len args envs auxv = user_sp ∧
        Built text E s.1 user_sp r.1.1 ((startup user_sp args envs auxv).table ++
          (stacked_bytes (args.map as_bytes) ++ stacked_bytes (envs.map as_bytes))) r.2 := by
  unfold ustack_len at hfit ⊢
  have h₀ : Built text E s.1 user_sp user_sp [] s :=
    ⟨h, fun _ _ hv => hv, by omega, rfl, htop, holds_nil _ _, holds_nil _ _⟩
  refine (push_strs_meets envs h₀ (by omega)).bind ?_
  rintro ⟨envs_ptrv, sp₁, s₁⟩ ⟨rfl, hsp₁, h₁⟩
  dsimp only at hsp₁ h₁ ⊢
  refine (push_strs_meets args h₁ (by omega)).bind ?_
  rintro ⟨args_ptrv, sp₂, s₂⟩ ⟨rfl, hsp₂, h₂⟩
  dsimp only at hsp₂ h₂ ⊢
  refine (push_word_meets h₂ (by omega) 0).bind ?_
  rintro ⟨sp₃, s₃⟩ ⟨hsp₃, h₃⟩
  dsimp only at hsp₃ h₃ ⊢
  refine (push_auxs_meets auxv h₃ (by omega)).bind ?_
  rintro ⟨sp₄, s₄⟩ ⟨hsp₄, h₄⟩
  dsimp only at hsp₄ h₄ ⊢
  refine (push_word_meets h₄ (by omega) 0).bind ?_
  rintro ⟨sp₅, s₅⟩ ⟨hsp₅, h₅⟩
  dsimp only at hsp₅ h₅ ⊢
  refine (push_ptrs_meets h₅ _ (by rw [length_ptrv]; omega)).bind ?_
  rintro ⟨sp₆, s₆⟩ ⟨hsp₆, h₆⟩
  rw [length_ptrv] at hsp₆
  dsimp only at hsp₆ h₆ ⊢
  refine (push_word_meets h₆ (by omega) 0).bind ?_
  rintro ⟨sp₇, s₇⟩ ⟨hsp₇, h₇⟩
  dsimp only at hsp₇ h₇ ⊢
  refine (push_ptrs_meets h₇ _ (by rw [length_ptrv]; omega)).bind ?_
  rintro ⟨sp₈, s₈⟩ ⟨hsp₈, h₈⟩
  rw [length_ptrv] at hsp₈
  dsimp only at hsp₈ h₈ ⊢
  refine (push_word_meets h₈ (by omega) args.length).bind ?_
  rintro ⟨sp₉, s₉⟩ ⟨hsp₉, h₉⟩
  dsimp only at hsp₉ h₉ ⊢
  refine ⟨by dsimp only; omega, ?_⟩
  have hargs : user_sp - stacked_len (envs.map as_bytes) = sp₁ := by omega
  simpa only [startup, hargs, Startup.table, length_stacked, List.length_map, List.append_assoc,
    List.append_nil] using h₉

theorem bottom_pos : 0 < user_stack_bottom := by decide

theorem bottom_add_size : user_stack_bottom + USER_STACK_SIZE = USER_STACK_BASE := by decide

/-- A string that was passed, on the stack. -/
theorem stands_of_stacked {mem : Memory} {top : Nat} {strs : List (List Char)}
    (hroom : user_stack_bottom + stacked_len (strs.map as_bytes) ≤ top)
    (htop : top ≤ USER_STACK_BASE) (hzero : ∀ str ∈ strs, 0 ∉ as_bytes str)
    (hholds : Holds mem (top - stacked_len (strs.map as_bytes))
      (stacked_bytes (strs.map as_bytes))) :
    ∀ a ∈ stacked top (strs.map as_bytes), Stands mem USER_STACK_SIZE a := by
  intro a ha
  obtain ⟨hlo, hhi, hmem⟩ := stacked_mem (by omega) a ha
  have hpos := bottom_pos
  have hsize := bottom_add_size
  have hbase : USER_STACK_BASE < 2 ^ 64 := by decide
  obtain ⟨str, hstr, heq⟩ := List.mem_map.mp hmem
  exact {
    ptr_lt := by omega
    ptr_ne := by omega
    no_zero := by
      rw [← heq]
      exact hzero str hstr
    short := by omega
    holds := stacked_holds (by omega) hholds a ha }

/-- What was passed is found in any memory that holds the stack, in areas that do not overlap. -/
theorem walk_of_built {mem : Memory} {sp : Nat} (hsp : sp + ustack_len args envs auxv = user_sp)
    (hbottom : user_stack_bottom ≤ sp) (htop : user_sp ≤ USER_STACK_BASE)
    (hholds : Holds mem sp ((startup user_sp args envs auxv).table ++
      (stacked_bytes (args.map as_bytes) ++ stacked_bytes (envs.map as_bytes))))
    (hzero : ∀ str ∈ args ++ envs, 0 ∉ as_bytes str) (hkey : ∀ e ∈ auxv, e.key ≠ 0) :
    walk mem USER_STACK_SIZE sp = some (startup user_sp args envs auxv) ∧
      ((startup user_sp args envs auxv).areas sp).Pairwise CMemory.Apart := by
  unfold ustack_len at hsp
  have hsize := bottom_add_size
  have hbase : USER_STACK_BASE < 2 ^ 64 := by decide
  have hlen := length_table_startup user_sp args envs auxv
  obtain ⟨htable, hstrings⟩ := holds_append.mp hholds
  obtain ⟨hargs, henvs⟩ := holds_append.mp hstrings
  -- the strings begin where the table ends
  have hlow : sp + (startup user_sp args envs auxv).table.length =
      user_sp - stacked_len (envs.map as_bytes) - stacked_len (args.map as_bytes) := by omega
  have hhigh : user_sp - stacked_len (envs.map as_bytes) - stacked_len (args.map as_bytes) +
      stacked_len (args.map as_bytes) = user_sp - stacked_len (envs.map as_bytes) := by omega
  rw [length_stacked_bytes, hlow, hhigh] at henvs
  rw [hlow] at hargs
  have hzero' := List.forall_mem_append.mp hzero
  refine ⟨walk_of_holds htable ?argc ?envc ?auxc
    (stands_of_stacked (by omega) (by omega) hzero'.1 hargs)
    (stands_of_stacked (by omega) htop hzero'.2 henvs) ?auxs, areas_apart ?above
      (stacked_append_apart (by omega) (by omega) le_rfl)⟩
  case argc =>
    rw [startup, length_stacked, List.length_map]
    omega
  case envc =>
    rw [startup, length_stacked, List.length_map]
    omega
  case auxc =>
    rw [startup, aux_pairs, List.length_map, List.length_reverse]
    omega
  case auxs =>
    intro p hp
    obtain ⟨e, he, rfl⟩ := List.mem_map.mp hp
    have hne := hkey e (List.mem_reverse.mp he)
    exact ⟨fun hk => hne (UInt64.toNat_inj.mp hk), e.key.toNat_lt, e.value.toNat_lt⟩
  case above =>
    rw [hlow]
    refine List.forall_mem_append.mpr ⟨fun a ha => ?_, fun a ha => ?_⟩
    · exact (stacked_mem (by omega) a ha).1
    · have hle := (stacked_mem (by omega) a ha).1
      omega

/-- A runtime that walks the stack from the returned pointer finds the strings in order and the
auxiliary entries in reverse order, in areas that do not overlap. -/
theorem init_ustack_decodes (h : Grounded text E s.1 s.2) (htop : user_sp ≤ USER_STACK_BASE)
    (hfit : user_stack_bottom + ustack_len args envs auxv ≤ user_sp)
    (hzero : ∀ str ∈ args ++ envs, 0 ∉ as_bytes str) (hkey : ∀ e ∈ auxv, e.key ≠ 0) :
    Meets (init_ustack s user_sp args envs auxv) (· = .outOfMemory) fun r =>
      ∃ u, walk (r.2.1.view r.2.2) USER_STACK_SIZE r.1.1 = some u ∧
        u.args.map Prod.snd = args.map as_bytes ∧ u.envs.map Prod.snd = envs.map as_bytes ∧
        u.auxs = auxv.reverse.map (fun e => (e.key.toNat, e.value.toNat)) ∧
        (u.areas r.1.1).Pairwise CMemory.Apart := by
  refine (init_ustack_built h htop hfit).mono ?_
  rintro r ⟨hsp, hbuilt⟩
  obtain ⟨hwalk, hapart⟩ := walk_of_built hsp hbuilt.bottom htop hbuilt.high hzero hkey
  exact ⟨_, hwalk, map_snd_stacked _ _, map_snd_stacked _ _, rfl, hapart⟩

/-- `sh` with an empty argument, one variable, a page size and a clock. -/
def sh_args : List (List Char) := [['s', 'h'], []]

def sh_envs : List (List Char) := [['A', '=', 'é']]

def sh_auxv : List AuxEntry := [⟨6, 0x1000⟩, ⟨17, 100⟩]

theorem init_ustack_decodes_sh : ∃ s r u,
    init_ustack s USER_STACK_BASE sh_args sh_envs sh_auxv = .ok r ∧
      walk (r.2.1.view r.2.2) USER_STACK_SIZE r.1.1 = some u ∧
      u.args.map Prod.snd = [[0x73, 0x68], []] ∧ u.envs.map Prod.snd = [[0x41, 0x3d, 0xc3, 0xa9]] ∧
      u.auxs = [(17, 100), (6, 0x1000)] := by
  obtain ⟨r, hr, _⟩ : ∃ r, (do
      let s ← MemorySet.load_elf Machine.image Machine.one_page (Machine.boot Machine.image 64).ph
      init_ustack s USER_STACK_BASE sh_args sh_envs sh_auxv) = .ok r ∧ True :=
    Meets.exists_ok (by decide +kernel)
  have howned : Owned (Machine.boot Machine.image 64).ph.allocator 0 :=
    (exact_init 16 64).congr fun q => Multiset.count_zero q
  generalize (Machine.boot Machine.image 64).ph = ph at hr howned
  obtain ⟨⟨ms, ph'⟩, hload, hbuilt⟩ := bind_eq_ok.mp hr
  have hg : Grounded Machine.image 0 ms ph' := load_elf_grounded howned hload
  obtain ⟨u, hwalk, hargs, henvs, hauxs, _⟩ :=
    (init_ustack_decodes hg le_rfl (by decide) (by decide) (by decide)).of_ok hbuilt
  refine ⟨_, r, u, hbuilt, hwalk, ?_, ?_, ?_⟩
  · rw [hargs]
    decide
  · rw [henvs]
    decide
  · rw [hauxs]
    decide

end Decode

end MyGOS.Task
