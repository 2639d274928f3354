import MyGOS.Lib.LittleEndian
import MyGOS.Task.TaskControlBlock
import Mathlib.Data.List.OfFn

/-!
# The trap context and the signal frame

What the kernel pushes on the stack of a task before a handler: a `UContext`, a
`SigInfo` that it leaves unwritten, and a `SignalContext` with the whole trap
context in it, kernel-only fields included.
-/

namespace MyGOS.Task

open LittleEndian

structure TrapContext where
  x : Fin 32 → BitVec 64
  sstatus : BitVec 64
  sepc : BitVec 64
  kernel_satp : BitVec 64
  kernel_sp : BitVec 64
  trap_handler : BitVec 64
  executor_id : BitVec 64
  freg : Fin 32 → BitVec 64

namespace TrapContext

/-- `trap_cx.x[i] = v`. -/
def set_x (cx : TrapContext) (i : Fin 32) (v : BitVec 64) : TrapContext :=
  { cx with x := Function.update cx.x i v }

def words (cx : TrapContext) : List (BitVec 64) :=
  List.ofFn cx.x ++
    ([cx.sstatus, cx.sepc, cx.kernel_satp, cx.kernel_sp, cx.trap_handler, cx.executor_id] ++
      List.ofFn cx.freg)

def bytes (cx : TrapContext) : List UInt8 := row cx.words

def of_bytes (l : List UInt8) : TrapContext where
  x i := word l (8 * i)
  sstatus := word l 256
  sepc := word l 264
  kernel_satp := word l 272
  kernel_sp := word l 280
  trap_handler := word l 288
  executor_id := word l 296
  freg i := word l (8 * (38 + i))

variable (cx : TrapContext)

@[simp] theorem length_words : cx.words.length = 70 := by simp [words]

@[simp] theorem length_bytes : cx.bytes.length = 560 := by simp [bytes]

theorem words_x (i : Fin 32) : cx.words[i.val]? = some (cx.x i) := by
  rw [words, List.getElem?_append_left (by simp), List.getElem?_ofFn]
  simp

theorem words_freg (i : Fin 32) : cx.words[38 + i.val]? = some (cx.freg i) := by
  have hlt : 38 + i.val - 32 - 6 = i.val := by omega
  rw [words, List.getElem?_append_right (by simp; omega), List.getElem?_append_right (by simp; omega),
    List.length_ofFn]
  simp only [List.length_cons, List.length_nil, Nat.reduceAdd, hlt]
  rw [List.getElem?_ofFn]
  simp

/-- The fields between the registers. -/
theorem words_field {i : Nat} (hi : i < 6) : cx.words[32 + i]? =
    [cx.sstatus, cx.sepc, cx.kernel_satp, cx.kernel_sp, cx.trap_handler, cx.executor_id][i]? := by
  rw [words, List.getElem?_append_right (by simp), List.length_ofFn, Nat.add_sub_cancel_left,
    List.getElem?_append_left hi]

theorem of_bytes_bytes (rest : List UInt8) : of_bytes (cx.bytes ++ rest) = cx := by
  have hword : ∀ i w, cx.words[i]? = some w → word (cx.bytes ++ rest) (8 * i) = w :=
    fun i w h => word_row cx.words rest h
  have hx : (fun i : Fin 32 => word (cx.bytes ++ rest) (8 * i)) = cx.x :=
    funext fun i => hword i _ (cx.words_x i)
  have hfreg : (fun i : Fin 32 => word (cx.bytes ++ rest) (8 * (38 + i))) = cx.freg :=
    funext fun i => hword (38 + i) _ (cx.words_freg i)
  have hfield : ∀ i w, i < 6 → [cx.sstatus, cx.sepc, cx.kernel_satp, cx.kernel_sp,
      cx.trap_handler, cx.executor_id][i]? = some w →
      word (cx.bytes ++ rest) (8 * (32 + i)) = w :=
    fun i w hi h => hword (32 + i) w ((cx.words_field hi).trans h)
  rw [of_bytes, hx, hfreg, hfield 0 _ (by decide) rfl, hfield 1 _ (by decide) rfl,
    hfield 2 _ (by decide) rfl, hfield 3 _ (by decide) rfl, hfield 4 _ (by decide) rfl,
    hfield 5 _ (by decide) rfl]

end TrapContext

structure SignalContext where
  context : TrapContext
  mask : SigSet

namespace SignalContext

/-- `size_of::<SignalContext>()`. -/
def SIZE : Nat := 568

def bytes (sc : SignalContext) : List UInt8 := sc.context.bytes ++ LittleEndian.bytes 8 sc.mask.toNat

def of_bytes (l : List UInt8) : SignalContext := ⟨.of_bytes l, word l 560⟩

@[simp] theorem length_bytes (sc : SignalContext) : sc.bytes.length = SIZE := by
  simp [bytes, SIZE]

theorem of_bytes_bytes (sc : SignalContext) : of_bytes sc.bytes = sc := by
  have hmask : word sc.bytes 560 = sc.mask := by
    have hword := word_append sc.context.bytes (LittleEndian.bytes 8 sc.mask.toNat) 0
    rw [sc.context.length_bytes] at hword
    rw [bytes, hword]
    have hrest := word_bytes sc.mask []
    rwa [List.append_nil] at hrest
  rw [of_bytes, hmask, bytes, TrapContext.of_bytes_bytes]

end SignalContext

/-- `size_of::<SigInfo>()`. -/
def SigInfo.SIZE : Nat := 36

/-- The fields before `uc_mcontext`, as words, and its registers; the other bytes are zero. -/
structure UContext where
  uc_flags : BitVec 64
  uc_link : BitVec 64
  ss_sp : BitVec 64
  ss_flags : BitVec 32
  ss_size : BitVec 64
  sigmask : SigSet
  greps : Fin 32 → BitVec 64

namespace UContext

def SIZE : Nat := 952

def empty : UContext := ⟨0, 0, 0, 0, 0, 0, fun _ => 0⟩

/-- `uc_mcontext.greps[i] = v`. -/
def set_greps (uc : UContext) (i : Fin 32) (v : BitVec 64) : UContext :=
  { uc with greps := Function.update uc.greps i v }

def words (uc : UContext) : List (BitVec 64) :=
  [uc.uc_flags, uc.uc_link, uc.ss_sp, uc.ss_flags.setWidth 64, uc.ss_size, uc.sigmask] ++
    (List.replicate 15 0 ++ (List.ofFn uc.greps ++ List.replicate 66 0))

def bytes (uc : UContext) : List UInt8 := row uc.words

/-- `uc_mcontext.greps[i]` of the `UContext` in `l`. -/
def greps_of (l : List UInt8) (i : Fin 32) : BitVec 64 := word l (168 + 8 * i)

@[simp] theorem set_greps_self (uc : UContext) (i : Fin 32) (v : BitVec 64) :
    (uc.set_greps i v).greps i = v :=
  Function.update_self ..

@[simp] theorem length_bytes (uc : UContext) : uc.bytes.length = SIZE := by
  simp [bytes, words, SIZE]

theorem greps_of_bytes (uc : UContext) (i : Fin 32) : greps_of uc.bytes i = uc.greps i := by
  have hword : uc.words[21 + i.val]? = some (uc.greps i) := by
    have hlt : 21 + i.val - 6 - 15 = i.val := by omega
    rw [words, List.getElem?_append_right (by simp; omega), List.getElem?_append_right (by simp; omega),
      List.getElem?_append_left (by simp; omega)]
    simp only [List.length_cons, List.length_nil, Nat.reduceAdd, List.length_replicate, hlt]
    rw [List.getElem?_ofFn]
    simp
  have hplace : 168 + 8 * i.val = 8 * (21 + i.val) := by omega
  have hrow := word_row uc.words [] hword
  rw [List.append_nil] at hrow
  rw [greps_of, hplace]
  exact hrow

end UContext

end MyGOS.Task
