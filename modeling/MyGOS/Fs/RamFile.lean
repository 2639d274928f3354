import MyGOS.Fs.KFile
import MyGOS.Lib.GrowingArray
import MyGOS.Lib.StepSystem

/-!
# Files of the RAM file system

A file in memory is a vector of bytes, and an open one has an offset beside it.
The flat array it stands for is read and written at any offset: a read past the
end is short, and a write past the end fills the gap with zeros.
-/

namespace MyGOS.Fs

open Fat32 Outcome StepSystem GrowingArray

structure RamFileInner where
  name : Name
  content : List UInt8
  flags : OpenFlags
deriving DecidableEq

structure RamFile where
  inner : RamFileInner
  offset : Nat
deriving DecidableEq

/-- `content[start..stop]`. -/
def sub_slice (content : List UInt8) (start stop : Nat) : Except FsPanic (List UInt8) :=
  if start ≤ stop ∧ stop ≤ content.length then .ok ((content.take stop).drop start)
  else .error .outOfBounds

/-- The part of `buffer` up to the end of `content` replaces what is there, and the rest extends
the content. Where the start is past the end, their difference wraps and no range fits. -/
def write_over (content : List UInt8) (offset : Nat) (buffer : List UInt8) :
    Except FsPanic (List UInt8) := do
  let file_size := content.length
  let part1 := min (file_size - offset) buffer.length
  let _ ← sub_slice content offset (offset + part1)
  return content.take offset ++ buffer.take part1 ++ content.drop (offset + part1) ++
    buffer.drop part1

namespace RamFile

/-- The other name of `/dev/zero`. -/
def ZERO : Name := ['Z', 'E', 'R', 'O']

variable (f : RamFile)

def name : Name := f.inner.name

def content : List UInt8 := f.inner.content

def flags : OpenFlags := f.inner.flags

def file_size : Nat := f.content.length

def set_content (content : List UInt8) : RamFile :=
  { f with inner := { f.inner with content := content } }

def seek (new_off : Nat) : RamFile := { f with offset := new_off }

/-- The results of a read are the buffer after it and what it returns. -/
def read (buffer : List UInt8) : Except FsPanic (List UInt8 × Nat × RamFile) :=
  if f.file_size ≤ f.offset then .ok (buffer, 0, f)
  else do
    let read_len := min buffer.length (f.file_size - f.offset)
    let src ← sub_slice f.content f.offset (f.offset + read_len)
    return (src ++ buffer.drop read_len, read_len, f.seek (f.offset + read_len))

def write (buffer : List UInt8) : Except FsPanic (Nat × RamFile) := do
  let content ← write_over f.content f.offset buffer
  return (buffer.length, (f.set_content content).seek (f.offset + buffer.length))

/-- `drain(size..)`. -/
def truncate (size : Nat) : Except FsPanic RamFile :=
  if size ≤ f.file_size then .ok (f.set_content (f.content.take size)) else .error .outOfBounds

def kernel_read_with_offset (offset len : Nat) : Except FsPanic (List UInt8) :=
  if offset + len ≤ f.file_size then sub_slice f.content offset (offset + len)
  else .error .outOfBounds

def read_to_kspace : Except FsPanic (List UInt8 × RamFile) :=
  if f.offset ≤ f.file_size then do
    let len := f.file_size - f.offset
    let buffer ← sub_slice f.content f.offset (f.offset + len)
    return (buffer, f.seek f.file_size)
  else .error .outOfBounds

/-- The loop of `pread`. The offset is the one of the file, and `copy_from_slice` stops where
the content does not fill the slice. -/
def pread_slices (file_size : Nat) :
    List (List UInt8) → RamFile → Except FsPanic (List (List UInt8) × Nat × RamFile)
  | [], f => .ok ([], 0, f)
  | sub_buff :: buffers, f => do
    let read_size := min sub_buff.length (file_size - f.offset)
    let src ← sub_slice f.content f.offset (f.offset + read_size)
    if src.length ≠ sub_buff.length then throw .outOfBounds
    let (rest, total_read_size, f) ←
      pread_slices file_size buffers (f.seek (f.offset + read_size))
    return (src :: rest, read_size + total_read_size, f)

def pread (buffers : List (List UInt8)) (offset : Nat) :
    Except FsPanic (List (List UInt8) × Nat × RamFile) :=
  if f.file_size = 0 then
    let zeros := buffers.map fun sub_buff => List.replicate sub_buff.length 0
    .ok (if f.name = FsState.zero ∨ f.name = ZERO then zeros else buffers, 0, f)
  else if f.file_size ≤ offset then .ok (buffers, 0, f)
  else pread_slices f.file_size buffers f

def read_to_ubuf (buffers : List (List UInt8)) :
    Except FsPanic (List (List UInt8) × Nat × RamFile) :=
  f.pread buffers f.offset

def write_from_kspace (buffer : List UInt8) : Except FsPanic (Nat × RamFile) := do
  let content ← write_over f.content f.offset buffer
  return (buffer.length, (f.set_content content).seek (f.offset + buffer.length))

/-- Each slice is written, and the file is left where it ends. -/
def pwrite : RamFile → List (List UInt8) → (offset : Nat) → Except FsPanic (Nat × RamFile)
  | f, [], _ => .ok (0, f)
  | f, sub_buf :: buffers, offset => do
    let content ← write_over f.content offset sub_buf
    let offset := offset + sub_buf.length
    let (total_write_size, f) ← pwrite ((f.set_content content).seek offset) buffers offset
    return (sub_buf.length + total_write_size, f)

def write_from_ubuf (buffers : List (List UInt8)) : Except FsPanic (Nat × RamFile) :=
  let offset := if OpenFlags.contains f.flags .O_APPEND then f.file_size else f.offset
  f.pwrite buffers offset

end RamFile

/-- The operations on a file; a buffer that is read into comes with what it holds. -/
inductive RamOp where
  | read (buffer : List UInt8)
  | write (buffer : List UInt8)
  | seek (new_off : Nat)
  | truncate (size : Nat)
  | kernel_read_with_offset (offset len : Nat)
  | read_to_kspace
  | read_to_ubuf (buffers : List (List UInt8))
  | pread (buffers : List (List UInt8)) (offset : Nat)
  | write_from_kspace (buffer : List UInt8)
  | pwrite (buffers : List (List UInt8)) (offset : Nat)
  | write_from_ubuf (buffers : List (List UInt8))

/-- The bytes that were read, and the number returned. -/
abbrev Reply := List UInt8 × Nat

namespace RamFile

/-- What is read is what stands in the buffer up to the number returned. -/
def step (f : RamFile) : RamOp → Except FsPanic (RamFile × Reply)
  | .read buffer => do
    let (buffer, n, f) ← f.read buffer
    return (f, buffer.take n, n)
  | .write buffer => do
    let (n, f) ← f.write buffer
    return (f, [], n)
  | .seek new_off => .ok (f.seek new_off, [], 0)
  | .truncate size => do return (← f.truncate size, [], 0)
  | .kernel_read_with_offset offset len => do
    let buffer ← f.kernel_read_with_offset offset len
    return (f, buffer, buffer.length)
  | .read_to_kspace => do
    let (buffer, f) ← f.read_to_kspace
    return (f, buffer, buffer.length)
  | .read_to_ubuf buffers => do
    let (buffers, n, f) ← f.read_to_ubuf buffers
    return (f, buffers.flatten.take n, n)
  | .pread buffers offset => do
    let (buffers, n, f) ← f.pread buffers offset
    return (f, buffers.flatten.take n, n)
  | .write_from_kspace buffer => do
    let (n, f) ← f.write_from_kspace buffer
    return (f, [], n)
  | .pwrite buffers offset => do
    let (n, f) ← f.pwrite buffers offset
    return (f, [], n)
  | .write_from_ubuf buffers => do
    let (n, f) ← f.write_from_ubuf buffers
    return (f, [], n)

end RamFile

/-- A flat array of bytes with an offset. Where `append` is set, writes go to its end. -/
structure FlatBytes where
  bytes : List UInt8
  offset : Nat
  append : Bool
deriving DecidableEq

namespace FlatBytes

variable (s : FlatBytes)

def size : Nat := s.bytes.length

def start : Nat := if s.append then s.size else s.offset

/-- A read of `n` bytes at the offset, which moves past what was read. -/
def read (n : Nat) : FlatBytes × Reply :=
  let got := readAt s.bytes s.offset n
  ({ s with offset := s.offset + got.length }, got, got.length)

def pread (offset n : Nat) : FlatBytes × Reply :=
  let got := readAt s.bytes offset n
  (s, got, got.length)

/-- A write of nothing changes nothing. -/
def pwrite (offset : Nat) (data : List UInt8) : FlatBytes × Reply :=
  (if data = [] then s else { s with bytes := writeAt 0 s.bytes offset data }, [], data.length)

def write (data : List UInt8) : FlatBytes × Reply :=
  (if data = [] then s else
    { s with
      bytes := writeAt 0 s.bytes s.start data
      offset := s.start + data.length }, [], data.length)

def step (s : FlatBytes) : RamOp → Except FsPanic (FlatBytes × Reply)
  | .read buffer => .ok (s.read buffer.length)
  | .read_to_ubuf buffers => .ok (s.read buffers.flatten.length)
  | .read_to_kspace => .ok (s.read s.size)
  | .pread buffers offset => .ok (s.pread offset buffers.flatten.length)
  | .kernel_read_with_offset offset len => .ok (s.pread offset len)
  | .write buffer | .write_from_kspace buffer => .ok (s.write buffer)
  | .write_from_ubuf buffers => .ok (s.write buffers.flatten)
  | .pwrite buffers offset => .ok (s.pwrite offset buffers.flatten)
  | .seek new_off => .ok ({ s with offset := new_off }, [], 0)
  | .truncate size => .ok ({ s with bytes := s.bytes.takeD size 0 }, [], 0)

theorem step_ok (op : RamOp) : ∃ r, s.step op = .ok r := by
  cases op <;> exact ⟨_, rfl⟩

end FlatBytes

/-- The array a file stands for. -/
def RamFile.flat (f : RamFile) : FlatBytes where
  bytes := f.content
  offset := f.offset
  append := OpenFlags.contains f.flags .O_APPEND

/-- Each operation returns and leaves what it does of the flat array, and none panics. -/
def RamFile.ActsFlat (f : RamFile) (ops : List RamOp) : Prop :=
  ∀ done, done <+: ops → Follows (fun _ => False) (fun f s => f.flat = s)
    (observe RamFile.step f done) (observe FlatBytes.step f.flat done)

/-- Nothing is written past the end or cut where nothing is, a buffer is filled, and a place
that is given is the one where the file is. -/
def RamOp.Fits (s : FlatBytes) : RamOp → Prop
  | .read _ | .seek _ => True
  | .write buffer | .write_from_kspace buffer =>
    s.offset ≤ s.size ∧ (buffer = [] ∨ s.start = s.offset)
  | .truncate size => size ≤ s.size
  | .kernel_read_with_offset offset len => offset + len ≤ s.size
  | .read_to_kspace => s.offset ≤ s.size
  | .read_to_ubuf buffers => s.size ≤ s.offset ∨ s.offset + buffers.flatten.length ≤ s.size
  | .pread buffers offset =>
    s.size ≤ offset ∨ buffers = [] ∨ s.offset ≤ s.size ∧ buffers.flatten = []
  | .pwrite buffers offset =>
    buffers = [] ∨ offset ≤ s.size ∧ offset + buffers.flatten.length = s.offset
  | .write_from_ubuf buffers =>
    buffers = [] ∨ s.start ≤ s.size ∧ (buffers.flatten = [] → s.start = s.offset)

theorem sub_slice_eq (content : List UInt8) (start n : Nat) :
    sub_slice content start (start + n) =
      if start + n ≤ content.length then .ok (readAt content start n)
      else .error .outOfBounds := by
  rw [sub_slice, drop_take_add]
  simp only [Nat.le_add_right, true_and]

theorem write_over_eq (content : List UInt8) (offset : Nat) (buffer : List UInt8) :
    write_over content offset buffer =
      if offset ≤ content.length then .ok (writeAt 0 content offset buffer)
      else .error .outOfBounds := by
  simp only [write_over, sub_slice_eq]
  by_cases h : offset ≤ content.length
  · rw [if_pos (by omega), if_pos h, writeAt_eq_parts 0 h]
    simp only [ok_bind]
    congr 1
    rcases Nat.le_total (content.length - offset) buffer.length with hle | hle
    · rw [Nat.min_eq_left hle]
    · rw [Nat.min_eq_right hle, List.take_of_length_le hle, List.drop_of_length_le hle,
        List.take_length, List.drop_length]
  · rw [if_neg (by omega), if_neg h]
    rfl

namespace RamFile

variable {f : RamFile}

theorem pread_slices_filled {buffers : List (List UInt8)}
    (h : f.offset + buffers.flatten.length ≤ f.file_size) :
    ∃ filled, pread_slices f.file_size buffers f =
        .ok (filled, buffers.flatten.length, f.seek (f.offset + buffers.flatten.length)) ∧
      filled.flatten = readAt f.content f.offset buffers.flatten.length := by
  induction buffers generalizing f with
  | nil => exact ⟨[], rfl, rfl⟩
  | cons sub_buff buffers ih =>
    rw [List.flatten_cons, List.length_append] at h ⊢
    have hmin : min sub_buff.length (f.file_size - f.offset) = sub_buff.length := by omega
    have hlen : (readAt f.content f.offset sub_buff.length).length = sub_buff.length := by
      rw [length_readAt]
      exact Nat.min_eq_left (by rw [file_size] at h; omega)
    obtain ⟨filled, hrest, hfilled⟩ := @ih (f.seek (f.offset + sub_buff.length))
      (by simp only [seek, file_size, content] at h ⊢; omega)
    refine ⟨readAt f.content f.offset sub_buff.length :: filled, ?_, ?_⟩
    · have hfits : f.offset + sub_buff.length ≤ f.content.length := by
        rw [file_size] at h
        omega
      simp only [pread_slices, hmin, sub_slice_eq, if_pos hfits, ok_bind, hlen, ne_eq,
        not_true_eq_false, if_false]
      have hsame : (f.seek (f.offset + sub_buff.length)).file_size = f.file_size := rfl
      rw [hsame] at hrest
      simp only [hrest, ok_bind]
      simp only [seek, Nat.add_assoc]
      rfl
    · rw [List.flatten_cons, hfilled]
      exact readAt_append ..

theorem pread_slices_short {buffers : List (List UInt8)} (hne : buffers ≠ [])
    (h : f.file_size < f.offset + buffers.flatten.length) :
    ∃ e, pread_slices f.file_size buffers f = .error e := by
  induction buffers generalizing f with
  | nil => exact absurd rfl hne
  | cons sub_buff buffers ih =>
    rw [List.flatten_cons, List.length_append] at h
    simp only [pread_slices, sub_slice_eq]
    split
    · next hfits =>
      rw [ok_bind]
      by_cases hfull : f.offset + sub_buff.length ≤ f.file_size
      · have hmin : min sub_buff.length (f.file_size - f.offset) = sub_buff.length := by omega
        have hnext : buffers ≠ [] := by
          rintro rfl
          rw [List.flatten_nil, List.length_nil] at h
          omega
        obtain ⟨e, he⟩ := @ih (f.seek (f.offset + sub_buff.length)) hnext
          (by simp only [seek, file_size, content] at h ⊢; omega)
        have hlen : (readAt f.content f.offset sub_buff.length).length = sub_buff.length := by
          rw [length_readAt]
          exact Nat.min_eq_left (by rw [file_size] at hfull; omega)
        have hsame : (f.seek (f.offset + sub_buff.length)).file_size = f.file_size := rfl
        rw [hsame] at he
        refine ⟨e, ?_⟩
        rw [hmin, if_neg (by rw [hlen]; exact fun hn => hn rfl)]
        simp only [he]
        rfl
      · refine ⟨.outOfBounds, ?_⟩
        rw [if_pos]
        · rfl
        · rw [length_readAt]
          rw [file_size] at hfull hfits ⊢
          omega
    · exact ⟨_, rfl⟩

/-- A loop of writes that starts where the file is. -/
theorem pwrite_here {buffers : List (List UInt8)} (h : f.offset ≤ f.file_size) :
    f.pwrite buffers f.offset = .ok (buffers.flatten.length,
      (f.set_content (writeAt 0 f.content f.offset buffers.flatten)).seek
        (f.offset + buffers.flatten.length)) := by
  induction buffers generalizing f with
  | nil =>
    rw [List.flatten_nil, writeAt_nil 0 h]
    rfl
  | cons sub_buf buffers ih =>
    have hnext : f.offset + sub_buf.length ≤
        (writeAt 0 f.content f.offset sub_buf).length := by
      rw [length_writeAt]
      exact Nat.le_max_left ..
    have hrest := @ih ((f.set_content (writeAt 0 f.content f.offset sub_buf)).seek
      (f.offset + sub_buf.length)) hnext
    have hcontent : ((f.set_content (writeAt 0 f.content f.offset sub_buf)).seek
        (f.offset + sub_buf.length)).content = writeAt 0 f.content f.offset sub_buf := rfl
    rw [hcontent] at hrest
    simp only [pwrite, write_over_eq, if_pos (show f.offset ≤ f.content.length from h), ok_bind]
    simp only [seek, set_content, writeAt_writeAt, Nat.add_assoc] at hrest ⊢
    rw [hrest, List.flatten_cons, List.length_append]
    rfl

theorem pwrite_at {buffers : List (List UInt8)} {offset : Nat} (hne : buffers ≠ [])
    (h : offset ≤ f.file_size) :
    f.pwrite buffers offset = .ok (buffers.flatten.length,
      (f.set_content (writeAt 0 f.content offset buffers.flatten)).seek
        (offset + buffers.flatten.length)) := by
  cases buffers with
  | nil => exact absurd rfl hne
  | cons sub_buf buffers => exact @pwrite_here (f.seek offset) (sub_buf :: buffers) h

theorem pwrite_past {buffers : List (List UInt8)} {offset : Nat} (hne : buffers ≠ [])
    (h : f.file_size < offset) : f.pwrite buffers offset = .error .outOfBounds := by
  cases buffers with
  | nil => exact absurd rfl hne
  | cons sub_buf buffers =>
    rw [pwrite, write_over_eq, if_neg (by rw [file_size] at h; omega)]
    rfl

/-- What a step and the step of the flat array have to do with each other. -/
abbrev StepFlat (f : RamFile) (op : RamOp) : Prop :=
  Follows (fun _ => False) (fun f s => f.flat = s) (f.step op) (f.flat.step op)

theorem read_flat (buffer : List UInt8) : StepFlat f (.read buffer) := by
  simp only [StepFlat, step, read, FlatBytes.step, FlatBytes.read]
  split
  · next h =>
    have hnone : readAt f.flat.bytes f.flat.offset buffer.length = [] :=
      readAt_of_length_le h _
    rw [hnone]
    exact ⟨_, rfl, rfl⟩
  · next h =>
    have hfits : f.offset + min buffer.length (f.file_size - f.offset) ≤ f.content.length := by
      rw [file_size] at h ⊢
      omega
    have hread : readAt f.content f.offset (min buffer.length (f.file_size - f.offset)) =
        readAt f.content f.offset buffer.length := by
      rw [readAt, readAt, file_size, ← List.length_drop, List.take_eq_take_iff]
      omega
    have hlen : min buffer.length (f.file_size - f.offset) =
        (readAt f.content f.offset buffer.length).length := (length_readAt ..).symm
    rw [sub_slice_eq, if_pos hfits, hread, hlen]
    exact ⟨_, by simp only [List.take_left]; rfl, rfl⟩

theorem write_flat_iff (buffer : List UInt8) (h : f.offset ≤ f.file_size) :
    ((f.set_content (writeAt 0 f.content f.offset buffer)).seek
      (f.offset + buffer.length)).flat = (f.flat.write buffer).1 ↔
      buffer = [] ∨ f.flat.start = f.flat.offset := by
  by_cases hb : buffer = []
  · subst hb
    simp only [true_or, iff_true, FlatBytes.write, if_true]
    rw [writeAt_nil 0 h]
    rfl
  · simp only [FlatBytes.write, hb, false_or]
    constructor
    · intro heq
      have hoff := congrArg FlatBytes.offset heq
      exact (Nat.add_right_cancel hoff).symm
    · intro hstart
      rw [hstart]
      rfl

theorem write_step_iff (buffer : List UInt8) :
    StepFlat f (.write buffer) ↔ RamOp.Fits f.flat (.write buffer) := by
  simp only [StepFlat, step, write, write_over_eq, FlatBytes.step]
  by_cases h : f.offset ≤ f.content.length
  · rw [if_pos h]
    simp only [ok_bind, pure, Except.pure]
    rw [follows_ok_ok, write_flat_iff buffer h]
    exact ⟨fun hw => ⟨h, hw.2⟩, fun hw => ⟨rfl, hw.2⟩⟩
  · rw [if_neg h]
    exact iff_of_false follows_error_ok.mp fun hfits => h hfits.1

theorem write_from_ubuf_step_iff (buffers : List (List UInt8)) :
    StepFlat f (.write_from_ubuf buffers) ↔ RamOp.Fits f.flat (.write_from_ubuf buffers) := by
  have hstart : (if OpenFlags.contains f.flags .O_APPEND then f.file_size else f.offset) =
      f.flat.start := rfl
  simp only [StepFlat, step, write_from_ubuf, hstart, FlatBytes.step, RamOp.Fits]
  by_cases hne : buffers = []
  · subst hne
    exact iff_of_true ⟨_, rfl, rfl⟩ (Or.inl rfl)
  by_cases h : f.flat.start ≤ f.file_size
  · rw [pwrite_at hne h]
    simp only [ok_bind, pure, Except.pure]
    rw [follows_ok_ok]
    by_cases hb : buffers.flatten = []
    · simp only [hb, FlatBytes.write, if_true, hne, false_or, true_imp_iff]
      rw [writeAt_nil 0 h]
      constructor
      · rintro ⟨-, heq⟩
        exact ⟨h, congrArg FlatBytes.offset heq⟩
      · rintro ⟨-, heq⟩
        rw [heq]
        exact ⟨trivial, rfl⟩
    · simp only [FlatBytes.write, hb, false_imp_iff]
      exact iff_of_true ⟨trivial, rfl⟩ (Or.inr ⟨h, trivial⟩)
  · rw [pwrite_past hne (by omega)]
    refine iff_of_false follows_error_ok.mp ?_
    rintro (hnil | ⟨hle, -⟩)
    · exact hne hnil
    · exact h hle

theorem pwrite_step_iff (buffers : List (List UInt8)) (offset : Nat) :
    StepFlat f (.pwrite buffers offset) ↔ RamOp.Fits f.flat (.pwrite buffers offset) := by
  simp only [StepFlat, step, FlatBytes.step, RamOp.Fits]
  by_cases hne : buffers = []
  · subst hne
    exact iff_of_true ⟨_, rfl, rfl⟩ (Or.inl rfl)
  by_cases h : offset ≤ f.file_size
  · rw [pwrite_at hne h]
    simp only [ok_bind, pure, Except.pure]
    rw [follows_ok_ok]
    have hbytes : (f.flat.pwrite offset buffers.flatten).1 =
        { f.flat with bytes := writeAt 0 f.content offset buffers.flatten } := by
      simp only [FlatBytes.pwrite]
      split
      · next hb =>
        rw [hb, writeAt_nil 0 h]
        rfl
      · rfl
    constructor
    · rintro ⟨-, heq⟩
      rw [hbytes] at heq
      exact Or.inr ⟨h, congrArg FlatBytes.offset heq⟩
    · rintro (hnil | ⟨-, heq⟩)
      · exact absurd hnil hne
      · rw [hbytes, heq]
        exact ⟨rfl, rfl⟩
  · rw [pwrite_past hne (by omega)]
    refine iff_of_false follows_error_ok.mp ?_
    rintro (hnil | ⟨hle, -⟩)
    · exact hne hnil
    · exact h hle

theorem read_to_ubuf_step_iff (buffers : List (List UInt8)) :
    StepFlat f (.read_to_ubuf buffers) ↔ RamOp.Fits f.flat (.read_to_ubuf buffers) := by
  simp only [StepFlat, step, read_to_ubuf, pread, FlatBytes.step, RamOp.Fits]
  by_cases h : f.file_size ≤ f.offset
  · have hnone : readAt f.flat.bytes f.flat.offset buffers.flatten.length = [] :=
      readAt_of_length_le h _
    refine iff_of_true ?_ (Or.inl h)
    simp only [FlatBytes.read, hnone, h, if_true]
    split <;> exact ⟨_, rfl, rfl⟩
  rw [if_neg (by omega), if_neg h]
  by_cases hfill : f.offset + buffers.flatten.length ≤ f.file_size
  · obtain ⟨filled, hrun, hfilled⟩ := pread_slices_filled hfill
    have hlen : (readAt f.content f.offset buffers.flatten.length).length =
        buffers.flatten.length := by
      rw [length_readAt]
      exact Nat.min_eq_left (Nat.le_sub_of_add_le' hfill)
    rw [hrun]
    refine iff_of_true ?_ (Or.inr hfill)
    simp only [ok_bind, pure, Except.pure]
    rw [follows_ok_ok, hfilled, List.take_of_length_le (Nat.le_of_eq hlen)]
    have hshown : f.flat.read buffers.flatten.length =
        ({ f.flat with offset := f.flat.offset + buffers.flatten.length },
          readAt f.content f.offset buffers.flatten.length, buffers.flatten.length) := by
      rw [FlatBytes.read]
      simp only [flat, hlen]
    rw [hshown]
    exact ⟨rfl, rfl⟩
  · have hne : buffers ≠ [] := by
      rintro rfl
      rw [List.flatten_nil, List.length_nil] at hfill
      omega
    obtain ⟨e, he⟩ := pread_slices_short hne (not_le.mp hfill)
    rw [he]
    refine iff_of_false follows_error_ok.mp ?_
    rintro (hle | hle)
    · exact h hle
    · exact hfill hle

theorem pread_step_iff (buffers : List (List UInt8)) (offset : Nat) :
    StepFlat f (.pread buffers offset) ↔ RamOp.Fits f.flat (.pread buffers offset) := by
  simp only [StepFlat, step, pread, FlatBytes.step, RamOp.Fits]
  by_cases h : f.file_size ≤ offset
  · have hnone : readAt f.flat.bytes offset buffers.flatten.length = [] :=
      readAt_of_length_le h _
    refine iff_of_true ?_ (Or.inl h)
    simp only [FlatBytes.pread, hnone, h, if_true]
    split <;> exact ⟨_, rfl, rfl⟩
  rw [if_neg (by omega), if_neg h]
  by_cases hne : buffers = []
  · subst hne
    exact iff_of_true ⟨_, rfl, rfl⟩ (Or.inr (Or.inl rfl))
  by_cases hfill : f.offset + buffers.flatten.length ≤ f.file_size
  · obtain ⟨filled, hrun, hfilled⟩ := pread_slices_filled hfill
    rw [hrun]
    simp only [ok_bind, pure, Except.pure]
    rw [follows_ok_ok]
    constructor
    · rintro ⟨-, heq⟩
      have hoff : f.offset + buffers.flatten.length = f.offset :=
        congrArg FlatBytes.offset heq
      have hnil : buffers.flatten = [] := List.length_eq_zero_iff.mp (by omega)
      exact Or.inr (Or.inr ⟨Nat.le_of_add_right_le hfill, hnil⟩)
    · rintro (hle | hnil | ⟨-, hnil⟩)
      · exact absurd hle h
      · exact absurd hnil hne
      · rw [hfilled, hnil]
        exact ⟨rfl, rfl⟩
  · obtain ⟨e, he⟩ := pread_slices_short hne (not_le.mp hfill)
    rw [he]
    refine iff_of_false follows_error_ok.mp ?_
    rintro (hle | hnil | ⟨hle, hnil⟩)
    · exact h hle
    · exact hne hnil
    · rw [hnil] at hfill
      exact hfill hle

theorem read_to_kspace_step_iff :
    StepFlat f .read_to_kspace ↔ RamOp.Fits f.flat .read_to_kspace := by
  simp only [StepFlat, step, read_to_kspace, FlatBytes.step, RamOp.Fits]
  by_cases h : f.offset ≤ f.file_size
  · have hend : f.offset + (f.file_size - f.offset) = f.content.length := by
      rw [file_size] at h ⊢
      omega
    have hread : readAt f.content f.offset (f.file_size - f.offset) =
        readAt f.content f.offset f.file_size := by
      rw [readAt, readAt, List.take_eq_take_iff, List.length_drop, file_size]
      omega
    have hlen : f.offset + (readAt f.content f.offset f.file_size).length = f.file_size := by
      rw [length_readAt, file_size]
      rw [file_size] at h
      omega
    rw [if_pos h, sub_slice_eq, hend, if_pos (le_refl _), hread]
    refine iff_of_true ?_ h
    simp only [ok_bind, pure, Except.pure, FlatBytes.read]
    rw [follows_ok_ok]
    have hoff : f.flat.offset + (readAt f.flat.bytes f.flat.offset f.flat.size).length =
        f.file_size := hlen
    rw [hoff]
    exact ⟨rfl, rfl⟩
  · rw [if_neg h]
    exact iff_of_false follows_error_ok.mp h

theorem kernel_read_step_iff (offset len : Nat) :
    StepFlat f (.kernel_read_with_offset offset len) ↔
      RamOp.Fits f.flat (.kernel_read_with_offset offset len) := by
  simp only [StepFlat, step, kernel_read_with_offset, FlatBytes.step, RamOp.Fits]
  by_cases h : offset + len ≤ f.file_size
  · rw [if_pos h, sub_slice_eq, if_pos (show offset + len ≤ f.content.length from h)]
    exact iff_of_true ⟨_, rfl, rfl⟩ h
  · rw [if_neg h]
    exact iff_of_false follows_error_ok.mp h

theorem truncate_step_iff (size : Nat) :
    StepFlat f (.truncate size) ↔ RamOp.Fits f.flat (.truncate size) := by
  simp only [StepFlat, step, truncate, FlatBytes.step, RamOp.Fits]
  by_cases h : size ≤ f.file_size
  · rw [if_pos h]
    have hcut : f.flat.bytes.takeD size 0 = f.content.take size := List.takeD_eq_take 0 h
    rw [hcut]
    exact iff_of_true ⟨_, rfl, rfl⟩ h
  · rw [if_neg h]
    exact iff_of_false follows_error_ok.mp h

theorem step_iff (op : RamOp) : StepFlat f op ↔ op.Fits f.flat := by
  cases op with
  | read buffer => exact iff_of_true (read_flat buffer) trivial
  | write buffer => exact write_step_iff buffer
  | seek new_off => exact iff_of_true ⟨_, rfl, rfl⟩ trivial
  | truncate size => exact truncate_step_iff size
  | kernel_read_with_offset offset len => exact kernel_read_step_iff offset len
  | read_to_kspace => exact read_to_kspace_step_iff
  | read_to_ubuf buffers => exact read_to_ubuf_step_iff buffers
  | pread buffers offset => exact pread_step_iff buffers offset
  | write_from_kspace buffer => exact write_step_iff buffer
  | pwrite buffers offset => exact pwrite_step_iff buffers offset
  | write_from_ubuf buffers => exact write_from_ubuf_step_iff buffers

/-- A run on a file is one on a flat array as long as each of its operations fits. -/
theorem run_actsFlat_iff (f : RamFile) (ops : List RamOp) :
    f.ActsFlat ops ↔ Guarded (silent RamFile.step) (fun f op => op.Fits f.flat) f ops :=
  Follows.observe_iff (fun _ op => step_iff op) FlatBytes.step_ok

/-- A `pread` moves the file. -/
theorem not_actsFlat_pread :
    ¬ (RamFile.mk ⟨['a'], [1, 2], 0⟩ 0).ActsFlat [.pread [[0]] 1] := by
  intro h
  obtain ⟨t, heq, -⟩ := h _ (List.prefix_refl _)
  have hshown := congrArg (Except.map Prod.snd) heq
  simp only [Except.map] at hshown
  revert hshown
  decide

end RamFile

end MyGOS.Fs
