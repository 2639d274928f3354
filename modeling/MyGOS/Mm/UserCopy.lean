import MyGOS.Mm.Syscalls

/-!
# Kernel access to user buffers

The kernel reaches user memory through the direct mapping of physical memory:
`translated_bytes_buffer` turns a user range into slices of frames, and what
the kernel does to the slices meets no page fault.
-/

namespace MyGOS.Mm

/-- `&mut ppn.as_bytes_array()[offset..offset + len]`. -/
structure Slice where
  ppn : Nat
  offset : Nat
  len : Nat
deriving DecidableEq

/-- The frame behind an address; a page that is not mapped is mapped first where it can be. -/
def buffer_frame (ms : MemorySet) (ph : Phys) (start : Nat) :
    Except Panic (Nat × MemorySet × Phys) :=
  match ms.translate (floor start) with
  | some pte => .ok (pte.ppn, ms, ph)
  | none => do
    let (r, ms, ph) ← ms.check_lazy ph start
    if r ≠ 0 then .error (.checkLazy start)
    else
      match ms.translate (floor start) with
      | some pte => .ok (pte.ppn, ms, ph)
      | none => .error (.notTranslated (floor start))

/-- The loop over the pages of `[start, end_)`. The pages it visits ascend, so `fuel` only runs
out where an end in the last page makes the loop start over at 0 without end. -/
def buffer_loop (end_ : Nat) : (fuel start : Nat) → MemorySet → Phys →
    Except Panic (List Slice × MemorySet × Phys)
  | 0, _, _, _ => .error .outOfMemory
  | fuel + 1, start, ms, ph =>
    if start < end_ then do
      let (ppn, ms, ph) ← buffer_frame ms ph start
      let next := min ((floor start + 1) * PAGE_SIZE % 2 ^ 64) end_
      let stop := if page_offset next = 0 then PAGE_SIZE else page_offset next
      if stop < page_offset start then .error .outOfBounds
      else
        let (slices, ms, ph) ← buffer_loop end_ fuel next ms ph
        return (⟨ppn, page_offset start, stop - page_offset start⟩ :: slices, ms, ph)
    else .ok ([], ms, ph)

def translated_bytes_buffer (ms : MemorySet) (ph : Phys) (ptr len : Nat) :
    Except Panic (List Slice × MemorySet × Phys) :=
  let start := virt_addr ptr
  let end_ := virt_addr ((start + len) % 2 ^ 64)
  buffer_loop end_ (floor end_ + 3) start ms ph

/-- `translated_ref` and `translated_mut` for a type of `size` bytes: the frame and the place
in it. -/
def translated_ref (ms : MemorySet) (ptr size : Nat) : Except Panic (Nat × Nat) :=
  if PAGE_SIZE - ptr % PAGE_SIZE < size then .error (.crossPage ptr)
  else
    match ms.page_table.translate_va (virt_addr ptr) with
    | none => .error (.notTranslated (floor (virt_addr ptr)))
    | some pa => .ok pa

/-- The byte at an address, where a page is mapped. -/
def MemorySet.view (ms : MemorySet) (ph : Phys) (va : Nat) : Option UInt8 :=
  (ms.translate (floor va)).map fun pte => ph.bytes pte.ppn (page_offset va)

/-- Writes `data` to the slices in order, as far as it goes. -/
def write_slices (ph : Phys) : List Slice → List UInt8 → Phys
  | [], _ => ph
  | s :: slices, data =>
    write_slices (ph.write s.ppn s.offset (data.take s.len)) slices (data.drop s.len)

def read_slices (ph : Phys) (slices : List Slice) : List UInt8 :=
  slices.flatMap fun s => (List.range s.len).map fun i => ph.bytes s.ppn (s.offset + i)

/-- A write of the kernel to a user buffer of `len` bytes, which `data` need not fill. -/
def write_user (ms : MemorySet) (ph : Phys) (ptr len : Nat) (data : List UInt8) :
    Except Panic (MemorySet × Phys) := do
  let (slices, ms, ph) ← translated_bytes_buffer ms ph ptr len
  return (ms, write_slices ph slices data)

def copyout (ms : MemorySet) (ph : Phys) (dst : Nat) (src : List UInt8) :
    Except Panic (MemorySet × Phys) := do
  let (slices, ms, ph) ← translated_bytes_buffer ms ph dst src.length
  -- the first slice is taken unasked, and the source is indexed up to the end of the last one
  if slices.isEmpty ∨ src.length < (slices.map Slice.len).sum then .error .outOfBounds
  else return (ms, write_slices ph slices src)

end MyGOS.Mm
