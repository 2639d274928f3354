import MyGOS.Fat32.Dir
import Mathlib.Data.List.AList

/-!
# Pages of a file

A page of the cache holds eight blocks of its file, each of which is read from
the disk when it is first touched. A page frame is always available here.
-/

namespace MyGOS.Fs

open Fat32

/-- `usize` arithmetic. -/
def usize (n : Nat) : Nat := n % 2 ^ 64

inductive DataState where
  | Dirty
  | Load
  | Unload
deriving DecidableEq, Repr

structure FilePage where
  bytes : Nat → UInt8
  file_offset : Nat
  data_states : Nat → DataState

namespace FilePage

def new (offset : Nat) : FilePage := ⟨fun _ => 0, offset, fun _ => .Unload⟩

section Blocks

variable (fs : FileSystem) (inode : VirtFile)

def load_block (page : FilePage) (idx : Nat) : Except FsPanic FilePage :=
  if page.data_states idx = .Unload then do
    let page_offset := idx * BLOCK_SIZE
    -- a buffer of zeros
    let src ← fs.read_at inode (page_offset + page.file_offset) BLOCK_SIZE
    return { page with
      bytes := fun i =>
        if page_offset ≤ i ∧ i < page_offset + BLOCK_SIZE then src.getD (i - page_offset) 0
        else page.bytes i
      data_states := Function.update page.data_states idx .Load }
  else .ok page

def mark_block (page : FilePage) (idx : Nat) : Except FsPanic FilePage := do
  let page ← load_block fs inode page idx
  return { page with data_states := Function.update page.data_states idx .Dirty }

/-- The blocks of a page that a range of its bytes touches. -/
def buffers (start_off end_off : Nat) : List Nat :=
  List.range' (start_off / BLOCK_SIZE)
    ((end_off - 1 + BLOCK_SIZE) / BLOCK_SIZE - start_off / BLOCK_SIZE)

def load_buffer_if_needed (page : FilePage) (start_off end_off : Nat) : Except FsPanic FilePage :=
  (buffers start_off end_off).foldlM (load_block fs inode) page

def mark_buffer_dirty_if_needed (page : FilePage) (start_off end_off : Nat) :
    Except FsPanic FilePage :=
  (buffers start_off end_off).foldlM (mark_block fs inode) page

/-- What is read into a buffer of `len` bytes. -/
def read (page : FilePage) (offset len : Nat) : Except FsPanic (List UInt8 × FilePage) :=
  if PAGE_SIZE ≤ offset then .error .pageError
  else
    let stop := min (offset + len) PAGE_SIZE
    -- `copy_from_slice`
    if stop - offset ≠ len then .error .outOfBounds
    else do
      let page ← page.load_buffer_if_needed fs inode offset stop
      return ((List.range' offset len).map page.bytes, page)

def write (page : FilePage) (offset : Nat) (buf : List UInt8) : Except FsPanic FilePage :=
  if PAGE_SIZE ≤ offset then .error .pageError
  else
    let stop := min (offset + buf.length) PAGE_SIZE
    if stop - offset ≠ buf.length then .error .outOfBounds
    else do
      let page ← page.mark_buffer_dirty_if_needed fs inode offset stop
      return { page with bytes := fun i =>
        if offset ≤ i ∧ i < stop then buf.getD (i - offset) 0 else page.bytes i }

end Blocks

end FilePage

abbrev PageCache := AList fun _ : Nat => FilePage

namespace PageCache

/-- `get_page`; a new page is in the map from its first use on. -/
def get_page (c : PageCache) (offset : Nat) : FilePage :=
  (c.lookup (offset / PAGE_SIZE)).getD (.new (offset / PAGE_SIZE * PAGE_SIZE))

def set_page (c : PageCache) (offset : Nat) (page : FilePage) : PageCache :=
  c.insert (offset / PAGE_SIZE) page

section Loops

variable (fs : FileSystem) (inode : VirtFile)

/-- The loop over the pages that a slice of `len` bytes touches. Each round takes a byte at
least. The result holds the bytes and the new offset. -/
def read_slice : (fuel len : Nat) → PageCache → (offset : Nat) →
    Except FsPanic (List UInt8 × Nat × PageCache)
  | 0, _, c, offset => .ok ([], offset, c)
  | fuel + 1, len, c, offset =>
    if len = 0 then .ok ([], offset, c)
    else do
      let page_offset := offset % PAGE_SIZE
      let read_size := min len (PAGE_SIZE - page_offset)
      let (bytes, page) ← (c.get_page offset).read fs inode page_offset read_size
      let (rest, offset, c) ← read_slice fuel (len - read_size) (c.set_page offset page)
        (usize (offset + read_size))
      return (bytes ++ rest, offset, c)

def write_slice : (fuel : Nat) → (slice : List UInt8) → PageCache → (offset : Nat) →
    Except FsPanic (Nat × PageCache)
  | 0, _, c, offset => .ok (offset, c)
  | fuel + 1, slice, c, offset =>
    if slice = [] then .ok (offset, c)
    else do
      let page_offset := offset % PAGE_SIZE
      let write_size := min slice.length (PAGE_SIZE - page_offset)
      let page ← (c.get_page offset).write fs inode page_offset (slice.take write_size)
      write_slice fuel (slice.drop write_size) (c.set_page offset page)
        (usize (offset + write_size))

/-- The loop over the slices of a user buffer. -/
def read_slices : (slices : List Nat) → PageCache → (offset : Nat) →
    Except FsPanic (List UInt8 × Nat × PageCache)
  | [], c, offset => .ok ([], offset, c)
  | len :: slices, c, offset => do
    let (bytes, offset, c) ← read_slice fs inode len len c offset
    let (rest, offset, c) ← read_slices slices c offset
    return (bytes ++ rest, offset, c)

def write_slices : (slices : List (List UInt8)) → PageCache → (offset : Nat) →
    Except FsPanic (Nat × PageCache)
  | [], c, offset => .ok (offset, c)
  | slice :: slices, c, offset => do
    let (offset, c) ← write_slice fs inode slice.length slice c offset
    write_slices slices c offset

end Loops

end PageCache

end MyGOS.Fs
