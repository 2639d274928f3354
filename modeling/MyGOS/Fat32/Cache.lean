import MyGOS.Basic
import MyGOS.Lib.LruMap
import MyGOS.Lib.StepSystem
import Mathlib.Logic.Function.Basic

/-!
# The block cache

`BlockCacheManager` keeps up to `BLOCK_CACHE_LIMIT` blocks of one device in an
LRU map of reference-counted `BlockCache` objects; an object writes itself back
when its last reference is dropped. Seen through handles that are released
before the manager is called again, cache and device are a plain array of
blocks.
-/

namespace MyGOS.Fat32

open StepSystem

def BLOCK_SIZE : Nat := 512
def BLOCK_CACHE_LIMIT : Nat := 64

/-- The bytes of a block; only the first `BLOCK_SIZE` are ever accessed. -/
abbrev Block := Nat → UInt8

/-- `read_block` is application, `write_block` is `Function.update`. -/
abbrev BlockDevice := Nat → Block

namespace Block

/-- The `size` bytes from `offset` on. -/
def slice (b : Block) (offset size : Nat) : Fin size → UInt8 := fun i => b (offset + i)

/-- The block with the `size` bytes from `offset` on replaced. -/
def splice (b : Block) (offset : Nat) {size : Nat} (v : Fin size → UInt8) : Block := fun i =>
  if h : offset ≤ i ∧ i < offset + size then v ⟨i - offset, by omega⟩ else b i

end Block

structure BlockCache where
  cache : Block
  block_id : Nat
  modified : Bool

namespace BlockCache

def new (block_id : Nat) (block_device : BlockDevice) : BlockCache where
  cache := block_device block_id
  block_id := block_id
  modified := false

/-- The assertion of `get_ref` and `get_mut`, and the index of `addr_of_offset`. -/
def InRange (offset type_size : Nat) : Prop :=
  offset + type_size ≤ BLOCK_SIZE ∧ offset < BLOCK_SIZE

instance (offset type_size : Nat) : Decidable (InRange offset type_size) :=
  inferInstanceAs (Decidable (_ ∧ _))

/-- `read` of a value of `type_size` bytes. -/
def read (b : BlockCache) (offset type_size : Nat) : Except Panic (Fin type_size → UInt8) :=
  if InRange offset type_size then .ok (b.cache.slice offset type_size)
  else .error .outOfBounds

def modify (b : BlockCache) (offset : Nat) {type_size : Nat}
    (f : (Fin type_size → UInt8) → Fin type_size → UInt8) : Except Panic BlockCache :=
  if InRange offset type_size then
    .ok { b with
      cache := b.cache.splice offset (f (b.cache.slice offset type_size))
      modified := true }
  else .error .outOfBounds

def sync (b : BlockCache) (block_device : BlockDevice) : BlockCache × BlockDevice :=
  if b.modified then
    ({ b with modified := false }, Function.update block_device b.block_id b.cache)
  else (b, block_device)

end BlockCache

/-- The manager with its device and its clients. An `Arc` is the address of an object in
`heap`, where the addresses from `next` on are unused; `handles` are the clients' `Arc`s. -/
structure CacheState where
  lru : LruMap Nat Nat
  heap : Nat → BlockCache
  next : Nat
  handles : List Nat
  device : BlockDevice

/-- What clients do. A handle is named by its position, latest first. -/
inductive CacheOp where
  | get_block_cache (block_id : Nat)
  | read (handle offset type_size : Nat)
  | modify (handle offset type_size : Nat) (f : (Fin type_size → UInt8) → Fin type_size → UInt8)
  | release (handle : Nat)
  | sync_all

namespace CacheState

def new (device : BlockDevice) : CacheState where
  lru := ∅
  heap := fun id => .new id device
  next := 0
  handles := []
  device := device

def strong_count (s : CacheState) (arc : Nat) : Nat :=
  (s.lru.entries.map Sigma.snd).count arc + s.handles.count arc

def sync (s : CacheState) (arc : Nat) : CacheState :=
  let synced := (s.heap arc).sync s.device
  { s with heap := Function.update s.heap arc synced.1, device := synced.2 }

/-- What is left to do once a reference to `arc` is gone: `drop` of the last one syncs. -/
def drop (s : CacheState) (arc : Nat) : CacheState :=
  if s.strong_count arc = 0 then s.sync arc else s

/-- `Arc::new(BlockCache::new(..))`, at the address `next`. -/
def create (s : CacheState) (block_id : Nat) : CacheState :=
  { s with
    heap := Function.update s.heap s.next (.new block_id s.device)
    next := s.next + 1 }

def get_block_cache (s : CacheState) (block_id : Nat) : Except Panic (Nat × CacheState) :=
  match s.lru.get block_id with
  | (some arc, lru) => .ok (arc, { s with lru := lru })
  | (none, _) =>
    let block_cache := s.next
    let s := s.create block_id
    if s.lru.len = BLOCK_CACHE_LIMIT then
      match s.lru.peek_lru with
      | none => .error .outOfBounds
      | some peek_cache =>
        if s.strong_count peek_cache.2 = 1 then
          let s := { s with lru := s.lru.pop_lru }.drop peek_cache.2
          .ok (block_cache, { s with lru := s.lru.put block_id block_cache })
        else .ok (block_cache, s)
    else .ok (block_cache, { s with lru := s.lru.put block_id block_cache })

def sync_all (s : CacheState) : CacheState :=
  s.lru.entries.foldl (fun s e => s.sync e.2) s

def handle (s : CacheState) (i : Nat) : Except Panic Nat :=
  match s.handles[i]? with
  | some arc => .ok arc
  | none => .error .outOfBounds

/-- A step shows the bytes that `read` passes to its closure. -/
def step (s : CacheState) : CacheOp → Except Panic (CacheState × List UInt8)
  | .get_block_cache block_id => do
    let (arc, s) ← s.get_block_cache block_id
    return ({ s with handles := arc :: s.handles }, [])
  | .read i offset type_size => do
    let arc ← s.handle i
    let v ← (s.heap arc).read offset type_size
    return (s, List.ofFn v)
  | .modify i offset _ f => do
    let arc ← s.handle i
    let block_cache ← (s.heap arc).modify offset f
    return ({ s with heap := Function.update s.heap arc block_cache }, [])
  | .release i => do
    let arc ← s.handle i
    return ({ s with handles := s.handles.eraseIdx i }.drop arc, [])
  | .sync_all => return (s.sync_all, [])

/-- No handle is held when the manager is called. -/
def Released (s : CacheState) : CacheOp → Prop
  | .get_block_cache _ | .sync_all => s.handles = []
  | _ => True

instance (s : CacheState) (op : CacheOp) : Decidable (s.Released op) :=
  match op with
  | .get_block_cache _ | .sync_all => inferInstanceAs (Decidable (s.handles = []))
  | .read .. | .modify .. | .release .. => inferInstanceAs (Decidable True)

/-- A miss on a full cache finds the least recently used entry without a handle to it. -/
def Unpinned (s : CacheState) : CacheOp → Prop
  | .get_block_cache block_id => s.lru.lookup block_id = none → s.lru.len = BLOCK_CACHE_LIMIT →
    ∀ e ∈ s.lru.peek_lru, s.strong_count e.2 = 1
  | _ => True

instance (s : CacheState) (op : CacheOp) : Decidable (s.Unpinned op) :=
  match op with
  | .get_block_cache _ => inferInstanceAs (Decidable (_ → _ → _))
  | .read .. | .modify .. | .release .. | .sync_all => inferInstanceAs (Decidable True)

end CacheState

/-- The abstract machine: an array of blocks, and the block each handle names. -/
structure BlockArray where
  blocks : BlockDevice
  handles : List Nat

namespace BlockArray

def handle (a : BlockArray) (i : Nat) : Except Panic Nat :=
  match a.handles[i]? with
  | some block_id => .ok block_id
  | none => .error .outOfBounds

def step (a : BlockArray) : CacheOp → Except Panic (BlockArray × List UInt8)
  | .get_block_cache block_id => .ok ({ a with handles := block_id :: a.handles }, [])
  | .read i offset type_size => do
    let block_id ← a.handle i
    if BlockCache.InRange offset type_size then
      return (a, List.ofFn ((a.blocks block_id).slice offset type_size))
    else .error .outOfBounds
  | .modify i offset type_size f => do
    let block_id ← a.handle i
    let b := a.blocks block_id
    if BlockCache.InRange offset type_size then
      return ({ a with blocks :=
        Function.update a.blocks block_id (b.splice offset (f (b.slice offset type_size))) }, [])
    else .error .outOfBounds
  | .release i => do
    let _ ← a.handle i
    return ({ a with handles := a.handles.eraseIdx i }, [])
  | .sync_all => .ok (a, [])

end BlockArray

end MyGOS.Fat32
