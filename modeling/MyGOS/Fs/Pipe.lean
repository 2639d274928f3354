import MyGOS.Lib.RingQueue
import MyGOS.Lib.StepSystem
import MyGOS.Mm.UserBuffer

/-!
# Pipes

A ring of bytes under one lock. A call of the read or of the write end holds
the lock for one round of its loop and lets it go before it suspends, so the
rounds of all calls on a pipe follow each other in some order.
-/

namespace MyGOS.Fs

open Mm Outcome RingQueue StepSystem

inductive RingBufferStatus where
  | Full
  | Empty
  | Normal
deriving DecidableEq, Repr

def RING_BUFFER_SIZE : Nat := 4096

instance : NeZero RING_BUFFER_SIZE := ⟨by decide⟩

structure PipeRingBuffer where
  arr : Fin RING_BUFFER_SIZE → UInt8
  head : Fin RING_BUFFER_SIZE
  tail : Fin RING_BUFFER_SIZE
  status : RingBufferStatus

namespace PipeRingBuffer

def new : PipeRingBuffer := ⟨fun _ => 0, 0, 0, .Empty⟩

/-- The sum wraps at `RING_BUFFER_SIZE`, as that of `Fin` does. -/
def write_byte (r : PipeRingBuffer) (byte : UInt8) : PipeRingBuffer :=
  let tail := r.tail + 1
  { arr := Function.update r.arr r.tail byte
    head := r.head
    tail := tail
    status := if tail = r.head then .Full else .Normal }

def read_byte (r : PipeRingBuffer) : UInt8 × PipeRingBuffer :=
  let head := r.head + 1
  (r.arr r.head, { r with head := head, status := if head = r.tail then .Empty else .Normal })

def available_read (r : PipeRingBuffer) : Nat :=
  if r.status = .Empty then 0
  else if r.tail > r.head then r.tail - r.head
  else r.tail + RING_BUFFER_SIZE - r.head

def available_write (r : PipeRingBuffer) : Nat :=
  if r.status = .Full then 0 else RING_BUFFER_SIZE - r.available_read

/-- The bytes to be read, the next one first. -/
def content (r : PipeRingBuffer) : List UInt8 := cells r.arr r.head r.available_read

end PipeRingBuffer

/-- A call on one end, with what its loop keeps from round to round. -/
inductive Call where
  | read_to_ubuf (buf_iter : UserBufferIterator) (read_size : Nat)
  | write_from_ubuf (buf_iter : UserBufferIterator) (write_size : Nat)
  | read_to_kspace (buf : List UInt8)
  | write_from_kspace (data : List UInt8) (write_size : Nat)
deriving DecidableEq, Repr

namespace Call

def writes : Call → Bool
  | .read_to_ubuf .. | .read_to_kspace _ => false
  | .write_from_ubuf .. | .write_from_kspace .. => true

/-- What has gone through the call so far. -/
def transferred : Call → List UInt8
  | .read_to_ubuf it n | .write_from_ubuf it n => it.bytes.take n
  | .read_to_kspace buf => buf
  | .write_from_kspace data n => data.take n

/-- The iterator of a call stands where its count says. -/
def Counted : Call → Prop
  | .read_to_ubuf it n => n = 0 ∧ it.At 0
  | .write_from_ubuf it n => it.At n
  | .read_to_kspace buf => buf = []
  | .write_from_kspace data n => n ≤ data.length

end Call

/-- Where a round leaves its call: at the top of the loop again, or returned. -/
inductive Progress where
  | again (call : Call)
  | returned (call : Call)
deriving DecidableEq, Repr

def Progress.call : Progress → Call
  | again call | returned call => call

namespace PipeRingBuffer

/-- The inner loop of `read_to_ubuf`. -/
def read_loop : Nat → PipeRingBuffer → UserBufferIterator → Nat →
    Except Panic (PipeRingBuffer × UserBufferIterator × Nat)
  | 0, r, it, read_size => .ok (r, it, read_size)
  | k + 1, r, it, read_size => do
    match ← it.next with
    | (none, it) => return (r, it, read_size)
    | (some place, it) => read_loop k r.read_byte.2 (it.store place r.read_byte.1) (read_size + 1)

/-- The inner loop of `write_from_ubuf`; the flag says that the buffer was at its end. -/
def write_loop : Nat → PipeRingBuffer → UserBufferIterator → Nat →
    Except Panic (PipeRingBuffer × UserBufferIterator × Nat × Bool)
  | 0, r, it, write_size => .ok (r, it, write_size, false)
  | k + 1, r, it, write_size => do
    match ← it.next with
    | (none, it) => return (r, it, write_size, true)
    | (some place, it) => write_loop k (r.write_byte (it.load place)) it (write_size + 1)

def read_kspace_loop : Nat → PipeRingBuffer → List UInt8 → PipeRingBuffer × List UInt8
  | 0, r, buf => (r, buf)
  | k + 1, r, buf => read_kspace_loop k r.read_byte.2 (buf ++ [r.read_byte.1])

def write_kspace_loop : Nat → PipeRingBuffer → List UInt8 → Nat → PipeRingBuffer × Nat × Bool
  | 0, r, _, write_size => (r, write_size, false)
  | k + 1, r, data, write_size =>
    match data[write_size]? with
    | none => (r, write_size, true)
    | some byte => write_kspace_loop k (r.write_byte byte) data (write_size + 1)

/-- One round of the loop of a call, under the lock. `closed` says that the
write end has no owner left. -/
def round (r : PipeRingBuffer) (closed : Bool) : Call → Except Panic (PipeRingBuffer × Progress)
  | .read_to_ubuf it read_size =>
    let loop_read := r.available_read
    if loop_read = 0 then
      .ok (r, if closed then .returned (.read_to_ubuf it read_size)
        else .again (.read_to_ubuf it read_size))
    else do
      let (r, it, read_size) ← r.read_loop loop_read it read_size
      return (r, .returned (.read_to_ubuf it read_size))
  | .write_from_ubuf it write_size =>
    let loop_write := r.available_write
    if loop_write = 0 then .ok (r, .again (.write_from_ubuf it write_size))
    else do
      let (r, it, write_size, done) ← r.write_loop loop_write it write_size
      return (r, if done then .returned (.write_from_ubuf it write_size)
        else .again (.write_from_ubuf it write_size))
  | .read_to_kspace buf =>
    let loop_read := r.available_read
    if loop_read = 0 then
      .ok (r, if closed then .returned (.read_to_kspace buf) else .again (.read_to_kspace buf))
    else
      let (r, buf) := r.read_kspace_loop loop_read buf
      .ok (r, .returned (.read_to_kspace buf))
  | .write_from_kspace data write_size =>
    let loop_write := r.available_write
    if loop_write = 0 then .ok (r, .again (.write_from_kspace data write_size))
    else
      let (r, write_size, done) := r.write_kspace_loop loop_write data write_size
      .ok (r, if done then .returned (.write_from_kspace data write_size)
        else .again (.write_from_kspace data write_size))

end PipeRingBuffer

/-- A pipe, with the two flags of each end, the owners of the write end (the
strong count of its `Arc`) and the calls on it by number. -/
structure PipeState where
  ring : PipeRingBuffer
  readable : Bool
  writable : Bool
  write_ends : Nat
  calls : Nat → Option Progress

def make_pipe : PipeState := ⟨.new, true, true, 1, fun _ => none⟩

inductive PipeOp where
  | read_to_ubuf (id : Nat) (buffers : List (List UInt8))
  | write_from_ubuf (id : Nat) (buffers : List (List UInt8))
  | read_to_kspace (id : Nat)
  | write_from_kspace (id : Nat) (data : List UInt8)
  /-- One round of the loop of call `id`. -/
  | lock (id : Nat)
  | clone_write_end
  | drop_write_end
  | set_cloexec_read_end
  | set_cloexec_write_end
deriving Repr

namespace PipeRingBuffer

/-- The ring holds the bytes `l`, the next one to be read first. -/
structure Holds (r : PipeRingBuffer) (l : List UInt8) : Prop where
  queued : Queued r.arr r.head r.tail l
  status : r.status =
    if l.length = 0 then .Empty else if l.length = RING_BUFFER_SIZE then .Full else .Normal

variable {r : PipeRingBuffer} {l : List UInt8} {b : UInt8} {it : UserBufferIterator} {k n : Nat}

theorem Holds.new : Holds new [] := ⟨.nil _ _, rfl⟩

theorem Holds.available_read (h : Holds r l) : r.available_read = l.length := by
  unfold PipeRingBuffer.available_read
  rw [h.status]
  by_cases hzero : l.length = 0
  · rw [if_pos hzero, if_pos rfl, hzero]
  · have hlen := h.queued.length_eq (Nat.pos_of_ne_zero hzero)
    have hstatus : (if l.length = 0 then RingBufferStatus.Empty
        else if l.length = RING_BUFFER_SIZE then .Full else .Normal) ≠ .Empty := by
      rw [if_neg hzero]
      split <;> decide
    rw [if_neg hstatus]
    exact hlen.symm

theorem Holds.available_write (h : Holds r l) :
    r.available_write = RING_BUFFER_SIZE - l.length := by
  unfold PipeRingBuffer.available_write
  rw [h.available_read, h.status]
  by_cases hfull : l.length = RING_BUFFER_SIZE
  · rw [hfull, Nat.sub_self, ite_self]
  · rw [if_neg hfull]
    split_ifs <;> first | rfl | contradiction

theorem Holds.content (h : Holds r l) : r.content = l := by
  rw [PipeRingBuffer.content, h.available_read, h.queued.cells_eq]

theorem Holds.write_byte (h : Holds r l) (hlt : l.length < RING_BUFFER_SIZE) (b : UInt8) :
    Holds (r.write_byte b) (l ++ [b]) := by
  have hpush := h.queued.push hlt b
  refine ⟨hpush, ?_⟩
  have hmeet := hpush.tail_eq_head_iff
  rw [List.length_append, List.length_singleton] at hmeet ⊢
  rw [if_neg (Nat.succ_ne_zero _)]
  simp only [PipeRingBuffer.write_byte, hmeet, Nat.succ_ne_zero, false_or]

theorem Holds.read_byte (h : Holds r (b :: l)) :
    r.read_byte.1 = b ∧ Holds r.read_byte.2 l := by
  have hpop := h.queued.pop
  refine ⟨h.queued.head_eq, hpop, ?_⟩
  have hlt : l.length < RING_BUFFER_SIZE := h.queued.length_le
  have hmeet := hpop.tail_eq_head_iff
  rw [or_iff_left hlt.ne, eq_comm] at hmeet
  simp only [PipeRingBuffer.read_byte, hmeet]
  rw [if_neg hlt.ne]

theorem read_loop_meets (h : Holds r l) (hk : k ≤ l.length) (hit : it.At n) :
    Meets (read_loop k r it n) (· = .outOfBounds) fun x => ∃ m, Holds x.1 (l.drop m) ∧
      x.2.2 = n + m ∧ x.2.1.bytes.take (n + m) = it.bytes.take n ++ l.take m ∧
      (m < k → it.bytes.length = n + m) := by
  induction k generalizing r l it n with
  | zero => exact ⟨0, h, rfl, by simp, fun h => absurd h (Nat.lt_irrefl 0)⟩
  | succ k ih =>
    obtain ⟨b, l, rfl⟩ := List.exists_cons_of_length_pos (Nat.zero_lt_of_lt hk)
    obtain ⟨hb, hrest⟩ := h.read_byte
    apply hit.next_meets.bind
    rintro ⟨place | place, it'⟩ hnext
    · obtain ⟨rfl, hlen⟩ := hnext
      exact ⟨0, h, rfl, by simp, fun _ => hlen⟩
    · have hlt : n < it.bytes.length := (List.getElem?_eq_some_iff.mp hnext.load).1
      apply (ih hrest (Nat.le_of_succ_le_succ hk) (hnext.at_store _)).mono
      rintro ⟨r', it'', size⟩ ⟨m, hholds, hsize, hbytes, hend⟩
      rw [hnext.store, hb] at hbytes
      refine ⟨m + 1, hholds, by omega, ?_, fun hm => ?_⟩
      · rw [show n + (m + 1) = n + 1 + m by omega, hbytes, List.take_succ_cons,
          List.take_succ_eq_append_getElem (by rwa [List.length_set]), List.getElem_set_self,
          List.take_set_of_le (Nat.le_refl n), List.append_assoc, List.singleton_append]
      · have hlen := hend (Nat.lt_of_succ_lt_succ hm)
        rw [hnext.store, List.length_set] at hlen
        omega

theorem write_loop_meets (h : Holds r l) (hk : l.length + k ≤ RING_BUFFER_SIZE) (hit : it.At n) :
    Meets (write_loop k r it n) (· = .outOfBounds) fun x => ∃ m,
      Holds x.1 (l ++ (it.bytes.drop n).take m) ∧ x.2.1.buffers = it.buffers ∧
      x.2.1.At (n + m) ∧ x.2.2.1 = n + m ∧ n + m ≤ it.bytes.length := by
  induction k generalizing r l it n with
  | zero =>
    refine ⟨0, ?_, rfl, hit, rfl, hit.le_length⟩
    rwa [List.take_zero, List.append_nil]
  | succ k ih =>
    apply hit.next_meets.bind
    rintro ⟨place | place, it'⟩ hnext
    · obtain ⟨rfl, hlen⟩ := hnext
      refine ⟨0, ?_, rfl, hit, rfl, hit.le_length⟩
      rwa [List.take_zero, List.append_nil]
    · obtain ⟨hlt, hload⟩ := List.getElem?_eq_some_iff.mp hnext.load
      have hbytes : it'.bytes = it.bytes := congrArg List.flatten hnext.buffers
      have hwrite := h.write_byte (by omega) (it'.load place)
      apply (ih hwrite (by rw [List.length_append, List.length_singleton]; omega)
        hnext.at_succ).mono
      rintro ⟨r', it'', size, done⟩ ⟨m, hholds, hbuffers, hat, hsize, hle⟩
      rw [hbytes] at hholds hle
      refine ⟨m + 1, ?_, hbuffers.trans hnext.buffers, ?_, by omega, by omega⟩
      · rw [List.drop_eq_getElem_cons hlt, List.take_succ_cons, hload, ← List.singleton_append,
          ← List.append_assoc]
        exact hholds
      · rwa [Nat.add_right_comm] at hat

theorem read_kspace_loop_spec (h : Holds r l) (hk : k ≤ l.length) (buf : List UInt8) :
    Holds (read_kspace_loop k r buf).1 (l.drop k) ∧
      (read_kspace_loop k r buf).2 = buf ++ l.take k := by
  induction k generalizing r l buf with
  | zero => exact ⟨h, (List.append_nil buf).symm⟩
  | succ k ih =>
    obtain ⟨b, l, rfl⟩ := List.exists_cons_of_length_pos (Nat.zero_lt_of_lt hk)
    obtain ⟨hb, hrest⟩ := h.read_byte
    obtain ⟨hholds, hbuf⟩ := ih hrest (Nat.le_of_succ_le_succ hk) (buf ++ [r.read_byte.1])
    refine ⟨hholds, hbuf.trans ?_⟩
    rw [hb, List.append_assoc, List.take_succ_cons, List.singleton_append]

theorem write_kspace_loop_spec (h : Holds r l) (hk : l.length + k ≤ RING_BUFFER_SIZE)
    {data : List UInt8} (hn : n ≤ data.length) :
    ∃ m, Holds (write_kspace_loop k r data n).1 (l ++ (data.drop n).take m) ∧
      (write_kspace_loop k r data n).2.1 = n + m ∧ n + m ≤ data.length := by
  induction k generalizing r l n with
  | zero =>
    refine ⟨0, ?_, rfl, hn⟩
    rwa [List.take_zero, List.append_nil]
  | succ k ih =>
    rw [write_kspace_loop]
    split
    · refine ⟨0, ?_, rfl, hn⟩
      rwa [List.take_zero, List.append_nil]
    · next byte hbyte =>
      obtain ⟨hlt, hload⟩ := List.getElem?_eq_some_iff.mp hbyte
      have hwrite := h.write_byte (by omega) byte
      obtain ⟨m, hholds, hsize, hle⟩ :=
        ih hwrite (by rw [List.length_append, List.length_singleton]; omega)
          (show n + 1 ≤ data.length from hlt)
      refine ⟨m + 1, ?_, by omega, by omega⟩
      rw [List.drop_eq_getElem_cons hlt, List.take_succ_cons, hload, ← List.singleton_append,
        ← List.append_assoc]
      exact hholds

/-- What a round does to the queue: a read takes bytes from its front, a write
adds bytes at its back. -/
structure Moved (r : PipeRingBuffer) (l : List UInt8) (call : Call)
    (x : PipeRingBuffer × Progress) (bytes l' : List UInt8) : Prop where
  holds : x.1.Holds l'
  transferred : x.2.call.transferred = call.transferred ++ bytes
  queue : if call.writes then l' = l ++ bytes else l = bytes ++ l'
  writes : x.2.call.writes = call.writes
  counted : ∀ c, x.2 = .again c → c.Counted

theorem round_meets (h : Holds r l) (closed : Bool) {call : Call} (hcall : call.Counted) :
    Meets (r.round closed call) (· = .outOfBounds) fun x =>
      ∃ bytes l', Moved r l call x bytes l' := by
  cases call with
  | read_to_ubuf it n =>
    obtain ⟨rfl, hit⟩ := hcall
    rw [round, h.available_read]
    split
    · refine ⟨[], l, h, ?_, rfl, ?_, ?_⟩
      · cases closed <;> exact (List.append_nil _).symm
      · cases closed <;> rfl
      · cases closed with
        | true => exact fun c hc => nomatch hc
        | false =>
          rintro c ⟨⟩
          exact ⟨rfl, hit⟩
    · apply (read_loop_meets h (Nat.le_refl _) hit).bind
      rintro ⟨r', it', size⟩ ⟨m, hholds, hsize, hbytes, _⟩
      refine ⟨l.take m, l.drop m, hholds, ?_, (List.take_append_drop m l).symm, rfl,
        fun c hc => nomatch hc⟩
      obtain rfl : size = 0 + m := hsize
      exact hbytes
  | write_from_ubuf it n =>
    rw [round, h.available_write]
    split
    · refine ⟨[], l, h, (List.append_nil _).symm, (List.append_nil l).symm, rfl, ?_⟩
      rintro c ⟨⟩
      exact hcall
    · have hroom : l.length + (RING_BUFFER_SIZE - l.length) ≤ RING_BUFFER_SIZE :=
        Nat.le_of_eq (Nat.add_sub_cancel' h.queued.length_le)
      apply (write_loop_meets h hroom hcall).bind
      rintro ⟨r', it', size, done⟩ ⟨m, hholds, hbuffers, hat, hsize, hle⟩
      obtain rfl : size = n + m := hsize
      have hbytes : it'.bytes = it.bytes := congrArg List.flatten hbuffers
      refine ⟨_, _, hholds, ?_, rfl, ?_, ?_⟩
      · cases done <;> exact (congrArg (List.take (n + m)) hbytes).trans List.take_add
      · cases done <;> rfl
      · cases done with
        | true => exact fun c hc => nomatch hc
        | false =>
          rintro c ⟨⟩
          exact hat
  | read_to_kspace buf =>
    obtain rfl := hcall
    rw [round, h.available_read]
    split
    · refine ⟨[], l, h, ?_, rfl, ?_, ?_⟩
      · cases closed <;> rfl
      · cases closed <;> rfl
      · cases closed with
        | true => exact fun c hc => nomatch hc
        | false =>
          rintro c ⟨⟩
          rfl
    · obtain ⟨hholds, hbuf⟩ := read_kspace_loop_spec h (Nat.le_refl _) []
      exact ⟨l.take l.length, l.drop l.length, hholds, hbuf, (List.take_append_drop _ l).symm, rfl,
        fun c hc => nomatch hc⟩
  | write_from_kspace data n =>
    rw [round, h.available_write]
    split
    · refine ⟨[], l, h, (List.append_nil _).symm, (List.append_nil l).symm, rfl, ?_⟩
      rintro c ⟨⟩
      exact hcall
    · have hroom : l.length + (RING_BUFFER_SIZE - l.length) ≤ RING_BUFFER_SIZE :=
        Nat.le_of_eq (Nat.add_sub_cancel' h.queued.length_le)
      obtain ⟨m, hholds, hsize, hle⟩ := write_kspace_loop_spec h hroom hcall
      refine ⟨_, _, hholds, ?_, rfl, ?_, ?_⟩
      · dsimp only
        rw [hsize]
        split <;> exact List.take_add
      · dsimp only
        split <;> rfl
      · dsimp only
        rw [hsize]
        split
        · exact fun c hc => nomatch hc
        · rintro c ⟨⟩
          exact hle

/-- A read into a buffer with room comes back empty only from an empty pipe
without a write end. -/
theorem round_empty (h : Holds r l) (hit : it.At 0) (hroom : 0 < it.bytes.length) {closed : Bool}
    {r' : PipeRingBuffer} {it' : UserBufferIterator}
    (hround : r.round closed (.read_to_ubuf it 0) = .ok (r', .returned (.read_to_ubuf it' 0))) :
    l = [] ∧ closed = true := by
  rw [round, h.available_read] at hround
  split at hround
  · next hzero =>
    cases closed with
    | true => exact ⟨List.length_eq_zero_iff.mp hzero, rfl⟩
    | false => cases hround
  · next hpos =>
    obtain ⟨⟨r₁, it₁, size⟩, hloop, hret⟩ := bind_eq_ok.mp hround
    obtain ⟨m, _, hsize, _, hend⟩ := (read_loop_meets h (Nat.le_refl _) hit).of_ok hloop
    cases hret
    simp only at hsize
    have hlen := hend (by omega)
    omega

end PipeRingBuffer

namespace PipeState

/-- `assert_eq!(self.readable(), true)`, and the call stands at the top of its loop. -/
def start (s : PipeState) (permitted : Bool) (id : Nat) (call : Call) : Except Panic PipeState :=
  if permitted = false then .error .assertion
  else if (s.calls id).isSome then .ok s
  else .ok { s with calls := Function.update s.calls id (some (.again call)) }

def step (s : PipeState) : PipeOp → Except Panic PipeState
  | .read_to_ubuf id buffers => s.start s.readable id (.read_to_ubuf ⟨buffers, 0, 0⟩ 0)
  | .write_from_ubuf id buffers => s.start s.writable id (.write_from_ubuf ⟨buffers, 0, 0⟩ 0)
  | .read_to_kspace id => s.start s.readable id (.read_to_kspace [])
  | .write_from_kspace id data => s.start s.writable id (.write_from_kspace data 0)
  | .lock id =>
    match s.calls id with
    | some (.again call) => do
      let (ring, progress) ← s.ring.round (s.write_ends = 0) call
      return { s with ring, calls := Function.update s.calls id (some progress) }
    | _ => .ok s
  | .clone_write_end =>
    .ok { s with write_ends := if s.write_ends = 0 then 0 else s.write_ends + 1 }
  | .drop_write_end => .ok { s with write_ends := s.write_ends - 1 }
  | .set_cloexec_read_end => .ok { s with readable := false }
  | .set_cloexec_write_end => .ok { s with writable := false }

end PipeState

/-! ## The stream through a pipe -/

/-- The bytes that writes have taken from their callers and reads have given to
theirs, in the order of the rounds. -/
structure Traffic where
  accepted : List UInt8
  returned : List UInt8

namespace PipeState

/-- The traffic after the step from `s` to `t`. -/
def record (g : Traffic) (s t : PipeState) : PipeOp → Traffic
  | .lock id =>
    match s.calls id, t.calls id with
    | some (.again call), some progress =>
      let bytes := progress.call.transferred.drop call.transferred.length
      if call.writes then { g with accepted := g.accepted ++ bytes }
      else { g with returned := g.returned ++ bytes }
    | _, _ => g
  | _ => g

def step_recorded (x : PipeState × Traffic) (op : PipeOp) : Except Panic (PipeState × Traffic) := do
  let t ← x.1.step op
  return (t, record x.2 x.1 t op)

/-- What was accepted and not yet returned is what the ring holds. -/
structure Streams (s : PipeState) (g : Traffic) : Prop where
  holds : ∃ l, s.ring.Holds l ∧ g.accepted = g.returned ++ l
  counted : ∀ id call, s.calls id = some (.again call) → call.Counted

variable {s t : PipeState} {g : Traffic}

theorem Streams.make_pipe : Streams make_pipe ⟨[], []⟩ :=
  ⟨⟨[], .new, rfl⟩, fun _ _ h => nomatch h⟩

theorem Streams.start (h : Streams s g) {permitted : Bool} {id : Nat} (call : Call)
    (hcall : call.Counted) (hs : s.start permitted id call = .ok t) : Streams t g := by
  unfold PipeState.start at hs
  split at hs
  · cases hs
  · split at hs
    · cases hs
      exact h
    · cases hs
      refine ⟨h.holds, fun id' call' h' => ?_⟩
      dsimp only at h'
      by_cases hid : id' = id
      · subst hid
        obtain rfl : call = call' := by simpa using h'
        exact hcall
      · rw [Function.update_of_ne hid] at h'
        exact h.counted id' call' h'

theorem Streams.lock (h : Streams s g) {id : Nat} (hs : s.step (.lock id) = .ok t) :
    Streams t (record g s t (.lock id)) := by
  rw [step] at hs
  split at hs
  · next call hcall =>
    obtain ⟨⟨ring, progress⟩, hround, hret⟩ := bind_eq_ok.mp hs
    cases hret
    obtain ⟨l, hl, htraffic⟩ := h.holds
    obtain ⟨bytes, l', hmoved⟩ :=
      (PipeRingBuffer.round_meets hl _ (h.counted id call hcall)).of_ok hround
    have htransferred : progress.call.transferred = call.transferred ++ bytes := hmoved.transferred
    have hqueue := hmoved.queue
    refine ⟨⟨l', hmoved.holds, ?_⟩, fun id' call' h' => ?_⟩
    · simp only [record, hcall, Function.update_self, htransferred, List.drop_left]
      split at hqueue
      · next hwrites => rw [if_pos hwrites, hqueue, htraffic, List.append_assoc]
      · next hreads => rw [if_neg hreads, List.append_assoc, ← hqueue, htraffic]
    · dsimp only at h'
      by_cases hid : id' = id
      · subst hid
        rw [Function.update_self] at h'
        exact hmoved.counted call' (Option.some.inj h')
      · rw [Function.update_of_ne hid] at h'
        exact h.counted id' call' h'
  · next hnone =>
    cases hs
    have hsame : record g s s (.lock id) = g := by
      simp only [record]
      split
      · next call _ hcall _ => exact absurd hcall (hnone call)
      · rfl
    rw [hsame]
    exact h

theorem Streams.step (h : Streams s g) {op : PipeOp} (hs : s.step op = .ok t) :
    Streams t (record g s t op) := by
  cases op with
  | read_to_ubuf id buffers => exact h.start (.read_to_ubuf _ 0) ⟨rfl, .start buffers⟩ hs
  | write_from_ubuf id buffers =>
    exact h.start (.write_from_ubuf _ 0) (UserBufferIterator.At.start buffers) hs
  | read_to_kspace id => exact h.start (.read_to_kspace []) rfl hs
  | write_from_kspace id data => exact h.start (.write_from_kspace data 0) (Nat.zero_le _) hs
  | lock id => exact h.lock hs
  | clone_write_end | drop_write_end | set_cloexec_read_end | set_cloexec_write_end =>
    cases hs
    exact ⟨h.holds, h.counted⟩

theorem streams_states (ops : List PipeOp) :
    ∀ x ∈ states step_recorded (Fs.make_pipe, ⟨[], []⟩) ops, Streams x.1 x.2 := by
  have hguard : Guarded step_recorded (fun _ _ => True) (Fs.make_pipe, ⟨[], []⟩) ops :=
    .of_forall (fun _ _ => trivial) ops _
  refine invariant (fun x => Streams x.1 x.2) ?_ Streams.make_pipe hguard
  intro x op y h _ hy
  obtain ⟨t, ht, hret⟩ := bind_eq_ok.mp hy
  cases hret
  exact h.step ht

/-- A pipe is a first-in first-out stream of bytes, whatever calls are made on
it and however their rounds follow each other. -/
theorem fifo (ops : List PipeOp) : ∀ x ∈ states step_recorded (Fs.make_pipe, ⟨[], []⟩) ops,
    x.2.accepted = x.2.returned ++ x.1.ring.content ∧
      x.1.ring.available_read + x.1.ring.available_write = RING_BUFFER_SIZE ∧
      ∀ id it n t it', x.1.calls id = some (.again (.read_to_ubuf it n)) → 0 < it.bytes.length →
        x.1.step (.lock id) = .ok t → t.calls id = some (.returned (.read_to_ubuf it' 0)) →
          x.1.ring.content = [] ∧ x.1.write_ends = 0 := by
  intro x hx
  have h := streams_states ops x hx
  obtain ⟨l, hl, htraffic⟩ := h.holds
  rw [hl.content, hl.available_read, hl.available_write]
  refine ⟨htraffic, Nat.add_sub_cancel' hl.queued.length_le, ?_⟩
  intro id it n t it' hcall hroom hstep hreturned
  obtain ⟨rfl, hit⟩ := h.counted id _ hcall
  rw [PipeState.step, hcall] at hstep
  obtain ⟨⟨ring, progress⟩, hround, hret⟩ := bind_eq_ok.mp hstep
  cases hret
  obtain rfl : progress = .returned (.read_to_ubuf it' 0) := by simpa using hreturned
  obtain ⟨hempty, hclosed⟩ := PipeRingBuffer.round_empty hl hit hroom hround
  exact ⟨hempty, of_decide_eq_true hclosed⟩

/-- One byte is on its way. -/
theorem fifo_one_byte : ∃ x, run step_recorded (Fs.make_pipe, ⟨[], []⟩)
      [.write_from_kspace 0 [7], .lock 0] = .ok x ∧ x.2.accepted = [7] ∧
    x.2.accepted = x.2.returned ++ x.1.ring.content := by
  obtain ⟨x, hx, haccepted⟩ : ∃ x, run step_recorded (Fs.make_pipe, ⟨[], []⟩)
      [.write_from_kspace 0 [7], .lock 0] = .ok x ∧ x.2.accepted = [7] :=
    Meets.exists_ok (by decide +kernel)
  exact ⟨x, hx, haccepted, (fifo _ x (mem_states_of_run hx)).1⟩

end PipeState

end MyGOS.Fs
