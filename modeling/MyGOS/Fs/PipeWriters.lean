import MyGOS.Fs.Pipe

/-!
# Writers that wait

A write leaves its loop when it looks for one more byte and there is none. If
the last byte fills the ring, it looks for room first, and waits.
-/

namespace MyGOS.Fs

open Mm Outcome StepSystem

/-- No slice is empty, as in the buffers of `translated_bytes_buffer`. -/
def Sliced (buffers : List (List UInt8)) : Prop := ∀ slice ∈ buffers, slice ≠ []

namespace Call

/-- The length of the data. -/
def size : Call → Nat
  | .read_to_ubuf it _ | .write_from_ubuf it _ => it.bytes.length
  | .read_to_kspace _ => 0
  | .write_from_kspace data _ => data.length

def written : Call → Nat
  | .read_to_ubuf _ n | .write_from_ubuf _ n => n
  | .read_to_kspace _ => 0
  | .write_from_kspace _ n => n

/-- The count of bytes that are not in the ring yet. -/
def left (call : Call) : Nat := call.size - call.written

def Sliced : Call → Prop
  | .write_from_ubuf it _ => Fs.Sliced it.buffers
  | _ => True

end Call

theorem Call.written_le {call : Call} (h : call.Counted) (hw : call.writes = true) :
    call.written ≤ call.size := by
  cases call with
  | read_to_ubuf it n => cases hw
  | read_to_kspace buf => cases hw
  | write_from_ubuf it n => exact UserBufferIterator.At.le_length h
  | write_from_kspace data n => exact h

theorem Call.length_transferred {call : Call} (hw : call.writes = true) :
    call.transferred.length = min call.written call.size := by
  cases call with
  | read_to_ubuf it n => cases hw
  | read_to_kspace buf => cases hw
  | write_from_ubuf it n => exact List.length_take
  | write_from_kspace data n => exact List.length_take

theorem Call.sliced_of_reads {call : Call} (h : call.writes = false) : call.Sliced := by
  cases call with
  | write_from_ubuf it n => cases h
  | read_to_ubuf it n | read_to_kspace buf | write_from_kspace data n => trivial

def PipeOp.Sliced : PipeOp → Prop
  | .write_from_ubuf _ buffers => Fs.Sliced buffers
  | _ => True

namespace PipeRingBuffer

variable {r : PipeRingBuffer} {l : List UInt8} {call : Call} {n : Nat}

/-- The loop stops early if there is room for one more byte than there is. -/
theorem write_loop_count {it : UserBufferIterator} (hit : it.At n) (hs : Sliced it.buffers)
    (k : Nat) : Meets (write_loop k r it n) (fun _ => False) fun x =>
      x.2.1.buffers = it.buffers ∧ x.2.2.1 = n + min k (it.bytes.length - n) ∧
      x.2.2.2 = decide (it.bytes.length - n < k) := by
  induction k generalizing r it n with
  | zero => exact ⟨rfl, (congrArg (n + ·) (Nat.zero_min _)).symm, (decide_eq_false (by omega)).symm⟩
  | succ k ih =>
    obtain ⟨⟨place, it'⟩, hnext⟩ := hit.exists_next hs
    have hpost := hit.next_meets.of_ok hnext
    rw [write_loop, hnext, ok_bind]
    cases place with
    | none =>
      obtain ⟨rfl, hlen⟩ := hpost
      rw [hlen, Nat.sub_self]
      exact ⟨rfl, rfl, rfl⟩
    | some place =>
      have hbytes : it'.bytes = it.bytes := congrArg List.flatten hpost.buffers
      have hlt : n < it.bytes.length := (List.getElem?_eq_some_iff.mp hpost.load).1
      apply (ih hpost.at_succ (hpost.buffers ▸ hs)).mono
      rintro ⟨r', it'', size, done⟩ ⟨hbuffers, hsize, hdone⟩
      rw [hbytes] at hsize hdone
      refine ⟨hbuffers.trans hpost.buffers, ?_, ?_⟩
      · rw [hsize]
        omega
      · rw [hdone, decide_eq_decide]
        omega

theorem write_kspace_loop_count {data : List UInt8} (hn : n ≤ data.length) (k : Nat) :
    (write_kspace_loop k r data n).2 = (n + min k (data.length - n), decide (data.length - n < k)) := by
  induction k generalizing r n with
  | zero => rw [write_kspace_loop, Nat.zero_min, decide_eq_false (Nat.not_lt_zero _), Nat.add_zero]
  | succ k ih =>
    rw [write_kspace_loop]
    split
    · next hnone =>
      have hlen : data.length = n := Nat.le_antisymm (List.getElem?_eq_none_iff.mp hnone) hn
      rw [hlen, Nat.sub_self]
      rfl
    · next byte hbyte =>
      have hlt : n < data.length := (List.getElem?_eq_some_iff.mp hbyte).1
      rw [ih hlt, Prod.mk.injEq, decide_eq_decide]
      omega

/-- What a round of a write does if there is room in the ring. -/
theorem round_count (hroom : r.available_write ≠ 0) (hw : call.writes = true)
    (hcall : call.Counted) (hs : call.Sliced) (closed : Bool) :
    Meets (r.round closed call) (fun _ => False) fun x => x.2.call.Sliced ∧
      x.2.call.size = call.size ∧
      x.2.call.written = call.written + min r.available_write call.left ∧
      x.2 = if call.left < r.available_write then .returned x.2.call else .again x.2.call := by
  cases call with
  | read_to_ubuf it n => cases hw
  | read_to_kspace buf => cases hw
  | write_from_ubuf it n =>
    rw [round]
    simp only [if_neg hroom]
    apply (write_loop_count hcall hs _).bind
    rintro ⟨r', it', size, done⟩ ⟨hbuffers, hsize, hdone⟩
    have hbytes : it'.bytes.length = it.bytes.length :=
      congrArg (List.length ∘ List.flatten) hbuffers
    simp only at hsize hdone hbuffers
    subst hsize hdone
    by_cases hlt : it.bytes.length - n < r.available_write
    · simp only [hlt, decide_true, if_true, meets_pure, Progress.call, Call.Sliced, Call.size,
        Call.written, Call.left, hbuffers, hbytes, and_self, and_true]
      exact hs
    · simp only [hlt, decide_false, if_false, meets_pure, Progress.call, Call.Sliced, Call.size,
        Call.written, Call.left, hbuffers, hbytes, and_self, and_true, Bool.false_eq_true]
      exact hs
  | write_from_kspace data n =>
    rw [round]
    simp only [if_neg hroom, write_kspace_loop_count (r := r) hcall, meets_ok]
    by_cases hlt : data.length - n < r.available_write
    · simp only [hlt, decide_true, if_true, Progress.call, Call.Sliced, Call.size, Call.written,
        Call.left, and_self]
    · simp only [hlt, decide_false, if_false, Progress.call, Call.Sliced, Call.size, Call.written,
        Call.left, and_self, Bool.false_eq_true]

/-- A round without room leaves a write as it is. -/
theorem round_full (hfull : r.available_write = 0) (hw : call.writes = true) (closed : Bool) :
    r.round closed call = .ok (r, .again call) := by
  cases call with
  | read_to_ubuf it n => cases hw
  | read_to_kspace buf => cases hw
  | write_from_ubuf it n => simp only [round, if_pos hfull]
  | write_from_kspace data n => simp only [round, if_pos hfull]

end PipeRingBuffer

namespace PipeState

/-- The rounds of a write until it returns or suspends, when no other call comes between them.
It suspends in a round that finds no room. -/
inductive Turn (id : Nat) : PipeState → PipeState → Prop
  | suspended {s : PipeState} : s.ring.available_write = 0 → Turn id s s
  | returned {s t : PipeState} {call : Call} : s.ring.available_write ≠ 0 →
      s.step (.lock id) = .ok t → t.calls id = some (.returned call) → Turn id s t
  | again {s t u : PipeState} {call : Call} : s.ring.available_write ≠ 0 →
      s.step (.lock id) = .ok t → t.calls id = some (.again call) → Turn id t u → Turn id s u

/-- A write suspends only if the ring is full and bytes are left; if there is room for all that
is left, it returns the whole length. -/
structure Prompt (s : PipeState) (id : Nat) (call : Call) : Prop where
  suspends : ∀ t c, Turn id s t → t.calls id = some (.again c) →
    t.ring.available_write = 0 ∧ 0 < c.left
  returns : call.left ≤ s.ring.available_write → ∃ t c, Turn id s t ∧
    t.calls id = some (.returned c) ∧ c.written = call.size

/-- The ring is sound, and each call in its loop has a buffer without empty slices. -/
structure Sound (s : PipeState) : Prop where
  streams : ∃ g, Streams s g
  sliced : ∀ id call, s.calls id = some (.again call) → call.Sliced

variable {s t : PipeState} {id : Nat} {call : Call}

theorem Sound.make_pipe : Sound make_pipe := ⟨⟨_, .make_pipe⟩, fun _ _ h => nomatch h⟩

theorem Sound.sliced_start (h : Sound s) (call : Call) (hcall : call.Sliced) {permitted : Bool}
    (hs : s.start permitted id call = .ok t) :
    ∀ id' call', t.calls id' = some (.again call') → call'.Sliced := by
  unfold PipeState.start at hs
  split at hs
  · cases hs
  · split at hs
    · cases hs
      exact h.sliced
    · cases hs
      intro id' call' hagain
      simp only [Function.update_apply] at hagain
      split at hagain
      · cases hagain
        exact hcall
      · exact h.sliced id' call' hagain

theorem Sound.counted (h : Sound s) (hcall : s.calls id = some (.again call)) : call.Counted := by
  obtain ⟨g, hg⟩ := h.streams
  exact hg.counted id call hcall

theorem Sound.moved (h : Sound s) (hcall : s.calls id = some (.again call))
    {x : PipeRingBuffer × Progress} (hround : s.ring.round (s.write_ends = 0) call = .ok x) :
    ∃ l bytes l', s.ring.Holds l ∧ PipeRingBuffer.Moved s.ring l call x bytes l' := by
  obtain ⟨g, hg⟩ := h.streams
  obtain ⟨l, hl, -⟩ := hg.holds
  obtain ⟨bytes, l', hmoved⟩ :=
    (PipeRingBuffer.round_meets hl _ (hg.counted id call hcall)).of_ok hround
  exact ⟨l, bytes, l', hl, hmoved⟩

theorem Sound.sliced_lock (h : Sound s) (hs : s.step (.lock id) = .ok t) :
    ∀ id' call', t.calls id' = some (.again call') → call'.Sliced := by
  rw [PipeState.step] at hs
  split at hs
  · next call hcall =>
    obtain ⟨⟨ring, progress⟩, hround, hret⟩ := bind_eq_ok.mp hs
    cases hret
    have hsliced : progress.call.Sliced := by
      obtain ⟨l, bytes, l', -, hmoved⟩ := h.moved hcall hround
      cases hw : call.writes with
      | false => exact Call.sliced_of_reads (hmoved.writes.trans hw)
      | true =>
        by_cases hfull : s.ring.available_write = 0
        · rw [PipeRingBuffer.round_full hfull hw] at hround
          cases hround
          exact h.sliced id call hcall
        · exact ((PipeRingBuffer.round_count hfull hw (h.counted hcall) (h.sliced id call hcall)
            _).of_ok hround).1
    intro id' call' hagain
    simp only [Function.update_apply] at hagain
    split at hagain
    · cases hagain
      exact hsliced
    · exact h.sliced id' call' hagain
  · cases hs
    exact h.sliced

theorem Sound.step (h : Sound s) {op : PipeOp} (hop : op.Sliced) (hs : s.step op = .ok t) :
    Sound t := by
  obtain ⟨g, hg⟩ := h.streams
  refine ⟨⟨_, hg.step hs⟩, ?_⟩
  cases op with
  | read_to_ubuf id buffers => exact h.sliced_start (.read_to_ubuf _ 0) trivial hs
  | write_from_ubuf id buffers => exact h.sliced_start (.write_from_ubuf ⟨buffers, 0, 0⟩ 0) hop hs
  | read_to_kspace id => exact h.sliced_start (.read_to_kspace []) trivial hs
  | write_from_kspace id data => exact h.sliced_start (.write_from_kspace data 0) trivial hs
  | lock id => exact h.sliced_lock hs
  | clone_write_end | drop_write_end | set_cloexec_read_end | set_cloexec_write_end =>
    cases hs
    exact h.sliced

theorem sound_states {ops : List PipeOp} (hops : ∀ op ∈ ops, op.Sliced) :
    ∀ s ∈ states PipeState.step Fs.make_pipe ops, Sound s := by
  have hguard : ∀ s, Guarded PipeState.step (fun _ op => op.Sliced) s ops := by
    induction ops with
    | nil => exact fun _ => trivial
    | cons op ops ih =>
      obtain ⟨hop, hrest⟩ := List.forall_mem_cons.mp hops
      intro s
      refine ⟨hop, ?_⟩
      split
      · exact ih hrest _
      · trivial
  exact invariant Sound (fun _ _ _ h hop hs => h.step hop hs) .make_pipe (hguard _)

/-- One round of a write with room in the ring. -/
theorem Sound.lock (h : Sound s) (hcall : s.calls id = some (.again call))
    (hw : call.writes = true) (hroom : s.ring.available_write ≠ 0) :
    ∃ t c, s.step (.lock id) = .ok t ∧ c.left = call.left - s.ring.available_write ∧
      (call.left ≤ s.ring.available_write → c.written = call.size) ∧
      t.ring.available_write = s.ring.available_write - call.left ∧
      t.calls id =
        some (if call.left < s.ring.available_write then .returned c else .again c) := by
  obtain ⟨⟨r, progress⟩, hround, -, hsize, hwritten, hprogress⟩ :=
    (PipeRingBuffer.round_count hroom hw (h.counted hcall) (h.sliced id call hcall)
      (s.write_ends = 0)).exists_ok
  obtain ⟨l, bytes, l', hl, hmoved⟩ := h.moved hcall hround
  have hqueue := hmoved.queue
  rw [if_pos hw] at hqueue
  simp only at hsize hwritten hprogress
  have hle := Call.written_le (h.counted hcall) hw
  have hbytes : bytes.length = min s.ring.available_write call.left := by
    have hlen := congrArg List.length hmoved.transferred
    rw [List.length_append, Call.length_transferred (hmoved.writes.trans hw),
      Call.length_transferred hw, hsize, hwritten] at hlen
    unfold Call.left at hlen ⊢
    omega
  refine ⟨{ s with ring := r, calls := Function.update s.calls id (some progress) },
    progress.call, ?_, ?_, ?_, ?_, ?_⟩
  · rw [PipeState.step, hcall]
    simp only [hround, ok_bind]
    rfl
  · rw [Call.left, hsize, hwritten]
    unfold Call.left
    omega
  · intro hfits
    rw [hwritten]
    unfold Call.left at hfits ⊢
    omega
  · rw [hmoved.holds.available_write, hl.available_write, hqueue, List.length_append, hbytes,
      hl.available_write]
    omega
  · exact (Function.update_self ..).trans (congrArg some hprogress)

/-- A write waits with nothing left if and only if what it has left fits exactly. -/
theorem Sound.prompt_iff (h : Sound s) (hcall : s.calls id = some (.again call))
    (hw : call.writes = true) : s.Prompt id call ↔ call.left ≠ s.ring.available_write := by
  constructor
  · intro hprompt heq
    by_cases hroom : s.ring.available_write = 0
    · have hpos := (hprompt.suspends s call (.suspended hroom) hcall).2
      omega
    · obtain ⟨t, c, hlock, hleft, -, havail, hcalls⟩ := h.lock hcall hw hroom
      rw [if_neg (by omega)] at hcalls
      have hturn := Turn.again hroom hlock hcalls (.suspended (by omega))
      have hpos := (hprompt.suspends t c hturn hcalls).2
      omega
  · intro hne
    constructor
    · intro t c hturn hc
      cases hturn with
      | suspended hfull =>
        rw [hcall] at hc
        cases hc
        exact ⟨hfull, by omega⟩
      | returned _ _ hreturned =>
        rw [hreturned] at hc
        cases hc
      | again hroom hlock hagain hrest =>
        obtain ⟨t', c', hlock', hleft, -, havail, hcalls⟩ := h.lock hcall hw hroom
        obtain rfl := Except.ok.inj (hlock'.symm.trans hlock)
        split at hcalls
        · rw [hagain] at hcalls
          cases hcalls
        · have hfull : t'.ring.available_write = 0 := by omega
          cases hrest with
          | suspended _ =>
            rw [hcalls] at hc
            cases hc
            exact ⟨hfull, by omega⟩
          | returned hroom' _ _ => exact absurd hfull hroom'
          | again hroom' _ _ _ => exact absurd hfull hroom'
    · intro hle
      have hroom : s.ring.available_write ≠ 0 := by omega
      obtain ⟨t, c, hlock, -, hwritten, -, hcalls⟩ := h.lock hcall hw hroom
      rw [if_pos (by omega)] at hcalls
      exact ⟨t, c, .returned hroom hlock hcalls, hcalls, hwritten hle⟩

/-- In every state that the calls on a pipe can reach, a write that is in its loop waits for a
reader with nothing left, instead of returning, if and only if what it has left fits exactly. -/
theorem writers_prompt_iff {ops : List PipeOp} (hops : ∀ op ∈ ops, op.Sliced) :
    ∀ s ∈ states PipeState.step Fs.make_pipe ops, ∀ id call,
      s.calls id = some (.again call) → call.writes = true →
        (s.Prompt id call ↔ call.left ≠ s.ring.available_write) :=
  fun s hs _ _ hcall hw => (sound_states hops s hs).prompt_iff hcall hw

theorem writers_prompt_iff_two_bytes : ∃ s call,
    run PipeState.step Fs.make_pipe [.write_from_ubuf 0 [[1], [2]]] = .ok s ∧
      s.calls 0 = some (.again call) ∧ s.Prompt 0 call := by
  have hops : ∀ op ∈ [PipeOp.write_from_ubuf 0 [[1], [2]]], op.Sliced := by
    intro op hop
    obtain rfl := List.mem_singleton.mp hop
    show ∀ slice ∈ [[1], [2]], slice ≠ ([] : List UInt8)
    decide
  exact ⟨_, _, rfl, rfl, (writers_prompt_iff hops _ (mem_states_of_run rfl) 0 _ rfl rfl).mpr
    (by decide)⟩

/-- The first write on a pipe, of as many bytes as the ring has. -/
theorem not_prompt_of_full {data : List UInt8} (hlen : data.length = RING_BUFFER_SIZE) :
    ∃ s call, run PipeState.step Fs.make_pipe [.write_from_kspace 0 data] = .ok s ∧
      s.calls 0 = some (.again call) ∧ call.left = s.ring.available_write ∧
      ¬ s.Prompt 0 call := by
  have hops : ∀ op ∈ [PipeOp.write_from_kspace 0 data], op.Sliced := by
    intro op hop
    obtain rfl := List.mem_singleton.mp hop
    trivial
  have hsound := sound_states hops _ (mem_states_of_run rfl)
  exact ⟨_, _, rfl, rfl, hlen, fun hprompt => (hsound.prompt_iff rfl rfl).mp hprompt hlen⟩

theorem full_ring_waits : ∃ s call,
    run PipeState.step Fs.make_pipe
      [.write_from_kspace 0 (List.replicate RING_BUFFER_SIZE 0)] = .ok s ∧
      s.calls 0 = some (.again call) ∧ call.left = s.ring.available_write ∧
      ¬ s.Prompt 0 call :=
  not_prompt_of_full List.length_replicate

end PipeState

end MyGOS.Fs
