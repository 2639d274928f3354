import MyGOS.Mm.UserBuffer
import Mathlib.Data.List.GetD
import Mathlib.Order.Basic
import Mathlib.Data.Nat.Basic

/-!
# User buffers as flat ones

The loops of `UserBuffer` go over the slices and over the bytes of each, and leave
both when they have moved as many bytes as they should. What they do is what the
same call does to the bytes of all slices in one array.
-/

namespace MyGOS.Mm

open Outcome

/-- `src[i]` -/
def byte_at (src : List UInt8) (i : Nat) : Except Panic UInt8 :=
  match src[i]? with
  | some byte => .ok byte
  | none => .error .outOfBounds

namespace UserBuffer

/-- `for j in 0..sblen` of the calls that store: the slice, `current`, and whether the
call returns from here. -/
def store_slice (byte : Nat → Except Panic UInt8) (len : Nat) :
    (sub_buff : List UInt8) → (current : Nat) → Except Panic (List UInt8 × Nat × Bool)
  | [], current => .ok ([], current, false)
  | _ :: sub_buff, current => do
    let b ← byte current
    if current + 1 = len then return (b :: sub_buff, current + 1, true)
    else
      let (sub_buff, current, done) ← store_slice byte len sub_buff (current + 1)
      return (b :: sub_buff, current, done)

/-- `for sub_buff in self.buffers.iter_mut()`. -/
def store_slices (byte : Nat → Except Panic UInt8) (len : Nat) :
    (buffers : List (List UInt8)) → (current : Nat) → Except Panic (List (List UInt8) × Bool)
  | [], _ => .ok ([], false)
  | sub_buff :: buffers, current => do
    let (sub_buff, current, done) ← store_slice byte len sub_buff current
    if done then return (sub_buff :: buffers, true)
    else
      let (buffers, done) ← store_slices byte len buffers current
      return (sub_buff :: buffers, done)

def len (buffers : List (List UInt8)) : Nat :=
  buffers.foldl (fun total b => total + b.length) 0

def write (buffers : List (List UInt8)) (buff : List UInt8) :
    Except Panic (Nat × List (List UInt8)) := do
  let len := min (len buffers) buff.length
  let (buffers, _) ← store_slices (byte_at buff) len buffers 0
  return (len, buffers)

def write_zeros (buffers : List (List UInt8)) : Except Panic (Nat × List (List UInt8)) := do
  let len := len buffers
  let (buffers, _) ← store_slices (fun _ => .ok 0) len buffers 0
  return (len, buffers)

def write_at_slices (buff : List UInt8) (offset : Nat) : (buffers : List (List UInt8)) →
    (head current : Nat) → Except Panic (List (List UInt8) × Bool)
  | [], _, _ => .ok ([], false)
  | sub_buff :: buffers, head, current =>
    if head + sub_buff.length < offset then do
      let (buffers, done) ← write_at_slices buff offset buffers (head + sub_buff.length) current
      return (sub_buff :: buffers, done)
    else do
      -- the slices before the offset are passed by, and the one with the offset is left as it is
      -- up to there
      let first := if head < offset then offset - head else 0
      let (stored, current, done) ←
        store_slice (byte_at buff) buff.length (sub_buff.drop first) current
      if done then return ((sub_buff.take first ++ stored) :: buffers, true)
      else
        let (buffers, done) ← write_at_slices buff offset buffers (head + sub_buff.length) current
        return ((sub_buff.take first ++ stored) :: buffers, done)

def write_at (buffers : List (List UInt8)) (offset : Nat) (buff : List UInt8) :
    Except Panic (Nat × List (List UInt8)) :=
  if len buffers < offset + buff.length then .error .outOfBounds
  else do
    let (buffers, done) ← write_at_slices buff offset buffers 0 0
    return (if done then buff.length else 0, buffers)

/-- `for j in 0..sblen` of `read`. -/
def read_slice (len : Nat) : (sub_buff buf : List UInt8) → (current : Nat) →
    Except Panic (List UInt8 × Nat × Bool)
  | [], buf, current => .ok (buf, current, false)
  | b :: sub_buff, buf, current =>
    if current < buf.length then
      if current + 1 = len then .ok (buf.set current b, current + 1, true)
      else read_slice len sub_buff (buf.set current b) (current + 1)
    else .error .outOfBounds

def read_slices (len : Nat) : (buffers : List (List UInt8)) → (buf : List UInt8) →
    (current : Nat) → Except Panic (List UInt8)
  | [], buf, _ => .ok buf
  | sub_buff :: buffers, buf, current => do
    let (buf, current, done) ← read_slice len sub_buff buf current
    if done then return buf else read_slices len buffers buf current

def read (buffers : List (List UInt8)) (buf : List UInt8) : Except Panic (Nat × List UInt8) := do
  let len := min (len buffers) buf.length
  return (len, ← read_slices len buffers buf 0)

/-- The places that `for byte in user_buffer` goes over, if it ends. -/
def places : Nat → UserBufferIterator → Except Panic (Option (List (Nat × Nat)))
  | 0, _ => .ok none
  | fuel + 1, it => do
    match ← it.next with
    | (none, _) => return some []
    | (some place, it) => return (← places fuel it).map (place :: ·)

/-- `buffers'` are the slices of `buffers` with other bytes in them. -/
def Resliced (buffers buffers' : List (List UInt8)) (bytes : List UInt8) : Prop :=
  buffers'.map List.length = buffers.map List.length ∧ buffers'.flatten = bytes

/-- The calls on `buffers` do to its bytes what they would do to one array. -/
structure ActsFlat (buffers : List (List UInt8)) (buff : List UInt8) : Prop where
  write : ∃ buffers',
    write buffers buff = .ok (min buffers.flatten.length buff.length, buffers') ∧
    Resliced buffers buffers' (buff.take buffers.flatten.length ++
      buffers.flatten.drop buff.length)
  read : read buffers buff = .ok (min buffers.flatten.length buff.length,
    buffers.flatten.take buff.length ++ buff.drop buffers.flatten.length)
  write_at : ∀ (offset : Nat) (b : List UInt8), b ≠ [] →
    offset + b.length ≤ buffers.flatten.length →
    ∃ buffers', write_at buffers offset b = .ok (b.length, buffers') ∧
      Resliced buffers buffers'
        (buffers.flatten.take offset ++ b ++ buffers.flatten.drop (offset + b.length))
  write_zeros : ∃ buffers', write_zeros buffers = .ok (buffers.flatten.length, buffers') ∧
    Resliced buffers buffers' (List.replicate buffers.flatten.length 0)
  into_iter : ∃ ps, places (buffers.flatten.length + 1) ⟨buffers, 0, 0⟩ = .ok (some ps) ∧
    ps.length = buffers.flatten.length ∧
    ∀ i place, ps[i]? = some place →
      buffers.flatten[i]? = some (UserBufferIterator.load ⟨buffers, 0, 0⟩ place) ∧
      ∀ byte, (UserBufferIterator.store ⟨buffers, 0, 0⟩ place byte).bytes =
        buffers.flatten.set i byte

section Store

variable {byte : Nat → Except Panic UInt8} {g : Nat → UInt8} {len current offset head : Nat}
  {l l' : List UInt8} {buffers : List (List UInt8)}

/-- The bytes of `l`, of which those before the place `len` are replaced; `l` is at `current`. -/
def overwrite (g : Nat → UInt8) (len : Nat) : List UInt8 → (current : Nat) → List UInt8
  | [], _ => []
  | b :: l, current => (if current < len then g current else b) :: overwrite g len l (current + 1)

@[simp] theorem length_overwrite : (overwrite g len l current).length = l.length := by
  induction l generalizing current with
  | nil => rfl
  | cons b l ih => exact congrArg (· + 1) ih

theorem overwrite_append : overwrite g len (l ++ l') current =
    overwrite g len l current ++ overwrite g len l' (current + l.length) := by
  induction l generalizing current with
  | nil => rfl
  | cons b l ih =>
    rw [List.cons_append, overwrite, ih, overwrite, List.cons_append, List.length_cons,
      Nat.add_right_comm, Nat.add_assoc]

theorem overwrite_of_le (h : len ≤ current) : overwrite g len l current = l := by
  induction l generalizing current with
  | nil => rfl
  | cons b l ih => rw [overwrite, if_neg (not_lt.mpr h), ih (Nat.le_succ_of_le h)]

theorem getElem?_overwrite (i : Nat) : (overwrite g len l current)[i]? =
    l[i]?.map fun b => if current + i < len then g (current + i) else b := by
  induction l generalizing current i with
  | nil => rfl
  | cons b l ih =>
    cases i with
    | zero => rfl
    | succ i =>
      rw [overwrite, List.getElem?_cons_succ, List.getElem?_cons_succ, ih, Nat.add_assoc,
        Nat.add_comm 1]

theorem overwrite_eq (buff : List UInt8) :
    overwrite (fun k => buff.getD k 0) (min l.length buff.length) l 0 =
      buff.take l.length ++ l.drop buff.length := by
  apply List.ext_getElem?
  intro i
  rw [getElem?_overwrite, Nat.zero_add]
  rcases Nat.lt_or_ge i l.length with hl | hl
  · rcases Nat.lt_or_ge i buff.length with hi | hi
    · rw [List.getElem?_append_left (by rw [List.length_take]; omega),
        List.getElem?_take_of_lt hl, List.getElem?_eq_getElem hl, List.getElem?_eq_getElem hi,
        Option.map_some, if_pos (by omega), List.getD_eq_getElem _ _ hi]
    · have htake : (buff.take l.length).length = buff.length := by
        rw [List.length_take]
        omega
      rw [List.getElem?_append_right (by omega), htake, List.getElem?_drop, Nat.add_sub_cancel' hi,
        List.getElem?_eq_getElem hl, Option.map_some, if_neg (by omega)]
  · rw [List.getElem?_eq_none hl, Option.map_none, List.getElem?_eq_none]
    rw [List.length_append, List.length_take, List.length_drop]
    omega

theorem store_slice_eq (hbyte : ∀ k < len, byte k = .ok (g k)) (hlt : current < len) :
    store_slice byte len l current =
      .ok (overwrite g len l current, min (current + l.length) len,
        decide (len ≤ current + l.length)) := by
  induction l generalizing current with
  | nil =>
    rw [store_slice, overwrite, List.length_nil, Nat.add_zero, Nat.min_eq_left hlt.le,
      decide_eq_false (not_le.mpr hlt)]
  | cons b l ih =>
    rw [store_slice, hbyte current hlt, ok_bind, overwrite, if_pos hlt, List.length_cons]
    rcases Nat.eq_or_lt_of_le (Nat.add_one_le_of_lt hlt) with heq | hlt'
    · rw [if_pos heq, overwrite_of_le heq.ge, Nat.min_eq_right (by omega),
        decide_eq_true (by omega), ← heq]
      rfl
    · rw [if_neg hlt'.ne, ih hlt', Nat.add_assoc, Nat.add_comm 1]
      rfl

theorem store_slices_eq (buffers : List (List UInt8)) (hbyte : ∀ k < len, byte k = .ok (g k))
    (hlt : current < len) :
    ∃ buffers', store_slices byte len buffers current =
        .ok (buffers', decide (len ≤ current + buffers.flatten.length)) ∧
      Resliced buffers buffers' (overwrite g len buffers.flatten current) := by
  induction buffers generalizing current with
  | nil =>
    refine ⟨[], ?_, rfl, rfl⟩
    rw [List.flatten_nil, List.length_nil, Nat.add_zero, decide_eq_false (not_le.mpr hlt)]
    rfl
  | cons sub_buff buffers ih =>
    rw [store_slices, store_slice_eq hbyte hlt, ok_bind, List.flatten_cons, List.length_append,
      overwrite_append]
    rcases Nat.lt_or_ge (current + sub_buff.length) len with hnext | hdone
    · obtain ⟨buffers', heq, hlen, hflat⟩ := ih hnext
      refine ⟨overwrite g len sub_buff current :: buffers', ?_, ?_, ?_⟩
      · simp only [Nat.min_eq_left hnext.le, decide_eq_false (not_le.mpr hnext), heq, ok_bind,
          Nat.add_assoc]
        rfl
      · rw [List.map_cons, List.map_cons, hlen, length_overwrite]
      · rw [List.flatten_cons, hflat]
    · refine ⟨overwrite g len sub_buff current :: buffers, ?_, ?_, ?_⟩
      · simp only [decide_eq_true hdone]
        rw [decide_eq_true (by omega)]
        rfl
      · rw [List.map_cons, List.map_cons, length_overwrite]
      · rw [List.flatten_cons, overwrite_of_le hdone]

/-- The part of the buffer from the offset on, as `head` sees it, is overwritten. -/
theorem write_at_slices_eq {buff : List UInt8} (buffers : List (List UInt8)) (offset head : Nat)
    (hlt : current < buff.length) :
    ∃ buffers', write_at_slices buff offset buffers head current =
        .ok (buffers', decide (buff.length ≤ current + (buffers.flatten.length - (offset - head)))) ∧
      Resliced buffers buffers' (buffers.flatten.take (offset - head) ++
        overwrite (fun k => buff.getD k 0) buff.length (buffers.flatten.drop (offset - head))
          current) := by
  have hbyte : ∀ k < buff.length, byte_at buff k = .ok (buff.getD k 0) := by
    intro k hk
    rw [byte_at, List.getElem?_eq_getElem hk, List.getD_eq_getElem _ _ hk]
  induction buffers generalizing head current with
  | nil =>
    refine ⟨[], ?_, rfl, ?_⟩
    · rw [List.flatten_nil, List.length_nil, Nat.zero_sub, Nat.add_zero,
        decide_eq_false (not_le.mpr hlt)]
      rfl
    · rw [List.flatten_nil, List.take_nil, List.drop_nil]
      rfl
  | cons sub_buff buffers ih =>
    have hfirst : (if head < offset then offset - head else 0) = offset - head := by
      split <;> omega
    rw [write_at_slices, hfirst, List.flatten_cons, List.length_append]
    rcases Nat.lt_or_ge (head + sub_buff.length) offset with hskip | hhere
    · obtain ⟨buffers', heq, hlen, hflat⟩ := ih (head + sub_buff.length) hlt
      have hsub : offset - (head + sub_buff.length) = offset - head - sub_buff.length := by omega
      rw [hsub] at heq hflat
      refine ⟨sub_buff :: buffers', ?_, ?_, ?_⟩
      · rw [if_pos hskip, heq, ok_bind]
        have hrest : sub_buff.length + buffers.flatten.length - (offset - head) =
          buffers.flatten.length - (offset - head - sub_buff.length) := by omega
        rw [hrest]
        rfl
      · rw [List.map_cons, List.map_cons, hlen]
      · rw [List.flatten_cons, hflat, List.take_append, List.drop_append,
          List.take_of_length_le (l := sub_buff) (by omega),
          List.drop_of_length_le (l := sub_buff) (by omega), List.nil_append, List.append_assoc]
    · have hle : offset - head ≤ sub_buff.length := by omega
      have hzero : offset - (head + sub_buff.length) = 0 := by omega
      rw [if_neg (not_lt.mpr hhere)]
      simp only
      rw [store_slice_eq hbyte hlt, ok_bind, List.length_drop, List.take_append_of_le_length hle,
        List.drop_append_of_le_length hle, overwrite_append, List.length_drop]
      have hsplit : current + (sub_buff.length + buffers.flatten.length - (offset - head)) =
        current + (sub_buff.length - (offset - head)) + buffers.flatten.length := by omega
      rw [hsplit]
      rcases Nat.lt_or_ge (current + (sub_buff.length - (offset - head))) buff.length with
        hnext | hdone
      · obtain ⟨buffers', heq, hlen, hflat⟩ := ih (head + sub_buff.length) hnext
        rw [hzero, Nat.sub_zero] at heq
        rw [hzero, List.take_zero, List.nil_append, List.drop_zero] at hflat
        refine ⟨(sub_buff.take (offset - head) ++ overwrite (fun k => buff.getD k 0) buff.length
          (sub_buff.drop (offset - head)) current) :: buffers', ?_, ?_, ?_⟩
        · simp only [Nat.min_eq_left hnext.le, decide_eq_false (not_le.mpr hnext), heq, ok_bind]
          rfl
        · rw [List.map_cons, List.map_cons, hlen, List.length_append, length_overwrite,
            List.length_take_of_le hle, List.length_drop, Nat.add_sub_cancel' hle]
        · rw [List.flatten_cons, hflat, List.append_assoc]
      · refine ⟨(sub_buff.take (offset - head) ++ overwrite (fun k => buff.getD k 0) buff.length
          (sub_buff.drop (offset - head)) current) :: buffers, ?_, ?_, ?_⟩
        · simp only [decide_eq_true hdone]
          rw [decide_eq_true (by omega)]
          rfl
        · rw [List.map_cons, List.map_cons, List.length_append, length_overwrite,
            List.length_take_of_le hle, List.length_drop, Nat.add_sub_cancel' hle]
        · rw [List.flatten_cons, overwrite_of_le hdone, List.append_assoc]

end Store

section Read

variable {len current : Nat} {sub_buff buf : List UInt8} {buffers : List (List UInt8)}

/-- What `read` has made of `buf` when it has gone over the bytes `l` from `current` on. -/
def filled (buf l : List UInt8) (len current : Nat) : List UInt8 :=
  buf.take current ++ l.take (len - current) ++ buf.drop (min (current + l.length) len)

theorem read_slice_eq (hlen : len ≤ buf.length) (hlt : current < len) :
    read_slice len sub_buff buf current = .ok (filled buf sub_buff len current,
      min (current + sub_buff.length) len, decide (len ≤ current + sub_buff.length)) := by
  induction sub_buff generalizing buf current with
  | nil =>
    rw [read_slice, filled, List.take_nil, List.append_nil, List.length_nil, Nat.add_zero,
      Nat.min_eq_left hlt.le, List.take_append_drop, decide_eq_false (not_le.mpr hlt)]
  | cons b sub_buff ih =>
    have hset : (buf.set current b).take (current + 1) = buf.take current ++ [b] := by
      rw [List.take_set, List.take_add_one, List.getElem?_eq_getElem (by omega), Option.toList_some,
        List.set_append_right _ _ (List.length_take_le _ _), List.length_take_of_le (by omega),
        Nat.sub_self]
      rfl
    have hlen' : len - current = len - (current + 1) + 1 := by omega
    rw [read_slice, if_pos (by omega), filled, List.length_cons, hlen', List.take_succ_cons]
    rcases Nat.eq_or_lt_of_le (Nat.add_one_le_of_lt hlt) with heq | hlt'
    · rw [if_pos heq, Nat.min_eq_right (by omega), decide_eq_true (by omega), ← heq, Nat.sub_self,
        List.take_zero, ← hset, ← List.drop_set_of_lt (a := b) (Nat.lt_succ_self current),
        List.take_append_drop]
    · rw [if_neg hlt'.ne, ih (by rwa [List.length_set]) hlt', filled, hset, Nat.add_assoc,
        Nat.add_comm 1, List.drop_set_of_lt (by omega), List.append_assoc (buf.take current) [b]]
      rfl

theorem read_slices_eq (buffers : List (List UInt8)) (hlen : len ≤ buf.length)
    (hlt : current < len) :
    read_slices len buffers buf current = .ok (filled buf buffers.flatten len current) := by
  induction buffers generalizing buf current with
  | nil =>
    rw [read_slices, List.flatten_nil, filled, List.take_nil, List.append_nil, List.length_nil,
      Nat.add_zero, Nat.min_eq_left hlt.le, List.take_append_drop]
  | cons sub_buff buffers ih =>
    rw [read_slices, read_slice_eq hlen hlt, ok_bind, List.flatten_cons]
    rcases Nat.lt_or_ge (current + sub_buff.length) len with hnext | hdone
    · have htake : (filled buf sub_buff len current).take (current + sub_buff.length) =
          buf.take current ++ sub_buff := by
        rw [filled, List.take_of_length_le (l := sub_buff) (by omega)]
        apply List.take_left'
        rw [List.length_append, List.length_take_of_le (by omega)]
      have hlength : (filled buf sub_buff len current).length = buf.length := by
        rw [filled, List.length_append, List.length_append, List.length_take, List.length_take,
          List.length_drop]
        omega
      have hdrop : ∀ k, current + sub_buff.length ≤ k →
          (filled buf sub_buff len current).drop k = buf.drop k := by
        intro k hk
        rw [filled, List.take_of_length_le (l := sub_buff) (by omega), Nat.min_eq_left hnext.le,
          List.drop_append, List.drop_of_length_le (by
            rw [List.length_append, List.length_take_of_le (by omega)]
            exact hk), List.nil_append, List.drop_drop, List.length_append,
          List.length_take_of_le (by omega), Nat.add_sub_cancel' hk]
      simp only [Nat.min_eq_left hnext.le, decide_eq_false (not_le.mpr hnext)]
      rw [if_neg Bool.false_ne_true, ih (hlength ▸ hlen) hnext, filled, htake,
        hdrop _ (by omega), filled, List.take_append, List.take_of_length_le (l := sub_buff)
        (by omega), List.length_append, Nat.add_assoc, Nat.sub_sub, List.append_assoc _ sub_buff]
    · simp only [decide_eq_true hdone, if_true]
      rw [filled, filled, List.take_append_of_le_length (by omega),
        Nat.min_eq_right hdone, Nat.min_eq_right (by rw [List.length_append]; omega)]
      rfl

end Read

section Iterator

variable {it it' : UserBufferIterator} {k : Nat}

theorem load_of_buffers (h : it'.buffers = it.buffers) (place : Nat × Nat) :
    it'.load place = it.load place := by
  rw [UserBufferIterator.load, UserBufferIterator.load, h]

theorem bytes_store_of_buffers (h : it'.buffers = it.buffers) (place : Nat × Nat) (byte : UInt8) :
    (it'.store place byte).bytes = (it.store place byte).bytes := by
  simp only [UserBufferIterator.bytes, UserBufferIterator.store, h]

theorem places_eq (fuel : Nat) (h : it.At k) (hs : ∀ slice ∈ it.buffers, slice ≠ [])
    (hfuel : it.bytes.length < k + fuel) :
    ∃ ps, places fuel it = .ok (some ps) ∧ ps.length = it.bytes.length - k ∧
      ∀ i place, ps[i]? = some place → it.bytes[k + i]? = some (it.load place) ∧
        ∀ byte, (it.store place byte).bytes = it.bytes.set (k + i) byte := by
  induction fuel generalizing it k with
  | zero => exact absurd h.le_length (not_le.mpr hfuel)
  | succ fuel ih =>
    obtain ⟨⟨place, it'⟩, hnext⟩ := h.exists_next hs
    have hpost := h.next_meets.of_ok hnext
    rw [places, hnext, ok_bind]
    cases place with
    | none =>
      refine ⟨[], rfl, ?_, fun i place hi => ?_⟩
      · rw [hpost.2, Nat.sub_self]
        rfl
      · cases hi
    | some place =>
      have hbuffers : it'.buffers = it.buffers := hpost.buffers
      have hbytes : it'.bytes = it.bytes := congrArg List.flatten hbuffers
      have hlt : k < it.bytes.length := (List.getElem?_eq_some_iff.mp hpost.load).1
      obtain ⟨ps, heq, hlen, hps⟩ := ih hpost.at_succ (hbuffers ▸ hs) (by
        rw [hbytes]
        omega)
      rw [hbytes] at hlen hps
      refine ⟨place :: ps, ?_, ?_, fun i place' hi => ?_⟩
      · simp only [heq, ok_bind]
        rfl
      · rw [List.length_cons, hlen]
        omega
      · cases i with
        | zero =>
          obtain rfl : place = place' := Option.some.inj hi
          rw [← load_of_buffers hbuffers]
          refine ⟨hpost.load, fun byte => ?_⟩
          rw [← bytes_store_of_buffers hbuffers]
          exact hpost.store byte
        | succ i =>
          obtain ⟨hload, hstore⟩ := hps i place' hi
          rw [← load_of_buffers hbuffers, ← Nat.add_assoc, Nat.add_right_comm]
          refine ⟨hload, fun byte => ?_⟩
          rw [← bytes_store_of_buffers hbuffers]
          exact hstore byte

end Iterator

section Calls

variable {buffers : List (List UInt8)} {buff : List UInt8}

theorem len_eq (buffers : List (List UInt8)) : len buffers = buffers.flatten.length := by
  have hfold : ∀ total, buffers.foldl (fun total b => total + b.length) total =
      total + buffers.flatten.length := by
    induction buffers with
    | nil => exact fun total => rfl
    | cons b buffers ih =>
      intro total
      rw [List.foldl_cons, ih, List.flatten_cons, List.length_append, Nat.add_assoc]
  exact (hfold 0).trans (Nat.zero_add _)

theorem write_eq (h : 0 < min buffers.flatten.length buff.length) : ∃ buffers',
    write buffers buff = .ok (min buffers.flatten.length buff.length, buffers') ∧
    Resliced buffers buffers' (buff.take buffers.flatten.length ++
      buffers.flatten.drop buff.length) := by
  have hbyte : ∀ k < min buffers.flatten.length buff.length,
      byte_at buff k = .ok (buff.getD k 0) := by
    intro k hk
    have hlt : k < buff.length := hk.trans_le (Nat.min_le_right _ _)
    rw [byte_at, List.getElem?_eq_getElem hlt, List.getD_eq_getElem _ _ hlt]
  obtain ⟨buffers', heq, hlen, hflat⟩ := store_slices_eq buffers hbyte h
  refine ⟨buffers', ?_, hlen, hflat.trans (overwrite_eq buff)⟩
  simp only [write, len_eq, heq, ok_bind]
  rfl

theorem read_eq (h : 0 < min buffers.flatten.length buff.length) :
    read buffers buff = .ok (min buffers.flatten.length buff.length,
      buffers.flatten.take buff.length ++ buff.drop buffers.flatten.length) := by
  have hread := read_slices_eq buffers (Nat.min_le_right _ buff.length) h
  have hfilled : filled buff buffers.flatten (min buffers.flatten.length buff.length) 0 =
      buffers.flatten.take buff.length ++ buff.drop buffers.flatten.length := by
    rw [filled, List.take_zero, List.nil_append, Nat.zero_add, Nat.sub_zero]
    rcases Nat.le_total buffers.flatten.length buff.length with hle | hle
    · rw [Nat.min_eq_left hle, Nat.min_self, List.take_length, List.take_of_length_le hle]
    · rw [Nat.min_eq_right hle, Nat.min_eq_right hle, List.drop_length,
        List.drop_of_length_le hle]
  simp only [read, len_eq, hread, hfilled, ok_bind]
  rfl

theorem write_at_eq {offset : Nat} (hne : buff ≠ [])
    (hle : offset + buff.length ≤ buffers.flatten.length) :
    ∃ buffers', write_at buffers offset buff = .ok (buff.length, buffers') ∧
      Resliced buffers buffers'
        (buffers.flatten.take offset ++ buff ++ buffers.flatten.drop (offset + buff.length)) := by
  obtain ⟨buffers', heq, hlen, hflat⟩ :=
    write_at_slices_eq buffers offset 0 (List.length_pos_of_ne_nil hne)
  rw [Nat.sub_zero, Nat.zero_add, decide_eq_true (by omega)] at heq
  rw [Nat.sub_zero] at hflat
  have hover := overwrite_eq (l := buffers.flatten.drop offset) buff
  rw [List.length_drop, Nat.min_eq_right (by omega), List.take_of_length_le (by omega),
    List.drop_drop] at hover
  refine ⟨buffers', ?_, hlen, ?_⟩
  · rw [write_at, len_eq, if_neg (not_lt.mpr hle), heq]
    rfl
  · rw [hflat, hover, List.append_assoc]

theorem write_zeros_eq (h : 0 < buffers.flatten.length) : ∃ buffers',
    write_zeros buffers = .ok (buffers.flatten.length, buffers') ∧
    Resliced buffers buffers' (List.replicate buffers.flatten.length 0) := by
  obtain ⟨buffers', heq, hlen, hflat⟩ := @store_slices_eq (fun _ => .ok 0) (fun _ => 0) _ 0
    buffers (fun _ _ => rfl) h
  have hover := overwrite_eq (l := buffers.flatten) (List.replicate buffers.flatten.length 0)
  have hzero : (fun k => (List.replicate buffers.flatten.length (0 : UInt8)).getD k 0) =
      fun _ => 0 := by
    funext k
    simp
  rw [hzero, List.length_replicate, Nat.min_self, List.drop_length, List.append_nil,
    List.take_of_length_le (List.length_replicate ..).le] at hover
  refine ⟨buffers', ?_, hlen, hflat.trans hover⟩
  simp only [write_zeros, len_eq, heq, ok_bind]
  rfl

theorem into_iter_eq (hs : ∀ slice ∈ buffers, slice ≠ []) :
    ∃ ps, places (buffers.flatten.length + 1) ⟨buffers, 0, 0⟩ = .ok (some ps) ∧
      ps.length = buffers.flatten.length ∧
      ∀ i place, ps[i]? = some place →
        buffers.flatten[i]? = some (UserBufferIterator.load ⟨buffers, 0, 0⟩ place) ∧
        ∀ byte, (UserBufferIterator.store ⟨buffers, 0, 0⟩ place byte).bytes =
          buffers.flatten.set i byte := by
  obtain ⟨ps, heq, hlen, hps⟩ := places_eq (buffers.flatten.length + 1)
    (UserBufferIterator.At.start buffers) hs (by
      rw [Nat.zero_add]
      exact Nat.lt_succ_self _)
  refine ⟨ps, heq, hlen, fun i place hi => ?_⟩
  have hplace := hps i place hi
  rwa [Nat.zero_add] at hplace

theorem actsFlat_nil (buff : List UInt8) : ActsFlat [] buff where
  write := ⟨[], rfl, rfl, (List.drop_nil (i := buff.length)).symm⟩
  read := by
    rw [List.flatten_nil, List.take_nil]
    rfl
  write_at _ _ hne hle :=
    absurd ((Nat.le_add_left _ _).trans hle) (not_le.mpr (List.length_pos_of_ne_nil hne))
  write_zeros := ⟨[], rfl, rfl, rfl⟩
  into_iter := into_iter_eq fun slice h => absurd h List.not_mem_nil

theorem actsFlat_of_pos (hs : ∀ slice ∈ buffers, slice ≠ []) (hbuffers : buffers ≠ [])
    (hbuff : buff ≠ []) : ActsFlat buffers buff := by
  have hpos : 0 < buffers.flatten.length := by
    obtain ⟨slice, rest, rfl⟩ := List.exists_cons_of_ne_nil hbuffers
    rw [List.flatten_cons, List.length_append]
    exact Nat.add_pos_left (List.length_pos_of_ne_nil (hs slice List.mem_cons_self)) _
  have hmin : 0 < min buffers.flatten.length buff.length :=
    Nat.lt_min.mpr ⟨hpos, List.length_pos_of_ne_nil hbuff⟩
  exact
    { write := write_eq hmin
      read := read_eq hmin
      write_at := fun _ _ hne hle => write_at_eq hne hle
      write_zeros := write_zeros_eq hpos
      into_iter := into_iter_eq hs }

/-- Nothing is moved, but the first byte is looked up. -/
theorem write_nil (h : ∃ b slice rest, buffers = (b :: slice) :: rest) :
    write buffers [] = .error .outOfBounds := by
  obtain ⟨b, slice, rest, rfl⟩ := h
  rfl

/-- The calls do to the bytes of a buffer what they would do to one array, unless they
have no byte to move. -/
theorem actsFlat_iff (hs : ∀ slice ∈ buffers, slice ≠ []) :
    ActsFlat buffers buff ↔ buff ≠ [] ∨ buffers = [] := by
  constructor
  · intro h
    by_contra hnot
    obtain ⟨hbuff, hbuffers⟩ := not_or.mp hnot
    obtain rfl := not_not.mp hbuff
    obtain ⟨slice, rest, rfl⟩ := List.exists_cons_of_ne_nil hbuffers
    obtain ⟨b, slice, rfl⟩ := List.exists_cons_of_ne_nil (hs slice List.mem_cons_self)
    obtain ⟨buffers', hwrite, -⟩ := h.write
    rw [write_nil ⟨b, slice, rest, rfl⟩] at hwrite
    cases hwrite
  · rintro (hbuff | rfl)
    · cases buffers with
      | nil => exact actsFlat_nil buff
      | cons slice rest => exact actsFlat_of_pos hs (List.cons_ne_nil _ _) hbuff
    · exact actsFlat_nil buff

/-- Three bytes in two slices. -/
theorem actsFlat_two_slices : ActsFlat [[1], [2, 3]] [7, 8] :=
  (actsFlat_iff (by decide)).mpr (.inl (by decide))

/-- One byte, and nothing to write. -/
theorem not_actsFlat_nothing : ¬∀ (buffers : List (List UInt8)) (buff : List UInt8),
    (∀ slice ∈ buffers, slice ≠ []) → ActsFlat buffers buff := by
  intro h
  obtain ⟨buffers', hwrite, -⟩ := (h [[0]] [] (by decide)).write
  rw [write_nil ⟨0, [], [], rfl⟩] at hwrite
  cases hwrite

end Calls

end UserBuffer

end MyGOS.Mm
