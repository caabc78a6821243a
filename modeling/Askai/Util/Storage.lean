import Askai.Library.Bytes
import Askai.Util.Buf

/-!
# The storage of a byte buffer

`struct buf` with the storage it lies in, every byte of it, and the machine's arithmetic (`buf.c`).
What readers see is the list of bytes of `Buf`.
-/

namespace Askai

open Library

/-- `struct buf`: `data` is the storage, none where `cap` is 0. -/
structure StoredBuf where
  data : Bytes := []
  head : UInt64 := 0
  tail : UInt64 := 0
  cap : UInt64 := 0
  deriving DecidableEq, Repr

/-- What an allocation meets: whether there is memory, and the bytes that the storage held before. -/
structure Memory where
  some_ : Bool
  stale : Nat → UInt8

/-- What `buf_reserve` leaves: the buffer, the length of the room and the error, none for 0. -/
structure Reserved where
  buf : StoredBuf
  room : UInt64
  error : Option BufError

namespace StoredBuf

/-- `buf_peek`. -/
def peek (buf : StoredBuf) : Bytes :=
  if buf.head < buf.tail then between buf.data buf.head.toNat buf.tail.toNat else []

/-- `buf_move`: none for `ENOMEM`. -/
def move (memory : Memory) (buf : StoredBuf) (size : UInt64) : Option StoredBuf :=
  if memory.some_ then
    let cap := bufBlock size.toNat
    let data := (List.range cap).map memory.stale
    some
      { data := overwrite data 0 (between buf.data buf.head.toNat buf.tail.toNat)
        head := 0
        tail := buf.tail - buf.head
        cap := UInt64.ofNat cap }
  else none

/-- The storage that `buf_reserve` makes sure of: none for `ENOMEM`. -/
def grow (memory : Memory) (buf : StoredBuf) (min max : UInt64) : Option StoredBuf :=
  let len := buf.tail - buf.head
  if buf.cap - buf.tail < min then
    let need := len + min
    let cap := buf.cap
    if cap < need ∨ buf.head < cap / 2 ∧ cap < max then
      let size := if max / 2 < cap then max else 2 * cap
      buf.move memory (if need < size then size else need)
    else if buf.head ≠ 0 then
      some { buf with
        data := overwrite buf.data 0 (between buf.data buf.head.toNat buf.tail.toNat)
        head := 0
        tail := len }
    else some buf
  else some buf

/-- `buf_reserve`. -/
def reserve (memory : Memory) (buf : StoredBuf) (min max : UInt64) : Reserved :=
  let len := buf.tail - buf.head
  if max < len ∨ max - len < min then { buf, room := 0, error := some .enobufs }
  else
    match buf.grow memory min max with
    | none => { buf, room := 0, error := some .enomem }
    | some buf =>
      let n := buf.cap - buf.tail
      { buf, room := if max - len < n then max - len else n, error := none }

/-- What the caller writes at the end of the readable bytes, where its room begins. -/
def write (buf : StoredBuf) (bytes : Bytes) : StoredBuf :=
  { buf with data := overwrite buf.data buf.tail.toNat bytes }

/-- `buf_commit`. -/
def commit (buf : StoredBuf) (len : UInt64) : StoredBuf :=
  { buf with tail := buf.tail + len }

/-- `buf_put`. -/
def put (memory : Memory) (buf : StoredBuf) (bytes : Bytes) (max : UInt64) : StoredBuf × Option BufError :=
  if bytes = [] then (buf, none)
  else
    let len := UInt64.ofNat bytes.length
    let r := buf.reserve memory len max
    match r.error with
    | some e => (r.buf, some e)
    | none => ((r.buf.write bytes).commit len, none)

/-- `buf_consume`. -/
def consume (buf : StoredBuf) (len : UInt64) : StoredBuf :=
  let head := buf.head + len
  if head = buf.tail then { buf with head := 0, tail := 0 } else { buf with head }

/-- `buf_clear`. -/
def clear (buf : StoredBuf) : StoredBuf :=
  { buf with head := 0, tail := 0 }

/-- `buf_cut`. -/
def cut (buf : StoredBuf) (off len : UInt64) : StoredBuf :=
  if off = 0 then buf.consume len
  else
    let at_ := (buf.head + off).toNat
    let n := (buf.tail - buf.head - off - len).toNat
    { buf with
      data := overwrite buf.data at_ ((buf.data.drop (at_ + len.toNat)).take n)
      tail := buf.tail - len }

/-- `buf_trim`: also the bytes moved. -/
def trim (memory : Memory) (buf : StoredBuf) : StoredBuf × UInt64 :=
  let len := buf.tail - buf.head
  if len = 0 then ({}, 0)
  else if UInt64.ofNat (bufBlock len.toNat) < buf.cap then
    match buf.move memory len with
    | some moved => (moved, len)
    | none => (buf, 0)
  else (buf, 0)

/-- `buf_wipe`. -/
def wipe (buf : StoredBuf) : StoredBuf :=
  { buf with data := buf.data.map fun _ => 0, head := 0, tail := 0 }

end StoredBuf

theorem bufBlock_lt {size : Nat} (small : size < 2 ^ 64) : bufBlock size < 2 ^ 64 := by
  rw [bufBlock]
  split
  · exact Nat.pow_lt_pow_right (by decide) (by omega)
  · exact small

namespace StoredBuf

variable {buf : StoredBuf} {memory : Memory}

/-- The readable bytes lie inside the storage. -/
structure Sound (buf : StoredBuf) : Prop where
  ordered : buf.head.toNat ≤ buf.tail.toNat
  inside : buf.tail.toNat ≤ buf.cap.toNat
  storage : buf.data.length = buf.cap.toNat

/-- What a reader sees of the buffer. -/
def toBuf (buf : StoredBuf) : Buf :=
  { bytes := buf.peek, head := buf.head.toNat, cap := buf.cap.toNat }

theorem peek_eq (buf : StoredBuf) : buf.peek = between buf.data buf.head.toNat buf.tail.toNat := by
  rw [peek]
  split
  · rfl
  · rename_i less
    rw [UInt64.lt_iff_toNat_lt] at less
    rw [between, Nat.sub_eq_zero_of_le (by omega), List.take_zero]

theorem Sound.empty : Sound {} :=
  ⟨Nat.le_refl _, Nat.le_refl _, rfl⟩

theorem Sound.length (sound : buf.Sound) : buf.peek.length = buf.tail.toNat - buf.head.toNat := by
  rw [peek_eq, length_between (sound.storage ▸ sound.inside)]

theorem Sound.tail_toBuf (sound : buf.Sound) : buf.toBuf.tail = buf.tail.toNat := by
  have ordered := sound.ordered
  rw [Buf.tail, toBuf, sound.length]
  exact Nat.add_sub_cancel' ordered

theorem Sound.len (sound : buf.Sound) : (buf.tail - buf.head).toNat = buf.peek.length := by
  rw [sound.length, UInt64.toNat_sub_of_le _ _ (UInt64.le_iff_toNat_le.mpr sound.ordered)]

theorem Sound.free (sound : buf.Sound) : (buf.cap - buf.tail).toNat = buf.cap.toNat - buf.tail.toNat :=
  UInt64.toNat_sub_of_le _ _ (UInt64.le_iff_toNat_le.mpr sound.inside)

/-- The readable bytes stand at the beginning of storage that they are moved to. -/
theorem Sound.moved (sound : buf.Sound) (data : Bytes) (cap : UInt64) (length : data.length = cap.toNat)
    (fits : buf.peek.length ≤ cap.toNat) :
    let after : StoredBuf :=
      { data := overwrite data 0 (between buf.data buf.head.toNat buf.tail.toNat)
        head := 0
        tail := buf.tail - buf.head
        cap }
    after.Sound ∧ after.toBuf = { bytes := buf.peek, head := 0, cap := cap.toNat } := by
  intro after
  have tail : after.tail.toNat = buf.peek.length := sound.len
  have whole : after.peek = buf.peek := by
    rw [peek_eq, tail]
    change between (overwrite data 0 (between buf.data buf.head.toNat buf.tail.toNat)) 0 _ = _
    rw [← peek_eq]
    have written := between_overwrite data buf.peek (Nat.zero_le _)
    rwa [Nat.zero_add] at written
  refine ⟨⟨Nat.zero_le _, tail ▸ fits, ?_⟩, ?_⟩
  · change (overwrite data 0 _).length = cap.toNat
    rw [← peek_eq, length_overwrite (by omega), length]
  · rw [toBuf, whole]
    rfl

theorem Sound.move (sound : buf.Sound) {size : UInt64} (fits : buf.peek.length ≤ size.toNat)
    {after : StoredBuf} (moved : buf.move memory size = some after) : memory.some_ = true ∧ after.Sound ∧
      after.toBuf = { bytes := buf.peek, head := 0, cap := bufBlock size.toNat } := by
  rw [StoredBuf.move] at moved
  split at moved
  · rename_i some_
    obtain rfl := Option.some.inj moved
    have cap : (UInt64.ofNat (bufBlock size.toNat)).toNat = bufBlock size.toNat :=
      Nat.mod_eq_of_lt (bufBlock_lt size.toNat_lt)
    have larger := le_bufBlock size.toNat
    have done := sound.moved ((List.range (bufBlock size.toNat)).map memory.stale)
      (UInt64.ofNat (bufBlock size.toNat)) (by simp [cap]) (by omega)
    rw [cap] at done
    exact ⟨some_, done⟩
  · cases moved

/-- What a reservation leaves is what a reader's view of the buffer has it leave. -/
structure Reserves (buf : StoredBuf) (r : Reserved) (view : Except BufError (Buf × Nat)) : Prop where
  sound : r.buf.Sound
  failed : ∀ e, r.error = some e → view = .error e ∧ r.buf = buf ∧ r.room = 0
  given : r.error = none → view = .ok (r.buf.toBuf, r.room.toNat)

/-- The room at the end of storage that is ready for it. -/
theorem Sound.room (sound : buf.Sound) {max len : UInt64} (fits : buf.peek.length ≤ max.toNat)
    (length : len.toNat = buf.peek.length) :
    (if max - len < buf.cap - buf.tail then max - len else buf.cap - buf.tail).toNat =
      if max.toNat - buf.peek.length < buf.cap.toNat - buf.toBuf.tail then
        max.toNat - buf.peek.length
      else buf.cap.toNat - buf.toBuf.tail := by
  have left : (max - len).toNat = max.toNat - buf.peek.length := by
    rw [UInt64.toNat_sub_of_le _ _ (UInt64.le_iff_toNat_le.mpr (by omega)), length]
  have free := sound.free
  rw [sound.tail_toBuf]
  simp only [UInt64.lt_iff_toNat_lt, left, free]
  split
  · exact left
  · exact free

theorem Sound.grow (sound : buf.Sound) (memory : Memory) {min max : UInt64}
    (fits : buf.peek.length + min.toNat ≤ max.toNat) :
    match buf.grow memory min max with
    | none => bufGrow memory.some_ buf.toBuf min.toNat max.toNat = .error .enomem
    | some after => after.Sound ∧ after.peek = buf.peek ∧
        bufGrow memory.some_ buf.toBuf min.toNat max.toNat = .ok after.toBuf := by
  have len := sound.len
  have length := sound.length
  have free := sound.free
  have ordered := sound.ordered
  have inside := sound.inside
  have small := max.toNat_lt
  have bytes : buf.toBuf.bytes = buf.peek := rfl
  have cap : buf.toBuf.cap = buf.cap.toNat := rfl
  have head : buf.toBuf.head = buf.head.toNat := rfl
  have need : (buf.tail - buf.head + min).toNat = buf.peek.length + min.toNat := by
    rw [UInt64.toNat_add, len, Nat.mod_eq_of_lt (by omega)]
  have half : ∀ n : UInt64, (n / 2).toNat = n.toNat / 2 := fun n => UInt64.toNat_div n 2
  have size : (if max.toNat / 2 < buf.cap.toNat then max else 2 * buf.cap).toNat =
      if max.toNat / 2 < buf.cap.toNat then max.toNat else 2 * buf.cap.toNat := by
    split
    · rfl
    · rw [UInt64.toNat_mul]
      exact Nat.mod_eq_of_lt (by change 2 * buf.cap.toNat < 2 ^ 64; omega)
  rw [StoredBuf.grow, bufGrow, sound.tail_toBuf, bytes, cap, head]
  simp only [UInt64.lt_iff_toNat_lt, free, need, half]
  rw [← size]
  generalize (if max.toNat / 2 < buf.cap.toNat then max else 2 * buf.cap) = chosen
  generalize target : (if buf.peek.length + min.toNat < chosen.toNat then chosen
    else buf.tail - buf.head + min) = least
  have same : (if buf.peek.length + min.toNat < chosen.toNat then chosen.toNat
      else buf.peek.length + min.toNat) = least.toNat := by
    rw [← target, apply_ite UInt64.toNat, need]
  rw [same]
  by_cases short : buf.cap.toNat - buf.tail.toNat < min.toNat
  · simp only [if_pos short]
    by_cases grows : buf.cap.toNat < buf.peek.length + min.toNat ∨
        buf.head.toNat < buf.cap.toNat / 2 ∧ buf.cap.toNat < max.toNat
    · simp only [if_pos grows]
      have holds : buf.peek.length ≤ least.toNat := by
        rw [← same]
        split <;> omega
      cases moved : buf.move memory least with
      | none =>
        have empty : memory.some_ = false := by
          simpa [StoredBuf.move] using moved
        dsimp only
        rw [empty]
        rfl
      | some after =>
        obtain ⟨some_, done, view⟩ := sound.move holds moved
        dsimp only
        rw [some_, if_pos rfl, view]
        exact ⟨done, congrArg Buf.bytes view, rfl⟩
    · simp only [if_neg grows]
      by_cases moves : buf.head ≠ 0
      · rw [if_pos moves]
        obtain ⟨done, view⟩ := sound.moved _ _ sound.storage (by omega)
        exact ⟨done, congrArg Buf.bytes view, congrArg Except.ok view.symm⟩
      · rw [if_neg moves]
        have still : buf.head.toNat = 0 := by
          rw [not_not.mp moves]
          rfl
        refine ⟨sound, rfl, ?_⟩
        rw [toBuf, still]
  · simp only [if_neg short]
    exact ⟨sound, trivial, trivial⟩

/-- A reservation is what a reader's view of the buffer has it be. -/
theorem Sound.reserve (sound : buf.Sound) (memory : Memory) (min max : UInt64) :
    Reserves buf (buf.reserve memory min max) (bufReserve memory.some_ buf.toBuf min.toNat max.toNat) := by
  have len := sound.len
  have bytes : buf.toBuf.bytes = buf.peek := rfl
  have refused : (max < buf.tail - buf.head ∨ max - (buf.tail - buf.head) < min) ↔
      (max.toNat < buf.peek.length ∨ max.toNat - buf.peek.length < min.toNat) := by
    rw [UInt64.lt_iff_toNat_lt, UInt64.lt_iff_toNat_lt, len]
    rcases Nat.lt_or_ge max.toNat buf.peek.length with more | enough
    · exact iff_of_true (.inl more) (.inl more)
    · rw [UInt64.toNat_sub_of_le _ _ (UInt64.le_iff_toNat_le.mpr (by omega)), len]
  rw [StoredBuf.reserve, bufReserve, bytes]
  by_cases full : max.toNat < buf.peek.length ∨ max.toNat - buf.peek.length < min.toNat
  · simp only [if_pos (refused.mpr full), if_pos full]
    refine ⟨sound, ?_, by simp⟩
    rintro e ⟨⟩
    exact ⟨rfl, rfl, rfl⟩
  · simp only [if_neg (mt refused.mp full), if_neg full]
    have fits : buf.peek.length + min.toNat ≤ max.toNat := by omega
    have grows := sound.grow memory fits
    cases grown : buf.grow memory min max with
    | none =>
      rw [grown] at grows
      dsimp only at grows ⊢
      rw [grows]
      refine ⟨sound, ?_, by simp⟩
      rintro e ⟨⟩
      exact ⟨rfl, rfl, rfl⟩
    | some after =>
      rw [grown] at grows
      obtain ⟨done, same, view⟩ := grows
      dsimp only
      rw [view]
      refine ⟨done, by simp, fun _ => ?_⟩
      rw [← same] at fits len
      have room := done.room (Nat.le_of_add_right_le fits) len
      rw [room]
      rfl

end StoredBuf

end Askai
