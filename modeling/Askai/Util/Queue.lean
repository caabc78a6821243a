import Askai.Util.Storage

/-!
# The queue of bytes

Any sequence of the functions of `buf.c` on one buffer, against the list of bytes that it stands for.
-/

namespace Askai

open Library

/-- A function of `buf.c` called for a buffer; `commit` is of bytes that the caller wrote into the
room of its last reservation. -/
inductive BufOp where
  | reserve (min max : UInt64)
  | commit (bytes : Bytes)
  | put (bytes : Bytes) (max : UInt64)
  | consume (len : UInt64)
  | cut (off len : UInt64)
  | trim
  | clear
  | wipe

/-- A buffer, and what is left of the room that its last reservation gave. -/
structure BufState where
  buf : StoredBuf := {}
  room : Nat := 0

namespace BufOp

/-- What the functions ask of their callers. -/
def Allowed (s : BufState) : BufOp → Prop
  | commit bytes => bytes.length ≤ s.room
  | put bytes _ => bytes.length < 2 ^ 64
  | consume len => len.toNat ≤ s.buf.peek.length
  | cut off len => off.toNat + len.toNat ≤ s.buf.peek.length
  | _ => True

/-- One call, and its error. -/
def step (memory : Memory) (s : BufState) : BufOp → BufState × Option BufError
  | reserve min max =>
    let r := s.buf.reserve memory min max
    ({ buf := r.buf, room := r.room.toNat }, r.error)
  | commit bytes =>
    ({ buf := (s.buf.write bytes).commit (UInt64.ofNat bytes.length)
       room := s.room - bytes.length }, none)
  | put bytes max =>
    let r := s.buf.put memory bytes max
    ({ buf := r.1 }, r.2)
  | consume len => ({ buf := s.buf.consume len }, none)
  | cut off len => ({ buf := s.buf.cut off len }, none)
  | trim => ({ buf := (s.buf.trim memory).1 }, none)
  | clear => ({ buf := s.buf.clear }, none)
  | wipe => ({ buf := s.buf.wipe }, none)

/-- What a call does to the list of bytes. -/
def refer (bytes : Bytes) (error : Option BufError) : BufOp → Bytes
  | reserve _ _ | trim => bytes
  | commit more => bytes ++ more
  | put more _ => if error.isNone then bytes ++ more else bytes
  | consume len => bytes.drop len.toNat
  | cut off len => bytes.take off.toNat ++ bytes.drop (off.toNat + len.toNat)
  | clear | wipe => []

/-- The size of the class that a call may grow the storage to. -/
def most : BufOp → Nat
  | reserve _ max | put _ max => bufBlock max.toNat
  | _ => 0

end BufOp

/-- The calls made of a zeroed buffer, with what each allocation met, the state they left and the list
of bytes. -/
inductive BufRun : List (Memory × BufOp) → BufState → Bytes → Prop
  | nil : BufRun [] {} []
  | snoc {calls : List (Memory × BufOp)} {s : BufState} {bytes : Bytes} (run : BufRun calls s bytes)
      (memory : Memory) (op : BufOp) (allowed : op.Allowed s) :
      BufRun (calls ++ [(memory, op)]) (op.step memory s).1 (op.refer bytes (op.step memory s).2)

namespace StoredBuf

variable {buf : StoredBuf}

theorem Sound.write (sound : buf.Sound) (bytes : Bytes) (fits : buf.tail.toNat + bytes.length ≤ buf.cap.toNat) :
    let after := (buf.write bytes).commit (UInt64.ofNat bytes.length)
    after.Sound ∧ after.peek = buf.peek ++ bytes ∧ after.cap = buf.cap ∧
      after.tail.toNat = buf.tail.toNat + bytes.length := by
  intro after
  have small := buf.cap.toNat_lt
  have ordered := sound.ordered
  have storage := sound.storage
  have tail : after.tail.toNat = buf.tail.toNat + bytes.length := by
    change (buf.tail + UInt64.ofNat bytes.length).toNat = _
    rw [UInt64.toNat_add, UInt64.toNat_ofNat', Nat.mod_eq_of_lt (a := bytes.length) (by omega),
      Nat.mod_eq_of_lt (by omega)]
  refine ⟨⟨?_, tail ▸ fits, ?_⟩, ?_, rfl, tail⟩
  · change buf.head.toNat ≤ after.tail.toNat
    omega
  · change (overwrite buf.data buf.tail.toNat bytes).length = buf.cap.toNat
    rw [length_overwrite (by omega), storage]
  · rw [peek_eq, peek_eq, tail]
    change between (overwrite buf.data buf.tail.toNat bytes) buf.head.toNat _ = _
    rw [between_append ordered (Nat.le_add_right ..),
      between_overwrite_before (Nat.le_refl _) (by omega), between_overwrite _ _ (by omega)]

theorem Sound.clear (sound : buf.Sound) : buf.clear.Sound ∧ buf.clear.peek = [] :=
  ⟨⟨Nat.le_refl _, Nat.zero_le _, sound.storage⟩, rfl⟩

@[simp]
theorem consume_cap (len : UInt64) : (buf.consume len).cap = buf.cap := by
  rw [StoredBuf.consume]
  split_ifs <;> rfl

@[simp]
theorem cut_cap (off len : UInt64) : (buf.cut off len).cap = buf.cap := by
  rw [StoredBuf.cut]
  split_ifs
  · exact consume_cap len
  · rfl

theorem Sound.consume (sound : buf.Sound) {len : UInt64} (inside : len.toNat ≤ buf.peek.length) :
    (buf.consume len).Sound ∧ (buf.consume len).peek = buf.peek.drop len.toNat := by
  have length := sound.length
  have ordered := sound.ordered
  have small := buf.tail.toNat_lt
  have head : (buf.head + len).toNat = buf.head.toNat + len.toNat := by
    rw [UInt64.toNat_add, Nat.mod_eq_of_lt (by omega)]
  rw [StoredBuf.consume]
  split_ifs with all
  · refine ⟨⟨Nat.le_refl _, Nat.zero_le _, sound.storage⟩, ?_⟩
    rw [← UInt64.toNat_inj, head] at all
    have none_ : (buf.peek.drop len.toNat).length = 0 := by
      rw [List.length_drop]
      omega
    rw [List.length_eq_zero_iff.mp none_]
    rfl
  · refine ⟨⟨?_, sound.inside, sound.storage⟩, ?_⟩
    · change (buf.head + len).toNat ≤ buf.tail.toNat
      omega
    · rw [peek_eq, peek_eq]
      change between buf.data (buf.head + len).toNat buf.tail.toNat = _
      rw [head, between_drop]

theorem Sound.cut (sound : buf.Sound) {off len : UInt64} (inside : off.toNat + len.toNat ≤ buf.peek.length) :
    (buf.cut off len).Sound ∧
      (buf.cut off len).peek = buf.peek.take off.toNat ++ buf.peek.drop (off.toNat + len.toNat) := by
  have length := sound.length
  have ordered := sound.ordered
  have stored := sound.inside
  have storage := sound.storage
  have small := buf.tail.toNat_lt
  rw [StoredBuf.cut]
  split_ifs with none_
  · rw [none_] at inside ⊢
    have done := sound.consume (show len.toNat ≤ buf.peek.length by simpa using inside)
    simpa using done
  · have at_ : (buf.head + off).toNat = buf.head.toNat + off.toNat := by
      rw [UInt64.toNat_add, Nat.mod_eq_of_lt (by omega)]
    have tail : (buf.tail - len).toNat = buf.tail.toNat - len.toNat :=
      UInt64.toNat_sub_of_le _ _ (UInt64.le_iff_toNat_le.mpr (by omega))
    have after : (buf.tail - buf.head - off).toNat = buf.peek.length - off.toNat := by
      rw [UInt64.toNat_sub_of_le _ _ (UInt64.le_iff_toNat_le.mpr (by rw [sound.len]; omega)), sound.len]
    have left : (buf.tail - buf.head - off - len).toNat =
        buf.tail.toNat - (buf.head.toNat + (off.toNat + len.toNat)) := by
      rw [UInt64.toNat_sub_of_le _ _ (UInt64.le_iff_toNat_le.mpr (by omega)), after]
      omega
    have rest : (buf.data.drop ((buf.head + off).toNat + len.toNat)).take
        (buf.tail - buf.head - off - len).toNat = buf.peek.drop (off.toNat + len.toNat) := by
      rw [peek_eq, ← between_drop, between, left, at_, Nat.add_assoc]
    have moved : (buf.peek.drop (off.toNat + len.toNat)).length =
        buf.tail.toNat - len.toNat - (buf.head.toNat + off.toNat) := by
      rw [List.length_drop]
      omega
    dsimp only
    rw [rest, at_]
    refine ⟨⟨?_, ?_, ?_⟩, ?_⟩
    · change buf.head.toNat ≤ (buf.tail - len).toNat
      omega
    · change (buf.tail - len).toNat ≤ buf.cap.toNat
      omega
    · change (overwrite buf.data _ _).length = buf.cap.toNat
      rw [length_overwrite (by omega), storage]
    · rw [peek_eq]
      change between (overwrite buf.data (buf.head.toNat + off.toNat) _) buf.head.toNat (buf.tail - len).toNat = _
      rw [tail, between_append (Nat.le_add_right _ off.toNat) (by omega),
        between_overwrite_before (Nat.le_refl _) (by omega), between_take buf.tail.toNat _ (by omega), ← peek_eq]
      have written := between_overwrite buf.data (buf.peek.drop (off.toNat + len.toNat))
        (show buf.head.toNat + off.toNat ≤ buf.data.length by omega)
      rw [moved, Nat.add_sub_cancel' (by omega)] at written
      rw [written]

theorem Sound.wipe (sound : buf.Sound) : buf.wipe.Sound ∧ buf.wipe.peek = [] := by
  refine ⟨⟨Nat.le_refl _, Nat.zero_le _, ?_⟩, rfl⟩
  change (buf.data.map fun _ => 0).length = buf.cap.toNat
  rw [List.length_map, sound.storage]

theorem Sound.trim (sound : buf.Sound) (memory : Memory) :
    (buf.trim memory).1.Sound ∧ (buf.trim memory).1.peek = buf.peek ∧
      (buf.trim memory).1.cap.toNat ≤ buf.cap.toNat := by
  have len := sound.len
  rw [StoredBuf.trim]
  split_ifs with none_ smaller
  · refine ⟨.empty, ?_, Nat.zero_le _⟩
    rw [none_] at len
    exact (List.length_eq_zero_iff.mp len.symm).symm
  · cases moved : buf.move memory (buf.tail - buf.head) with
    | none => exact ⟨sound, rfl, Nat.le_refl _⟩
    | some after =>
      obtain ⟨-, done, view⟩ := sound.move (Nat.le_of_eq len.symm) moved
      refine ⟨done, congrArg Buf.bytes view, ?_⟩
      have cap : after.cap.toNat = bufBlock (buf.tail - buf.head).toNat := congrArg Buf.cap view
      rw [UInt64.lt_iff_toNat_lt, UInt64.toNat_ofNat', Nat.mod_eq_of_lt (bufBlock_lt (UInt64.toNat_lt _))] at smaller
      change after.cap.toNat ≤ buf.cap.toNat
      omega
  · exact ⟨sound, rfl, Nat.le_refl _⟩

/-- What a reservation gives. -/
structure Served (buf : StoredBuf) (memory : Memory) (min max : UInt64) (r : Reserved) : Prop where
  sound : r.buf.Sound
  stays : r.buf.peek = buf.peek
  failed : ∀ e, r.error = some e → r.buf = buf ∧ r.room = 0
  full : r.error = some .enobufs ↔ max.toNat < buf.peek.length + min.toNat
  memory : r.error = some .enomem → memory.some_ = false
  given : r.error = none → min ≤ r.room ∧ buf.peek.length + r.room.toNat ≤ max.toNat
  room : r.buf.tail.toNat + r.room.toNat ≤ r.buf.cap.toNat
  cap : r.buf.cap.toNat ≤ Nat.max buf.cap.toNat (bufBlock max.toNat)

theorem Sound.served (sound : buf.Sound) (memory : Memory) (min max : UInt64) :
    Served buf memory min max (buf.reserve memory min max) := by
  have reserves := sound.reserve memory min max
  generalize buf.reserve memory min max = r at reserves
  obtain ⟨done, failed, given⟩ := reserves
  have full : bufReserve memory.some_ buf.toBuf min.toNat max.toNat = .error .enobufs ↔
    max.toNat < buf.peek.length + min.toNat := bufReserve_enobufs
  cases result : r.error with
  | some e =>
    obtain ⟨view, same, room⟩ := failed e result
    rw [view] at full
    refine ⟨done, by rw [same], ?_, ?_, ?_, ?_, ?_, ?_⟩
    · rintro _ _
      exact ⟨same, room⟩
    · rw [result, ← full]
      simp
    · intro enomem
      obtain rfl := Option.some.inj (result.symm.trans enomem)
      by_contra some_
      rw [Bool.not_eq_false] at some_
      have fits : buf.toBuf.bytes.length + min.toNat ≤ max.toNat := by
        by_contra more
        cases full.mpr (Nat.not_le.mp more)
      obtain ⟨after, room, given⟩ := bufReserve_some fits
      rw [some_, given] at view
      cases view
    · intro none_
      cases result.symm.trans none_
    · rw [room, same]
      exact sound.inside
    · rw [same]
      exact Nat.le_max_left ..
  | none =>
    have view := given result
    obtain ⟨bytes, least, most⟩ := bufReserve_ok view
    obtain ⟨room, cap⟩ := bufReserve_cap view
    have inside := done.inside
    rw [done.tail_toBuf] at room
    change r.room.toNat ≤ r.buf.cap.toNat - r.buf.tail.toNat at room
    rw [view] at full
    refine ⟨done, bytes, ?_, ?_, ?_, ?_, by omega, cap⟩
    · intro e failed
      cases result.symm.trans failed
    · rw [result, ← full]
      simp
    · intro enomem
      cases result.symm.trans enomem
    · exact fun _ => ⟨UInt64.le_iff_toNat_le.mpr least, most⟩

theorem Sound.put (sound : buf.Sound) (memory : Memory) {bytes : Bytes} (max : UInt64) (small : bytes.length < 2 ^ 64) :
    let r := buf.put memory bytes max
    r.1.Sound ∧ r.1.peek = (if r.2.isNone then buf.peek ++ bytes else buf.peek) ∧
      r.1.cap.toNat ≤ Nat.max buf.cap.toNat (bufBlock max.toNat) := by
  rw [StoredBuf.put]
  split_ifs with none_
  · refine ⟨sound, ?_, Nat.le_max_left ..⟩
    rw [none_, List.append_nil, ite_self]
  · have length : (UInt64.ofNat bytes.length).toNat = bytes.length := Nat.mod_eq_of_lt small
    have served := sound.served memory (UInt64.ofNat bytes.length) max
    dsimp only
    generalize buf.reserve memory (UInt64.ofNat bytes.length) max = r at served ⊢
    cases result : r.error with
    | some e => exact ⟨served.sound, served.stays, served.cap⟩
    | none =>
      have given := (served.given result).1
      have room := served.room
      rw [UInt64.le_iff_toNat_le, length] at given
      obtain ⟨done, peek, cap, -⟩ := served.sound.write bytes (by omega)
      dsimp only at done peek cap ⊢
      rw [cap, peek, served.stays]
      exact ⟨done, rfl, served.cap⟩

end StoredBuf

namespace BufState

/-- The readable bytes and what is left of the room lie inside the storage. -/
structure Sound (s : BufState) : Prop where
  buf : s.buf.Sound
  room : s.buf.tail.toNat + s.room ≤ s.buf.cap.toNat

theorem Sound.of_buf {buf : StoredBuf} (sound : buf.Sound) : Sound { buf } :=
  ⟨sound, sound.inside⟩

/-- What a call leaves. -/
structure Steps (s : BufState) (op : BufOp) (next : BufState × Option BufError) : Prop where
  sound : next.1.Sound
  bytes : next.1.buf.peek = op.refer s.buf.peek next.2
  cap : next.1.buf.cap.toNat ≤ Nat.max s.buf.cap.toNat op.most

theorem Sound.step {s : BufState} (sound : s.Sound) {op : BufOp} (allowed : op.Allowed s)
    (memory : Memory) : Steps s op (op.step memory s) := by
  cases op with
  | reserve min max =>
    have served := sound.buf.served memory min max
    exact ⟨⟨served.sound, served.room⟩, served.stays, served.cap⟩
  | commit bytes =>
    have fits : bytes.length ≤ s.room := allowed
    have room := sound.room
    obtain ⟨done, peek, cap, tail⟩ := sound.buf.write bytes (by omega)
    refine ⟨⟨done, ?_⟩, peek, Nat.le_max_left ..⟩
    change ((s.buf.write bytes).commit (UInt64.ofNat bytes.length)).tail.toNat +
      (s.room - bytes.length) ≤ s.buf.cap.toNat
    omega
  | put bytes max =>
    obtain ⟨done, peek, cap⟩ := sound.buf.put memory max allowed
    exact ⟨.of_buf done, peek, cap⟩
  | consume len =>
    obtain ⟨done, peek⟩ := sound.buf.consume allowed
    refine ⟨.of_buf done, peek, ?_⟩
    change (s.buf.consume len).cap.toNat ≤ _
    rw [StoredBuf.consume_cap]
    exact Nat.le_max_left ..
  | cut off len =>
    obtain ⟨done, peek⟩ := sound.buf.cut allowed
    refine ⟨.of_buf done, peek, ?_⟩
    change (s.buf.cut off len).cap.toNat ≤ _
    rw [StoredBuf.cut_cap]
    exact Nat.le_max_left ..
  | trim =>
    obtain ⟨done, peek, cap⟩ := sound.buf.trim memory
    exact ⟨.of_buf done, peek, Nat.le_trans cap (Nat.le_max_left ..)⟩
  | clear =>
    obtain ⟨done, peek⟩ := sound.buf.clear
    exact ⟨.of_buf done, peek, Nat.le_max_left ..⟩
  | wipe =>
    obtain ⟨done, peek⟩ := sound.buf.wipe
    exact ⟨.of_buf done, peek, Nat.le_max_left ..⟩

end BufState

/-- Over any calls, the readable bytes are the list of bytes, inside the storage. -/
theorem BufRun.holds {calls : List (Memory × BufOp)} {s : BufState} {bytes : Bytes}
    (run : BufRun calls s bytes) : s.Sound ∧ s.buf.peek = bytes := by
  induction run with
  | nil => exact ⟨.of_buf .empty, rfl⟩
  | snoc run memory op allowed ih =>
    obtain ⟨sound, same⟩ := ih
    have steps := sound.step allowed memory
    exact ⟨steps.sound, same ▸ steps.bytes⟩

/-- A call that fails leaves the bytes, and no room. -/
theorem BufState.Sound.failed {s : BufState} (sound : s.Sound) {op : BufOp} {memory : Memory}
    (failed : (op.step memory s).2 ≠ none) :
    (op.step memory s).1.buf.peek = s.buf.peek ∧ (op.step memory s).1.room = 0 := by
  cases op with
  | reserve min max =>
    obtain ⟨e, error⟩ := Option.ne_none_iff_exists'.mp failed
    obtain ⟨same, room⟩ := (sound.buf.served memory min max).failed e error
    exact ⟨congrArg StoredBuf.peek same, congrArg UInt64.toNat room⟩
  | put bytes max =>
    obtain ⟨e, error⟩ := Option.ne_none_iff_exists'.mp failed
    refine ⟨?_, rfl⟩
    change (s.buf.put memory bytes max).2 = some e at error
    change (s.buf.put memory bytes max).1.peek = s.buf.peek
    rw [StoredBuf.put] at error ⊢
    by_cases none_ : bytes = []
    · rw [if_pos none_] at error
      cases error
    · rw [if_neg none_] at error ⊢
      have served := sound.buf.served memory (UInt64.ofNat bytes.length) max
      dsimp only at error ⊢
      generalize s.buf.reserve memory (UInt64.ofNat bytes.length) max = r at served error ⊢
      cases result : r.error with
      | some e => exact served.stays
      | none =>
        rw [result] at error
        cases error
  | commit | consume | cut | trim | clear | wipe => exact absurd rfl failed

/-- A buffer is a queue of bytes: whatever was called, the readable bytes are the list, inside the
storage; a reservation fails for want of room only where the list and the bytes asked for are more than
`max`, and gives what was asked for where it does not fail; a failed call leaves the bytes as they were
and no room; and storage grows no larger than the class that holds `max`. -/
theorem buf_queue {calls : List (Memory × BufOp)} {s : BufState} {bytes : Bytes} (run : BufRun calls s bytes) :
    s.buf.peek = bytes ∧ s.buf.head ≤ s.buf.tail ∧ s.buf.tail ≤ s.buf.cap ∧ s.buf.data.length = s.buf.cap.toNat ∧
      (∀ memory min max, let r := s.buf.reserve memory min max
        (r.error = some .enobufs ↔ max.toNat < bytes.length + min.toNat) ∧
          (r.error = some .enomem → memory.some_ = false) ∧
          (r.error = none → min ≤ r.room ∧ bytes.length + r.room.toNat ≤ max.toNat ∧
            r.buf.tail.toNat + r.room.toNat ≤ r.buf.cap.toNat) ∧ (r.error ≠ none → r.buf = s.buf ∧ r.room = 0)) ∧
      ∀ memory (op : BufOp), op.Allowed s → let next := op.step memory s
        next.1.buf.peek = op.refer bytes next.2 ∧ (next.2 ≠ none → next.1.buf.peek = bytes ∧ next.1.room = 0) ∧
          next.1.buf.cap.toNat ≤ Nat.max s.buf.cap.toNat op.most := by
  obtain ⟨sound, rfl⟩ := run.holds
  have buf := sound.buf
  refine ⟨rfl, UInt64.le_iff_toNat_le.mpr buf.ordered, UInt64.le_iff_toNat_le.mpr buf.inside,
    buf.storage, fun memory min max => ?_, fun memory op allowed => ?_⟩
  · have served := buf.served memory min max
    refine ⟨served.full, served.memory, fun given => ?_, fun failed => ?_⟩
    · exact ⟨(served.given given).1, (served.given given).2, served.room⟩
    · obtain ⟨e, error⟩ := Option.ne_none_iff_exists'.mp failed
      exact served.failed e error
  · have steps := sound.step allowed memory
    exact ⟨steps.bytes, fun failed => sound.failed failed, steps.cap⟩

/-- Two bytes put and the first consumed. -/
theorem buf_queue_two : ∃ s : BufState, s.buf.peek = [66] ∧ s.buf.head ≤ s.buf.tail := by
  have put := BufRun.nil.snoc ⟨true, fun _ => 7⟩ (.put [65, 66] 10) (by decide : 2 < 2 ^ 64)
  have two := (buf_queue put).1
  have consumed := put.snoc ⟨true, fun _ => 7⟩ (.consume 1) (by
    change (1 : UInt64).toNat ≤ List.length _
    rw [two]
    decide)
  have queue := buf_queue consumed
  exact ⟨_, queue.1, queue.2.1⟩

end Askai
