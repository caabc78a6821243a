import Askai.Library.Bytes
import Mathlib.Tactic

/-!
# Byte buffers

What a buffer has room for (`buf_reserve` of `buf.c`).
-/

namespace Askai

open Library

/-- The most bytes of an answer (`MAX_RESPONSE`). -/
abbrev maxResponse : Nat := 16 * 1048576

/-- `struct buf`: the readable bytes, how many bytes of the storage come before them, and its size. -/
structure Buf where
  bytes : Bytes := []
  head : Nat := 0
  cap : Nat := 0
  deriving DecidableEq, Repr

namespace Buf

def tail (buf : Buf) : Nat :=
  buf.head + buf.bytes.length

/-- `buf_consume`. -/
def consume (buf : Buf) (len : Nat) : Buf :=
  { buf with
    bytes := buf.bytes.drop len
    head := if buf.bytes.length ≤ len then 0 else buf.head + len }

/-- `buf_commit`, of the bytes written into the last reservation. -/
def commit (buf : Buf) (bytes : Bytes) : Buf :=
  { buf with bytes := buf.bytes ++ bytes }

end Buf

/-- `buf_class`. -/
def bufClass (size : Nat) : Nat :=
  (if 1 < size then Nat.log2 (size - 1) + 1 else 0) - 12

/-- `buf_block`: the size of the storage that holds `size` bytes. -/
def bufBlock (size : Nat) : Nat :=
  if bufClass size < 14 then 2 ^ (12 + bufClass size) else size

/-- `enum buf_pressure`. -/
inductive BufPressure where
  | easy
  | high
  | critical
  deriving DecidableEq, Repr

inductive BufError where
  | enobufs
  | enomem
  deriving DecidableEq, Repr

/-- The storage that `buf_reserve` makes sure of, when there is `memory`. -/
def bufGrow (memory : Bool) (buf : Buf) (min max : Nat) : Except BufError Buf :=
  if buf.cap - buf.tail < min then
    let need := buf.bytes.length + min
    if buf.cap < need ∨ buf.head < buf.cap / 2 ∧ buf.cap < max then
      let size := if max / 2 < buf.cap then max else 2 * buf.cap
      if memory then .ok { buf with head := 0, cap := bufBlock (if need < size then size else need) }
      else .error .enomem
    else .ok { buf with head := 0 }
  else .ok buf

/-- `buf_reserve`: also the bytes of room it gives. -/
def bufReserve (memory : Bool) (buf : Buf) (min max : Nat) : Except BufError (Buf × Nat) :=
  if max < buf.bytes.length ∨ max - buf.bytes.length < min then .error .enobufs
  else
    (bufGrow memory buf min max).map fun buf =>
      let n := buf.cap - buf.tail
      (buf, if max - buf.bytes.length < n then max - buf.bytes.length else n)

/-! ## What it has room for -/

theorem le_bufBlock (size : Nat) : size ≤ bufBlock size := by
  rw [bufBlock]
  split
  · rcases Nat.lt_or_ge 1 size with more | few
    · have bits : size - 1 < 2 ^ (Nat.log2 (size - 1) + 1) := Nat.lt_log2_self
      have grows : 2 ^ (Nat.log2 (size - 1) + 1) ≤ 2 ^ (12 + bufClass size) := by
        apply Nat.pow_le_pow_right (by decide)
        rw [bufClass, if_pos more]
        omega
      omega
    · exact Nat.le_trans few (Nat.one_le_two_pow)
  · exact Nat.le_refl _

theorem bufBlock_mono {m n : Nat} (less : m ≤ n) : bufBlock m ≤ bufBlock n := by
  have bits : (if 1 < m then Nat.log2 (m - 1) + 1 else 0) ≤ if 1 < n then Nat.log2 (n - 1) + 1 else 0 := by
    split
    · rename_i more
      rw [if_pos (by omega)]
      apply Nat.succ_le_succ
      rw [Nat.le_log2 (by omega)]
      exact Nat.le_trans (Nat.log2_self_le (by omega)) (by omega)
    · exact Nat.zero_le _
  have classes : bufClass m ≤ bufClass n := Nat.sub_le_sub_right bits 12
  rw [bufBlock, bufBlock]
  split
  · split
    · exact Nat.pow_le_pow_right (by decide) (by omega)
    · rename_i small large
      have lower : 2 ^ (12 + bufClass m) ≤ 2 ^ 25 := Nat.pow_le_pow_right (by decide) (by omega)
      have upper : 2 ^ 25 ≤ n := by
        by_contra short
        have bound : Nat.log2 (n - 1) < 25 := by
          rcases Nat.eq_zero_or_pos (n - 1) with none_ | some_
          · rw [none_]
            decide
          · exact (Nat.log2_lt (by omega)).mpr (by omega)
        rw [bufClass] at large
        split at large <;> omega
      omega
  · rw [if_neg (by omega)]
    exact less

variable {memory : Bool} {buf after : Buf} {min max room : Nat}

/-- The storage holds the bytes and the room asked for, and the bytes stay. -/
theorem bufGrow_ok (grown : bufGrow memory buf min max = .ok after) :
    after.bytes = buf.bytes ∧ min ≤ after.cap - after.tail := by
  rw [bufGrow] at grown
  split at grown
  · next less =>
      dsimp only at grown
      split at grown
      · split at grown
        · obtain rfl := Except.ok.inj grown
          refine ⟨rfl, ?_⟩
          have holds := le_bufBlock
          generalize (if max / 2 < buf.cap then max else 2 * buf.cap) = size
          change min ≤ bufBlock (if buf.bytes.length + min < size then size
            else buf.bytes.length + min) - (0 + buf.bytes.length)
          rcases Nat.lt_or_ge (buf.bytes.length + min) size with larger | smaller
          · rw [if_pos larger]
            have here := holds size
            omega
          · rw [if_neg (Nat.not_lt_of_le smaller)]
            have here := holds (buf.bytes.length + min)
            omega
        · cases grown
      · next fits =>
          obtain rfl := Except.ok.inj grown
          refine ⟨rfl, ?_⟩
          change min ≤ buf.cap - (0 + buf.bytes.length)
          omega
  · next enough =>
      obtain rfl := Except.ok.inj grown
      exact ⟨rfl, Nat.le_of_not_lt enough⟩

/-- Storage grows no larger than the class that holds `max`. -/
theorem bufGrow_cap (fits : buf.bytes.length + min ≤ max)
    (grown : bufGrow memory buf min max = .ok after) : after.cap ≤ Nat.max buf.cap (bufBlock max) := by
  rw [bufGrow] at grown
  dsimp only at grown
  have least : (if buf.bytes.length + min < (if max / 2 < buf.cap then max else 2 * buf.cap) then
      (if max / 2 < buf.cap then max else 2 * buf.cap) else buf.bytes.length + min) ≤ max := by
    split_ifs <;> omega
  generalize (if buf.bytes.length + min < (if max / 2 < buf.cap then max else 2 * buf.cap) then
      (if max / 2 < buf.cap then max else 2 * buf.cap) else buf.bytes.length + min) = size at grown least
  split_ifs at grown with less moves some_
  all_goals obtain rfl := Except.ok.inj grown
  · exact Nat.le_trans (bufBlock_mono least) (Nat.le_max_right ..)
  · exact Nat.le_max_left ..
  · exact Nat.le_max_left ..

/-- Whoever gets room gets as much as was asked for. -/
theorem bufReserve_ok (reserved : bufReserve memory buf min max = .ok (after, room)) :
    after.bytes = buf.bytes ∧ min ≤ room ∧ buf.bytes.length + room ≤ max := by
  rw [bufReserve] at reserved
  split at reserved
  · cases reserved
  · next fits =>
      cases grown : bufGrow memory buf min max with
      | error e =>
        rw [grown] at reserved
        cases reserved
      | ok bigger =>
        rw [grown] at reserved
        obtain ⟨same, rfl⟩ := Prod.mk.inj (Except.ok.inj reserved)
        rw [same] at grown
        obtain ⟨bytes, free⟩ := bufGrow_ok grown
        rw [same, bytes]
        refine ⟨rfl, ?_, ?_⟩
        · split <;> omega
        · split <;> omega

/-- The room lies in the storage, which grows no larger than the class that holds `max`. -/
theorem bufReserve_cap (reserved : bufReserve memory buf min max = .ok (after, room)) :
    room ≤ after.cap - after.tail ∧ after.cap ≤ Nat.max buf.cap (bufBlock max) := by
  rw [bufReserve] at reserved
  split at reserved
  · cases reserved
  · next fits =>
      cases grown : bufGrow memory buf min max with
      | error e =>
        rw [grown] at reserved
        cases reserved
      | ok bigger =>
        rw [grown] at reserved
        obtain ⟨same, rfl⟩ := Prod.mk.inj (Except.ok.inj reserved)
        rw [same] at grown
        refine ⟨?_, bufGrow_cap (by omega) grown⟩
        rw [same]
        split <;> omega

/-- There is no room only for more bytes than the buffer may hold. -/
theorem bufReserve_enobufs : bufReserve memory buf min max = .error .enobufs ↔ max < buf.bytes.length + min := by
  rw [bufReserve]
  split
  · next full => exact iff_of_true rfl (by omega)
  · next fits =>
      refine iff_of_false ?_ (by omega)
      cases grown : bufGrow memory buf min max with
      | error e =>
        rintro ⟨⟩
        rw [bufGrow] at grown
        split at grown
        · dsimp only at grown
          split at grown
          · split at grown <;> cases grown
          · cases grown
        · cases grown
      | ok bigger => nofun

/-- Where memory is left, there is room for what the buffer may hold. -/
theorem bufReserve_some (fits : buf.bytes.length + min ≤ max) :
    ∃ after room, bufReserve true buf min max = .ok (after, room) := by
  rw [bufReserve, if_neg (by omega), bufGrow]
  split
  · dsimp only
    split
    · exact ⟨_, _, rfl⟩
    · exact ⟨_, _, rfl⟩
  · exact ⟨_, _, rfl⟩

end Askai
