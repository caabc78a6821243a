import Askai.Util.DstrOps

/-!
# Text put into a dynamic string, and taken out

The appends, `dstr_printf` and `dstr_erase`.
-/

namespace Askai

open Library List

variable {S : DstrSize} {A : Allocator sizeTop} {arena : Arena} {s raw : Bytes} {own : Option Nat}

theorem dstrReserve_room (settled : arena.memory.Settled sizeTop) (legal : DstrLegal S arena.memory s raw own)
    {len : Nat} (size : len < sizeTop) (exactly : Bool) :
    match dstrReserve_ A raw len exactly arena with
    | (true, raw', after) => DstrLeads S arena.memory own after.memory raw' s ∧
        (len ≤ (dstrInfo raw).space → raw' = raw) ∧ ((dstrInfo raw).space < len → DstrGrown raw len exactly raw')
    | (false, raw', after) => raw' = raw ∧ after.memory = arena.memory ∧ (dstrInfo raw).space < len ∧
        DstrFull A arena.calls raw len exactly := by
  have state := (legal.info settled).1
  rw [dstrReserve_, if_neg state]
  by_cases room : len ≤ (dstrInfo raw).space
  · rw [if_pos room]
    exact ⟨legal.stays settled, fun _ => rfl, fun short => absurd room (Nat.not_le.mpr short)⟩
  · rw [if_neg room]
    have spec := dstrGrow_spec (A := A) settled legal size exactly
    split at spec
    · next raw' after given =>
      rw [given]
      exact spec
    · next e raw' after given =>
      rw [given]
      exact ⟨rfl, spec.2⟩

/-- After room was made, there is room. -/
theorem DstrGrown.has {len : Nat} {exactly : Bool} {raw' : Bytes} (same : len ≤ (dstrInfo raw).space → raw' = raw)
    (grown : (dstrInfo raw).space < len → DstrGrown raw len exactly raw') : len ≤ (dstrInfo raw').space := by
  by_cases room : len ≤ (dstrInfo raw).space
  · rw [same room]
    exact room
  · exact (grown (Nat.not_le.mp room)).room

/-- The terminator of a string in place is there already, also where it is the meta byte. -/
theorem dstrInPlace_terminator (s : Bytes) : (dstrInPlace S.size s).set s.length 0 = dstrInPlace S.size s := by
  rw [dstrInPlace, append_assoc, set_append_right _ _ (le_refl _), Nat.sub_self]
  cases S.size - 1 - s.length with
  | zero => rfl
  | succ k => rfl

theorem DstrBuf.append {m : RawMemory} {buf size : Nat} {text : Bytes} (settled : m.Settled sizeTop)
    (holds : DstrBuf m buf size s) (room : s.length + text.length < size) :
    DstrBuf (m.write (buf + s.length) text) buf size (s ++ text) ∧
      m.Change sizeTop (some buf) (m.write (buf + s.length) text) (some buf) := by
  apply holds.put settled s.length room.le
  · rw [length_append]
    exact room
  · rw [padded_append, length_append, Nat.sub_sub]

theorem DstrBuf.terminator {m : RawMemory} {buf size : Nat} (settled : m.Settled sizeTop)
    (holds : DstrBuf m buf size s) : DstrBuf (m.write (buf + s.length) [0]) buf size s ∧
      m.Change sizeTop (some buf) (m.write (buf + s.length) [0]) (some buf) := by
  have inside := holds.inside
  refine holds.put settled s.length (by rw [length_singleton]; exact inside) inside ?_
  rw [padded_append, append_assoc, show ([0] : Bytes) = zeros 1 from rfl, zeros_append, length_replicate]
  congr 2
  omega

theorem dstrCatN_spec (settled : arena.memory.Settled sizeTop) (legal : DstrLegal S arena.memory s raw own)
    {text : Bytes} (size : text.length < sizeTop) :
    match dstrCatN A raw (some text) text.length arena with
    | (true, raw', after) => DstrLeads S arena.memory own after.memory raw' (s ++ text)
    | (false, raw', after) => raw' = raw ∧ after.memory = arena.memory ∧ (dstrInfo raw).space < text.length ∧
        DstrFull A arena.calls raw text.length false := by
  rw [dstrCatN]
  by_cases none_ : text.length = 0
  · rw [if_pos none_, length_eq_zero_iff.mp none_, append_nil]
    exact legal.stays settled
  · rw [if_neg none_]
    have spec := dstrReserve_room (A := A) settled legal size false
    dsimp only
    split at spec
    · next raw' after given =>
      rw [given]
      obtain ⟨⟨own', legal', change⟩, same, grown⟩ := spec
      have room := DstrGrown.has same grown
      dsimp only
      rw [take_length]
      cases legal' with
      | inPlace short =>
        rw [dstrInfo_inPlace short] at room
        have fits : s.length + text.length < S.size := by
          change text.length ≤ S.size - 1 - s.length at room
          omega
        rw [if_pos (dstrIsSso_inPlace short), dstrSsoLen_inPlace short, dstrInPlace_append fits,
          ← length_append, dstrInPlace_terminator]
        refine ⟨none, .inPlace ?_, change⟩
        rw [length_append]
        exact fits
      | onHeap buf blocks n least most holds =>
        have below := holds.below change.settled
        rw [dstrInfo_onHeap (holds.nonnull change.settled) below least (blocks_lt most) holds.inside] at room
        have fits : s.length + text.length < blocks * dstrBlkSize := by
          have inside : s.length < blocks * 256 := holds.inside
          change text.length ≤ blocks * 256 - 1 - s.length at room
          change _ < blocks * 256
          omega
        rw [dstrIsSso_onHeap, if_neg nofun, dstrUptr_one_onHeap below, Nat.add_assoc, dstrSetUptr_one_onHeap,
          ← length_append]
        obtain ⟨holds', changed⟩ := holds.append change.settled fits
        obtain ⟨holds'', changed'⟩ := holds'.terminator changed.settled
        exact ⟨some buf, .onHeap buf blocks n least most holds'', change.trans (changed.trans changed')⟩
    · next raw' after given =>
      rw [given]
      exact spec

/-- The text that was printed: what the second run wrote, if it is as long as the first run found. -/
def DstrPrint.text (print : DstrPrint) : Option Bytes :=
  match print.measured, print.again with
  | some len, some text => if text.length = len then some text else none
  | _, _ => none

theorem DstrPrint.length_written (print : DstrPrint) (len : Nat) : (print.written len).length ≤ len + 1 := by
  rw [DstrPrint.written]
  cases print.again with
  | none => exact length_take_le _ _
  | some text =>
    rw [length_append, length_singleton]
    exact Nat.succ_le_succ (length_take_le _ _)

/-- Zeros up to the old terminator leave the string as it was, whatever was there. -/
theorem padded_wiped {junk : Bytes} {len k : Nat} (short : junk.length ≤ len) (inside : len ≤ k) :
    overwrite (overwrite (s ++ zeros k) s.length junk) s.length (zeros len) = s ++ zeros k := by
  rw [overwrite_overwrite (by rw [length_append]; exact Nat.le_add_right _ _)
    (by rw [length_replicate]; exact short), padded_append, append_assoc, zeros_append, length_replicate,
    Nat.add_sub_cancel' inside]

/-- What is written over the end of a string in place, whose meta byte is set then. -/
theorem dstrInPlace_over {bytes : Bytes} {b : UInt8} (fits : s.length + bytes.length < S.size) :
    dstrSetLastByte (overwrite (dstrInPlace S.size s) s.length (bytes ++ [0])) b =
      s ++ bytes ++ zeros (S.size - 1 - s.length - bytes.length) ++ [b] := by
  obtain ⟨k, left⟩ : ∃ k, S.size - 1 - s.length = bytes.length + k := ⟨S.size - 1 - s.length - bytes.length, by omega⟩
  rw [dstrInPlace, left, Nat.add_sub_cancel_left]
  cases k with
  | zero =>
    have covered : s.length + (bytes ++ [0]).length = (s ++ zeros (bytes.length + 0) ++
        [UInt8.ofNat (bytes.length + 0)]).length := by
      simp only [length_append, length_replicate, length_singleton]
      omega
    rw [overwrite, covered, drop_length, append_nil, append_assoc s, take_left,
      ← append_assoc s, dstrSetLastByte_concat]
    rw [zeros, replicate_zero, append_nil]
  | succ k =>
    rw [overwrite_left, dstrSetLastByte_concat, padded_append, length_append, length_singleton]
    · congr 1
      rw [← append_assoc s, append_assoc _ [0], show ([0] : Bytes) = zeros 1 from rfl, zeros_append]
      congr 2
      omega
    · simp only [length_append, length_replicate, length_singleton]
      omega

theorem dstrPrintInto_spec (print : DstrPrint) (settled : arena.memory.Settled sizeTop)
    (legal : DstrLegal S arena.memory s raw own) {len : Nat} (room : len ≤ (dstrInfo raw).space) :
    match dstrPrintInto raw print len arena with
    | (none, raw', after) => ∃ text, print.again = some text ∧ text.length = len ∧
        DstrLeads S arena.memory own after.memory raw' (s ++ text)
    | (some _, raw', after) => print.again.map List.length ≠ some len ∧
        DstrLeads S arena.memory own after.memory raw' s := by
  have written := print.length_written len
  rw [dstrPrintInto]
  cases legal with
  | inPlace short =>
    have info := dstrInfo_inPlace short
    rw [info] at room
    rw [info]
    dsimp only at room ⊢
    rw [if_neg nofun]
    by_cases other : print.again.map List.length ≠ some len
    · rw [if_pos other]
      refine ⟨other, none, ?_, .refl settled⟩
      have low : s.length ≤ (dstrInPlace S.size s).length := by
        rw [length_dstrInPlace short]
        exact short.le
      have covers : (print.written len).length ≤ (zeros (len + 1)).length := by
        rw [length_replicate]
        exact written
      have fits : s.length + (zeros len).length < S.size := by
        rw [length_replicate]
        omega
      rw [overwrite_overwrite low covers, ← zeros_append len 1, show zeros 1 = [0] from rfl, dstrInPlace_over fits,
        append_assoc s, zeros_append, length_replicate, Nat.add_sub_cancel' room]
      exact .inPlace short
    · rw [if_neg other]
      obtain ⟨text, again, length⟩ := Option.map_eq_some_iff.mp (not_not.mp other)
      refine ⟨text, again, length, none, ?_, .refl settled⟩
      rw [DstrPrint.written, again]
      dsimp only
      rw [← length, take_length, dstrInPlace_over (by omega)]
      have legal : DstrLegal S arena.memory (s ++ text) (dstrInPlace S.size (s ++ text)) none := by
        apply DstrLegal.inPlace
        rw [length_append]
        omega
      rw [dstrInPlace, length_append, ← Nat.sub_sub] at legal
      exact legal
  | onHeap buf blocks n least most holds =>
    have info := dstrInfo_onHeap (S := S) (n := n) (holds.nonnull settled) (holds.below settled) least (blocks_lt most)
      holds.inside
    rw [info] at room
    rw [info]
    dsimp only at room ⊢
    rw [if_pos rfl, dstrUptr_one_onHeap (holds.below settled)]
    have inside : s.length < blocks * 256 := holds.inside
    by_cases other : print.again.map List.length ≠ some len
    · rw [if_pos other]
      have more : s.length + (print.written len).length ≤ blocks * dstrBlkSize := by
        change _ ≤ blocks * 256
        omega
      have wide : s.length + (zeros (len + 1)).length ≤ blocks * dstrBlkSize := by
        rw [length_replicate]
        change _ ≤ blocks * 256
        omega
      have once := RawMemory.Change.write settled holds.block more
      have twice := RawMemory.Change.write once.settled (b := zeros (len + 1)) holds.block wide
      refine ⟨other, some buf, .onHeap buf blocks n least most ⟨holds.block, ?_, holds.inside⟩, once.trans twice⟩
      change ((arena.memory.write (buf + s.length) (print.written len)).write (buf + s.length) (zeros (len + 1))).read
        buf (blocks * dstrBlkSize) = _
      rw [read_write_overwrite wide, read_write_overwrite more, holds.bytes, padded_wiped written]
      change len + 1 ≤ blocks * 256 - s.length
      omega
    · rw [if_neg other]
      obtain ⟨text, again, length⟩ := Option.map_eq_some_iff.mp (not_not.mp other)
      refine ⟨text, again, length, ?_⟩
      rw [DstrPrint.written, again]
      dsimp only
      rw [← length, take_length, Nat.add_assoc, dstrSetUptr_one_onHeap, ← length_append]
      obtain ⟨holds', change⟩ := holds.put settled (b := text ++ [0]) (t := s ++ text) s.length
        (by rw [length_append]; change _ ≤ blocks * 256; rw [length_singleton]; omega)
        (by rw [length_append]; change _ < blocks * 256; omega)
        (by
          rw [padded_append, ← append_assoc s, append_assoc _ [0], show ([0] : Bytes) = zeros 1 from rfl,
            zeros_append, length_append, length_append, length_replicate]
          congr 2
          change 1 + (blocks * 256 - s.length - (text.length + 1)) = blocks * 256 - (s.length + text.length)
          omega)
      exact ⟨some buf, .onHeap buf blocks n least most holds', change⟩

theorem dstrVprintf_succ {print : DstrPrint} {k : Nat} (measured : print.measured = some (k + 1)) :
    dstrVprintf A raw print arena =
      match dstrGrow A raw (k + 1) false arena with
      | (some e, raw, arena) => (some e, raw, arena)
      | (none, raw, arena) => dstrPrintInto raw print (k + 1) arena := by
  rw [dstrVprintf, measured]
  rfl

theorem dstrVprintf_spec (settled : arena.memory.Settled sizeTop) (legal : DstrLegal S arena.memory s raw own)
    (print : DstrPrint) :
    match dstrVprintf A raw print arena with
    | (none, raw', after) => ∃ text, (print.text = some text ∨ print.measured = some 0 ∧ text = []) ∧
        DstrLeads S arena.memory own after.memory raw' (s ++ text)
    | (some _, raw', after) => DstrLeads S arena.memory own after.memory raw' s ∧
        (print.text = none ∨ ∃ len ∈ print.measured, (dstrInfo raw).space < len ∧
          DstrFull A arena.calls raw len false) := by
  cases measured : print.measured with
  | none =>
    rw [dstrVprintf, measured]
    refine ⟨legal.stays settled, .inl ?_⟩
    rw [DstrPrint.text, measured]
  | some len =>
    cases len with
    | zero =>
      rw [dstrVprintf, measured]
      refine ⟨[], .inr ⟨rfl, rfl⟩, ?_⟩
      rw [append_nil]
      exact legal.stays settled
    | succ k =>
      have size : k + 1 < sizeTop := (print.fits (k + 1) measured).trans (by decide)
      rw [dstrVprintf_succ measured]
      generalize k + 1 = len at *
      have spec := dstrGrow_spec (A := A) settled legal size false
      split at spec
      · next raw' after given =>
        rw [given]
        obtain ⟨⟨own', legal', change⟩, same, grown⟩ := spec
        have room := DstrGrown.has same grown
        have into := dstrPrintInto_spec print change.settled legal' room
        split at into
        · next raw'' after' printed =>
          dsimp only
          rw [printed]
          obtain ⟨text, again, length, leads⟩ := into
          refine ⟨text, .inl ?_, leads.after change⟩
          rw [DstrPrint.text, measured, again]
          exact if_pos length
        · next e raw'' after' printed =>
          dsimp only
          rw [printed]
          refine ⟨into.2.after change, .inl ?_⟩
          rw [DstrPrint.text, measured]
          have other := into.1
          cases again : print.again with
          | none => rfl
          | some text =>
            rw [again] at other
            exact if_neg fun same => other (congrArg some same)
      · next e raw' after given =>
        rw [given]
        obtain ⟨rfl, memory, short, full⟩ := spec
        refine ⟨?_, .inr ⟨len, rfl, short, full⟩⟩
        rw [memory]
        exact legal.stays settled

/-- The string without the bytes that are erased. -/
def erased (s : Bytes) (pos len : Nat) : Bytes :=
  s.take pos ++ s.drop (pos + min len (s.length - pos))

theorem length_erased {pos n : Nat} (inside : pos + n ≤ s.length) :
    (s.take pos ++ s.drop (pos + n)).length = s.length - n := by
  rw [length_append, length_take_of_le (by omega), length_drop]
  omega

theorem dstrErase_spec (settled : arena.memory.Settled sizeTop) (legal : DstrLegal S arena.memory s raw own)
    (pos len : Nat) : (dstrErase raw pos len arena).1 = decide (pos ≤ s.length) ∧
      DstrLeads S arena.memory own (dstrErase raw pos len arena).2.2.memory (dstrErase raw pos len arena).2.1
        (if pos ≤ s.length then erased s pos len else s) := by
  obtain ⟨state, length, bounded, -⟩ := legal.info settled
  rw [dstrErase]
  dsimp only
  rw [length]
  by_cases inside : pos ≤ s.length
  · rw [if_neg (fun stops => stops.elim state (Nat.not_lt.mpr inside)), if_pos inside, decide_eq_true inside, erased]
    obtain ⟨n, nIs⟩ : ∃ n, n = min len (s.length - pos) := ⟨_, rfl⟩
    rw [← nIs]
    have fits : pos + n ≤ s.length := by omega
    by_cases none_ : n = 0
    · rw [if_pos none_, none_, Nat.add_zero, take_append_drop]
      exact ⟨rfl, legal.stays settled⟩
    · rw [if_neg none_]
      have shorter := length_erased fits
      cases legal with
      | inPlace short =>
        rw [dstrInfo_inPlace short, if_neg nofun]
        refine ⟨rfl, none, ?_, .refl settled⟩
        dsimp only
        have dropped : ((dstrInPlace S.size s).drop (pos + n)).take (s.length - n - pos) =
            ((s ++ zeros (S.size - 1 - s.length)).drop (pos + n)).take (s.length - n - pos) := by
          have all : s.length ≤ (s ++ zeros (S.size - 1 - s.length)).length := by
            rw [length_append]
            exact Nat.le_add_right _ _
          rw [dstrInPlace, drop_append_of_le_length (by omega), take_append_of_le_length]
          rw [length_drop]
          omega
        have moved : (((s ++ zeros (S.size - 1 - s.length)).drop (pos + n)).take (s.length - n - pos)).length ≤
            s.length - n - pos := length_take_le _ _
        have padded : (s ++ zeros (S.size - 1 - s.length)).length = S.size - 1 := by
          rw [length_append, length_replicate]
          omega
        rw [dropped, dstrInPlace, overwrite_left (by omega), overwrite_left, padded_erase fits, dstrLastByte_concat,
          dstrSetLastByte_concat, ← UInt8.ofNat_add]
        · have legal : DstrLegal S arena.memory (s.take pos ++ s.drop (pos + n))
              (dstrInPlace S.size (s.take pos ++ s.drop (pos + n))) none := by
            apply DstrLegal.inPlace
            rw [shorter]
            omega
          have left : S.size - 1 - (s.length - n) = S.size - 1 - s.length + n := by omega
          rw [dstrInPlace, shorter, left] at legal
          exact legal
        · rw [length_overwrite (by omega), padded, length_replicate]
          omega
      | onHeap buf blocks k least most holds =>
        have below := holds.below settled
        rw [dstrInfo_onHeap (holds.nonnull settled) below least (blocks_lt most) holds.inside, if_pos rfl,
          dstrUptr_zero_onHeap (by omega), dstrUptr_one_onHeap below]
        have last : buf + s.length - n = buf + (s.length - n) := by omega
        dsimp only
        rw [last, dstrSetUptr_one_onHeap, ← shorter]
        have held := holds.inside
        have size : (arena.memory.read (buf + (pos + n)) ((s.take pos ++ s.drop (pos + n)).length - pos)).length =
            s.length - n - pos := by
          rw [RawMemory.length_read, shorter]
        have once := RawMemory.Change.write (i := pos)
          (b := arena.memory.read (buf + (pos + n)) ((s.take pos ++ s.drop (pos + n)).length - pos)) settled
          holds.block (by omega)
        have twice := RawMemory.Change.write (i := (s.take pos ++ s.drop (pos + n)).length) (b := zeros n)
          once.settled holds.block (by rw [shorter, length_replicate]; omega)
        refine ⟨rfl, some buf, .onHeap buf blocks k least most ⟨holds.block, ?_, ?_⟩, once.trans twice⟩
        · change ((arena.memory.write (buf + pos) _).write (buf + (s.take pos ++ s.drop (pos + n)).length) (zeros n)).read
            buf (blocks * dstrBlkSize) = _
          rw [read_write_overwrite (by rw [shorter, length_replicate]; omega), read_write_overwrite (by omega),
            read_drop (n := blocks * dstrBlkSize) (by omega), holds.bytes, shorter, padded_erase fits]
          congr 2
          omega
        · omega
  · rw [if_pos (.inr (Nat.not_le.mp inside)), if_neg inside, decide_eq_false inside]
    exact ⟨rfl, legal.stays settled⟩

end Askai
