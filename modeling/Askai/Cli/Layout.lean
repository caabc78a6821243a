import Askai.Cli.Scrollback
import Askai.Util.Strings

/-!
# The rows of a line

How many cells a character takes, the rows that a line has at a width, and that the cells the scrollback measures are
those.
-/

namespace Askai

open Library

theorem length_encode_pos (c : Char) : 0 < (String.utf8EncodeChar c).length :=
  List.length_pos_iff.mpr String.utf8EncodeChar_ne_nil

namespace Utf8proc

/-- The cells of a character that is shown as itself. -/
def charCells (lib : Utf8proc) (c : Char) : Option Nat :=
  if c.toNat < 0x20 ∨ (0x7f ≤ c.toNat ∧ c.toNat < 0xa0) then none
  else if c.toNat < 0x80 then some 1
  else if lib.charwidth c.toNat < 0 then none
  else some (lib.charwidth c.toNat).toNat

/-- What utf8proc does: it reads the characters that UTF-8 spells. -/
structure Lawful (lib : Utf8proc) : Prop where
  iterate : ∀ (c : Char) (rest : Bytes),
    lib.iterate ((String.utf8EncodeChar c ++ rest).take 4) = some (c.toNat, (String.utf8EncodeChar c).length)

/-- Of the tables of utf8proc, no more than that combining diacritical marks have no cell and CJK ideographs two. -/
def latin : Utf8proc where
  iterate text := (text.toByteArray.utf8DecodeChar? 0).map fun c => (c.toNat, c.utf8Size)
  charwidth c := if 0x300 ≤ c ∧ c < 0x370 then 0 else if 0x4e00 ≤ c ∧ c < 0xa000 then 2 else 1

theorem latin_lawful : latin.Lawful where
  iterate c rest := by
    have short : (String.utf8EncodeChar c).length ≤ 4 := by
      rw [String.length_utf8EncodeChar]
      exact Char.utf8Size_le_four c
    have front : (String.utf8EncodeChar c ++ rest).take 4 =
        String.utf8EncodeChar c ++ rest.take (4 - (String.utf8EncodeChar c).length) := by
      rw [List.take_append, List.take_of_length_le short]
    rw [front]
    change ((String.utf8EncodeChar c ++ _).toByteArray.utf8DecodeChar? 0).map _ = _
    rw [List.toByteArray_append, ByteArray.utf8DecodeChar?_utf8EncodeChar_append, Option.map_some, String.length_utf8EncodeChar]

variable {lib : Utf8proc} {columns : Nat}

/-! ## Cells -/

theorem headD_ascii {c : Char} (low : c.toNat < 0x80) (rest : Bytes) :
    (String.utf8EncodeChar c ++ rest).headD 0 = UInt8.ofNat c.toNat ∧ (String.utf8EncodeChar c).length = 1 := by
  have value : c.val.toNat ≤ 127 := Nat.le_of_lt_succ low
  rw [String.utf8EncodeChar, if_pos value]
  exact ⟨rfl, rfl⟩

theorem headD_high {c : Char} (high : 0x80 ≤ c.toNat) (rest : Bytes) :
    0x80 ≤ (String.utf8EncodeChar c ++ rest).headD 0 := by
  obtain ⟨b, tail, bytes, -, -⟩ := continues_utf8EncodeChar c
  have first : b ∈ String.utf8EncodeChar c := by
    rw [bytes]
    exact List.mem_cons_self
  rw [bytes, List.cons_append, List.headD_cons]
  exact utf8EncodeChar_high high b first

theorem ofNat_lt_iff {m n : Nat} (m_small : m < 256) (n_small : n < 256) : UInt8.ofNat m < UInt8.ofNat n ↔ m < n := by
  rw [UInt8.lt_iff_toNat_lt, UInt8.toNat_ofNat', UInt8.toNat_ofNat', Nat.mod_eq_of_lt m_small, Nat.mod_eq_of_lt n_small]

theorem ofNat_inj {m n : Nat} (m_small : m < 256) (n_small : n < 256) : UInt8.ofNat m = UInt8.ofNat n ↔ m = n := by
  rw [← UInt8.toNat_inj, UInt8.toNat_ofNat', UInt8.toNat_ofNat', Nat.mod_eq_of_lt m_small, Nat.mod_eq_of_lt n_small]

/-- The cells that the code measures for a character. -/
def rawCells (lib : Utf8proc) (c : Char) : Int :=
  if c.toNat < 0x80 then (if 0x20 ≤ c.toNat ∧ c.toNat ≠ 0x7f then 1 else -1)
  else if c.toNat < 0xa0 then -1
  else lib.charwidth c.toNat

theorem renderCharacter_eq (law : lib.Lawful) (c : Char) (rest : Bytes) :
    lib.renderCharacter (String.utf8EncodeChar c ++ rest) = ((String.utf8EncodeChar c).length, lib.rawCells c) := by
  rw [renderCharacter, rawCells]
  by_cases low : c.toNat < 0x80
  · obtain ⟨first, length⟩ := headD_ascii low rest
    rw [first, length]
    have ascii : UInt8.ofNat c.toNat < 0x80 := (ofNat_lt_iff (n := 0x80) (by omega) (by omega)).mpr low
    have printable : (0x20 ≤ UInt8.ofNat c.toNat ∧ UInt8.ofNat c.toNat ≠ 0x7f) ↔ (0x20 ≤ c.toNat ∧ c.toNat ≠ 0x7f) := by
      rw [← UInt8.not_lt, ← Nat.not_lt]
      exact and_congr (not_congr (ofNat_lt_iff (n := 0x20) (by omega) (by omega)))
        (not_congr (ofNat_inj (n := 0x7f) (by omega) (by omega)))
    rw [if_pos ascii, if_pos low]
    simp only [printable]
  · have high := headD_high (Nat.not_lt.mp low) rest
    rw [if_neg (UInt8.not_lt.mpr high), if_neg low, law.iterate]

theorem charCells_eq (c : Char) :
    lib.charCells c = if lib.rawCells c < 0 then none else some (lib.rawCells c).toNat := by
  by_cases low : c.toNat < 0x80
  · by_cases printable : 0x20 ≤ c.toNat ∧ c.toNat ≠ 0x7f
    · have raw : lib.rawCells c = 1 := by rw [rawCells, if_pos low, if_pos printable]
      rw [raw, charCells, if_neg (by omega), if_pos low]
      rfl
    · have raw : lib.rawCells c = -1 := by rw [rawCells, if_pos low, if_neg printable]
      rw [raw, charCells, if_pos (by omega)]
      rfl
  · by_cases control : c.toNat < 0xa0
    · have raw : lib.rawCells c = -1 := by rw [rawCells, if_neg low, if_pos control]
      rw [raw, charCells, if_pos (by omega)]
      rfl
    · rw [rawCells, if_neg low, if_neg control, charCells, if_neg (by omega), if_neg low]

end Utf8proc

end Askai
