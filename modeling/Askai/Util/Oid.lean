import Askai.Util.Text

/-!
# Names of Git objects

`oid.h`: a name is the lowercase hexadecimal digits of a hash, or no name at all.
-/

namespace Askai

open Library

/-- `oid_valid`: the digits of an SHA-1 or an SHA-256. -/
def oidValid (hex : Bytes) : Bool :=
  (hex.length = 40 || hex.length = 64) && utilIsHex hex

/-- `struct oid`. -/
structure Oid where
  hex : Bytes
  valid : hex = [] ∨ oidValid hex = true
  deriving DecidableEq

/-- No name. -/
def Oid.none : Oid :=
  ⟨[], .inl rfl⟩

/-- `oid_len`, by the bytes at two places of the digits and the NULs that follow them. -/
def oidLen (oid : Oid) : Nat :=
  if oid.hex.getD 0 nul = nul then 0 else if oid.hex.getD 40 nul ≠ nul then 64 else 40

/-- `oid_init`: none for `EINVAL`. -/
def oidInit (hex : Bytes) : Option Oid :=
  if valid : oidValid hex = true then some ⟨hex, .inr valid⟩ else none

/-- `oid_init_line`. -/
def oidInitLine (out : Bytes) : Option Oid :=
  oidInit (out.take (if out.getLast? = some lf then out.length - 1 else 0))

/-- `oid_init_field`: none for `EINVAL`, or the name and what follows `end_`. -/
def oidInitField (text : Bytes) (end_ : UInt8) : Option (Oid × Bytes) :=
  let n := if 40 < text.length ∧ text[40]? = some end_ then 40
    else if 64 < text.length ∧ text[64]? = some end_ then 64 else 0
  (oidInit (text.take n)).map fun oid => (oid, text.drop (n + 1))

/-- The digits of `oid_format`, 0 for `OID_NONE`. -/
def oidFormat (name : Bytes) : Nat :=
  if name = ascii "sha1" then 40 else if name = ascii "sha256" then 64 else 0

/-- `oid_equal`. -/
def oidEqual (a b : Oid) : Bool :=
  a.hex = b.hex

theorem oidFormat_cases (name : Bytes) : oidFormat name = 0 ∨ oidFormat name = 40 ∨ oidFormat name = 64 := by
  rw [oidFormat]
  split
  · exact .inr (.inl rfl)
  split
  · exact .inr (.inr rfl)
  · exact .inl rfl

/-- `oid_zero`, of the format's name. -/
def oidZero (name : Bytes) : Oid where
  hex := List.replicate (oidFormat name) 48
  valid := by
    rcases oidFormat_cases name with none | sha1 | sha256
    · exact .inl (by rw [none, List.replicate_zero])
    · exact .inr (by rw [sha1]; decide)
    · exact .inr (by rw [sha256]; decide)

/-! ## What a name is -/

theorem oidValid_iff {hex : Bytes} :
    oidValid hex = true ↔ (hex.length = 40 ∨ hex.length = 64) ∧ utilIsHex hex = true := by
  simp [oidValid]

/-- A digit is no NUL. -/
theorem ne_nul_of_utilIsHex {hex : Bytes} (digits : utilIsHex hex = true) {i : Nat}
    (inside : i < hex.length) : hex.getD i nul ≠ nul := by
  have here := List.all_eq_true.mp digits hex[i] (List.getElem_mem inside)
  rw [List.getD_eq_getElem?_getD, List.getElem?_eq_getElem inside, Option.getD_some]
  intro same
  rw [same] at here
  revert here
  decide

theorem oidLen_eq (oid : Oid) : oidLen oid = oid.hex.length := by
  rcases oid.valid with none | valid
  · simp [oidLen, none]
  · obtain ⟨length, digits⟩ := oidValid_iff.mp valid
    have first : oid.hex.getD 0 nul ≠ nul := ne_nul_of_utilIsHex digits (by omega)
    rw [oidLen, if_neg first]
    rcases length with sha1 | sha256
    · have ends : oid.hex.getD 40 nul = nul := by
        rw [List.getD_eq_getElem?_getD, List.getElem?_eq_none (by omega), Option.getD_none]
      rw [if_neg (not_not.mpr ends), sha1]
    · rw [if_pos (ne_nul_of_utilIsHex digits (by omega)), sha256]

/-- A name that is not empty is valid. -/
theorem Oid.valid_of_ne {oid : Oid} (named : oidLen oid ≠ 0) : oidValid oid.hex = true := by
  rcases oid.valid with none | valid
  · rw [oidLen_eq, none] at named
    exact absurd rfl named
  · exact valid

@[simp]
theorem oidEqual_iff {a b : Oid} : oidEqual a b = true ↔ a = b := by
  cases a
  cases b
  simp [oidEqual]

theorem oidInit_eq_some {hex : Bytes} {oid : Oid} : oidInit hex = some oid ↔ oid.hex = hex ∧ oidValid hex = true := by
  rw [oidInit]
  split
  · rename_i valid
    constructor
    · intro same
      obtain rfl := Option.some.inj same
      exact ⟨rfl, valid⟩
    · rintro ⟨rfl, -⟩
      rfl
  · rename_i invalid
    constructor
    · nofun
    · rintro ⟨-, valid⟩
      exact absurd valid invalid

/-- A line with a name is the name and a line feed. -/
theorem oidInitLine_eq_some {out : Bytes} {oid : Oid} :
    oidInitLine out = some oid ↔ out = oid.hex ++ [lf] ∧ oidLen oid ≠ 0 := by
  rw [oidInitLine, oidInit_eq_some, oidLen_eq]
  constructor
  · rintro ⟨hex, valid⟩
    have filled : oid.hex.length ≠ 0 := by
      have length := (oidValid_iff.mp valid).1
      rw [← hex] at length
      omega
    refine ⟨?_, filled⟩
    split at hex
    · rename_i ends
      obtain ⟨front, rfl⟩ := List.getLast?_eq_some_iff.mp ends
      rw [hex, List.length_append, List.length_singleton, Nat.add_sub_cancel, List.take_left]
    · rw [hex, List.take_zero] at filled
      exact absurd rfl filled
  · rintro ⟨rfl, filled⟩
    have valid : oidValid oid.hex = true := Oid.valid_of_ne (by rwa [oidLen_eq])
    simp [valid]

end Askai
