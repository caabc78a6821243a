import Askai.Util.Text
import Askai.Util.Utf8

/-!
# Escaped text

Text as the inside of a JSON string (`jb_escape`), which UTF-8 text stays UTF-8 text in.
-/

namespace Askai

open Library

/-- `jb_letters`: the letter of the two-byte escape of a byte. -/
def jbLetter (c : UInt8) : Option UInt8 :=
  if c = 8 then some 98
  else if c = tab then some 116
  else if c = lf then some 110
  else if c = 12 then some 102
  else if c = cr then some 114
  else if c = quote then some quote
  else if c = backslash then some backslash
  else none

/-- `jb_escaped`. -/
def jbEscaped (c : UInt8) : Bool :=
  c < space || c = quote || c = backslash

/-- The body of the loop of `jb_escape`. -/
def jbEscapeByte (c : UInt8) : Bytes :=
  if jbEscaped c then
    match jbLetter c with
    | some letter => [backslash, letter]
    | none => [backslash, 117, 48, 48] ++ hexDigits 2 c.toNat
  else [c]

/-- `jb_escape`. -/
def jbEscape (s : Bytes) : Bytes :=
  s.flatMap jbEscapeByte

@[simp]
theorem jbEscape_nil : jbEscape [] = [] := rfl

theorem jbEscape_append (s t : Bytes) : jbEscape (s ++ t) = jbEscape s ++ jbEscape t :=
  List.flatMap_append

theorem jbEscapeByte_high {c : UInt8} (high : 0x80 ≤ c) : jbEscapeByte c = [c] := by
  have all : ∀ n < 256, 128 ≤ n → jbEscapeByte (UInt8.ofNat n) = [UInt8.ofNat n] := by
    decide +kernel
  have here := all c.toNat c.toNat_lt (UInt8.le_iff_toNat_le.mp high)
  rwa [UInt8.ofNat_toNat] at here

theorem length_jbEscapeByte (c : UInt8) : 1 ≤ (jbEscapeByte c).length ∧ (jbEscapeByte c).length ≤ 6 := by
  have all : ∀ n < 256, 1 ≤ (jbEscapeByte (UInt8.ofNat n)).length ∧ (jbEscapeByte (UInt8.ofNat n)).length ≤ 6 := by
    decide +kernel
  have here := all c.toNat c.toNat_lt
  rwa [UInt8.ofNat_toNat] at here

theorem length_jbEscape (s : Bytes) : (jbEscape s).length ≤ 6 * s.length := by
  induction s with
  | nil => exact Nat.le_refl _
  | cons c s ih =>
    have here := (length_jbEscapeByte c).2
    have split : jbEscape (c :: s) = jbEscapeByte c ++ jbEscape s := rfl
    rw [split, List.length_append, List.length_cons]
    omega

theorem jbEscape_high {s : Bytes} (high : ∀ c ∈ s, 0x80 ≤ c) : jbEscape s = s := by
  induction s with
  | nil => rfl
  | cons c s ih =>
    have split : jbEscape (c :: s) = jbEscapeByte c ++ jbEscape s := rfl
    rw [split, jbEscapeByte_high (high c List.mem_cons_self), ih fun b mem => high b (List.mem_cons_of_mem c mem)]
    rfl

/-! ## A character and its bytes -/

/-- A character is as long as its first byte asks, and its other bytes are not below 128. -/
theorem utf8Starts_spec {c : UInt8} {rest : Bytes} (starts : utf8Starts (c :: rest) ≠ 0) :
    utf8Starts (c :: rest) = utf8Len c ∧ (utf8Len c = 1 ∨ 0x80 ≤ rest.headD 0 ∧
        ∀ b ∈ (rest.drop 1).take (utf8Len c - 2), b &&& 0xc0 = 0x80) := by
  unfold utf8Starts at starts ⊢
  dsimp only at starts ⊢
  have least : (0x80 : UInt8) ≤ if c = 0xe0 then 0xa0 else if c = 0xf0 then 0x90 else 0x80 := by
    split_ifs <;> decide
  generalize (if c = 0xe0 then (0xa0 : UInt8) else if c = 0xf0 then 0x90 else 0x80) = lo at *
  generalize (if c = 0xed then (0x9f : UInt8) else if c = 0xf4 then 0x8f else 0xbf) = hi at *
  by_cases none : utf8Len c = 0 ∨ rest.length + 1 < utf8Len c
  · rw [if_pos none] at starts
    exact absurd rfl starts
  · rw [if_neg none] at starts ⊢
    by_cases one : utf8Len c = 1
    · rw [if_pos one]
      exact ⟨one.symm, .inl one⟩
    · rw [if_neg one] at starts ⊢
      by_cases second : rest.headD 0 < lo ∨ hi < rest.headD 0
      · rw [if_pos second] at starts
        exact absurd rfl starts
      · rw [if_neg second] at starts ⊢
        split at starts
        · rename_i more
          simp only [not_or, UInt8.not_lt] at second
          rw [if_pos more]
          refine ⟨rfl, .inr ⟨UInt8.le_trans least second.1, ?_⟩⟩
          simpa using more
        · exact absurd rfl starts

theorem utf8Starts_eq {c : UInt8} {rest : Bytes} (starts : utf8Starts (c :: rest) ≠ 0) :
    utf8Starts (c :: rest) = utf8Len c :=
  (utf8Starts_spec starts).1

theorem lt_of_utf8Len {c : UInt8} (one : utf8Len c = 1) : c < 0x80 := by
  apply UInt8.not_le.mp
  intro high
  unfold utf8Len at one
  rw [if_neg (UInt8.not_lt.mpr high)] at one
  split_ifs at one <;> cases one

end Askai
