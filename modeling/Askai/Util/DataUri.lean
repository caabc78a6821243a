import Askai.Library.Bytes
import Askai.Util.Text

/-!
# Data in URIs

How a `data:` URI is checked, and how its data is decoded (`datauri.c`).
-/

namespace Askai

open Library List

/-- `struct datauri`. -/
structure DataUri where
  encoded : Bytes
  size : Nat
  base64 : Bool

/-- `datauri_digit`. -/
def datauriDigit (c : UInt8) : UInt32 :=
  let u := c.toUInt32
  if u - 65 < 26 then u - 65
  else if u - 97 < 26 then u - 97 + 26
  else if u - 48 < 10 then u - 48 + 52
  else if u = 43 then 62 else if u = 47 then 63 else 64

/-- The loop of `datauri_parse_base64` over the padding at the end, in reverse: what is before it, and how
much there is. -/
def datauriPadding : Bytes → Nat → Bytes × Nat
  | [], pad => ([], pad)
  | c :: s, pad => if c = 61 ∧ pad < 2 then datauriPadding s (pad + 1) else (c :: s, pad)

/-- `datauri_parse_base64`: none for `EINVAL`. -/
def datauriParseBase64 (encoded : Bytes) : Option DataUri :=
  let (back, pad) := datauriPadding encoded.reverse 0
  let s := back.reverse
  let n := s.length
  if n % 4 = 1 ∨ (pad ≠ 0 ∧ (n + pad) % 4 ≠ 0) then none
  else if s.any fun c => 63 < datauriDigit c then none
  else some { encoded := s, size := n / 4 * 3 + (if n % 4 ≠ 0 then n % 4 - 1 else 0), base64 := true }

/-- The loop of `datauri_parse_percent`: how many bytes there are. -/
def percentSize : Bytes → Option Nat
  | [] => some 0
  | c :: s =>
    if c ≠ 37 then (percentSize s).map (· + 1)
    else match s with
      | high :: low :: s =>
        if 15 < utilHexDigit high ∨ 15 < utilHexDigit low then none else (percentSize s).map (· + 1)
      | _ => none

/-- `datauri_parse_percent`. -/
def datauriParsePercent (encoded : Bytes) : Option DataUri :=
  (percentSize encoded).map fun size => { encoded, size, base64 := false }

/-- `datauri_init`. -/
def datauriInit (uri : Bytes) : Option DataUri :=
  let scheme := ascii "data:"
  let base64 := ascii ";base64"
  if cstrViewStartsCase uri scheme then
    (cut 44 (uri.drop scheme.length)).bind fun (media, rest) =>
      if base64.length ≤ media.length ∧ cstrViewEqualCase (media.drop (media.length - base64.length)) base64
      then datauriParseBase64 rest else datauriParsePercent rest
  else none

/-- The loop of `datauri_decode_percent`: what it writes, or none where it reads beyond the view. -/
def datauriDecodePercent : Bytes → Option Bytes
  | [] => some []
  | c :: s =>
    if c ≠ 37 then (datauriDecodePercent s).map (c :: ·)
    else match s with
      | high :: low :: s =>
        (datauriDecodePercent s).map ((utilHexDigit high <<< 4 ||| utilHexDigit low) :: ·)
      | _ => none

/-- The loop of `datauri_decode_base64`, from digit `i` on: the number, and what it writes. -/
def decodeDigits : Bytes → Nat → UInt32 → UInt32 × Bytes
  | [], _, v => (v, [])
  | c :: s, i, v =>
    let v := v <<< 6 ||| datauriDigit c
    if i % 4 = 3 then
      let (last, out) := decodeDigits s (i + 1) 0
      (last, (v >>> 16).toUInt8 :: (v >>> 8).toUInt8 :: v.toUInt8 :: out)
    else decodeDigits s (i + 1) v

/-- `datauri_decode_base64`. -/
def datauriDecodeBase64 (encoded : Bytes) : Bytes :=
  let (v, out) := decodeDigits encoded 0 0
  let rest := encoded.length % 4
  if rest = 2 then out ++ [(v >>> 4).toUInt8]
  else if rest = 3 then out ++ [(v >>> 10).toUInt8, (v >>> 2).toUInt8]
  else out

/-- `datauri_decode`. -/
def datauriDecode (d : DataUri) : Option Bytes :=
  if d.base64 then some (datauriDecodeBase64 d.encoded) else datauriDecodePercent d.encoded

example : (datauriInit (ascii "data:;base64,AAEC/w==")).bind datauriDecode = some [0, 1, 2, 255] := by decide

/-! ## Percent escapes -/

theorem utilHexDigit_of_hexOf {c : UInt8} {v : Nat} (hex : HexOf c v) : (utilHexDigit c).toNat = v ∧ v < 16 := by
  have few : v < 16 := by
    rcases hex with lower | upper
    · exact (List.getElem?_eq_some_iff.mp lower).1
    · exact (List.getElem?_eq_some_iff.mp upper).1
  have digits : ∀ v < 16, ∀ c, ((ascii "0123456789abcdef")[v]? = some c ∨ (ascii "0123456789ABCDEF")[v]? = some c) →
      (utilHexDigit c).toNat = v := by
    intro v few c hex
    interval_cases v <;> rcases hex with lower | upper
    all_goals first | cases lower; rfl | cases upper; rfl
  exact ⟨digits v few c hex, few⟩

theorem decode_escape {c high low : UInt8} (first : HexOf high (c.toNat / 16)) (second : HexOf low (c.toNat % 16)) :
    utilHexDigit high <<< 4 ||| utilHexDigit low = c := by
  obtain ⟨hi, -⟩ := utilHexDigit_of_hexOf first
  obtain ⟨lo, few⟩ := utilHexDigit_of_hexOf second
  apply UInt8.toNat_inj.mp
  have := c.toNat_lt
  rw [UInt8.toNat_or, UInt8.toNat_shiftLeft, hi, lo]
  change (c.toNat / 16) <<< 4 % 256 ||| c.toNat % 16 = c.toNat
  rw [Nat.mod_eq_of_lt (by rw [Nat.shiftLeft_eq]; omega), Nat.shiftLeft_eq, Nat.mul_comm,
    ← Nat.two_pow_add_eq_or_of_lt few]
  omega

section Escapes

variable {c high low : UInt8} {s : Bytes}

theorem percentSize_plain (other : c ≠ 37) : percentSize (c :: s) = (percentSize s).map (· + 1) := by
  rcases s with _ | ⟨a, _ | ⟨b, s⟩⟩ <;> simp [percentSize, other]

theorem decodePercent_plain (other : c ≠ 37) :
    datauriDecodePercent (c :: s) = (datauriDecodePercent s).map (c :: ·) := by
  rcases s with _ | ⟨a, _ | ⟨b, s⟩⟩ <;> simp [datauriDecodePercent, other]

theorem percentSize_escape : percentSize (37 :: high :: low :: s) =
    if 15 < utilHexDigit high ∨ 15 < utilHexDigit low then none else (percentSize s).map (· + 1) := by
  simp [percentSize]

theorem decodePercent_escape : datauriDecodePercent (37 :: high :: low :: s) =
    (datauriDecodePercent s).map ((utilHexDigit high <<< 4 ||| utilHexDigit low) :: ·) := by
  simp [datauriDecodePercent]

/-- A text that is checked begins with a byte of itself, or with an escape. -/
theorem percentSize_cons {size : Nat} (checked : percentSize (c :: s) = some size) :
    (c ≠ 37 ∧ ∃ less, percentSize s = some less ∧ size = less + 1) ∨
      ∃ high low rest less, c = 37 ∧ s = high :: low :: rest ∧ percentSize rest = some less ∧ size = less + 1 := by
  by_cases other : c = 37
  · subst other
    rcases s with _ | ⟨high, _ | ⟨low, rest⟩⟩
    · exact nomatch checked
    · exact nomatch checked
    · rw [percentSize_escape] at checked
      split at checked
      · exact nomatch checked
      · obtain ⟨less, before, rfl⟩ := Option.map_eq_some_iff.mp checked
        exact .inr ⟨high, low, rest, less, rfl, rfl, before, rfl⟩
  · rw [percentSize_plain other] at checked
    obtain ⟨less, before, rfl⟩ := Option.map_eq_some_iff.mp checked
    exact .inl ⟨other, less, before, rfl⟩

end Escapes

theorem percent_decodes {bytes text : Bytes} (percent : Percent bytes text) :
    percentSize text = some bytes.length ∧ datauriDecodePercent text = some bytes := by
  induction percent with
  | nil => exact ⟨rfl, rfl⟩
  | plain other rest ih =>
    rw [percentSize_plain other, decodePercent_plain other, ih.1, ih.2]
    exact ⟨rfl, rfl⟩
  | @escaped c high low bytes text first second rest ih =>
    have hi := utilHexDigit_of_hexOf first
    have lo := utilHexDigit_of_hexOf second
    have digits : ¬ (15 < utilHexDigit high ∨ 15 < utilHexDigit low) := by
      rw [UInt8.lt_iff_toNat_lt, UInt8.lt_iff_toNat_lt]
      change ¬ (15 < _ ∨ 15 < _)
      omega
    rw [percentSize_escape, decodePercent_escape, if_neg digits, ih.1, ih.2, decode_escape first second]
    exact ⟨rfl, rfl⟩

theorem percent_size {text : Bytes} {size : Nat} (checked : percentSize text = some size) :
    ∃ out, datauriDecodePercent text = some out ∧ out.length = size := by
  induction length : text.length using Nat.strong_induction_on generalizing text size with
  | _ length ih =>
    subst length
    cases text with
    | nil => exact ⟨[], rfl, Option.some.inj checked⟩
    | cons c s =>
      rcases percentSize_cons checked with ⟨other, less, before, rfl⟩ | ⟨high, low, rest, less, rfl, rfl, before, rfl⟩
      · obtain ⟨out, decodes, same⟩ := ih s.length (Nat.lt_succ_self _) before rfl
        rw [decodePercent_plain other, decodes]
        exact ⟨_, rfl, congrArg (· + 1) same⟩
      · have shorter : rest.length < (37 :: high :: low :: rest).length := by
          simp only [length_cons]
          omega
        obtain ⟨out, decodes, same⟩ := ih rest.length shorter before rfl
        rw [decodePercent_escape, decodes]
        exact ⟨_, rfl, congrArg (· + 1) same⟩

/-! ## Base64 -/

theorem datauriDigit_letter {v : Nat} (few : v < 64) : datauriDigit (base64Letter v) = UInt32.ofNat v := by
  interval_cases v <;> rfl

theorem base64Digits_succ (n k : Nat) :
    base64Digits n (k + 1) = base64Digits (n / 64) k ++ [base64Letter (n % 64)] := by
  rw [base64Digits, base64Digits, range_succ_eq_map, reverse_cons, map_append, ← map_reverse, map_map]
  congr 1
  · apply map_congr_left
    intro i _
    change base64Letter (n / 64 ^ (i + 1) % 64) = base64Letter (n / 64 / 64 ^ i % 64)
    rw [Nat.pow_succ', Nat.div_div_eq_div_mul]
  · rw [map_singleton, Nat.pow_zero, Nat.div_one]

/-- One more digit of a number. -/
theorem push_digit {n : Nat} (few : n < 2 ^ 32) :
    UInt32.ofNat (n / 64) <<< 6 ||| UInt32.ofNat (n % 64) = UInt32.ofNat n := by
  apply UInt32.toNat_inj.mp
  have digit : n % 64 < 2 ^ 6 := Nat.mod_lt _ (by decide)
  rw [UInt32.toNat_or, UInt32.toNat_shiftLeft, UInt32.toNat_ofNat_of_lt' (show n / 64 < 2 ^ 32 by omega),
    UInt32.toNat_ofNat_of_lt' (show n % 64 < 2 ^ 32 by omega), UInt32.toNat_ofNat_of_lt' few]
  change (n / 64) <<< 6 % 2 ^ 32 ||| n % 64 = n
  rw [Nat.mod_eq_of_lt (by rw [Nat.shiftLeft_eq]; omega), Nat.shiftLeft_eq, Nat.mul_comm,
    ← Nat.two_pow_add_eq_or_of_lt digit]
  omega

theorem byte_of_number {n : Nat} (few : n < 2 ^ 32) (k : UInt32) (short : k.toNat < 32) :
    (UInt32.ofNat n >>> k).toUInt8 = UInt8.ofNat (n / 2 ^ k.toNat) := by
  apply UInt8.toNat_inj.mp
  rw [UInt32.toNat_toUInt8, UInt32.toNat_shiftRight, UInt32.toNat_ofNat_of_lt' few, Nat.mod_eq_of_lt short,
    Nat.shiftRight_eq_div_pow]
  rfl

/-- The digits of a group that is not whole yet. -/
theorem decode_digits {n k i : Nat} (few : n < 64 ^ k) (short : k ≤ 3) (start : i % 4 = 0) (rest : Bytes) :
    decodeDigits (base64Digits n k ++ rest) i 0 = decodeDigits rest (i + k) (UInt32.ofNat n) := by
  induction k generalizing n rest with
  | zero =>
    obtain rfl : n = 0 := by omega
    rfl
  | succ k ih =>
    have bound : 64 ^ (k + 1) ≤ 64 ^ 3 := Nat.pow_le_pow_right (by decide) short
    have before : n / 64 < 64 ^ k := by
      rw [Nat.pow_succ] at few
      omega
    have inside : ¬ (i + k) % 4 = 3 := by omega
    rw [base64Digits_succ, append_assoc, ih before (by omega), singleton_append, decodeDigits,
      datauriDigit_letter (Nat.mod_lt _ (by decide))]
    dsimp only
    rw [if_neg inside, push_digit (by omega), Nat.add_assoc]

/-- A whole group. -/
theorem decode_group {n i : Nat} (few : n < 2 ^ 24) (start : i % 4 = 0) (rest : Bytes) :
    decodeDigits (base64Digits n 4 ++ rest) i 0 = ((decodeDigits rest (i + 4) 0).1,
      UInt8.ofNat (n / 2 ^ 16) :: UInt8.ofNat (n / 2 ^ 8) :: UInt8.ofNat n :: (decodeDigits rest (i + 4) 0).2) := by
  have before : n / 64 < 64 ^ 3 := by omega
  have last : (i + 3) % 4 = 3 := by omega
  have bound : n < 2 ^ 32 := by omega
  have low : (UInt32.ofNat n).toUInt8 = UInt8.ofNat n := by
    have byte := byte_of_number bound 0 (by decide)
    rw [UInt32.toNat_zero, Nat.pow_zero, Nat.div_one] at byte
    rw [← byte]
    congr 1
  rw [base64Digits_succ, append_assoc, decode_digits before (Nat.le_refl 3) start, singleton_append,
    decodeDigits, datauriDigit_letter (Nat.mod_lt _ (by decide))]
  dsimp only
  rw [if_pos last, push_digit bound, byte_of_number bound 16 (by decide), byte_of_number bound 8 (by decide), low]
  rfl

theorem decodeDigits_length (s : Bytes) (i : Nat) (v : UInt32) :
    (decodeDigits s i v).2.length = (i % 4 + s.length) / 4 * 3 := by
  induction s generalizing i v with
  | nil =>
    change 0 = _
    rw [length_nil]
    omega
  | cons c s ih =>
    rw [decodeDigits, length_cons]
    dsimp only
    split
    · simp only [length_cons, ih]
      omega
    · rw [ih]
      omega

theorem decodeBase64_length {s : Bytes} (whole : s.length % 4 ≠ 1) :
    (datauriDecodeBase64 s).length = s.length / 4 * 3 + (if s.length % 4 ≠ 0 then s.length % 4 - 1 else 0) := by
  have length := decodeDigits_length s 0 0
  rw [datauriDecodeBase64]
  dsimp only
  split
  · rw [length_append, length, length_singleton, if_pos (by omega)]
    omega
  · split
    · rw [length_append, length, length_cons, length_singleton, if_pos (by omega)]
      omega
    · rw [length, if_neg (by omega)]
      omega

/-- The bytes of a last group of `n` digits. -/
def lastGroup (n : Nat) (v : UInt32) : Bytes :=
  if n % 4 = 2 then [(v >>> 4).toUInt8]
  else if n % 4 = 3 then [(v >>> 10).toUInt8, (v >>> 2).toUInt8] else []

theorem decodeBase64_eq (s : Bytes) :
    datauriDecodeBase64 s = (decodeDigits s 0 0).2 ++ lastGroup s.length (decodeDigits s 0 0).1 := by
  rw [datauriDecodeBase64, lastGroup]
  dsimp only
  split
  · rfl
  · split
    · rfl
    · rw [append_nil]

theorem ofNat_byte {n : Nat} (c : UInt8) (same : n % 256 = c.toNat) : UInt8.ofNat n = c := by
  apply UInt8.toNat_inj.mp
  rw [UInt8.toNat_ofNat', ← same]

theorem base64Digits_length (n k : Nat) : (base64Digits n k).length = k := by
  rw [base64Digits, length_map, length_reverse, length_range]

/-- The digits of base64 decode to the bytes, from the first digit of a group on. -/
theorem decode_base64 (bytes : Bytes) {i : Nat} (start : i % 4 = 0) : (decodeDigits (base64 false bytes) i 0).2 ++
      lastGroup (base64 false bytes).length (decodeDigits (base64 false bytes) i 0).1 = bytes := by
  induction bytes using base64.induct generalizing i with
  | case1 => rfl
  | case2 a =>
    have less := a.toNat_lt
    have value : a.toNat * 2 ^ 4 < 64 ^ 2 := by omega
    have digits := decode_digits value (by decide) start []
    rw [append_nil] at digits
    rw [base64, base64Pad, if_neg Bool.false_ne_true, append_nil, digits, lastGroup, base64Digits_length, if_pos rfl]
    change [(UInt32.ofNat (a.toNat * 2 ^ 4) >>> 4).toUInt8] = [a]
    rw [byte_of_number (by omega) 4 (by decide), ofNat_byte a]
    change a.toNat * 2 ^ 4 / 2 ^ 4 % 256 = a.toNat
    omega
  | case3 a b =>
    have less := a.toNat_lt
    have less' := b.toNat_lt
    have value : a.toNat * 2 ^ 10 + b.toNat * 2 ^ 2 < 64 ^ 3 := by omega
    have digits := decode_digits value (by decide) start []
    rw [append_nil] at digits
    rw [base64, base64Pad, if_neg Bool.false_ne_true, append_nil, digits, lastGroup, base64Digits_length,
      if_neg (by decide), if_pos rfl]
    change [(UInt32.ofNat (a.toNat * 2 ^ 10 + b.toNat * 2 ^ 2) >>> 10).toUInt8,
      (UInt32.ofNat (a.toNat * 2 ^ 10 + b.toNat * 2 ^ 2) >>> 2).toUInt8] = [a, b]
    rw [byte_of_number (by omega) 10 (by decide), byte_of_number (by omega) 2 (by decide), ofNat_byte a, ofNat_byte b]
    · change (a.toNat * 2 ^ 10 + b.toNat * 2 ^ 2) / 2 ^ 2 % 256 = b.toNat
      omega
    · change (a.toNat * 2 ^ 10 + b.toNat * 2 ^ 2) / 2 ^ 10 % 256 = a.toNat
      omega
  | case4 a b c rest ih =>
    have lessA := a.toNat_lt
    have lessB := b.toNat_lt
    have lessC := c.toNat_lt
    have value : a.toNat * 2 ^ 16 + b.toNat * 2 ^ 8 + c.toNat < 2 ^ 24 := by omega
    have length : ∀ n v, lastGroup (4 + n) v = lastGroup n v := by
      intro n v
      rw [lastGroup, lastGroup, Nat.add_mod_left]
    rw [base64, decode_group value start, length_append, base64Digits_length, length]
    have later := ih (show (i + 4) % 4 = 0 by omega)
    rw [cons_append, cons_append, cons_append, later, ofNat_byte a (by omega),
      ofNat_byte b (by omega), ofNat_byte c (by omega)]

theorem base64_decodes (bytes : Bytes) : datauriDecodeBase64 (base64 false bytes) = bytes := by
  rw [decodeBase64_eq]
  exact decode_base64 bytes rfl

theorem mem_base64Digits {n k : Nat} {c : UInt8} (member : c ∈ base64Digits n k) : c ≠ 61 ∧ ¬ 63 < datauriDigit c := by
  obtain ⟨i, -, rfl⟩ := mem_map.mp member
  obtain ⟨v, vIs⟩ : ∃ v, v = n / 64 ^ i % 64 := ⟨_, rfl⟩
  have few : v < 64 := by
    rw [vIs]
    exact Nat.mod_lt _ (by decide)
  rw [← vIs]
  refine ⟨?_, ?_⟩
  · interval_cases v <;> decide
  · rw [datauriDigit_letter few, UInt32.lt_iff_toNat_lt, UInt32.toNat_ofNat_of_lt' (show v < 2 ^ 32 by omega)]
    change ¬ 63 < v
    omega

theorem mem_base64 {bytes : Bytes} {c : UInt8} (member : c ∈ base64 false bytes) : c ≠ 61 ∧ ¬ 63 < datauriDigit c := by
  have bare : ∀ k, base64Pad false k = [] := fun _ => rfl
  induction bytes using base64.induct with
  | case1 => cases member
  | case2 | case3 =>
    rw [base64, bare, append_nil] at member
    exact mem_base64Digits member
  | case4 a b c rest ih =>
    rw [base64] at member
    exact (mem_append.mp member).elim mem_base64Digits ih

theorem datauriPadding_eq {s : Bytes} (absent : (61 : UInt8) ∉ s) {k pad : Nat} (few : pad + k ≤ 2) :
    datauriPadding (List.replicate k 61 ++ s) pad = (s, pad + k) := by
  induction k generalizing pad with
  | zero =>
    cases s with
    | nil => rfl
    | cons c s =>
      have other : ¬ (c = 61 ∧ pad < 2) := fun same => absent (same.1 ▸ mem_cons_self)
      exact if_neg other
  | succ k ih =>
    have more : (61 : UInt8) = 61 ∧ pad < 2 := ⟨rfl, by omega⟩
    rw [replicate_succ, cons_append, datauriPadding, if_pos more, ih (by omega)]
    congr 1
    omega

/-- Base64 of any bytes is accepted, with their size, and decodes to them. -/
theorem parse_base64 (padded : Bool) (bytes : Bytes) :
    datauriParseBase64 (base64 padded bytes) = some ⟨base64 false bytes, bytes.length, true⟩ := by
  obtain ⟨pad, split, whole, few⟩ := base64_padded padded bytes
  obtain ⟨k, kIs, same⟩ : ∃ k, base64Pad padded pad = List.replicate k 61 ∧ (k = 0 ∨ k = pad) := by
    cases padded with
    | false => exact ⟨0, rfl, .inl rfl⟩
    | true => exact ⟨pad, rfl, .inr rfl⟩
  have absent : (61 : UInt8) ∉ (base64 false bytes).reverse :=
    fun member => (mem_base64 (mem_reverse.mp member)).1 rfl
  have padding := datauriPadding_eq absent (show 0 + k ≤ 2 by omega)
  have digits : ¬ ((base64 false bytes).any fun c => 63 < datauriDigit c) = true := by
    rw [any_eq_true]
    rintro ⟨c, member, beyond⟩
    exact (mem_base64 member).2 (of_decide_eq_true beyond)
  have fits : (base64 false bytes).length % 4 ≠ 1 := by omega
  have size := decodeBase64_length fits
  rw [base64_decodes] at size
  rw [datauriParseBase64, split, kIs, reverse_append, reverse_replicate, padding]
  dsimp only
  rw [reverse_reverse, if_neg (by omega), if_neg digits, ← size]

/-! ## URIs -/

/-- What is in front of the data of a URI: `data:`, of any case, a media type, and a comma. -/
structure DataHead (head media : Bytes) : Prop where
  scheme : ∃ scheme, equalCase scheme (ascii "data:") = true ∧ head = scheme ++ media ++ [44]
  media : 44 ∉ media

theorem datauriInit_eq {head media : Bytes} (whole : DataHead head media) (data : Bytes) : datauriInit (head ++ data) =
      if (ascii ";base64").length ≤ media.length ∧
          cstrViewEqualCase (media.drop (media.length - (ascii ";base64").length)) (ascii ";base64")
      then datauriParseBase64 data else datauriParsePercent data := by
  obtain ⟨⟨scheme, same, rfl⟩, absent⟩ := whole
  have starts : cstrViewStartsCase (scheme ++ media ++ [44] ++ data) (ascii "data:") = true :=
    cstrViewStartsCase_iff.mpr ⟨scheme, media ++ [44] ++ data, by simp, same⟩
  have length : (ascii "data:").length = scheme.length := by
    simp only [equalCase, decide_eq_true_eq] at same
    simpa using (congrArg List.length same).symm
  have rest : (scheme ++ media ++ [44] ++ data).drop (ascii "data:").length = media ++ 44 :: data := by
    rw [length, append_assoc, append_assoc, drop_left]
    rfl
  rw [datauriInit]
  dsimp only
  rw [if_pos starts, rest, cut_append data absent, Option.bind_some]

/-- The media type ends with the mark of base64. -/
def IsBase64 (media : Bytes) : Prop :=
  ∃ type mark, media = type ++ mark ∧ equalCase mark (ascii ";base64") = true

theorem isBase64_iff (media : Bytes) : IsBase64 media ↔ (ascii ";base64").length ≤ media.length ∧
    cstrViewEqualCase (media.drop (media.length - (ascii ";base64").length)) (ascii ";base64") = true := by
  rw [cstrViewEqualCase_eq]
  constructor
  · rintro ⟨type, mark, rfl, same⟩
    have length : mark.length = (ascii ";base64").length := by
      have same' := same
      simp only [equalCase, decide_eq_true_eq] at same'
      simpa using congrArg List.length same'
    rw [length_append, length, Nat.add_sub_cancel, drop_left]
    exact ⟨Nat.le_add_left _ _, same⟩
  · rintro ⟨-, same⟩
    exact ⟨_, _, (take_append_drop _ _).symm, same⟩

theorem datauriInit_some {uri : Bytes} {d : DataUri} (accepted : datauriInit uri = some d) :
    ∃ rest, datauriParseBase64 rest = some d ∨ datauriParsePercent rest = some d := by
  rw [datauriInit] at accepted
  dsimp only at accepted
  split at accepted
  · obtain ⟨⟨media, rest⟩, -, checked⟩ := Option.bind_eq_some_iff.mp accepted
    refine ⟨rest, ?_⟩
    dsimp only at checked
    split at checked
    · exact .inl checked
    · exact .inr checked
  · exact nomatch accepted

theorem parseBase64_some {rest : Bytes} {d : DataUri} (checked : datauriParseBase64 rest = some d) :
    d.base64 = true ∧ d.encoded.length % 4 ≠ 1 ∧
      d.size = d.encoded.length / 4 * 3 + (if d.encoded.length % 4 ≠ 0 then d.encoded.length % 4 - 1 else 0) := by
  rw [datauriParseBase64] at checked
  dsimp only at checked
  split at checked
  · exact nomatch checked
  · next groups =>
    split at checked
    · exact nomatch checked
    · obtain rfl := Option.some.inj checked
      exact ⟨rfl, fun one => groups (.inl one), rfl⟩

/-- `data:` URIs: what any bytes are written as is accepted and decodes to them, and of any text that is
accepted as many bytes are written as its size says, from within it. -/
theorem data_uris : (∀ (head media bytes : Bytes) (padded : Bool), DataHead head media → IsBase64 media →
      ∃ d, datauriInit (head ++ base64 padded bytes) = some d ∧ d.size = bytes.length ∧ datauriDecode d = some bytes) ∧
    (∀ head media bytes text : Bytes, DataHead head media → ¬ IsBase64 media → Percent bytes text →
      ∃ d, datauriInit (head ++ text) = some d ∧ d.size = bytes.length ∧ datauriDecode d = some bytes) ∧
    ∀ (uri : Bytes) (d : DataUri), datauriInit uri = some d →
      ∃ out, datauriDecode d = some out ∧ out.length = d.size := by
  refine ⟨fun head media bytes padded whole marked => ?_, fun head media bytes text whole plain percent => ?_,
    fun uri d accepted => ?_⟩
  · refine ⟨⟨base64 false bytes, bytes.length, true⟩, ?_, rfl, ?_⟩
    · rw [datauriInit_eq whole, if_pos ((isBase64_iff media).mp marked), parse_base64]
    · exact congrArg some (base64_decodes bytes)
  · obtain ⟨size, decodes⟩ := percent_decodes percent
    refine ⟨⟨text, bytes.length, false⟩, ?_, rfl, decodes⟩
    rw [datauriInit_eq whole, if_neg fun marked => plain ((isBase64_iff media).mpr marked), datauriParsePercent, size,
      Option.map_some]
  · obtain ⟨rest, checked⟩ := datauriInit_some accepted
    rcases checked with base64 | percent
    · obtain ⟨based, whole, size⟩ := parseBase64_some base64
      refine ⟨datauriDecodeBase64 d.encoded, ?_, ?_⟩
      · rw [datauriDecode, if_pos based]
      · rw [size, decodeBase64_length whole]
    · obtain ⟨size, counted, rfl⟩ := Option.map_eq_some_iff.mp percent
      exact percent_size counted

/-- Of a text in base64. -/
theorem data_uris_hello : ∃ d, datauriInit (ascii "data:text/plain;base64," ++ base64 true (ascii "Hello")) = some d ∧
    d.size = 5 ∧ datauriDecode d = some (ascii "Hello") := by
  apply data_uris.1 _ (ascii "text/plain;base64")
  · exact ⟨⟨ascii "data:", by decide, by decide⟩, by decide⟩
  · exact ⟨ascii "text/plain", ascii ";base64", by decide, by decide⟩

/-- Bytes that are not in base64, after a head that says that they are. -/
theorem percent_after_base64 : ¬ ∀ head media bytes text : Bytes, DataHead head media → Percent bytes text →
      ∃ d, datauriInit (head ++ text) = some d ∧ d.size = bytes.length ∧ datauriDecode d = some bytes := by
  intro decodes
  have head : DataHead (ascii "data:;base64,") (ascii ";base64") :=
    ⟨⟨ascii "data:", by decide, by decide⟩, by decide⟩
  obtain ⟨d, accepted, -⟩ := decodes _ _ (ascii "!") (ascii "!") head (.plain (by decide) .nil)
  have refused : datauriInit (ascii "data:;base64," ++ ascii "!") = none := by decide
  exact nomatch refused.symm.trans accepted

end Askai
