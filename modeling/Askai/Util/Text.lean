import Askai.Library.Bytes

/-!
# Text

What the program's parts do with views of bytes (`cstr_view.h`, `util.h`).
-/

namespace Askai

open Library List

/-! ## Views -/

/-- The loop of `cstr_view_equal_case`. -/
def cstrViewEqualCase : Bytes → Bytes → Bool
  | [], [] => true
  | x :: left, y :: right =>
    let a := x ||| 32
    let b := y ||| 32
    if a ≠ b || (x ≠ y && (a < 97 || 122 < a)) then false else cstrViewEqualCase left right
  | _, _ => false

/-- A space or a tab. -/
def blank (c : UInt8) : Bool :=
  c = space || c = tab

/-- `cstr_view_trim`. -/
def cstrViewTrim (text : Bytes) : Bytes :=
  (text.rdropWhile fun c => blank c || c = cr || c = lf).dropWhile blank

/-- `cstr_view_trim_end`. -/
def cstrViewTrimEnd (text : Bytes) : Bytes :=
  text.rdropWhile fun c => blank c || c = cr || c = lf

/-- `cstr_view_starts_case`. -/
def cstrViewStartsCase (text start : Bytes) : Bool :=
  start.length ≤ text.length && cstrViewEqualCase (text.take start.length) start

/-! ## Words and digits -/

/-- `UTIL_DECIMAL`. -/
def utilDecimalMax : Nat := 20

/-- `util_decimal`. -/
def utilDecimal (n : Nat) : Bytes :=
  if n = 0 then [48] else (Nat.digits 10 n).reverse.map fun d => UInt8.ofNat (48 + d)

/-- A decimal digit. -/
def digit (c : UInt8) : Bool :=
  48 ≤ c && c ≤ 57

/-- The loop of `util_digits`, from digit `i` on: how many digits, and the number. -/
def utilDigits (s : Bytes) (max i value : Nat) : Nat × Nat :=
  match s with
  | [] => (i, value)
  | c :: s =>
    if digit c then
      let d := c.toNat - 48
      if max < d || (max - d) / 10 < value then (0, 0)
      else utilDigits s max (i + 1) (value * 10 + d)
    else (i, value)

/-- `util_number`, of a `uint64_t`: none for `EINVAL`. -/
def utilNumber (s : Bytes) : Option Nat :=
  let (digits, value) := utilDigits s (2 ^ 64 - 1) 0 0
  if s ≠ [] ∧ digits = s.length then some value else none

/-- `util_hex_digit`. -/
def utilHexDigit (c : UInt8) : UInt8 :=
  let low := c ||| 0x20
  if 48 ≤ c && c ≤ 57 then c - 48 else if 97 ≤ low && low ≤ 102 then low - 97 + 10 else 16

/-- A hexadecimal digit in lower case. -/
def hexDigit (d : Nat) : UInt8 :=
  UInt8.ofNat (if d < 10 then 48 + d else 87 + d)

/-- What `%0*llx` prints of a number, in `width` digits that it fits. -/
def hexDigits (width n : Nat) : Bytes :=
  match width with
  | 0 => []
  | width + 1 => hexDigits width (n / 16) ++ [hexDigit (n % 16)]

/-- `util_is_hex`: lowercase hexadecimal digits. -/
def utilIsHex (s : Bytes) : Bool :=
  s.all fun c => (48 ≤ c && c ≤ 57) || (97 ≤ c && c ≤ 102)

/-- `util_word`. -/
def utilWord (s : Bytes) (max : Nat) : Bool :=
  s ≠ [] && s.length ≤ max && s.all fun c =>
    (97 ≤ c && c ≤ 122) || (65 ≤ c && c ≤ 90) || (48 ≤ c && c ≤ 57) || c = 95 || c = 45

/-- `UTIL_WORD_MAX`. -/
def utilWordMax : Nat := 64

/-! ## Clipped texts -/

/-- The loop of `util_clip`: back to the start of a character. -/
def clipBack (s : Bytes) : Nat → Nat
  | 0 => 0
  | n + 1 => if s.getD (n + 1) 0 &&& 0xc0 = 0x80 then clipBack s n else n + 1

/-- `util_clip`. -/
def utilClip (s : Bytes) (max : Nat) : Nat :=
  if s.length ≤ max then s.length else clipBack s max

/-- `util_text_store`: the text that storage of `size` bytes holds of the view. -/
def utilTextStore (size : Nat) (view : Bytes) : Bytes :=
  view.take (utilClip view (size - 1))

theorem utilTextStore_of_length {size : Nat} {view : Bytes} (fits : view.length ≤ size - 1) :
    utilTextStore size view = view := by
  rw [utilTextStore, utilClip, if_pos fits, take_length]

/-! ## Decimal digits -/

theorem foldl_digits (digits : List Nat) (small : ∀ d ∈ digits, d < 10) :
    (digits.reverse.map fun d => UInt8.ofNat (48 + d)).foldl
      (fun n c => n * 10 + (c.toNat - 48)) 0 = Nat.ofDigits 10 digits := by
  induction digits with
  | nil => rfl
  | cons d digits ih =>
    have value : (UInt8.ofNat (48 + d)).toNat - 48 = d := by
      have less := small d mem_cons_self
      have fits : 48 + d < UInt8.size := by
        rw [UInt8.size]
        omega
      rw [UInt8.toNat_ofNat_of_lt' fits]
      omega
    rw [reverse_cons, map_append, foldl_append, ih (forall_mem_of_forall_mem_cons small), map_singleton, foldl_cons,
      foldl_nil, value, Nat.ofDigits_cons]
    omega

/-! ## Hexadecimal digits -/

@[simp]
theorem length_hexDigits (width n : Nat) : (hexDigits width n).length = width := by
  induction width generalizing n with
  | zero => rfl
  | succ width ih => simp [hexDigits, ih]

theorem hexDigit_inj : ∀ d < 16, ∀ e < 16, hexDigit d = hexDigit e → d = e := by
  decide

theorem utilIsHex_hexDigits (width n : Nat) : utilIsHex (hexDigits width n) = true := by
  have one : ∀ d < 16, utilIsHex [hexDigit d] = true := by decide
  induction width generalizing n with
  | zero => rfl
  | succ width ih =>
    rw [hexDigits, utilIsHex, all_append, Bool.and_eq_true]
    exact ⟨ih _, one _ (Nat.mod_lt n (by omega))⟩

/-- Numbers that fit the digits are told apart by them. -/
theorem hexDigits_inj {width m n : Nat} (fits : m < 16 ^ width) (fits' : n < 16 ^ width)
    (same : hexDigits width m = hexDigits width n) : m = n := by
  induction width generalizing m n with
  | zero => omega
  | succ width ih =>
    rw [hexDigits, hexDigits] at same
    rw [Nat.pow_succ] at fits fits'
    obtain ⟨front, last⟩ := append_inj same (by simp)
    have high := ih (Nat.div_lt_of_lt_mul (by omega)) (Nat.div_lt_of_lt_mul (by omega)) front
    have low := hexDigit_inj (m % 16) (Nat.mod_lt m (by omega)) (n % 16) (Nat.mod_lt n (by omega))
      (singleton_inj.mp last)
    omega

/-! ## Letters -/

/-- An ASCII letter, in either case, as `cstr_view_equal_case` tells. -/
def letter (c : UInt8) : Prop :=
  97 ≤ c ||| 32 ∧ c ||| 32 ≤ 122

theorem lower_of_letter {c : UInt8} (is : letter c) : lower c = c ||| 32 := by
  have all : ∀ n < 256, 97 ≤ UInt8.ofNat n ||| 32 ∧ UInt8.ofNat n ||| 32 ≤ 122 →
      lower (UInt8.ofNat n) = UInt8.ofNat n ||| 32 := by decide +kernel
  have here := all c.toNat c.toNat_lt
  rw [UInt8.ofNat_toNat] at here
  exact here is

theorem lower_of_not_letter {c : UInt8} (other : ¬letter c) : lower c = c := by
  have all : ∀ n < 256, ¬(97 ≤ UInt8.ofNat n ||| 32 ∧ UInt8.ofNat n ||| 32 ≤ 122) →
      lower (UInt8.ofNat n) = UInt8.ofNat n := by decide +kernel
  have here := all c.toNat c.toNat_lt
  rw [UInt8.ofNat_toNat] at here
  exact here other

/-- A letter's lower case is a letter. -/
theorem letter_or {c : UInt8} (is : letter c) : letter (c ||| 32) := by
  rw [letter, UInt8.or_assoc, UInt8.or_self]
  exact is

theorem lower_eq_iff {x y : UInt8} : lower x = lower y ↔ x ||| 32 = y ||| 32 ∧ (x = y ∨ letter x) := by
  constructor
  · intro same
    by_cases left : letter x
    · by_cases right : letter y
      · rw [lower_of_letter left, lower_of_letter right] at same
        exact ⟨same, .inr left⟩
      · rw [lower_of_letter left, lower_of_not_letter right] at same
        exact absurd (same ▸ letter_or left) right
    · by_cases right : letter y
      · rw [lower_of_not_letter left, lower_of_letter right] at same
        exact absurd (same ▸ letter_or right) left
      · rw [lower_of_not_letter left, lower_of_not_letter right] at same
        exact ⟨by rw [same], .inl same⟩
  · rintro ⟨same, rfl | left⟩
    · rfl
    · have right : letter y := by rwa [letter, ← same]
      rw [lower_of_letter left, lower_of_letter right, same]

/-- `cstr_view_equal_case` takes a letter and its other case as equal, and no other bytes. -/
theorem cstrViewEqualCase_eq (left right : Bytes) : cstrViewEqualCase left right = equalCase left right := by
  induction left generalizing right with
  | nil => cases right <;> simp [cstrViewEqualCase, equalCase]
  | cons x left ih =>
    cases right with
    | nil => simp [cstrViewEqualCase, equalCase]
    | cons y right =>
      have head : (x ||| 32 ≠ y ||| 32 || (x ≠ y && (x ||| 32 < 97 || 122 < x ||| 32))) = true ↔ lower x ≠ lower y := by
        rw [ne_eq (lower x), lower_eq_iff, letter]
        simp only [Bool.or_eq_true, Bool.and_eq_true, decide_eq_true_eq, not_and_or, not_or, UInt8.not_le, ne_eq]
      rw [cstrViewEqualCase]
      simp only [head, ih]
      split
      · rename_i apart
        simp [equalCase, apart]
      · rename_i same
        simp only [ne_eq, not_not] at same
        simp [equalCase, same]

theorem cstrViewStartsCase_iff {text start : Bytes} : cstrViewStartsCase text start = true ↔
      ∃ front back, text = front ++ back ∧ equalCase front start = true := by
  rw [cstrViewStartsCase, cstrViewEqualCase_eq, Bool.and_eq_true, decide_eq_true_eq]
  constructor
  · rintro ⟨-, same⟩
    exact ⟨_, _, (take_append_drop start.length text).symm, same⟩
  · rintro ⟨front, back, rfl, same⟩
    have length : front.length = start.length := by
      simp only [equalCase, decide_eq_true_eq] at same
      simpa using congrArg List.length same
    rw [← length, take_left]
    exact ⟨by simp, same⟩

end Askai
