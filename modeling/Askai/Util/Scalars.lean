import Askai.Util.Escape

/-!
# UTF-8 text and its characters

What `jb_utf8` takes for text is the UTF-8 encoding of Unicode scalar values, as RFC 3629 has it, and
`jb_mend` keeps the encodings of characters and nothing else.
-/

namespace Askai

open Library List

/-! ## Bytes of a character -/

theorem continues_iff (b : UInt8) : b &&& 0xc0 = 0x80 ↔ 0x80 ≤ b.toNat ∧ b.toNat ≤ 0xbf := by
  have all : ∀ n < 256, UInt8.ofNat n &&& 0xc0 = 0x80 ↔ 0x80 ≤ n ∧ n ≤ 0xbf := by decide +kernel
  have here := all b.toNat b.toNat_lt
  rwa [UInt8.ofNat_toNat] at here

theorem utf8Len_toNat (c : UInt8) : utf8Len c =
    if c.toNat < 0x80 then 1 else if c.toNat < 0xc2 then 0 else if c.toNat < 0xe0 then 2
    else if c.toNat < 0xf0 then 3 else if c.toNat < 0xf5 then 4 else 0 := rfl

/-- What the second byte of a character may be. -/
theorem second_toNat (a b : UInt8) (within : ¬(b < (if a = 0xe0 then 0xa0 else if a = 0xf0 then 0x90 else 0x80) ∨
      (if a = 0xed then 0x9f else if a = 0xf4 then 0x8f else 0xbf) < b)) :
    0x80 ≤ b.toNat ∧ b.toNat ≤ 0xbf ∧ (a.toNat = 0xe0 → 0xa0 ≤ b.toNat) ∧
      (a.toNat = 0xf0 → 0x90 ≤ b.toNat) ∧ (a.toNat = 0xed → b.toNat ≤ 0x9f) ∧ (a.toNat = 0xf4 → b.toNat ≤ 0x8f) := by
  simp only [← UInt8.toNat_inj, UInt8.lt_iff_toNat_lt] at within
  split_ifs at within <;> simp_all <;> omega

theorem exists_char {v : Nat} (valid : v.isValidChar) : ∃ c : Char, c.val.toNat = v := by
  have small : v < UInt32.size := by
    change v < 4294967296
    rcases valid with below | ⟨_, below⟩ <;> omega
  exact ⟨⟨UInt32.ofNat v, by
    rw [UInt32.isValidChar, UInt32.toNat_ofNat_of_lt' small]
    exact valid⟩, UInt32.toNat_ofNat_of_lt small⟩

theorem ofNat_eq {n : Nat} {b : UInt8} (same : n = b.toNat) : UInt8.ofNat n = b := by
  rw [same, UInt8.ofNat_toNat]

variable {s : Bytes}

/-- What the check takes for a character encodes one. -/
theorem utf8Starts_encodes (starts : utf8Starts s ≠ 0) :
    ∃ c : Char, String.utf8EncodeChar c = s.take (utf8Starts s) := by
  cases s with
  | nil => exact absurd rfl starts
  | cons a rest =>
    have length := utf8Starts_eq starts
    rw [length]
    rw [utf8Starts] at starts
    have fits : ¬(utf8Len a = 0 ∨ rest.length + 1 < utf8Len a) := by
      intro short
      rw [if_pos short] at starts
      exact starts rfl
    rw [if_neg fits] at starts
    rcases eq_or_ne (utf8Len a) 1 with one | several
    · have low : a.toNat < 0x80 := UInt8.lt_iff_toNat_lt.mp (lt_of_utf8Len one)
      obtain ⟨c, value⟩ := @exists_char a.toNat (.inl (by omega))
      refine ⟨c, ?_⟩
      rw [one, String.utf8EncodeChar, value, if_pos (by omega), UInt8.ofNat_toNat]
      rfl
    rw [if_neg several] at starts
    have within : ¬(rest.headD 0 < (if a = 0xe0 then 0xa0 else if a = 0xf0 then 0x90 else 0x80) ∨
        (if a = 0xed then 0x9f else if a = 0xf4 then 0x8f else 0xbf) < rest.headD 0) := by
      intro outside
      rw [if_pos outside] at starts
      exact starts rfl
    rw [if_neg within] at starts
    have more : ((rest.drop 1).take (utf8Len a - 2)).all (fun b => b &&& 0xc0 = 0x80) = true := by
      by_contra other
      rw [if_neg other] at starts
      exact starts rfl
    have len := utf8Len_toNat a
    cases rest with
    | nil => simp only [length_nil] at fits; omega
    | cons b rest =>
      have second := second_toNat a b within
      have small := a.toNat_lt
      simp only [drop_succ_cons, drop_zero, length_cons] at more fits
      split_ifs at len with l1 l2 l3 l4 l5
      · omega
      · omega
      · obtain ⟨c, value⟩ := @exists_char ((a.toNat - 0xc0) * 64 + (b.toNat - 0x80)) (.inl (by omega))
        refine ⟨c, ?_⟩
        rw [len, String.utf8EncodeChar, value, if_neg (by omega), if_pos (by omega),
          ofNat_eq (b := a) (by omega), ofNat_eq (b := b) (by omega)]
        rfl
      · cases rest with
        | nil => simp only [length_nil] at fits; omega
        | cons d rest =>
          rw [len] at more
          have third : d &&& 0xc0 = 0x80 := by simpa using more
          rw [continues_iff] at third
          obtain ⟨c, value⟩ := @exists_char ((a.toNat - 0xe0) * 4096 + (b.toNat - 0x80) * 64 + (d.toNat - 0x80)) (by
              rw [Nat.isValidChar]
              omega)
          refine ⟨c, ?_⟩
          rw [len, String.utf8EncodeChar, value, if_neg (by omega), if_neg (by omega),
            if_pos (by omega), ofNat_eq (b := a) (by omega), ofNat_eq (b := b) (by omega), ofNat_eq (b := d) (by omega)]
          rfl
      · cases rest with
        | nil => simp only [length_nil] at fits; omega
        | cons d rest =>
          cases rest with
          | nil => simp only [length_cons, length_nil] at fits; omega
          | cons e rest =>
            rw [len] at more
            have both : d &&& 0xc0 = 0x80 ∧ e &&& 0xc0 = 0x80 := by simpa using more
            rw [continues_iff, continues_iff] at both
            obtain ⟨c, value⟩ := @exists_char
              ((a.toNat - 0xf0) * 262144 + (b.toNat - 0x80) * 4096 + (d.toNat - 0x80) * 64 + (e.toNat - 0x80)) (by
                rw [Nat.isValidChar]
                omega)
            refine ⟨c, ?_⟩
            rw [len, String.utf8EncodeChar, value, if_neg (by omega), if_neg (by omega),
              if_neg (by omega), ofNat_eq (b := a) (by omega), ofNat_eq (b := b) (by omega),
              ofNat_eq (b := d) (by omega), ofNat_eq (b := e) (by omega)]
            rfl
      · omega

/-- Bytes within the bounds are a character for the check. -/
theorem utf8Starts_within {a b : UInt8} {n : Nat} {rest : Bytes} (len : utf8Len a = n) (some_ : 2 ≤ n)
    (fits : n ≤ rest.length + 2) (tail : 0x80 ≤ b.toNat ∧ b.toNat ≤ 0xbf)
    (least : (a.toNat = 0xe0 → 0xa0 ≤ b.toNat) ∧ (a.toNat = 0xf0 → 0x90 ≤ b.toNat))
    (most : (a.toNat = 0xed → b.toNat ≤ 0x9f) ∧ (a.toNat = 0xf4 → b.toNat ≤ 0x8f))
    (more : ∀ d ∈ rest.take (n - 2), 0x80 ≤ d.toNat ∧ d.toNat ≤ 0xbf) : utf8Starts (a :: b :: rest) = n := by
  rw [utf8Starts, len, if_neg (by rw [length_cons]; omega), if_neg (by omega), if_neg, if_pos]
  · rw [all_eq_true]
    intro d mem
    rw [decide_eq_true_iff, continues_iff]
    exact more d mem
  · simp only [headD_cons, ← UInt8.toNat_inj, UInt8.lt_iff_toNat_lt]
    split_ifs <;> simp_all

/-- The encoding of a character is one for the check. -/
theorem utf8Starts_encode (c : Char) (t : Bytes) :
    utf8Starts (String.utf8EncodeChar c ++ t) = (String.utf8EncodeChar c).length := by
  have valid : c.val.toNat.isValidChar := c.valid
  rw [Nat.isValidChar] at valid
  rw [String.utf8EncodeChar]
  generalize c.val.toNat = v at valid
  have low : ∀ n < 256, (UInt8.ofNat n).toNat = n := fun n small => by
    rw [UInt8.toNat_ofNat']
    omega
  split_ifs with l1 l2 l3
  · apply utf8Starts_ascii
    rw [UInt8.lt_iff_toNat_lt, low v (by omega)]
    change v < 128
    omega
  · have first := low (v / 64 % 32 + 0xc0) (by omega)
    have second := low (v % 64 + 0x80) (by omega)
    apply utf8Starts_within
    · rw [utf8Len_toNat, first, if_neg (by omega), if_neg (by omega), if_pos (by omega)]
      rfl
    all_goals simp
    all_goals omega
  · have first := low (v / 4096 % 16 + 0xe0) (by omega)
    have second := low (v / 64 % 64 + 0x80) (by omega)
    have third := low (v % 64 + 0x80) (by omega)
    apply utf8Starts_within
    · rw [utf8Len_toNat, first, if_neg (by omega), if_neg (by omega), if_neg (by omega), if_pos (by omega)]
      rfl
    all_goals simp
    all_goals omega
  · have first := low (v / 262144 % 8 + 0xf0) (by omega)
    have second := low (v / 4096 % 64 + 0x80) (by omega)
    have third := low (v / 64 % 64 + 0x80) (by omega)
    have fourth := low (v % 64 + 0x80) (by omega)
    apply utf8Starts_within
    · rw [utf8Len_toNat, first, if_neg (by omega), if_neg (by omega), if_neg (by omega),
        if_neg (by omega), if_pos (by omega)]
      rfl
    all_goals simp
    all_goals omega

/-! ## Text -/

/-- Text: the encodings of Unicode scalar values, one behind the other. -/
def IsUtf8 (s : Bytes) : Prop :=
  ∃ cs : List Char, s = cs.flatMap String.utf8EncodeChar

theorem IsUtf8.nil : IsUtf8 [] :=
  ⟨[], rfl⟩

theorem IsUtf8.cons (c : Char) (text : IsUtf8 s) : IsUtf8 (String.utf8EncodeChar c ++ s) := by
  obtain ⟨cs, rfl⟩ := text
  exact ⟨c :: cs, rfl⟩

/-- Text that begins with a character's first byte is that character's encoding, and a rest. -/
theorem utf8Starts_split (starts : utf8Starts s ≠ 0) :
    ∃ c : Char, s = String.utf8EncodeChar c ++ s.drop (utf8Starts s) ∧
      (String.utf8EncodeChar c).length = utf8Starts s := by
  obtain ⟨c, same⟩ := utf8Starts_encodes starts
  have bound := utf8Starts_le_length s
  refine ⟨c, ?_, ?_⟩
  · rw [same, take_append_drop]
  · rw [same, length_take, Nat.min_eq_left bound]

/-- What `jb_utf8` measures is text. -/
theorem isUtf8_take (s : Bytes) : IsUtf8 (s.take (jbUtf8 s)) := by
  induction s using jbUtf8.induct with
  | case1 s starts ih =>
    obtain ⟨c, same⟩ := utf8Starts_encodes starts
    rw [jbUtf8_of_starts starts, take_add, ← same]
    exact ih.cons c
  | case2 s starts =>
    rw [jbUtf8_of_not_starts (by simpa using starts), take_zero]
    exact .nil

/-- No longer prefix is text. -/
theorem le_jbUtf8 (cs : List Char) (t : Bytes) :
    (cs.flatMap String.utf8EncodeChar).length ≤ jbUtf8 (cs.flatMap String.utf8EncodeChar ++ t) := by
  induction cs with
  | nil => exact Nat.zero_le _
  | cons c cs ih =>
    rw [flatMap_cons, append_assoc]
    have starts := utf8Starts_encode c (cs.flatMap String.utf8EncodeChar ++ t)
    have some_ : utf8Starts (String.utf8EncodeChar c ++ (cs.flatMap String.utf8EncodeChar ++ t)) ≠ 0 := by
      rw [starts]
      exact fun none_ => String.utf8EncodeChar_ne_nil (length_eq_zero_iff.mp none_)
    rw [jbUtf8_of_starts some_, starts, drop_left, length_append]
    exact Nat.add_le_add_left ih _

theorem jbUtf8_of_isUtf8 (text : IsUtf8 s) : jbUtf8 s = s.length := by
  obtain ⟨cs, rfl⟩ := text
  have least := le_jbUtf8 cs []
  rw [append_nil] at least
  exact Nat.le_antisymm (jbUtf8_le_length _) least

theorem isUtf8_iff : IsUtf8 s ↔ jbUtf8 s = s.length := by
  constructor
  · exact jbUtf8_of_isUtf8
  · intro whole
    have text := isUtf8_take s
    rwa [whole, take_length] at text

/-! ## Mended text -/

/-- Mended text is text. -/
theorem isUtf8_mend (s : Bytes) : IsUtf8 (mend s) := by
  induction s using mend.induct with
  | case1 s starts ih =>
    obtain ⟨c, same⟩ := utf8Starts_encodes starts
    rw [mend_of_starts starts, ← same]
    exact ih.cons c
  | case2 s =>
    rw [mend_nil]
    exact .nil
  | case3 c rest starts ih =>
    rw [mend_cons (by simpa using starts)]
    exact ih.cons '?'

/-- The byte at `k` is one of the encoding of a character that is there. -/
def InChar (s : Bytes) (k : Nat) : Prop :=
  ∃ i c, i ≤ k ∧ k < i + (String.utf8EncodeChar c).length ∧ String.utf8EncodeChar c <+: s.drop i

/-- No character begins within another. -/
theorem utf8Starts_drop {i : Nat} (some_ : 0 < i) (inside : i < utf8Starts s) : utf8Starts (s.drop i) = 0 := by
  by_contra starts
  obtain ⟨c, whole, length⟩ := utf8Starts_split (s := s) (by omega)
  obtain ⟨d, rest, more⟩ := utf8Starts_split starts
  have here : i < (String.utf8EncodeChar c).length := by omega
  have long : 0 < (String.utf8EncodeChar d).length := by omega
  have same : (String.utf8EncodeChar c)[i] = (String.utf8EncodeChar d)[0] := by
    have left : (s.drop i)[0]? = some (String.utf8EncodeChar c)[i] := by
      rw [List.getElem?_drop, whole, List.getElem?_append_left (by simpa using here)]
      exact List.getElem?_eq_getElem here
    rw [rest, List.getElem?_append_left long, List.getElem?_eq_getElem long] at left
    exact (Option.some.inj left).symm
  have first := (@UInt8.isUTF8FirstByte_getElem_utf8EncodeChar d _ long).mpr rfl
  rw [← same, UInt8.isUTF8FirstByte_getElem_utf8EncodeChar] at first
  omega

/-- Where a character begins, its encoding lies. -/
theorem inChar_of_starts {k : Nat} (inside : k < utf8Starts s) : InChar s k := by
  obtain ⟨c, whole, length⟩ := utf8Starts_split (s := s) (by omega)
  refine ⟨0, c, Nat.zero_le _, by omega, ?_⟩
  rw [drop_zero, whole]
  exact prefix_append ..

/-- A byte past the character that a text begins with is in a character of the rest. -/
theorem inChar_drop {m k : Nat} (other : ∀ i < m, utf8Starts (s.drop i) ≠ 0 → i + utf8Starts (s.drop i) ≤ m) :
    InChar s (m + k) ↔ InChar (s.drop m) k := by
  constructor
  · rintro ⟨i, c, before, behind, there⟩
    rcases Nat.lt_or_ge i m with early | late
    · obtain ⟨t, whole⟩ := there
      have length := utf8Starts_encode c t
      rw [whole] at length
      have some_ : 0 < (String.utf8EncodeChar c).length :=
        length_pos_of_ne_nil String.utf8EncodeChar_ne_nil
      have most := other i early (by omega)
      omega
    · refine ⟨i - m, c, by omega, by omega, ?_⟩
      rw [drop_drop, Nat.add_sub_cancel' late]
      exact there
  · rintro ⟨i, c, before, behind, there⟩
    refine ⟨m + i, c, by omega, by omega, ?_⟩
    rw [← drop_drop]
    exact there

/-- Mending keeps the bytes of characters, and makes the others question marks. -/
theorem getElem?_mend (s : Bytes) (k : Nat) (inside : k < s.length) :
    (InChar s k → (mend s)[k]? = s[k]?) ∧ (¬InChar s k → (mend s)[k]? = some 63) := by
  induction s using mend.induct generalizing k with
  | case1 s starts ih =>
    have bound := utf8Starts_le_length s
    have long : (s.take (utf8Starts s)).length = utf8Starts s := by
      rw [length_take, Nat.min_eq_left bound]
    rw [mend_of_starts starts]
    rcases Nat.lt_or_ge k (utf8Starts s) with early | late
    · constructor
      · intro _
        rw [List.getElem?_append_left (by omega), List.getElem?_take_of_lt early]
      · exact fun none_ => absurd (inChar_of_starts early) none_
    · obtain ⟨j, rfl⟩ := Nat.exists_eq_add_of_le late
      have rest := ih j (by rw [length_drop]; omega)
      have same : InChar s (utf8Starts s + j) ↔ InChar (s.drop (utf8Starts s)) j := by
        apply inChar_drop
        intro i before here
        rcases Nat.eq_zero_or_pos i with rfl | some_
        · rw [drop_zero, Nat.zero_add]
        · exact absurd (utf8Starts_drop some_ before) here
      rw [List.getElem?_append_right (by omega), long, Nat.add_sub_cancel_left, same]
      rw [List.getElem?_drop] at rest
      exact rest
  | case2 s => simp at inside
  | case3 c rest starts ih =>
    have none_ : utf8Starts (c :: rest) = 0 := by simpa using starts
    rw [mend_cons none_]
    have same : ∀ j, InChar (c :: rest) (1 + j) ↔ InChar rest j := by
      intro j
      apply inChar_drop (s := c :: rest) (m := 1)
      intro i before here
      obtain rfl : i = 0 := by omega
      exact absurd none_ here
    cases k with
    | zero =>
      constructor
      · rintro ⟨i, d, before, -, t, whole⟩
        obtain rfl : i = 0 := by omega
        have length := utf8Starts_encode d t
        rw [whole, drop_zero, none_] at length
        exact absurd (length_eq_zero_iff.mp length.symm) String.utf8EncodeChar_ne_nil
      · exact fun _ => rfl
    | succ k =>
      rw [length_cons] at inside
      have more := ih k (by omega)
      rw [Nat.add_comm k 1, same, Nat.add_comm 1 k, List.getElem?_cons_succ, List.getElem?_cons_succ]
      exact more

/-- A text mended in pieces: each but the last leaves the bytes that more may complete to the next. -/
def mendPieces (left : Bytes) : List Bytes → Bytes → Bytes
  | [], last => jbMend true (left ++ last)
  | piece :: pieces, last =>
    let done := jbMend false (left ++ piece)
    done ++ mendPieces ((left ++ piece).drop done.length) pieces last

theorem mendPieces_eq (left : Bytes) (pieces : List Bytes) (last : Bytes) :
    mendPieces left pieces last = mend (left ++ pieces.flatten ++ last) := by
  induction pieces generalizing left with
  | nil =>
    rw [mendPieces, jbMend_last, flatten_nil, append_nil]
  | cons piece pieces ih =>
    have mended := (jbMend_more (left ++ piece)).1
    rw [mendPieces]
    rw [ih, flatten_cons, append_assoc (List.drop ..), ← mended.rest]
    simp only [append_assoc]

/-- `jb_utf8` measures the longest prefix that is text, and `jb_mend`, in whatever pieces, keeps the
bytes of characters and makes the others question marks. -/
theorem utf8_measured_and_mended (s : Bytes) :
    (IsUtf8 (s.take (jbUtf8 s)) ∧ ∀ n ≤ s.length, IsUtf8 (s.take n) → n ≤ jbUtf8 s) ∧
    (∀ pieces last, pieces.flatten ++ last = s → mendPieces [] pieces last = jbMend true s) ∧
    IsUtf8 (jbMend true s) ∧ (jbMend true s).length = s.length ∧
    ∀ k < s.length, (InChar s k → (jbMend true s)[k]? = s[k]?) ∧ (¬InChar s k → (jbMend true s)[k]? = some 63) := by
  refine ⟨⟨isUtf8_take s, ?_⟩, ?_, ?_, ?_, ?_⟩
  · rintro n inside ⟨cs, same⟩
    have least := le_jbUtf8 cs (s.drop n)
    rw [← same, take_append_drop, length_take, Nat.min_eq_left inside] at least
    exact least
  · rintro pieces last rfl
    rw [mendPieces_eq, jbMend_last, nil_append]
  · rw [jbMend_last]
    exact isUtf8_mend s
  · rw [jbMend_last, length_mend]
  · rw [jbMend_last]
    exact getElem?_mend s

end Askai
