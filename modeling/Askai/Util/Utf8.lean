import Askai.Library.Bytes
import Mathlib.Tactic

/-!
# UTF-8 text

The UTF-8 check and the mending of text that is none (`jb_utf8`, `jb_is_text`, `jb_mend`), and that
text mended piece by piece is mended as a whole.
-/

namespace Askai

open Library List

/-! ## Characters -/

/-- The bytes of a character whose first byte is `c`; 0 if none begins so. -/
def utf8Len (c : UInt8) : Nat :=
  if c < 0x80 then 1
  else if c < 0xc2 then 0
  else if c < 0xe0 then 2
  else if c < 0xf0 then 3
  else if c < 0xf5 then 4
  else 0

/-- The body of the loop of `jb_utf8`: the bytes of the character that the text begins with, or 0. -/
def utf8Starts : Bytes → Nat
  | [] => 0
  | c :: rest =>
    let n := utf8Len c
    let lo : UInt8 := if c = 0xe0 then 0xa0 else if c = 0xf0 then 0x90 else 0x80
    let hi : UInt8 := if c = 0xed then 0x9f else if c = 0xf4 then 0x8f else 0xbf
    if n = 0 ∨ rest.length + 1 < n then 0
    else if n = 1 then 1
    else if rest.headD 0 < lo ∨ hi < rest.headD 0 then 0
    else if ((rest.drop 1).take (n - 2)).all fun b => b &&& 0xc0 = 0x80 then n
    else 0

theorem utf8Len_le (c : UInt8) : utf8Len c ≤ 4 := by
  unfold utf8Len
  split_ifs <;> omega

theorem utf8Starts_le_length (s : Bytes) : utf8Starts s ≤ s.length := by
  cases s with
  | nil => exact Nat.le_refl _
  | cons c rest =>
    unfold utf8Starts
    simp only [length_cons]
    split_ifs <;> omega

variable {s : Bytes} {c : UInt8}

/-- A text that is as long as its first byte asks begins with the same character whatever follows. -/
theorem utf8Starts_append_of_fits {rest : Bytes} (fits : utf8Len c ≤ rest.length + 1)
    (t : Bytes) : utf8Starts (c :: rest ++ t) = utf8Starts (c :: rest) := by
  rw [cons_append]
  unfold utf8Starts
  dsimp only
  have whole : ¬rest.length + 1 < utf8Len c := by omega
  have longer : ¬(rest ++ t).length + 1 < utf8Len c := by
    rw [length_append]
    omega
  simp only [whole, longer, or_false]
  cases rest with
  | nil =>
    rw [length_nil] at fits
    have short : utf8Len c = 0 ∨ utf8Len c = 1 := by omega
    rcases short with short | short <;> simp [short]
  | cons b rest =>
    have same : (rest ++ t).take (utf8Len c - 2) = rest.take (utf8Len c - 2) := by
      apply take_append_of_le_length
      rw [length_cons] at fits
      omega
    simp only [cons_append, headD_cons, drop_succ_cons, drop_zero, same]

theorem utf8Len_le_of_starts {rest : Bytes} (starts : utf8Starts (c :: rest) ≠ 0) : utf8Len c ≤ rest.length + 1 := by
  apply Nat.le_of_not_lt
  intro short
  apply starts
  unfold utf8Starts
  dsimp only
  rw [if_pos (.inr short)]

theorem utf8Starts_append (starts : utf8Starts s ≠ 0) (t : Bytes) : utf8Starts (s ++ t) = utf8Starts s := by
  cases s with
  | nil => exact absurd rfl starts
  | cons c rest => exact utf8Starts_append_of_fits (utf8Len_le_of_starts starts) t

theorem utf8Starts_append_of_long (long : 4 ≤ s.length) (t : Bytes) : utf8Starts (s ++ t) = utf8Starts s := by
  cases s with
  | nil => simp at long
  | cons c rest => exact utf8Starts_append_of_fits (Nat.le_trans (utf8Len_le c) long) t

/-! ## The check -/

/-- `jb_utf8`: the length of the UTF-8 text that the text begins with. -/
def jbUtf8 (s : Bytes) : Nat :=
  if _starts : utf8Starts s ≠ 0 then utf8Starts s + jbUtf8 (s.drop (utf8Starts s)) else 0
termination_by s.length
decreasing_by
  have bound := utf8Starts_le_length s
  rw [length_drop]
  omega

/-- `jb_is_text`. -/
def jbIsText (t : Bytes) : Bool :=
  t = [] || (nul ∉ t && jbUtf8 t = t.length)

theorem jbUtf8_of_starts (starts : utf8Starts s ≠ 0) : jbUtf8 s = utf8Starts s + jbUtf8 (s.drop (utf8Starts s)) := by
  rw [jbUtf8, dif_pos starts]

theorem jbUtf8_of_not_starts (starts : utf8Starts s = 0) : jbUtf8 s = 0 := by
  rw [jbUtf8, dif_neg (by simpa using starts)]

theorem jbUtf8_le_length (s : Bytes) : jbUtf8 s ≤ s.length := by
  induction s using jbUtf8.induct with
  | case1 s starts ih =>
    have bound := utf8Starts_le_length s
    rw [jbUtf8_of_starts starts]
    rw [length_drop] at ih
    omega
  | case2 s starts =>
    rw [jbUtf8_of_not_starts (by simpa using starts)]
    exact Nat.zero_le _

/-! ## Mending -/

/-- The text with each byte that is no part of UTF-8 made a question mark. -/
def mend (s : Bytes) : Bytes :=
  if _starts : utf8Starts s ≠ 0 then s.take (utf8Starts s) ++ mend (s.drop (utf8Starts s))
  else
    match s with
    | [] => []
    | _ :: rest => 63 :: mend rest
termination_by s.length
decreasing_by
  · have bound := utf8Starts_le_length s
    rw [length_drop]
    omega
  · simp

theorem mend_of_starts (starts : utf8Starts s ≠ 0) :
    mend s = s.take (utf8Starts s) ++ mend (s.drop (utf8Starts s)) := by
  rw [mend, dif_pos starts]

theorem mend_cons {rest : Bytes} (starts : utf8Starts (c :: rest) = 0) : mend (c :: rest) = 63 :: mend rest := by
  rw [mend, dif_neg (by simpa using starts)]

@[simp]
theorem mend_nil : mend [] = [] := by
  rw [mend, dif_neg (by simp [utf8Starts])]

@[simp]
theorem length_mend (s : Bytes) : (mend s).length = s.length := by
  induction s using mend.induct with
  | case1 s starts ih =>
    have bound := utf8Starts_le_length s
    rw [mend_of_starts starts, length_append, ih, length_take, length_drop]
    omega
  | case2 s => simp
  | case3 c rest starts ih =>
    rw [mend_cons (by simpa using starts), length_cons, ih, length_cons]

/-- `jb_mend`: the bytes that it mended. -/
def jbMend (last : Bool) (s : Bytes) : Bytes :=
  match _left : s.drop (jbUtf8 s) with
  | [] => s
  | _ :: rest =>
    if !last && s.length - jbUtf8 s < 4 then s.take (jbUtf8 s)
    else s.take (jbUtf8 s) ++ 63 :: jbMend last rest
termination_by s.length
decreasing_by
  have length := congrArg List.length _left
  rw [length_drop, length_cons] at length
  omega

/-- The bytes of `w` begin the mended text, and the rest is mended as if alone. -/
structure Mended (s w : Bytes) : Prop where
  length : w.length ≤ s.length
  rest : ∀ t, mend (s ++ t) = w ++ mend (s.drop w.length ++ t)

theorem Mended.nil (s : Bytes) : Mended s [] :=
  ⟨Nat.zero_le _, fun t => by simp⟩

theorem Mended.append {s v w : Bytes} (front : Mended s v) (back : Mended (s.drop v.length) w) : Mended s (v ++ w) := by
  constructor
  · have inside := back.length
    have outside := front.length
    rw [length_drop] at inside
    rw [length_append]
    omega
  · intro t
    rw [front.rest t, back.rest t, append_assoc, drop_drop, length_append]

/-- What is mended of a piece of the text is mended of the text. -/
theorem Mended.of_take {s w : Bytes} {n : Nat} (mended : Mended (s.take n) w) : Mended s w := by
  have short : w.length ≤ (s.take n).length := mended.length
  rw [length_take] at short
  constructor
  · omega
  · intro t
    have whole := mended.rest (s.drop n ++ t)
    rw [← append_assoc, take_append_drop] at whole
    rw [whole, ← append_assoc, ← drop_append_of_le_length (by simpa using short), take_append_drop]

theorem Mended.char (starts : utf8Starts s ≠ 0) : Mended s (s.take (utf8Starts s)) := by
  have bound := utf8Starts_le_length s
  have length : (s.take (utf8Starts s)).length = utf8Starts s := by
    rw [length_take]
    omega
  constructor
  · omega
  · intro t
    have same := utf8Starts_append starts t
    have whole : utf8Starts (s ++ t) ≠ 0 := by omega
    rw [mend_of_starts whole, same, take_append_of_le_length bound, drop_append_of_le_length bound, length]

theorem Mended.mark {rest : Bytes} (starts : utf8Starts (c :: rest) = 0)
    (long : 4 ≤ (c :: rest).length) : Mended (c :: rest) [63] := by
  constructor
  · simp
  · intro t
    have same := utf8Starts_append_of_long long t
    rw [starts] at same
    rw [cons_append] at same ⊢
    rw [mend_cons same]
    rfl

/-- UTF-8 text is mended as it is. -/
theorem Mended.jbUtf8 (s : Bytes) : Mended s (s.take (jbUtf8 s)) := by
  induction s using jbUtf8.induct with
  | case1 s starts ih =>
    have bound := utf8Starts_le_length s
    have length : (s.take (utf8Starts s)).length = utf8Starts s := by
      rw [length_take]
      omega
    have both := (Mended.char starts).append (w := (s.drop (utf8Starts s)).take _) (by
      rw [length]
      exact ih)
    rwa [← take_add, ← jbUtf8_of_starts starts] at both
  | case2 s starts =>
    rw [jbUtf8_of_not_starts (by simpa using starts), take_zero]
    exact .nil s

/-- No character begins where the check stops. -/
theorem utf8Starts_drop_jbUtf8 (s : Bytes) : utf8Starts (s.drop (jbUtf8 s)) = 0 := by
  induction s using jbUtf8.induct with
  | case1 s starts ih =>
    rw [jbUtf8_of_starts starts, ← drop_drop]
    exact ih
  | case2 s starts =>
    have none : utf8Starts s = 0 := by simpa using starts
    rw [jbUtf8_of_not_starts none, drop_zero]
    exact none

theorem mend_of_jbUtf8 (text : jbUtf8 s = s.length) : mend s = s := by
  have whole := (Mended.jbUtf8 s).rest []
  simpa [text] using whole

theorem length_take_jbUtf8 (s : Bytes) : (s.take (jbUtf8 s)).length = jbUtf8 s := by
  have bound := jbUtf8_le_length s
  rw [length_take]
  omega

/-- `jb_mend` at the end of a text mends all of it. -/
theorem jbMend_last (s : Bytes) : jbMend true s = mend s := by
  induction s using jbMend.induct true with
  | case1 s left =>
    rw [jbMend]
    have whole : jbUtf8 s = s.length := by
      have bound := jbUtf8_le_length s
      have all := drop_eq_nil_iff.mp left
      omega
    split
    · exact (mend_of_jbUtf8 whole).symm
    · rename_i more
      rw [left] at more
      cases more
  | case2 s c rest left short => simp at short
  | case3 s c rest left short ih =>
    rw [jbMend]
    have mended := (Mended.jbUtf8 s).rest []
    have starts := utf8Starts_drop_jbUtf8 s
    rw [left] at starts
    simp only [append_nil, length_take_jbUtf8, left, mend_cons starts] at mended
    split
    · rename_i none
      rw [left] at none
      cases none
    · rename_i d more here
      rw [left] at here
      obtain ⟨rfl, rfl⟩ := List.cons.inj here
      rw [if_neg short, ih, mended]

/-- `jb_mend` before the end of a text leaves less than a character. -/
theorem jbMend_more (s : Bytes) : Mended s (jbMend false s) ∧ s.length < (jbMend false s).length + 4 := by
  induction s using jbMend.induct false with
  | case1 s left =>
    rw [jbMend]
    have whole : jbUtf8 s = s.length := by
      have bound := jbUtf8_le_length s
      have all := drop_eq_nil_iff.mp left
      omega
    have mended := Mended.jbUtf8 s
    rw [whole, take_length] at mended
    split
    · exact ⟨mended, by omega⟩
    · rename_i more
      rw [left] at more
      cases more
  | case2 s c rest left short =>
    rw [jbMend]
    split
    · rename_i none
      rw [left] at none
      cases none
    · rw [if_pos short]
      refine ⟨.jbUtf8 s, ?_⟩
      simp only [Bool.not_false, Bool.true_and, decide_eq_true_eq] at short
      rw [length_take_jbUtf8]
      omega
  | case3 s c rest left short ih =>
    rw [jbMend]
    split
    · rename_i none
      rw [left] at none
      cases none
    · rename_i d more here
      rw [left] at here
      obtain ⟨rfl, rfl⟩ := List.cons.inj here
      rw [if_neg short]
      have starts := utf8Starts_drop_jbUtf8 s
      have length := congrArg List.length left
      simp only [Bool.not_false, Bool.true_and, decide_eq_true_eq, Nat.not_lt] at short
      rw [length_drop, length_cons] at length
      rw [left] at starts
      constructor
      · apply (Mended.jbUtf8 s).append
        rw [length_take_jbUtf8, left]
        have mark := Mended.mark starts (by simp; omega)
        exact mark.append ih.1
      · rw [length_append, length_cons, length_take_jbUtf8]
        have fewer := ih.2
        omega

/-! ## Bytes below 128 -/

theorem utf8Len_ascii (low : c < 0x80) : utf8Len c = 1 := by
  rw [utf8Len, if_pos low]

theorem utf8Starts_ascii (low : c < 0x80) (rest : Bytes) : utf8Starts (c :: rest) = 1 := by
  unfold utf8Starts
  simp [utf8Len_ascii low]

end Askai
