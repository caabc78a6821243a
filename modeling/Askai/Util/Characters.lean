import Askai.Util.Scalars

/-!
# Where characters begin

Text may be cut where a byte does not go on with a character (`util_clip` and `util_char_start` of
`util.h`).
-/

namespace Askai

open Library List

/-- A byte that goes on with a character. -/
def Continues (b : UInt8) : Prop :=
  b &&& 0xc0 = 0x80

instance (b : UInt8) : Decidable (Continues b) :=
  inferInstanceAs (Decidable (_ = _))

theorem continues_ofNat {n : Nat} (small : n < 64) : Continues (UInt8.ofNat (n + 0x80)) := by
  have all : ∀ n < 64, Continues (UInt8.ofNat (n + 0x80)) := by decide
  exact all n small

/-- Of the bytes of a character, all but the first go on with it. -/
theorem continues_utf8EncodeChar (c : Char) :
    ∃ b tail, String.utf8EncodeChar c = b :: tail ∧ ¬ Continues b ∧ ∀ d ∈ tail, Continues d := by
  have low : ∀ n < 0x80, ¬ Continues (UInt8.ofNat n) := by decide
  have two : ∀ n < 0x20, ¬ Continues (UInt8.ofNat (n + 0xc0)) := by decide
  have three : ∀ n < 0x10, ¬ Continues (UInt8.ofNat (n + 0xe0)) := by decide
  have four : ∀ n < 0x08, ¬ Continues (UInt8.ofNat (n + 0xf0)) := by decide
  rw [String.utf8EncodeChar]
  split
  · exact ⟨_, _, rfl, low _ (by omega), nofun⟩
  · split
    · refine ⟨_, _, rfl, two _ (Nat.mod_lt _ (by decide)), ?_⟩
      simp only [forall_mem_cons]
      exact ⟨continues_ofNat (Nat.mod_lt _ (by decide)), nofun⟩
    · split
      · refine ⟨_, _, rfl, three _ (Nat.mod_lt _ (by decide)), ?_⟩
        simp only [forall_mem_cons]
        exact ⟨continues_ofNat (Nat.mod_lt _ (by decide)), continues_ofNat (Nat.mod_lt _ (by decide)), nofun⟩
      · refine ⟨_, _, rfl, four _ (Nat.mod_lt _ (by decide)), ?_⟩
        simp only [forall_mem_cons]
        exact ⟨continues_ofNat (Nat.mod_lt _ (by decide)), continues_ofNat (Nat.mod_lt _ (by decide)),
          continues_ofNat (Nat.mod_lt _ (by decide)), nofun⟩

/-! ## Parts of text -/

theorem IsUtf8.append {s t : Bytes} (front : IsUtf8 s) (back : IsUtf8 t) : IsUtf8 (s ++ t) := by
  obtain ⟨cs, rfl⟩ := front
  obtain ⟨ds, rfl⟩ := back
  exact ⟨cs ++ ds, flatMap_append.symm⟩

theorem IsUtf8.flatten {pieces : List Bytes} (texts : ∀ piece ∈ pieces, IsUtf8 piece) : IsUtf8 pieces.flatten := by
  induction pieces with
  | nil => exact .nil
  | cons piece pieces ih =>
    obtain ⟨first, rest⟩ := forall_mem_cons.mp texts
    rw [flatten_cons]
    exact first.append (ih rest)

theorem isUtf8_ascii {s : Bytes} (low : ∀ b ∈ s, b < 0x80) : IsUtf8 s := by
  rw [isUtf8_iff]
  induction s with
  | nil => rw [jbUtf8_of_not_starts rfl, length_nil]
  | cons b s ih =>
    obtain ⟨first, rest⟩ := forall_mem_cons.mp low
    have starts := utf8Starts_ascii first s
    rw [jbUtf8_of_starts (by omega), starts, drop_succ_cons, drop_zero, ih rest, length_cons]
    omega

/-- Where a byte does not go on with a character, text is cut into texts. -/
theorem IsUtf8.cut {t : Bytes} (text : IsUtf8 t) {k : Nat} (begins : ∀ b, t[k]? = some b → ¬ Continues b) :
    IsUtf8 (t.take k) ∧ IsUtf8 (t.drop k) := by
  obtain ⟨cs, rfl⟩ := text
  induction cs generalizing k with
  | nil => simp only [flatMap_nil, take_nil, drop_nil, IsUtf8.nil, and_self]
  | cons c cs ih =>
    rw [flatMap_cons] at begins ⊢
    obtain ⟨b, tail, bytes, -, more⟩ := continues_utf8EncodeChar c
    rcases Nat.eq_zero_or_pos k with rfl | some_
    · rw [take_zero, drop_zero]
      exact ⟨.nil, c :: cs, rfl⟩
    · rcases Nat.lt_or_ge k (String.utf8EncodeChar c).length with inside | behind
      · -- the byte is one of the tail
        obtain ⟨e, here⟩ : ∃ e, (String.utf8EncodeChar c)[k]? = some e :=
          ⟨_, List.getElem?_eq_getElem inside⟩
        have not := begins _ (by rw [List.getElem?_append_left inside, here])
        obtain ⟨j, rfl⟩ : ∃ j, k = j + 1 := ⟨k - 1, by omega⟩
        refine absurd (more _ ?_) not
        rw [bytes, List.getElem?_cons_succ] at here
        exact mem_of_getElem? here
      · obtain ⟨j, rfl⟩ : ∃ j, k = (String.utf8EncodeChar c).length + j := ⟨_, (Nat.add_sub_cancel' behind).symm⟩
        obtain ⟨front, back⟩ := ih (k := j) fun b here => begins b (by
          rw [List.getElem?_append_right (Nat.le_add_right ..), Nat.add_sub_cancel_left]
          exact here)
        rw [take_length_add_append, drop_length_add_append]
        exact ⟨front.cons c, back⟩

/-- What follows text in text is text. -/
theorem IsUtf8.rest {s t : Bytes} (front : IsUtf8 s) (whole : IsUtf8 (s ++ t)) : IsUtf8 t := by
  obtain ⟨cs, rfl⟩ := front
  have length := jbUtf8_of_isUtf8 whole
  rw [isUtf8_iff]
  induction cs with
  | nil => simpa using length
  | cons c cs ih =>
    rw [flatMap_cons, append_assoc] at length whole
    have starts := utf8Starts_encode c (cs.flatMap String.utf8EncodeChar ++ t)
    have some_ : utf8Starts (String.utf8EncodeChar c ++ (cs.flatMap String.utf8EncodeChar ++ t)) ≠ 0 := by
      rw [starts]
      exact fun none_ => String.utf8EncodeChar_ne_nil (length_eq_zero_iff.mp none_)
    rw [jbUtf8_of_starts some_, starts, drop_left, length_append, Nat.add_left_cancel_iff] at length
    exact ih (isUtf8_iff.mpr length) length

/-- Text begins with no byte that goes on with a character. -/
theorem IsUtf8.begins {t : Bytes} (text : IsUtf8 t) {b : UInt8} (first : t[0]? = some b) : ¬ Continues b := by
  obtain ⟨cs, rfl⟩ := text
  cases cs with
  | nil => cases first
  | cons c cs =>
    obtain ⟨b', tail, bytes, not, -⟩ := continues_utf8EncodeChar c
    rw [flatMap_cons, bytes] at first
    obtain rfl := Option.some.inj first
    exact not

/-! ## Clips -/

theorem clipBack_le (s : Bytes) (n : Nat) : clipBack s n ≤ n := by
  induction n with
  | zero => exact Nat.le_refl 0
  | succ n ih =>
    rw [clipBack]
    split
    · exact Nat.le_succ_of_le ih
    · exact Nat.le_refl _

theorem utilClip_le (s : Bytes) (max : Nat) : utilClip s max ≤ max ∧ utilClip s max ≤ s.length := by
  rw [utilClip]
  split
  · rename_i short
    exact ⟨short, Nat.le_refl _⟩
  · rename_i long
    have back := clipBack_le s max
    omega

/-- The clip ends at the start of a character, or at the end. -/
theorem clipBack_begins (s : Bytes) (n : Nat) : clipBack s n = 0 ∨ ∀ b, s[clipBack s n]? = some b → ¬ Continues b := by
  induction n with
  | zero => exact .inl rfl
  | succ n ih =>
    rw [clipBack]
    split
    · exact ih
    · rename_i begins
      refine .inr fun b here goes => begins ?_
      rw [getD_eq_getElem?_getD, here]
      exact goes

theorem IsUtf8.clip {s : Bytes} (text : IsUtf8 s) (max : Nat) :
    IsUtf8 (s.take (utilClip s max)) ∧ IsUtf8 (s.drop (utilClip s max)) := by
  rw [utilClip]
  split
  · rw [take_length, drop_length]
    exact ⟨text, .nil⟩
  · rcases clipBack_begins s max with zero | begins
    · rw [zero, take_zero, drop_zero]
      exact ⟨.nil, text⟩
    · exact text.cut begins

/-- The start of a character is at most three bytes before a byte of text. -/
theorem IsUtf8.near {t : Bytes} (text : IsUtf8 t) {n : Nat} (inside : n < t.length) :
    ∃ j ≤ n, n < j + 4 ∧ ¬ Continues (t.getD j 0) := by
  obtain ⟨cs, rfl⟩ := text
  induction cs generalizing n with
  | nil => cases inside
  | cons c cs ih =>
    obtain ⟨b, tail, bytes, not, -⟩ := continues_utf8EncodeChar c
    have short : (String.utf8EncodeChar c).length ≤ 4 := by
      rw [String.length_utf8EncodeChar]
      exact Char.utf8Size_le_four c
    rw [flatMap_cons] at inside ⊢
    rcases Nat.lt_or_ge n (String.utf8EncodeChar c).length with here | behind
    · refine ⟨0, Nat.zero_le n, by omega, ?_⟩
      rw [bytes]
      exact not
    · rw [length_append] at inside
      obtain ⟨j, before, close, first⟩ := ih (n := n - (String.utf8EncodeChar c).length) (by omega)
      refine ⟨(String.utf8EncodeChar c).length + j, by omega, by omega, ?_⟩
      rwa [getD_eq_getElem?_getD, List.getElem?_append_right (Nat.le_add_right ..),
        Nat.add_sub_cancel_left, ← getD_eq_getElem?_getD]

theorem le_clipBack {s : Bytes} {j n : Nat} (before : j ≤ n) (begins : ¬ Continues (s.getD j 0)) :
    j ≤ clipBack s n := by
  induction n with
  | zero => exact before
  | succ n ih =>
    rw [clipBack]
    split
    · rename_i goes
      rcases Nat.lt_or_ge n j with last | less
      · obtain rfl : j = n + 1 := by omega
        exact absurd goes begins
      · exact ih less
    · exact before

/-- A clip of text loses less than a character. -/
theorem IsUtf8.lt_clip {t : Bytes} (text : IsUtf8 t) {max : Nat} (long : max < t.length) :
    max < utilClip t max + 4 := by
  obtain ⟨j, before, close, begins⟩ := text.near long
  have least := le_clipBack before begins
  rw [utilClip, if_neg (Nat.not_le.mpr long)]
  omega

/-- A character begins after a byte of ASCII. -/
theorem IsUtf8.after {t : Bytes} (text : IsUtf8 t) {k : Nat} {b : UInt8} (here : t[k]? = some b)
    (low : b < 0x80) : IsUtf8 (t.take (k + 1)) ∧ IsUtf8 (t.drop (k + 1)) := by
  have begins : ∀ c, t[k]? = some c → ¬ Continues c := by
    have all : ∀ b : UInt8, b < 0x80 → ¬ Continues b := by
      intro b low goes
      have small : ∀ n < 0x80, ¬ Continues (UInt8.ofNat n) := by decide
      apply small b.toNat (UInt8.lt_iff_toNat_lt.mp low)
      rwa [UInt8.ofNat_toNat]
    intro c same
    rw [here] at same
    obtain rfl := Option.some.inj same
    exact all b low
  obtain ⟨front, back⟩ := text.cut begins
  have ascii : IsUtf8 [b] := isUtf8_ascii (by simpa using low)
  obtain ⟨inside, rfl⟩ := List.getElem?_eq_some_iff.mp here
  have split_ := drop_eq_getElem_cons inside
  constructor
  · rw [take_add_one, here]
    exact front.append ascii
  · rw [split_, ← singleton_append] at back
    exact ascii.rest back

/-! ## Starts -/

/-- `util_char_start`. -/
def utilCharStart (s : Bytes) (off : Nat) : Nat :=
  if off < s.length ∧ Continues (s.getD off 0) then utilCharStart s (off + 1) else off
termination_by s.length - off

theorem utilCharStart_spec {s : Bytes} {off : Nat} (inside : off ≤ s.length) :
    off ≤ utilCharStart s off ∧ utilCharStart s off ≤ s.length ∧
      ∀ b, s[utilCharStart s off]? = some b → ¬ Continues b := by
  induction off using utilCharStart.induct s with
  | case1 off more ih =>
    obtain ⟨before, behind, begins⟩ := ih more.1
    rw [utilCharStart, if_pos more]
    exact ⟨Nat.le_of_succ_le before, behind, begins⟩
  | case2 off stops =>
    rw [utilCharStart, if_neg stops]
    refine ⟨Nat.le_refl off, inside, fun b here goes => stops ⟨?_, ?_⟩⟩
    · exact (List.getElem?_eq_some_iff.mp here).1
    · rwa [getD_eq_getElem?_getD, here]

/-- Where a character begins, or at the end, it stays. -/
theorem utilCharStart_of_begins {s : Bytes} {off : Nat} (begins : ∀ b, s[off]? = some b → ¬ Continues b) :
    utilCharStart s off = off := by
  rw [utilCharStart, if_neg]
  rintro ⟨inside, goes⟩
  apply begins _ (List.getElem?_eq_getElem inside)
  rwa [getD_eq_getElem?_getD, List.getElem?_eq_getElem inside] at goes

end Askai
