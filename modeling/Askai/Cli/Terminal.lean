import Askai.Cli.Console

/-!
# What a terminal gets

The bytes that come are characters, or sequences that are none; each of these is answered by a question mark, so that
what is written does not depend on the pieces, and is text that a terminal shows.
-/

namespace Askai

open Library List

/-- The least value of a character of `n` bytes. -/
def leastOf (n : Nat) : Nat :=
  if n = 2 then 0x80 else if n = 3 then 0x800 else 0x10000

/-- The value that a first byte and those that go on with it have. -/
def sequenceValue (lead : UInt8) (more : Bytes) : Nat :=
  more.foldl (fun value b => value * 64 + b.toNat % 64) (lead.toNat % 2 ^ (7 - utf8Len lead))

variable {lead : UInt8} {more : Bytes} {b : UInt8} {state : CliConsoleOutput}

theorem continues_toNat : Continues b ↔ 0x80 ≤ b.toNat ∧ b.toNat ≤ 0xbf :=
  continues_iff b

/-- A value in the range of its length is that of the character. -/
theorem char_of_sequenceValue (length : more.length + 1 = utf8Len lead)
    (some_ : more ≠ []) (all : ∀ b ∈ more, Continues b) (least : leastOf (utf8Len lead) ≤ sequenceValue lead more)
    (valid : (sequenceValue lead more).isValidChar) :
    ∃ c : Char, c.val.toNat = sequenceValue lead more ∧ String.utf8EncodeChar c = lead :: more := by
  obtain ⟨c, value⟩ := exists_char valid
  refine ⟨c, value, ?_⟩
  obtain ⟨v, vIs⟩ : ∃ v, v = sequenceValue lead more := ⟨_, rfl⟩
  rw [← vIs] at value least valid
  rw [sequenceValue] at vIs
  rw [String.utf8EncodeChar, value]
  rw [Nat.isValidChar] at valid
  have len := utf8Len_toNat lead
  have small := lead.toNat_lt
  obtain ⟨b, more, rfl⟩ := exists_cons_of_ne_nil some_
  have second := continues_toNat.mp (all b mem_cons_self)
  rw [length_cons] at length
  split_ifs at len with l1 l2 l3 l4 l5
  · omega
  · omega
  · rw [len] at length least vIs
    obtain rfl := length_eq_zero_iff.mp (by omega : more.length = 0)
    change v = lead.toNat % 32 * 64 + b.toNat % 64 at vIs
    change 0x80 ≤ v at least
    rw [if_neg (by omega), if_pos (by omega), ofNat_eq (b := lead) (by omega), ofNat_eq (b := b) (by omega)]
  · rw [len] at length least vIs
    obtain ⟨d, rfl⟩ := length_eq_one_iff.mp (by omega : more.length = 1)
    have third := continues_toNat.mp (all d (mem_cons_of_mem _ mem_cons_self))
    change v = (lead.toNat % 16 * 64 + b.toNat % 64) * 64 + d.toNat % 64 at vIs
    change 0x800 ≤ v at least
    rw [if_neg (by omega), if_neg (by omega), if_pos (by omega), ofNat_eq (b := lead) (by omega),
      ofNat_eq (b := b) (by omega), ofNat_eq (b := d) (by omega)]
  · rw [len] at length least vIs
    obtain ⟨d, e, rfl⟩ := length_eq_two.mp (by omega : more.length = 2)
    have third := continues_toNat.mp (all d (mem_cons_of_mem _ mem_cons_self))
    have fourth := continues_toNat.mp (all e (mem_cons_of_mem _ (mem_cons_of_mem _ mem_cons_self)))
    change v = ((lead.toNat % 8 * 64 + b.toNat % 64) * 64 + d.toNat % 64) * 64 + e.toNat % 64 at vIs
    change 0x10000 ≤ v at least
    rw [if_neg (by omega), if_neg (by omega), if_neg (by omega), ofNat_eq (b := lead) (by omega),
      ofNat_eq (b := b) (by omega), ofNat_eq (b := d) (by omega), ofNat_eq (b := e) (by omega)]
  · omega

/-- The bytes of a character that is not ASCII have its value, which is in the range of their number. -/
theorem sequenceValue_encode {c : Char} (high : 0x80 ≤ c.val.toNat) :
    ∃ lead more, String.utf8EncodeChar c = lead :: more ∧ more ≠ [] ∧ more.length + 1 = utf8Len lead ∧
      sequenceValue lead more = c.val.toNat ∧ leastOf (utf8Len lead) ≤ c.val.toNat := by
  have valid : c.val.toNat.isValidChar := c.valid
  rw [Nat.isValidChar] at valid
  have small : ∀ n < 256, (UInt8.ofNat n).toNat = n := fun n small => by
    rw [UInt8.toNat_ofNat']
    omega
  rw [String.utf8EncodeChar]
  generalize c.val.toNat = v at valid high
  split_ifs with l1 l2 l3
  · omega
  · have first := small (v / 64 % 32 + 0xc0) (by omega)
    have second := small (v % 64 + 0x80) (by omega)
    have len : utf8Len (UInt8.ofNat (v / 64 % 32 + 0xc0)) = 2 := by
      rw [utf8Len_toNat, first, if_neg (by omega), if_neg (by omega), if_pos (by omega)]
    refine ⟨_, _, rfl, cons_ne_nil _ _, len.symm, ?_, ?_⟩
    · rw [sequenceValue, len, first, foldl_cons, second, foldl_nil]
      change _ % 32 * 64 + _ = v
      omega
    · rw [len]
      exact high
  · have first := small (v / 4096 % 16 + 0xe0) (by omega)
    have second := small (v / 64 % 64 + 0x80) (by omega)
    have third := small (v % 64 + 0x80) (by omega)
    have len : utf8Len (UInt8.ofNat (v / 4096 % 16 + 0xe0)) = 3 := by
      rw [utf8Len_toNat, first, if_neg (by omega), if_neg (by omega), if_neg (by omega), if_pos (by omega)]
    refine ⟨_, _, rfl, cons_ne_nil _ _, len.symm, ?_, ?_⟩
    · rw [sequenceValue, len, first, foldl_cons, second, foldl_cons, third, foldl_nil]
      change (_ % 16 * 64 + _) * 64 + _ = v
      omega
    · rw [len]
      change 0x800 ≤ v
      omega
  · have first := small (v / 262144 % 8 + 0xf0) (by omega)
    have second := small (v / 4096 % 64 + 0x80) (by omega)
    have third := small (v / 64 % 64 + 0x80) (by omega)
    have fourth := small (v % 64 + 0x80) (by omega)
    have len : utf8Len (UInt8.ofNat (v / 262144 % 8 + 0xf0)) = 4 := by
      rw [utf8Len_toNat, first, if_neg (by omega), if_neg (by omega), if_neg (by omega), if_neg (by omega),
        if_pos (by omega)]
    refine ⟨_, _, rfl, cons_ne_nil _ _, len.symm, ?_, ?_⟩
    · rw [sequenceValue, len, first, foldl_cons, second, foldl_cons, third, foldl_cons, fourth, foldl_nil]
      change ((_ % 8 * 64 + _) * 64 + _) * 64 + _ = v
      omega
    · rw [len]
      change 0x10000 ≤ v
      omega

/-- A character that a terminal shows, or that ends a line or is a tab. -/
def SafeChar (c : Char) : Prop :=
  c = '\n' ∨ c = '\t' ∨ (0x20 ≤ c.toNat ∧ c.toNat ≠ 0x7f ∧ ¬ (0x80 ≤ c.toNat ∧ c.toNat ≤ 0x9f))

/-- Bytes that are a character which is written. -/
def IsShown (s : Bytes) : Prop :=
  ∃ c, SafeChar c ∧ s = String.utf8EncodeChar c

/-- A whole sequence is checked by its value. -/
theorem isShown_sequence (length : more.length + 1 = utf8Len lead) (some_ : more ≠ [])
    (all : ∀ b ∈ more, Continues b) : IsShown (lead :: more) ↔ ¬ (sequenceValue lead more < leastOf (utf8Len lead) ∨
      0x10ffff < sequenceValue lead more ∨ (0xd800 ≤ sequenceValue lead more ∧ sequenceValue lead more ≤ 0xdfff) ∨
      (0x80 ≤ sequenceValue lead more ∧ sequenceValue lead more ≤ 0x9f)) := by
  have range : 0x80 ≤ leastOf (utf8Len lead) := by
    rw [leastOf]
    split_ifs <;> omega
  constructor
  · rintro ⟨c, harmless, is⟩
    by_cases low : c.val.toNat < 0x80
    · rw [String.utf8EncodeChar, if_pos (by omega)] at is
      exact absurd (List.cons.inj is).2 some_
    · obtain ⟨lead', more', encoded, -, -, value, least⟩ := sequenceValue_encode (Nat.not_lt.mp low)
      obtain ⟨rfl, rfl⟩ := List.cons.inj (is.trans encoded)
      have valid : c.val.toNat.isValidChar := c.valid
      rw [Nat.isValidChar] at valid
      rw [value]
      have free : ¬ (0x80 ≤ c.val.toNat ∧ c.val.toNat ≤ 0x9f) := by
        obtain rfl | rfl | ⟨-, -, free⟩ := harmless
        · decide
        · decide
        · exact free
      omega
  · intro checked
    obtain ⟨c, value, is⟩ := char_of_sequenceValue length some_ all (by omega) (by
      rw [Nat.isValidChar]
      omega)
    refine ⟨c, .inr (.inr ?_), is.symm⟩
    change 0x20 ≤ c.val.toNat ∧ c.val.toNat ≠ 0x7f ∧ ¬ (0x80 ≤ c.val.toNat ∧ c.val.toNat ≤ 0x9f)
    omega

/-! ## Sequences -/

/-- The bytes after a first byte that go on with its character. -/
def goesOn (lead : UInt8) (rest : Bytes) : Bytes :=
  (rest.take (utf8Len lead - 1)).takeWhile fun b => Continues b

theorem goesOn_prefix (lead : UInt8) (rest : Bytes) : goesOn lead rest <+: rest :=
  ( takeWhile_prefix _).trans ( take_prefix _ _)

theorem length_goesOn_le (lead : UInt8) (rest : Bytes) : (goesOn lead rest).length ≤ utf8Len lead - 1 :=
  ( takeWhile_prefix _).length_le.trans (length_take_le _ _)

/-- The sequences of a text, and what is left at its end of one that more bytes may go on with. A byte of ASCII, and one
that no character begins with, is alone; another goes on with what follows it, up to the length it asks for. -/
def sequences : Bytes → List Bytes × Bytes
  | [] => ([], [])
  | lead :: rest =>
    if utf8Len lead - 1 ≤ (goesOn lead rest).length ∨ (goesOn lead rest).length < rest.length then
      let (all, left) := sequences (rest.drop (goesOn lead rest).length)
      ((lead :: goesOn lead rest) :: all, left)
    else ([], lead :: rest)
termination_by text => text.length
decreasing_by
  rw [length_drop, length_cons]
  omega

/-- Nothing is left out. -/
theorem sequences_flatten (text : Bytes) : (sequences text).1.flatten ++ (sequences text).2 = text := by
  induction text using sequences.induct with
  | case1 => rw [sequences, flatten_nil, append_nil]
  | case2 lead rest whole all left is ih =>
    rw [sequences, if_pos whole, is]
    rw [is] at ih
    dsimp only at ih ⊢
    rw [flatten_cons, append_assoc, ih, cons_append]
    exact congrArg (List.cons lead) (prefix_iff_eq_append.mp ( goesOn_prefix lead rest))
  | case3 lead rest partial_ => rw [sequences, if_neg partial_, flatten_nil, nil_append]

open Classical in
/-- What is written for a sequence. -/
noncomputable def answer (s : Bytes) : Bytes :=
  if IsShown s then s else [63]

theorem sequences_alone (alone : utf8Len lead ≤ 1) (rest : Bytes) :
    sequences (lead :: rest) = ([lead] :: (sequences rest).1, (sequences rest).2) := by
  have none_ : goesOn lead rest = [] := length_eq_zero_iff.mp (by
    have le := length_goesOn_le lead rest
    omega)
  rw [sequences, if_pos (.inl (by omega)), none_]
  rfl

/-- A sequence that is whole. -/
theorem goesOn_whole (length : more.length + 1 = utf8Len lead)
    (all : ∀ b ∈ more, Continues b) (rest : Bytes) : goesOn lead (more ++ rest) = more := by
  rw [goesOn, ← length, Nat.add_sub_cancel, take_left, takeWhile_eq_self_iff]
  intro b among
  exact decide_eq_true (all b among)

theorem sequences_whole (length : more.length + 1 = utf8Len lead) (all : ∀ b ∈ more, Continues b) (rest : Bytes) :
    sequences (lead :: more ++ rest) = ((lead :: more) :: (sequences rest).1, (sequences rest).2) := by
  have on := goesOn_whole length all rest
  rw [cons_append, sequences, if_pos (.inl (by rw [on]; omega)), on, drop_left]

/-- A sequence that another byte cuts short. -/
theorem sequences_cut (short : more.length + 1 < utf8Len lead)
    (all : ∀ b ∈ more, Continues b) (ends : ¬ Continues b) (rest : Bytes) : sequences (lead :: more ++ b :: rest) =
      ((lead :: more) :: (sequences (b :: rest)).1, (sequences (b :: rest)).2) := by
  have on : goesOn lead (more ++ b :: rest) = more := by
    obtain ⟨k, is⟩ : ∃ k, utf8Len lead - 1 = more.length + (k + 1) := ⟨utf8Len lead - 1 - more.length - 1, by omega⟩
    rw [goesOn, is, take_length_add_append, take_succ_cons,
      takeWhile_append_of_pos (fun d among => decide_eq_true (all d among)),
      takeWhile_cons_of_neg (by rw [decide_eq_true_eq]; exact ends), append_nil]
  rw [cons_append, sequences, if_pos (.inr (by rw [on, length_append, length_cons]; omega)), on, drop_left]

/-- What is left at the end. -/
theorem sequences_left (short : more.length + 1 < utf8Len lead)
    (all : ∀ b ∈ more, Continues b) : sequences (lead :: more) = ([], lead :: more) := by
  have on : goesOn lead more = more := by
    rw [goesOn, take_of_length_le (by omega), takeWhile_eq_self_iff]
    intro b among
    exact decide_eq_true (all b among)
  rw [sequences, if_neg (by rw [on]; omega)]

/-- What follows does not matter to a sequence that is whole or cut short. -/
theorem goesOn_append {rest : Bytes}
    (settled : utf8Len lead - 1 ≤ (goesOn lead rest).length ∨ (goesOn lead rest).length < rest.length) (more : Bytes) :
    goesOn lead (rest ++ more) = goesOn lead rest := by
  rw [goesOn] at settled
  rw [goesOn, goesOn, take_append, takeWhile_append]
  split
  · next all =>
    rw [all, length_take] at settled
    have enough : utf8Len lead - 1 - rest.length = 0 := by omega
    rw [enough, take_zero, takeWhile_nil, append_nil]
    exact (List.IsPrefix.eq_of_length ( takeWhile_prefix _) all).symm
  · rfl

/-- The sequences of a text come first in a longer one, which goes on from what was left. -/
theorem sequences_append (text more : Bytes) : sequences (text ++ more) =
      ((sequences text).1 ++ (sequences ((sequences text).2 ++ more)).1, (sequences ((sequences text).2 ++ more)).2) := by
  induction text using sequences.induct with
  | case1 =>
    rw [sequences]
    rfl
  | case2 lead rest whole all left is ih =>
    have settled := goesOn_append whole more
    have inside := ( goesOn_prefix lead rest).length_le
    rw [is] at ih
    rw [cons_append, sequences, if_pos (by rw [settled, length_append]; omega), settled,
      drop_append_of_le_length inside, ih, sequences, if_pos whole, is]
    rfl
  | case3 lead rest partial_ =>
    have none_ : sequences (lead :: rest) = ([], lead :: rest) := by rw [sequences, if_neg partial_]
    rw [none_]
    rfl

/-! ## Steps -/

namespace CliConsoleOutput

/-- What is pending is the begin of a sequence, with the value it has so far. -/
def Pending (state : CliConsoleOutput) : Prop :=
  state.pending = [] ∨ ∃ lead more, state.pending = lead :: more ∧ state.expected = utf8Len lead ∧
    more.length + 1 < utf8Len lead ∧ (∀ b ∈ more, Continues b) ∧ state.value = sequenceValue lead more

theorem sequenceValue_concat (lead : UInt8) (more : Bytes) (b : UInt8) :
    sequenceValue lead (more ++ [b]) = sequenceValue lead more * 64 + b.toNat % 64 := by
  rw [sequenceValue, foldl_append]
  rfl

theorem low_bits (b : UInt8) : (b &&& 0x3f).toNat = b.toNat % 64 := by
  have all : ∀ n < 256, (UInt8.ofNat n &&& 0x3f).toNat = n % 64 := by decide +kernel
  have here := all b.toNat b.toNat_lt
  rwa [UInt8.ofNat_toNat] at here

theorem shift_or (v : Nat) (b : UInt8) : v <<< 6 ||| (b &&& 0x3f).toNat = v * 64 + b.toNat % 64 := by
  rw [low_bits, ← Nat.shiftLeft_add_eq_or_of_lt (Nat.mod_lt _ (by decide)), Nat.shiftLeft_eq]

/-- The bytes that the code expects of a first byte, and the bits it takes of it. -/
theorem expected_eq (high : 0x80 ≤ b) :
    (if 0xc2 ≤ b ∧ b ≤ 0xdf then 2 else if 0xe0 ≤ b ∧ b ≤ 0xef then 3 else if 0xf0 ≤ b ∧ b ≤ 0xf4 then 4 else 0) =
      utf8Len b ∧ (b &&& (0x7f >>> UInt8.ofNat (utf8Len b))).toNat = b.toNat % 2 ^ (7 - utf8Len b) := by
  have all : ∀ n < 256, 0x80 ≤ UInt8.ofNat n → (if 0xc2 ≤ UInt8.ofNat n ∧ UInt8.ofNat n ≤ 0xdf then 2
        else if 0xe0 ≤ UInt8.ofNat n ∧ UInt8.ofNat n ≤ 0xef then 3
        else if 0xf0 ≤ UInt8.ofNat n ∧ UInt8.ofNat n ≤ 0xf4 then 4 else 0) = utf8Len (UInt8.ofNat n) ∧
      (UInt8.ofNat n &&& (0x7f >>> UInt8.ofNat (utf8Len (UInt8.ofNat n)))).toNat =
        n % 2 ^ (7 - utf8Len (UInt8.ofNat n)) := by decide +kernel
  have here := all b.toNat b.toNat_lt
  rw [UInt8.ofNat_toNat] at here
  exact here high

theorem utf8Len_ne_one (high : 0x80 ≤ b) : utf8Len b ≠ 1 := by
  intro one
  exact UInt8.not_lt.mpr high (lt_of_utf8Len one)

/-- Bytes that no character has alone are answered by a question mark. -/
theorem answer_of_not {s : Bytes} (not : ¬ IsShown s) : answer s = [63] := if_neg not

theorem answer_of_isShown {s : Bytes} (shows : IsShown s) : answer s = s := if_pos shows

/-- A character is as long as its first byte asks. -/
theorem length_of_isShown (shows : IsShown (lead :: more)) : more.length + 1 = utf8Len lead := by
  obtain ⟨c, -, is⟩ := shows
  have starts := utf8Starts_encode c []
  rw [append_nil, ← is] at starts
  have some_ : utf8Starts (lead :: more) ≠ 0 := by
    rw [starts]
    exact Nat.succ_ne_zero _
  rw [utf8Starts_eq some_] at starts
  exact starts.symm

/-- A byte goes on with what is pending. -/
theorem next_spec (pending : state.pending = lead :: more)
    (expected : state.expected = utf8Len lead) (short : more.length + 1 < utf8Len lead)
    (all : ∀ b ∈ more, Continues b) (value : state.value = sequenceValue lead more) (on : Continues b) :
    (more.length + 2 < utf8Len lead ∧ (state.next b).2 = [] ∧ (state.next b).1.pending = lead :: (more ++ [b]) ∧
      Pending (state.next b).1) ∨ (more.length + 2 = utf8Len lead ∧ (state.next b).2 = answer (lead :: (more ++ [b])) ∧
      (state.next b).1.pending = []) := by
  have all' : ∀ d ∈ more ++ [b], Continues d := by
    intro d among
    rw [mem_append, mem_singleton] at among
    obtain among | rfl := among
    · exact all d among
    · exact on
  have length : (lead :: more ++ [b]).length = more.length + 2 := by
    rw [length_append, length_cons, length_singleton]
  have total := shift_or (sequenceValue lead more) b
  rw [← sequenceValue_concat] at total
  rw [next, pending, value, expected, total, length]
  by_cases more_ : more.length + 2 < utf8Len lead
  · left
    dsimp only
    rw [if_pos more_]
    exact ⟨more_, rfl, rfl, .inr ⟨lead, more ++ [b], rfl, rfl, by
      rw [length_append, length_singleton]
      exact more_, all', rfl⟩⟩
  · right
    have whole : (more ++ [b]).length + 1 = utf8Len lead := by
      rw [length_append, length_singleton]
      omega
    have shows := isShown_sequence whole (append_ne_nil_of_right_ne_nil _ (cons_ne_nil _ _)) all'
    rw [leastOf] at shows
    dsimp only
    rw [if_neg more_]
    refine ⟨by omega, ?_, rfl⟩
    dsimp only
    rw [cons_append]
    by_cases unsafe_ : IsShown (lead :: (more ++ [b]))
    · rw [answer_of_isShown unsafe_, if_neg]
      rw [decide_eq_true_eq]
      exact shows.mp unsafe_
    · rw [answer_of_not unsafe_, if_pos]
      rw [decide_eq_true_eq]
      by_contra checked
      exact unsafe_ (shows.mpr checked)

theorem isShown_ascii (low : b < 0x80) : IsShown [b] ↔ ¬ ((b < 0x20 ∨ b = 0x7f) ∧ b ≠ 10 ∧ b ≠ 9) := by
  have all : ∀ n < 0x80, (n = 10 ∨ n = 9 ∨ (0x20 ≤ n ∧ n ≠ 0x7f)) ↔
      ¬ ((UInt8.ofNat n < 0x20 ∨ UInt8.ofNat n = 0x7f) ∧ UInt8.ofNat n ≠ 10 ∧ UInt8.ofNat n ≠ 9) := by decide
  have here := all b.toNat (UInt8.lt_iff_toNat_lt.mp low)
  rw [UInt8.ofNat_toNat] at here
  rw [← here]
  have harmless : ∀ c : Char, c.val.toNat = b.toNat →
      (SafeChar c ↔ b.toNat = 10 ∨ b.toNat = 9 ∨ (0x20 ≤ b.toNat ∧ b.toNat ≠ 0x7f)) := by
    intro c value
    have small : b.toNat < 0x80 := UInt8.lt_iff_toNat_lt.mp low
    have letter : ∀ d : Char, c = d ↔ b.toNat = d.val.toNat := by
      intro d
      rw [← value]
      exact ⟨fun is => congrArg (fun c => c.val.toNat) is, fun is => Char.ext (UInt32.toNat_inj.mp is)⟩
    rw [SafeChar, letter, letter]
    change b.toNat = 10 ∨ b.toNat = 9 ∨ (0x20 ≤ c.val.toNat ∧ c.val.toNat ≠ 0x7f ∧
      ¬ (0x80 ≤ c.val.toNat ∧ c.val.toNat ≤ 0x9f)) ↔ _
    rw [value]
    omega
  constructor
  · rintro ⟨c, shown_, is⟩
    by_cases ascii : c.val.toNat < 0x80
    · rw [String.utf8EncodeChar, if_pos (by omega)] at is
      have value : c.val.toNat = b.toNat := by
        rw [(List.cons.inj is).1, UInt8.toNat_ofNat', Nat.mod_eq_of_lt (by omega)]
      exact (harmless c value).mp shown_
    · obtain ⟨lead, more, encoded, some_, -⟩ := sequenceValue_encode (Nat.not_lt.mp ascii)
      exact absurd (List.cons.inj (is.trans encoded)).2.symm some_
  · intro kind
    have small : b.toNat < 0x80 := UInt8.lt_iff_toNat_lt.mp low
    obtain ⟨c, value⟩ := @exists_char b.toNat (.inl (by omega))
    refine ⟨c, (harmless c value).mpr kind, ?_⟩
    rw [String.utf8EncodeChar, value, if_pos (by omega), UInt8.ofNat_toNat]

/-- The run of a fast path. -/
theorem sequences_run {l : Bytes} (all : ∀ b ∈ l, printable b) (rest : Bytes) :
    (sequences (l ++ rest)).1.flatMap answer = l ++ (sequences rest).1.flatMap answer ∧
      (sequences (l ++ rest)).2 = (sequences rest).2 := by
  induction l with
  | nil => exact ⟨rfl, rfl⟩
  | cons b l ih =>
    obtain ⟨first, others⟩ := forall_mem_cons.mp all
    obtain ⟨text, left⟩ := ih others
    have low : b < 0x80 ∧ ¬ ((b < 0x20 ∨ b = 0x7f) ∧ b ≠ 10 ∧ b ≠ 9) := by
      have every : ∀ n < 256, printable (UInt8.ofNat n) → UInt8.ofNat n < 0x80 ∧
          ¬ ((UInt8.ofNat n < 0x20 ∨ UInt8.ofNat n = 0x7f) ∧ UInt8.ofNat n ≠ 10 ∧ UInt8.ofNat n ≠ 9) := by
        decide +kernel
      have here := every b.toNat b.toNat_lt
      rw [UInt8.ofNat_toNat] at here
      exact here first
    rw [cons_append, sequences_alone (utf8Len_ascii low.1).le]
    dsimp only
    rw [flatMap_cons, text, answer_of_isShown ((isShown_ascii low.1).mpr low.2)]
    exact ⟨rfl, left⟩

/-- What is written of a text, and what is left pending, are those of the sequences of what was pending and the text. -/
theorem write_spec (pending : Pending state) (text : Bytes) :
    (state.write text).2 = (sequences (state.pending ++ text)).1.flatMap answer ∧
      (state.write text).1.pending = (sequences (state.pending ++ text)).2 ∧ Pending (state.write text).1 := by
  induction state, text using write.induct with
  | case1 state =>
    rw [write, append_nil]
    obtain none_ | ⟨lead, more, is, -, short, all, -⟩ := id pending
    · rw [none_, sequences]
      exact ⟨rfl, rfl, pending⟩
    · rw [is, sequences_left short all]
      exact ⟨rfl, rfl, pending⟩
  | case2 state byte rest _ _ _ _ ih =>
    obtain ⟨next_, nextIs⟩ : ∃ next_, next_ = state.step byte rest := ⟨_, rfl⟩
    have ih' : Pending next_.1 → (next_.1.write ((byte :: rest).drop next_.2.2)).2 =
          (sequences (next_.1.pending ++ (byte :: rest).drop next_.2.2)).1.flatMap answer ∧
        (next_.1.write ((byte :: rest).drop next_.2.2)).1.pending =
          (sequences (next_.1.pending ++ (byte :: rest).drop next_.2.2)).2 ∧
        Pending (next_.1.write ((byte :: rest).drop next_.2.2)).1 := by
      rw [nextIs]
      exact ih
    rw [write, ← nextIs]
    dsimp only
    -- it is enough that the step answers for the sequences that it ends
    suffices step_ : Pending next_.1 ∧ (sequences (state.pending ++ byte :: rest)).1.flatMap answer =
          next_.2.1 ++ (sequences (next_.1.pending ++ (byte :: rest).drop next_.2.2)).1.flatMap answer ∧
        (sequences (state.pending ++ byte :: rest)).2 =
          (sequences (next_.1.pending ++ (byte :: rest).drop next_.2.2)).2 by
      obtain ⟨pending', written, left⟩ := step_
      obtain ⟨out, left', pending''⟩ := ih' pending'
      rw [written, left, out]
      exact ⟨rfl, left', pending''⟩
    rw [nextIs, step]
    obtain none_ | ⟨lead, more, is, expected, short, all, value⟩ := pending
    · rw [none_, if_neg (not_not.mpr rfl), nil_append]
      by_cases high : 0x80 ≤ byte
      · obtain ⟨len, bits⟩ := expected_eq high
        rw [if_pos high, len]
        dsimp only
        rw [bits]
        by_cases some_ : utf8Len byte = 0
        · have lone : answer [byte] = [63] := answer_of_not fun shows => by
            have length := length_of_isShown shows
            rw [some_] at length
            exact absurd length (Nat.succ_ne_zero _)
          rw [sequences_alone (by omega), some_]
          dsimp only
          rw [flatMap_cons, lone]
          exact ⟨.inl rfl, rfl, rfl⟩
        · have ne_one := utf8Len_ne_one high
          rw [if_pos some_, if_pos some_]
          refine ⟨.inr ⟨byte, [], rfl, rfl, ?_, by simp, rfl⟩, rfl, rfl⟩
          rw [length_nil]
          omega
      · have low := UInt8.not_le.mp high
        rw [if_neg high]
        by_cases control : (byte < 0x20 ∨ byte = 0x7f) ∧ byte ≠ 10 ∧ byte ≠ 9
        · have lone : answer [byte] = [63] := answer_of_not fun shows => (isShown_ascii low).mp shows control
          rw [if_pos control, sequences_alone (utf8Len_ascii low).le, none_]
          dsimp only
          rw [flatMap_cons, lone]
          exact ⟨.inl none_, rfl, rfl⟩
        · have lone : answer [byte] = [byte] := answer_of_isShown ((isShown_ascii low).mpr control)
          obtain ⟨run, after_⟩ := sequences_run (l := rest.takeWhile printable)
            (fun b among => mem_takeWhile_imp among) (rest.dropWhile printable)
          rw [takeWhile_append_dropWhile] at run after_
          have behind : (byte :: rest).drop (1 + (rest.takeWhile printable).length) = rest.dropWhile printable := by
            have parts := congrArg (List.drop (rest.takeWhile printable).length)
              (takeWhile_append_dropWhile (p := printable) (l := rest))
            rw [drop_left] at parts
            rw [Nat.add_comm, drop_succ_cons]
            exact parts.symm
          rw [if_neg control, sequences_alone (utf8Len_ascii low).le]
          dsimp only
          rw [behind, none_, nil_append, flatMap_cons, lone, run, after_]
          exact ⟨.inl none_, rfl, rfl⟩
    · have some_ : state.pending ≠ [] := by
        rw [is]
        exact cons_ne_nil _ _
      rw [if_pos some_]
      by_cases on : byte &&& 0xc0 = 0x80
      · rw [if_pos on]
        dsimp only
        rw [drop_succ_cons, drop_zero, is]
        have joined : lead :: more ++ byte :: rest = lead :: (more ++ [byte]) ++ rest := by
          rw [cons_append, append_cons, cons_append]
        rw [joined]
        obtain ⟨-, out, on_, pending'⟩ | ⟨whole, out, none_⟩ := next_spec is expected short all value on
        · rw [out, on_]
          exact ⟨pending', rfl, rfl⟩
        · have all' : ∀ d ∈ more ++ [byte], Continues d := by
            intro d among
            rw [mem_append, mem_singleton] at among
            obtain among | rfl := among
            · exact all d among
            · exact on
          rw [out, none_, sequences_whole (by rw [length_append, length_singleton]; omega) all']
          exact ⟨.inl none_, rfl, rfl⟩
      · have lone : answer (lead :: more) = [63] := answer_of_not fun shows => by
          have length := length_of_isShown shows
          omega
        rw [if_neg on, is, sequences_cut short all on]
        dsimp only
        rw [flatMap_cons, lone]
        exact ⟨.inl rfl, rfl, rfl⟩

/-- Texts one after the other are as their bytes at once. -/
theorem writes_spec (pending : Pending state) (texts : List Bytes) :
    (state.writes texts).2 = (sequences (state.pending ++ texts.flatten)).1.flatMap answer ∧
      (state.writes texts).1.pending = (sequences (state.pending ++ texts.flatten)).2 ∧
      Pending (state.writes texts).1 := by
  induction texts generalizing state with
  | nil =>
    have none_ := write_spec pending []
    rw [write] at none_
    exact none_
  | cons text texts ih =>
    obtain ⟨written, left, pending'⟩ := write_spec pending text
    obtain ⟨rest, left', pending''⟩ := ih pending'
    rw [left] at rest left'
    rw [writes, flatten_cons, ← append_assoc, sequences_append]
    dsimp only
    rw [written, rest, flatMap_append]
    exact ⟨rfl, left', pending''⟩

end CliConsoleOutput

/-! ## What is written -/

/-- Text that a terminal shows. -/
def ShownText (text : Bytes) : Prop :=
  ∃ cs : List Char, text = cs.flatMap String.utf8EncodeChar ∧ ∀ c ∈ cs, SafeChar c

theorem shownText_answers (all : List Bytes) : ShownText (all.flatMap answer) := by
  induction all with
  | nil => exact ⟨[], rfl, nofun⟩
  | cons s all ih =>
    obtain ⟨cs, is, harmless⟩ := ih
    obtain ⟨c, ok, one⟩ : ∃ c, SafeChar c ∧ answer s = String.utf8EncodeChar c := by
      by_cases shows : IsShown s
      · rw [answer, if_pos shows]
        exact shows
      · rw [answer, if_neg shows]
        exact ⟨'?', .inr (.inr (by decide)), by decide⟩
    refine ⟨c :: cs, ?_, forall_mem_cons.mpr ⟨ok, harmless⟩⟩
    rw [flatMap_cons, one, is, flatMap_cons]

/-- A character is one sequence. -/
theorem sequences_char (c : Char) (rest : Bytes) : sequences (String.utf8EncodeChar c ++ rest) =
      (String.utf8EncodeChar c :: (sequences rest).1, (sequences rest).2) := by
  by_cases low : c.val.toNat < 0x80
  · rw [String.utf8EncodeChar, if_pos (by omega)]
    apply sequences_alone
    apply (utf8Len_ascii _).le
    rw [UInt8.lt_iff_toNat_lt, UInt8.toNat_ofNat', Nat.mod_eq_of_lt (by omega)]
    exact low
  · obtain ⟨lead, more, encoded, -, length, -⟩ := sequenceValue_encode (Nat.not_lt.mp low)
    obtain ⟨b, tail, bytes, -, all⟩ := continues_utf8EncodeChar c
    rw [encoded] at bytes
    obtain ⟨rfl, rfl⟩ := List.cons.inj bytes
    rw [encoded]
    exact sequences_whole length all rest

theorem sequences_chars (cs : List Char) (rest : Bytes) : sequences (cs.flatMap String.utf8EncodeChar ++ rest) =
      (cs.map String.utf8EncodeChar ++ (sequences rest).1, (sequences rest).2) := by
  induction cs with
  | nil => rfl
  | cons c cs ih => rw [flatMap_cons, append_assoc, sequences_char, ih, map_cons, cons_append]

/-- The begin of a character is left. -/
theorem sequences_begin {c : Char} {front back : Bytes} (is : String.utf8EncodeChar c = front ++ back)
    (some_ : back ≠ []) : sequences front = ([], front) := by
  cases front with
  | nil => rw [sequences]
  | cons lead more =>
    obtain ⟨b, tail, bytes, -, all⟩ := continues_utf8EncodeChar c
    rw [is] at bytes
    obtain ⟨rfl, rfl⟩ := List.cons.inj bytes
    have starts := utf8Starts_encode c []
    have first : utf8Starts (lead :: (more ++ back)) ≠ 0 := by
      rw [← cons_append, ← is, ← append_nil (String.utf8EncodeChar c), starts]
      exact Nat.ne_of_gt (length_pos_iff.mpr String.utf8EncodeChar_ne_nil)
    rw [append_nil, is, cons_append, utf8Starts_eq first, length_cons, length_append] at starts
    have positive := length_pos_iff.mpr some_
    apply sequences_left
    · omega
    · exact fun d among => all d (mem_append_left _ among)

theorem flatMap_answer_of_harmless {cs : List Char} (all : ∀ c ∈ cs, SafeChar c) :
    (cs.map String.utf8EncodeChar).flatMap answer = cs.flatMap String.utf8EncodeChar := by
  induction cs with
  | nil => rfl
  | cons c cs ih =>
    obtain ⟨first, rest⟩ := forall_mem_cons.mp all
    rw [map_cons, flatMap_cons, ih rest, flatMap_cons, answer, if_pos ⟨c, first, rfl⟩]

/-- A sequence that a question mark stands for: a control character, a byte that no character begins with, a character
that is cut short, or a value that is overlong, out of range, a surrogate or a control character. -/
inductive Faulty : Bytes → Prop
  | control {b : UInt8} (low : b < 0x80) (kind : (b < 0x20 ∨ b = 0x7f) ∧ b ≠ 10 ∧ b ≠ 9) : Faulty [b]
  | stray {b : UInt8} (none_ : utf8Len b = 0) : Faulty [b]
  | short {lead : UInt8} {more : Bytes} (length : more.length + 1 < utf8Len lead) (all : ∀ b ∈ more, Continues b) :
      Faulty (lead :: more)
  | invalid {lead : UInt8} {more : Bytes} (length : more.length + 1 = utf8Len lead) (some_ : more ≠ [])
      (all : ∀ b ∈ more, Continues b)
      (value : sequenceValue lead more < leastOf (utf8Len lead) ∨ 0x10ffff < sequenceValue lead more ∨
        (0xd800 ≤ sequenceValue lead more ∧ sequenceValue lead more ≤ 0xdfff) ∨
        (0x80 ≤ sequenceValue lead more ∧ sequenceValue lead more ≤ 0x9f)) : Faulty (lead :: more)

theorem mem_goesOn {rest : Bytes} (among : b ∈ goesOn lead rest) : Continues b := by
  have kind := mem_takeWhile_imp among
  exact of_decide_eq_true kind

/-- Each sequence is a character that is written, or one question mark. -/
theorem sequences_kinds (text : Bytes) :
    ∀ s ∈ (sequences text).1, (IsShown s ∧ answer s = s) ∨ (Faulty s ∧ answer s = [63]) := by
  have one : ∀ lead rest, IsShown (lead :: goesOn lead rest) ∨ Faulty (lead :: goesOn lead rest) := by
    intro lead rest
    have most := length_goesOn_le lead rest
    by_cases low : lead < 0x80
    · have none_ : goesOn lead rest = [] := length_eq_zero_iff.mp (by
        rw [utf8Len_ascii low] at most
        exact Nat.le_zero.mp most)
      rw [none_, CliConsoleOutput.isShown_ascii low]
      by_cases control : (lead < 0x20 ∨ lead = 0x7f) ∧ lead ≠ 10 ∧ lead ≠ 9
      · exact .inr (.control low control)
      · exact .inl control
    · have ne_one := CliConsoleOutput.utf8Len_ne_one (UInt8.not_lt.mp low)
      by_cases zero : utf8Len lead = 0
      · have none_ : goesOn lead rest = [] := length_eq_zero_iff.mp (by omega)
        rw [none_]
        exact .inr (.stray zero)
      · by_cases short : (goesOn lead rest).length + 1 < utf8Len lead
        · exact .inr (.short short fun b among => mem_goesOn among)
        · have whole : (goesOn lead rest).length + 1 = utf8Len lead := by omega
          have some_ : goesOn lead rest ≠ [] := by
            intro none_
            rw [none_, length_nil] at whole
            omega
          have checked := isShown_sequence whole some_ fun b among => mem_goesOn among
          by_cases shows : IsShown (lead :: goesOn lead rest)
          · exact .inl shows
          · right
            apply Faulty.invalid whole some_ fun b among => mem_goesOn among
            by_contra fine
            exact shows (checked.mpr fine)
  induction text using sequences.induct with
  | case1 =>
    rw [sequences]
    nofun
  | case2 lead rest whole all left is ih =>
    rw [sequences, if_pos whole, is]
    rw [is] at ih
    dsimp only at ih ⊢
    rw [forall_mem_cons]
    refine ⟨?_, ih⟩
    by_cases shows : IsShown (lead :: goesOn lead rest)
    · exact .inl ⟨shows, if_pos shows⟩
    · exact .inr ⟨(one lead rest).resolve_left shows, if_neg shows⟩
  | case3 lead rest partial_ =>
    rw [sequences, if_neg partial_]
    nofun

/-! ## Spans with styles between them -/

/-- The bytes of what is printed. -/
def printed (palette : CliStyle → Bytes) : CliWritten → Bytes
  | .style id => palette id
  | .bytes text => text

/-- The text of what is printed. -/
def printedText : CliWritten → Bytes
  | .style _ => []
  | .bytes text => text

theorem writes_append (state : CliConsoleOutput) (front back : List Bytes) : state.writes (front ++ back) =
      (((state.writes front).1.writes back).1, (state.writes front).2 ++ ((state.writes front).1.writes back).2) := by
  induction front generalizing state with
  | nil => rfl
  | cons text front ih =>
    rw [cons_append, CliConsoleOutput.writes, ih, CliConsoleOutput.writes]
    dsimp only
    rw [append_assoc]

/-- A stream gets the text of the spans, with sequences between whole texts that a terminal shows. -/
theorem cliConsolePrint_spec (palette : CliStyle → Bytes) (spans : List (Bytes × CliStyle))
    (pending : state.Pending) (display : CliStyle) :
    (cliConsolePrint palette spans state display).1 = (state.writes (spans.map Prod.fst)).1 ∧
      ∃ tokens : List CliWritten, (cliConsolePrint palette spans state display).2 = tokens.flatMap (printed palette) ∧
        tokens.flatMap printedText = (state.writes (spans.map Prod.fst)).2 ∧
        ∀ text, .bytes text ∈ tokens → ShownText text := by
  induction spans generalizing state display with
  | nil =>
    refine ⟨rfl, if CliStyle.reset ≠ display then [.style .reset] else [], ?_, ?_, ?_⟩
    · rw [cliConsolePrint]
      split
      · exact (append_nil _).symm
      · rfl
    · split <;> rfl
    · intro text among
      split at among
      · exact nomatch mem_singleton.mp among
      · exact nomatch among
  | cons span spans ih =>
    obtain ⟨text, style⟩ := span
    obtain ⟨written, -, pending'⟩ := CliConsoleOutput.write_spec pending text
    obtain ⟨after_, tokens, bytes, texts, shown_⟩ := ih pending' style
    refine ⟨after_, (if style ≠ display then [.style style] else []) ++ .bytes (state.write text).2 :: tokens, ?_, ?_,
      ?_⟩
    · rw [flatMap_append, flatMap_cons, ← bytes, cliConsolePrint]
      dsimp only
      rw [append_assoc]
      congr 1
      split
      · exact (append_nil _).symm
      · rfl
    · have change : (if style ≠ display then [CliWritten.style style] else []).flatMap printedText = [] := by
        split <;> rfl
      rw [flatMap_append, flatMap_cons, texts, change]
      rfl
    · intro t among
      rw [mem_append, mem_cons] at among
      obtain among | same | among := among
      · split at among
        · exact nomatch mem_singleton.mp among
        · exact nomatch among
      · rw [CliWritten.bytes.inj same, written]
        exact shownText_answers _
      · exact shown_ t among

/-- A screen gets the text of the spans, each in its style. -/
theorem cliConsolePrintScreen_spec (spans : List (Bytes × CliStyle))
    (pending : state.Pending) : (cliConsolePrintScreen spans state).1 = (state.writes (spans.map Prod.fst)).1 ∧
      ((cliConsolePrintScreen spans state).2.map Prod.fst).flatten = (state.writes (spans.map Prod.fst)).2 ∧
      (cliConsolePrintScreen spans state).2.map Prod.snd = spans.map Prod.snd ∧
      ∀ part ∈ (cliConsolePrintScreen spans state).2, ShownText part.1 := by
  induction spans generalizing state with
  | nil => exact ⟨rfl, rfl, rfl, nofun⟩
  | cons span spans ih =>
    obtain ⟨text, style⟩ := span
    obtain ⟨written, -, pending'⟩ := CliConsoleOutput.write_spec pending text
    obtain ⟨after_, texts, styles, shown_⟩ := ih pending'
    refine ⟨after_, ?_, ?_, forall_mem_cons.mpr ⟨?_, shown_⟩⟩
    · exact congrArg ((state.write text).2 ++ ·) texts
    · exact congrArg (List.cons style) styles
    · rw [written]
      exact shownText_answers _

/-- What the console writes of any bytes in any pieces is text that a terminal shows: the harmless characters as they
are, and a question mark for each sequence that is none; and printing writes the same text, with styles between whole
texts only. -/
theorem console_text (chunks : List Bytes) (palette : CliStyle → Bytes) (spans : List (Bytes × CliStyle))
    (display : CliStyle) :
    let written := CliConsoleOutput.writes {} chunks
    let whole := sequences chunks.flatten
    (written.2 = whole.1.flatMap answer ∧ written.1.pending = whole.2 ∧ whole.1.flatten ++ whole.2 = chunks.flatten ∧
      ∀ s ∈ whole.1, (IsShown s ∧ answer s = s) ∨ (Faulty s ∧ answer s = [63])) ∧
    ShownText written.2 ∧
    (∀ (cs : List Char) (c : Char) (front back : Bytes), (∀ d ∈ cs, SafeChar d) →
      String.utf8EncodeChar c = front ++ back → back ≠ [] → chunks.flatten = cs.flatMap String.utf8EncodeChar ++ front →
      written.2 = cs.flatMap String.utf8EncodeChar ∧ written.1.pending = front) ∧
    (let both := CliConsoleOutput.writes {} (chunks ++ spans.map Prod.fst)
     (cliConsolePrint palette spans written.1 display).1 = both.1 ∧
      (∃ tokens : List CliWritten,
        (cliConsolePrint palette spans written.1 display).2 = tokens.flatMap (printed palette) ∧
        written.2 ++ tokens.flatMap printedText = both.2 ∧ ∀ text, .bytes text ∈ tokens → ShownText text) ∧
      (cliConsolePrintScreen spans written.1).1 = both.1 ∧
      written.2 ++ ((cliConsolePrintScreen spans written.1).2.map Prod.fst).flatten = both.2 ∧
      (cliConsolePrintScreen spans written.1).2.map Prod.snd = spans.map Prod.snd ∧
      ∀ part ∈ (cliConsolePrintScreen spans written.1).2, ShownText part.1) := by
  have starts : CliConsoleOutput.Pending {} := .inl rfl
  obtain ⟨text, left, pending⟩ := CliConsoleOutput.writes_spec starts chunks
  rw [nil_append] at text left
  dsimp only
  refine ⟨⟨text, left, sequences_flatten _, sequences_kinds _⟩, ?_, ?_, ?_⟩
  · rw [text]
    exact shownText_answers _
  · intro cs c front back harmless is some_ whole
    have split_ := sequences_chars cs front
    rw [sequences_begin is some_] at split_
    rw [text, left, whole, split_]
    dsimp only
    rw [append_nil, flatMap_answer_of_harmless harmless]
    exact ⟨rfl, rfl⟩
  · obtain ⟨after_, tokens, bytes, texts, shown_⟩ := cliConsolePrint_spec palette spans pending display
    obtain ⟨after', texts', styles, shown'⟩ := cliConsolePrintScreen_spec spans pending
    rw [writes_append]
    dsimp only
    rw [texts']
    exact ⟨after_, ⟨tokens, bytes, by rw [texts], shown_⟩, after', rfl, styles, shown'⟩

end Askai
