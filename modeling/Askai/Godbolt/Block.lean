import Askai.Godbolt.Probe
import Askai.Util.Strings

/-!
# The block of the probe

When the output of the probe is accepted, and what its records are: the grammar of the block, from the escape
sequences of C up to the lines, against the parser that decodes it into its store.
-/

namespace Askai

open Library List

/-! ## Escape sequences -/

/-- The number that digits are, after a number that is there already. -/
def digitsFrom (base v : Nat) (ds : Bytes) : Nat :=
  ds.foldl (fun v d => v * base + (utilHexDigit d).toNat) v

/-- A hexadecimal digit. -/
def HexDigit (d : UInt8) : Prop := utilHexDigit d < 16

/-- An octal digit. -/
def OctalDigit (d : UInt8) : Prop := 48 ≤ d ∧ d ≤ 55

instance : DecidablePred HexDigit := fun _ => inferInstanceAs (Decidable (_ < _))

instance : DecidablePred OctalDigit := fun _ => inferInstanceAs (Decidable (_ ∧ _))

/-- What follows a backslash, before the rest of the text, and the bytes that it is an escape sequence of: as
many digits belong to it as can. -/
inductive Escaped : Bytes → Bytes → Bytes → Prop
  | letter {e b : UInt8} (rest : Bytes) (is : (e, b) ∈ simpleEscapes) : Escaped [e] rest [b]
  | octal {ds rest : Bytes} (some_ : ds ≠ []) (short : ds.length ≤ 3) (digits : ∀ d ∈ ds, OctalDigit d)
      (whole : ds.length = 3 ∨ ∀ d ∈ rest.head?, ¬ OctalDigit d) (positive : 0 < digitsFrom 8 0 ds)
      (fits : digitsFrom 8 0 ds ≤ 255) : Escaped ds rest [UInt8.ofNat (digitsFrom 8 0 ds)]
  | hex {ds rest : Bytes} (digits : ∀ d ∈ ds, HexDigit d) (whole : ∀ d ∈ rest.head?, ¬ HexDigit d)
      (positive : 0 < digitsFrom 16 0 ds) (fits : digitsFrom 16 0 ds ≤ 255) :
      Escaped (120 :: ds) rest [UInt8.ofNat (digitsFrom 16 0 ds)]
  | universal {e : UInt8} {ds : Bytes} (rest : Bytes) (c : Char) (count : e = 117 ∧ ds.length = 4 ∨ e = 85 ∧ ds.length = 8)
      (digits : ∀ d ∈ ds, HexDigit d) (is : digitsFrom 16 0 ds = c.toNat) (some_ : c.toNat ≠ 0) :
      Escaped (e :: ds) rest (String.utf8EncodeChar c)

/-- What stands between the quotes of a literal, and the bytes that it decodes to. -/
inductive Spelled : Bytes → Bytes → Prop
  | nil : Spelled [] []
  | byte {t s : Bytes} (b : UInt8) (closed : b ≠ quote) (plain : b ≠ backslash) (some_ : b ≠ 0) (rest : Spelled t s) :
      Spelled (b :: t) (b :: s)
  | escape {e t bytes s : Bytes} (escaped : Escaped e t bytes) (rest : Spelled t s) :
      Spelled (backslash :: (e ++ t)) (bytes ++ s)

/-- Only white space. -/
def Blank (text : Bytes) : Prop := ∀ c ∈ text, godboltProbeSpace c

/-- One or more literals next to each other, and the bytes that they decode to together. -/
inductive Literals : Bytes → Bytes → Prop
  | one {a t s b : Bytes} (before : Blank a) (spelled : Spelled t s) (after : Blank b) :
      Literals (a ++ quote :: (t ++ quote :: b)) s
  | more {a t s u v : Bytes} (before : Blank a) (spelled : Spelled t s) (rest : Literals u v) :
      Literals (a ++ quote :: (t ++ quote :: u)) (s ++ v)

/-- What follows the tag of a record: a name and a value in parentheses. -/
def RecordForm (rest name value : Bytes) : Prop :=
  ∃ a t u b, rest = a ++ 40 :: (t ++ 44 :: (u ++ 41 :: b)) ∧ Blank a ∧ Literals t name ∧ Literals u value ∧ Blank b

/-- A record of the block. -/
inductive ProbeItem where
  | ofMacro (record : Bytes × Bytes)
  | ofHeader (record : Bytes × Bytes)

/-- A line of the block, without white space at its ends, and its record. -/
inductive BlockLine : Bytes → Option ProbeItem → Prop
  | blank : BlockLine [] none
  | directive (text : Bytes) : BlockLine (35 :: text) none
  | ofMacro {rest name value : Bytes} (form : RecordForm rest name value) :
      BlockLine (macroTag ++ rest) (some (.ofMacro (name, value)))
  | ofHeader {rest name value : Bytes} (form : RecordForm rest name value) :
      BlockLine (headerTag ++ rest) (some (.ofHeader (name, value)))

/-- The macro records of lines. -/
def macrosOf (items : List (Option ProbeItem)) : List (Bytes × Bytes) :=
  items.filterMap fun item => match item with
    | some (.ofMacro record) => some record
    | _ => none

/-- The header records of lines. -/
def headersOf (items : List (Option ProbeItem)) : List (Bytes × Bytes) :=
  items.filterMap fun item => match item with
    | some (.ofHeader record) => some record
    | _ => none

/-- A line that is neither a mark nor a record, nor the mark of a cut. -/
structure OutsideLine (line : Bytes) : Prop where
  whole : line ≠ truncatedLine
  begins : line ≠ beginLine
  ends : line ≠ endLine
  ofMacro : ¬ macroTag <+: line
  ofHeader : ¬ headerTag <+: line

/-- Records that fit a list: names that are not empty and not there twice, texts that are not long, and not
too many of them. -/
structure RecordsFit (max : Nat) (records : List (Bytes × Bytes)) : Prop where
  some_ : ∀ record ∈ records, record.1 ≠ []
  short : ∀ record ∈ records, record.1.length ≤ godboltProbeTextMax ∧ record.2.length ≤ godboltProbeTextMax
  nodup : (records.map Prod.fst).Nodup
  room : records.length ≤ max

/-- Lines with one block in them, and its records. -/
def IsBlock (lines : List Bytes) (macros headers : List (Bytes × Bytes)) : Prop :=
  ∃ before block after items, lines = before ++ beginLine :: (block ++ endLine :: after) ∧
    (∀ line ∈ before, OutsideLine line) ∧ List.Forall₂ BlockLine block items ∧ (∀ line ∈ after, OutsideLine line) ∧
    macros = macrosOf items ∧ headers = headersOf items ∧ RecordsFit godboltProbeMacros macros ∧
    RecordsFit godboltProbeHeaders headers

/-- The lines of an output, without white space at their ends. -/
def probeLines (text : Bytes) : List Bytes :=
  (text.splitOn lf).map probeTrim

/-- The names and the values of records in the store. -/
def recordsIn (store : Bytes) (list : List GodboltProbeRecord) : List (Bytes × Bytes) :=
  list.map fun record => (cstrAt store record.name, cstrAt store record.value)

/-! ## Digits -/

section Digits

variable {base v : Nat} {d : UInt8} {ds : Bytes}

theorem digitsFrom_cons : digitsFrom base v (d :: ds) = digitsFrom base (v * base + (utilHexDigit d).toNat) ds := rfl

theorem le_digitsFrom (some_ : 0 < base) (ds : Bytes) : ∀ v, v ≤ digitsFrom base v ds := by
  induction ds with
  | nil => exact fun v => Nat.le_refl v
  | cons d ds ih =>
    intro v
    have here : v ≤ v * base := Nat.le_mul_of_pos_right v some_
    have rest := ih (v * base + (utilHexDigit d).toNat)
    rw [digitsFrom_cons]
    omega

theorem shift_or_digit {h : Nat} (small : h < 16) (v : Nat) : v <<< 4 ||| h = v * 16 + h := by
  rw [← Nat.shiftLeft_add_eq_or_of_lt (show h < 2 ^ 4 from small), Nat.shiftLeft_eq]

theorem shift_or_octal {h : Nat} (small : h < 8) (v : Nat) : v <<< 3 ||| h = v * 8 + h := by
  rw [← Nat.shiftLeft_add_eq_or_of_lt (show h < 2 ^ 3 from small), Nat.shiftLeft_eq]

theorem HexDigit.toNat_lt (digit : HexDigit d) : (utilHexDigit d).toNat < 16 := digit

theorem OctalDigit.value (digit : OctalDigit d) : (d - 48).toNat = (utilHexDigit d).toNat ∧ (utilHexDigit d).toNat < 8 := by
  have every : ∀ n < 256, OctalDigit (UInt8.ofNat n) →
      (UInt8.ofNat n - 48).toNat = (utilHexDigit (UInt8.ofNat n)).toNat ∧
        (utilHexDigit (UInt8.ofNat n)).toNat < 8 := by
    decide +kernel
  have here := every d.toNat d.toNat_lt
  rw [UInt8.ofNat_toNat] at here
  exact here digit

/-- The digits of a universal character name are read, as many as it has. -/
theorem ucnScalar_digits (digits : ∀ d ∈ ds, HexDigit d) (rest : Bytes) {k : Nat} (few : k + ds.length ≤ 8)
    (small : v < 16 ^ k) : ucnScalar ds.length v (ds ++ rest) = some (digitsFrom 16 v ds, rest) := by
  induction ds generalizing v k with
  | nil => rfl
  | cons d ds ih =>
    obtain ⟨digit, others⟩ := forall_mem_cons.mp digits
    have value := digit.toNat_lt
    have power : 16 ^ (k + 1) = 16 ^ k * 16 := Nat.pow_succ 16 k
    have next : v * 16 + (utilHexDigit d).toNat < 16 ^ (k + 1) := by omega
    have word : 16 ^ (k + 1) ≤ 2 ^ 32 := by
      rw [show (2 : Nat) ^ 32 = 16 ^ 8 from rfl]
      rw [length_cons] at few
      exact Nat.pow_le_pow_right (by omega) (by omega)
    rw [length_cons, cons_append, ucnScalar, if_neg (by omega), shift_or_digit value, Nat.mod_eq_of_lt (by omega)]
    exact ih others (by rw [length_cons] at few; omega) next

/-- What is read as the digits of a universal character name are its digits. -/
theorem ucnScalar_reads {n r : Nat} {text rest : Bytes} {k : Nat} (few : k + n ≤ 8) (small : v < 16 ^ k)
    (reads : ucnScalar n v text = some (r, rest)) :
    ∃ ds, text = ds ++ rest ∧ ds.length = n ∧ (∀ d ∈ ds, HexDigit d) ∧ r = digitsFrom 16 v ds := by
  induction n generalizing v k text with
  | zero =>
    rw [ucnScalar, Option.some.injEq, Prod.mk.injEq] at reads
    exact ⟨[], reads.2, rfl, by simp, reads.1.symm⟩
  | succ n ih =>
    cases text with
    | nil => cases reads
    | cons d text =>
      rw [ucnScalar] at reads
      split_ifs at reads with other
      have digit : HexDigit d := by
        change (utilHexDigit d).toNat < 16
        omega
      have value := digit.toNat_lt
      have power : 16 ^ (k + 1) = 16 ^ k * 16 := Nat.pow_succ 16 k
      have next : v * 16 + (utilHexDigit d).toNat < 16 ^ (k + 1) := by omega
      have word : 16 ^ (k + 1) ≤ 2 ^ 32 := by
        rw [show (2 : Nat) ^ 32 = 16 ^ 8 from rfl]
        exact Nat.pow_le_pow_right (by omega) (by omega)
      rw [shift_or_digit value, Nat.mod_eq_of_lt (by omega)] at reads
      obtain ⟨ds, rfl, length, digits, is⟩ := ih (by omega) next reads
      exact ⟨d :: ds, rfl, by rw [length_cons, length], forall_mem_cons.mpr ⟨digit, digits⟩, is⟩

/-- The digits of a hexadecimal escape sequence are read, all that there are. -/
theorem hexEscape_digits {rest : Bytes} (digits : ∀ d ∈ ds, HexDigit d) (whole : ∀ d ∈ rest.head?, ¬ HexDigit d)
    (fits : digitsFrom 16 v ds ≤ 255) (n : Nat) :
    hexEscape (ds ++ rest) v n = (digitsFrom 16 v ds, n + ds.length, rest) := by
  induction ds generalizing v n with
  | nil =>
    rw [nil_append]
    cases rest with
    | nil => rfl
    | cons c rest =>
      have other := whole c rfl
      rw [hexEscape, if_neg fun both => other both.1]
      rfl
  | cons d ds ih =>
    obtain ⟨digit, others⟩ := forall_mem_cons.mp digits
    have grows := le_digitsFrom (show 0 < 16 by omega) ds (v * 16 + (utilHexDigit d).toNat)
    rw [digitsFrom_cons] at fits
    rw [cons_append, hexEscape, if_pos ⟨digit, by omega⟩, shift_or_digit digit.toNat_lt, ih others fits,
      digitsFrom_cons, length_cons, Nat.add_right_comm, Nat.add_assoc]

/-- What is read as the digits of a hexadecimal escape sequence, when its number fits a byte. -/
theorem hexEscape_reads {text rest : Bytes} {n value m : Nat} (reads : hexEscape text v n = (value, m, rest))
    (fits : value ≤ 255) : ∃ ds, text = ds ++ rest ∧ (∀ d ∈ ds, HexDigit d) ∧ (∀ d ∈ rest.head?, ¬ HexDigit d) ∧
      value = digitsFrom 16 v ds ∧ m = n + ds.length := by
  induction text generalizing v n with
  | nil =>
    rw [hexEscape, Prod.mk.injEq, Prod.mk.injEq] at reads
    obtain ⟨rfl, rfl, rfl⟩ := reads
    exact ⟨[], rfl, by simp, by simp, rfl, rfl⟩
  | cons c text ih =>
    rw [hexEscape] at reads
    split_ifs at reads with more
    · rw [shift_or_digit (HexDigit.toNat_lt more.1)] at reads
      obtain ⟨ds, rfl, digits, whole, is, count⟩ := ih reads
      refine ⟨c :: ds, rfl, forall_mem_cons.mpr ⟨more.1, digits⟩, whole, is, ?_⟩
      rw [count, length_cons]
      omega
    · rw [Prod.mk.injEq, Prod.mk.injEq] at reads
      obtain ⟨rfl, rfl, rfl⟩ := reads
      refine ⟨[], rfl, by simp, ?_, rfl, rfl⟩
      rintro d ⟨⟩ digit
      exact more ⟨digit, fits⟩

/-- The digits of an octal escape sequence are read, up to three. -/
theorem octalEscape_digits {rest : Bytes} (digits : ∀ d ∈ ds, OctalDigit d) {n : Nat} (short : n + ds.length ≤ 3)
    (whole : n + ds.length = 3 ∨ ∀ d ∈ rest.head?, ¬ OctalDigit d) :
    octalEscape (ds ++ rest) v n = (digitsFrom 8 v ds, n + ds.length, rest) := by
  induction ds generalizing v n with
  | nil =>
    rw [nil_append]
    cases rest with
    | nil => rfl
    | cons c rest =>
      rw [octalEscape, if_neg]
      · rfl
      · rintro ⟨less, digit⟩
        obtain all | other := whole
        · exact absurd all (Nat.ne_of_lt less)
        · exact other c rfl digit
  | cons d ds ih =>
    obtain ⟨digit, others⟩ := forall_mem_cons.mp digits
    rw [length_cons] at short whole
    rw [cons_append, octalEscape, if_pos ⟨by omega, digit⟩, digit.value.1, shift_or_octal digit.value.2,
      ih others (by omega) (whole.imp_left fun all => by omega), digitsFrom_cons, length_cons,
      Nat.add_right_comm, Nat.add_assoc]

/-- What is read as the digits of an octal escape sequence. -/
theorem octalEscape_reads {text rest : Bytes} {n value m : Nat} (few : n ≤ 3)
    (reads : octalEscape text v n = (value, m, rest)) :
    ∃ ds, text = ds ++ rest ∧ n + ds.length ≤ 3 ∧ (∀ d ∈ ds, OctalDigit d) ∧
      (n + ds.length = 3 ∨ ∀ d ∈ rest.head?, ¬ OctalDigit d) ∧ value = digitsFrom 8 v ds := by
  induction text generalizing v n with
  | nil =>
    rw [octalEscape, Prod.mk.injEq, Prod.mk.injEq] at reads
    obtain ⟨rfl, -, rfl⟩ := reads
    exact ⟨[], rfl, few, by simp, .inr (by simp), rfl⟩
  | cons c text ih =>
    rw [octalEscape] at reads
    split_ifs at reads with more
    · have digit : OctalDigit c := more.2
      rw [digit.value.1, shift_or_octal digit.value.2] at reads
      obtain ⟨ds, rfl, short, digits, whole, is⟩ := ih more.1 reads
      refine ⟨c :: ds, rfl, ?_, forall_mem_cons.mpr ⟨digit, digits⟩, ?_, is⟩
      · rw [length_cons]
        omega
      · rw [length_cons]
        exact whole.imp_left fun all => by omega
    · rw [Prod.mk.injEq, Prod.mk.injEq] at reads
      obtain ⟨rfl, -, rfl⟩ := reads
      refine ⟨[], rfl, few, by simp, ?_, rfl⟩
      by_cases all : n = 3
      · exact .inl all
      · right
        rintro d ⟨⟩ digit
        exact more ⟨by omega, digit⟩

end Digits

/-! ## Characters -/

theorem tail_byte (n : Nat) : 0x80 ||| n &&& 0x3f = n % 64 + 0x80 := by
  have every : ∀ x < 64, 0x80 ||| x = x + 0x80 := by decide
  rw [show (0x3f : Nat) = 2 ^ 6 - 1 from rfl, Nat.and_two_pow_sub_one_eq_mod]
  exact every _ (Nat.mod_lt n (by decide))

/-- The scalar of a universal character name is written in UTF-8. -/
theorem ucnBytes_toNat (c : Char) : ucnBytes c.toNat = String.utf8EncodeChar c := by
  have valid : c.val.toNat.isValidChar := c.valid
  have two : ∀ x < 32, 0xc0 ||| x = x + 0xc0 := by decide
  have three : ∀ x < 16, 0xe0 ||| x = x + 0xe0 := by decide
  have four : ∀ x < 8, 0xf0 ||| x = x + 0xf0 := by decide
  have shift : ∀ n : Nat, n >>> 6 = n / 64 := fun n => Nat.shiftRight_eq_div_pow n 6
  have same : c.val.toNat = c.toNat := rfl
  rw [Nat.isValidChar, same] at valid
  rw [String.utf8EncodeChar, ucnBytes, same]
  generalize c.toNat = v at valid
  by_cases one : v < 0x80
  · rw [if_pos one, if_pos (show v ≤ 127 by omega)]
    rw [Nat.sub_self, ucnTail]
    change [UInt8.ofNat (0 ||| v)] = _
    rw [Nat.zero_or]
  · rw [if_neg one, if_neg (show ¬ v ≤ 127 by omega)]
    by_cases upTo : v < 0x800
    · rw [if_pos upTo, if_pos (show v ≤ 2047 by omega), show 2 - 1 = 0 + 1 from rfl, ucnTail, ucnTail, tail_byte, shift]
      change [UInt8.ofNat (0xc0 ||| v / 64), _] = _
      rw [two _ (by omega), show v / 64 % 32 = v / 64 from Nat.mod_eq_of_lt (by omega)]
    · rw [if_neg upTo, if_neg (show ¬ v ≤ 2047 by omega)]
      by_cases below : v < 0x10000
      · rw [if_pos below, if_pos (show v ≤ 65535 by omega), show 3 - 1 = 0 + 1 + 1 from rfl, ucnTail, ucnTail, ucnTail, tail_byte, tail_byte, shift, shift,
          Nat.div_div_eq_div_mul]
        change [UInt8.ofNat (0xe0 ||| v / 4096), _, _] = _
        rw [three _ (by omega), show v / 4096 % 16 = v / 4096 from Nat.mod_eq_of_lt (by omega)]
      · rw [if_neg below, if_neg (show ¬ v ≤ 65535 by omega), show 4 - 1 = 0 + 1 + 1 + 1 from rfl, ucnTail, ucnTail, ucnTail, ucnTail, tail_byte, tail_byte, tail_byte,
          shift, shift, shift, Nat.div_div_eq_div_mul v 64 64, Nat.div_div_eq_div_mul v (64 * 64)]
        change [UInt8.ofNat (0xf0 ||| v / 262144), _, _, _] = _
        rw [four _ (by omega), show v / 262144 % 8 = v / 262144 from Nat.mod_eq_of_lt (by omega)]

/-! ## The decoder of literals -/

section Escapes

variable {text rest store after : Bytes}

theorem mem_of_lookup {l : List (UInt8 × UInt8)} {e b : UInt8} (is : l.lookup e = some b) : (e, b) ∈ l := by
  induction l with
  | nil => exact nomatch is
  | cons x l ih =>
    rw [lookup_cons] at is
    split at is
    · next same =>
      rw [beq_iff_eq] at same
      obtain rfl := Option.some.inj is
      rw [same]
      exact mem_cons_self
    · exact mem_cons_of_mem _ (ih is)

theorem lookup_simple : ∀ x ∈ simpleEscapes, simpleEscapes.lookup x.1 = some x.2 :=
  forall_of_all (by decide)

theorem octal_not_simple {d : UInt8} (digit : OctalDigit d) :
    simpleEscapes.lookup d = none ∧ ¬ (d = 117 ∨ d = 85) ∧ d ≠ 120 := by
  have every : ∀ n < 256, OctalDigit (UInt8.ofNat n) → simpleEscapes.lookup (UInt8.ofNat n) = none ∧
      ¬ (UInt8.ofNat n = 117 ∨ UInt8.ofNat n = 85) ∧ UInt8.ofNat n ≠ 120 := by
    decide +kernel
  have here := every d.toNat d.toNat_lt
  rw [UInt8.ofNat_toNat] at here
  exact here digit

variable {seq bytes : Bytes}

/-- An escape sequence is decoded. -/
theorem godboltProbeEscape_of_escaped (escaped : Escaped seq rest bytes) (store : Bytes) :
    godboltProbeEscape (seq ++ rest) store = (some rest, store ++ bytes) := by
  cases escaped with
  | letter rest is =>
    rw [singleton_append, godboltProbeEscape, lookup_simple _ is]
  | octal some_ short digits whole positive fits =>
    cases seq with
    | nil => exact absurd rfl some_
    | cons d ds =>
      obtain ⟨digit, others⟩ := forall_mem_cons.mp digits
      obtain ⟨letter, universal, hex⟩ := octal_not_simple digit
      rw [length_cons] at short whole
      have reads := octalEscape_digits (v := (d - 48).toNat) others (n := 1) (by omega)
        (whole.imp_left fun all => by omega)
      have value : digitsFrom 8 (d - 48).toNat ds = digitsFrom 8 0 (d :: ds) := by
        rw [digitsFrom_cons, Nat.zero_mul, Nat.zero_add, digit.value.1]
      rw [value] at reads
      rw [cons_append, godboltProbeEscape, letter]
      dsimp only
      rw [if_neg universal, if_neg hex, if_pos (show 48 ≤ d ∧ d ≤ 55 from digit), reads]
      dsimp only
      rw [if_neg (by omega)]
  | @hex ds rest digits whole positive fits =>
    have reads := hexEscape_digits digits whole fits 0
    rw [cons_append, godboltProbeEscape, show simpleEscapes.lookup 120 = none by decide]
    dsimp only
    rw [if_neg (by decide), if_pos rfl, reads]
    dsimp only
    rw [if_neg]
    rintro (none_ | none_ | large)
    · obtain rfl := length_eq_zero_iff.mp ((Nat.zero_add _).symm.trans none_)
      exact absurd positive (by decide)
    · omega
    · omega
  | @universal e ds rest c count digits is some_ =>
    have valid : c.val.toNat.isValidChar := c.valid
    rw [show c.val.toNat = c.toNat from rfl, Nat.isValidChar] at valid
    have reads := ucnScalar_digits (k := 0) (v := 0) digits rest (by omega) (by decide)
    have decoded : godboltProbeUcn (ds ++ rest) store ds.length = (some rest, store ++ String.utf8EncodeChar c) := by
      rw [godboltProbeUcn, reads, is]
      dsimp only
      rw [if_neg (by omega), ucnBytes_toNat]
    obtain ⟨rfl, length⟩ | ⟨rfl, length⟩ := count
    · rw [cons_append, godboltProbeEscape, show simpleEscapes.lookup 117 = none by decide]
      dsimp only
      rw [if_pos (.inl rfl), if_pos rfl, ← length, decoded]
    · rw [cons_append, godboltProbeEscape, show simpleEscapes.lookup 85 = none by decide]
      dsimp only
      rw [if_pos (.inr rfl), if_neg (by decide), ← length, decoded]

theorem godboltProbeUcn_reads {n : Nat} (few : n ≤ 8) (reads : godboltProbeUcn text store n = (some rest, after)) :
    ∃ ds c, text = ds ++ rest ∧ ds.length = n ∧ (∀ d ∈ ds, HexDigit d) ∧ digitsFrom 16 0 ds = Char.toNat c ∧
      Char.toNat c ≠ 0 ∧ after = store ++ String.utf8EncodeChar c := by
  rw [godboltProbeUcn] at reads
  split at reads
  · cases reads
  · next scalar rest' digits =>
    by_cases bad : scalar = 0 ∨ 0x10ffff < scalar ∨ (0xd800 ≤ scalar ∧ scalar ≤ 0xdfff)
    · rw [if_pos bad] at reads
      cases reads
    rw [if_neg bad, Prod.mk.injEq, Option.some.injEq] at reads
    obtain ⟨rfl, rfl⟩ := reads
    obtain ⟨ds, split_, length, hex, is⟩ := ucnScalar_reads (k := 0) (v := 0) (by omega) (by decide) digits
    have valid : scalar.isValidChar := by
      rw [Nat.isValidChar]
      omega
    obtain ⟨c, charIs⟩ := exists_char valid
    have same : c.toNat = scalar := charIs
    refine ⟨ds, c, split_, length, hex, by rw [← is, same], by omega, ?_⟩
    rw [← ucnBytes_toNat, same]

/-- What is decoded is an escape sequence. -/
theorem godboltProbeEscape_reads (reads : godboltProbeEscape text store = (some rest, after)) :
    ∃ seq bytes, text = seq ++ rest ∧ Escaped seq rest bytes ∧ after = store ++ bytes := by
  cases text with
  | nil => cases reads
  | cons e text =>
    rw [godboltProbeEscape] at reads
    split at reads
    · next b is =>
      rw [Prod.mk.injEq, Option.some.injEq] at reads
      obtain ⟨rfl, rfl⟩ := reads
      exact ⟨[e], [b], rfl, .letter text (mem_of_lookup is), rfl⟩
    · by_cases universal : e = 117 ∨ e = 85
      · rw [if_pos universal] at reads
        by_cases first : e = 117
        · rw [if_pos first] at reads
          obtain ⟨ds, c, rfl, length, digits, is, some_, rfl⟩ := godboltProbeUcn_reads (by decide) reads
          exact ⟨e :: ds, _, rfl, .universal rest c (.inl ⟨first, length⟩) digits is some_, rfl⟩
        · rw [if_neg first] at reads
          obtain ⟨ds, c, rfl, length, digits, is, some_, rfl⟩ := godboltProbeUcn_reads (by decide) reads
          exact ⟨e :: ds, _, rfl, .universal rest c (.inr ⟨universal.resolve_left first, length⟩) digits is some_, rfl⟩
      · rw [if_neg universal] at reads
        obtain ⟨⟨value, n, rest'⟩, digits⟩ : ∃ r, r = if e = 120 then hexEscape text 0 0
            else if 48 ≤ e ∧ e ≤ 55 then octalEscape text (e - 48).toNat 1 else (0, 0, text) := ⟨_, rfl⟩
        rw [← digits] at reads
        dsimp only at reads
        by_cases bad : n = 0 ∨ value = 0 ∨ 255 < value
        · rw [if_pos bad] at reads
          cases reads
        rw [if_neg bad, Prod.mk.injEq, Option.some.injEq] at reads
        obtain ⟨rfl, rfl⟩ := reads
        by_cases hex : e = 120
        · rw [if_pos hex] at digits
          obtain ⟨ds, rfl, hexes, whole, is, -⟩ := hexEscape_reads digits.symm (by omega)
          refine ⟨e :: ds, _, rfl, ?_, by rw [is]⟩
          rw [hex]
          exact .hex hexes whole (by omega) (by omega)
        · rw [if_neg hex] at digits
          by_cases octal : 48 ≤ e ∧ e ≤ 55
          · have digit : OctalDigit e := octal
            rw [if_pos octal] at digits
            obtain ⟨ds, rfl, short, octals, whole, is⟩ := octalEscape_reads (by decide) digits.symm
            have from_ : digitsFrom 8 (e - 48).toNat ds = digitsFrom 8 0 (e :: ds) := by
              rw [digitsFrom_cons, Nat.zero_mul, Nat.zero_add, digit.value.1]
            rw [from_] at is
            refine ⟨e :: ds, _, rfl, ?_, by rw [is]⟩
            refine .octal (by simp) ?_ (forall_mem_cons.mpr ⟨digit, octals⟩) ?_ (by omega) (by omega)
            · rw [length_cons]
              omega
            · rw [length_cons]
              exact whole.imp_left fun all => by omega
          · rw [if_neg octal, Prod.mk.injEq, Prod.mk.injEq] at digits
            exact absurd (.inl digits.2.1) bad

theorem Escaped.ne_nil (escaped : Escaped seq rest bytes) : seq ≠ [] := by
  cases escaped with
  | octal some_ => exact some_
  | _ => exact nofun

/-- No escape sequence is shorter than its bytes. -/
theorem Escaped.length_le (escaped : Escaped seq rest bytes) : bytes.length ≤ seq.length := by
  have some_ := length_pos_iff.mpr escaped.ne_nil
  cases escaped with
  | universal rest c count =>
    have most : (String.utf8EncodeChar c).length ≤ 4 := by
      rw [String.length_utf8EncodeChar]
      exact Char.utf8Size_le_four c
    rw [length_cons]
    omega
  | _ => exact some_

/-- No escape sequence has a NUL. -/
theorem Escaped.nonnull (escaped : Escaped seq rest bytes) : 0 ∉ bytes := by
  have byte : ∀ n : Nat, 0 < n → n ≤ 255 → (0 : UInt8) ∉ [UInt8.ofNat n] := by
    intro n positive fits among
    have same := congrArg UInt8.toNat (mem_singleton.mp among)
    rw [UInt8.toNat_ofNat', Nat.mod_eq_of_lt (by omega)] at same
    exact absurd same (Nat.ne_of_lt positive)
  cases escaped with
  | letter rest is =>
    have every : ∀ x ∈ simpleEscapes, (0 : UInt8) ∉ [x.2] := forall_of_all (by decide)
    exact every _ is
  | octal _ _ _ _ positive fits => exact byte _ positive fits
  | hex _ _ positive fits => exact byte _ positive fits
  | universal rest c _ _ _ some_ =>
    intro among
    by_cases low : c.val.toNat < 0x80
    · rw [String.utf8EncodeChar, if_pos (Nat.le_of_lt_succ low)] at among
      exact byte c.toNat (Nat.pos_of_ne_zero some_) (by change c.val.toNat ≤ 255; omega) among
    · exact absurd (utf8EncodeChar_high (by omega) 0 among) (by decide)

/-- What follows a literal does not change the escape sequences before its quote. -/
theorem Escaped.quoted (escaped : Escaped seq text bytes) (rest : Bytes) :
    Escaped seq (text ++ quote :: rest) bytes := by
  have head : ∀ p : UInt8 → Prop, ¬ p quote → (∀ d ∈ text.head?, ¬ p d) → ∀ d ∈ (text ++ quote :: rest).head?, ¬ p d := by
    intro p closes none_ d first
    cases text with
    | nil =>
      obtain rfl := Option.some.inj first
      exact closes
    | cons c text => exact none_ d first
  cases escaped with
  | letter _ is => exact .letter _ is
  | octal some_ short digits whole positive fits =>
    exact .octal some_ short digits (whole.imp_right (head OctalDigit (by decide))) positive fits
  | hex digits whole positive fits => exact .hex digits (head HexDigit (by decide) whole) positive fits
  | universal _ c count digits is some_ => exact .universal _ c count digits is some_

/-- And does not make them. -/
theorem Escaped.unquoted (escaped : Escaped seq (text ++ quote :: rest) bytes) : Escaped seq text bytes := by
  have head : ∀ p : UInt8 → Prop, (∀ d ∈ (text ++ quote :: rest).head?, ¬ p d) → ∀ d ∈ text.head?, ¬ p d := by
    intro p none_ d first
    cases text with
    | nil => cases first
    | cons c text => exact none_ d first
  cases escaped with
  | letter _ is => exact .letter _ is
  | octal some_ short digits whole positive fits =>
    exact .octal some_ short digits (whole.imp_right (head OctalDigit)) positive fits
  | hex digits whole positive fits => exact .hex digits (head HexDigit whole) positive fits
  | universal _ c count digits is some_ => exact .universal _ c count digits is some_

end Escapes

/-! ## Literals -/

section Strings

variable {t s text rest store after : Bytes}

theorem Spelled.nonnull (spelled : Spelled t s) : 0 ∉ s := by
  induction spelled with
  | nil => exact not_mem_nil
  | byte b _ _ some_ _ ih =>
    intro among
    obtain first | later := mem_cons.mp among
    · exact some_ first.symm
    · exact ih later
  | escape escaped _ ih =>
    intro among
    obtain first | later := mem_append.mp among
    · exact escaped.nonnull first
    · exact ih later

theorem Literals.nonnull (literals : Literals t s) : 0 ∉ s := by
  induction literals with
  | one _ spelled _ => exact spelled.nonnull
  | more _ spelled _ ih =>
    intro among
    obtain first | later := mem_append.mp among
    · exact spelled.nonnull first
    · exact ih later

theorem stringLoop_of_spelled (spelled : Spelled t s) (fuel : Nat) (enough : t.length < fuel) (rest store : Bytes) :
    stringLoop fuel (t ++ quote :: rest) store = (some rest, store ++ s) := by
  induction spelled generalizing fuel store with
  | nil =>
    obtain ⟨fuel, rfl⟩ : ∃ n, fuel = n + 1 := ⟨fuel - 1, by rw [length_nil] at enough; omega⟩
    rw [nil_append, stringLoop, if_pos rfl, append_nil]
  | @byte t s b closed plain some_ _ ih =>
    obtain ⟨fuel, rfl⟩ : ∃ n, fuel = n + 1 := ⟨fuel - 1, by rw [length_cons] at enough; omega⟩
    rw [length_cons] at enough
    rw [cons_append, stringLoop, if_neg closed, if_neg some_, if_pos plain, ih fuel (by omega), append_assoc,
      singleton_append]
  | @escape e t bytes s escaped _ ih =>
    obtain ⟨fuel, rfl⟩ : ∃ n, fuel = n + 1 := ⟨fuel - 1, by rw [length_cons] at enough; omega⟩
    rw [length_cons, length_append] at enough
    rw [cons_append, stringLoop, if_neg (by decide), if_neg (by decide), if_neg (not_not.mpr rfl), append_assoc,
      godboltProbeEscape_of_escaped (escaped.quoted rest)]
    dsimp only
    rw [ih fuel (by omega), append_assoc]

theorem stringLoop_reads {fuel : Nat} (reads : stringLoop fuel text store = (some rest, after)) :
    ∃ t s, text = t ++ quote :: rest ∧ Spelled t s ∧ after = store ++ s := by
  induction fuel generalizing text store with
  | zero => exact nomatch reads
  | succ fuel ih =>
    cases text with
    | nil => exact nomatch reads
    | cons b text =>
      rw [stringLoop] at reads
      split_ifs at reads with closes none_ plain
      · rw [Prod.mk.injEq, Option.some.injEq] at reads
        obtain ⟨rfl, rfl⟩ := reads
        exact ⟨[], [], by rw [closes]; rfl, .nil, (append_nil _).symm⟩
      · exact nomatch reads
      · obtain ⟨t, s, rfl, spelled, rfl⟩ := ih reads
        exact ⟨b :: t, b :: s, rfl, .byte b closes plain none_ spelled, by rw [append_assoc]; rfl⟩
      · split at reads
        · exact nomatch reads
        · next later decoded escape =>
          obtain ⟨seq, bytes, rfl, escaped, rfl⟩ := godboltProbeEscape_reads escape
          obtain ⟨t, s, rfl, spelled, rfl⟩ := ih reads
          refine ⟨b :: (seq ++ t), bytes ++ s, ?_, ?_, ?_⟩
          · rw [cons_append, append_assoc]
          · rw [not_not.mp plain]
            exact .escape escaped.unquoted spelled
          · rw [append_assoc]

/-- What is left of a text after a step of the decoder, and the store, are no longer than they were together. -/
def Shrinks (text store : Bytes) (r : Option Bytes × Bytes) : Prop :=
  r.2.length + (r.1.getD []).length ≤ store.length + text.length

theorem godboltProbeUcn_none {n : Nat} (fails : godboltProbeUcn text store n = (none, after)) : after = store := by
  rw [godboltProbeUcn] at fails
  split at fails
  · exact (Prod.mk.inj fails).2.symm
  · split_ifs at fails
    · exact (Prod.mk.inj fails).2.symm
    · cases fails

/-- An escape sequence that is not valid writes nothing. -/
theorem godboltProbeEscape_none (fails : godboltProbeEscape text store = (none, after)) : after = store := by
  cases text with
  | nil => exact (Prod.mk.inj fails).2.symm
  | cons e text =>
    rw [godboltProbeEscape] at fails
    split at fails
    · cases fails
    · by_cases universal : e = 117 ∨ e = 85
      · rw [if_pos universal] at fails
        exact godboltProbeUcn_none fails
      · rw [if_neg universal] at fails
        generalize (if e = 120 then hexEscape text 0 0
          else if 48 ≤ e ∧ e ≤ 55 then octalEscape text (e - 48).toNat 1 else (0, 0, text)) = r at fails
        dsimp only at fails
        split_ifs at fails
        · exact (Prod.mk.inj fails).2.symm
        · cases fails

theorem godboltProbeEscape_shrinks (text store : Bytes) : Shrinks text store (godboltProbeEscape text store) := by
  obtain ⟨⟨rest, after⟩, is⟩ : ∃ r, r = godboltProbeEscape text store := ⟨_, rfl⟩
  rw [Shrinks, ← is]
  cases rest with
  | none =>
    rw [godboltProbeEscape_none is.symm]
    exact Nat.add_le_add_left (Nat.zero_le _) _
  | some rest =>
    obtain ⟨seq, bytes, rfl, escaped, rfl⟩ := godboltProbeEscape_reads is.symm
    have shorter := escaped.length_le
    rw [length_append, length_append, Option.getD_some]
    omega

theorem stringLoop_shrinks (fuel : Nat) (text store : Bytes) : Shrinks text store (stringLoop fuel text store) := by
  induction fuel generalizing text store with
  | zero => exact Nat.add_le_add_left (Nat.zero_le _) _
  | succ fuel ih =>
    cases text with
    | nil => exact Nat.le_refl _
    | cons b text =>
      rw [Shrinks, stringLoop]
      split_ifs with closes none_ plain
      · exact Nat.add_le_add_left (Nat.le_succ _) _
      · exact Nat.add_le_add_left (Nat.zero_le _) _
      · have rest := ih text (store ++ [b])
        rw [Shrinks, length_append, length_singleton] at rest
        rw [length_cons]
        omega
      · have first := godboltProbeEscape_shrinks text store
        rw [Shrinks] at first
        split
        · next decoded escape =>
          rw [escape] at first
          change decoded.length + 0 ≤ store.length + text.length at first
          change decoded.length + 0 ≤ store.length + (text.length + 1)
          omega
        · next later decoded escape =>
          rw [escape] at first
          change decoded.length + later.length ≤ store.length + text.length at first
          have rest := ih later decoded
          rw [Shrinks] at rest
          rw [length_cons]
          omega

theorem Spelled.length_le (spelled : Spelled t s) : s.length ≤ t.length := by
  induction spelled with
  | nil => exact Nat.le_refl 0
  | byte _ _ _ _ _ ih => exact Nat.succ_le_succ ih
  | escape escaped _ ih =>
    have shorter := escaped.length_le
    rw [length_cons, length_append, length_append]
    omega

/-! ### White space -/

theorem Blank.nil : Blank [] := by
  rintro _ ⟨⟩

theorem Blank.append {a b : Bytes} (front : Blank a) (back : Blank b) : Blank (a ++ b) :=
  fun c among => (mem_append.mp among).elim (front c) (back c)

/-- The next byte is not white space. -/
def Solid (text : Bytes) : Prop := ∀ c ∈ text.head?, ¬ godboltProbeSpace c

theorem godboltProbeSkip_blank {a : Bytes} (blank : Blank a) (solid : Solid rest) : godboltProbeSkip (a ++ rest) = rest := by
  rw [godboltProbeSkip, dropWhile_append_of_pos blank]
  cases rest with
  | nil => rfl
  | cons c rest => exact dropWhile_cons_of_neg (solid c rfl)

theorem godboltProbeSkip_solid (text : Bytes) : Solid (godboltProbeSkip text) := by
  intro c first space
  have ends := List.head?_dropWhile_not godboltProbeSpace text
  rw [godboltProbeSkip] at first
  rw [show (List.dropWhile godboltProbeSpace text).head? = some c from first] at ends
  exact absurd space (Bool.eq_false_iff.mp ends)

theorem godboltProbeSkip_split (text : Bytes) : ∃ a, text = a ++ godboltProbeSkip text ∧ Blank a :=
  ⟨text.takeWhile godboltProbeSpace, takeWhile_append_dropWhile.symm, fun _ among => mem_takeWhile_imp among⟩

theorem godboltProbeSkip_length (text : Bytes) : (godboltProbeSkip text).length ≤ text.length :=
  (dropWhile_suffix _).length_le

theorem Literals.blank {a : Bytes} (blank : Blank a) (literals : Literals t s) : Literals (a ++ t) s := by
  cases literals with
  | one before spelled after =>
    rw [← append_assoc]
    exact .one (blank.append before) spelled after
  | more before spelled rest =>
    rw [← append_assoc]
    exact .more (blank.append before) spelled rest

/-! ### The loop -/

/-- No literal goes on. -/
def Stops (text : Bytes) : Prop := Solid text ∧ text.head? ≠ some quote

theorem literalLoop_of_stops (stops : Stops rest) (fuel : Nat) (store : Bytes) :
    literalLoop fuel rest store = (some rest, store ++ [0]) := by
  cases fuel with
  | zero => rfl
  | succ fuel =>
    cases rest with
    | nil => rfl
    | cons b rest => rw [literalLoop, if_neg fun same => stops.2 (congrArg some same)]

theorem literalLoop_of_literals (literals : Literals t s) (stops : Stops rest) {fuel : Nat}
    (enough : (godboltProbeSkip (t ++ rest)).length ≤ fuel) (store : Bytes) :
    literalLoop fuel (godboltProbeSkip (t ++ rest)) store = (some rest, store ++ s ++ [0]) := by
  have closes : ∀ text : Bytes, Solid (quote :: text) := by
    intro text c first
    obtain rfl := Option.some.inj first
    decide
  induction literals generalizing fuel store with
  | @one a t s b before spelled after =>
    have skips : godboltProbeSkip (a ++ quote :: (t ++ quote :: b) ++ rest) = quote :: (t ++ quote :: (b ++ rest)) := by
      rw [append_assoc, cons_append, append_assoc, cons_append]
      exact godboltProbeSkip_blank before (closes _)
    rw [skips] at enough ⊢
    obtain ⟨fuel, rfl⟩ : ∃ n, fuel = n + 1 := ⟨fuel - 1, by rw [length_cons] at enough; omega⟩
    have string := stringLoop_of_spelled spelled (t ++ quote :: (b ++ rest)).length
      (by rw [length_append, length_cons]; omega) (b ++ rest) store
    rw [literalLoop, if_pos rfl, godboltProbeString, string]
    dsimp only
    rw [godboltProbeSkip_blank after stops.1]
    exact literalLoop_of_stops stops _ _
  | @more a t s u v before spelled literals ih =>
    have skips : godboltProbeSkip (a ++ quote :: (t ++ quote :: u) ++ rest) = quote :: (t ++ quote :: (u ++ rest)) := by
      rw [append_assoc, cons_append, append_assoc, cons_append]
      exact godboltProbeSkip_blank before (closes _)
    rw [skips] at enough ⊢
    obtain ⟨fuel, rfl⟩ : ∃ n, fuel = n + 1 := ⟨fuel - 1, by rw [length_cons] at enough; omega⟩
    have string := stringLoop_of_spelled spelled (t ++ quote :: (u ++ rest)).length
      (by rw [length_append, length_cons]; omega) (u ++ rest) store
    have shorter := godboltProbeSkip_length (u ++ rest)
    rw [length_cons, length_append, length_cons] at enough
    rw [literalLoop, if_pos rfl, godboltProbeString, string]
    dsimp only
    rw [ih (by omega), append_assoc store]

/-- Literals are decoded, up to what cannot go on with them. -/
theorem godboltProbeLiteral_of_literals (literals : Literals t s) (stops : Stops rest) (store : Bytes) :
    godboltProbeLiteral (t ++ rest) store = (some rest, store ++ s ++ [0]) := by
  have first : (godboltProbeSkip (t ++ rest)).head? = some quote := by
    have closes : ∀ text : Bytes, Solid (quote :: text) := by
      intro text c first
      obtain rfl := Option.some.inj first
      decide
    cases literals with
    | one before _ _ =>
      rw [append_assoc, cons_append, godboltProbeSkip_blank before (closes _), List.head?_cons]
    | more before _ _ =>
      rw [append_assoc, cons_append, godboltProbeSkip_blank before (closes _), List.head?_cons]
  rw [godboltProbeLiteral, if_pos first]
  exact literalLoop_of_literals literals stops (Nat.le_refl _) store

theorem literalLoop_reads {fuel : Nat} (enough : text.length ≤ fuel) (begins : text.head? = some quote)
    (reads : literalLoop fuel text store = (some rest, after)) :
    ∃ t s, text = t ++ rest ∧ Literals t s ∧ after = store ++ s ++ [0] := by
  induction fuel generalizing text store with
  | zero =>
    obtain rfl := length_eq_zero_iff.mp (Nat.le_zero.mp enough)
    cases begins
  | succ fuel ih =>
    cases text with
    | nil => cases begins
    | cons b text =>
      obtain rfl := Option.some.inj begins
      rw [literalLoop, if_pos rfl] at reads
      split at reads
      · cases reads
      · next later decoded string =>
        obtain ⟨t, s, rfl, spelled, rfl⟩ := stringLoop_reads string
        obtain ⟨a, split_, blank⟩ := godboltProbeSkip_split later
        have shorter := godboltProbeSkip_length later
        rw [length_cons, length_append, length_cons] at enough
        by_cases more : (godboltProbeSkip later).head? = some quote
        · obtain ⟨u, v, parts, literals, rfl⟩ := ih (by omega) more reads
          refine ⟨quote :: (t ++ quote :: (a ++ u)), s ++ v, ?_, ?_, ?_⟩
          · rw [cons_append, append_assoc, cons_append, append_assoc, ← parts, ← split_]
          · exact .more .nil spelled (literals.blank blank)
          · rw [append_assoc store]
        · rw [literalLoop_of_stops ⟨godboltProbeSkip_solid later, more⟩, Prod.mk.injEq, Option.some.injEq] at reads
          obtain ⟨rfl, rfl⟩ := reads
          refine ⟨quote :: (t ++ quote :: a), s, ?_, .one .nil spelled blank, rfl⟩
          rw [cons_append, append_assoc, cons_append, ← split_]

/-- What is decoded is literals. -/
theorem godboltProbeLiteral_reads (reads : godboltProbeLiteral text store = (some rest, after)) :
    ∃ t s, text = t ++ rest ∧ Literals t s ∧ after = store ++ s ++ [0] := by
  rw [godboltProbeLiteral] at reads
  split_ifs at reads with begins
  · obtain ⟨t, s, parts, literals, is⟩ := literalLoop_reads (Nat.le_refl _) begins reads
    obtain ⟨a, split_, blank⟩ := godboltProbeSkip_split text
    refine ⟨a ++ t, s, ?_, literals.blank blank, is⟩
    rw [append_assoc, ← parts, ← split_]
  · cases reads

variable (store) in
/-- Each literal has two quotes, and there is one NUL. -/
theorem literalLoop_shrinks {fuel : Nat} (enough : text.length ≤ fuel) :
    (literalLoop fuel text store).2.length + ((literalLoop fuel text store).1.getD []).length ≤
      store.length + text.length + 1 ∧
    (text.head? = some quote → Shrinks text store (literalLoop fuel text store)) := by
  induction fuel generalizing text store with
  | zero =>
    obtain rfl := length_eq_zero_iff.mp (Nat.le_zero.mp enough)
    rw [literalLoop, length_append]
    exact ⟨Nat.le_refl _, nofun⟩
  | succ fuel ih =>
    cases text with
    | nil =>
      rw [literalLoop, length_append]
      exact ⟨Nat.le_refl _, nofun⟩
    | cons b text =>
      rw [length_cons] at enough
      by_cases begins : b = quote
      · have all : Shrinks (b :: text) store (literalLoop (fuel + 1) (b :: text) store) := by
          have string := stringLoop_shrinks text.length text store
          rw [Shrinks] at string
          rw [Shrinks, literalLoop, if_pos begins, length_cons]
          split
          · next decoded is =>
            rw [show stringLoop text.length text store = (none, decoded) from is] at string
            change decoded.length + 0 ≤ _ at string
            change decoded.length + 0 ≤ _
            omega
          · next later decoded is =>
            obtain ⟨t, s, rfl, spelled, rfl⟩ := stringLoop_reads is
            have written := spelled.length_le
            have shorter := godboltProbeSkip_length later
            rw [length_append, length_cons] at enough ⊢
            have rest := (ih (store ++ s) (show (godboltProbeSkip later).length ≤ fuel by omega)).1
            rw [length_append] at rest
            omega
        refine ⟨?_, fun _ => all⟩
        rw [Shrinks] at all
        omega
      · rw [literalLoop, if_neg begins]
        refine ⟨?_, fun first => absurd (Option.some.inj first) begins⟩
        change (store ++ [0]).length + (b :: text).length ≤ _
        rw [length_append, length_singleton, length_cons]
        omega

theorem godboltProbeLiteral_shrinks (text store : Bytes) : Shrinks text store (godboltProbeLiteral text store) := by
  have shorter := godboltProbeSkip_length text
  rw [godboltProbeLiteral]
  split_ifs with begins
  · have all := (literalLoop_shrinks store (Nat.le_refl _)).2 begins
    rw [Shrinks] at all ⊢
    omega
  · exact Nat.add_le_add_left (Nat.zero_le _) _

end Strings

/-! ## Records -/

/-- A string in the store, with its NUL. -/
def At (store : Bytes) (i : Nat) (s : Bytes) : Prop :=
  ∃ front back, store = front ++ (s ++ 0 :: back) ∧ front.length = i ∧ 0 ∉ s

section Records

variable {store s rest name value after : Bytes} {i : Nat}

theorem At.here {s : Bytes} (nonnull : 0 ∉ s) (store : Bytes) : At (store ++ s ++ [0]) store.length s :=
  ⟨store, [], by rw [append_assoc], rfl, nonnull⟩

theorem At.append (here : At store i s) (more : Bytes) : At (store ++ more) i s := by
  obtain ⟨front, back, rfl, length, nonnull⟩ := here
  exact ⟨front, back ++ more, by rw [append_assoc, append_assoc, cons_append], length, nonnull⟩

theorem At.cstrAt (here : At store i s) : cstrAt store i = s := by
  obtain ⟨front, back, rfl, rfl, nonnull⟩ := here
  rw [Askai.cstrAt, drop_left, takeWhile_append_of_pos, takeWhile_cons_of_neg, append_nil]
  · simp
  · intro c among
    rw [decide_eq_true_iff]
    rintro rfl
    exact nonnull among

theorem stops_comma (text : Bytes) : Stops (44 :: text) := by
  refine ⟨?_, fun same => absurd (Option.some.inj same) (by decide)⟩
  intro c first
  obtain rfl := Option.some.inj first
  decide

theorem stops_paren (text : Bytes) : Stops (41 :: text) := by
  refine ⟨?_, fun same => absurd (Option.some.inj same) (by decide)⟩
  intro c first
  obtain rfl := Option.some.inj first
  decide

/-- A record of the form is decoded. -/
theorem recordTexts_of_form (form : RecordForm rest name value) (some_ : name ≠ []) (store : Bytes) :
    recordTexts rest store =
      (some ⟨store.length, (store ++ name ++ [0]).length⟩, store ++ name ++ [0] ++ value ++ [0]) := by
  obtain ⟨a, t, u, b, rfl, before, named, valued, behind⟩ := form
  have opens : Solid (40 :: (t ++ 44 :: (u ++ 41 :: b))) := by
    intro c first
    obtain rfl := Option.some.inj first
    decide
  have ends : godboltProbeSkip b = [] := by
    have all := godboltProbeSkip_blank behind (show Solid [] from nofun)
    rw [append_nil] at all
    exact all
  have first := godboltProbeLiteral_of_literals named (stops_comma (u ++ 41 :: b)) store
  have second := godboltProbeLiteral_of_literals valued (stops_paren b) (store ++ name ++ [0])
  rw [recordTexts, godboltProbeSkip_blank before opens]
  split
  · next text same =>
    obtain rfl := (List.cons.inj same).2
    rw [first]
    split
    · next text' named' parts =>
      obtain ⟨tail, rfl⟩ := Prod.mk.inj parts
      obtain rfl := (List.cons.inj (Option.some.inj tail)).2
      rw [if_neg (by rw [(At.here named.nonnull store).cstrAt]; exact some_), second]
      split
      · next text'' both parts' =>
        obtain ⟨tail', rfl⟩ := Prod.mk.inj parts'
        obtain rfl := (List.cons.inj (Option.some.inj tail')).2
        rw [if_pos ends]
      · next other same' => exact (other _ (Prod.mk.inj same').1.symm).elim
    · next other same' => exact (other _ (Prod.mk.inj same').1.symm).elim
  · next other => exact absurd rfl (other _)

/-- What is decoded is a record of the form. -/
theorem recordTexts_reads {record : GodboltProbeRecord} (reads : recordTexts rest store = (some record, after)) :
    ∃ name value, RecordForm rest name value ∧ name ≠ [] ∧ 0 ∉ name ∧ 0 ∉ value ∧
      record = ⟨store.length, (store ++ name ++ [0]).length⟩ ∧ after = store ++ name ++ [0] ++ value ++ [0] := by
  obtain ⟨a, parts, before⟩ := godboltProbeSkip_split rest
  rw [recordTexts] at reads
  split at reads
  · next text opens =>
    split at reads
    · next text' named literal =>
      obtain ⟨t, name, rfl, names, rfl⟩ := godboltProbeLiteral_reads literal
      rw [(At.here names.nonnull store).cstrAt] at reads
      split_ifs at reads with some_
      · cases reads
      · split at reads
        · next text'' both literal' =>
          obtain ⟨u, value, rfl, values, rfl⟩ := godboltProbeLiteral_reads literal'
          obtain ⟨b, parts', behind⟩ := godboltProbeSkip_split text''
          split_ifs at reads with ends
          · rw [Prod.mk.injEq, Option.some.injEq] at reads
            rw [ends, append_nil] at parts'
            rw [opens] at parts
            exact ⟨name, value, ⟨a, t, u, b, by rw [parts, parts'], before, names, values, behind⟩, some_, names.nonnull,
              values.nonnull, reads.1.symm, reads.2.symm⟩
          · cases reads
        · cases reads
    · cases reads
  · cases reads

/-- A record writes no more than its line has. -/
theorem recordTexts_shrinks (rest store : Bytes) : (recordTexts rest store).2.length ≤ store.length + rest.length := by
  have shorter := godboltProbeSkip_length rest
  rw [recordTexts]
  split
  · next text opens =>
    rw [opens, length_cons] at shorter
    have first := godboltProbeLiteral_shrinks text store
    rw [Shrinks] at first
    split
    · next text' named literal =>
      rw [literal] at first
      change named.length + (text'.length + 1) ≤ _ at first
      split_ifs with some_
      · change named.length ≤ _
        omega
      · have second := godboltProbeLiteral_shrinks text' named
        rw [Shrinks] at second
        split
        · next text'' both literal' =>
          rw [literal'] at second
          change both.length + (text''.length + 1) ≤ _ at second
          split_ifs
          all_goals
            change both.length ≤ _
            omega
        · next left both _ literal' =>
          rw [literal'] at second
          change both.length + _ ≤ _ at second
          change both.length ≤ _
          omega
    · next left named _ literal =>
      rw [literal] at first
      change named.length + _ ≤ _ at first
      change named.length ≤ _
      omega
  · exact Nat.le_add_right _ _

/-- The records of a list are these. -/
def Held (store : Bytes) (list : List GodboltProbeRecord) (records : List (Bytes × Bytes)) : Prop :=
  List.Forall₂ (fun r record => At store r.name record.1 ∧ At store r.value record.2) list records

variable {list list' : List GodboltProbeRecord} {records : List (Bytes × Bytes)} {max : Nat}

theorem Held.append (held : Held store list records) (more : Bytes) : Held (store ++ more) list records :=
  held.imp fun _ _ both => ⟨both.1.append more, both.2.append more⟩

theorem Held.recordsIn (held : Held store list records) : recordsIn store list = records := by
  induction held with
  | nil => rfl
  | cons both _ ih =>
    rw [Askai.recordsIn, map_cons, both.1.cstrAt, both.2.cstrAt]
    rw [Askai.recordsIn] at ih
    rw [ih]

theorem recordsFit_concat (fits : RecordsFit max records) : RecordsFit max (records ++ [(name, value)]) ↔ name ≠ [] ∧
      (name.length ≤ godboltProbeTextMax ∧ value.length ≤ godboltProbeTextMax) ∧ name ∉ records.map Prod.fst ∧
      records.length ≠ max := by
  have least := fits.room
  have names : ((records ++ [(name, value)]).map Prod.fst) = records.map Prod.fst ++ [name] := map_append
  constructor
  · intro more
    have nodup := more.nodup
    have room := more.room
    rw [names, nodup_append] at nodup
    rw [length_append, length_singleton] at room
    have last : (name, value) ∈ records ++ [(name, value)] := mem_append_right _ (mem_singleton.mpr rfl)
    exact ⟨more.some_ _ last, more.short _ last, fun among => nodup.2.2 name among name (mem_singleton.mpr rfl) rfl,
      by omega⟩
  · rintro ⟨some_, short, new, room⟩
    have each : ∀ record ∈ records ++ [(name, value)], record ∈ records ∨ record = (name, value) := by
      intro record among
      obtain old | last := mem_append.mp among
      · exact .inl old
      · exact .inr (mem_singleton.mp last)
    refine ⟨?_, ?_, ?_, ?_⟩
    · intro record among
      obtain old | rfl := each record among
      · exact fits.some_ record old
      · exact some_
    · intro record among
      obtain old | rfl := each record among
      · exact fits.short record old
      · exact short
    · rw [names]
      refine fits.nodup.append (nodup_singleton name) ?_
      intro other among last
      rw [mem_singleton.mp last] at among
      exact new among
    · rw [length_append, length_singleton]
      omega

/-- A record is kept exactly if it fits the list with the others. -/
theorem godboltProbeParseRecord_of_texts (held : Held store list records) (fits : RecordsFit max records)
    (some_ : name ≠ []) (nonnull : 0 ∉ name) (nonnull' : 0 ∉ value) (texts : recordTexts rest store =
      (some ⟨store.length, (store ++ name ++ [0]).length⟩, store ++ name ++ [0] ++ value ++ [0])) :
    (RecordsFit max (records ++ [(name, value)]) → ∃ list',
      godboltProbeParseRecord list max 1 rest store = (.ok list', store ++ name ++ [0] ++ value ++ [0]) ∧
        Held (store ++ name ++ [0] ++ value ++ [0]) list' (records ++ [(name, value)])) ∧
    (¬ RecordsFit max (records ++ [(name, value)]) → ∃ e,
      godboltProbeParseRecord list max 1 rest store = (.error e, store ++ name ++ [0] ++ value ++ [0])) := by
  have named : At (store ++ name ++ [0] ++ value ++ [0]) store.length name := by
    have here := (At.here nonnull store).append (value ++ [0])
    rw [← append_assoc] at here
    exact here
  have valued := At.here nonnull' (store ++ name ++ [0])
  have kept : Held (store ++ name ++ [0] ++ value ++ [0]) list records := by
    have held' := ((held.append name).append [0]).append value
    exact held'.append [0]
  have twice : (list.any fun r => cstrAt (store ++ name ++ [0] ++ value ++ [0]) r.name =
      cstrAt (store ++ name ++ [0] ++ value ++ [0]) store.length) = true ↔ name ∈ records.map Prod.fst := by
    have same := kept.recordsIn
    rw [← same, recordsIn, map_map, any_eq_true, named.cstrAt, mem_map]
    exact exists_congr fun r => and_congr_right fun _ => by rw [decide_eq_true_iff]; rfl
  have long : (godboltProbeTextMax + 1 < (store ++ name ++ [0]).length - store.length ∨
      godboltProbeTextMax + 1 < (store ++ name ++ [0] ++ value ++ [0]).length - (store ++ name ++ [0]).length) ↔
      ¬ (name.length ≤ godboltProbeTextMax ∧ value.length ≤ godboltProbeTextMax) := by
    simp only [length_append, length_singleton]
    omega
  have count : list.length = records.length := held.length_eq
  have outcome : godboltProbeParseRecord list max 1 rest store =
      if ¬ (name.length ≤ godboltProbeTextMax ∧ value.length ≤ godboltProbeTextMax) then
        (.error (.protocol "a name or a value of a record has more than 256 bytes"), store ++ name ++ [0] ++ value ++ [0])
      else if name ∈ records.map Prod.fst then
        (.error (.protocol "the block has a record twice"), store ++ name ++ [0] ++ value ++ [0])
      else if records.length = max then
        (.error (.protocol "the block has too many records"), store ++ name ++ [0] ++ value ++ [0])
      else (.ok (list ++ [⟨store.length, (store ++ name ++ [0]).length⟩]), store ++ name ++ [0] ++ value ++ [0]) := by
    rw [godboltProbeParseRecord, if_neg (not_not.mpr rfl), texts]
    dsimp only
    simp only [long, twice, count]
  rw [outcome, recordsFit_concat fits]
  constructor
  · rintro ⟨-, short, new, room⟩
    rw [if_neg (not_not.mpr short), if_neg new, if_neg room]
    exact ⟨_, rfl, rel_append kept (.cons ⟨named, valued⟩ .nil)⟩
  · intro not
    by_cases short : name.length ≤ godboltProbeTextMax ∧ value.length ≤ godboltProbeTextMax
    · rw [if_neg (not_not.mpr short)]
      by_cases new : name ∈ records.map Prod.fst
      · exact ⟨_, if_pos new⟩
      · rw [if_neg new]
        by_cases room : records.length = max
        · exact ⟨_, if_pos room⟩
        · exact absurd ⟨some_, short, new, room⟩ not
    · exact ⟨_, if_pos short⟩

theorem godboltProbeParseRecord_of_form (held : Held store list records) (fits : RecordsFit max records)
    (form : RecordForm rest name value) (more : RecordsFit max (records ++ [(name, value)])) :
    ∃ list' after, godboltProbeParseRecord list max 1 rest store = (.ok list', store ++ after) ∧
      Held (store ++ after) list' (records ++ [(name, value)]) := by
  have some_ := ((recordsFit_concat fits).mp more).1
  have nonnull : 0 ∉ name ∧ 0 ∉ value := by
    obtain ⟨_, _, _, _, -, -, names, values, -⟩ := form
    exact ⟨names.nonnull, values.nonnull⟩
  obtain ⟨list', parsed, held'⟩ := (godboltProbeParseRecord_of_texts held fits some_ nonnull.1 nonnull.2
    (recordTexts_of_form form some_ store)).1 more
  simp only [append_assoc] at parsed held'
  exact ⟨list', _, parsed, held'⟩

theorem godboltProbeParseRecord_reads (held : Held store list records) (fits : RecordsFit max records)
    (parsed : godboltProbeParseRecord list max 1 rest store = (.ok list', after)) :
    ∃ name value, RecordForm rest name value ∧ RecordsFit max (records ++ [(name, value)]) := by
  cases record : recordTexts rest store with
  | mk r store' =>
    cases r with
    | none =>
      rw [godboltProbeParseRecord, if_neg (not_not.mpr rfl), record] at parsed
      cases parsed
    | some r =>
      obtain ⟨name, value, form, some_, nonnull, nonnull', -, -⟩ := recordTexts_reads record
      refine ⟨name, value, form, ?_⟩
      by_contra not
      obtain ⟨e, refused⟩ := (godboltProbeParseRecord_of_texts held fits some_ nonnull nonnull'
        (recordTexts_of_form form some_ store)).2 not
      rw [parsed] at refused
      cases refused

theorem godboltProbeParseRecord_shrinks (list : List GodboltProbeRecord) (max state : Nat) (rest store : Bytes) :
    (godboltProbeParseRecord list max state rest store).2.length ≤ store.length + rest.length := by
  have texts := recordTexts_shrinks rest store
  rw [godboltProbeParseRecord]
  by_cases outside : state ≠ 1
  · rw [if_pos outside]
    exact Nat.le_add_right _ _
  · rw [if_neg outside]
    split
    · next record =>
      rw [record] at texts
      exact texts
    · next record =>
      rw [record] at texts
      split_ifs
      all_goals exact texts

end Records

/-! ## Lines -/

section Lines

variable {p p' : GodboltProbe} {line : Bytes} {macros headers : List (Bytes × Bytes)}

/-- The records of the probe are these. -/
structure GodboltProbe.Holds (p : GodboltProbe) (macros headers : List (Bytes × Bytes)) : Prop where
  macros : Held p.store p.macros macros
  headers : Held p.store p.headers headers

theorem OutsideLine.passed (outside : OutsideLine line) (state : p.state ≠ 1) : godboltProbeLine p line = (none, p) := by
  rw [godboltProbeLine, if_neg outside.whole, if_neg outside.begins, if_neg outside.ends, if_neg (not_not.mpr rfl),
    if_neg outside.ofMacro, if_neg outside.ofHeader, if_neg fun both => state both.1]

/-- Before and after the block, a line that passes is the first line of a block or outside of blocks. -/
theorem godboltProbeLine_outside (state : p.state ≠ 1) (passes : (godboltProbeLine p line).1 = none) :
    OutsideLine line ∨ line = beginLine ∧ p.state = 0 := by
  have outside : ∀ list max rest store, ∃ e, godboltProbeParseRecord list max p.state rest store = (.error e, store) :=
    fun list max rest store => ⟨_, by rw [godboltProbeParseRecord, if_pos state]⟩
  rw [godboltProbeLine] at passes
  by_cases whole : line = truncatedLine
  · rw [if_pos whole] at passes
    cases passes
  · rw [if_neg whole] at passes
    by_cases begins : line = beginLine
    · rw [if_pos begins, if_pos (by decide)] at passes
      by_cases first : 1 ≠ p.state + 1
      · rw [if_pos first] at passes
        cases passes
      · exact .inr ⟨begins, by omega⟩
    · rw [if_neg begins] at passes
      by_cases ends : line = endLine
      · rw [if_pos ends, if_pos (by decide), if_pos (by omega)] at passes
        cases passes
      · rw [if_neg ends, if_neg (not_not.mpr rfl)] at passes
        by_cases ofMacro : macroTag <+: line
        · obtain ⟨e, fails⟩ := outside p.macros godboltProbeMacros (line.drop macroTag.length) p.store
          rw [if_pos ofMacro, fails] at passes
          cases passes
        · rw [if_neg ofMacro] at passes
          by_cases ofHeader : headerTag <+: line
          · obtain ⟨e, fails⟩ := outside p.headers godboltProbeHeaders (line.drop headerTag.length) p.store
            rw [if_pos ofHeader, fails] at passes
            cases passes
          · exact .inl ⟨whole, begins, ends, ofMacro, ofHeader⟩

theorem godboltProbeLine_begin (state : p.state = 0) : godboltProbeLine p beginLine = (none, { p with state := 1 }) := by
  rw [godboltProbeLine, if_neg (show beginLine ≠ truncatedLine by decide), if_pos rfl, if_pos (by decide),
    if_neg (by omega)]

theorem godboltProbeLine_end (state : p.state = 1) : godboltProbeLine p endLine = (none, { p with state := 2 }) := by
  rw [godboltProbeLine, if_neg (show endLine ≠ truncatedLine by decide),
    if_neg (show endLine ≠ beginLine by decide), if_pos rfl, if_pos (by decide), if_neg (by omega)]

/-- A line that is no mark. -/
theorem godboltProbeLine_of_not_mark (whole : line ≠ truncatedLine) (begins : line ≠ beginLine) (ends : line ≠ endLine) :
    godboltProbeLine p line =
      if macroTag <+: line then
        match godboltProbeParseRecord p.macros godboltProbeMacros p.state (line.drop macroTag.length) p.store with
        | (.error e, store) => (some e, { p with store := store })
        | (.ok list, store) => (none, { p with macros := list, store := store })
      else if headerTag <+: line then
        match godboltProbeParseRecord p.headers godboltProbeHeaders p.state (line.drop headerTag.length) p.store with
        | (.error e, store) => (some e, { p with store := store })
        | (.ok list, store) => (none, { p with headers := list, store := store })
      else if p.state = 1 ∧ line ≠ [] ∧ line.head? ≠ some 35 then
        (some (.protocol "the block has a line that is not a record"), p)
      else (none, p) := by
  have mark : (if line = beginLine then 1 else if line = endLine then 2 else 0) = 0 := by
    rw [if_neg begins, if_neg ends]
  exact (if_neg whole).trans (if_neg (not_not.mpr mark))

/-- The lines that begin with a tag are no marks. -/
theorem not_mark_of_tag {tag : Bytes} (is : tag = macroTag ∨ tag = headerTag) (rest : Bytes) :
    tag ++ rest ≠ truncatedLine ∧ tag ++ rest ≠ beginLine ∧ tag ++ rest ≠ endLine := by
  have first : ∀ tag ∈ [macroTag, headerTag], ∀ mark ∈ [truncatedLine, beginLine, endLine],
      tag.take 9 ≠ mark.take 9 ∧ 9 ≤ tag.length := by decide
  have here : ∀ mark ∈ [truncatedLine, beginLine, endLine], tag ++ rest ≠ mark := by
    intro mark among same
    obtain ⟨differ, long⟩ := first tag (by rw [mem_pair]; exact is) mark among
    rw [← same, take_append_of_le_length long] at differ
    exact differ rfl
  exact ⟨here _ (by decide), here _ (by decide), here _ (by decide)⟩

theorem headerTag_not_macroTag (rest : Bytes) : ¬ macroTag <+: headerTag ++ rest := by
  rintro ⟨tail, same⟩
  have front := congrArg (List.take 9) same
  have macro_ : 9 ≤ macroTag.length := by decide
  have header : 9 ≤ headerTag.length := by decide
  rw [take_append_of_le_length macro_, take_append_of_le_length header] at front
  exact absurd front (by decide)

/-- A line of the block is taken if its record fits. -/
theorem godboltProbeLine_of_blockLine {item : Option ProbeItem} (state : p.state = 1) (holds : p.Holds macros headers)
    (fits : RecordsFit godboltProbeMacros macros) (fits' : RecordsFit godboltProbeHeaders headers)
    (is : BlockLine line item) (more : RecordsFit godboltProbeMacros (macros ++ macrosOf [item]))
    (more' : RecordsFit godboltProbeHeaders (headers ++ headersOf [item])) :
    ∃ p', godboltProbeLine p line = (none, p') ∧ p'.state = 1 ∧
      p'.Holds (macros ++ macrosOf [item]) (headers ++ headersOf [item]) := by
  have same : macros ++ macrosOf [none] = macros ∧ headers ++ headersOf [none] = headers :=
    ⟨append_nil _, append_nil _⟩
  cases is with
  | blank =>
    refine ⟨p, ?_, state, ?_⟩
    · rw [godboltProbeLine_of_not_mark (by decide) (by decide) (by decide),
        if_neg (by decide), if_neg (by decide), if_neg fun all => all.2.1 rfl]
    · rw [same.1, same.2]
      exact holds
  | directive text =>
    have other : ∀ mark ∈ [truncatedLine, beginLine, endLine, macroTag, headerTag], mark.head? ≠ some 35 ∧ mark ≠ [] := by
      decide
    have differ : ∀ mark ∈ [truncatedLine, beginLine, endLine, macroTag, headerTag], 35 :: text ≠ mark := by
      rintro mark among rfl
      exact (other _ among).1 rfl
    have begins : ∀ mark ∈ [truncatedLine, beginLine, endLine, macroTag, headerTag], ¬ mark <+: 35 :: text := by
      intro mark among front
      obtain ⟨head, some_⟩ := other mark among
      cases mark with
      | nil => exact some_ rfl
      | cons c mark => exact head (congrArg some (cons_prefix_cons.mp front).1)
    refine ⟨p, ?_, state, ?_⟩
    · rw [godboltProbeLine_of_not_mark (differ _ (by decide)) (differ _ (by decide))
        (differ _ (by decide)), if_neg (begins _ (by decide)), if_neg (begins _ (by decide)),
        if_neg fun all => all.2.2 rfl]
    · rw [same.1, same.2]
      exact holds
  | @ofMacro rest name value form =>
    obtain ⟨whole, begins, ends⟩ := not_mark_of_tag (.inl rfl) rest
    obtain ⟨list', after, parsed, held⟩ := godboltProbeParseRecord_of_form holds.macros fits form more
    refine ⟨{ p with macros := list', store := p.store ++ after }, ?_, state, held, ?_⟩
    · rw [godboltProbeLine_of_not_mark whole begins ends, if_pos (prefix_append _ _), drop_left, state, parsed]
    · change Held _ _ (headers ++ [])
      rw [append_nil]
      exact holds.headers.append after
  | @ofHeader rest name value form =>
    obtain ⟨whole, begins, ends⟩ := not_mark_of_tag (.inr rfl) rest
    obtain ⟨list', after, parsed, held⟩ := godboltProbeParseRecord_of_form holds.headers fits' form more'
    refine ⟨{ p with headers := list', store := p.store ++ after }, ?_, state, ?_, held⟩
    · rw [godboltProbeLine_of_not_mark whole begins ends, if_neg (headerTag_not_macroTag rest),
        if_pos (prefix_append _ _), drop_left, state, parsed]
    · change Held _ _ (macros ++ [])
      rw [append_nil]
      exact holds.macros.append after

/-- A line of the block that passes is its end, or a line with a record that fits. -/
theorem godboltProbeLine_reads (state : p.state = 1) (holds : p.Holds macros headers)
    (fits : RecordsFit godboltProbeMacros macros) (fits' : RecordsFit godboltProbeHeaders headers)
    (passes : (godboltProbeLine p line).1 = none) :
    line = endLine ∨ ∃ item, BlockLine line item ∧ RecordsFit godboltProbeMacros (macros ++ macrosOf [item]) ∧
      RecordsFit godboltProbeHeaders (headers ++ headersOf [item]) := by
  by_cases whole : line = truncatedLine
  · rw [godboltProbeLine, if_pos whole] at passes
    cases passes
  by_cases begins : line = beginLine
  · rw [godboltProbeLine, if_neg whole, if_pos begins, if_pos (by decide), if_pos (by omega)] at passes
    cases passes
  by_cases ends : line = endLine
  · exact .inl ends
  right
  have plain : ∀ item : Option ProbeItem, macrosOf [item] = [] → headersOf [item] = [] → BlockLine line item →
      ∃ item, BlockLine line item ∧ RecordsFit godboltProbeMacros (macros ++ macrosOf [item]) ∧
        RecordsFit godboltProbeHeaders (headers ++ headersOf [item]) := by
    intro item none_ none' is
    refine ⟨item, is, ?_, ?_⟩
    · rw [none_, append_nil]
      exact fits
    · rw [none', append_nil]
      exact fits'
  rw [godboltProbeLine_of_not_mark whole begins ends] at passes
  by_cases ofMacro : macroTag <+: line
  · rw [if_pos ofMacro, state] at passes
    obtain ⟨rest, rfl⟩ := ofMacro
    rw [drop_left] at passes
    split at passes
    · cases passes
    · next list' store parsed =>
      obtain ⟨name, value, form, more⟩ := godboltProbeParseRecord_reads holds.macros fits parsed
      refine ⟨_, .ofMacro form, more, ?_⟩
      change RecordsFit _ (headers ++ [])
      rw [append_nil]
      exact fits'
  · rw [if_neg ofMacro] at passes
    by_cases ofHeader : headerTag <+: line
    · rw [if_pos ofHeader, state] at passes
      obtain ⟨rest, rfl⟩ := ofHeader
      rw [drop_left] at passes
      split at passes
      · cases passes
      · next list' store parsed =>
        obtain ⟨name, value, form, more⟩ := godboltProbeParseRecord_reads holds.headers fits' parsed
        refine ⟨_, .ofHeader form, ?_, more⟩
        change RecordsFit _ (macros ++ [])
        rw [append_nil]
        exact fits
    · rw [if_neg ofHeader] at passes
      by_cases other : p.state = 1 ∧ line ≠ [] ∧ line.head? ≠ some 35
      · rw [if_pos other] at passes
        cases passes
      · cases line with
        | nil => exact plain none rfl rfl .blank
        | cons c text =>
          by_cases hash : c = 35
          · rw [hash] at plain ⊢
            exact plain none rfl rfl (.directive text)
          · exact absurd ⟨state, nofun, fun first => hash (Option.some.inj first)⟩ other

theorem godboltProbeLine_shrinks (p : GodboltProbe) (line : Bytes) :
    (godboltProbeLine p line).2.store.length ≤ p.store.length + line.length := by
  have record : ∀ list max tag, (godboltProbeParseRecord list max p.state (line.drop tag) p.store).2.length ≤
      p.store.length + line.length := by
    intro list max tag
    have parsed := godboltProbeParseRecord_shrinks list max p.state (line.drop tag) p.store
    rw [length_drop] at parsed
    omega
  by_cases mark : line = truncatedLine ∨ line = beginLine ∨ line = endLine
  · have kept : (godboltProbeLine p line).2.store = p.store := by
      rw [godboltProbeLine]
      obtain is | is | is := mark
      · rw [if_pos is]
      · rw [if_neg (by rw [is]; decide), if_pos is, if_pos (by decide)]
        split_ifs
        all_goals rfl
      · rw [if_neg (by rw [is]; decide), if_neg (show line ≠ beginLine by rw [is]; decide), if_pos is,
          if_pos (by decide)]
        split_ifs
        all_goals rfl
    rw [kept]
    exact Nat.le_add_right _ _
  · obtain ⟨whole, begins, ends⟩ : line ≠ truncatedLine ∧ line ≠ beginLine ∧ line ≠ endLine :=
      ⟨fun is => mark (.inl is), fun is => mark (.inr (.inl is)), fun is => mark (.inr (.inr is))⟩
    rw [godboltProbeLine_of_not_mark whole begins ends]
    by_cases ofMacro : macroTag <+: line
    · have parsed := record p.macros godboltProbeMacros macroTag.length
      rw [if_pos ofMacro]
      split
      · next is =>
        rw [is] at parsed
        exact parsed
      · next is =>
        rw [is] at parsed
        exact parsed
    · rw [if_neg ofMacro]
      by_cases ofHeader : headerTag <+: line
      · have parsed := record p.headers godboltProbeHeaders headerTag.length
        rw [if_pos ofHeader]
        split
        · next is =>
          rw [is] at parsed
          exact parsed
        · next is =>
          rw [is] at parsed
          exact parsed
      · rw [if_neg ofHeader]
        split_ifs
        all_goals exact Nat.le_add_right _ _

/-! ### All lines -/

/-- The lines, until one fails. -/
def probeRun (p : GodboltProbe) : List Bytes → Option GodboltProbeError × GodboltProbe
  | [] => (none, p)
  | line :: lines =>
    match godboltProbeLine p line with
    | (some e, p) => (some e, p)
    | (none, p) => probeRun p lines

theorem probeRun_cons (p : GodboltProbe) (line : Bytes) (lines : List Bytes) : probeRun p (line :: lines) =
      match godboltProbeLine p line with
      | (some e, p) => (some e, p)
      | (none, p) => probeRun p lines := rfl

theorem godboltProbeLine_nil (p : GodboltProbe) : godboltProbeLine p [] = (none, p) := by
  rw [godboltProbeLine_of_not_mark (by decide) (by decide) (by decide), if_neg (by decide),
    if_neg (by decide), if_neg fun all => all.2.1 rfl]

/-- The loop runs the lines of the text. -/
theorem godboltProbeLoop_eq {fuel : Nat} {text : Bytes} (enough : text.length ≤ fuel) (p : GodboltProbe) :
    godboltProbeLoop fuel p text = probeRun p (probeLines text) := by
  have none_ : ∀ p : GodboltProbe, probeRun p (probeLines []) = (none, p) := by
    intro p
    change probeRun p [[]] = (none, p)
    rw [probeRun_cons, godboltProbeLine_nil]
    rfl
  induction fuel generalizing text p with
  | zero =>
    obtain rfl := length_eq_zero_iff.mp (Nat.le_zero.mp enough)
    rw [none_]
    rfl
  | succ fuel ih =>
    rw [godboltProbeLoop]
    by_cases empty : text = []
    · rw [if_pos empty, empty, none_]
    · rw [if_neg empty]
      cases here : cut lf text with
      | none =>
        have lines : probeLines text = [probeTrim text] := by
          rw [probeLines, splitOn_eq_singleton (cut_eq_none.mp here)]
          rfl
        rw [lines, probeRun_cons, Option.getD_none]
        dsimp only
        rcases godboltProbeLine p (probeTrim text) with ⟨_ | e, p⟩
        · dsimp only
          rw [ih (Nat.zero_le _), none_]
          rfl
        · rfl
      | some parts =>
        obtain ⟨line, rest⟩ := parts
        have length := cut_length here
        obtain ⟨rfl, absent⟩ := cut_eq_some.mp here
        have lines : probeLines (line ++ lf :: rest) = probeTrim line :: probeLines rest := by
          rw [probeLines, splitOn_append_cons_self_of_not_mem absent]
          rfl
        rw [lines, probeRun_cons, Option.getD_some]
        dsimp only
        rcases godboltProbeLine p (probeTrim line) with ⟨_ | e, p⟩
        · exact ih (by rw [← length] at enough; omega) p
        · rfl

/-- After the block, every line is outside of it. -/
theorem probeRun_after (lines : List Bytes) (state : p.state = 2) :
    ((probeRun p lines).1 = none ↔ ∀ line ∈ lines, OutsideLine line) ∧
      ((probeRun p lines).1 = none → (probeRun p lines).2 = p) := by
  induction lines with
  | nil => exact ⟨⟨fun _ => nofun, fun _ => rfl⟩, fun _ => rfl⟩
  | cons line lines ih =>
    rw [forall_mem_cons, probeRun_cons]
    by_cases outside : OutsideLine line
    · rw [outside.passed (by omega), and_iff_right outside]
      exact ih
    · have fails : (godboltProbeLine p line).1 ≠ none := by
        intro passes
        obtain outside' | ⟨-, before⟩ := godboltProbeLine_outside (by omega) passes
        · exact outside outside'
        · omega
      split
      · exact ⟨⟨nofun, fun both => absurd both.1 outside⟩, nofun⟩
      · next is =>
        rw [is] at fails
        exact absurd rfl fails

/-- Lines of a block, from one of its lines on. -/
def BlockFrom (lines : List Bytes) (macros headers macros' headers' : List (Bytes × Bytes)) : Prop :=
  ∃ block after items, lines = block ++ endLine :: after ∧ List.Forall₂ BlockLine block items ∧
    (∀ line ∈ after, OutsideLine line) ∧ macros' = macros ++ macrosOf items ∧ headers' = headers ++ headersOf items ∧
    RecordsFit godboltProbeMacros macros' ∧ RecordsFit godboltProbeHeaders headers'

theorem RecordsFit.front {max : Nat} {front back : List (Bytes × Bytes)} (fits : RecordsFit max (front ++ back)) :
    RecordsFit max front where
  some_ record among := fits.some_ record (mem_append_left _ among)
  short record among := fits.short record (mem_append_left _ among)
  nodup := by
    have all := fits.nodup
    rw [map_append] at all
    exact all.of_append_left
  room := by
    have all := fits.room
    rw [length_append] at all
    omega

theorem macrosOf_cons (item : Option ProbeItem) (items : List (Option ProbeItem)) :
    macrosOf (item :: items) = macrosOf [item] ++ macrosOf items :=
  filterMap_append (l := [item])

theorem headersOf_cons (item : Option ProbeItem) (items : List (Option ProbeItem)) :
    headersOf (item :: items) = headersOf [item] ++ headersOf items :=
  filterMap_append (l := [item])

/-- In the block, the lines are accepted exactly if they are the rest of a block, and the records are then its. -/
theorem probeRun_block (lines : List Bytes) (state : p.state = 1) (holds : p.Holds macros headers)
    (fits : RecordsFit godboltProbeMacros macros) (fits' : RecordsFit godboltProbeHeaders headers) :
    ((probeRun p lines).1 = none → (probeRun p lines).2.state = 2 →
      ∃ macros' headers', BlockFrom lines macros headers macros' headers') ∧
    ∀ macros' headers', BlockFrom lines macros headers macros' headers' →
      (probeRun p lines).1 = none ∧ (probeRun p lines).2.state = 2 ∧ (probeRun p lines).2.Holds macros' headers' := by
  induction lines generalizing p macros headers with
  | nil =>
    refine ⟨fun _ ended => ?_, ?_⟩
    · change p.state = 2 at ended
      omega
    · rintro macros' headers' ⟨block, after, items, none_, -⟩
      exact absurd none_ (by simp)
  | cons line lines ih =>
    rw [probeRun_cons]
    constructor
    · intro passes ended
      split at passes
      · cases passes
      · next p' is =>
        rw [is] at ended
        dsimp only at ended
        obtain rfl | ⟨item, blockLine, more, more'⟩ := godboltProbeLine_reads state holds fits fits' (by rw [is])
        · rw [godboltProbeLine_end state, Prod.mk.injEq] at is
          obtain ⟨-, rfl⟩ := is
          have outside := ((probeRun_after (p := { p with state := 2 }) lines rfl).1).mp passes
          exact ⟨macros, headers, [], lines, [], rfl, .nil, outside, (append_nil _).symm, (append_nil _).symm,
            fits, fits'⟩
        · obtain ⟨p'', is', state', holds'⟩ := godboltProbeLine_of_blockLine state holds fits fits' blockLine more more'
          obtain rfl := (Prod.mk.inj (is'.symm.trans is)).2
          obtain ⟨macros', headers', block, after, items, rfl, each, outside, rfl, rfl, rest⟩ :=
            (ih state' holds' more more').1 passes ended
          refine ⟨_, _, line :: block, after, item :: items, rfl, .cons blockLine each, outside, ?_, ?_, rest⟩
          · rw [macrosOf_cons item items, append_assoc]
          · rw [headersOf_cons item items, append_assoc]
    · rintro macros' headers' ⟨block, after, items, parts, each, outside, rfl, rfl, all, all'⟩
      cases each with
      | nil =>
        obtain ⟨rfl, rfl⟩ := List.cons.inj parts
        rw [godboltProbeLine_end state]
        obtain ⟨passes, same⟩ := probeRun_after (p := { p with state := 2 }) lines rfl
        have none_ := passes.mpr outside
        refine ⟨none_, ?_, ?_⟩
        · rw [same none_]
        · rw [same none_]
          change GodboltProbe.Holds _ (macros ++ []) (headers ++ [])
          rw [append_nil, append_nil]
          exact ⟨holds.macros, holds.headers⟩
      | @cons first item block items blockLine each =>
        obtain ⟨rfl, rfl⟩ := List.cons.inj parts
        rw [macrosOf_cons, ← append_assoc] at all ⊢
        rw [headersOf_cons, ← append_assoc] at all' ⊢
        obtain ⟨p', is, state', holds'⟩ := godboltProbeLine_of_blockLine state holds fits fits' blockLine all.front
          all'.front
        rw [is]
        exact (ih state' holds' all.front all'.front).2 _ _
          ⟨block, after, items, rfl, each, outside, rfl, rfl, all, all'⟩

theorem recordsFit_nil (max : Nat) : RecordsFit max [] :=
  ⟨nofun, nofun, nodup_nil, Nat.zero_le _⟩

/-- From the start, the lines are accepted exactly if they have one block. -/
theorem probeRun_begin (lines : List Bytes) (state : p.state = 0) (none_ : p.macros = [] ∧ p.headers = []) :
    ((probeRun p lines).1 = none → (probeRun p lines).2.state = 2 → ∃ macros headers, IsBlock lines macros headers) ∧
    ∀ macros headers, IsBlock lines macros headers →
      (probeRun p lines).1 = none ∧ (probeRun p lines).2.state = 2 ∧ (probeRun p lines).2.Holds macros headers := by
  have empty : GodboltProbe.Holds { p with state := 1 } [] [] := by
    constructor
    · change Held p.store p.macros []
      rw [none_.1]
      exact .nil
    · change Held p.store p.headers []
      rw [none_.2]
      exact .nil
  induction lines with
  | nil =>
    refine ⟨fun _ ended => ?_, ?_⟩
    · change p.state = 2 at ended
      omega
    · rintro macros headers ⟨before, block, after, items, parts, -⟩
      exact absurd parts (by simp)
  | cons line lines ih =>
    rw [probeRun_cons]
    constructor
    · intro passes ended
      split at passes
      · cases passes
      · next p' is =>
        rw [is] at ended
        dsimp only at ended
        obtain outside | ⟨rfl, -⟩ := godboltProbeLine_outside (show p.state ≠ 1 by omega)
          (show (godboltProbeLine p line).1 = none by rw [is])
        · obtain rfl := (Prod.mk.inj ((outside.passed (p := p) (by omega)).symm.trans is)).2
          obtain ⟨macros, headers, before, block, after, items, rfl, outside', rest⟩ := ih.1 passes ended
          exact ⟨macros, headers, line :: before, block, after, items, rfl,
            forall_mem_cons.mpr ⟨outside, outside'⟩, rest⟩
        · obtain rfl := (Prod.mk.inj ((godboltProbeLine_begin state).symm.trans is)).2
          obtain ⟨macros, headers, block, after, items, rfl, each, outside, macrosIs, headersIs, fit⟩ :=
            (probeRun_block lines rfl empty (recordsFit_nil _) (recordsFit_nil _)).1 passes ended
          exact ⟨macros, headers, [], block, after, items, rfl, nofun, each, outside, macrosIs, headersIs, fit⟩
    · rintro macros headers ⟨before, block, after, items, parts, outside, each, outside', macrosIs, headersIs, fit⟩
      cases before with
      | nil =>
        obtain ⟨rfl, rfl⟩ := List.cons.inj parts
        rw [godboltProbeLine_begin state]
        exact (probeRun_block _ rfl empty (recordsFit_nil _) (recordsFit_nil _)).2 macros headers
          ⟨block, after, items, rfl, each, outside', macrosIs, headersIs, fit⟩
      | cons first before =>
        obtain ⟨rfl, rfl⟩ := List.cons.inj parts
        obtain ⟨here, later⟩ := forall_mem_cons.mp outside
        rw [here.passed (by omega)]
        exact ih.2 macros headers ⟨before, block, after, items, rfl, later, each, outside', macrosIs, headersIs, fit⟩

theorem probeTrim_length (line : Bytes) : (probeTrim line).length ≤ line.length :=
  ( rdropWhile_prefix _ _).length_le.trans (dropWhile_suffix _).length_le

theorem godboltProbeLoop_shrinks (fuel : Nat) (p : GodboltProbe) (text : Bytes) :
    (godboltProbeLoop fuel p text).2.store.length ≤ p.store.length + text.length := by
  induction fuel generalizing p text with
  | zero => exact Nat.le_add_right _ _
  | succ fuel ih =>
    rw [godboltProbeLoop]
    by_cases empty : text = []
    · rw [if_pos empty]
      exact Nat.le_add_right _ _
    · rw [if_neg empty]
      obtain ⟨⟨line, rest⟩, parts⟩ : ∃ parts, parts = (cut lf text).getD (text, []) := ⟨_, rfl⟩
      have length : line.length + rest.length ≤ text.length := by
        cases here : cut lf text with
        | none =>
          rw [here, Option.getD_none, Prod.mk.injEq] at parts
          rw [parts.1, parts.2]
          exact Nat.le_refl _
        | some both =>
          rw [here, Option.getD_some] at parts
          have both_ := cut_length (parts ▸ here)
          omega
      have first := godboltProbeLine_shrinks p (probeTrim line)
      have trimmed := probeTrim_length line
      rw [← parts]
      dsimp only
      split
      · next e p' is =>
        rw [is] at first
        dsimp only at first ⊢
        omega
      · next p' is =>
        rw [is] at first
        dsimp only at first
        have later := ih p' rest
        omega

end Lines

/-! ## The output -/

/-- The output is accepted exactly if its lines have one block. Then the records are the decoded names and values
in order. Accepted or not, the store has room for what is written. -/
theorem godbolt_probe_block (text : Bytes) :
    ((godboltProbeInit text).1 = none ↔ ∃ macros headers, IsBlock (probeLines text) macros headers) ∧
    (∀ macros headers, IsBlock (probeLines text) macros headers →
      recordsIn (godboltProbeInit text).2.store (godboltProbeInit text).2.macros = macros ∧
        recordsIn (godboltProbeInit text).2.store (godboltProbeInit text).2.headers = headers) ∧
    (godboltProbeParse text).2.store.length ≤ text.length + 1 := by
  obtain ⟨reads, accepts⟩ := probeRun_begin (p := {}) (probeLines text) rfl ⟨rfl, rfl⟩
  have lines := godboltProbeLoop_eq (Nat.le_refl text.length) {}
  have shrinks := godboltProbeLoop_shrinks text.length {} text
  rw [← lines] at reads accepts
  obtain ⟨⟨e, p⟩, is⟩ : ∃ r, r = godboltProbeLoop text.length {} text := ⟨_, rfl⟩
  rw [← is] at reads accepts shrinks
  dsimp only at reads accepts shrinks
  rw [length_nil, Nat.zero_add] at shrinks
  cases e with
  | some e =>
    have parsed : godboltProbeParse text = (some e, p) := by rw [godboltProbeParse, ← is]
    have refused : godboltProbeInit text = (some e, {}) := by rw [godboltProbeInit, parsed]
    rw [refused, parsed]
    have none_ : ∀ macros headers, ¬ IsBlock (probeLines text) macros headers :=
      fun macros headers block => nomatch (accepts macros headers block).1
    exact ⟨⟨nofun, fun ⟨macros, headers, block⟩ => absurd block (none_ macros headers)⟩,
      fun macros headers block => absurd block (none_ macros headers), shrinks.trans (Nat.le_succ _)⟩
  | none =>
    by_cases ended : p.state = 2
    · have parsed : godboltProbeParse text = (none, p) := by
        rw [godboltProbeParse, ← is]
        dsimp only
        rw [if_pos ended]
      have accepted : godboltProbeInit text = (none, p) := by rw [godboltProbeInit, parsed]
      rw [accepted, parsed]
      refine ⟨⟨fun _ => reads rfl ended, fun _ => rfl⟩, fun macros headers block => ?_, shrinks.trans (Nat.le_succ _)⟩
      obtain ⟨-, -, holds⟩ := accepts macros headers block
      exact ⟨holds.macros.recordsIn, holds.headers.recordsIn⟩
    · have parsed : godboltProbeParse text = (some (.protocol "the output has no complete block"), p) := by
        rw [godboltProbeParse, ← is]
        dsimp only
        rw [if_neg ended]
      have refused : godboltProbeInit text = (some (.protocol "the output has no complete block"), {}) := by
        rw [godboltProbeInit, parsed]
      rw [refused, parsed]
      exact ⟨⟨nofun, fun ⟨macros, headers, block⟩ => absurd (accepts macros headers block).2.1 ended⟩,
        fun macros headers block => absurd (accepts macros headers block).2.1 ended, shrinks.trans (Nat.le_succ _)⟩

end Askai
