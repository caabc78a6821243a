import Askai.Util.Scalars

/-!
# JSON strings

What stands between the quotes of a JSON string, as RFC 8259 has it, and that the escapes of
`jb_escape` stand for the text.
-/

namespace Askai

open Library List

/-! ## The grammar -/

/-- The character that a letter behind a backslash stands for. -/
def jsonLetter (letter : UInt8) : Option Char :=
  if letter = quote then some '"'
  else if letter = backslash then some '\\'
  else if letter = 47 then some '/'
  else if letter = 98 then some '\x08'
  else if letter = 102 then some '\x0c'
  else if letter = 110 then some '\n'
  else if letter = 114 then some '\r'
  else if letter = 116 then some '\t'
  else none

/-- The value of a hexadecimal digit. -/
def jsonDigit (d : UInt8) : Option Nat :=
  if 48 ≤ d.toNat ∧ d.toNat ≤ 57 then some (d.toNat - 48)
  else if 65 ≤ d.toNat ∧ d.toNat ≤ 70 then some (d.toNat - 55)
  else if 97 ≤ d.toNat ∧ d.toNat ≤ 102 then some (d.toNat - 87)
  else none

/-- The value of four hexadecimal digits. -/
def jsonWord (a b c d : UInt8) : Option Nat :=
  match jsonDigit a, jsonDigit b, jsonDigit c, jsonDigit d with
  | some a, some b, some c, some d => some (a * 4096 + b * 256 + c * 16 + d)
  | _, _, _, _ => none

/-- The bytes spell one character inside a JSON string. -/
inductive JsonSpells : Bytes → Char → Prop
  | plain (c : Char) (printable : 0x20 ≤ c.val.toNat) (quote : c ≠ '"') (backslash : c ≠ '\\') :
      JsonSpells (String.utf8EncodeChar c) c
  | letter {l : UInt8} {c : Char} (stands : jsonLetter l = some c) : JsonSpells [backslash, l] c
  /-- A code unit that is a character. -/
  | unit {w x y z : UInt8} {c : Char} (word : jsonWord w x y z = some c.val.toNat) :
      JsonSpells [backslash, 117, w, x, y, z] c
  /-- A pair of surrogates. -/
  | pair {w x y z w' x' y' z' : UInt8} {high low : Nat} {c : Char}
      (first : jsonWord w x y z = some high) (second : jsonWord w' x' y' z' = some low)
      (leads : 0xd800 ≤ high ∧ high < 0xdc00) (trails : 0xdc00 ≤ low ∧ low < 0xe000)
      (value : c.val.toNat = 0x10000 + (high - 0xd800) * 0x400 + (low - 0xdc00)) :
      JsonSpells [backslash, 117, w, x, y, z, backslash, 117, w', x', y', z'] c

/-- The bytes are the inside of a JSON string that decodes to the characters. -/
inductive JsonInside : Bytes → List Char → Prop
  | nil : JsonInside [] []
  | cons {p s : Bytes} {c : Char} {cs : List Char} (spells : JsonSpells p c) (rest : JsonInside s cs) :
      JsonInside (p ++ s) (c :: cs)

/-- The bytes are a JSON string that decodes to the characters. -/
def JsonString (s : Bytes) (cs : List Char) : Prop :=
  ∃ inside, s = quote :: inside ++ [quote] ∧ JsonInside inside cs

/-! ## A JSON string has one decoding -/

theorem utf8EncodeChar_append {c d : Char} {s t : Bytes}
    (same : String.utf8EncodeChar c ++ s = String.utf8EncodeChar d ++ t) : c = d ∧ s = t := by
  have length : (String.utf8EncodeChar c).length = (String.utf8EncodeChar d).length := by
    rw [← utf8Starts_encode c s, same, utf8Starts_encode]
  obtain ⟨front, back⟩ := append_inj same length
  refine ⟨?_, back⟩
  have left := @ByteArray.utf8DecodeChar?_utf8EncodeChar_append ByteArray.empty c
  rw [front, ByteArray.utf8DecodeChar?_utf8EncodeChar_append] at left
  exact (Option.some.inj left).symm

theorem utf8EncodeChar_backslash {c : Char} {s t : Bytes}
    (same : String.utf8EncodeChar c ++ s = backslash :: t) : c = '\\' :=
  (utf8EncodeChar_append (d := '\\') (t := t) same).1

/-- No letter introduces a code unit. -/
theorem jsonLetter_ne {l : UInt8} {c : Char} (stands : jsonLetter l = some c) : l ≠ 117 := by
  rintro rfl
  cases stands

/-- No character's value is a surrogate's. -/
theorem not_surrogate {c : Char} {n : Nat} (value : n = c.val.toNat) (more : 0xd800 ≤ n) : ¬ n < 0xe000 := by
  have valid : c.val.toNat.isValidChar := c.valid
  rw [Nat.isValidChar] at valid
  omega

/-- What spells a character is no beginning of what spells another. -/
theorem JsonSpells.unique {p q s t : Bytes} {c d : Char} (left : JsonSpells p c) (right : JsonSpells q d)
    (same : p ++ s = q ++ t) : c = d ∧ s = t := by
  cases left with
  | plain c _ _ other =>
    cases right with
    | plain d => exact utf8EncodeChar_append same
    | letter | unit | pair => exact absurd (utf8EncodeChar_backslash same) other
  | letter stands =>
    cases right with
    | plain d _ _ other => exact absurd (utf8EncodeChar_backslash same.symm) other
    | letter stands' =>
      obtain ⟨rfl, rfl⟩ : _ = _ ∧ s = t := by simpa using same
      exact ⟨Option.some.inj (stands.symm.trans stands'), rfl⟩
    | unit | pair =>
      exact absurd (List.cons.inj (List.cons.inj same).2).1 (jsonLetter_ne stands)
  | unit word =>
    cases right with
    | plain d _ _ other => exact absurd (utf8EncodeChar_backslash same.symm) other
    | letter stands =>
      exact absurd (List.cons.inj (List.cons.inj same).2).1.symm (jsonLetter_ne stands)
    | unit word' =>
      simp only [cons_append, nil_append, List.cons.injEq, true_and] at same
      obtain ⟨rfl, rfl, rfl, rfl, rfl⟩ := same
      have value := Option.some.inj (word.symm.trans word')
      exact ⟨Char.ext (UInt32.toNat_inj.mp value), rfl⟩
    | pair first _ leads =>
      simp only [cons_append, nil_append, List.cons.injEq, true_and] at same
      obtain ⟨rfl, rfl, rfl, rfl, -⟩ := same
      have value := Option.some.inj (first.symm.trans word)
      exact absurd (Nat.lt_trans leads.2 (by decide)) (not_surrogate value leads.1)
  | pair first second leads trails value =>
    cases right with
    | plain d _ _ other => exact absurd (utf8EncodeChar_backslash same.symm) other
    | letter stands =>
      exact absurd (List.cons.inj (List.cons.inj same).2).1.symm (jsonLetter_ne stands)
    | unit word =>
      simp only [cons_append, nil_append, List.cons.injEq, true_and] at same
      obtain ⟨rfl, rfl, rfl, rfl, -⟩ := same
      have value := Option.some.inj (first.symm.trans word)
      exact absurd (Nat.lt_trans leads.2 (by decide)) (not_surrogate value leads.1)
    | pair first' second' _ _ value' =>
      simp only [cons_append, nil_append, List.cons.injEq, true_and] at same
      obtain ⟨rfl, rfl, rfl, rfl, rfl, rfl, rfl, rfl, rfl⟩ := same
      obtain rfl := Option.some.inj (first.symm.trans first')
      obtain rfl := Option.some.inj (second.symm.trans second')
      exact ⟨Char.ext (UInt32.toNat_inj.mp (value.trans value'.symm)), rfl⟩

theorem JsonSpells.ne_nil {p : Bytes} {c : Char} (spells : JsonSpells p c) : p ≠ [] := by
  cases spells with
  | plain => exact String.utf8EncodeChar_ne_nil
  | letter | unit | pair => exact cons_ne_nil _ _

theorem JsonInside.unique {s : Bytes} {cs ds : List Char} (left : JsonInside s cs)
    (right : JsonInside s ds) : cs = ds := by
  induction left generalizing ds with
  | nil =>
    generalize none_ : ([] : Bytes) = s at right
    cases right with
    | nil => rfl
    | cons spells => exact absurd (append_eq_nil_iff.mp none_.symm).1 spells.ne_nil
  | @cons p s c cs spells rest ih =>
    generalize same : p ++ s = t at right
    cases right with
    | nil => exact absurd (append_eq_nil_iff.mp same).1 spells.ne_nil
    | cons spells' rest' =>
      obtain ⟨rfl, rfl⟩ := spells.unique spells' same
      rw [ih rest']

theorem JsonString.unique {s : Bytes} {cs ds : List Char} (left : JsonString s cs)
    (right : JsonString s ds) : cs = ds := by
  obtain ⟨inside, rfl, decoded⟩ := left
  obtain ⟨inside', same, decoded'⟩ := right
  have equal : inside = inside' := append_cancel_right (List.cons.inj same).2
  exact decoded.unique (equal ▸ decoded')

/-! ## Escapes -/

theorem jbEscapeByte_ascii : ∀ n < 0x80, jbEscapeByte (UInt8.ofNat n) = if jbEscaped (UInt8.ofNat n) then
      match jbLetter (UInt8.ofNat n) with
      | some letter => [backslash, letter]
      | none => [backslash, 117, 48, 48, hexDigit (n / 16), hexDigit (n % 16)]
    else String.utf8EncodeChar (Char.ofNat n) := by
  decide

/-- What the escape of an ASCII byte stands for. -/
theorem jbEscapeByte_spells {n : Nat} (low : n < 0x80) : JsonSpells (jbEscapeByte (UInt8.ofNat n)) (Char.ofNat n) := by
  have plain : ∀ n < 0x80, jbEscaped (UInt8.ofNat n) = false →
      0x20 ≤ (Char.ofNat n).val.toNat ∧ Char.ofNat n ≠ '"' ∧ Char.ofNat n ≠ '\\' := by
    decide
  have letters : ∀ n < 0x80, (jbLetter (UInt8.ofNat n)).all (fun l => jsonLetter l = some (Char.ofNat n)) = true := by
    decide
  have words : ∀ n < 0x80, jsonWord 48 48 (hexDigit (n / 16)) (hexDigit (n % 16)) = some (Char.ofNat n).val.toNat := by
    decide
  rw [jbEscapeByte_ascii n low]
  split
  · split
    · rename_i l some_
      have named := letters n low
      rw [some_, Option.all_some, decide_eq_true_iff] at named
      exact .letter named
    · exact .unit (words n low)
  · rename_i unescaped
    obtain ⟨printable, quote, backslash⟩ := plain n low (by simpa using unescaped)
    exact .plain _ printable quote backslash

/-- The bytes of a character past ASCII are not below 128. -/
theorem utf8EncodeChar_high {c : Char} (high : 0x80 ≤ c.val.toNat) : ∀ b ∈ String.utf8EncodeChar c, 0x80 ≤ b := by
  have valid : c.val.toNat.isValidChar := c.valid
  rw [Nat.isValidChar] at valid
  have upper : ∀ n : Nat, 0x80 ≤ n → n < 256 → 0x80 ≤ UInt8.ofNat n := by
    intro n more less
    apply UInt8.le_iff_toNat_le.mpr
    rw [UInt8.toNat_ofNat', Nat.mod_eq_of_lt less]
    exact more
  rw [String.utf8EncodeChar]
  generalize c.val.toNat = v at valid high
  intro b mem
  split_ifs at mem
  · omega
  all_goals
    simp only [mem_cons, not_mem_nil, or_false] at mem
    rcases mem with rfl | rfl | rfl | rfl <;> exact upper _ (by omega) (by omega)

/-- `jb_escape` spells each character. -/
theorem jbEscape_spells (c : Char) : JsonSpells (jbEscape (String.utf8EncodeChar c)) c := by
  rcases Nat.lt_or_ge c.val.toNat 0x80 with low | high
  · have one : String.utf8EncodeChar c = [UInt8.ofNat c.val.toNat] := by
      rw [String.utf8EncodeChar, if_pos (by omega)]
    have same : Char.ofNat c.val.toNat = c := Char.ofNat_toNat c
    have spells := jbEscapeByte_spells low
    rw [same] at spells
    rw [one]
    simpa [jbEscape] using spells
  · rw [jbEscape_high (utf8EncodeChar_high high)]
    apply JsonSpells.plain c (by omega)
    · rintro rfl
      exact absurd high (by decide)
    · rintro rfl
      exact absurd high (by decide)

theorem jbEscape_inside (cs : List Char) : JsonInside (jbEscape (cs.flatMap String.utf8EncodeChar)) cs := by
  induction cs with
  | nil => exact .nil
  | cons c cs ih =>
    rw [flatMap_cons, jbEscape_append]
    exact .cons (jbEscape_spells c) ih

/-! ## A text escaped in parts -/

/-- `jb_escape_cat`, where `memory` says whether `dstr_cat_n` of a part succeeds: true for 0, false
for `ENOMEM`, and the destination. -/
def jbEscapeCat (memory : Bytes → Bytes → Bool) (text dest : Bytes) : Bool × Bytes :=
  if text = [] then (true, dest)
  else
    let n := min text.length 64
    let part := jbEscape (text.take n)
    if memory dest part then jbEscapeCat memory (text.drop n) (dest ++ part) else (false, dest)
termination_by text.length
decreasing_by
  have := length_pos_iff.mpr ‹text ≠ []›
  rw [length_drop]
  omega

/-- What is appended is the escapes of a first part of the text, which is the whole where all is
well. -/
theorem jbEscapeCat_eq (memory : Bytes → Bytes → Bool) (text dest : Bytes) :
    ∃ k ≤ text.length, (jbEscapeCat memory text dest).2 = dest ++ jbEscape (text.take k) ∧
      ((jbEscapeCat memory text dest).1 = true → k = text.length) := by
  induction text, dest using jbEscapeCat.induct memory with
  | case1 dest =>
    rw [jbEscapeCat, if_pos rfl]
    exact ⟨0, Nat.le_refl _, by simp, fun _ => rfl⟩
  | case2 text dest some_ n part fits ih =>
    rw [jbEscapeCat, if_neg some_]
    dsimp only
    rw [if_pos fits]
    obtain ⟨k, bound, appended, whole⟩ := ih
    have inside : n ≤ text.length := Nat.min_le_left ..
    rw [length_drop] at bound whole
    refine ⟨n + k, by omega, ?_, fun done => ?_⟩
    · rw [appended, append_assoc, ← jbEscape_append, ← take_add]
    · have := whole done
      omega
  | case3 text dest some_ n part full =>
    rw [jbEscapeCat, if_neg some_]
    dsimp only
    rw [if_neg full]
    exact ⟨0, Nat.zero_le _, by simp, fun done => by cases done⟩

theorem jbEscapeCat_of_memory {memory : Bytes → Bytes → Bool} (always : ∀ dest part, memory dest part)
    (text dest : Bytes) : (jbEscapeCat memory text dest).1 = true := by
  induction text, dest using jbEscapeCat.induct memory with
  | case1 dest => rw [jbEscapeCat, if_pos rfl]
  | case2 text dest some_ n part fits ih =>
    rw [jbEscapeCat, if_neg some_]
    dsimp only
    rw [if_pos fits]
    exact ih
  | case3 text dest some_ n part full => exact absurd (always dest part) full

/-! ## Windows of escaped text -/

/-- What `jb_escape_fit` counts for a byte. -/
def jbEscapedLen (c : UInt8) : Nat :=
  if !jbEscaped c then 1 else if (jbLetter c).isSome then 2 else 6

/-- The loop of `jb_escape_fit`: the bytes passed before their escapes are more than `room`. -/
def jbFitBytes (room used : Nat) : Bytes → Nat
  | [] => 0
  | c :: rest =>
    let used := used + jbEscapedLen c
    if room < used then 0 else jbFitBytes room used rest + 1

/-- `jb_escape_fit`. -/
def jbEscapeFit (src : Bytes) (room : Nat) : Nat :=
  jbUtf8 (src.take (jbFitBytes room 0 src))

/-- The count agrees with the escape. -/
theorem jbEscapedLen_eq (c : UInt8) : jbEscapedLen c = (jbEscapeByte c).length := by
  unfold jbEscapedLen jbEscapeByte
  cases jbEscaped c with
  | false => rfl
  | true =>
    cases jbLetter c with
    | none => simp [length_hexDigits]
    | some letter => rfl

theorem jbFitBytes_spec {room used : Nat} (within : used ≤ room) (src : Bytes) {k : Nat} (inside : k ≤ src.length) :
    k ≤ jbFitBytes room used src ↔ used + (jbEscape (src.take k)).length ≤ room := by
  induction src generalizing used k with
  | nil =>
    obtain rfl : k = 0 := Nat.le_zero.mp inside
    simpa using within
  | cons c rest ih =>
    cases k with
    | zero => simpa using within
    | succ k =>
      have split : jbEscape (c :: rest.take k) = jbEscapeByte c ++ jbEscape (rest.take k) := rfl
      rw [jbFitBytes, take_succ_cons, split, length_append, ← jbEscapedLen_eq]
      split_ifs with full
      · omega
      · rw [length_cons] at inside
        have tail := ih (Nat.not_lt.mp full) (Nat.le_of_succ_le_succ inside)
        omega

theorem jbFitBytes_le (room used : Nat) (src : Bytes) : jbFitBytes room used src ≤ src.length := by
  induction src generalizing used with
  | nil => exact Nat.le_refl _
  | cons c rest ih =>
    rw [jbFitBytes, length_cons]
    have := ih (used + jbEscapedLen c)
    split_ifs <;> omega

theorem jbEscapeFit_le (src : Bytes) (room : Nat) : jbEscapeFit src room ≤ jbFitBytes room 0 src := by
  have bound := jbUtf8_le_length (src.take (jbFitBytes room 0 src))
  rw [length_take] at bound
  exact Nat.le_trans bound (Nat.min_le_left ..)

/-- The window is whole characters. -/
theorem isUtf8_jbEscapeFit (src : Bytes) (room : Nat) : IsUtf8 (src.take (jbEscapeFit src room)) := by
  have text := isUtf8_take (src.take (jbFitBytes room 0 src))
  rw [take_take] at text
  change IsUtf8 (src.take (min (jbEscapeFit src room) (jbFitBytes room 0 src))) at text
  rwa [Nat.min_eq_left (jbEscapeFit_le src room)] at text

theorem length_jbEscape_fit (src : Bytes) (room : Nat) :
    (jbEscape (src.take (jbEscapeFit src room))).length ≤ room := by
  have less := jbEscapeFit_le src room
  have bound := jbFitBytes_le room 0 src
  have fits := (jbFitBytes_spec (Nat.zero_le room) src (Nat.le_trans less bound)).mp less
  rwa [Nat.zero_add] at fits

/-- No longer window of whole characters fits. -/
theorem jbEscapeFit_longest {src : Bytes} {room m : Nat} (inside : m ≤ src.length)
    (text : IsUtf8 (src.take m)) (fits : (jbEscape (src.take m)).length ≤ room) : m ≤ jbEscapeFit src room := by
  have before := (jbFitBytes_spec (Nat.zero_le room) src inside).mpr (by rwa [Nat.zero_add])
  have split : src.take (jbFitBytes room 0 src) = src.take m ++ (src.drop m).take (jbFitBytes room 0 src - m) := by
    rw [← take_add, Nat.add_sub_cancel' before]
  obtain ⟨cs, same⟩ := text
  have least := le_jbUtf8 cs ((src.drop m).take (jbFitBytes room 0 src - m))
  rw [← same, ← split, length_take, Nat.min_eq_left inside] at least
  exact least

/-- What is left of a text after `k` windows, the one after `i` others of `rooms i` bytes. -/
def jbLeft (rooms : Nat → Nat) (text : Bytes) : Nat → Bytes
  | 0 => text
  | k + 1 =>
    let rest := jbLeft rooms text k
    rest.drop (jbEscapeFit rest (rooms k))

/-- The escapes of the window after `k` others. -/
def jbWindow (rooms : Nat → Nat) (text : Bytes) (k : Nat) : Bytes :=
  let rest := jbLeft rooms text k
  jbEscape (rest.take (jbEscapeFit rest (rooms k)))

/-- Windows lose nothing and repeat nothing. -/
theorem flatten_jbWindow (rooms : Nat → Nat) (text : Bytes) (k : Nat) :
    ((List.range k).map (jbWindow rooms text)).flatten ++ jbEscape (jbLeft rooms text k) = jbEscape text := by
  induction k with
  | zero => rfl
  | succ k ih =>
    rw [range_succ, map_append, flatten_append, append_assoc, ← ih]
    congr 1
    simp only [map_cons, map_nil, flatten_cons, flatten_nil, append_nil, jbWindow, jbLeft]
    rw [← jbEscape_append, take_append_drop]

theorem isUtf8_drop {s : Bytes} {n : Nat} (text : IsUtf8 s) (front : IsUtf8 (s.take n)) : IsUtf8 (s.drop n) := by
  obtain ⟨cs, same⟩ := text
  obtain ⟨ds, first⟩ := front
  rw [← take_append_drop n s, first] at same
  clear first
  induction ds generalizing cs with
  | nil => exact ⟨cs, same⟩
  | cons d ds ih =>
    rw [flatMap_cons, append_assoc] at same
    cases cs with
    | nil =>
      exact absurd (append_eq_nil_iff.mp same).1 String.utf8EncodeChar_ne_nil
    | cons c cs =>
      rw [flatMap_cons] at same
      exact ih cs (utf8EncodeChar_append same).2

theorem isUtf8_jbLeft {text : Bytes} (whole : IsUtf8 text) (rooms : Nat → Nat) (k : Nat) :
    IsUtf8 (jbLeft rooms text k) := by
  induction k with
  | zero => exact whole
  | succ k ih => exact isUtf8_drop ih (isUtf8_jbEscapeFit _ _)

/-- Each room holds the escape of the first character that is left for it. -/
def Roomy (rooms : Nat → Nat) (text : Bytes) : Prop :=
  ∀ k c rest, jbLeft rooms text k = String.utf8EncodeChar c ++ rest →
    (jbEscape (String.utf8EncodeChar c)).length ≤ rooms k

theorem length_jbLeft {text : Bytes} (whole : IsUtf8 text) {rooms : Nat → Nat}
    (roomy : Roomy rooms text) (k : Nat) : (jbLeft rooms text k).length ≤ text.length - k := by
  induction k with
  | zero => exact Nat.le_refl _
  | succ k ih =>
    obtain ⟨cs, same⟩ := isUtf8_jbLeft whole rooms k
    rw [jbLeft, length_drop]
    cases cs with
    | nil =>
      rw [flatMap_nil] at same
      rw [same, length_nil, Nat.zero_sub]
      exact Nat.zero_le _
    | cons c cs =>
      rw [flatMap_cons] at same
      have fits := roomy k c _ same
      have some_ : 0 < (String.utf8EncodeChar c).length :=
        length_pos_iff.mpr String.utf8EncodeChar_ne_nil
      have first : (jbLeft rooms text k).take (String.utf8EncodeChar c).length = String.utf8EncodeChar c := by
        rw [same, take_left]
      have moves : (String.utf8EncodeChar c).length ≤ jbEscapeFit (jbLeft rooms text k) (rooms k) := by
        apply jbEscapeFit_longest
        · rw [same, length_append]
          exact Nat.le_add_right ..
        · rw [first]
          exact ⟨[c], by simp⟩
        · rwa [first]
      omega

/-- Windows that hold a character each are the whole. -/
theorem flatten_jbWindow_eq {text : Bytes} (whole : IsUtf8 text) {rooms : Nat → Nat}
    (roomy : Roomy rooms text) {k : Nat} (enough : text.length ≤ k) :
    ((List.range k).map (jbWindow rooms text)).flatten = jbEscape text := by
  have none_ : jbLeft rooms text k = [] := by
    have bound := length_jbLeft whole roomy k
    apply length_eq_zero_iff.mp
    omega
  rw [← flatten_jbWindow rooms text k, none_, jbEscape_nil, append_nil]

/-- The escapes of a text between quotes are a JSON string that decodes to it and nothing else, of
at most 6 bytes for each of its; they are what is appended, but for a first part of them where
memory runs out, and what windows hold, each as many whole characters as fit. -/
theorem text_escaped (cs : List Char) :
    let text := cs.flatMap String.utf8EncodeChar
    JsonString (quote :: jbEscape text ++ [quote]) cs ∧
      (∀ ds, JsonString (quote :: jbEscape text ++ [quote]) ds → ds = cs) ∧
      (jbEscape text).length ≤ 6 * text.length ∧
      (∀ memory dest, ∃ k ≤ text.length, (jbEscapeCat memory text dest).2 = dest ++ jbEscape (text.take k) ∧
          ((jbEscapeCat memory text dest).1 = true → k = text.length) ∧
          ((∀ dest part, memory dest part = true) → (jbEscapeCat memory text dest).1 = true)) ∧
      (∀ room, let n := jbEscapeFit text room
        n ≤ text.length ∧ IsUtf8 (text.take n) ∧ IsUtf8 (text.drop n) ∧
          (jbEscape (text.take n)).length ≤ room ∧
          ∀ m ≤ text.length, IsUtf8 (text.take m) → (jbEscape (text.take m)).length ≤ room → m ≤ n) ∧
      ∀ rooms : Nat → Nat, Roomy rooms text → ∀ k, text.length ≤ k →
        ((List.range k).map (jbWindow rooms text)).flatten = jbEscape text := by
  intro text
  have whole : IsUtf8 text := ⟨cs, rfl⟩
  have string : JsonString (quote :: jbEscape text ++ [quote]) cs :=
    ⟨jbEscape text, rfl, jbEscape_inside cs⟩
  refine ⟨string, fun ds decoded => decoded.unique string, length_jbEscape text, ?_, ?_, ?_⟩
  · intro memory dest
    obtain ⟨k, bound, appended, done⟩ := jbEscapeCat_eq memory text dest
    exact ⟨k, bound, appended, done, fun always => jbEscapeCat_of_memory always text dest⟩
  · intro room
    have front := isUtf8_jbEscapeFit text room
    have bound := Nat.le_trans (jbEscapeFit_le text room) (jbFitBytes_le room 0 text)
    exact ⟨bound, front, isUtf8_drop whole front, length_jbEscape_fit text room,
      fun m inside boundary fits => jbEscapeFit_longest inside boundary fits⟩
  · intro rooms roomy k enough
    exact flatten_jbWindow_eq whole roomy enough

end Askai
