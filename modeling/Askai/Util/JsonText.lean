import Askai.Notes.History
import Askai.Util.Strings

/-!
# JSON texts

Which texts are JSON, as RFC 8259 has it, and what they decode to.
-/

namespace Askai

open Library

/-- What a JSON text decodes to. A number stays as it is written. -/
inductive JsonValue where
  | null
  | bool (value : Bool)
  | number (text : Bytes)
  | string (chars : List Char)
  | array (items : List JsonValue)
  | object (members : List (List Char × JsonValue))

/-- One or more decimal digits. -/
def JsonDigits (text : Bytes) : Prop :=
  text ≠ [] ∧ ∀ c ∈ text, digit c = true

/-- The integer of a number, which begins with a zero only if it is one. -/
def JsonInteger (text : Bytes) : Prop :=
  JsonDigits text ∧ (text.head? = some 48 → text = [48])

/-- The fraction of a number, which may be missing. -/
def JsonFraction (text : Bytes) : Prop :=
  text = [] ∨ ∃ digits, text = 46 :: digits ∧ JsonDigits digits

/-- The exponent of a number, which may be missing. -/
def JsonExponent (text : Bytes) : Prop :=
  text = [] ∨ ∃ e sign digits, text = e :: sign ++ digits ∧ (e = 101 ∨ e = 69) ∧
    (sign = [] ∨ sign = [43] ∨ sign = [45]) ∧ JsonDigits digits

def JsonNumber (text : Bytes) : Prop :=
  ∃ sign integer fraction exponent, text = sign ++ integer ++ fraction ++ exponent ∧ (sign = [] ∨ sign = [45]) ∧
    JsonInteger integer ∧ JsonFraction fraction ∧ JsonExponent exponent

/-- What may stand between the tokens of a JSON text. -/
def JsonBlank (text : Bytes) : Prop :=
  ∀ c ∈ text, c = 32 ∨ c = 9 ∨ c = lf ∨ c = cr

mutual

/-- The text is JSON and decodes to the value. -/
inductive JsonText : Bytes → JsonValue → Prop
  | null : JsonText (ascii "null") .null
  | true : JsonText (ascii "true") (.bool true)
  | false : JsonText (ascii "false") (.bool false)
  | number {text : Bytes} (number : JsonNumber text) : JsonText text (.number text)
  | string {text : Bytes} {cs : List Char} (string : JsonString text cs) : JsonText text (.string cs)
  | empty {between : Bytes} (blank : JsonBlank between) : JsonText (91 :: between ++ [93]) (.array [])
  | array {text : Bytes} {items : List JsonValue} (some_ : JsonItems text items) : JsonText (91 :: text ++ [93]) (.array items)
  | none {between : Bytes} (blank : JsonBlank between) : JsonText (123 :: between ++ [125]) (.object [])
  | object {text : Bytes} {members : List (List Char × JsonValue)} (some_ : JsonMembers text members) :
      JsonText (123 :: text ++ [125]) (.object members)
  | blank {before text after : Bytes} {value : JsonValue} (front : JsonBlank before) (json : JsonText text value)
      (back : JsonBlank after) : JsonText (before ++ text ++ after) value

/-- One or more values with commas between them. -/
inductive JsonItems : Bytes → List JsonValue → Prop
  | last {text : Bytes} {value : JsonValue} (json : JsonText text value) : JsonItems text [value]
  | more {text rest : Bytes} {value : JsonValue} {values : List JsonValue} (json : JsonText text value)
      (items : JsonItems rest values) : JsonItems (text ++ 44 :: rest) (value :: values)

/-- One or more members with commas between them. -/
inductive JsonMembers : Bytes → List (List Char × JsonValue) → Prop
  | last {text : Bytes} {member : List Char × JsonValue} (json : JsonMember text member) : JsonMembers text [member]
  | more {text rest : Bytes} {member : List Char × JsonValue} {members : List (List Char × JsonValue)}
      (json : JsonMember text member) (rests : JsonMembers rest members) :
      JsonMembers (text ++ 44 :: rest) (member :: members)

/-- A name and a value. -/
inductive JsonMember : Bytes → List Char × JsonValue → Prop
  | mk {before name between text : Bytes} {cs : List Char} {value : JsonValue} (front : JsonBlank before)
      (string : JsonString name cs) (blank : JsonBlank between) (json : JsonText text value) :
      JsonMember (before ++ name ++ between ++ 58 :: text) (cs, value)

end

/-- The UTF-8 of characters. -/
def utf8 (cs : List Char) : Bytes :=
  cs.flatMap String.utf8EncodeChar

theorem isUtf8_iff_utf8 {s : Bytes} : IsUtf8 s ↔ ∃ cs, s = utf8 cs := Iff.rfl

/-! ## Texts that are written -/

/-- A text between quotes. -/
def jsonQuoted (text : Bytes) : Bytes :=
  quote :: text ++ [quote]

theorem ascii_eq (text : String) : ascii text = utf8 text.toList := by
  rw [ascii, utf8, String.toUTF8, ← String.utf8Encode_toList, List.utf8Encode]
  exact List.data_toByteArray ▸ rfl

/-- Escaped, characters are a string. -/
theorem jsonString_escape (cs : List Char) : JsonString (jsonQuoted (jbEscape (utf8 cs))) cs :=
  ⟨_, rfl, jbEscape_inside cs⟩

/-- A text that needs no escapes is a string. -/
theorem jsonString_plain (text : String) (plain : jbEscape (ascii text) = ascii text) :
    JsonString (jsonQuoted (ascii text)) text.toList := by
  have string := jsonString_escape text.toList
  rwa [← ascii_eq, plain] at string

/-- A name and a value with nothing but a colon between them. -/
theorem JsonMember.plain {name text : Bytes} {cs : List Char} {value : JsonValue} (string : JsonString name cs)
    (json : JsonText text value) : JsonMember (name ++ 58 :: text) (cs, value) := by
  have blank : JsonBlank [] := fun _ among => nomatch among
  have member := JsonMember.mk blank string blank json
  rwa [List.nil_append, List.append_nil] at member

theorem jsonNumber_utilDecimal (n : Nat) : JsonNumber (utilDecimal n) := by
  refine ⟨[], utilDecimal n, [], [], by simp, .inl rfl, ⟨⟨?_, digits_utilDecimal n⟩, ?_⟩, .inl rfl, .inl rfl⟩
  · rw [utilDecimal]
    split
    · exact List.cons_ne_nil _ _
    · next some_ =>
      intro none_
      rw [List.map_eq_nil_iff, List.reverse_eq_nil_iff] at none_
      exact Nat.digits_ne_nil_iff_ne_zero.mpr some_ none_
  · rw [utilDecimal]
    split
    · exact fun _ => rfl
    · next some_ =>
      intro zero
      exfalso
      rw [List.head?_map, List.head?_reverse, List.getLast?_eq_some_getLast (Nat.digits_ne_nil_iff_ne_zero.mpr some_)] at zero
      have last := Nat.getLast_digit_ne_zero 10 some_
      have less := Nat.digits_lt_base (by decide : 1 < 10) (List.getLast_mem (Nat.digits_ne_nil_iff_ne_zero.mpr some_))
      have value := Option.some.inj zero
      have is := congrArg UInt8.toNat value
      rw [UInt8.toNat_ofNat', Nat.mod_eq_of_lt (by omega)] at is
      change _ = 48 at is
      omega

end Askai
