import Askai.Util.Text

/-!
# JSON values

Values as `jb.h` and json-c give them: `null` is no value at all, and the members of an object come in
their order.
-/

namespace Askai

open Library

inductive Json where
  | null
  | bool (value : Bool)
  | number (text : Bytes)
  | string (text : Bytes)
  | array (items : List Json)
  | object (members : List (Bytes × Json))

namespace Json

/-- No object has two members of one name, as json-c keeps them. -/
inductive Distinct : Json → Prop
  | null : Distinct null
  | bool (value : Bool) : Distinct (bool value)
  | number (text : Bytes) : Distinct (number text)
  | string (text : Bytes) : Distinct (string text)
  | array {items : List Json} (each : ∀ item ∈ items, Distinct item) : Distinct (array items)
  | object {members : List (Bytes × Json)} (names : (members.map Prod.fst).Nodup)
      (each : ∀ member ∈ members, Distinct member.2) : Distinct (object members)

/-- The value of a null pointer is none. -/
def present : Json → Option Json
  | null => none
  | value => some value

end Json

/-- `jb_view`: none for a value that is no string. -/
def jbView : Option Json → Option Bytes
  | some (.string text) => some text
  | _ => none

/-- `json_object_object_get_ex`: whether the member is there, and its value. -/
def jbMember (value : Option Json) (key : Bytes) : Option (Option Json) :=
  match value with
  | some (.object members) =>
    (members.find? fun member => member.1 = key).map fun member => member.2.present
  | _ => none

/-- `jb_get`. -/
def jbGet (value : Option Json) (key : Bytes) : Option Json :=
  (jbMember value key).join

/-- The number of a text of decimal digits. -/
def decimal (text : Bytes) : Nat :=
  text.foldl (fun n c => n * 10 + (c.toNat - 48)) 0

/-- `jb_count`.  A number is an integer if its text is nothing but digits, after a sign, and one that
is too large for json-c is the largest. -/
def jbCount (value : Option Json) (max : Nat) : Nat :=
  match value with
  | some (.number text) =>
    if text ≠ [] ∧ text.all digit then
      let v := min (decimal text) (2 ^ 64 - 1)
      if v ≤ max then v else 0
    else 0
  | _ => 0

/-- The loop of `jb_args`: the value of each argument and which are there, or the key that is none, cut
to what is shown of it. -/
def jbArgs {κ : Type} [DecidableEq κ] (named : Bytes → Option κ) :
    List (Bytes × Json) → (κ → Json) × (κ → Bool) → Except Bytes ((κ → Json) × (κ → Bool))
  | [], found => .ok found
  | (key, value) :: args, (of_, seen) =>
    match named key with
    | none => .error (key.take (utilClip key 64))
    | some i => jbArgs named args (Function.update of_ i value, Function.update seen i true)

/-- The bytes of a C string: those before the first NUL. -/
def cstr (text : Bytes) : Bytes :=
  text.takeWhile (· ≠ nul)

end Askai
