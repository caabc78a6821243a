import Askai.Jb.Scan
import Askai.Util.Text

/-!
# JSON texts

The JSON texts of RFC 8259 as trees, with their white space, the bytes that each is written as, and
what it costs: its depth, its values, and the rest that a scan of it counts.
-/

namespace Askai.Jb

open Library

/-! ## Scalars and strings -/

/-- White space. -/
structure Gap where
  bytes : Bytes
  blank : ∀ c ∈ bytes, c = space ∨ c = tab ∨ c = cr ∨ c = lf

/-- A digit, or more. -/
structure Digits where
  bytes : Bytes
  some_ : bytes ≠ []
  digits : ∀ c ∈ bytes, digit c = true

/-- The exponent of a number. -/
structure Exponent where
  upper : Bool
  sign : Option Bool
  digits : Digits

/-- A number: no zero leads its whole part but a single one. -/
structure Number where
  minus : Bool
  whole : Digits
  fraction : Option Digits
  exponent : Option Exponent
  lead : whole.bytes.head? = some 48 → whole.bytes.length = 1

/-- A value that is no string and no container. -/
inductive Scalar where
  | null
  | bool (value : Bool)
  | number (number : Number)

/-- A character of a string, as it is written; of one beyond ASCII, each byte. -/
inductive Char_ where
  | plain (c : UInt8) (unescaped : 32 ≤ c ∧ c ≠ quote ∧ c ≠ backslash)
  | escape (c : UInt8) (known : c ∈ [34, 92, 47, 98, 102, 110, 114, 116])
  | unicode (a b c d : UInt8) (hex : ∀ x ∈ [a, b, c, d], digit x ∨ 65 ≤ x ∧ x ≤ 70 ∨ 97 ≤ x ∧ x ≤ 102)

def Exponent.bytes (e : Exponent) : Bytes :=
  (if e.upper = true then 69 else 101) ::
    ((match e.sign with | none => [] | some true => [45] | some false => [43]) ++ e.digits.bytes)

def Number.bytes (n : Number) : Bytes :=
  (if n.minus = true then [45] else []) ++ (n.whole.bytes ++
    ((match n.fraction with | none => [] | some digits => dot :: digits.bytes) ++
      (match n.exponent with | none => [] | some exponent => exponent.bytes)))

def Scalar.bytes : Scalar → Bytes
  | .null => [110, 117, 108, 108]
  | .bool true => [116, 114, 117, 101]
  | .bool false => [102, 97, 108, 115, 101]
  | .number n => n.bytes

def Char_.bytes : Char_ → Bytes
  | .plain c _ => [c]
  | .escape c _ => [backslash, c]
  | .unicode a b c d _ => [backslash, 117, a, b, c, d]

/-- What is between the quotes of a string. -/
def inner (chars : List Char_) : Bytes :=
  chars.flatMap Char_.bytes

/-- A string. -/
def stringBytes (chars : List Char_) : Bytes :=
  quote :: (inner chars ++ [quote])

/-! ## Values -/

mutual

/-- A value. -/
inductive Value where
  | scalar (scalar : Scalar)
  | string (chars : List Char_)
  | emptyArray (gap : Gap)
  | emptyObject (gap : Gap)
  | array (elements : Elements)
  | object (members : Members)

/-- The elements of an array: one, and then more. -/
inductive Elements where
  | last (before : Gap) (value : Value) (after : Gap)
  | more (before : Gap) (value : Value) (after : Gap) (rest : Elements)

/-- The members of an object. -/
inductive Members where
  | last (before : Gap) (key : List Char_) (middle before' : Gap) (value : Value) (after : Gap)
  | more (before : Gap) (key : List Char_) (middle before' : Gap) (value : Value) (after : Gap)
      (rest : Members)

end

mutual

def Value.bytes : Value → Bytes
  | .scalar s => s.bytes
  | .string chars => stringBytes chars
  | .emptyArray gap => openBracket :: (gap.bytes ++ [closeBracket])
  | .emptyObject gap => openBrace :: (gap.bytes ++ [closeBrace])
  | .array elements => openBracket :: (elements.bytes ++ [closeBracket])
  | .object members => openBrace :: (members.bytes ++ [closeBrace])

def Elements.bytes : Elements → Bytes
  | .last before value after => before.bytes ++ (value.bytes ++ after.bytes)
  | .more before value after rest =>
    before.bytes ++ (value.bytes ++ (after.bytes ++ comma :: rest.bytes))

def Members.bytes : Members → Bytes
  | .last before key middle before' value after =>
    before.bytes ++ (stringBytes key ++ (middle.bytes ++ colon :: (before'.bytes ++ (value.bytes ++ after.bytes))))
  | .more before key middle before' value after rest =>
    before.bytes ++ (stringBytes key ++ (middle.bytes ++
      colon :: (before'.bytes ++ (value.bytes ++ (after.bytes ++ comma :: rest.bytes)))))

end

/-- A JSON text: one value, and white space on either side. -/
structure Text where
  before : Gap
  value : Value
  after : Gap

def Text.bytes (t : Text) : Bytes :=
  t.before.bytes ++ (t.value.bytes ++ t.after.bytes)

/-! ## What a text costs -/

/-- What a value costs, with all that is in it. -/
structure Cost where
  /-- The most containers open at once. -/
  depth : Nat := 0
  /-- The values and keys. -/
  values : Nat := 0
  /-- The bytes between the quotes of its strings. -/
  copied : Nat := 0
  /-- The most members of an object. -/
  members : Nat := 0
  /-- The most bytes of a number or literal. -/
  scalar : Nat := 0
  deriving DecidableEq, Repr

/-- One beside the other. -/
def Cost.plus (a b : Cost) : Cost where
  depth := max a.depth b.depth
  values := a.values + b.values
  copied := a.copied + b.copied
  members := max a.members b.members
  scalar := max a.scalar b.scalar

/-- In a container of `n` members. -/
def Cost.inside (c : Cost) (n : Nat) : Cost :=
  { c with depth := c.depth + 1, values := c.values + 1, members := max n c.members }

def Scalar.cost (scalar : Scalar) : Cost :=
  { values := 1, scalar := scalar.bytes.length }

/-- Of a string or a key. -/
def stringCost (chars : List Char_) : Cost :=
  { values := 1, copied := (inner chars).length }

mutual

def Value.cost : Value → Cost
  | .scalar s => s.cost
  | .string chars => stringCost chars
  | .emptyArray _ | .emptyObject _ => Cost.inside {} 0
  | .array elements => elements.cost.inside 0
  | .object members => members.cost.inside members.count

def Elements.cost : Elements → Cost
  | .last _ value _ => value.cost
  | .more _ value _ rest => value.cost.plus rest.cost

def Members.cost : Members → Cost
  | .last _ key _ _ value _ => (stringCost key).plus value.cost
  | .more _ key _ _ value _ rest => ((stringCost key).plus value.cost).plus rest.cost

/-- How many members there are. -/
def Members.count : Members → Nat
  | .last _ _ _ _ _ _ => 1
  | .more _ _ _ _ _ _ rest => rest.count + 1

end

def Text.cost (t : Text) : Cost :=
  t.value.cost

mutual

/-- An object has no more members than values in it. -/
theorem Value.members_le (value : Value) : value.cost.members ≤ value.cost.values := by
  cases value with
  | scalar | string | emptyArray | emptyObject => exact Nat.zero_le _
  | array elements =>
    have rest := elements.members_le
    change max 0 elements.cost.members ≤ elements.cost.values + 1
    omega
  | object members =>
    have rest := members.members_le
    change max members.count members.cost.members ≤ members.cost.values + 1
    omega

theorem Elements.members_le (elements : Elements) : elements.cost.members ≤ elements.cost.values := by
  cases elements with
  | last _ value _ => exact value.members_le
  | more _ value _ rest =>
    have first := value.members_le
    have others := rest.members_le
    change max value.cost.members rest.cost.members ≤ value.cost.values + rest.cost.values
    omega

theorem Members.members_le (members : Members) :
    members.count ≤ members.cost.values ∧ members.cost.members ≤ members.cost.values := by
  cases members with
  | last _ key _ _ value _ =>
    have first := value.members_le
    change 1 ≤ 1 + value.cost.values ∧ max 0 value.cost.members ≤ 1 + value.cost.values
    omega
  | more _ key _ _ value _ rest =>
    have first := value.members_le
    have others := rest.members_le
    change rest.count + 1 ≤ 1 + value.cost.values + rest.cost.values ∧
      max (max 0 value.cost.members) rest.cost.members ≤ 1 + value.cost.values + rest.cost.values
    omega

end

end Askai.Jb
