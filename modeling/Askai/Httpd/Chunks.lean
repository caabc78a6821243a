import Askai.Httpd.Dechunk

/-!
# Chunked bodies

The chunked bodies that a client loop takes, as RFC 9112 has them but for what it lets a line hold
after the size and after a field's name, and what is strictly one.
-/

namespace Askai

open Library

/-! ## Hexadecimal sizes -/

/-- A hexadecimal digit. -/
def Hex (c : UInt8) : Prop :=
  digit c = true ∨ 65 ≤ c ∧ c ≤ 70 ∨ 97 ≤ c ∧ c ≤ 102

instance : DecidablePred Hex := fun _ => inferInstanceAs (Decidable (_ ∨ _ ∨ _))

/-- What a hexadecimal digit says. -/
def hexValue (c : UInt8) : Nat :=
  if digit c = true then c.toNat - 48 else if c ≤ 70 then c.toNat - 55 else c.toNat - 87

/-- What hexadecimal digits say, after those that say `n`. -/
def hexNumber (n : Nat) (digits : Bytes) : Nat :=
  digits.foldl (fun n c => 16 * n + hexValue c) n

theorem utilHexDigit_lt (c : UInt8) : utilHexDigit c < 16 ↔ Hex c := by
  have all : ∀ n < 256, utilHexDigit (UInt8.ofNat n) < 16 ↔ Hex (UInt8.ofNat n) := by
    decide +kernel
  have here := all c.toNat c.toNat_lt
  rwa [UInt8.ofNat_toNat] at here

theorem utilHexDigit_eq {c : UInt8} (hex : Hex c) : (utilHexDigit c).toNat = hexValue c ∧ hexValue c < 16 := by
  have all : ∀ n < 256, Hex (UInt8.ofNat n) → (utilHexDigit (UInt8.ofNat n)).toNat = hexValue (UInt8.ofNat n) ∧
        hexValue (UInt8.ofNat n) < 16 := by
    decide +kernel
  have here := all c.toNat c.toNat_lt
  rw [UInt8.ofNat_toNat] at here
  exact here hex

theorem le_hexNumber (n : Nat) (digits : Bytes) : n ≤ hexNumber n digits := by
  induction digits generalizing n with
  | nil => exact Nat.le_refl n
  | cons c digits ih =>
    have rest := ih (16 * n + hexValue c)
    change n ≤ hexNumber (16 * n + hexValue c) digits
    omega

/-- Digits stop at the first byte that is none. -/
theorem httpdChunkDigits_stop {rest : Bytes} (other : ∀ c, rest.head? = some c → ¬Hex c) (size : Nat)
    (over_ : Bool) : httpdChunkDigits size over_ rest = (size, over_, rest) := by
  cases rest with
  | nil => rfl
  | cons c rest =>
    have none_ := other c rfl
    rw [httpdChunkDigits, if_neg (by rwa [utilHexDigit_lt])]

/-- Once over, a size stays so. -/
theorem httpdChunkDigits_over (size : Nat) {digits rest : Bytes} (hex : ∀ c ∈ digits, Hex c)
    (other : ∀ c, rest.head? = some c → ¬Hex c) : (httpdChunkDigits size true (digits ++ rest)).2 = (true, rest) := by
  induction digits generalizing size with
  | nil => rw [List.nil_append, httpdChunkDigits_stop other]
  | cons c digits ih =>
    obtain ⟨here, rest_hex⟩ := List.forall_mem_cons.mp hex
    rw [List.cons_append, httpdChunkDigits, if_pos ((utilHexDigit_lt c).mpr here), Bool.true_or]
    exact ih _ rest_hex

/-- The digits are read up to the first byte that is none, and are over if their size is not in 64
bits. -/
theorem httpdChunkDigits_eq {size : Nat} (fits : size < 2 ^ 64) (digits rest : Bytes)
    (hex : ∀ c ∈ digits, Hex c) (other : ∀ c, rest.head? = some c → ¬Hex c) :
    (httpdChunkDigits size false (digits ++ rest)).2 = (decide (2 ^ 64 ≤ hexNumber size digits), rest) ∧
      (hexNumber size digits < 2 ^ 64 → (httpdChunkDigits size false (digits ++ rest)).1 = hexNumber size digits) := by
  induction digits generalizing size with
  | nil =>
    rw [List.nil_append, httpdChunkDigits_stop other]
    have small : decide (2 ^ 64 ≤ hexNumber size []) = false :=
      decide_eq_false (Nat.not_le_of_lt fits)
    rw [small]
    exact ⟨rfl, fun _ => rfl⟩
  | cons c digits ih =>
    obtain ⟨here, rest_hex⟩ := List.forall_mem_cons.mp hex
    obtain ⟨value, small⟩ := utilHexDigit_eq here
    have grows := le_hexNumber (16 * size + hexValue c) digits
    have same : hexNumber size (c :: digits) = hexNumber (16 * size + hexValue c) digits := rfl
    rw [List.cons_append, httpdChunkDigits, if_pos ((utilHexDigit_lt c).mpr here), value, same, Bool.false_or]
    rcases Nat.lt_or_ge ((2 ^ 64 - 1) / 16) size with over_ | within
    · rw [decide_eq_true over_]
      have large : 2 ^ 64 ≤ hexNumber (16 * size + hexValue c) digits := by omega
      constructor
      · rw [httpdChunkDigits_over _ rest_hex other, decide_eq_true large]
      · exact fun less => absurd large (Nat.not_le_of_lt less)
    · rw [decide_eq_false (Nat.not_lt_of_le within), Nat.mod_eq_of_lt (by omega), Nat.mul_comm size]
      exact ih (by omega) rest_hex

/-! ## Lines -/

/-- A chunk-size line, less its CRLF: the size, white space, and any text after a semicolon. -/
structure SizeLine where
  digits : Bytes
  blanks : Bytes
  ext : Option Bytes
  some_ : digits ≠ []
  hex : ∀ c ∈ digits, Hex c
  white : ∀ c ∈ blanks, blank c = true
  clear : ∀ text, ext = some text → ∀ c ∈ text, httpdCtl c = false

/-- What is after the white space. -/
def SizeLine.after (l : SizeLine) : Bytes :=
  (l.ext.map (59 :: ·)).getD []

def SizeLine.bytes (l : SizeLine) : Bytes :=
  l.digits ++ (l.blanks ++ l.after)

def SizeLine.size (l : SizeLine) : Nat :=
  hexNumber 0 l.digits

/-- White space is of an extension alone. -/
def SizeLine.Strict (l : SizeLine) : Prop :=
  l.ext = none → l.blanks = []

/-- A field of a trailer section, less its CRLF. -/
structure TrailerLine where
  name : Bytes
  value : Bytes
  some_ : name ≠ []
  token : ∀ c ∈ name, httpdTchar c = true
  clear : lf ∉ value

def TrailerLine.bytes (l : TrailerLine) : Bytes :=
  l.name ++ colon :: l.value

/-- A line's end. -/
def crlf : Bytes := [cr, lf]

/-- A chunk: its size line, and as much data as that says, with a CRLF behind each. -/
structure Chunk where
  line : SizeLine
  data : Bytes
  some_ : data ≠ []
  sized : line.size = data.length

def Chunk.bytes (c : Chunk) : Bytes :=
  c.line.bytes ++ (crlf ++ (c.data ++ crlf))

/-- Chunks, a last chunk of no data, and a trailer section, which an empty line ends. -/
structure ChunkedBody where
  chunks : List Chunk
  last : SizeLine
  trailer : List TrailerLine
  zero : last.size = 0

def chunksBytes (chunks : List Chunk) : Bytes :=
  chunks.flatMap Chunk.bytes

def chunksData (chunks : List Chunk) : Bytes :=
  chunks.flatMap Chunk.data

def trailerBytes (trailer : List TrailerLine) : Bytes :=
  trailer.flatMap fun l => l.bytes ++ crlf

def ChunkedBody.bytes (b : ChunkedBody) : Bytes :=
  chunksBytes b.chunks ++ (b.last.bytes ++ (crlf ++ (trailerBytes b.trailer ++ crlf)))

def ChunkedBody.data (b : ChunkedBody) : Bytes :=
  chunksData b.chunks

/-- Strictly as RFC 9112 lets size lines be. -/
def ChunkedBody.Strict (b : ChunkedBody) : Prop :=
  (∀ c ∈ b.chunks, c.line.Strict) ∧ b.last.Strict

/-- The body is within the limits. -/
structure ChunkedBody.Within (b : ChunkedBody) (lim : HttpdLimits) : Prop where
  lines : ∀ c ∈ b.chunks, c.line.bytes.length + 2 ≤ chunkLine
  last : b.last.bytes.length + 2 ≤ chunkLine
  head : (trailerBytes b.trailer).length + 2 ≤ lim.head
  fields : b.trailer.length ≤ lim.fields
  body : b.data.length ≤ lim.body

theorem httpdCtl_lf : httpdCtl lf = true := rfl

/-- No line has a line's end in it. -/
theorem SizeLine.not_mem (l : SizeLine) : lf ∉ l.bytes := by
  intro mem
  rcases List.mem_append.mp mem with digits | mem
  · exact absurd (l.hex lf digits) (by decide)
  · rcases List.mem_append.mp mem with blanks | after
    · exact absurd (l.white lf blanks) (by decide)
    · cases ext : l.ext with
      | none =>
        rw [SizeLine.after, ext] at after
        cases after
      | some text =>
        rw [SizeLine.after, ext] at after
        rcases List.mem_cons.mp after with same | mem
        · cases same
        · exact absurd (l.clear text ext lf mem) (by rw [httpdCtl_lf]; nofun)

theorem TrailerLine.not_mem (l : TrailerLine) : lf ∉ l.bytes := by
  intro mem
  rcases List.mem_append.mp mem with name | mem
  · exact absurd (l.token lf name) (by decide)
  · rcases List.mem_cons.mp mem with same | value
    · cases same
    · exact l.clear value

end Askai
