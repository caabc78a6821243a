import Askai.Util.Scalars

/-!
# The output of the probe

The parser of what the probe of `godbolt_targets` prints (`godbolt_probe.c`): the decoder of C string
literals, the records, the lines and the block. What is left of the text stands for the position of the
parser, and the store is what was written into it so far.
-/

namespace Askai

open Library

/-- The most macro records of a block. -/
abbrev godboltProbeMacros : Nat := 160

/-- The most header records of a block. -/
abbrev godboltProbeHeaders : Nat := 8

/-- The most bytes of a name or a value. -/
abbrev godboltProbeTextMax : Nat := 256

/-- Where the name and the value of a record begin in the store. -/
structure GodboltProbeRecord where
  name : Nat
  value : Nat
  deriving DecidableEq

/-- What the parser fails with, and the reason. -/
inductive GodboltProbeError where
  | protocol (why : String)
  | overflow (why : String)
  deriving DecidableEq

/-- The parsed block, and the state of its lines: before the block, in it and after it. -/
structure GodboltProbe where
  macros : List GodboltProbeRecord := []
  headers : List GodboltProbeRecord := []
  store : Bytes := []
  state : Nat := 0
  deriving DecidableEq

/-- The string at a place of the store. -/
def cstrAt (store : Bytes) (i : Nat) : Bytes :=
  (store.drop i).takeWhile (· ≠ 0)

/-! ## Literals -/

/-- `godbolt_probe_space`. -/
def godboltProbeSpace (c : UInt8) : Bool :=
  c = 32 || c = 9 || c = 10 || c = 11 || c = 12 || c = 13

/-- `godbolt_probe_skip`. -/
def godboltProbeSkip (text : Bytes) : Bytes :=
  text.dropWhile godboltProbeSpace

/-- The digits of a universal character name. -/
def ucnScalar : Nat → Nat → Bytes → Option (Nat × Bytes)
  | 0, scalar, text => some (scalar, text)
  | _ + 1, _, [] => none
  | n + 1, scalar, c :: text =>
    let h := (utilHexDigit c).toNat
    if 15 < h then none else ucnScalar n ((scalar <<< 4 ||| h) % 2 ^ 32) text

/-- The bytes after the first one, from the last one on, and what is left of the scalar. -/
def ucnTail : Nat → Nat → Bytes → Nat × Bytes
  | 0, scalar, tail => (scalar, tail)
  | i + 1, scalar, tail => ucnTail i (scalar >>> 6) (UInt8.ofNat (0x80 ||| scalar &&& 0x3f) :: tail)

/-- What a scalar is written as. -/
def ucnBytes (scalar : Nat) : Bytes :=
  let n := if scalar < 0x80 then 1 else if scalar < 0x800 then 2 else if scalar < 0x10000 then 3 else 4
  let (first, tail) := ucnTail (n - 1) scalar []
  UInt8.ofNat ([0, 0, 0xc0, 0xe0, 0xf0].getD n 0 ||| first) :: tail

/-- `godbolt_probe_ucn`: the text after it, and the store. -/
def godboltProbeUcn (text store : Bytes) (digits : Nat) : Option Bytes × Bytes :=
  match ucnScalar digits 0 text with
  | none => (none, store)
  | some (scalar, text) =>
    if scalar = 0 ∨ 0x10ffff < scalar ∨ (0xd800 ≤ scalar ∧ scalar ≤ 0xdfff) then (none, store)
    else (some text, store ++ ucnBytes scalar)

/-- The escape sequences of one letter, and their bytes. -/
def simpleEscapes : List (UInt8 × UInt8) :=
  [(97, 7), (98, 8), (102, 12), (110, 10), (114, 13), (116, 9), (118, 11), (92, 92), (39, 39), (34, 34), (63, 63)]

/-- The digits of a hexadecimal escape sequence. -/
def hexEscape : Bytes → Nat → Nat → Nat × Nat × Bytes
  | [], value, digits => (value, digits, [])
  | c :: text, value, digits =>
    if utilHexDigit c < 16 ∧ value ≤ 255 then hexEscape text (value <<< 4 ||| (utilHexDigit c).toNat) (digits + 1)
    else (value, digits, c :: text)

/-- The digits after the first one of an octal escape sequence. -/
def octalEscape : Bytes → Nat → Nat → Nat × Nat × Bytes
  | [], value, digits => (value, digits, [])
  | c :: text, value, digits =>
    if digits < 3 ∧ 48 ≤ c ∧ c ≤ 55 then octalEscape text (value <<< 3 ||| (c - 48).toNat) (digits + 1)
    else (value, digits, c :: text)

/-- `godbolt_probe_escape`, after the backslash. -/
def godboltProbeEscape (text store : Bytes) : Option Bytes × Bytes :=
  match text with
  | [] => (none, store)
  | e :: text =>
    match simpleEscapes.lookup e with
    | some b => (some text, store ++ [b])
    | none =>
      if e = 117 ∨ e = 85 then godboltProbeUcn text store (if e = 117 then 4 else 8)
      else
        let (value, digits, text) :=
          if e = 120 then hexEscape text 0 0
          else if 48 ≤ e ∧ e ≤ 55 then octalEscape text (e - 48).toNat 1
          else (0, 0, text)
        if digits = 0 ∨ value = 0 ∨ 255 < value then (none, store)
        else (some text, store ++ [UInt8.ofNat value])

/-- The loop of `godbolt_probe_string`. -/
def stringLoop : Nat → Bytes → Bytes → Option Bytes × Bytes
  | 0, _, store => (none, store)
  | _ + 1, [], store => (none, store)
  | fuel + 1, b :: text, store =>
    if b = quote then (some text, store)
    else if b = 0 then (none, store)
    else if b ≠ backslash then stringLoop fuel text (store ++ [b])
    else
      match godboltProbeEscape text store with
      | (none, store) => (none, store)
      | (some text, store) => stringLoop fuel text store

/-- `godbolt_probe_string`, after the opening quote. -/
def godboltProbeString (text store : Bytes) : Option Bytes × Bytes :=
  stringLoop text.length text store

/-- The loop of `godbolt_probe_literal`, and the NUL. -/
def literalLoop : Nat → Bytes → Bytes → Option Bytes × Bytes
  | 0, text, store => (some text, store ++ [0])
  | _ + 1, [], store => (some [], store ++ [0])
  | fuel + 1, b :: text, store =>
    if b = quote then
      match godboltProbeString text store with
      | (none, store) => (none, store)
      | (some text, store) => literalLoop fuel (godboltProbeSkip text) store
    else (some (b :: text), store ++ [0])

/-- `godbolt_probe_literal`: the decoded text begins where the store ended. -/
def godboltProbeLiteral (text store : Bytes) : Option Bytes × Bytes :=
  let text := godboltProbeSkip text
  if text.head? = some quote then literalLoop text.length text store else (none, store)

/-! ## Records -/

/-- `godbolt_probe_misplaced`. -/
def godboltProbeMisplaced : GodboltProbeError :=
  .protocol "the output has a line of the block outside of one block"

/-- A record that is not of the form. -/
def recordInvalid : GodboltProbeError :=
  .protocol "a record of the block is not valid"

/-- The name and the value of a record, in parentheses and with a comma: where they begin, and the store. -/
def recordTexts (rest store : Bytes) : Option GodboltProbeRecord × Bytes :=
  match godboltProbeSkip rest with
  | 40 :: text =>
    match godboltProbeLiteral text store with
    | (some (44 :: text), named) =>
      if cstrAt named store.length = [] then (none, named)
      else
        match godboltProbeLiteral text named with
        | (some (41 :: text), both) =>
          if godboltProbeSkip text = [] then (some ⟨store.length, named.length⟩, both) else (none, both)
        | (_, both) => (none, both)
    | (_, named) => (none, named)
  | _ => (none, store)

/-- `godbolt_probe_parse_record`: the list with the record, and the store. -/
def godboltProbeParseRecord (list : List GodboltProbeRecord) (max state : Nat) (rest store : Bytes) :
    Except GodboltProbeError (List GodboltProbeRecord) × Bytes :=
  if state ≠ 1 then (.error godboltProbeMisplaced, store)
  else
    match recordTexts rest store with
    | (none, store) => (.error recordInvalid, store)
    | (some record, store) =>
      if godboltProbeTextMax + 1 < record.value - record.name ∨
          godboltProbeTextMax + 1 < store.length - record.value then
        (.error (.protocol "a name or a value of a record has more than 256 bytes"), store)
      else if list.any fun r => cstrAt store r.name = cstrAt store record.name then
        (.error (.protocol "the block has a record twice"), store)
      else if list.length = max then (.error (.protocol "the block has too many records"), store)
      else (.ok (list ++ [record]), store)

/-! ## Lines -/

/-- The tag of a macro record. -/
def macroTag : Bytes := ascii "GBPROBE_MACRO"

/-- The tag of a header record. -/
def headerTag : Bytes := ascii "GBPROBE_HEADER"

/-- The line before the block. -/
def beginLine : Bytes := ascii "GBPROBE_BEGIN_1"

/-- The line after the block. -/
def endLine : Bytes := ascii "GBPROBE_END_1"

/-- The line of an output that was cut. -/
def truncatedLine : Bytes := ascii "[Truncated]"

/-- `godbolt_probe_line`. -/
def godboltProbeLine (p : GodboltProbe) (line : Bytes) : Option GodboltProbeError × GodboltProbe :=
  if line = truncatedLine then (some (.overflow "Compiler Explorer cut the output"), p)
  else
    let mark := if line = beginLine then 1 else if line = endLine then 2 else 0
    if mark ≠ 0 then
      if mark ≠ p.state + 1 then (some godboltProbeMisplaced, p) else (none, { p with state := mark })
    else if macroTag <+: line then
      match godboltProbeParseRecord p.macros godboltProbeMacros p.state (line.drop macroTag.length) p.store with
      | (.error e, store) => (some e, { p with store := store })
      | (.ok list, store) => (none, { p with macros := list, store := store })
    else if headerTag <+: line then
      match godboltProbeParseRecord p.headers godboltProbeHeaders p.state (line.drop headerTag.length) p.store with
      | (.error e, store) => (some e, { p with store := store })
      | (.ok list, store) => (none, { p with headers := list, store := store })
    else if p.state = 1 ∧ line ≠ [] ∧ line.head? ≠ some 35 then
      (some (.protocol "the block has a line that is not a record"), p)
    else (none, p)

/-- A line without the white space at its ends. -/
def probeTrim (line : Bytes) : Bytes :=
  (line.dropWhile godboltProbeSpace).rdropWhile godboltProbeSpace

/-- The loop of `godbolt_probe_parse`, a line at a time. -/
def godboltProbeLoop : Nat → GodboltProbe → Bytes → Option GodboltProbeError × GodboltProbe
  | 0, p, _ => (none, p)
  | fuel + 1, p, text =>
    if text = [] then (none, p)
    else
      let (line, text) := (cut lf text).getD (text, [])
      match godboltProbeLine p (probeTrim line) with
      | (some e, p) => (some e, p)
      | (none, p) => godboltProbeLoop fuel p text

/-- `godbolt_probe_parse`. -/
def godboltProbeParse (text : Bytes) : Option GodboltProbeError × GodboltProbe :=
  match godboltProbeLoop text.length {} text with
  | (some e, p) => (some e, p)
  | (none, p) =>
    if p.state = 2 then (none, p) else (some (.protocol "the output has no complete block"), p)

/-- `godbolt_probe_init`, with the memory that it asks for: on an error nothing is kept. -/
def godboltProbeInit (text : Bytes) : Option GodboltProbeError × GodboltProbe :=
  match godboltProbeParse text with
  | (some e, _) => (some e, {})
  | (none, p) => (none, p)

end Askai
