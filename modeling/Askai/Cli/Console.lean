import Askai.Cli.Scrollback
import Askai.Util.Strings

/-!
# The text of the console

What is written of bytes that come in pieces: characters that a terminal shows, and a question mark for whatever else
(`cli_console_output_write` and `cli_console_print` of `cli_console.c`).
-/

namespace Askai

open Library

/-- `struct cli_console_output`, with the `used` bytes that are pending. -/
structure CliConsoleOutput where
  value : Nat := 0
  expected : Nat := 0
  pending : Bytes := []

namespace CliConsoleOutput

/-- `cli_console_output_next`: the state, and the bytes that are appended. -/
def next (state : CliConsoleOutput) (byte : UInt8) : CliConsoleOutput × Bytes :=
  let pending := state.pending ++ [byte]
  let value := state.value <<< 6 ||| (byte &&& 0x3f).toNat
  if pending.length < state.expected then ({ state with pending, value }, [])
  else
    let minimum := if state.expected = 2 then 0x80 else if state.expected = 3 then 0x800 else 0x10000
    let unsafe_ : Bool := value < minimum ∨ 0x10ffff < value ∨ (0xd800 ≤ value ∧ value ≤ 0xdfff) ∨
      (0x80 ≤ value ∧ value ≤ 0x9f)
    ({ state with pending := [], value }, if unsafe_ then [63] else pending)

/-- What is shown of ASCII. -/
def printable (byte : UInt8) : Bool :=
  byte - 0x20 < 0x5f

/-- `cli_console_output_step`, of a text that begins with the byte: the state, the bytes that are appended, and the
bytes that are used. -/
def step (state : CliConsoleOutput) (byte : UInt8) (rest : Bytes) : CliConsoleOutput × Bytes × Nat :=
  if state.pending ≠ [] then
    if byte &&& 0xc0 = 0x80 then
      let (state, out) := state.next byte
      (state, out, 1)
    else ({ state with pending := [] }, [63], 0)
  else if 0x80 ≤ byte then
    let expected :=
      if 0xc2 ≤ byte ∧ byte ≤ 0xdf then 2
      else if 0xe0 ≤ byte ∧ byte ≤ 0xef then 3
      else if 0xf0 ≤ byte ∧ byte ≤ 0xf4 then 4
      else 0
    ({ value := (byte &&& (0x7f >>> UInt8.ofNat expected)).toNat
       expected
       pending := if expected ≠ 0 then [byte] else [] },
      if expected ≠ 0 then [] else [63], 1)
  else if (byte < 0x20 ∨ byte = 0x7f) ∧ byte ≠ 10 ∧ byte ≠ 9 then (state, [63], 1)
  else (state, byte :: rest.takeWhile printable, 1 + (rest.takeWhile printable).length)

/-- A step uses a byte, or what was pending. -/
theorem step_used (state : CliConsoleOutput) (byte : UInt8) (rest : Bytes) :
    1 ≤ (state.step byte rest).2.2 ∨ (state.pending ≠ [] ∧ (state.step byte rest).1.pending = []) := by
  rw [step]
  split
  · next some_ =>
    split
    · exact .inl (Nat.le_refl 1)
    · exact .inr ⟨some_, rfl⟩
  · split
    · exact .inl (Nat.le_refl 1)
    · split
      · exact .inl (Nat.le_refl 1)
      · exact .inl (Nat.le_add_right 1 _)

/-- What is left to do. -/
def left (state : CliConsoleOutput) (text : Bytes) : Nat :=
  2 * text.length + (if state.pending = [] then 0 else 1)

theorem left_step (state : CliConsoleOutput) (byte : UInt8) (rest : Bytes) :
    left (state.step byte rest).1 ((byte :: rest).drop (state.step byte rest).2.2) < left state (byte :: rest) := by
  rw [left, left, List.length_drop, List.length_cons]
  obtain used | ⟨some_, none_⟩ := step_used state byte rest
  · split <;> split <;> omega
  · rw [if_pos none_, if_neg some_]
    omega

/-- `cli_console_output_write`: the state, and the bytes that are written. -/
def write (state : CliConsoleOutput) : Bytes → CliConsoleOutput × Bytes
  | [] => (state, [])
  | byte :: rest =>
    let next := state.step byte rest
    let (after, out) := write next.1 ((byte :: rest).drop next.2.2)
    (after, next.2.1 ++ out)
termination_by text => left state text
decreasing_by exact left_step state byte rest

/-- Calls of `cli_console_output_write` with one state. -/
def writes (state : CliConsoleOutput) : List Bytes → CliConsoleOutput × Bytes
  | [] => (state, [])
  | text :: texts =>
    let (after, out) := writes (state.write text).1 texts
    (after, (state.write text).2 ++ out)

end CliConsoleOutput

/-! ## Printing -/

/-- The loop of `cli_console_print` over a stream: the state, and the bytes that are queued. -/
def cliConsolePrint (palette : CliStyle → Bytes) :
    List (Bytes × CliStyle) → CliConsoleOutput → CliStyle → CliConsoleOutput × Bytes
  | [], state, display => (state, if CliStyle.reset ≠ display then palette .reset else [])
  | (text, style) :: spans, state, display =>
    let change := if style ≠ display then palette style else []
    let (state, clean) := state.write text
    let (state, rest) := cliConsolePrint palette spans state style
    (state, change ++ clean ++ rest)

/-- The loop of `cli_console_print` in a full screen: the state, and what is appended to the scrollback. -/
def cliConsolePrintScreen : List (Bytes × CliStyle) → CliConsoleOutput → CliConsoleOutput × List (Bytes × CliStyle)
  | [], state => (state, [])
  | (text, style) :: spans, state =>
    let (state, clean) := state.write text
    let (state, rest) := cliConsolePrintScreen spans state
    (state, (clean, style) :: rest)

end Askai
