import Askai.Library.Bsearch
import Askai.Util.Characters
import Askai.Util.Room

/-!
# The scrollback of the client

Lines of styled text within bounds, what is kept of their wrapping at a width, and how a pane is drawn of them
(`cli_scrollback.c`).
-/

namespace Askai

open Library

/-- `enum cli_style`. -/
inductive CliStyle
  | reset | info | prompt | reasoning | userInput | error | text | frame | title | titleInactive | status | toolActor
  | toolStatus | progress | completionCommand | completionTool | completionParameter | completionValue | completionName
  | completionFile
  deriving DecidableEq

/-- What is called of utf8proc: the character that bytes begin with and its length, if they do, and the cells of a
character. -/
structure Utf8proc where
  iterate : Bytes → Option (Nat × Nat)
  charwidth : Nat → Int

/-- `cli_render_character`: the bytes of the character that a text begins with, and its cells. -/
def Utf8proc.renderCharacter (lib : Utf8proc) (text : Bytes) : Nat × Int :=
  if text.headD 0 < 0x80 then (1, if 0x20 ≤ text.headD 0 ∧ text.headD 0 ≠ 0x7f then 1 else -1)
  else
    match lib.iterate (text.take 4) with
    | none => (1, -1)
    | some (character, length) => (length, if character < 0xa0 then -1 else lib.charwidth character)

/-! ## Rendering -/

/-- What is written of a row: the sequence of a style, or bytes. -/
inductive CliWritten
  | style (id : CliStyle)
  | bytes (text : Bytes)

end Askai
