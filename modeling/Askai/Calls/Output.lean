import Askai.Util.Utf8

/-!
# The output of a call

`mcp_slot_write` (`mcp.c`): text added to the output of a call, mended to UTF-8.
-/

namespace Askai

open Library

/-- `TOOL_OUTPUT_MAX`. -/
abbrev toolOutputMax : Nat := 16 * 2 ^ 20

/-- The output of a call, and the `LOOP_COPY` room of its step. -/
structure SlotOut where
  answer : Bytes
  room : Nat
  deriving DecidableEq

/-- The loop of `mcp_slot_write`, over what follows the UTF-8 text at the start: a chunk at a time. -/
def slotChunks (more : Bool) (s : Bytes) : Bytes :=
  if _last : s.length ≤ 4096 then jbMend (!more) s
  else
    let w := jbMend false (s.take 4096)
    w ++ slotChunks more (s.drop w.length)
termination_by s.length
decreasing_by
  have short := (jbMend_more (s.take 4096)).2
  rw [List.length_take] at short
  rw [List.length_drop]
  omega

/-- What `mcp_slot_write` appends of a text, as many bytes as it takes. -/
def slotMend (more : Bool) (text : Bytes) : Bytes :=
  let i := jbUtf8 text
  if i = text.length then text else text.take i ++ slotChunks more (text.drop i)

/-- `mcp_slot_write`: none for `EFBIG`, or the output after it and the bytes taken. -/
def mcpSlotWrite (out : SlotOut) (text : Bytes) (more : Bool) : Option (SlotOut × Nat) :=
  if toolOutputMax - out.answer.length < text.length then none
  else
    let w := slotMend more text
    some ({ answer := out.answer ++ w, room := out.room - w.length }, w.length)

/-- A chunk at a time, the last text of an output is mended as a whole. -/
theorem slotChunks_last (s : Bytes) : slotChunks false s = mend s := by
  induction s using slotChunks.induct with
  | case1 s short =>
    rw [slotChunks, dif_pos short]
    exact jbMend_last s
  | case2 s long w ih =>
    rw [slotChunks, dif_neg long]
    have mended : Mended s w := (jbMend_more (s.take 4096)).1.of_take
    have whole := mended.rest []
    simp only [List.append_nil] at whole
    rw [whole, ← ih]

theorem slotChunks_more (s : Bytes) : Mended s (slotChunks true s) ∧ s.length < (slotChunks true s).length + 4 := by
  induction s using slotChunks.induct with
  | case1 s short =>
    rw [slotChunks, dif_pos short]
    exact jbMend_more s
  | case2 s long w ih =>
    rw [slotChunks, dif_neg long]
    have mended : Mended s w := (jbMend_more (s.take 4096)).1.of_take
    refine ⟨mended.append ih.1, ?_⟩
    have inside := mended.length
    have fewer := ih.2
    rw [List.length_drop] at fewer
    change s.length < (w ++ slotChunks true (s.drop w.length)).length + 4
    rw [List.length_append]
    omega

/-- The last text of an output is mended as a whole. -/
theorem slotMend_last (text : Bytes) : slotMend false text = mend text := by
  unfold slotMend
  dsimp only
  split
  · rename_i whole
    exact (mend_of_jbUtf8 whole).symm
  · have mended := (Mended.jbUtf8 text).rest []
    simp only [List.append_nil, length_take_jbUtf8] at mended
    rw [slotChunks_last, mended]

/-- A text that more follows is mended but for less than a character at its end. -/
theorem slotMend_more (text : Bytes) :
    Mended text (slotMend true text) ∧ text.length < (slotMend true text).length + 4 := by
  unfold slotMend
  dsimp only
  split
  · rename_i whole
    have mended := Mended.jbUtf8 text
    rw [whole, List.take_length] at mended
    exact ⟨mended, by omega⟩
  · have front := Mended.jbUtf8 text
    obtain ⟨back, fewer⟩ := slotChunks_more (text.drop (jbUtf8 text))
    have bound := jbUtf8_le_length text
    constructor
    · apply front.append
      rw [length_take_jbUtf8]
      exact back
    · rw [List.length_append, length_take_jbUtf8]
      rw [List.length_drop] at fewer
      omega

end Askai
