import Askai.Calls.Output
import Askai.Util.Scalars

/-!
# Writes of a call's output

What `mcp_slot_write` (`mcp.c`) refuses, and that an output written in any number of calls is the mended
text of the whole.
-/

namespace Askai

open Library List

/-- `TOOL_MORE`. -/
def toolMore : UInt32 := 2

/-- What `mcp_slot_write` returns on failure. -/
inductive WriteError
  | efault
  | einval
  | efbig
  | enomem
  deriving DecidableEq

/-- The arguments of `mcp_slot_write`. -/
structure WriteCall where
  text : Bytes
  /-- `text.data` is `nullptr`. -/
  null : Bool
  flags : UInt32
  /-- `taken` is not `nullptr`. -/
  taken : Bool

/-- The loop of `mcp_slot_write` from byte `i` on, whose `k`-th append has memory if `mem k`: the answer,
and the bytes taken if all appends had memory. -/
def slotAppend (mem : Nat → Bool) (more : Bool) (k i : Nat) (answer s : Bytes) : Bytes × Option Nat :=
  if _last : s.length ≤ 4096 then
    let w := jbMend (!more) s
    if mem k then (answer ++ w, some (i + w.length)) else (answer, none)
  else
    let w := jbMend false (s.take 4096)
    if mem k then slotAppend mem more (k + 1) (i + w.length) (answer ++ w) (s.drop w.length)
    else (answer, none)
termination_by s.length
decreasing_by
  have short := (jbMend_more (s.take 4096)).2
  rw [length_take] at short
  rw [length_drop]
  omega

/-- The appends of `mcp_slot_write`: the answer, and the bytes taken if all had memory. -/
def slotWritten (mem : Nat → Bool) (more : Bool) (answer text : Bytes) : Bytes × Option Nat :=
  let i := jbUtf8 text
  if mem 0 then
    if i = text.length then (answer ++ text.take i, some i)
    else slotAppend mem more 1 i (answer ++ text.take i) (text.drop i)
  else (answer, none)

/-- `mcp_slot_write`, of a call that has ended or not. -/
def mcpSlotWriteCall (ended : Bool) (mem : Nat → Bool) (out : SlotOut) (call : WriteCall) :
    SlotOut × Except WriteError Nat :=
  if !call.taken then (out, .error .efault)
  else if call.null ∧ call.text ≠ [] then (out, .error .efault)
  else if ended ∨ call.flags &&& ~~~toolMore ≠ 0 then (out, .error .einval)
  else if toolOutputMax - out.answer.length < call.text.length then (out, .error .efbig)
  else
    match slotWritten mem (call.flags &&& toolMore ≠ 0) out.answer call.text with
    | (answer, none) => ({ out with answer := answer.take out.answer.length }, .error .enomem)
    | (answer, some n) => ({ answer := answer, room := out.room - n }, .ok n)

/-- The loop appends what it mends, or has no memory and leaves what was there. -/
theorem slotAppend_spec (mem : Nat → Bool) (more : Bool) (k i : Nat) (answer s : Bytes) :
    slotAppend mem more k i answer s = (answer ++ slotChunks more s, some (i + (slotChunks more s).length)) ∨
      ∃ written, slotAppend mem more k i answer s = (answer ++ written, none) := by
  induction k, i, answer, s using slotAppend.induct mem more with
  | case1 k i answer s short room =>
    rw [slotAppend, slotChunks, dif_pos short, dif_pos short]
    exact .inl (if_pos room)
  | case2 k i answer s short full =>
    rw [slotAppend, dif_pos short]
    exact .inr ⟨[], by rw [if_neg full, append_nil]⟩
  | case3 k i answer s long w room ih =>
    rw [slotAppend, slotChunks, dif_neg long, dif_neg long]
    simp only [if_pos room]
    rcases ih with whole | ⟨written, stopped⟩
    · rw [whole, append_assoc, length_append, Nat.add_assoc]
      exact .inl rfl
    · exact .inr ⟨w ++ written, by rw [stopped, append_assoc]⟩
  | case4 k i answer s long full =>
    rw [slotAppend, dif_neg long]
    exact .inr ⟨[], by simp only [if_neg full, append_nil]⟩

theorem slotWritten_spec (mem : Nat → Bool) (more : Bool) (answer text : Bytes) :
    slotWritten mem more answer text = (answer ++ slotMend more text, some (slotMend more text).length) ∨
      ∃ written, slotWritten mem more answer text = (answer ++ written, none) := by
  rw [slotWritten, slotMend]
  rcases Bool.eq_false_or_eq_true (mem 0) with room | full
  · rw [if_pos room]
    split
    · rename_i whole
      left
      rw [whole, take_length]
    · rw [length_append, length_take_jbUtf8, ← append_assoc]
      rcases slotAppend_spec mem more 1 (jbUtf8 text) (answer ++ text.take (jbUtf8 text))
        (text.drop (jbUtf8 text)) with done | ⟨written, stopped⟩
      · exact .inl done
      · exact .inr ⟨_, by rw [stopped, append_assoc]⟩
  · exact .inr ⟨[], by rw [full, append_nil]; rfl⟩

/-- A call is refused and changes nothing, or it does what a write does. -/
theorem mcpSlotWriteCall_spec (ended : Bool) (mem : Nat → Bool) (out : SlotOut) (call : WriteCall) :
    (∃ e, mcpSlotWriteCall ended mem out call = (out, .error e)) ∨
      ∃ out' n, mcpSlotWriteCall ended mem out call = (out', .ok n) ∧
        mcpSlotWrite out call.text (call.flags &&& toolMore ≠ 0) = some (out', n) := by
  rw [mcpSlotWriteCall]
  split
  · exact .inl ⟨_, rfl⟩
  split
  · exact .inl ⟨_, rfl⟩
  split
  · exact .inl ⟨_, rfl⟩
  split
  · exact .inl ⟨_, rfl⟩
  rename_i fits
  rcases slotWritten_spec mem (call.flags &&& toolMore ≠ 0) out.answer call.text with done | ⟨written, stopped⟩
  · right
    rw [done, mcpSlotWrite, if_neg fits]
    exact ⟨_, _, rfl, rfl⟩
  · left
    rw [stopped]
    exact ⟨.enomem, by simp only [take_left]⟩

/-- The calls that write the text `s`, each going on at the byte after those taken: the output, and how
many bytes of the text are taken. -/
inductive Writing (s : Bytes) : SlotOut → Nat → Prop
  /-- No call has written yet. -/
  | start (room : Nat) : Writing s { answer := [], room := room } 0
  /-- Another step begins. -/
  | step {out : SlotOut} {pos : Nat} (room : Nat) : Writing s out pos → Writing s { out with room := room } pos
  /-- A call with `TOOL_MORE`. -/
  | more {out out' : SlotOut} {pos n : Nat} {ended : Bool} {mem : Nat → Bool} {call : WriteCall} :
      Writing s out pos → call.flags &&& toolMore ≠ 0 → call.text <+: s.drop pos →
        mcpSlotWriteCall ended mem out call = (out', .ok n) → Writing s out' (pos + n)
  /-- A call that is refused. -/
  | refused {out out' : SlotOut} {pos : Nat} {ended : Bool} {mem : Nat → Bool} {call : WriteCall}
      {e : WriteError} : Writing s out pos → mcpSlotWriteCall ended mem out call = (out', .error e) →
        Writing s out' pos

/-- The output is the mended text of what is taken. -/
theorem Writing.mended {s : Bytes} {out : SlotOut} {pos : Nat} (writing : Writing s out pos) :
    Mended s out.answer ∧ out.answer.length = pos := by
  induction writing with
  | start room => exact ⟨.nil s, rfl⟩
  | step room _ ih => exact ih
  | @more out out' pos n ended mem call _ flag piece done ih =>
    obtain ⟨before, length⟩ := ih
    rcases mcpSlotWriteCall_spec ended mem out call with ⟨e, refused⟩ | ⟨_, _, same, wrote⟩
    · rw [refused] at done
      cases done
    · rw [same] at done
      cases done
      rw [decide_eq_true flag, mcpSlotWrite] at wrote
      split at wrote
      · cases wrote
      · cases wrote
        have more := (slotMend_more call.text).1
        rw [prefix_iff_eq_take.mp piece] at more
        rw [← length] at more piece ⊢
        refine ⟨before.append ?_, ?_⟩
        · rw [prefix_iff_eq_take.mp piece]
          exact more.of_take
        · rw [length_append]
  | @refused out out' pos ended mem call e _ done ih =>
    rcases mcpSlotWriteCall_spec ended mem out call with ⟨_, refused⟩ | ⟨_, _, same, -⟩
    · rw [refused] at done
      cases done
      exact ih
    · rw [same] at done
      cases done

/-- The call that writes the end of a text leaves the mended text of the whole. -/
theorem Writing.last {s : Bytes} {out out' : SlotOut} {pos n : Nat} (writing : Writing s out pos)
    {ended : Bool} {mem : Nat → Bool} {call : WriteCall} (flag : call.flags &&& toolMore = 0)
    (rest : call.text = s.drop pos) (done : mcpSlotWriteCall ended mem out call = (out', .ok n)) :
    out'.answer = jbMend true s ∧ pos + n = s.length := by
  obtain ⟨before, length⟩ := writing.mended
  rcases mcpSlotWriteCall_spec ended mem out call with ⟨e, refused⟩ | ⟨_, _, same, wrote⟩
  · rw [refused] at done
    cases done
  · rw [same] at done
    cases done
    rw [decide_eq_false (not_not.mpr flag), mcpSlotWrite, slotMend_last] at wrote
    split at wrote
    · cases wrote
    · cases wrote
      have whole := before.rest []
      have inside := before.length
      rw [append_nil, append_nil, length, ← rest] at whole
      rw [jbMend_last, whole]
      refine ⟨rfl, ?_⟩
      rw [length_mend, rest, length_drop]
      omega

/-- A call that is not refused takes at least one byte of four. -/
theorem mcpSlotWriteCall_takes {ended : Bool} {mem : Nat → Bool} {out out' : SlotOut} {call : WriteCall} {n : Nat}
    (done : mcpSlotWriteCall ended mem out call = (out', .ok n)) (four : 4 ≤ call.text.length) : 1 ≤ n := by
  rcases mcpSlotWriteCall_spec ended mem out call with ⟨e, refused⟩ | ⟨_, _, same, wrote⟩
  · rw [refused] at done
    cases done
  · rw [same] at done
    cases done
    rw [mcpSlotWrite] at wrote
    split at wrote
    · cases wrote
    · cases wrote
      generalize decide (call.flags &&& toolMore ≠ 0) = more
      cases more with
      | false =>
        rw [slotMend_last, length_mend]
        omega
      | true =>
        have left := (slotMend_more call.text).2
        omega

end Askai
