import Askai.Calls.Writes
import Askai.Library.Search
import Askai.Util.Characters

/-!
# Windows of a call's output

The part of an output that a turn takes (`mcp_slot_window`, `mcp_slot_note_window` of `mcp.c`), and that
the windows at the offsets that the notes name are the output.
-/

namespace Askai

open Library List

/-- `WINDOW_MIN`. -/
abbrev windowMin : Nat := 2048

/-- `WINDOW_MAX`. -/
abbrev windowMax : Nat := 64 * 2 ^ 10

/-- `mcp_req_lend_max`. -/
def mcpReqLendMax (context : UInt32) : Nat :=
  let eighth := context.toNat / 2
  if context = 0 then windowMax
  else if eighth < windowMin then windowMin
  else if eighth < windowMax then eighth
  else windowMax

/-- `mcp_slot_window`: `skip` and `window` of the output `out`, with `cap` of `mcp_req_lend_max`. -/
def mcpSlotWindow (cap : Nat) (out : Bytes) (skip : Nat) : Nat × Nat :=
  let skip := utilCharStart out (if skip < out.length then skip else out.length)
  let len := out.length - skip
  if cap < len then
    let window := utilClip (out.drop skip) cap
    let first := window - window / 4
    match memrchr lf (((out.drop skip).drop first).take (window - first)) with
    | some nl => (skip, first + nl + 1)
    | none => (skip, window)
  else (skip, len)

/-- What `mcp_slot_note_window` says of a window. -/
inductive WindowNote
  /-- The rest is at an offset. -/
  | rest (skip last len offset : Nat)
  | cut (skip last len : Nat)
  | past (len : Nat)
  | ends (skip len : Nat)
  | none
  deriving DecidableEq

/-- `mcp_slot_note_window`, of a tool that is `TOOL_PAGED` or not. -/
def mcpSlotNoteWindow (paged : Bool) (window : Nat × Nat) (len : Nat) (past : Bool) : WindowNote :=
  let last := window.1 + window.2
  if last < len ∧ paged then .rest window.1 last len last
  else if last < len then .cut window.1 last len
  else if past then .past len
  else if window.1 ≠ 0 then .ends window.1 len
  else .none

/-- The text of an output in a window. -/
def windowText (out : Bytes) (window : Nat × Nat) : Bytes :=
  (out.drop window.1).take window.2

/-- The windows that a model gets that calls again with each offset that a note names. -/
inductive Follows (cap : Nat) (out : Bytes) : Nat → List Bytes → Prop
  | last {off : Nat} :
      (∀ skip last len offset, mcpSlotNoteWindow true (mcpSlotWindow cap out off) out.length
        (out.length < off) ≠ .rest skip last len offset) →
        Follows cap out off [windowText out (mcpSlotWindow cap out off)]
  | more {off skip last len offset : Nat} {windows : List Bytes} :
      mcpSlotNoteWindow true (mcpSlotWindow cap out off) out.length (out.length < off) =
        .rest skip last len offset → Follows cap out offset windows →
          Follows cap out off (windowText out (mcpSlotWindow cap out off) :: windows)

theorem mcpReqLendMax_bounds (context : UInt32) :
    windowMin ≤ mcpReqLendMax context ∧ mcpReqLendMax context ≤ windowMax := by
  have order : windowMin ≤ windowMax := by decide
  rw [mcpReqLendMax]
  split
  · exact ⟨order, Nat.le_refl _⟩
  split
  · exact ⟨Nat.le_refl _, order⟩
  split <;> omega

/-- A window is whole characters of the output, no longer than it may be, and empty only at its end. -/
theorem mcpSlotWindow_spec {cap : Nat} (room : windowMin ≤ cap) {out : Bytes} (text : IsUtf8 out) (off : Nat) :
    min off out.length ≤ (mcpSlotWindow cap out off).1 ∧ IsUtf8 (out.take (mcpSlotWindow cap out off).1) ∧
      IsUtf8 (windowText out (mcpSlotWindow cap out off)) ∧
      IsUtf8 (out.drop ((mcpSlotWindow cap out off).1 + (mcpSlotWindow cap out off).2)) ∧
      (mcpSlotWindow cap out off).2 ≤ cap ∧ (mcpSlotWindow cap out off).1 + (mcpSlotWindow cap out off).2 ≤ out.length ∧
      ((mcpSlotWindow cap out off).2 = 0 → (mcpSlotWindow cap out off).1 = out.length) := by
  obtain ⟨start, same⟩ : ∃ start, start = if off < out.length then off else out.length := ⟨_, rfl⟩
  have inside : start ≤ out.length := by
    rw [same]
    split <;> omega
  have least : min off out.length ≤ start := by
    rw [same]
    split <;> omega
  obtain ⟨before, behind, begins⟩ := utilCharStart_spec inside
  obtain ⟨skip, here⟩ : ∃ skip, skip = utilCharStart out start := ⟨_, rfl⟩
  rw [← here] at before behind begins
  obtain ⟨front, back⟩ := text.cut begins
  have left : (out.drop skip).length = out.length - skip := length_drop
  rw [mcpSlotWindow, ← same, ← here]
  simp only []
  split
  · rename_i long
    obtain ⟨most, short⟩ := utilClip_le (out.drop skip) cap
    have longer : cap < (out.drop skip).length := by omega
    have lost := back.lt_clip longer
    obtain ⟨clipped, behindClip⟩ := back.clip cap
    generalize utilClip (out.drop skip) cap = window at *
    have some_ : 4 < window := by
      have : 2048 ≤ cap := room
      omega
    split
    · rename_i nl found
      have line := memrchr_eq_some found
      have within := (List.getElem?_eq_some_iff.mp line).1
      rw [length_take] at within
      rw [List.getElem?_take_of_lt (by omega), List.getElem?_drop] at line
      obtain ⟨lines, rest⟩ := back.after line (by decide)
      rw [drop_drop] at rest
      refine ⟨Nat.le_trans least before, front, lines, ?_, ?_, ?_, ?_⟩
      · exact rest
      all_goals simp only []; omega
    · rw [drop_drop] at behindClip
      refine ⟨Nat.le_trans least before, front, clipped, behindClip, most, ?_, ?_⟩
      all_goals simp only []; omega
  · rename_i short
    refine ⟨Nat.le_trans least before, front, ?_, ?_, Nat.le_of_not_lt short, ?_, ?_⟩
    · rw [windowText, ← left, take_length]
      exact back
    · rw [Nat.add_sub_cancel' behind, drop_length]
      exact .nil
    all_goals simp only []; omega

/-- At the start of a character the window begins there. -/
theorem mcpSlotWindow_begins {cap off : Nat} {out : Bytes} (inside : off ≤ out.length)
    (begins : IsUtf8 (out.drop off)) : (mcpSlotWindow cap out off).1 = off := by
  have stays : utilCharStart out (if off < out.length then off else out.length) = off := by
    have same : (if off < out.length then off else out.length) = off := by
      split <;> omega
    rw [same]
    apply utilCharStart_of_begins
    intro b first
    rw [← Nat.add_zero off, ← List.getElem?_drop] at first
    exact begins.begins first
  rw [mcpSlotWindow, stays]
  simp only []
  split
  · split <;> rfl
  · rfl

/-- The note of a window that does not reach the end names the byte after it. -/
theorem mcpSlotNoteWindow_rest {window : Nat × Nat} {len : Nat} (less : window.1 + window.2 < len) (past : Bool) :
    mcpSlotNoteWindow true window len past = .rest window.1 (window.1 + window.2) len (window.1 + window.2) := by
  rw [mcpSlotNoteWindow, if_pos ⟨less, rfl⟩]

/-- The note of a window that reaches the end names no offset. -/
theorem mcpSlotNoteWindow_last {window : Nat × Nat} {len : Nat} (whole : len ≤ window.1 + window.2) (past : Bool)
    (skip last len' offset : Nat) : mcpSlotNoteWindow true window len past ≠ .rest skip last len' offset := by
  rw [mcpSlotNoteWindow, if_neg fun less => Nat.not_lt.mpr whole less.1, if_neg (Nat.not_lt.mpr whole)]
  split
  · nofun
  · split <;> nofun

/-- From the start of a character on, the windows are the rest of the output. -/
theorem follows_drop {cap : Nat} (room : windowMin ≤ cap) {out : Bytes} (text : IsUtf8 out) {off : Nat}
    (inside : off ≤ out.length) (begins : IsUtf8 (out.drop off)) :
    ∃ windows, Follows cap out off windows ∧ windows.flatten = out.drop off := by
  obtain ⟨-, -, -, behind, -, whole, empty⟩ := mcpSlotWindow_spec room text off
  have start : (mcpSlotWindow cap out off).1 = off := mcpSlotWindow_begins inside begins
  rcases Nat.lt_or_ge ((mcpSlotWindow cap out off).1 + (mcpSlotWindow cap out off).2) out.length with less | reached
  · have some_ : (mcpSlotWindow cap out off).2 ≠ 0 := by
      intro none_
      have ends := empty none_
      omega
    obtain ⟨windows, follows, rest⟩ := follows_drop room text whole behind
    refine ⟨_, .more (mcpSlotNoteWindow_rest less _) follows, ?_⟩
    rw [flatten_cons, rest, windowText, start, ← drop_drop, take_append_drop]
  · refine ⟨_, .last (mcpSlotNoteWindow_last reached _), ?_⟩
    rw [flatten_singleton, windowText, start, take_of_length_le]
    rw [length_drop]
    omega
termination_by out.length - off
decreasing_by omega

theorem Follows.unique {cap off : Nat} {out : Bytes} {windows : List Bytes} (follows : Follows cap out off windows) :
    ∀ {others}, Follows cap out off others → others = windows := by
  induction follows with
  | @last off none_ =>
    intro others other
    cases other with
    | last => rfl
    | more named => exact (none_ _ _ _ _ named).elim
  | @more off skip last len offset windows named _ ih =>
    intro others other
    cases other with
    | last none_ => exact (none_ _ _ _ _ named).elim
    | more again rest =>
      rw [again] at named
      cases named
      rw [ih rest]

/-- A refused write changes nothing, and the output of writes that go on where the last one stopped is the
mended text of the whole; each window of it is whole characters, and the windows at the offsets that the
notes name are the output, each byte once. -/
theorem output_windows : (∀ ended mem out call,
      (∀ e, (mcpSlotWriteCall ended mem out call).2 = .error e → (mcpSlotWriteCall ended mem out call).1 = out) ∧
      ∀ n, (mcpSlotWriteCall ended mem out call).2 = .ok n → 4 ≤ call.text.length → 1 ≤ n) ∧
    (∀ s out pos, Writing s out pos → ∀ ended mem call, call.flags &&& toolMore = 0 → call.text = s.drop pos →
      ∀ n, (mcpSlotWriteCall ended mem out call).2 = .ok n →
        (mcpSlotWriteCall ended mem out call).1.answer = jbMend true s) ∧ (∀ s, IsUtf8 (jbMend true s)) ∧
    (∀ context, windowMin ≤ mcpReqLendMax context ∧ mcpReqLendMax context ≤ windowMax) ∧
    ∀ cap out, windowMin ≤ cap → IsUtf8 out → (∀ off, IsUtf8 (out.take (mcpSlotWindow cap out off).1) ∧
        IsUtf8 (windowText out (mcpSlotWindow cap out off)) ∧
        (windowText out (mcpSlotWindow cap out off)).length ≤ cap ∧
        (windowText out (mcpSlotWindow cap out off) = [] → (mcpSlotWindow cap out off).1 = out.length)) ∧
      ∃ windows, Follows cap out 0 windows ∧ windows.flatten = out ∧
        ∀ others, Follows cap out 0 others → others = windows := by
  refine ⟨?_, ?_, ?_, mcpReqLendMax_bounds, ?_⟩
  · intro ended mem out call
    constructor
    · intro e refused
      rcases mcpSlotWriteCall_spec ended mem out call with ⟨_, same⟩ | ⟨_, _, same, -⟩
      · rw [same]
      · rw [same] at refused
        cases refused
    · intro n done
      exact mcpSlotWriteCall_takes (Prod.ext rfl done)
  · intro s out pos writing ended mem call flag rest n done
    exact (writing.last flag rest (Prod.ext rfl done)).1
  · intro s
    rw [jbMend_last]
    exact isUtf8_mend s
  · intro cap out room text
    constructor
    · intro off
      obtain ⟨-, front, window, -, most, inside, empty⟩ := mcpSlotWindow_spec room text off
      have length : (windowText out (mcpSlotWindow cap out off)).length = (mcpSlotWindow cap out off).2 := by
        rw [windowText, length_take, length_drop]
        omega
      refine ⟨front, window, length ▸ most, fun none_ => empty ?_⟩
      rw [← length, none_, length_nil]
    · obtain ⟨windows, follows, whole⟩ := follows_drop room text (Nat.zero_le _) (by rwa [drop_zero])
      rw [drop_zero] at whole
      exact ⟨windows, follows, whole, fun others other => follows.unique other⟩

/-- A character written in two calls. -/
theorem output_windows_two : (mcpSlotWriteCall false (fun _ => true) { answer := [], room := 9 }
        { text := [97, 0xc3], null := false, flags := toolMore, taken := true }).2 = .ok 1 ∧
      (mcpSlotWriteCall false (fun _ => true) { answer := [97], room := 8 }
        { text := [0xc3, 0xa9], null := false, flags := 0, taken := true }).1.answer =
          jbMend true [97, 0xc3, 0xa9] := by
  have first : mcpSlotWriteCall false (fun _ => true) { answer := [], room := 9 }
      { text := [97, 0xc3], null := false, flags := toolMore, taken := true } =
        ({ answer := [97], room := 8 }, .ok 1) := by decide +kernel
  have writing : Writing [97, 0xc3, 0xa9] { answer := [97], room := 8 } (0 + 1) :=
    .more (.start 9) (by decide) (by decide) first
  refine ⟨by rw [first], ?_⟩
  exact output_windows.2.1 _ _ _ writing _ _ _ (by decide) rfl 2 (by decide +kernel)

end Askai
