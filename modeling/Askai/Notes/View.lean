import Askai.Library.Search
import Askai.Notes.Stream
import Askai.Util.Characters

/-!
# The view of a note

How a note that is not text is shown (`notes_tool_view` of `notes_tool.c`), and the part of the newest one
that goes into a prompt.
-/

namespace Askai

open Library List

/-- The bracket U+27E6. -/
def viewOpen : Bytes := [0xe2, 0x9f, 0xa6]

/-- The bracket U+27E7. -/
def viewClose : Bytes := [0xe2, 0x9f, 0xa7]

/-! ## The view -/

/-- The inner loop of `notes_tool_view`: the pieces that it appends of valid text. -/
def notesViewRun (run : Bytes) : List Bytes :=
  if _some : run = [] then []
  else
    match memmem viewOpen run with
    | none => [run]
    | some k => run.take (k + 3) :: viewOpen :: notesViewRun (run.drop (k + 3))
termination_by run.length
decreasing_by
  have some_ := length_pos_iff.mpr _some
  rw [length_drop]
  omega

/-- A digit of `hex`. -/
def hexUpper (d : Nat) : UInt8 :=
  UInt8.ofNat (if d < 10 then 48 + d else 55 + d)

/-- The valid text, without NUL, that a note begins with. -/
def notesRun (note : Bytes) : Bytes :=
  (note.take (jbUtf8 note)).takeWhile (· ≠ nul)

/-- The loop of `notes_tool_view`. -/
def notesViewPieces (note : Bytes) : List Bytes :=
  notesViewRun (notesRun note) ++
    match _left : note.drop (notesRun note).length with
    | [] => []
    | b :: rest =>
      viewOpen :: [hexUpper (b.toNat / 16), hexUpper (b.toNat % 16)] :: viewClose :: notesViewPieces rest
termination_by note.length
decreasing_by
  have length := congrArg List.length _left
  rw [length_drop, length_cons] at length
  omega

/-- The line that explains a view. -/
def notesViewHead (len : Nat) : Bytes :=
  ascii "[askai: the note is not UTF-8 text: " ++ utilDecimal len ++
    ascii " bytes.  Each byte that is not part of UTF-8 text, and each NUL, is shown as " ++ viewOpen ++
    ascii "XX" ++ viewClose ++ ascii ", its value in hexadecimal, and a " ++ viewOpen ++
    ascii " of the text as " ++ viewOpen ++ viewOpen ++ ascii ".  The note itself is not changed.]\n\n"

/-- `notes_tool_put`, of the text and the size so far. -/
def notesToolPut (max : Nat) (view : Bytes × Nat) (piece : Bytes) : Bytes × Nat :=
  (if view.2 < max then view.1 ++ piece else view.1, view.2 + piece.length)

/-- `notes_tool_view`: the text, and the size of the whole view. -/
def notesToolView (note : Bytes) (max : Nat) : Bytes × Nat :=
  (notesViewHead note.length :: notesViewPieces note).foldl (notesToolPut max) ([], 0)

/-- The first lines of `notes_tool_newest`: the part of a note that goes into the prompt, and the length
of the whole. -/
def notesNewestPart (note : Bytes) (most : Nat) : Bytes × Nat :=
  let (body, len) :=
    if jbIsText note then (note, note.length) else notesToolView note ((most + 1) % 2 ^ 64)
  (body.take (utilClip body most), len)

/-- The line with the offset of the rest. -/
def notesNewestMore (offset len : Nat) : Bytes :=
  ascii "\n[askai: bytes 0 to " ++ utilDecimal offset ++ ascii " of " ++ utilDecimal len ++
    ascii "; read the note with \"offset\": " ++ utilDecimal offset ++ ascii " for the rest.]"

/-- `notes_tool_newest`: what it appends to the prompt of a note that git read. -/
def notesToolNewest (note : Bytes) (most : Nat) : Bytes :=
  let (body, len) := notesNewestPart note most
  let more := if body.length < len then notesNewestMore body.length len else []
  body ++ if body.getLast? = some lf ∧ more = [] then [] else more ++ [lf]

/-! ## Undoing a view -/

/-- What a digit of `hex` stands for. -/
def hexUpperValue (c : UInt8) : Nat :=
  if c < 58 then c.toNat - 48 else c.toNat - 55

/-- The bytes that the pieces of a view show. -/
def viewUndo (s : Bytes) : Bytes :=
  match s with
  | [] => []
  | b :: rest =>
    if viewOpen.isPrefixOf (b :: rest) then
      if viewOpen.isPrefixOf (rest.drop 2) then viewOpen ++ viewUndo (rest.drop 5)
      else UInt8.ofNat (hexUpperValue (rest.getD 2 0) * 16 + hexUpperValue (rest.getD 3 0)) ::
        viewUndo (rest.drop 7)
    else b :: viewUndo rest
termination_by s.length
decreasing_by
  all_goals simp only [length_drop, length_cons]
  all_goals omega

/-- The note of a view, whose first line ends with an empty one. -/
def notesUnview (view : Bytes) : Bytes :=
  match cut lf view with
  | none => []
  | some (_, rest) => viewUndo (rest.drop 1)

theorem viewUndo_open (t : Bytes) : viewUndo (viewOpen ++ (viewOpen ++ t)) = viewOpen ++ viewUndo t := by
  rw [viewOpen, cons_append, viewUndo]
  rfl

theorem hexUpperValue_hexUpper {d : Nat} (small : d < 16) : hexUpperValue (hexUpper d) = d := by
  have all : ∀ d < 16, hexUpperValue (hexUpper d) = d := by decide
  exact all d small

theorem viewUndo_byte (b : UInt8) (t : Bytes) :
    viewUndo (viewOpen ++ ([hexUpper (b.toNat / 16), hexUpper (b.toNat % 16)] ++ (viewClose ++ t))) =
      b :: viewUndo t := by
  have all : ∀ d < 16, hexUpper d ≠ 0xe2 := by decide
  have small := b.toNat_lt
  have high : b.toNat / 16 < 16 := by omega
  have low : b.toNat % 16 < 16 := Nat.mod_lt _ (by decide)
  have other : (0xe2 == hexUpper (b.toNat / 16)) = false := by
    rw [beq_eq_false_iff_ne]
    exact (all _ high).symm
  rw [viewOpen, viewClose, cons_append, viewUndo]
  simp only [viewOpen, cons_append, nil_append, drop_succ_cons, drop_zero,
    List.isPrefixOf, other, Bool.false_and, BEq.rfl, Bool.true_and, getD_cons_succ, getD_cons_zero,
    hexUpperValue_hexUpper high, hexUpperValue_hexUpper low, if_true]
  rw [if_neg (by decide), Nat.div_add_mod', UInt8.ofNat_toNat]

theorem viewUndo_cons {b : UInt8} {t : Bytes} (other : ¬ viewOpen <+: b :: t) :
    viewUndo (b :: t) = b :: viewUndo t := by
  rw [viewUndo, if_neg fun here => other ( isPrefixOf_iff_prefix.mp here)]

/-- Nothing, or what begins with a bracket. -/
def Opens (t : Bytes) : Prop :=
  t = [] ∨ viewOpen <+: t

/-- A bracket does not begin in bytes without one and go on in a bracket. -/
theorem viewUndo_plain {run t : Bytes} (plain : ¬ viewOpen <:+: run) (opens : Opens t) :
    viewUndo (run ++ t) = run ++ viewUndo t := by
  induction run with
  | nil => rfl
  | cons b run ih =>
    rw [infix_cons_iff, not_or] at plain
    rw [cons_append, viewUndo_cons, ih plain.2, cons_append]
    rintro ⟨rest, same⟩
    rcases opens with rfl | ⟨t', rfl⟩
    · rw [append_nil] at same
      exact plain.1 ⟨rest, same⟩
    · match run with
      | [] => cases (List.cons.inj (List.cons.inj same).2).1
      | [x] => cases (List.cons.inj (List.cons.inj (List.cons.inj same).2).2).1
      | x :: y :: run =>
        obtain ⟨first, same⟩ := List.cons.inj same
        obtain ⟨second, same⟩ := List.cons.inj same
        obtain ⟨third, -⟩ := List.cons.inj same
        apply plain.1
        rw [← first, ← second, ← third]
        exact ⟨run, rfl⟩

theorem viewUndo_run {run t : Bytes} (opens : Opens t) :
    viewUndo ((notesViewRun run).flatten ++ t) = run ++ viewUndo t := by
  induction run using notesViewRun.induct with
  | case1 => rw [notesViewRun, dif_pos rfl]; rfl
  | case2 run some_ absent =>
    rw [notesViewRun, dif_neg some_, absent]
    simp only [flatten_cons, flatten_nil, append_nil]
    exact viewUndo_plain (memmem_eq_none absent) opens
  | case3 run some_ k found ih =>
    obtain ⟨front, plain⟩ := memmem_take found (by decide)
    rw [notesViewRun, dif_neg some_, found]
    simp only [flatten_cons, append_assoc]
    change run.take (k + 3) = _ at front
    rw [front, append_assoc, viewUndo_plain plain (.inr (prefix_append _ _)), viewUndo_open, ih,
      ← append_assoc, ← append_assoc, ← front, take_append_drop]

theorem notesRun_prefix (note : Bytes) : notesRun note <+: note :=
  ( takeWhile_prefix _).trans ( take_prefix _ _)

theorem notesRun_append (note : Bytes) : notesRun note ++ note.drop (notesRun note).length = note := by
  obtain ⟨rest, whole⟩ := notesRun_prefix note
  have back := congrArg (List.drop (notesRun note).length) whole
  rw [drop_left] at back
  rw [← back, whole]

/-- Undone, the pieces of a view are the note. -/
theorem viewUndo_pieces (note : Bytes) : viewUndo (notesViewPieces note).flatten = note := by
  induction note using notesViewPieces.induct with
  | case1 note ih =>
    have whole := notesRun_append note
    rw [notesViewPieces, flatten_append]
    split
    · rename_i left
      rw [flatten_nil, viewUndo_run (.inl rfl), viewUndo, append_nil]
      rwa [left, append_nil] at whole
    · rename_i b rest left
      have opens : Opens (viewOpen :: [hexUpper (b.toNat / 16), hexUpper (b.toNat % 16)] :: viewClose ::
          notesViewPieces rest).flatten := .inr (prefix_append _ _)
      rw [viewUndo_run opens]
      simp only [flatten_cons]
      rw [viewUndo_byte, ih b rest left, ← left, whole]

/-! ## Text -/

theorem isUtf8_viewOpen : IsUtf8 viewOpen :=
  ⟨[Char.ofNat 0x27e6], by decide⟩

theorem isUtf8_viewClose : IsUtf8 viewClose :=
  ⟨[Char.ofNat 0x27e7], by decide⟩

/-- Text ends before a byte that does not go on with a character. -/
theorem isUtf8_takeWhile {s : Bytes} (text : IsUtf8 s) {p : UInt8 → Bool}
    (begins : ∀ b, p b = false → ¬ Continues b) : IsUtf8 (s.takeWhile p) := by
  have whole := takeWhile_append_dropWhile (p := p) (l := s)
  have front : s.take (s.takeWhile p).length = s.takeWhile p := by
    nth_rewrite 2 [← whole]
    exact take_left
  have back : s.drop (s.takeWhile p).length = s.dropWhile p := by
    nth_rewrite 2 [← whole]
    exact drop_left
  rw [← front]
  apply (text.cut _).1
  intro b first
  rw [← List.head?_drop, back] at first
  apply begins
  have not := List.head?_dropWhile_not p s
  rwa [first] at not

theorem isUtf8_notesRun (note : Bytes) : IsUtf8 (notesRun note) := by
  apply isUtf8_takeWhile (isUtf8_take note)
  intro b stops
  obtain rfl : b = nul := by simpa using stops
  decide

theorem isUtf8_viewRun {run : Bytes} (text : IsUtf8 run) : ∀ piece ∈ notesViewRun run, IsUtf8 piece := by
  induction run using notesViewRun.induct with
  | case1 =>
    rw [notesViewRun, dif_pos rfl]
    nofun
  | case2 run some_ absent =>
    rw [notesViewRun, dif_neg some_, absent]
    simp only [forall_mem_singleton]
    exact text
  | case3 run some_ k found ih =>
    obtain ⟨front, -⟩ := memmem_take found (by decide)
    obtain ⟨⟨back, here⟩, -⟩ := memmem_eq_some found
    change run.take (k + 3) = _ at front
    have begins : ∀ b, run[k]? = some b → ¬ Continues b := by
      intro b first
      rw [← List.head?_drop, ← here] at first
      obtain rfl := Option.some.inj first
      decide
    have first : IsUtf8 (run.take (k + 3)) := front ▸ (text.cut begins).1.append isUtf8_viewOpen
    rw [notesViewRun, dif_neg some_, found]
    simp only [forall_mem_cons]
    apply And.intro first
    apply And.intro isUtf8_viewOpen
    apply ih
    rw [← take_append_drop (k + 3) run] at text
    exact first.rest text

theorem isUtf8_hexUpper (b : UInt8) : IsUtf8 [hexUpper (b.toNat / 16), hexUpper (b.toNat % 16)] := by
  have all : ∀ d < 16, hexUpper d < 0x80 := by decide
  have small := b.toNat_lt
  apply isUtf8_ascii
  simp only [forall_mem_cons]
  exact ⟨all _ (by omega), all _ (Nat.mod_lt _ (by decide)), nofun⟩

theorem isUtf8_viewPieces (note : Bytes) : ∀ piece ∈ notesViewPieces note, IsUtf8 piece := by
  induction note using notesViewPieces.induct with
  | case1 note ih =>
    rw [notesViewPieces, forall_mem_append]
    apply And.intro (isUtf8_viewRun (isUtf8_notesRun note))
    split
    · nofun
    · rename_i b rest left
      simp only [forall_mem_cons]
      exact ⟨isUtf8_viewOpen, isUtf8_hexUpper b, isUtf8_viewClose, ih b rest left⟩

theorem isUtf8_utilDecimal (n : Nat) : IsUtf8 (utilDecimal n) := by
  apply isUtf8_ascii
  intro c member
  have digit := utilDecimal_digits n c member
  rw [FastImport.isDigit, Bool.and_eq_true, decide_eq_true_iff, decide_eq_true_iff] at digit
  exact UInt8.lt_of_le_of_lt digit.2 (by decide)

/-- The first line ends with an empty one. -/
theorem notesViewHead_eq (len : Nat) : ∃ line, notesViewHead len = line ++ [lf, lf] ∧ lf ∉ line := by
  have last : ascii ".  The note itself is not changed.]\n\n" =
      ascii ".  The note itself is not changed.]" ++ [lf, lf] := by decide
  have number : lf ∉ utilDecimal len := fun member => absurd (utilDecimal_digits len lf member) (by decide)
  refine ⟨_, by rw [notesViewHead, last, ← append_assoc], ?_⟩
  simp only [mem_append, not_or]
  refine ⟨⟨⟨⟨⟨⟨⟨⟨⟨⟨⟨?_, number⟩, ?_⟩, ?_⟩, ?_⟩, ?_⟩, ?_⟩, ?_⟩, ?_⟩, ?_⟩, ?_⟩, ?_⟩
  all_goals decide

theorem isUtf8_notesViewHead (len : Nat) : IsUtf8 (notesViewHead len) := by
  have constant : ∀ text : Bytes, text.all (· < 0x80) = true → IsUtf8 text := by
    intro text low
    apply isUtf8_ascii
    simpa only [all_eq_true, decide_eq_true_iff] using low
  rw [notesViewHead]
  repeat' apply IsUtf8.append
  all_goals first
    | exact isUtf8_viewOpen
    | exact isUtf8_viewClose
    | exact isUtf8_utilDecimal len
    | exact constant _ (by decide)

/-! ## The parts -/

/-- The whole view of a note. -/
def wholeView (note : Bytes) : Bytes :=
  (notesViewHead note.length :: notesViewPieces note).flatten

theorem isUtf8_wholeView (note : Bytes) : IsUtf8 (wholeView note) := by
  apply IsUtf8.flatten
  rw [forall_mem_cons]
  exact ⟨isUtf8_notesViewHead _, isUtf8_viewPieces note⟩

theorem notesUnview_wholeView (note : Bytes) : notesUnview (wholeView note) = note := by
  obtain ⟨line, head, absent⟩ := notesViewHead_eq note.length
  rw [notesUnview, wholeView, flatten_cons, head, append_assoc]
  have first := cut_append (lf :: (notesViewPieces note).flatten) absent
  rw [cons_append, cons_append, nil_append, first]
  exact viewUndo_pieces note

/-- What `notes_tool_put` leaves of pieces once the text is `max` long. -/
theorem foldl_put_full {max w : Nat} (full : max ≤ w) (pieces : List Bytes) (s : Bytes) :
    pieces.foldl (notesToolPut max) (s, w) = (s, w + pieces.flatten.length) := by
  induction pieces generalizing w with
  | nil => rfl
  | cons piece pieces ih =>
    rw [foldl_cons, notesToolPut, if_neg (Nat.not_lt.mpr full), ih (Nat.le_add_right_of_le full),
      flatten_cons, length_append, Nat.add_assoc]

/-- `notes_tool_put` appends pieces up to the one that ends at or past `max`, and counts all. -/
theorem foldl_put (max : Nat) (pieces : List Bytes) (s : Bytes) :
    (pieces.foldl (notesToolPut max) (s, s.length)).2 = s.length + pieces.flatten.length ∧
      ∃ n ≤ pieces.length, (pieces.foldl (notesToolPut max) (s, s.length)).1 = s ++ (pieces.take n).flatten ∧
        (n = pieces.length ∨ max ≤ (s ++ (pieces.take n).flatten).length) := by
  induction pieces generalizing s with
  | nil => exact ⟨rfl, 0, Nat.le_refl 0, by rw [take_nil, flatten_nil, append_nil]; rfl, .inl rfl⟩
  | cons piece pieces ih =>
    rcases Nat.lt_or_ge s.length max with room | full
    · rw [foldl_cons, notesToolPut, if_pos room, ← length_append]
      obtain ⟨size, n, inside, text, stops⟩ := ih (s ++ piece)
      refine ⟨?_, n + 1, Nat.succ_le_succ inside, ?_, ?_⟩
      · rw [size, flatten_cons, length_append, length_append, Nat.add_assoc]
      · rw [text, take_succ_cons, flatten_cons, append_assoc]
      · rw [take_succ_cons, flatten_cons, ← append_assoc, length_cons]
        exact stops.imp_left (congrArg Nat.succ)
    · rw [foldl_put_full full]
      refine ⟨rfl, 0, Nat.zero_le _, ?_, .inr ?_⟩
      · rw [take_zero, flatten_nil, append_nil]
      · rwa [take_zero, flatten_nil, append_nil]

/-- What `notes_tool_view` writes: whole pieces, up to the one that ends at or past `max`. -/
theorem notesToolView_spec (note : Bytes) (max : Nat) :
    (notesToolView note max).2 = (wholeView note).length ∧ IsUtf8 (notesToolView note max).1 ∧
      (notesToolView note max).1 <+: wholeView note ∧
        ((notesToolView note max).1 = wholeView note ∨ max ≤ (notesToolView note max).1.length) := by
  obtain ⟨size, n, -, text, stops⟩ := foldl_put max (notesViewHead note.length :: notesViewPieces note) []
  rw [nil_append] at text stops
  rw [length_nil] at size text
  have whole := congrArg List.flatten (take_append_drop n (notesViewHead note.length :: notesViewPieces note))
  rw [flatten_append] at whole
  refine ⟨?_, ?_, ?_, ?_⟩
  · rw [notesToolView, size, Nat.zero_add, wholeView]
  · rw [notesToolView, text]
    apply IsUtf8.flatten
    intro piece member
    rcases mem_cons.mp (mem_of_mem_take member) with rfl | member
    · exact isUtf8_notesViewHead _
    · exact isUtf8_viewPieces note piece member
  · rw [notesToolView, text]
    exact ⟨_, whole⟩
  · rw [notesToolView, text]
    rcases stops with rfl | full
    · rw [take_length]
      exact .inl rfl
    · exact .inr full

/-- The part of the newest note that goes into the prompt goes on at its end. -/
theorem notesNewestPart_spec {note : Bytes} (view : jbIsText note = false) (most : Nat) :
    ∃ part, notesNewestPart note most = (part, (wholeView note).length) ∧ part.length ≤ most ∧ IsUtf8 part ∧
      part ++ (wholeView note).drop part.length = wholeView note := by
  obtain ⟨size, text, ⟨rest, whole⟩, -⟩ := notesToolView_spec note ((most + 1) % 2 ^ 64)
  obtain ⟨fits, inside⟩ := utilClip_le (notesToolView note ((most + 1) % 2 ^ 64)).1 most
  refine ⟨_, ?_, ?_, (text.clip most).1, ?_⟩
  · rw [notesNewestPart, view, ← size]
    rfl
  · rw [length_take]
    omega
  · rw [← whole, length_take, Nat.min_eq_left inside, drop_append_of_le_length inside, ← append_assoc, take_append_drop]

/-- The view of a note is text from which the note can be read, it is cut into whole characters, and the
part of it that goes into a prompt goes on at the offset that follows it. -/
theorem note_view (note : Bytes) : ∃ whole, IsUtf8 whole ∧ notesUnview whole = note ∧
      (∀ max, (notesToolView note max).2 = whole.length) ∧
      (∀ max, whole.length ≤ max → (notesToolView note max).1 = whole) ∧
      (∀ max, IsUtf8 (notesToolView note max).1 ∧ (notesToolView note max).1 <+: whole ∧
        ((notesToolView note max).1 = whole ∨ max ≤ (notesToolView note max).1.length)) ∧
      (jbIsText note = false → ∀ most, ∃ part, part.length ≤ most ∧ IsUtf8 part ∧
        part ++ whole.drop part.length = whole ∧
          ∃ more, (more = if part.length < whole.length then notesNewestMore part.length whole.length else []) ∧
            notesToolNewest note most = part ++ if part.getLast? = some lf ∧ more = [] then [] else more ++ [lf]) := by
  refine ⟨wholeView note, isUtf8_wholeView note, notesUnview_wholeView note, ?_, ?_, ?_, ?_⟩
  · exact fun max => (notesToolView_spec note max).1
  · intro max room
    obtain ⟨-, -, front, whole | long⟩ := notesToolView_spec note max
    · exact whole
    · exact front.eq_of_length_le (room.trans long)
  · exact fun max => (notesToolView_spec note max).2
  · intro view most
    obtain ⟨part, same, fits, text, whole⟩ := notesNewestPart_spec view most
    refine ⟨part, fits, text, whole, _, rfl, ?_⟩
    rw [notesToolNewest, same]

end Askai
