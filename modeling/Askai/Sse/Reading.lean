import Askai.Sse.Line

/-!
# The events of a stream as home reads it

However the bytes come and whatever the shares of the steps, the texts that home gets are those of
the events of the stream.
-/

namespace Askai

open Library List

namespace Wire

variable {w : Wire}

theorem homeJobLine_delivered (w : Wire) (end_ : Nat) : (w.homeJobLine end_).delivered = w.delivered := by
  simp only [homeJobLine, consume]
  split_ifs <;> rfl

/-- How much reading is left at most: bytes, then the line under way, then the event. -/
def left (w : Wire) : Nat :=
  8 * (w.bytes.length - w.scan) + (if w.line < w.scan then 4 else 0) +
    if w.evlen = 0 then 0 else if w.event then 1 else 2

theorem left_le : w.left ≤ 8 * w.bytes.length + 6 := by
  unfold left
  split <;> split <;> (try split) <;> omega

/-- What is left once the line under way has been taken in. -/
theorem left_of_line_eq (same : w.line = w.scan) : w.left ≤ 8 * (w.bytes.drop w.scan).length + 2 := by
  simp only [left, same, lt_irrefl, if_false, length_drop]
  split <;> (try split) <;> omega

/-- A turn reads on, or leaves the wire as it is. -/
theorem homeReadTurn_left (fits : w.Fits) (room : Nat) (parses : Bool) : (w.homeReadTurn room parses).1.left < w.left ∨
      (w.homeReadTurn room parses).1 = w ∧ ((w.homeReadTurn room parses).2 = .over ∨ room = 0 ∨ parses = false ∨
          w.delivered = false) ∧ ∀ data, (w.homeReadTurn room parses).2 ≠ .text data := by
  have line_le := fits.line_le
  have scan_le := fits.scan_le
  simp only [homeReadTurn]
  by_cases event : w.event = true
  · obtain ⟨some, same⟩ := fits.event event
    simp only [event, if_true, homeReadEvent]
    cases parses with
    | false => exact .inr ⟨rfl, .inr (.inr (.inl rfl)), by simp⟩
    | true =>
      left
      simp only [Bool.not_true, Bool.false_eq_true, if_false, left, consume, length_drop,
        lt_irrefl, if_true, same, some, event]
      omega
  · simp only [event, Bool.false_eq_true, if_false]
    have quiet : w.event = false := by simpa using event
    by_cases drained : w.bytes.length ≤ w.scan
    · simp only [drained, if_true, homeDrained]
      by_cases delivered : w.delivered = false
      · exact .inr (by simp [delivered])
      · simp only [Bool.not_eq_false] at delivered
        simp only [delivered, Bool.not_true, Bool.false_eq_true, if_false]
        by_cases under : w.line < w.scan
        · left
          simp only [under, if_true]
          have lined := homeJobLine_lined fits quiet line_le le_rfl
          have after := left_of_line_eq lined.at_scan
          rw [lined.unread, drop_of_length_le drained, length_nil] at after
          unfold left at after ⊢
          simp only [under, if_true]
          omega
        · simp only [under, if_false]
          by_cases none : w.evlen = 0
          · simp [none]
          · left
            simp [none, left, quiet]
    · simp only [drained, if_false, homeScan]
      by_cases empty : room = 0
      · simp [empty]
      · left
        simp only [empty, if_false]
        split
        · simp only [left]
          split <;> split <;> (try split) <;> omega
        · rename_i i found
          obtain ⟨within, -⟩ := List.findIdx?_eq_some_iff_getElem.mp found
          simp only [length_take, length_drop] at within
          have wider : Fits { w with scan := w.scan + i + 1 } :=
            ⟨by simp only; omega, by simp only; omega, fits.data_le,
              fun event => absurd event (by simp [quiet])⟩
          have lined := @homeJobLine_lined _ (w.scan + i) wider quiet (by simp only; omega) (by simp only; omega)
          have after := left_of_line_eq lined.at_scan
          rw [lined.unread] at after
          simp only [length_drop] at after
          simp only
          refine after.trans_lt ?_
          unfold left
          omega

/-- Nothing is left to read of a delivered stream. -/
structure AllRead (w : Wire) : Prop where
  quiet : w.event = false
  drained : w.bytes.length ≤ w.scan
  delivered : w.delivered = true
  between : w.scan ≤ w.line
  none : w.evlen = 0

theorem allRead_of_over {room : Nat} {parses : Bool} (all : (w.homeReadTurn room parses).2 = .over) : w.AllRead := by
  simp only [homeReadTurn] at all
  by_cases event : w.event = true
  · cases parses <;> simp [event, homeReadEvent] at all
  simp only [event, Bool.false_eq_true, if_false] at all
  by_cases drained : w.bytes.length ≤ w.scan
  · simp only [drained, if_true, homeDrained] at all
    by_cases delivered : w.delivered = true
    · simp only [delivered, Bool.not_true, Bool.false_eq_true, if_false] at all
      by_cases under : w.line < w.scan
      · simp [under] at all
      · by_cases none : w.evlen = 0
        · exact ⟨by simpa using event, drained, delivered, not_lt.mp under, none⟩
        · simp [under, none] at all
    · simp [delivered] at all
  · simp only [drained, if_false, homeScan] at all
    by_cases empty : room = 0
    · simp [empty] at all
    · simp only [empty, if_false] at all
      split at all <;> simp at all

theorem AllRead.homeReadTurn (all : w.AllRead) (room : Nat) (parses : Bool) :
    w.homeReadTurn room parses = (w, .over) := by
  simp [Wire.homeReadTurn, homeDrained, all.quiet, all.drained, all.delivered, all.none, not_lt.mpr all.between]

theorem data_append (fits : w.Fits) (more : Bytes) : ({ w with bytes := w.bytes ++ more } : Wire).data = w.data := by
  by_cases none : w.evlen = 0
  · rw [data_eq_nil none]
    exact data_eq_nil none
  · have := fits.data_le none
    have := fits.line_le
    have := fits.scan_le
    simp only [data]
    rw [drop_append_of_le_length (by omega), take_append_of_le_length]
    rw [length_drop]
    omega

end Wire

namespace Reader

variable {r : Reader}

/-- What has been read of a stream: its first `lines`, and the line under way as far as `scan`. -/
structure Reads (r : Reader) (lines : List Bytes) : Prop where
  split : ∀ rest, (r.taken ++ rest).splitOn lf =
    lines ++ (r.wire.bytes.drop r.wire.line ++ rest).splitOn lf
  looked : lf ∉ (r.wire.bytes.drop r.wire.line).take (r.wire.scan - r.wire.line)
  state : lines.foldl sseLine ([], []) = r.wire.state r.texts

/-- The last line of a stream has been read, or needs no reading. -/
structure Ends (r : Reader) : Prop where
  delivered : r.wire.delivered = true
  drained : r.wire.line = r.wire.bytes.length
  state : sseClose (r.wire.state r.texts) = sseEvents r.taken

/-- Home has read of the stream what it should. -/
structure Good (r : Reader) : Prop where
  fits : r.wire.Fits
  reads : (∃ lines, r.Reads lines) ∨ r.Ends
  /-- The bytes not looked at are as they came. -/
  unread : r.wire.bytes.drop r.wire.scan <:+ r.taken
  /-- What was not refused was taken. -/
  offered : r.failed = false → r.offered = r.taken

theorem good_start : ({} : Reader).Good :=
  { fits := ⟨le_rfl, le_rfl, fun some => absurd rfl some, nofun⟩
    reads := .inl ⟨[], ⟨fun _ => rfl, by simp, rfl⟩⟩
    unread := suffix_rfl
    offered := fun _ => rfl }

/-! ## What home gets -/

theorem isPrefix_state (w : Wire) (texts : List Bytes) : texts <+: (w.state texts).1 := by
  unfold Wire.state
  split
  · exact prefix_append ..
  · exact prefix_rfl

/-- The texts are those of the first events, whatever else comes. -/
theorem Reads.isPrefix_texts {lines : List Bytes} (reads : r.Reads lines) (rest : Bytes) :
    r.texts <+: sseEvents (r.taken ++ rest) := by
  have grows := isPrefix_foldl_sseLine ((r.wire.bytes.drop r.wire.line ++ rest).splitOn lf) (r.wire.state r.texts)
  rw [sseEvents, reads.split, foldl_append, reads.state]
  exact (isPrefix_state ..).trans (grows.trans (isPrefix_sseClose _))

theorem Ends.isPrefix_texts (ends : r.Ends) : r.texts <+: sseEvents r.taken := by
  rw [← ends.state]
  exact (isPrefix_state ..).trans (isPrefix_sseClose _)

theorem Good.isPrefix_texts (good : r.Good) : r.texts <+: sseEvents r.taken := by
  rcases good.reads with ⟨lines, reads⟩ | ends
  · simpa using reads.isPrefix_texts []
  · exact ends.isPrefix_texts

/-- With every whole line read and the last one empty or without its line break, the stream's
events are those at its close. -/
theorem Reads.events {lines : List Bytes} (reads : r.Reads lines) (drained : r.wire.bytes.length ≤ r.wire.scan) :
    sseEvents r.taken = sseClose (sseLine (r.wire.state r.texts) (r.wire.bytes.drop r.wire.line)) := by
  have looked := reads.looked
  rw [take_of_length_le (by rw [length_drop]; omega)] at looked
  have split := reads.split []
  simp only [append_nil] at split
  rw [sseEvents, split, splitOn_eq_singleton looked, foldl_append, reads.state]
  rfl

/-- A stream whose wire is drained with no line under way is at its close. -/
theorem Good.state (good : r.Good) (drained : r.wire.bytes.length ≤ r.wire.scan)
    (between : ¬r.wire.line < r.wire.scan) : sseClose (r.wire.state r.texts) = sseEvents r.taken := by
  rcases good.reads with ⟨lines, reads⟩ | ends
  · have last : r.wire.bytes.drop r.wire.line = [] := drop_of_length_le (by omega)
    rw [reads.events drained, last, sseClose_blank]
  · exact ends.state

/-! ## What a turn keeps -/

theorem Good.readEvent (good : r.Good) (event : r.wire.event = true) :
    ({ r with
      wire := { r.wire.consume r.wire.line with ev := 0, evlen := 0, line := 0, scan := 0, event := false }
      texts := r.texts ++ [r.wire.data] } : Reader).Good := by
  have state : ({ r.wire.consume r.wire.line with
      ev := 0, evlen := 0, line := 0, scan := 0, event := false } : Wire).state
        (r.texts ++ [r.wire.data]) = r.wire.state r.texts := by
    simp [Wire.state, Wire.data, event]
  refine
    { fits := ⟨le_rfl, Nat.zero_le _, fun some => absurd rfl some, by simp⟩
      reads := ?_
      unread := (good.fits.event event).2 ▸ good.unread
      offered := good.offered }
  rcases good.reads with ⟨lines, reads⟩ | ends
  · exact .inl ⟨lines, ⟨reads.split, by simp, reads.state.trans state.symm⟩⟩
  · refine .inr ⟨ends.delivered, ?_, (congrArg sseClose state).trans ends.state⟩
    simp [Wire.consume, ends.drained]

/-- The last line, which has no line break. -/
theorem Good.lastLine (good : r.Good) (quiet : r.wire.event = false)
    (drained : r.wire.bytes.length ≤ r.wire.scan) (delivered : r.wire.delivered = true)
    (under : r.wire.line < r.wire.scan) : ({ r with wire := r.wire.homeJobLine r.wire.scan } : Reader).Good := by
  have lined := Wire.homeJobLine_lined good.fits quiet good.fits.line_le le_rfl
  have unread := congrArg List.length lined.unread
  simp only [length_drop] at unread
  have scan_le := lined.fits.scan_le
  refine
    { fits := lined.fits
      reads := .inr ?_
      unread := lined.unread ▸ good.unread
      offered := good.offered }
  refine ⟨lined.delivered.trans delivered, ?_, ?_⟩
  · simp only [lined.at_scan]
    omega
  · rcases good.reads with ⟨lines, reads⟩ | ends
    · rw [take_of_length_le (by rw [length_drop]; omega)] at lined
      simp only [lined.state]
      exact (reads.events drained).symm
    · have := ends.drained
      have := good.fits.scan_le
      omega

/-- The last event, which no blank line ends. -/
theorem Good.lastEvent (good : r.Good) (quiet : r.wire.event = false)
    (drained : r.wire.bytes.length ≤ r.wire.scan) (delivered : r.wire.delivered = true)
    (between : ¬r.wire.line < r.wire.scan) (some : r.wire.evlen ≠ 0) :
    ({ r with wire := { r.wire with event := true } } : Reader).Good := by
  have line_le := good.fits.line_le
  have scan_le := good.fits.scan_le
  have state := good.state drained between
  have filled := good.fits.data_ne_nil some
  have same : ({ r.wire with event := true } : Wire).data = r.wire.data := rfl
  refine
    { fits := ⟨line_le, scan_le, good.fits.data_le, fun _ => ⟨some, by simp only; omega⟩⟩
      reads := .inr ⟨delivered, by simp only; omega, ?_⟩
      unread := good.unread
      offered := good.offered }
  rw [← state]
  simp [Wire.state, quiet, sseClose, filled, same]

/-- Bytes that hold no line break have been looked at. -/
theorem Good.lookedOn (good : r.Good) (quiet : r.wire.event = false) {n : Nat}
    (unread : r.wire.scan + n ≤ r.wire.bytes.length) (some : r.wire.scan < r.wire.bytes.length)
    (absent : lf ∉ (r.wire.bytes.drop r.wire.scan).take n) :
    ({ r with wire := { r.wire with scan := r.wire.scan + n } } : Reader).Good := by
  have line_le := good.fits.line_le
  refine
    { fits := ⟨by simp only; omega, unread, good.fits.data_le,
        fun event => absurd event (by simp [quiet])⟩
      reads := ?_
      unread := (drop_suffix_drop_left _ (Nat.le_add_right _ n)).trans good.unread
      offered := good.offered }
  rcases good.reads with ⟨lines, reads⟩ | ends
  · refine .inl ⟨lines, ⟨reads.split, ?_, reads.state⟩⟩
    have apart : r.wire.scan + n - r.wire.line = r.wire.scan - r.wire.line + n := by omega
    have start : r.wire.line + (r.wire.scan - r.wire.line) = r.wire.scan := by omega
    simp only [apart]
    rw [take_add, drop_drop, start, mem_append, not_or]
    exact ⟨reads.looked, absent⟩
  · have := ends.drained
    omega

/-- A whole line has been taken in. -/
theorem Good.wholeLine (good : r.Good) (quiet : r.wire.event = false) {i : Nat}
    (within : r.wire.scan + i < r.wire.bytes.length) (absent : lf ∉ (r.wire.bytes.drop r.wire.scan).take i)
    (found : r.wire.bytes[r.wire.scan + i] = lf) :
    ({ r with
      wire := ({ r.wire with scan := r.wire.scan + i + 1 } : Wire).homeJobLine (r.wire.scan + i) } : Reader).Good := by
  have looked := good.lookedOn quiet (by omega) (by omega) absent
  have line_le := good.fits.line_le
  have wider : Wire.Fits { r.wire with scan := r.wire.scan + i + 1 } :=
    ⟨by simp only; omega, by simp only; omega, good.fits.data_le,
      fun event => absurd event (by simp [quiet])⟩
  have lined := @Wire.homeJobLine_lined _ (r.wire.scan + i) wider quiet (by simp only; omega) (by simp only; omega)
  refine
    { fits := lined.fits
      reads := ?_
      unread := ?_
      offered := good.offered }
  on_goal 2 =>
    simp only [lined.unread]
    exact (drop_suffix_drop_left _ (by omega)).trans good.unread
  rcases looked.reads with ⟨lines, reads⟩ | ends
  · refine .inl ⟨lines ++ [(r.wire.bytes.drop r.wire.line).take (r.wire.scan + i - r.wire.line)], ?_⟩
    have unlooked := reads.looked
    simp only at unlooked
    refine ⟨fun rest => ?_, ?_, ?_⟩
    · have parts : r.wire.bytes.drop r.wire.line ++ rest =
          (r.wire.bytes.drop r.wire.line).take (r.wire.scan + i - r.wire.line) ++
            lf :: (r.wire.bytes.drop (r.wire.scan + i + 1) ++ rest) := by
        have start : r.wire.line + (r.wire.scan + i - r.wire.line) = r.wire.scan + i := by omega
        have cut := take_append_drop (r.wire.scan + i - r.wire.line) (r.wire.bytes.drop r.wire.line)
        rw [drop_drop, start, drop_eq_getElem_cons within, found] at cut
        rw [← cons_append, ← append_assoc, cut]
      have split := reads.split rest
      simp only at split
      rw [split, parts, splitOn_append_cons_self_of_not_mem unlooked]
      simp [lined.at_scan, lined.unread]
    · simp [lined.at_scan]
    · rw [foldl_append, reads.state]
      exact (lined.state r.texts).symm
  · have := ends.drained
    simp only at this
    omega

theorem Good.readTurn (good : r.Good) (room : Nat) (parses : Bool) : (r.readTurn room parses).Good := by
  simp only [Reader.readTurn, Wire.homeReadTurn]
  by_cases event : r.wire.event = true
  · cases parses with
    | false => simpa [event, Wire.homeReadEvent] using good
    | true => simpa [event, Wire.homeReadEvent, Wire.data] using good.readEvent event
  have quiet : r.wire.event = false := by simpa using event
  simp only [event, Bool.false_eq_true, if_false]
  by_cases drained : r.wire.bytes.length ≤ r.wire.scan
  · simp only [drained, if_true, Wire.homeDrained]
    by_cases delivered : r.wire.delivered = true
    · simp only [delivered, Bool.not_true, Bool.false_eq_true, if_false]
      by_cases under : r.wire.line < r.wire.scan
      · simpa only [under, if_true] using good.lastLine quiet drained delivered under
      · simp only [under, if_false]
        by_cases none : r.wire.evlen = 0
        · simpa [none] using good
        · simpa [none, delivered] using good.lastEvent quiet drained delivered under none
    · simpa [delivered] using good
  · simp only [drained, if_false, Wire.homeScan]
    by_cases empty : room = 0
    · simpa [empty] using good
    · simp only [empty, if_false]
      cases found : ((r.wire.bytes.drop r.wire.scan).take
          (min (r.wire.bytes.length - r.wire.scan) room)).findIdx? (· == lf) with
      | none =>
        rw [List.findIdx?_eq_none_iff] at found
        simp only
        refine good.lookedOn quiet (by omega) (by omega) fun member => ?_
        exact absurd (found lf member) (by simp)
      | some i =>
        obtain ⟨within, here, before⟩ := List.findIdx?_eq_some_iff_getElem.mp found
        simp only [length_take, length_drop] at within
        simp only [getElem_take, getElem_drop, beq_iff_eq] at here before
        refine good.wholeLine quiet (by omega) (fun member => ?_) here
        obtain ⟨j, bound, same⟩ := getElem_of_mem member
        simp only [length_take, length_drop] at bound
        rw [getElem_take, getElem_drop] at same
        exact before j (by omega) same

theorem Good.write (good : r.Good) (under : r.wire.delivered = false) (data : Bytes)
    (mailbox memory : Bool) : (r.homeJobWrite data mailbox memory).Good := by
  have line_le := good.fits.line_le
  have scan_le := good.fits.scan_le
  simp only [homeJobWrite]
  split
  · exact good
  split
  · exact good
  split
  · refine { fits := good.fits, reads := ?_, unread := good.unread, offered := nofun }
    rcases good.reads with ⟨lines, reads⟩ | ends
    · exact .inl ⟨lines, ⟨reads.split, reads.looked, reads.state⟩⟩
    · exact .inr ⟨ends.delivered, ends.drained, ends.state⟩
  · refine
      { fits := ⟨line_le, ?_, good.fits.data_le, good.fits.event⟩
        reads := ?_
        unread := ?_
        offered := fun goes => congrArg (· ++ data) (good.offered goes) }
    · simp only [length_append]
      omega
    on_goal 2 =>
      obtain ⟨before, whole⟩ := good.unread
      refine ⟨before, ?_⟩
      simp only
      rw [drop_append_of_le_length scan_le, ← append_assoc, whole]
    · rcases good.reads with ⟨lines, reads⟩ | ends
      · refine .inl ⟨lines, ⟨fun rest => ?_, ?_, ?_⟩⟩
        · simp only
          rw [drop_append_of_le_length (by omega), append_assoc, append_assoc]
          exact reads.split (data ++ rest)
        · simp only
          rw [drop_append_of_le_length (by omega), take_append_of_le_length]
          · exact reads.looked
          · rw [length_drop]
            omega
        · rw [reads.state, Wire.state, Wire.state, Wire.data_append good.fits]
      · exact absurd ends.delivered (by simp [under])

theorem Good.deliver (good : r.Good) : ({ r with wire := { r.wire with delivered := true } } : Reader).Good := by
  refine
    { fits := ⟨good.fits.line_le, good.fits.scan_le, good.fits.data_le, good.fits.event⟩
      reads := ?_
      unread := good.unread
      offered := good.offered }
  rcases good.reads with ⟨lines, reads⟩ | ends
  · exact .inl ⟨lines, ⟨reads.split, reads.looked, reads.state⟩⟩
  · exact .inr ⟨rfl, ends.drained, ends.state⟩

theorem Good.step {e : ReadEvent} {t : Reader} (good : r.Good) (step : ReadStep r e t) : t.Good := by
  cases step with
  | write goes under => exact good.write under ..
  | deliver => exact good.deliver
  | turn => exact good.readTurn ..

theorem good_of_run {es : List ReadEvent} (run : Trace ReadStep {} es r) : r.Good :=
  run.invariant good_start fun _ _ _ good step => good.step step

/-! ## The whole of a stream -/

/-- Home reads on with the steps' shares. -/
def readTurns (r : Reader) (turns : List (Nat × Bool)) : Reader :=
  turns.foldl (fun r turn => r.readTurn turn.1 turn.2) r

/-- A turn that the step's shares do not stop. -/
abbrev shared (turn : Nat × Bool) : Bool :=
  0 < turn.1 && turn.2

/-- All has been read: home has got the events of the stream. -/
theorem Good.texts_eq (good : r.Good) (all : r.wire.AllRead) : r.texts = sseEvents r.taken := by
  rw [← good.state all.drained (by simp [all.between])]
  simp [Wire.state, all.quiet, Wire.data_eq_nil all.none, sseClose]

theorem readTurns_allRead (turns : List (Nat × Bool)) (all : r.wire.AllRead) : r.readTurns turns = r := by
  induction turns with
  | nil => rfl
  | cons turn turns ih =>
    have same : r.readTurn turn.1 turn.2 = r := by
      simp only [Reader.readTurn, all.homeReadTurn]
    rw [Reader.readTurns, foldl_cons, same]
    exact ih

/-- What a turn of reading leaves: less to read, or all as it was. -/
theorem Good.readTurn_left (good : r.Good) (room : Nat) (parses : Bool) :
    (r.readTurn room parses).wire.left < r.wire.left ∨ r.readTurn room parses = r ∧
        ((r.wire.homeReadTurn room parses).2 = .over ∨ shared (room, parses) = false ∨ r.wire.delivered = false) := by
  rcases Wire.homeReadTurn_left good.fits room parses with less | ⟨same, reason, silent⟩
  · exact .inl less
  · right
    constructor
    · -- `silent` rules out a text
      simp only [Reader.readTurn, same]
    · rcases reason with all | none | stopped | under
      · exact .inl all
      · exact .inr (.inl (by simp [none]))
      · exact .inr (.inl (by simp [stopped]))
      · exact .inr (.inr under)

theorem readTurn_delivered (r : Reader) (room : Nat) (parses : Bool) :
    (r.readTurn room parses).wire.delivered = r.wire.delivered := by
  simp only [readTurn, Wire.homeReadTurn, Wire.homeReadEvent, Wire.homeDrained, Wire.homeScan]
  split_ifs
  all_goals try split
  all_goals simp only [Wire.homeJobLine_delivered, Wire.consume]

/-- With turns enough that the shares do not stop, a delivered stream is read to its end. -/
theorem Good.readTurns (turns : List (Nat × Bool)) : ∀ {r : Reader}, r.Good →
    r.wire.delivered = true → r.wire.left < turns.countP shared → (r.readTurns turns).texts = sseEvents r.taken := by
  induction turns with
  | nil => exact fun _ _ enough => absurd enough (by simp)
  | cons turn turns ih =>
    intro r good delivered enough
    rcases good.readTurn_left turn.1 turn.2 with less | ⟨same, reason⟩
    · have still := (r.readTurn_delivered turn.1 turn.2).trans delivered
      have most : List.countP shared (turn :: turns) ≤ turns.countP shared + 1 := by
        rw [countP_cons]
        split <;> omega
      exact ih (good.readTurn turn.1 turn.2) still (by simp only; omega)
    · have reads : r.readTurns (turn :: turns) = r.readTurns turns := by
        simp only [Reader.readTurns, foldl_cons, same]
      rcases reason with all | stopped | under
      · have whole := Wire.allRead_of_over all
        rw [readTurns_allRead _ whole]
        exact good.texts_eq whole
      · rw [countP_cons, stopped] at enough
        rw [reads]
        exact ih good delivered (by simpa using enough)
      · simp [delivered] at under

/-- The events of a stream do not depend on how its bytes come, nor on the steps' shares: the texts
got are those of its first events, and of all of them once it is read to its end, which enough turns
do once it has been delivered. A refused write alone has home read less than was offered. -/
theorem streamed_events {es : List ReadEvent} (run : Trace ReadStep {} es r) : r.texts <+: sseEvents r.taken ∧
      (r.wire.delivered = false → ∀ rest, r.texts <+: sseEvents (r.taken ++ rest)) ∧
      (∀ room parses, (r.wire.homeReadTurn room parses).2 = .over → r.texts = sseEvents r.taken) ∧
      (r.wire.delivered = true → ∀ turns : List (Nat × Bool), 8 * r.wire.bytes.length + 6 < turns.countP shared →
          (r.readTurns turns).texts = sseEvents r.taken) ∧ r.wire.bytes.drop r.wire.scan <:+ r.taken ∧
      (r.failed = false → r.taken = r.offered) := by
  have good := good_of_run run
  refine ⟨good.isPrefix_texts, fun under rest => ?_, fun _ _ all => ?_, fun delivered turns enough => ?_,
    good.unread, fun goes => (good.offered goes).symm⟩
  · rcases good.reads with ⟨lines, reads⟩ | ends
    · exact reads.isPrefix_texts rest
    · simp [ends.delivered] at under
  · exact good.texts_eq (Wire.allRead_of_over all)
  · exact good.readTurns turns delivered (r.wire.left_le.trans_lt enough)

/-- A data line cut before its line break, which an empty line follows, delivered whole. -/
def twoWrites : Reader :=
  { wire :=
      { bytes := dataField ++ [120, lf, lf]
        scan := 3
        delivered := true }
    taken := dataField ++ [120, lf, lf]
    offered := dataField ++ [120, lf, lf] }

theorem twoWrites_run : Trace ReadStep {}
    [.write (dataField ++ [120]) false true, .turn 3 true, .write [lf, lf] false true, .deliver] twoWrites := by
  have first : Trace ReadStep {} [.write (dataField ++ [120]) false true]
      (({} : Reader).homeJobWrite (dataField ++ [120]) false true) := .single (.write rfl rfl)
  have second := first.snoc (@ReadStep.turn _ 3 true)
  exact (second.snoc (.write rfl rfl)).snoc .deliver

theorem streamed_events_twoWrites : (twoWrites.readTurns (List.replicate 71 (4, true))).texts =
      sseEvents (dataField ++ [120, lf, lf]) :=
  (streamed_events twoWrites_run).2.2.2.1 rfl _ (by decide)

/-! ## A line too long -/

theorem lf_notMem_replicate (n : Nat) : lf ∉ List.replicate n (120 : UInt8) :=
  fun member => absurd (eq_of_mem_replicate member) (by decide)

theorem lf_notMem_dataField (n : Nat) : lf ∉ dataField ++ List.replicate n 120 := by
  rw [mem_append, not_or]
  exact ⟨by decide, lf_notMem_replicate n⟩

/-- The events of a line of data: its data. -/
theorem sseEvents_dataField (n : Nat) :
    sseEvents (dataField ++ List.replicate (n + 1) 120) = [List.replicate (n + 1) 120] := by
  have trimmed : sseTrim (dataField ++ List.replicate (n + 1) 120) = dataField ++ List.replicate (n + 1) 120 := by
    have last : (120 : UInt8) ≠ cr := by decide
    simp [sseTrim, List.getLast?_append, List.getLast?_replicate, last]
  have data : sseData (dataField ++ List.replicate (n + 1) 120) = List.replicate (n + 1) 120 := by
    have skipped : (dataField ++ List.replicate (n + 1) (120 : UInt8)).drop 5 =
        List.replicate (n + 1) 120 := drop_left' rfl
    have first : (120 : UInt8) ≠ space := by decide
    simp [sseData, skipped, prefix_append, List.head?_replicate, first]
  rw [sseEvents, splitOn_eq_singleton (lf_notMem_dataField _)]
  simp [sseLine, trimmed, data, sseClose]

/-- A line under way, all of it looked at. -/
def atLine (bytes : Bytes) : Reader :=
  { wire := { bytes, scan := bytes.length }
    taken := bytes
    offered := bytes }

/-- A write that fits in and holds no line break, and a turn that looks at it. -/
theorem atLine_write (bytes : Bytes) {more : Bytes} (absent : lf ∉ more) (some : more ≠ [])
    (fits : bytes.length + more.length ≤ maxResponse) :
    Trace ReadStep (atLine bytes) [.write more false true, .turn more.length true] (atLine (bytes ++ more)) := by
  have written : (atLine bytes).homeJobWrite more false true =
      { atLine (bytes ++ more) with wire := { bytes := bytes ++ more, scan := bytes.length } } := by
    simp [homeJobWrite, atLine, some, not_lt.mpr fits, loopStepRecv]
  have looked : Reader.readTurn { atLine (bytes ++ more) with wire := { bytes := bytes ++ more, scan := bytes.length } }
      more.length true = atLine (bytes ++ more) := by
    have none : more.findIdx? (· == lf) = none := by
      rw [List.findIdx?_eq_none_iff]
      intro x member
      rw [beq_eq_false_iff_ne]
      rintro rfl
      exact absent member
    simp [Reader.readTurn, Wire.homeReadTurn, Wire.homeScan, atLine, some, none]
  have first : Trace ReadStep (atLine bytes) [.write more false true] _ := .single (.write rfl rfl)
  have both := first.snoc (@ReadStep.turn _ more.length true)
  rwa [written, looked] at both

/-- A write that does not fit in is refused. -/
theorem atLine_refuse {bytes more : Bytes} (some : more ≠ []) (long : maxResponse < bytes.length + more.length) :
    (atLine bytes).homeJobWrite more false true =
      { wire := { bytes, scan := bytes.length }
        taken := bytes
        offered := bytes ++ more
        failed := true } := by
  simp [homeJobWrite, atLine, some, long, loopStepRecv]

/-- What a write of libcurl gives at most (`CURL_MAX_WRITE_SIZE`), of letters. -/
def letters : Bytes :=
  List.replicate 16384 120

/-- The data line that goes on and on, after `k` more writes. -/
def longLine (k : Nat) : Bytes :=
  dataField ++ List.replicate (16379 + 16384 * k) 120

def longWrites : Nat → List ReadEvent
  | 0 => [.write (longLine 0) false true, .turn (longLine 0).length true]
  | k + 1 => longWrites k ++ [.write letters false true, .turn letters.length true]

theorem letters_length : letters.length = 16384 :=
  length_replicate

theorem longLine_length (k : Nat) : (longLine k).length = 16384 * (k + 1) := by
  simp only [longLine, dataField, length_append, length_cons, length_nil, length_replicate]
  omega

theorem longLine_succ (k : Nat) : longLine (k + 1) = longLine k ++ letters := by
  have longer : 16379 + 16384 * (k + 1) = 16379 + 16384 * k + 16384 := by omega
  rw [longLine, longLine, letters, longer, append_assoc, replicate_append_replicate]

theorem longWrites_run : ∀ k, k ≤ 1023 → Trace ReadStep {} (longWrites k) (atLine (longLine k))
  | 0, _ => by
    have length := longLine_length 0
    have some : longLine 0 ≠ [] := ne_nil_of_length_pos (by omega)
    exact atLine_write [] (lf_notMem_dataField _) some (by rw [length]; decide)
  | k + 1, most => by
    have length := longLine_length k
    have before := longWrites_run k (by omega)
    have fits : (longLine k).length + letters.length ≤ maxResponse := by
      rw [length, letters_length, maxResponse]
      omega
    have some : letters ≠ [] := ne_nil_of_length_pos (by rw [letters_length]; omega)
    rw [longLine_succ]
    exact before.append (atLine_write (longLine k) (lf_notMem_replicate 16384) some fits)

theorem sseEvents_longLine (k : Nat) : sseEvents (longLine k) = [List.replicate (16379 + 16384 * k) 120] := by
  have some : 16379 + 16384 * k = 16378 + 16384 * k + 1 := by omega
  rw [longLine, some]
  exact sseEvents_dataField _

theorem length_eq_of_isPrefix {m n : Nat}
    (first : [List.replicate m (120 : UInt8)] <+: [List.replicate n 120]) : m = n := by
  have data := singleton_inj.mp (first.eq_of_length rfl)
  simpa only [length_replicate] using congrArg List.length data

/-- No turn takes a byte once a write was refused. -/
theorem taken_of_failed {es : List ReadEvent} {t : Reader} (run : Trace ReadStep r es t)
    (failed : r.failed = true) : t.failed = true ∧ t.taken = r.taken := by
  apply run.invariant ⟨failed, rfl⟩
  rintro t e u ⟨still, taken⟩ step
  cases step with
  | write goes => simp [still] at goes
  | deliver | turn => exact ⟨still, taken⟩

/-- A stream with an event too long for the wire is not read as its events, whatever comes then. -/
theorem not_streamed_events : ∃ r, Trace ReadStep {} (longWrites 1023 ++ [.write letters false true]) r ∧
      r.offered = longLine 1024 ∧ ∀ es t, Trace ReadStep r es t → t.texts ≠ sseEvents r.offered := by
  have before := longWrites_run 1023 le_rfl
  have some : letters ≠ [] := ne_nil_of_length_pos (by rw [letters_length]; omega)
  have whole : longLine 1024 = longLine 1023 ++ letters := longLine_succ 1023
  have long : maxResponse < (longLine 1023).length + letters.length := by
    rw [longLine_length, letters_length, maxResponse]
    omega
  have run := before.snoc (@ReadStep.write _ letters false true rfl rfl)
  rw [atLine_refuse some long, ← whole] at run
  refine ⟨_, run, rfl, fun es t more same => ?_⟩
  have good := good_of_run (run.append more)
  have texts := good.isPrefix_texts
  rw [(taken_of_failed more rfl).2, same] at texts
  have first : sseEvents (longLine 1024) <+: sseEvents (longLine 1023) := texts
  rw [sseEvents_longLine, sseEvents_longLine] at first
  have ends := length_eq_of_isPrefix first
  omega

end Reader

end Askai
