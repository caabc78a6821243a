import Askai.Util.Buf
import Askai.Library.Trace
import Mathlib.Tactic

/-!
# The wire of a streamed answer

How home takes in the bytes of an event stream, and reads its lines and its events (`home_receive`,
`home_job_line`, `home_scan`, `home_drained` and `home_read_stream` of `home.c`), and what the
events of the whole stream are.
-/

namespace Askai

open Library

/-- `"data:"`. -/
def dataField : Bytes := [100, 97, 116, 97, 58]

/-- The line that `cstr_view_sse_data` leaves: without the carriage return at its end. -/
def sseTrim (line : Bytes) : Bytes :=
  if line.getLast? = some cr then line.dropLast else line

/-- The data that `cstr_view_sse_data` returns, of a line so trimmed. -/
def sseData (line : Bytes) : Bytes :=
  if dataField <+: line then
    let data := line.drop 5
    if data.head? = some space then data.drop 1 else data
  else []

/-! ## The events of a stream -/

/-- The events so far and the data of the event under way, after one more line. -/
def sseLine (s : List Bytes × Bytes) (line : Bytes) : List Bytes × Bytes :=
  let line := sseTrim line
  let data := sseData line
  if s.2 = [] then (s.1, data)
  else if data = [] then if line = [] then (s.1 ++ [s.2], []) else s
  else (s.1, s.2 ++ lf :: data)

/-- The event under way counts at the end of a stream. -/
def sseClose (s : List Bytes × Bytes) : List Bytes :=
  if s.2 = [] then s.1 else s.1 ++ [s.2]

/-- The data texts of the events of a stream. -/
noncomputable def sseEvents (stream : Bytes) : List Bytes :=
  sseClose ((stream.splitOn lf).foldl sseLine ([], []))

/-! ## The wire -/

/-- The wire of a job's stream, and the offsets into it. -/
structure Wire where
  bytes : Bytes := []
  /-- Where the event's data begins, and its length so far. -/
  ev : Nat := 0
  evlen : Nat := 0
  /-- Where the line read begins. -/
  line : Nat := 0
  /-- How far it has been looked at. -/
  scan : Nat := 0
  /-- `EVENT`: the event under way is whole. -/
  event : Bool := false
  /-- `DELIVERED`: libcurl has delivered the stream whole. -/
  delivered : Bool := false
  deriving DecidableEq, Repr

/-- `memmove`, within a buffer. -/
def memmove (bytes : Bytes) (dest src n : Nat) : Bytes :=
  bytes.take dest ++ (bytes.drop src).take n ++ bytes.drop (dest + n)

namespace Wire

/-- `buf_consume`. -/
def consume (w : Wire) (n : Nat) : Wire :=
  { w with bytes := w.bytes.drop n }

def homeJobLine (w : Wire) (end_ : Nat) : Wire :=
  let line := sseTrim ((w.bytes.drop w.line).take (end_ - w.line))
  let n := (sseData line).length
  let at_ := w.line + (line.length - n)
  let w := { w with line := w.scan }
  if w.evlen = 0 then
    let w := { w with ev := at_, evlen := n }
    if n ≠ 0 then w else { w.consume w.line with line := 0, scan := 0 }
  else if n = 0 then { w with event := w.event || line.length == 0 }
  else
    let bytes := w.bytes.set (w.ev + w.evlen) lf
    let evlen := w.evlen + 1
    { w with bytes := memmove bytes (w.ev + evlen) at_ n, evlen := evlen + n }

/-- What a turn of `home_read_stream` came to. -/
inductive Turn where
  /-- It goes on. -/
  | more
  /-- An event was read: its data. -/
  | text (data : Bytes)
  /-- The step's share ran out (`EAGAIN`). -/
  | again
  /-- There is nothing more to read for now (`ENODATA`). -/
  | nothing
  /-- All of the stream has been read. -/
  | over
  deriving DecidableEq, Repr

/-- `home_scan`, of a wire that has not all been looked at, with the step's share of parsing. -/
def homeScan (w : Wire) (room : Nat) : Wire × Turn :=
  if room = 0 then (w, .again)
  else
    let n := min (w.bytes.length - w.scan) room
    match ((w.bytes.drop w.scan).take n).findIdx? (· == lf) with
    | none => ({ w with scan := w.scan + n }, .more)
    | some i => (homeJobLine { w with scan := w.scan + i + 1 } (w.scan + i), .more)

def homeDrained (w : Wire) : Wire × Turn :=
  if !w.delivered then (w, .nothing)
  else if w.line < w.scan then (w.homeJobLine w.scan, .more)
  else if w.evlen ≠ 0 then ({ w with event := true }, .more)
  else (w, .over)

/-- `home_read_event`, of an event whose parse the step's share allows or not. -/
def homeReadEvent (w : Wire) (parses : Bool) : Wire × Turn :=
  if !parses then (w, .again)
  else
    ({ w.consume w.line with ev := 0, evlen := 0, line := 0, scan := 0, event := false },
      .text ((w.bytes.drop w.ev).take w.evlen))

/-- One turn of the loop of `home_read_stream`. -/
def homeReadTurn (w : Wire) (room : Nat) (parses : Bool) : Wire × Turn :=
  if w.event then w.homeReadEvent parses
  else if w.bytes.length ≤ w.scan then w.homeDrained
  else w.homeScan room

end Wire

/-- A stream as home reads it. -/
structure Reader where
  wire : Wire := {}
  /-- The bytes that `home_job_write` has taken. -/
  taken : Bytes := []
  /-- The bytes that libcurl has had it take, or refuse. -/
  offered : Bytes := []
  /-- A write was refused, which fails the transfer. -/
  failed : Bool := false
  /-- The data texts that `home_read_event` got. -/
  texts : List Bytes := []

/-- The most unread bytes of a stream before it is held back (`LOOP_STEP_RECV`). -/
abbrev loopStepRecv : Nat := 64 * 1024

namespace Reader

/-- `home_job_write`, of a stream: the mailbox may hold it back, and the memory for it be short. -/
def homeJobWrite (r : Reader) (data : Bytes) (mailbox memory : Bool) : Reader :=
  if data = [] then r
  else if mailbox || loopStepRecv ≤ r.wire.bytes.length - r.wire.scan then r
  else if maxResponse < r.wire.bytes.length + data.length || !memory then
    { r with offered := r.offered ++ data, failed := true }
  else
    { r with
      wire := { r.wire with bytes := r.wire.bytes ++ data }
      taken := r.taken ++ data
      offered := r.offered ++ data }

/-- What a turn of `home_read_stream` leaves. -/
def readTurn (r : Reader) (room : Nat) (parses : Bool) : Reader :=
  let turn := r.wire.homeReadTurn room parses
  { r with
    wire := turn.1
    texts := match turn.2 with
      | .text data => r.texts ++ [data]
      | _ => r.texts }

end Reader

inductive ReadEvent where
  | write (data : Bytes) (mailbox memory : Bool)
  /-- The transfer ended, and what it gave is to be read (`home_job_done`). -/
  | deliver
  | turn (room : Nat) (parses : Bool)

/-- The writes of libcurl and the turns of home, in any order. -/
inductive ReadStep (r : Reader) : ReadEvent → Reader → Prop
  | write {data mailbox memory} (goes : r.failed = false) (under : r.wire.delivered = false) :
      ReadStep r (.write data mailbox memory) (r.homeJobWrite data mailbox memory)
  | deliver :
      ReadStep r .deliver { r with wire := { r.wire with delivered := true } }
  | turn {room parses} : ReadStep r (.turn room parses) (r.readTurn room parses)

end Askai

/-!
# One line of a stream

What `home_job_line` does to the wire is what one more line does to the events: the joining in
place moves no byte of a later line.
-/

namespace Askai

open Library

theorem isPrefix_sseTrim (line : Bytes) : sseTrim line <+: line := by
  unfold sseTrim
  split
  · exact List.dropLast_prefix line
  · exact List.prefix_rfl

theorem sseData_suffix (line : Bytes) : sseData line <:+ line := by
  simp only [sseData]
  split
  · split
    · rw [List.drop_drop]
      exact List.drop_suffix ..
    · exact List.drop_suffix ..
  · exact List.nil_suffix

/-- Data comes after its field's name. -/
theorem sseData_length {line : Bytes} (data : sseData line ≠ []) : (sseData line).length + 5 ≤ line.length := by
  simp only [sseData] at data ⊢
  split
  · rename_i field
    have long := field.length_le
    simp only [dataField, List.length_cons, List.length_nil] at long
    split <;> simp only [List.length_drop] <;> omega
  · rename_i field
    simp [field] at data

/-- The event that a line ends is the one that the end of the stream would end. -/
theorem sseClose_blank (s : List Bytes × Bytes) : sseClose (sseLine s []) = sseClose s := by
  by_cases empty : s.2 = []
  · simp [sseLine, sseClose, sseTrim, sseData, empty, dataField]
  · simp [sseLine, sseClose, sseTrim, sseData, empty, dataField]

theorem isPrefix_sseLine (s : List Bytes × Bytes) (line : Bytes) : s.1 <+: (sseLine s line).1 := by
  simp only [sseLine]
  split
  · exact List.prefix_rfl
  split
  · split
    · exact List.prefix_append ..
    · exact List.prefix_rfl
  · exact List.prefix_rfl

theorem isPrefix_sseClose (s : List Bytes × Bytes) : s.1 <+: sseClose s := by
  unfold sseClose
  split
  · exact List.prefix_rfl
  · exact List.prefix_append ..

/-- The events of a stream begin with those of its first lines. -/
theorem isPrefix_foldl_sseLine (lines : List Bytes) : ∀ s : List Bytes × Bytes, s.1 <+: (lines.foldl sseLine s).1 := by
  induction lines with
  | nil => exact fun s => List.prefix_rfl
  | cons line lines ih => exact fun s => (isPrefix_sseLine s line).trans (ih _)

namespace Wire

/-- The data of the event under way. -/
def data (w : Wire) : Bytes :=
  (w.bytes.drop w.ev).take w.evlen

/-- The events of what has been read, if the texts were got before. -/
def state (w : Wire) (texts : List Bytes) : List Bytes × Bytes :=
  if w.event then (texts ++ [w.data], []) else (texts, w.data)

/-- The offsets of a wire are in order. -/
structure Fits (w : Wire) : Prop where
  line_le : w.line ≤ w.scan
  scan_le : w.scan ≤ w.bytes.length
  data_le : w.evlen ≠ 0 → w.ev + w.evlen ≤ w.line
  event : w.event = true → w.evlen ≠ 0 ∧ w.line = w.scan

variable {w : Wire}

theorem data_eq_nil (none : w.evlen = 0) : w.data = [] := by
  rw [data, none, List.take_zero]

theorem Fits.data_length (fits : w.Fits) : w.data.length = w.evlen := by
  by_cases none : w.evlen = 0
  · rw [data_eq_nil none, none, List.length_nil]
  · have := fits.data_le none
    have := fits.line_le
    have := fits.scan_le
    rw [data, List.length_take, List.length_drop]
    omega

theorem Fits.data_ne_nil (fits : w.Fits) (some : w.evlen ≠ 0) : w.data ≠ [] := by
  rw [← List.length_pos_iff, fits.data_length]
  omega

/-- What a data line says is where `home_job_line` finds it. -/
theorem sseData_eq_take (bytes : Bytes) (line m : Nat) :
    let trimmed := sseTrim ((bytes.drop line).take m)
    let n := (sseData trimmed).length
    sseData trimmed = (bytes.drop (line + (trimmed.length - n))).take n := by
  intro trimmed n
  have trimmed_eq : trimmed = (bytes.drop line).take trimmed.length := by
    have whole := (isPrefix_sseTrim ((bytes.drop line).take m)).trans ( List.take_prefix ..)
    exact List.prefix_iff_eq_take.mp whole
  have le : n ≤ trimmed.length := (sseData_suffix trimmed).length_le
  calc
    sseData trimmed = trimmed.drop (trimmed.length - n) :=
      List.suffix_iff_eq_drop.mp (sseData_suffix trimmed)
    _ = ((bytes.drop line).take trimmed.length).drop (trimmed.length - n) := by
      rw [← trimmed_eq]
    _ = (bytes.drop (line + (trimmed.length - n))).take n := by
      rw [List.drop_take, List.drop_drop]
      congr 1
      omega

/-! ## The joining in place -/

/-- A line break and `n` later bytes join the bytes up to `p`. -/
theorem take_memmove {bytes : Bytes} {p at_ n : Nat} (before : p < at_) (within : at_ + n ≤ bytes.length) :
    (memmove (bytes.set p lf) (p + 1) at_ n).take (p + 1 + n) = bytes.take p ++ lf :: (bytes.drop at_).take n := by
  have source : (bytes.set p lf).drop at_ = bytes.drop at_ := List.drop_set_of_lt before
  have front : (bytes.set p lf).take (p + 1) = bytes.take p ++ [lf] := by
    rw [List.take_succ_eq_append_getElem (by rw [List.length_set]; omega), List.take_set_of_le le_rfl,
      List.getElem_set_self]
  have long : ((bytes.set p lf).take (p + 1) ++ (bytes.drop at_).take n).length = p + 1 + n := by
    simp only [List.length_append, List.length_take, List.length_set, List.length_drop]
    omega
  rw [memmove, source, List.take_append_of_le_length long.ge, List.take_of_length_le long.le, front]
  simp

/-- The bytes that come after what is joined stay. -/
theorem drop_memmove {bytes : Bytes} {p at_ n scan : Nat} (before : p < at_)
    (within : at_ + n ≤ bytes.length) (behind : at_ + n ≤ scan) :
    (memmove (bytes.set p lf) (p + 1) at_ n).drop scan = bytes.drop scan := by
  have long : ((bytes.set p lf).take (p + 1) ++ ((bytes.set p lf).drop at_).take n).length = p + 1 + n := by
    simp only [List.length_append, List.length_take, List.length_set, List.length_drop]
    omega
  obtain ⟨k, rfl⟩ := Nat.exists_eq_add_of_le (show p + 1 + n ≤ scan by omega)
  rw [memmove, List.drop_append, long, List.drop_of_length_le (by omega), List.nil_append,
    Nat.add_sub_cancel_left, List.drop_drop, List.drop_set_of_lt (by omega)]

theorem length_memmove {bytes : Bytes} {p at_ n : Nat} (before : p < at_) (within : at_ + n ≤ bytes.length) :
    (memmove (bytes.set p lf) (p + 1) at_ n).length = bytes.length := by
  simp only [memmove, List.length_append, List.length_take, List.length_set, List.length_drop]
  omega

/-! ## The line -/

/-- What `home_job_line` leaves: the events with one more line, and the bytes not looked at. -/
structure Lined (w t : Wire) (line : Bytes) : Prop where
  fits : t.Fits
  at_scan : t.line = t.scan
  unread : t.bytes.drop t.scan = w.bytes.drop w.scan
  delivered : t.delivered = w.delivered
  state : ∀ texts, t.state texts = sseLine (w.state texts) line

theorem homeJobLine_lined {end_ : Nat} (fits : w.Fits) (quiet : w.event = false)
    (line_le : w.line ≤ end_) (end_le : end_ ≤ w.scan) :
    w.Lined (w.homeJobLine end_) ((w.bytes.drop w.line).take (end_ - w.line)) := by
  have scan_le := fits.scan_le
  have found := sseData_eq_take w.bytes w.line (end_ - w.line)
  have data_length := @sseData_length (sseTrim ((w.bytes.drop w.line).take (end_ - w.line)))
  have trim_length := (isPrefix_sseTrim ((w.bytes.drop w.line).take (end_ - w.line))).length_le
  rw [List.length_take, List.length_drop] at trim_length
  simp only [homeJobLine]
  set line := (w.bytes.drop w.line).take (end_ - w.line) with line_eq
  set trimmed := sseTrim line with trimmed_eq
  set n := (sseData trimmed).length with n_eq
  have before : w.state = fun texts => (texts, w.data) := by
    funext texts
    simp [state, quiet]
  have data_nil : n = 0 ↔ sseData trimmed = [] := by rw [n_eq, List.length_eq_zero_iff]
  by_cases none : w.evlen = 0
  · have no_data := data_eq_nil none
    have stepped (texts : List Bytes) : sseLine (w.state texts) line = (texts, sseData trimmed) := by
      simp [before, sseLine, no_data, ← trimmed_eq]
    by_cases empty : n = 0
    · simp only [none, empty, if_true, ne_eq, not_true_eq_false, if_false]
      refine
        { fits := ⟨le_rfl, Nat.zero_le _, fun some => absurd rfl some, ?_⟩
          at_scan := rfl
          unread := by simp [consume]
          delivered := rfl
          state := fun texts => ?_ }
      · simp [consume, quiet]
      · rw [stepped]
        simp [state, consume, quiet, data, data_nil.mp empty]
    · simp only [none, empty, if_true, ne_eq, not_false_eq_true]
      have long := data_length fun nil => empty (data_nil.mpr nil)
      refine
        { fits := ⟨le_rfl, scan_le, fun _ => ?_, fun event => absurd event (by simp [quiet])⟩
          at_scan := rfl
          unread := rfl
          delivered := rfl
          state := fun texts => ?_ }
      · simp only
        omega
      · rw [stepped]
        simp only [state, quiet, Bool.false_eq_true, if_false, data]
        rw [← found]
  · have data_le := fits.data_le none
    have some_data := fits.data_ne_nil none
    by_cases empty : n = 0
    · simp only [none, empty, if_false, if_true]
      refine
        { fits := ⟨le_rfl, scan_le, fun _ => ?_, fun _ => ⟨none, rfl⟩⟩
          at_scan := rfl
          unread := rfl
          delivered := rfl
          state := fun texts => ?_ }
      · exact data_le.trans fits.line_le
      · have no_data := data_nil.mp empty
        simp only [before, sseLine, some_data, if_false, ← trimmed_eq, no_data, if_true]
        by_cases blank : trimmed = []
        · simp [state, quiet, blank, data]
        · have filled : trimmed.length ≠ 0 := by rwa [ne_eq, List.length_eq_zero_iff]
          simp [state, quiet, blank, data]
    · simp only [none, empty, if_false]
      have long := data_length fun nil => empty (data_nil.mpr nil)
      have ahead : w.ev + w.evlen < w.line + (trimmed.length - n) := by omega
      have within : w.line + (trimmed.length - n) + n ≤ w.bytes.length := by omega
      have joined := take_memmove ahead within
      have length := length_memmove ahead within
      have unread := drop_memmove ahead within (show w.line + (trimmed.length - n) + n ≤ w.scan by omega)
      simp only [← Nat.add_assoc]
      refine
        { fits := ⟨le_rfl, ?_, fun _ => ?_, fun event => absurd event (by simp [quiet])⟩
          at_scan := rfl
          unread
          delivered := rfl
          state := fun texts => ?_ }
      · simp only
        rw [length]
        exact scan_le
      · simp only
        omega
      · have no_nil : sseData trimmed ≠ [] := fun nil => empty (data_nil.mpr nil)
        have shown : w.data = (w.bytes.take (w.ev + w.evlen)).drop w.ev := by
          rw [List.drop_take, Nat.add_sub_cancel_left, data]
        have start : w.ev ≤ (w.bytes.take (w.ev + w.evlen)).length := by
          rw [List.length_take]
          omega
        have stepped : sseLine (w.state texts) line = (texts, w.data ++ lf :: sseData trimmed) := by
          simp only [before, sseLine, some_data, if_false, ← trimmed_eq, no_nil]
        have ends : w.evlen + 1 + n = w.ev + w.evlen + 1 + n - w.ev := by omega
        rw [stepped]
        simp only [state, quiet, Bool.false_eq_true, if_false, Prod.mk.injEq, true_and]
        rw [data, ends, ← List.drop_take, joined, List.drop_append_of_le_length start, ← shown, ← found]

end Wire

end Askai
