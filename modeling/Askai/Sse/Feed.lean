import Askai.Library.TextLines
import Askai.Sse.Line

/-!
# The event stream of the client

How the client's parser takes in a stream piece by piece (`sse.c`), with a callback that can fail, and what
the events of the whole stream are.
-/

namespace Askai

open Library List

/-- What `cstr_view_sse_data` returns, of a line so trimmed: none unless it is a data line. -/
def sseField (line : Bytes) : Option Bytes :=
  if dataField <+: line then some (sseData line) else none

/-- `struct sse`, while memory does not run out, and what its callback was given so far. -/
structure Sse (σ : Type*) where
  input : Bytes := []
  data : Bytes := []
  user : σ
  given : List Bytes := []

namespace Sse

variable {σ : Type*} (event : Bytes → σ → Nat × σ)

/-- `sse_dispatch`. -/
def sseDispatch (sse : Sse σ) : Nat × Sse σ :=
  if sse.data.length = 0 then (0, sse)
  else
    let text := sse.data.take (sse.data.length - 1)
    let (e, user) := event text sse.user
    (e, { sse with data := [], user, given := sse.given ++ [text] })

/-- `sse_line`. -/
def sseLine (sse : Sse σ) (line : Bytes) : Nat × Sse σ :=
  let line := sseTrim line
  match sseField line with
  | none => if line.length ≠ 0 then (0, sse) else sseDispatch event sse
  | some data => (0, { sse with data := sse.data ++ data ++ [lf] })

/-- The loop of `sse_feed`: the error, and the rest of the input. -/
def feedLines (sse : Sse σ) (rest : Bytes) : Nat × Sse σ × Bytes :=
  match _cut : cut lf rest with
  | none => (0, sse, rest)
  | some (line, rest) =>
    let (e, sse) := sseLine event sse line
    if e ≠ 0 then (e, sse, rest) else feedLines sse rest
termination_by rest.length
decreasing_by
  have length := cut_length _cut
  omega

/-- `sse_feed`. -/
def sseFeed (sse : Sse σ) (bytes : Bytes) : Nat × Sse σ :=
  let input := sse.input ++ bytes
  let (e, sse, rest) := feedLines event { sse with input } input
  (e, { sse with input := sse.input.drop (input.length - rest.length) })

/-- Calls of `sse_feed` one after the other, whatever they return. -/
def sseFeeds (sse : Sse σ) (pieces : List Bytes) : Sse σ :=
  pieces.foldl (fun sse piece => (sseFeed event sse piece).2) sse

end Sse

/-! ## The events of a stream -/

/-- The events so far, and the data lines of the event under way, after one more line. -/
def readLine (read : List Bytes × List Bytes) (line : Bytes) : List Bytes × List Bytes :=
  let line := sseTrim line
  match sseField line with
  | some data => (read.1, read.2 ++ [data])
  | none =>
    if line ≠ [] then read
    else if read.2 = [] then (read.1, [])
    else (read.1 ++ [[lf].intercalate read.2], [])

def readLines (lines : List Bytes) : List Bytes × List Bytes :=
  lines.foldl readLine ([], [])

/-- The lines of a stream that end. -/
def streamLines (stream : Bytes) : List Bytes :=
  (stream.splitOn lf).dropLast

theorem streamLines_closed {lines : List Bytes} {rest : Bytes} (whole : ∀ line ∈ lines, lf ∉ line)
    (last : lf ∉ rest) : streamLines (closed lf lines ++ rest) = lines := by
  rw [streamLines, splitOn_closed whole last, dropLast_concat]

theorem readLines_concat (lines : List Bytes) (line : Bytes) :
    readLines (lines ++ [line]) = readLine (readLines lines) line := by
  rw [readLines, foldl_append]
  rfl

namespace Sse

variable {σ : Type*} {event : Bytes → σ → Nat × σ} {sse : Sse σ}

/-- What has been read of the stream: lines that ended, and nothing of the input. -/
structure Reading (event : Bytes → σ → Nat × σ) (user : σ) (lines : List Bytes) (sse : Sse σ) : Prop where
  given : sse.given = (readLines lines).1
  data : sse.data = closed lf (readLines lines).2
  user : sse.user = sse.given.foldl (fun u text => (event text u).2) user

variable {user : σ} {lines : List Bytes}

/-- A line that fails is the blank line of an event, which the callback has been given. -/
structure Fails (event : Bytes → σ → Nat × σ) (lines : List Bytes) (blank : Bytes) (e : Nat) : Prop where
  empty : sseTrim blank = []
  given : ∃ text u, (readLines (lines ++ [blank])).1 = (readLines lines).1 ++ [text] ∧ (event text u).1 = e

theorem Reading.line (reading : Reading event user lines sse) (line : Bytes) :
    Reading event user (lines ++ [line]) (sseLine event sse line).2 ∧
      ((sseLine event sse line).1 ≠ 0 → Fails event lines line (sseLine event sse line).1) := by
  obtain ⟨given, data, users⟩ := reading
  have after := readLines_concat lines line
  rw [readLine] at after
  rw [sseLine]
  cases field : sseField (sseTrim line) with
  | some d =>
    rw [field] at after
    refine ⟨⟨?_, ?_, users⟩, fun fails => absurd rfl fails⟩
    · rw [after]
      exact given
    · rw [after]
      change sse.data ++ d ++ [lf] = _
      rw [data, closed_concat]
  | none =>
    rw [field] at after
    dsimp only at after ⊢
    by_cases blank : sseTrim line = []
    · rw [if_neg (not_not.mpr blank)] at after
      rw [if_neg (by rw [blank]; decide), sseDispatch]
      split
      · next none_ =>
        have nothing : (readLines lines).2 = [] := by
          rw [length_eq_zero_iff, data] at none_
          exact closed_eq_nil.mp none_
        rw [if_pos nothing] at after
        refine ⟨⟨?_, ?_, users⟩, fun fails => absurd rfl fails⟩
        · rw [after]
          exact given
        · rw [after, data, nothing]
      · next some_ =>
        have lines_ : (readLines lines).2 ≠ [] := by
          intro nothing
          rw [data, nothing] at some_
          exact some_ rfl
        rw [if_neg lines_] at after
        have text : sse.data.take (sse.data.length - 1) = [lf].intercalate (readLines lines).2 := by
          rw [← dropLast_eq_take, data, dropLast_closed lines_]
        dsimp only
        rw [text]
        refine ⟨⟨?_, ?_, ?_⟩, fun _ => ⟨blank, _, sse.user, by rw [after], rfl⟩⟩
        · rw [after, given]
        · rw [after]
          rfl
        · rw [foldl_append, ← users]
          rfl
    · rw [if_pos blank] at after
      rw [if_pos (fun none_ => blank (length_eq_zero_iff.mp none_))]
      exact ⟨⟨after ▸ given, after ▸ data, users⟩, fun fails => absurd rfl fails⟩

theorem input_sseLine (event : Bytes → σ → Nat × σ) (sse : Sse σ) (line : Bytes) :
    (sseLine event sse line).2.input = sse.input := by
  rw [sseLine]
  split
  · split
    · rfl
    · rw [sseDispatch]
      split <;> rfl
  · rfl

theorem input_feedLines (event : Bytes → σ → Nat × σ) (sse : Sse σ) (rest : Bytes) :
    (sse.feedLines event rest).2.1.input = sse.input := by
  induction length : rest.length using Nat.strong_induction_on generalizing sse rest with
  | _ length ih =>
    subst length
    rw [Sse.feedLines]
    split
    · rfl
    · next line rest' here =>
      have shorter := cut_length here
      dsimp only
      split
      · exact input_sseLine event sse line
      · exact (ih rest'.length (by omega) _ rest' rfl).trans (input_sseLine event sse line)

/-- The lines that a call reads of its input, whatever is left. -/
structure Took (event : Bytes → σ → Nat × σ) (user : σ) (lines : List Bytes) (input : Bytes) (e : Nat)
    (sse : Sse σ) (rest : Bytes) (more : List Bytes) : Prop where
  split : input = closed lf more ++ rest
  whole : ∀ line ∈ more, lf ∉ line
  reading : Reading event user (lines ++ more) sse
  all : e = 0 → lf ∉ rest
  fails : e ≠ 0 → ∃ before blank, more = before ++ [blank] ∧ Fails event (lines ++ before) blank e

theorem Reading.feedLines (reading : Reading event user lines sse) (rest : Bytes) :
    ∃ more, Took event user lines rest (sse.feedLines event rest).1 (sse.feedLines event rest).2.1
      (sse.feedLines event rest).2.2 more := by
  induction length : rest.length using Nat.strong_induction_on generalizing sse lines rest with
  | _ length ih =>
    subst length
    rw [Sse.feedLines]
    split
    · next none_ =>
      refine ⟨[], rfl, nofun, ?_, fun _ => cut_eq_none.mp none_, fun fails => absurd rfl fails⟩
      rw [append_nil]
      exact reading
    · next line rest' here =>
      obtain ⟨rfl, absent⟩ := cut_eq_some.mp here
      obtain ⟨after, fails⟩ := reading.line line
      dsimp only
      split
      · next failed =>
        refine ⟨[line], by simp [closed], fun l member => ?_, after, fun fine => absurd fine failed,
          fun _ => ⟨[], line, rfl, ?_⟩⟩
        · obtain rfl := mem_singleton.mp member
          exact absent
        · rw [append_nil]
          exact fails failed
      · have shorter : rest'.length < (line ++ lf :: rest').length := by
          rw [length_append, length_cons]
          omega
        obtain ⟨more, split, whole, reading', all, fails'⟩ := ih rest'.length shorter after rest' rfl
        refine ⟨line :: more, ?_, ?_, ?_, all, fun failed => ?_⟩
        · rw [closed_cons, append_assoc, ← split, append_assoc, singleton_append]
        · intro l member
          rcases mem_cons.mp member with rfl | later
          · exact absent
          · exact whole l later
        · rwa [append_assoc, singleton_append] at reading'
        · obtain ⟨before, blank, rfl, last⟩ := fails' failed
          refine ⟨line :: before, blank, rfl, ?_⟩
          rwa [append_assoc, singleton_append] at last

/-- After calls, with whatever errors, the stream is the lines read and what is left of the input. -/
structure Fed (event : Bytes → σ → Nat × σ) (user : σ) (stream : Bytes) (sse : Sse σ) (lines : List Bytes) :
    Prop where
  split : stream = closed lf lines ++ sse.input
  whole : ∀ line ∈ lines, lf ∉ line
  reading : Reading event user lines sse

theorem Fed.feed {stream : Bytes} (fed : Fed event user stream sse lines) (piece : Bytes) :
    ∃ more, Fed event user (stream ++ piece) (sseFeed event sse piece).2 (lines ++ more) ∧
      ((sseFeed event sse piece).1 = 0 → lf ∉ (sseFeed event sse piece).2.input) ∧ ((sseFeed event sse piece).1 ≠ 0 →
        ∃ before blank, more = before ++ [blank] ∧ Fails event (lines ++ before) blank (sseFeed event sse piece).1) := by
  obtain ⟨input, inputIs⟩ : ∃ input, input = sse.input ++ piece := ⟨_, rfl⟩
  have start : Reading event user lines { sse with input } :=
    ⟨fed.reading.given, fed.reading.data, fed.reading.user⟩
  obtain ⟨more, took⟩ := start.feedLines input
  have kept := input_feedLines event { sse with input } input
  rw [sseFeed, ← inputIs]
  dsimp only at kept ⊢
  generalize feedLines event { sse with input } input = result at took kept
  obtain ⟨e, after, rest⟩ := result
  dsimp only at took kept ⊢
  have left : after.input.drop (input.length - rest.length) = rest := by
    have length : input.length - rest.length = (closed lf more).length := by
      rw [took.split, length_append, Nat.add_sub_cancel]
    rw [kept, length, took.split, drop_left]
  rw [left]
  refine ⟨more, ⟨?_, fun line member => ?_, took.reading.given, took.reading.data, took.reading.user⟩,
    took.all, took.fails⟩
  · rw [fed.split, append_assoc, ← inputIs, took.split, ← append_assoc]
    congr 1
    exact (closed_append lf lines more).symm
  · exact (mem_append.mp member).elim (fed.whole line) (took.whole line)

theorem fed_start (event : Bytes → σ → Nat × σ) (user : σ) : Fed event user [] { user } [] :=
  ⟨rfl, nofun, rfl, rfl, rfl⟩

theorem Fed.feeds {stream : Bytes} (fed : Fed event user stream sse lines) (pieces : List Bytes) :
    ∃ lines', Fed event user (stream ++ pieces.flatten) (sseFeeds event sse pieces) lines' := by
  induction pieces generalizing sse stream lines with
  | nil =>
    refine ⟨lines, ?_⟩
    rw [flatten_nil, append_nil]
    exact fed
  | cons piece pieces ih =>
    obtain ⟨more, fed', -⟩ := fed.feed piece
    obtain ⟨lines', fed''⟩ := ih fed'
    refine ⟨lines', ?_⟩
    rw [flatten_cons, ← append_assoc]
    exact fed''

/-- The calls of a stream in any pieces: the callback is given the events of the lines read, each once and
in order, and a call stops early only after the blank line of an event that it failed on. -/
theorem sse_pieces (event : Bytes → σ → Nat × σ) (user : σ) (done : List Bytes) (piece : Bytes) :
    ∃ e sse lines, sseFeed event (sseFeeds event { user } done) piece = (e, sse) ∧
      (done ++ [piece]).flatten = closed lf lines ++ sse.input ∧ (∀ line ∈ lines, lf ∉ line) ∧
      sse.given = (readLines lines).1 ∧ sse.user = sse.given.foldl (fun u text => (event text u).2) user ∧
      (e = 0 → lf ∉ sse.input ∧ sse.given = (readLines (streamLines (done ++ [piece]).flatten)).1) ∧
      (e ≠ 0 → ∃ before blank text u, lines = before ++ [blank] ∧ sseTrim blank = [] ∧
        sse.given = (readLines before).1 ++ [text] ∧ (event text u).1 = e) ∧
      ((∀ text u, (event text u).1 = 0) → e = 0) := by
  obtain ⟨lines, fed⟩ := (fed_start event user).feeds done
  rw [nil_append] at fed
  obtain ⟨more, ⟨split, whole, given, -, users⟩, all, fails⟩ := fed.feed piece
  obtain ⟨e, sse, is⟩ : ∃ e sse, sseFeed event (sseFeeds event { user } done) piece = (e, sse) := ⟨_, _, rfl⟩
  rw [is] at split given users all fails
  have stream : done.flatten ++ piece = (done ++ [piece]).flatten := by
    rw [flatten_append, flatten_singleton]
  rw [stream] at split
  refine ⟨e, sse, lines ++ more, is, split, whole, given, users, fun fine => ⟨all fine, ?_⟩, fun failed => ?_,
    fun succeeds => ?_⟩
  · rw [split, streamLines_closed whole (all fine)]
    exact given
  · obtain ⟨before, blank, rfl, empty, text, u, last, error⟩ := fails failed
    rw [append_assoc] at last
    exact ⟨lines ++ before, blank, text, u, (append_assoc _ _ _).symm, empty, given.trans last, error⟩
  · by_contra failed
    obtain ⟨before, blank, -, -, text, u, -, error⟩ := fails failed
    exact failed (error.symm.trans (succeeds text u))

end Sse

end Askai
