import Askai.Home.Calls
import Askai.Util.Characters
import Askai.Util.Json
import Askai.Util.JsonText

/-!
# Delta notifications

The mailbox in which home publishes the text of an answer, and how a front writes it to its client as notifications, in
each step as much as the step's share allows (`home_put_delta` of `home.c`, `mcp_req_delta` of `mcp.c`).
-/

namespace Askai

open Library

/-! ## What home publishes -/

/-- What home's side of the mailbox is about: what the front asks and the buffers. -/
structure DeltaJob where
  stream : Bool
  tools : Bool
  chat : Bool
  journal : Bool
  dropped : Bool
  result : Buf := {}
  thought : Buf := {}
  delta : Buf := {}

/-- Why a piece is refused; a journal's error is what its function returned. -/
inductive DeltaError where
  | eilseq
  | journal (e : Nat)
  | buf (e : BufError)
  deriving DecidableEq

/-- What decides beside a piece: the errors of `home_thought_end` and `home_journal_thought`, if any, and whether there
is memory for the text and for the mailbox. -/
structure DeltaShare where
  ends : Option Nat := none
  keeps : Option Nat := none
  memory : Bool := true
  mailbox : Bool := true

/-- `struct job_delta` and the bytes behind it. -/
structure DeltaPiece where
  thought : Bool
  text : Bytes
  deriving DecidableEq

/-- A piece in the mailbox. -/
def DeltaPiece.bytes (p : DeltaPiece) : Bytes :=
  wordBytes (UInt32.ofNat p.text.length) ++ wordBytes (if p.thought then 1 else 0) ++ p.text

/-- `home_append_text`. -/
def homeAppendText (memory : Bool) (to_ : Buf) (text : Bytes) : Except DeltaError Buf :=
  if jbUtf8 text < text.length then .error .eilseq
  else if text = [] then .ok to_
  else
    match bufReserve memory to_ text.length maxResponse with
    | .error e => .error (.buf e)
    | .ok (buf, _) => .ok (buf.commit text)

/-- `home_put_delta`. -/
def homePutDelta (job : DeltaJob) (memory : Bool) (p : DeltaPiece) : DeltaJob × Option DeltaError :=
  if job.stream = false ∨ job.dropped ∨ p.text = [] then (job, none)
  else if maxResponse < p.text.length then (job, some (.buf .enobufs))
  else
    match bufReserve memory job.delta (8 + p.text.length) (2 * maxResponse) with
    | .error e => (job, some (.buf e))
    | .ok (buf, _) => ({ job with delta := buf.commit p.bytes }, none)

/-- `home_put_text`. -/
def homePutText (job : DeltaJob) (share : DeltaShare) (text : Bytes) : DeltaJob × Option DeltaError :=
  match if text ≠ [] then share.ends else none with
  | some e => (job, some (.journal e))
  | none =>
    match homeAppendText share.memory job.result text with
    | .error e => (job, some e)
    | .ok result => homePutDelta { job with result } share.mailbox ⟨false, text⟩

/-- `home_put_thought`. -/
def homePutThought (job : DeltaJob) (share : DeltaShare) (text : Bytes) : DeltaJob × Option DeltaError :=
  match if job.tools ∧ job.chat then homeAppendText share.memory job.thought text
    else if jbUtf8 text < text.length then .error .eilseq else .ok job.thought with
  | .error e => (job, some e)
  | .ok thought =>
    let job := { job with thought }
    match if text ≠ [] ∧ job.journal then share.keeps else none with
    | some e => (job, some (.journal e))
    | none => homePutDelta job share.mailbox ⟨true, text⟩

/-- A piece of an event, and what decides beside it. -/
abbrev DeltaPut := DeltaPiece × DeltaShare

def DeltaJob.put (job : DeltaJob) (put : DeltaPut) : DeltaJob × Option DeltaError :=
  if put.1.thought then homePutThought job put.2 put.1.text else homePutText job put.2 put.1.text

/-- Pieces one after another, and those that were accepted for a front that streams. -/
def DeltaJob.puts (job : DeltaJob) : List DeltaPut → DeltaJob × List DeltaPiece
  | [] => (job, [])
  | put :: rest => let after := job.put put
    let (last, pieces) := after.1.puts rest
    (last, (if after.2 = none ∧ job.stream ∧ ¬ job.dropped ∧ put.1.text ≠ [] then [put.1] else []) ++ pieces)

/-- The mailbox of some pieces. -/
def deltaBytes (pieces : List DeltaPiece) : Bytes :=
  pieces.flatMap DeltaPiece.bytes

/-- A piece that home publishes: text, and not too much. -/
structure DeltaPiece.Fit (p : DeltaPiece) : Prop where
  some_ : p.text ≠ []
  text : IsUtf8 p.text
  short : p.text.length ≤ maxResponse

theorem deltaBytes_append (l m : List DeltaPiece) : deltaBytes (l ++ m) = deltaBytes l ++ deltaBytes m :=
  List.flatMap_append

theorem deltaBytes_cons (p : DeltaPiece) (l : List DeltaPiece) : deltaBytes (p :: l) = p.bytes ++ deltaBytes l :=
  List.flatMap_cons

theorem DeltaPiece.length_bytes (p : DeltaPiece) : p.bytes.length = 8 + p.text.length := by
  rw [bytes, List.length_append]
  rfl

/-- What a put of `p` leaves of a job whose mailbox has `pieces`: the mailbox with it, if it was accepted. -/
def DeltaJob.Keeps (job : DeltaJob) (pieces : List DeltaPiece) (p : DeltaPiece) (r : DeltaJob × Option DeltaError) :
    Prop :=
  ∃ more, r.1.delta.bytes = deltaBytes (pieces ++ more) ∧ (∀ q ∈ more, q.Fit) ∧
    more = if r.2 = none ∧ job.stream ∧ ¬ job.dropped ∧ p.text ≠ [] then [p] else []

theorem DeltaJob.keeps_error {job k : DeltaJob} {pieces : List DeltaPiece} (has : k.delta.bytes = deltaBytes pieces)
    (p : DeltaPiece) (e : DeltaError) : job.Keeps pieces p (k, some e) := by
  refine ⟨[], by rw [List.append_nil, has], (fun _ among => nomatch among), ?_⟩
  rw [if_neg fun all => nomatch all.1]

theorem homePutDelta_keeps {job k : DeltaJob} {p : DeltaPiece} (text : IsUtf8 p.text) {pieces : List DeltaPiece}
    (has : k.delta.bytes = deltaBytes pieces) (stream : k.stream = job.stream) (dropped : k.dropped = job.dropped)
    (memory : Bool) : job.Keeps pieces p (homePutDelta k memory p) := by
  rw [homePutDelta]
  by_cases skip : k.stream = false ∨ k.dropped ∨ p.text = []
  · rw [if_pos skip]
    refine ⟨[], by rw [List.append_nil, has], (fun _ among => nomatch among), ?_⟩
    rw [if_neg]
    rintro ⟨-, streams, not, some_⟩
    rw [stream, dropped] at skip
    obtain is | is | is := skip
    · rw [is] at streams
      exact nomatch streams
    · exact not is
    · exact some_ is
  · rw [if_neg skip]
    push Not at skip
    by_cases long : maxResponse < p.text.length
    · rw [if_pos long]
      exact DeltaJob.keeps_error has p _
    · rw [if_neg long]
      cases reserved : bufReserve memory k.delta (8 + p.text.length) (2 * maxResponse) with
      | error e => exact DeltaJob.keeps_error has p _
      | ok done =>
        obtain ⟨buf, room⟩ := done
        obtain ⟨same, -, -⟩ := bufReserve_ok reserved
        refine ⟨[p], ?_, ?_, ?_⟩
        · dsimp only
          rw [Buf.commit, same, has, deltaBytes_append, deltaBytes_cons]
          exact congrArg _ (List.append_nil _).symm
        · intro q among
          rw [List.mem_singleton.mp among]
          exact ⟨skip.2.2, text, Nat.not_lt.mp long⟩
        · rw [stream, dropped] at skip
          rw [if_pos ⟨rfl, Bool.eq_true_of_not_eq_false skip.1, skip.2.1, skip.2.2⟩]

theorem isUtf8_of_not_lt {text : Bytes} (whole : ¬ jbUtf8 text < text.length) : IsUtf8 text :=
  isUtf8_iff.mpr (Nat.le_antisymm (jbUtf8_le_length text) (Nat.not_lt.mp whole))

theorem homeAppendText_isUtf8 {memory : Bool} {to_ after : Buf} {text : Bytes}
    (done : homeAppendText memory to_ text = .ok after) : IsUtf8 text := by
  rw [homeAppendText] at done
  split at done
  · exact nomatch done
  · next whole => exact isUtf8_of_not_lt whole

theorem DeltaJob.put_keeps {job : DeltaJob} {pieces : List DeltaPiece} (has : job.delta.bytes = deltaBytes pieces)
    (put : DeltaPut) : job.Keeps pieces put.1 (job.put put) := by
  obtain ⟨⟨thought, text⟩, share⟩ := put
  rw [DeltaJob.put]
  cases thought with
  | false =>
    rw [if_neg Bool.false_ne_true, homePutText]
    split
    · exact keeps_error has _ _
    · split
      · exact keeps_error has _ _
      · next result done => exact homePutDelta_keeps (k := { job with result }) (homeAppendText_isUtf8 done) has rfl rfl _
  | true =>
    rw [if_pos rfl, homePutThought]
    split
    · exact keeps_error has _ _
    · next result done =>
      have whole : IsUtf8 text := by
        split at done
        · exact homeAppendText_isUtf8 done
        · split at done
          · exact nomatch done
          · next whole => exact isUtf8_of_not_lt whole
      dsimp only
      split
      · exact keeps_error (k := { job with thought := result }) has _ _
      · exact homePutDelta_keeps (k := { job with thought := result }) (p := ⟨true, text⟩) whole has rfl rfl _

/-- The mailbox holds the pieces that were accepted, in order. -/
theorem DeltaJob.puts_spec (puts : List DeltaPut) :
    ∀ {k : DeltaJob} {l : List DeltaPiece}, k.delta.bytes = deltaBytes l →
      (k.puts puts).1.delta.bytes = deltaBytes (l ++ (k.puts puts).2) ∧ ∀ p ∈ (k.puts puts).2, p.Fit := by
  induction puts with
  | nil =>
    intro k l has
    exact ⟨by rw [DeltaJob.puts, List.append_nil, has], fun _ among => nomatch among⟩
  | cons put puts ih =>
    intro k l has
    obtain ⟨more, has', fit, is⟩ := DeltaJob.put_keeps has put
    obtain ⟨rest, fits⟩ := ih has'
    rw [DeltaJob.puts]
    dsimp only
    rw [← is]
    refine ⟨by rw [rest, List.append_assoc], fun p among => ?_⟩
    exact (List.mem_append.mp among).elim (fit p) (fits p)

/-! ## What a front writes -/

/-- `MAX_ID`. -/
abbrev maxId : Nat := 1024

/-- `JB_SCALAR_MAX`. -/
abbrev jbScalarMax : Nat := 1024

/-- `DELTA_TEXT`. -/
abbrev deltaText : Nat := 8192

/-- `DELTA_FRAME`. -/
abbrev deltaFrame : Nat := 256

/-- `mcp_id_valid`. -/
def mcpIdValid : Json → Bool
  | .string text => text.length ≤ maxId
  | .number _ => true
  | _ => false

/-- `jb_wire`, of what names a request. json-c escapes a string as `jb_escape` does; the text of a number is the one that
it writes. -/
def jbWire : Json → Bytes
  | .string text => jsonQuoted (jbEscape text)
  | .number text => text
  | _ => []

/-- A JSON value that names a request: one that json-c has read, whose strings are text, and whose numbers are no longer
than `jb_scan` lets through. -/
structure McpId where
  value : Json
  valid : mcpIdValid value = true
  text : ∀ t, value = .string t → IsUtf8 t
  number : ∀ t, value = .number t → JsonNumber t ∧ t.length ≤ jbScalarMax

/-- What is left of a step's share of `LOOP_ESCAPE` and `LOOP_SEND`. -/
structure DeltaRoom where
  escape : Nat
  send : Nat

/-- What a write comes to: whether there is memory for the notification, what the transport returns for it, where
`EAGAIN` is that it took the bytes and is blocked, and its own work of `LOOP_SEND`. -/
inductive DeltaAnswer where
  | enomem
  | failed
  | taken (again : Bool) (work : Nat)

/-- A notification that the transport took, and the share of `LOOP_SEND` that was left when it was begun. -/
structure DeltaNote where
  bytes : Bytes
  room : Nat

/-- What `mcp_req_delta` uses of a request: `delta_at`, `delta_read`, the flags `REQ_BLOCKED`, `REQ_DELTA` and
`REQ_TICK`, and whether its step is queued and it has ended; what the transport took; and how often it posted
`JOB_DRAIN`. -/
structure DeltaReq where
  at_ : Nat := 0
  read : Nat := 0
  blocked : Bool
  delta : Bool := true
  tick : Bool
  ready : Bool := true
  ended : Bool := false
  sent : List DeltaNote := []
  drains : Nat := 0

/-- The pieces of a notification. -/
def deltaNote (id : Bytes) (turn : UInt32) (thought : Bool) (text : Bytes) : Bytes :=
  ascii "data: \x7b\"jsonrpc\":\"2.0\",\"method\":\"notifications/askai/delta\",\"params\":\x7b\"requestId\":" ++
    (id ++ (ascii ",\"turn\":" ++ (utilDecimal turn.toNat ++ (ascii ",\"kind\":\"" ++
      ((if thought then ascii "reasoning" else ascii "text") ++ (ascii "\",\"text\":\"" ++
        (jbEscape text ++ ascii "\"\x7d\x7d\n\n")))))))

section Writing

variable (mailbox id : Bytes) (turn : UInt32)

/-- `mcp_req_abort`. -/
def DeltaReq.abort (req : DeltaReq) : DeltaReq :=
  { req with delta := false, ended := true }

/-- The bytes of the text that a turn of the loop of `mcp_req_delta` takes. -/
def deltaTake (room : DeltaRoom) (text : Bytes) : Nat :=
  utilClip text (min (min room.escape ((room.send - (6 * maxId + deltaFrame)) / 6)) deltaText)

/-- Past `n` bytes of a piece with `len`. -/
def DeltaReq.past (req : DeltaReq) (len n : Nat) : DeltaReq :=
  if req.read + n = len then { req with at_ := req.at_ + (8 + len), read := 0 } else { req with read := req.read + n }

/-- The loop of `mcp_req_delta` from its `k`-th notification of the step on, and what follows it. -/
def mcpReqDeltaFrom (answers : Nat → DeltaAnswer) (k : Nat) (room : DeltaRoom) (req : DeltaReq) : DeltaReq :=
  if _inside : req.at_ < mailbox.length then
    if req.blocked then req
    else
      let len := (readWord (mailbox.drop req.at_)).toNat
      let text := (mailbox.drop (req.at_ + 8 + req.read)).take (len - req.read)
      if _none : deltaTake room text = 0 then { req with ready := true }
      else
        let n := deltaTake room text
        let note := deltaNote id turn (readWord (mailbox.drop (req.at_ + 4)) ≠ 0) (text.take n)
        match answers k with
        | .enomem => req.abort
        | .failed => (req.past len n).abort
        | .taken again work =>
          mcpReqDeltaFrom answers (k + 1) ⟨room.escape - n, room.send - note.length - work⟩
            { req.past len n with sent := req.sent ++ [⟨note, room.send⟩], blocked := again }
  else if req.blocked then req
  else { req with delta := false, drains := req.drains + 1, ready := req.tick }
termination_by (mailbox.length - req.at_, (readWord (mailbox.drop req.at_)).toNat - req.read)
decreasing_by
  rw [DeltaReq.past]
  split
  · apply Prod.Lex.left
    dsimp only
    omega
  · apply Prod.Lex.right
    have few : deltaTake room text ≤ text.length := (utilClip_le _ _).2
    have most : text.length ≤ (readWord (mailbox.drop req.at_)).toNat - req.read := by
      change ((mailbox.drop (req.at_ + 8 + req.read)).take _).length ≤ _
      rw [List.length_take]
      exact Nat.min_le_left _ _
    have some_ : deltaTake room text ≠ 0 := _none
    dsimp only
    change (readWord (mailbox.drop req.at_)).toNat - (req.read + deltaTake room text) < _
    omega

/-- `mcp_req_delta`, where `memory` says whether there is memory for the text of the id. -/
def mcpReqDelta (memory : Bool) (answers : Nat → DeltaAnswer) (room : DeltaRoom) (req : DeltaReq) : DeltaReq :=
  if memory then mcpReqDeltaFrom mailbox id turn answers 0 room req else req.abort

/-- What comes to a request while home waits for its mailbox: its queued step, with a share and what the writes come to;
another write that blocks the transport; that the transport is writable (`mcp_on_writable`); the request's timer
(`mcp_req_timer`); something else that queues its step; and that it ends. -/
inductive DeltaEvent where
  | step (memory : Bool) (room : DeltaRoom) (answers : Nat → DeltaAnswer)
  | block
  | writable
  | timer
  | wake
  | end_

/-- An event. A step without `REQ_DELTA` does other work of the request. -/
def DeltaReq.next (req : DeltaReq) : DeltaEvent → DeltaReq
  | .step memory room answers =>
    if req.ready ∧ req.delta then mcpReqDelta mailbox id turn memory answers room { req with ready := false } else req
  | .block => { req with blocked := true }
  | .writable => { req with blocked := false, tick := true, ready := true }
  | .timer => { req with tick := true, ready := true }
  | .wake => { req with ready := true }
  | .end_ => req.abort

def DeltaReq.run (req : DeltaReq) (events : List DeltaEvent) : DeltaReq :=
  events.foldl (DeltaReq.next mailbox id turn) req

/-- A fresh share. -/
def DeltaRoom.Fresh (room : DeltaRoom) : Prop :=
  4 ≤ room.escape ∧ 6 * maxId + deltaFrame + 24 ≤ room.send

instance (room : DeltaRoom) : Decidable room.Fresh := inferInstanceAs (Decidable (_ ∧ _))

/-- A step of the request with a fresh share and a transport that is not blocked. -/
def DeltaReq.Good (req : DeltaReq) : DeltaEvent → Prop
  | .step _ room _ => req.ready ∧ req.delta ∧ req.blocked = false ∧ room.Fresh
  | _ => False

open Classical in
/-- How many steps of a run are such. -/
noncomputable def goodSteps (req : DeltaReq) : List DeltaEvent → Nat
  | [] => 0
  | e :: events => (if req.Good e then 1 else 0) + goodSteps (req.next mailbox id turn e) events

end Writing

end Askai
