import Mathlib.Data.BitVec
import Mathlib.Data.List.Range
import Mathlib.Logic.Function.Basic

/-!
# The tool calls of a turn

The slots of a turn's calls, from the end of the turn's writing on: `mcp_req_calls_next`,
`mcp_req_call_launch` and `mcp_req_result_write`, with what ends a call and what the journal
answers (`mcp.c`).
-/

namespace Askai.Calls

/-- The calls of an answer (`JOB_CALLS`). -/
abbrev jobCalls : Nat := 16

/-- The bytes of a conversation's upstream request (`UPLOAD_MAX`). -/
abbrev uploadMax : Nat := 16 * 2 ^ 20

/-- The index of a tool in the registry. -/
abbrev ToolId := Nat

/-- The flags of a tool's kind that the launch of a call reads. -/
structure KindFlags where
  /-- `KF_SERIAL` -/
  serial : Bool
  /-- `KF_RERUN` -/
  rerun : Bool
  /-- `KF_AGENDA` -/
  agenda : Bool
  deriving DecidableEq, Repr

/-- A call of the answer. -/
structure AnswerCall where
  /-- The lent tool of its name (`mcp_req_lent_tool`), or none. -/
  tool : Option ToolId
  /-- Its arguments are a JSON object. -/
  args : Bool
  deriving DecidableEq, Repr

/-- The output of a call that ended. -/
structure Output where
  text : String
  failed : Bool
  deriving DecidableEq, Repr

/-- A turn's answer, and what of the request stays as it is while its calls run. -/
structure Answer where
  calls : List AnswerCall
  few : calls.length ≤ jobCalls
  /-- The flags of the tools of the registry. -/
  tools : ToolId → KindFlags
  /-- `REQ_CUT` -/
  cut : Bool
  /-- The request's records go to the journal. -/
  archive : Bool
  /-- The results that a resumed job stored (`saved_tools`). -/
  savedTools : Nat → Option Output

/-- The flags of `mcp_static_tool`: those of `KIND_NONE` for no tool. -/
def Answer.flags (answer : Answer) : Option ToolId → KindFlags
  | some id => answer.tools id
  | none => { serial := false, rerun := false, agenda := false }

/-- A slot of a turn's calls. -/
structure Slot where
  tool : Option ToolId
  /-- Its output, once it has ended (`SLOT_DONE`). -/
  done : Option Output
  deriving DecidableEq, Repr

/-- A slot that `mcp_slot_reset` emptied. -/
def Slot.empty : Slot := { tool := none, done := none }

/-- What the request waits for the journal to store. -/
inductive Write where
  | intent
  | state
  deriving DecidableEq, Repr

/-- Where the request is. -/
inductive Phase where
  | calls
  | result
  | journal (write : Write)
  /-- The turn is submitted. -/
  | call
  /-- What follows the prompt is gone, the turn and its calls with it (`mcp_req_compact`). -/
  | compacted
  /-- The reply is made, or the request gone. -/
  | gone
  deriving DecidableEq, Repr

/-- What happens to the calls of a turn. -/
inductive Event where
  | launched (k : Nat)
  | ended (k : Nat) (output : Output)
  /-- The result of the call is written into the upload, with the output that its slot has. -/
  | written (k : Nat) (output : Option Output)
  | submitted
  | compacted
  | gone
  deriving DecidableEq, Repr

/-- A record of the turn for the journal. -/
inductive Record where
  | toolIntent (index : Nat) (agenda : Bool)
  | toolResult (index : Nat) (output : Output)
  | state
  deriving DecidableEq, Repr

/-- What of a request the calls of a turn read and write. -/
structure Req where
  phase : Phase
  launched : Nat
  part : Nat
  slots : Nat → Slot
  /-- The tool intents made durable in this turn. -/
  intents : BitVec 32
  /-- The bytes of the upload. -/
  upload : Nat
  /-- What the result under way has yet to add to them. -/
  left : Nat
  /-- The step of the request is queued. -/
  ready : Bool
  /-- The records that it put. -/
  records : List Record
  log : List Event

/-- What the start of a call does before it returns. -/
inductive Start where
  /-- The call waits: it ends later. -/
  | runs
  | ends (output : Output)
  /-- It ends the request. -/
  | fails
  /-- It replaces the conversation (`mcp_slot_compact`). -/
  | compacts

/-- How the submission of a turn returns. -/
inductive Submit where
  | ok
  /-- `EFBIG` -/
  | tooBig
  | failed
  deriving DecidableEq, Repr

/-- What a function of the request finds outside what is modelled. -/
structure Chance where
  /-- askai drains. -/
  draining : Bool
  /-- The bytes that the step may add to the upload. -/
  share : Nat
  /-- The bytes that the next result adds. -/
  size : Nat
  /-- The upload has no room for them (`ENOBUFS`). -/
  tight : Bool
  /-- The memory for them is there. -/
  memory : Bool
  /-- `mcp_req_shown` fails. -/
  shown : Bool
  /-- The conversation fills the context (`mcp_req_full`). -/
  full : Bool
  /-- askai compacted since a turn went through (`forced`). -/
  forced : Bool
  /-- `mcp_req_compact` fails. -/
  compact : Bool
  /-- The journal takes the intent. -/
  journal : Bool
  /-- The stored result of the call is valid. -/
  replay : Bool
  start : Start
  submit : Submit
  /-- The journal stored what the request waits for. -/
  stored : Bool
  /-- The request is to become a job first, and does not (`mcp_req_background`). -/
  refused : Bool

section

variable (answer : Answer) (c : Chance) (req : Req)

def Req.say (event : Event) : Req :=
  { req with log := req.log ++ [event] }

/-- The request ends, with an error or its reply. -/
def mcpReqFail : Req :=
  { req with phase := .gone }.say .gone

/-- `mcp_slot_result` of the call in slot `k`, and `mcp_slot_done`: the end of the call. -/
def mcpSlotDone (k : Nat) (output : Output) : Req :=
  let tool := (req.slots k).tool
  let recorded :=
    (answer.savedTools k).isNone && answer.archive && !(answer.flags tool).rerun
  { req with
    slots := Function.update req.slots k { tool, done := some output }
    records := if recorded then req.records ++ [Record.toolResult k output] else req.records
    ready := true }.say (.ended k output)

/-- `mcp_req_slots_drop`. -/
def mcpReqSlotsDrop : Req :=
  { req with
    slots := fun k => if req.part ≤ k ∧ k < req.launched then Slot.empty else req.slots k
    launched := 0 }

/-- `mcp_req_compact`. -/
def mcpReqCompact : Req :=
  if c.compact then mcpReqFail (mcpReqSlotsDrop req)
  else { mcpReqSlotsDrop req with phase := .compacted }.say .compacted

/-- `mcp_req_compact_full`. -/
def mcpReqCompactFull : Req :=
  if c.draining || c.forced then mcpReqFail req else mcpReqCompact c req

/-- `mcp_slot_start`, with what the tool's kind does. -/
def mcpSlotStart (k : Nat) : Req :=
  match c.start with
  | .runs => req
  | .ends output => mcpSlotDone answer req k output
  | .fails => mcpReqFail req
  | .compacts => mcpReqCompact c req

/-- The output of a call whose arguments are no JSON object. -/
def Answer.noArgs : Output :=
  { text :=
      if answer.cut then
        "Your answer reached the output token limit, which cut these arguments short, so the " ++
          "call was not run."
      else "Your arguments were not a JSON object, so the call was not run."
    failed := true }

/-- The end of `mcp_req_call_launch`: the call goes to its tool, unless its result is stored or
its arguments are no JSON object. -/
def mcpReqCallStart (k : Nat) (call : AnswerCall) : Req :=
  let req := { req with
    slots := Function.update req.slots k { req.slots k with tool := call.tool }
    launched := k + 1
    ready := true }.say (.launched k)
  match answer.savedTools k with
  | some output => if c.replay then mcpSlotDone answer req k output else mcpReqFail req
  | none =>
    if call.args then mcpSlotStart answer c req k
    else mcpSlotDone answer req k answer.noArgs

/-- `mcp_req_call_launch`. -/
def mcpReqCallLaunch : Req :=
  let k := req.launched
  match answer.calls[k]? with
  | none => req
  | some call =>
    let flags := answer.flags call.tool
    let waits := req.part < k &&
      (flags.serial || (answer.flags (req.slots (k - 1)).tool).serial)
    let intent := answer.archive && !flags.rerun && !req.intents.getLsbD k &&
      (answer.savedTools k).isNone
    if waits then req
    else if c.draining then mcpReqFail req
    else if intent then
      if c.journal then
        { req with
          records := req.records ++ [.toolIntent k flags.agenda]
          ready := false
          phase := .journal .intent }
      else mcpReqFail req
    else mcpReqCallStart answer c req k call

/-- `mcp_req_result_begin`. -/
def mcpReqResultBegin : Req :=
  { req with left := c.size, phase := .result, ready := true }

/-- `mcp_req_submit`. -/
def mcpReqSubmit : Req :=
  { req with phase := .call }.say .submitted

/-- `mcp_req_turn_submit`, with `mcp_req_checkpoint`. -/
def mcpReqTurnSubmit : Req :=
  if c.draining then mcpReqFail req
  else match c.submit with
    | .ok =>
      if answer.archive then
        { req with
          intents := 0
          records := req.records ++ [.state]
          ready := false
          phase := .journal .state }
      else mcpReqSubmit req
    | .tooBig => mcpReqCompactFull c req
    | .failed => mcpReqFail req

/-- `mcp_req_calls_next`. -/
def mcpReqCallsNext : Req :=
  if req.part = answer.calls.length then
    let req := mcpReqSlotsDrop req
    if c.full then mcpReqCompactFull c req else mcpReqTurnSubmit answer c req
  else if (req.slots req.part).done.isSome then mcpReqResultBegin c req
  else mcpReqCallLaunch answer c { req with phase := .calls }

/-- The end of `mcp_req_result_write`: the result is in the upload. -/
def mcpReqResultEnd : Req :=
  if c.shown then mcpReqFail req
  else
    let k := req.part
    mcpReqCallsNext answer c ({ req with
      slots := Function.update req.slots k Slot.empty
      part := k + 1 }.say (.written k (req.slots k).done))

/-- `mcp_req_result_write`. -/
def mcpReqResultWrite : Req :=
  let n := min req.left c.share
  if c.tight || uploadMax < req.upload + n then mcpReqCompactFull c req
  else if !c.memory then mcpReqFail req
  else
    let req := { req with upload := req.upload + n, left := req.left - n }
    if req.left = 0 then mcpReqResultEnd answer c req else { req with ready := true }

/-- `mcp_req_step`, with the work of the phases of a turn's calls. -/
def mcpReqStep : Req :=
  match req.phase with
  | .calls => mcpReqCallsNext answer c req
  | .result => mcpReqResultWrite answer c req
  | _ => req

/-- `mcp_req_intent_saved`. -/
def mcpReqIntentSaved : Req :=
  if c.stored then
    { req with
      intents := req.intents ||| 1#32 <<< req.launched
      phase := .calls
      ready := true }
  else mcpReqFail req

/-- `mcp_req_archive_submitted`. -/
def mcpReqArchiveSubmitted : Req :=
  if !c.stored || c.draining || c.refused || c.submit != .ok then mcpReqFail req
  else mcpReqSubmit req

/-- The journal answers (`mcp_archive_back`). -/
def mcpArchiveBack : Write → Req
  | .intent => mcpReqIntentSaved c req
  | .state => mcpReqArchiveSubmitted c req

end

/-- The request as `mcp_req_turn_write` has written the turn, before `mcp_req_calls_next`. -/
def Req.fresh (intents : BitVec 32) (upload : Nat) : Req :=
  { phase := .calls
    launched := 0
    part := 0
    slots := fun _ => Slot.empty
    intents
    upload
    left := 0
    ready := false
    records := []
    log := [] }

/-- The end of `mcp_req_turn_write`. -/
def mcpReqTurnWritten (answer : Answer) (c : Chance) (intents : BitVec 32) (upload : Nat) : Req :=
  mcpReqCallsNext answer c (.fresh intents upload)

/-- Who goes on. -/
inductive Move where
  /-- The loop runs the queued step of the request. -/
  | step (c : Chance)
  /-- A call that waits ends. -/
  | ends (k : Nat) (output : Output)
  | stored (c : Chance)
  /-- Something else queues the step: a keep-alive, values to free. -/
  | rouse
  /-- Something else ends the request: its client, a drain, a call. -/
  | gone

/-- The steps of a request while the calls of a turn run, in any order of the calls' ends. -/
inductive Step (answer : Answer) (req : Req) : Move → Req → Prop
  | step (c : Chance) (ready : req.ready = true) :
      Step answer req (.step c) (mcpReqStep answer c { req with ready := false })
  | ends (k : Nat) (output : Output) (written : req.part ≤ k) (launched : k < req.launched)
      (runs : (req.slots k).done = none) :
      Step answer req (.ends k output) (mcpSlotDone answer req k output)
  | stored (c : Chance) {write : Write} (waits : req.phase = .journal write) :
      Step answer req (.stored c) (mcpArchiveBack c req write)
  | rouse : Step answer req .rouse { req with ready := true }
  | gone (goes : req.phase = .calls ∨ req.phase = .result ∨ ∃ write, req.phase = .journal write) :
      Step answer req .gone (mcpReqFail req)

end Askai.Calls
