import Askai.Home.Breaker
import Askai.Util.Text
import Askai.Web.Cache

/-!
# Web requests

The requests that home sends for calls, the replies that the waits and the table share, and the steps of
the threads that use them (`web.c`). What a thread does with the mutex locked is one step.
-/

namespace Askai

open Library

/-- `WEB_RUNS`. -/
abbrev webRuns : Nat := 64

/-- `WEB_BUCKETS`. -/
abbrev webBuckets : Nat := 4096

/-- Why a request failed. -/
inductive WebErrno where
  | efbig
  | enomem
  | etimedout
  | eio
  | ecanceled
  | eshutdown
  deriving DecidableEq

/-- `struct web_reply`. -/
structure WebReply where
  body : Bytes := []
  type : Bytes := []
  error : Bytes := []
  received : Nat := 0
  refs : Nat := 0
  status : Nat := 0
  retry : Nat := 0
  /-- None for 0. -/
  e : Option WebErrno := none
  freed : Bool := false

/-- `reply->size`. -/
def WebReply.size (reply : WebReply) : Nat :=
  56 + reply.type.length + 1 + reply.error.length + 1 + reply.body.length

/-- `struct web_response`, as far as a run's end gives it. -/
structure WebResponse where
  type : Bytes := []
  error : Bytes
  status : Nat := 0
  retry : Nat := 0
  e : Option WebErrno

/-- `struct web_run`. -/
structure WebRun where
  key : WebKey
  hash : Nat
  keep : Nat
  most : Nat
  timeout : Nat
  body : Bytes := []
  fault : Option WebErrno := none
  waits : List Nat := []
  /-- What curl has given the run. -/
  given : Bytes := []

/-- What curl says of the end of a transfer. -/
inductive CurlResult where
  | ok
  | timedOut
  | failed
  deriving DecidableEq

/-- `web_run_write`, where `memory` says whether the body's block could grow: the run and the bytes taken. -/
def WebRun.write (run : WebRun) (data : Bytes) (memory : Bool) : WebRun × Nat :=
  let run := { run with given := run.given ++ data }
  if data = [] then (run, 0)
  else if run.key.max - run.body.length < data.length then ({ run with fault := some .efbig }, 0)
  else if memory = false then ({ run with fault := some .enomem }, 0)
  else ({ run with body := run.body ++ data }, data.length)

/-- `no_memory`. -/
def webNoMemory : Bytes :=
  ascii "askai ran out of memory."

/-- `web_run_done`, up to the end of the run. -/
def WebRun.done (run : WebRun) (result : CurlResult) (status retry : Int) (type error strerror : Bytes) : WebResponse :=
  let (e, said) : Option WebErrno × Bytes :=
    match run.fault with
    | some .efbig =>
      (some .efbig, ascii "The response body is longer than " ++ utilDecimal run.key.max ++ ascii " bytes.")
    | some .enomem => (some .enomem, webNoMemory)
    | some .etimedout =>
      (some .etimedout, ascii "The request took longer than " ++ utilDecimal run.timeout ++ ascii " s.")
    | fault =>
      if result = .ok then (fault, [])
      else (some (if result = .timedOut then .etimedout else .eio), if error ≠ [] then error else strerror)
  { type := type
    error := said
    status := if 0 < status ∧ status < 1000 then status.toNat else 0
    retry := if 0 < retry ∧ retry < 2 ^ 32 then retry.toNat else 0
    e := e }

/-- The reply that `web_reply_create` makes at the time `clock`. -/
def WebRun.reply (run : WebRun) (response : WebResponse) (clock : Nat) : WebReply :=
  { body := if response.e ≠ none then [] else run.body
    type := response.type
    error := response.error
    received := clock
    refs := 1
    status := response.status
    retry := response.retry
    e := response.e }

/-- `struct web_wait`. -/
structure WebWait where
  run : Option Nat := none
  reply : Option Nat := none
  /-- Home has posted it. -/
  posted : Bool := false
  done : Bool := false

/-- The service and what the threads have of it: each run, reply, entry and wait has a number of its own. -/
structure WebWorld where
  cache : WebCache
  replies : Nat → WebReply
  runs : Nat → WebRun
  waits : Nat → WebWait
  /-- How many were made. -/
  nReplies : Nat := 0
  nEntries : Nat := 0
  nRuns : Nat := 0
  nWaits : Nat := 0
  /-- The runs under way, which `web->n_runs` counts. -/
  under : List Nat := []
  /-- `web->runs`. -/
  shared : List Nat := []
  /-- The waits not freed. -/
  live : List Nat := []
  /-- The entries out of the table that are not freed. -/
  gone : List Nat := []
  /-- The reply of the run that home ends, and the waits that it has yet to post. -/
  ending : Option (Option Nat × List Nat) := none

namespace WebWorld

/-- `web_entry_bytes`. -/
def entryBytes (w : WebWorld) (x : Nat) : Nat :=
  72 + (w.cache.entries x).key.data.length + (w.replies (w.cache.entries x).reply).size

/-- `web_reply_get`. -/
def get (replies : Nat → WebReply) (r : Nat) : Nat → WebReply :=
  Function.update replies r { replies r with refs := (replies r).refs + 1 }

/-- `web_reply_put`. -/
def put (replies : Nat → WebReply) (r : Nat) : Nat → WebReply :=
  Function.update replies r
    { replies r with refs := (replies r).refs - 1, freed := (replies r).freed || (replies r).refs == 1 }

/-- A reference that may be none. -/
def take (use : (Nat → WebReply) → Nat → Nat → WebReply) (replies : Nat → WebReply) (r : Option Nat) : Nat → WebReply :=
  match r with
  | some r => use replies r
  | none => replies

/-! ## The client loops -/

/-- `web_find_run`. -/
def findRun (w : WebWorld) (hash timeout : Nat) (key : WebKey) : Option Nat :=
  w.shared.find? fun run =>
    (w.runs run).hash = hash ∧ (w.runs run).timeout = timeout ∧ (w.runs run).key = key

/-- The stored response that a request can have. -/
def hit (hash : WebKey → Nat) (w : WebWorld) (key : WebKey) (keep now : Nat) : Option Nat :=
  if keep = 0 then none
  else (w.cache.find (hash key) key).filter fun x =>
    now < ((w.replies (w.cache.entries x).reply).received + keep * Home.ns) % 2 ^ 64

/-- A wait in memory. -/
def addWait (w : WebWorld) (wait : WebWait) : WebWorld :=
  { w with
    waits := Function.update w.waits w.nWaits wait
    nWaits := w.nWaits + 1
    live := w.live ++ [w.nWaits] }

/-- The new wait is on the list of the run. -/
def await (w : WebWorld) (run keep : Nat) : WebWorld :=
  let record := w.runs run
  let joined := { record with waits := record.waits ++ [w.nWaits], most := max record.most keep }
  { w.addWait { run := some run } with runs := Function.update w.runs run joined }

/-- `web_wait_create` of a request whose key is `key`: none for `EAGAIN`, else the wait. -/
def ask (hash : WebKey → Nat) (w : WebWorld) (key : WebKey) (keep timeout now : Nat) : WebWorld × Option Nat :=
  match w.hit hash key keep now with
  | some x =>
    let reply := (w.cache.entries x).reply
    ({ w.addWait { reply := some reply, done := true } with replies := get w.replies reply }, some w.nWaits)
  | none =>
    match if keep = 0 then none else w.findRun (hash key) timeout key with
    | some run => (w.await run keep, some w.nWaits)
    | none =>
      if webRuns ≤ w.under.length then (w, none)
      else
        let run := w.nRuns
        let record : WebRun := { key, hash := hash key, keep, most := keep, timeout }
        let fresh :=
          { w with
            runs := Function.update w.runs run record
            nRuns := run + 1
            under := w.under ++ [run]
            shared := if keep = 0 then w.shared else w.shared ++ [run] }
        (fresh.await run keep, some w.nWaits)

/-- `web_wait_mail`. -/
def mail (w : WebWorld) (wait : Nat) : WebWorld :=
  { w with waits := Function.update w.waits wait { w.waits wait with done := true } }

/-- `web_wait_leave`. -/
def leave (w : WebWorld) (wait : Nat) : WebWorld :=
  if (w.waits wait).done then
    { w with replies := take put w.replies (w.waits wait).reply, live := w.live.erase wait }
  else
    match (w.waits wait).run with
    | some run =>
      let record := w.runs run
      { w with
        runs := Function.update w.runs run { record with waits := record.waits.erase wait }
        live := w.live.erase wait }
    | none => w

/-! ## Home -/

/-- The reply that `web_reply_create` makes, if there is memory for it. -/
def addReply (w : WebWorld) (reply : WebReply) : WebWorld :=
  { w with replies := Function.update w.replies w.nReplies reply, nReplies := w.nReplies + 1 }

/-- Whether `web_run_end` stores the reply. -/
def stores (run : WebRun) (reply : WebReply) : Bool :=
  run.keep ≠ 0 ∧ reply.e = none ∧ 200 ≤ reply.status ∧ reply.status < 300 ∧
    72 + run.key.data.length + reply.size ≤ webCacheMax / 4

/-- The entry that `web_run_end` makes of the run and a reply, in memory. -/
def addEntry (w : WebWorld) (run : WebRun) (r : Nat) : WebWorld :=
  let entry : WebEntry :=
    { node := { hash := run.hash }
      reply := r
      expires := ((w.replies r).received + run.most * Home.ns) % 2 ^ 64
      key := run.key }
  { w with
    replies := get w.replies r
    cache := { w.cache with entries := Function.update w.cache.entries w.nEntries entry }
    nEntries := w.nEntries + 1 }

/-- `web_keep` of an entry in memory. -/
def keep (w : WebWorld) (x : Nat) : WebWorld :=
  let (cache, gone) := w.cache.keep w.entryBytes x
  { w with cache := cache, gone := gone ++ w.gone }

/-- The run is no longer under way, and its waits are home's to post. -/
def close (w : WebWorld) (run : Nat) (reply : Option Nat) : WebWorld :=
  let record := w.runs run
  { w with
    under := w.under.erase run
    shared := w.shared.erase run
    waits := fun v => if v ∈ record.waits then { w.waits v with run := none } else w.waits v
    runs := Function.update w.runs run { record with body := [], waits := [] }
    ending := some (reply, record.waits) }

/-- `web_run_end`, up to the posts: `memory` says whether there is memory for the reply, and for the
entry. -/
def runEnd (w : WebWorld) (run : Nat) (response : WebResponse) (clock : Nat) (memory : Bool × Bool) : WebWorld :=
  if memory.1 = false then w.close run none
  else
    let reply := (w.runs run).reply response clock
    let v := w.addReply reply
    if stores (w.runs run) reply = true ∧ memory.2 = true then
      ((v.addEntry (w.runs run) w.nReplies).keep w.nEntries).close run (some w.nReplies)
    else v.close run (some w.nReplies)

/-- Home posts the next wait. -/
def give (w : WebWorld) (reply : Option Nat) (wait : Nat) (rest : List Nat) : WebWorld :=
  { w with
    replies := take get w.replies reply
    waits := Function.update w.waits wait { w.waits wait with reply := reply, posted := true }
    ending := some (reply, rest) }

/-- Home's own reference goes. -/
def finish (w : WebWorld) (reply : Option Nat) : WebWorld :=
  { w with replies := take put w.replies reply, ending := none }

/-- `web_entries_free`, of one entry. -/
def free (w : WebWorld) (x : Nat) : WebWorld :=
  { w with replies := put w.replies (w.cache.entries x).reply, gone := w.gone.erase x }

/-- `web_relieve`, up to the unlock. -/
def relieve (w : WebWorld) (level : BufPressure) (max now : Nat) : WebWorld :=
  let (cache, _, gone) := w.cache.relieve w.entryBytes level max now 0 []
  { w with cache := cache, gone := gone ++ w.gone }

/-- The service as `web_create` makes it, in some memory. -/
def create (w : WebWorld) : WebWorld :=
  { cache := { entries := w.cache.entries, table := { mask := webBuckets - 1 }, kept := [], bytes := 0 }
    replies := w.replies
    runs := w.runs
    waits := w.waits }

end WebWorld

/-- What a thread does. -/
inductive WebEvent where
  /-- Home ends a run: curl says how, or it failed otherwise. -/
  | done (run : Nat) (result : CurlResult) (status : Int)
  | fails (run : Nat) (e : WebErrno)
  | relieves (level : BufPressure) (max now : Nat)
  | other

open WebWorld in
/-- The steps of home, of the client loops and of those that relieve memory pressure. -/
inductive WebStep (hash : WebKey → Nat) (w : WebWorld) : WebEvent → WebWorld → Prop
  | ask (key : WebKey) (keep timeout now : Nat) : WebStep hash w .other (w.ask hash key keep timeout now).1
  | mail {wait : Nat} (live : wait ∈ w.live) (posted : (w.waits wait).posted = true) :
      WebStep hash w .other (w.mail wait)
  | leave {wait : Nat} (live : wait ∈ w.live) : WebStep hash w .other (w.leave wait)
  | write {run : Nat} (under : run ∈ w.under) (data : Bytes) (memory : Bool) :
      WebStep hash w .other
        { w with runs := Function.update w.runs run ((w.runs run).write data memory).1 }
  -- `web_overdue_step`, which then has curl end the transfer
  | late {run : Nat} (under : run ∈ w.under) :
      WebStep hash w .other
        { w with runs := Function.update w.runs run { w.runs run with fault := some .etimedout } }
  | done {run : Nat} (under : run ∈ w.under) (idle : w.ending = none) (result : CurlResult)
      (status retry : Int) (type error strerror : Bytes) (clock : Nat) (memory : Bool × Bool) :
      WebStep hash w (.done run result status)
        (w.runEnd run ((w.runs run).done result status retry type error strerror) clock memory)
  -- the transfer cannot start or is cancelled, or askai is stopping
  | fails {run : Nat} (under : run ∈ w.under) (idle : w.ending = none) (e : WebErrno) (error : Bytes)
      (clock : Nat) (memory : Bool × Bool) :
      WebStep hash w (.fails run e) (w.runEnd run { error := error, e := some e } clock memory)
  | give {reply : Option Nat} {wait : Nat} {rest : List Nat} (ends : w.ending = some (reply, wait :: rest)) :
      WebStep hash w .other (w.give reply wait rest)
  | finish {reply : Option Nat} (ends : w.ending = some (reply, [])) : WebStep hash w .other (w.finish reply)
  | free {x : Nat} (gone : x ∈ w.gone) : WebStep hash w .other (w.free x)
  | relieve (level : BufPressure) (max now : Nat) :
      WebStep hash w (.relieves level max now) (w.relieve level max now)

end Askai
