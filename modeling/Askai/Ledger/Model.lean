import Askai.Library.Lists

/-!
# The ledger of calls that outlive their requests

The state and the operations of `ledger.c`.  Records, owners and waits live at addresses that are
never used again, and the ledger's tables and lists hold addresses, as the source's intrusive lists
do.  An operation is the part of a source function that runs under the ledger's lock; what it
chains for later, the waits to post, it returns.
-/

namespace Askai

open Library

/-- The address of a record (`struct ledger_task *`). -/
abbrev TaskRef := Nat

/-- The address of an owner (`struct ledger_owner *`). -/
abbrev OwnerRef := Nat

/-- The address of a wait (`struct ledger_wait *`). -/
abbrev WaitRef := Nat

/-- An id of a record; the empty text is no id. -/
abbrev HexId := String

/-- Records in the ledger at most (`LEDGER_MAX`). -/
abbrev ledgerMax : Nat := 1024
/-- Nanoseconds from the end of a record's call to its removal (`LEDGER_KEEP * NS`). -/
abbrev ledgerKeep : Nat := 3600 * 1000000000
/-- Running records at which an owner opens no more jobs (`LEDGER_RUNNING`). -/
abbrev ledgerRunning : Nat := 8
/-- Records of an owner at which a new one removes an ended one (`LEDGER_MINE`). -/
abbrev ledgerMine : Nat := 64
/-- Timers of one owner (`LEDGER_TIMERS`). -/
abbrev ledgerTimers : Nat := 8
/-- Bytes of a timer's note (`LEDGER_NOTE`). -/
abbrev ledgerNote : Nat := 200
/-- Waits of one owner (`LEDGER_WAITS`). -/
abbrev ledgerWaits : Nat := 4
/-- Owners in the ledger at most (`LEDGER_OWNERS`). -/
abbrev ledgerOwners : Nat := 1024
/-- Bytes of results the ledger keeps (`LEDGER_BYTES`). -/
abbrev ledgerBytes : Nat := 64 * 1048576
/-- Buckets of the owners' table (`OWNER_BUCKETS`). -/
abbrev ownerBuckets : Nat := 256
/-- `UINT32_MAX`. -/
abbrev uint32Max : Nat := 4294967295
/-- `UINT64_MAX`. -/
abbrev uint64Max : Nat := 18446744073709551615
/-- The bit of the key of an anonymous owner (`LEDGER_ANONYMOUS`). -/
def ledgerAnonymous : UInt64 := 0x8000000000000000

/-- Where a record's call stands (`enum ledger_status`). -/
inductive Status where
  | working | completed | failed | cancelled
  deriving DecidableEq, Repr

/-- What made a record (`enum ledger_kind`). -/
inductive Kind where
  | task | job
  deriving DecidableEq, Repr

/-- The error numbers that the ledger returns. -/
inductive Errno where
  | einval | enomem | eexist | ebusy | enospc | enoent | ealready | epipe
  deriving DecidableEq, Repr

/-- A timer, set or fired; `due` is 0 in a free slot.  `serial` is the number of timers set before
it, which the source does not keep: it tells timers apart after the shared `id` has come round. -/
structure Timer where
  due : Nat
  id : Nat
  note : List UInt8
  serial : Nat
  deriving DecidableEq, Repr

/-- A free slot. -/
def Timer.none : Timer := { due := 0, id := 0, note := [], serial := 0 }

/-- An owner of records, timers and waits (`struct ledger_owner`). -/
structure Owner where
  key : UInt64
  records : List TaskRef
  waits : List WaitRef
  nWaits : Nat
  n : Nat
  running : Nat
  timers : Vector Timer ledgerTimers

/-- A new owner of `key`, with nothing. -/
def Owner.new (key : UInt64) : Owner where
  key := key
  records := []
  waits := []
  nWaits := 0
  n := 0
  running := 0
  timers := Vector.replicate ledgerTimers Timer.none

/-- A record (`struct ledger_task`); of its result only the bytes written so far. -/
structure Task where
  id : HexId
  owner : Option OwnerRef
  kind : Kind
  written : Nat
  size : Nat
  created : Nat
  ended : Nat
  due : Nat
  status : Status
  told : Bool
  deriving DecidableEq, Repr

/-- A wait (`struct ledger_wait`). -/
structure Wait where
  owner : Option OwnerRef
  loop : Nat
  hit : Option WaitRef
  refs : Nat
  posted : Bool
  deriving DecidableEq, Repr

/-- The ledger, with the memory its addresses point into. -/
structure Ledger where
  tasks : List TaskRef
  owners : List OwnerRef
  ended : List TaskRef
  bytes : Nat
  nAnonymous : Nat
  nTimers : Nat
  task : TaskRef → Task
  owner : OwnerRef → Owner
  wait : WaitRef → Wait
  nextTask : TaskRef
  nextOwner : OwnerRef
  nextWait : WaitRef
  /-- Timers set so far, counted without the wrap of `nTimers`. -/
  serials : Nat

/-- An empty ledger (`ledger_create`). -/
def ledgerCreate : Ledger where
  tasks := []
  owners := []
  ended := []
  bytes := 0
  nAnonymous := 0
  nTimers := 0
  task _ :=
    { id := "", owner := none, kind := .task, written := 0, size := 0, created := 0, ended := 0
      due := 0, status := .working, told := false }
  owner _ := Owner.new 0
  wait _ := { owner := none, loop := 0, hit := none, refs := 0, posted := false }
  nextTask := 0
  nextOwner := 0
  nextWait := 0
  serials := 0

/-- What one call reads of the world: its readings of `loop_clock()`, the real time, and whether
each of its allocations succeeds. -/
structure Env where
  clock : Nat → Nat
  realtime : Nat
  memory : Nat → Bool

/-- A record let go of, and the ledger at that moment, on the chain `gone` of the source. -/
structure Gone where
  task : TaskRef
  before : Ledger

/-- What a call leaves: the ledger, its answer, the records let go of, the last first, and the waits
to post, in the order of the chain that their members `hit` make. -/
structure Outcome (α : Type) where
  ledger : Ledger
  value : α
  gone : List Gone
  hits : List WaitRef

namespace Ledger

def setOwner (l : Ledger) (o : OwnerRef) (value : Owner) : Ledger :=
  { l with owner := Function.update l.owner o value }

def setTask (l : Ledger) (t : TaskRef) (value : Task) : Ledger :=
  { l with task := Function.update l.task t value }

def setWait (l : Ledger) (w : WaitRef) (value : Wait) : Ledger :=
  { l with wait := Function.update l.wait w value }

/-- Whether the call of the record at `t` has ended. -/
def hasEnded (l : Ledger) (t : TaskRef) : Bool :=
  (l.task t).status != .working

end Ledger

/-! ## Owners -/

/-- Whether `key` is an anonymous client's address. -/
def keyAnonymous (key : UInt64) : Bool :=
  key &&& ledgerAnonymous != 0

def ledgerOwnerFind (l : Ledger) (key : UInt64) : Option OwnerRef :=
  l.owners.find? fun o => (l.owner o).key == key

def ledgerTimerAny (timers : Vector Timer ledgerTimers) : Bool :=
  timers.any fun t => t.due != 0

/-- Whether the owner at `o` has a record, a wait or a timer. -/
def ledgerOwnerBusy (o : Owner) : Bool :=
  o.n != 0 || o.nWaits != 0 || ledgerTimerAny o.timers

/-- Take an owner that has nothing left out of the table, and free it. -/
def ledgerOwnerGc (l : Ledger) (o : OwnerRef) : Ledger :=
  if ledgerOwnerBusy (l.owner o) then l
  else
    { l with
      owners := l.owners.erase o
      nAnonymous := l.nAnonymous - (keyAnonymous (l.owner o).key).toNat }

/-- Whether a timer of this due time fired `LEDGER_KEEP` seconds ago or more. -/
def timerExpired (now due : Nat) : Bool :=
  due < now && ledgerKeep ≤ now - due

def ledgerOwnerExpire (o : Owner) (now : Nat) : Owner :=
  { o with
    timers := o.timers.map fun t => if timerExpired now t.due then { t with due := 0 } else t }

/-- One owner of the walk of `ledger_owners_expire`. -/
def ledgerOwnersExpireOne (now : Nat) (l : Ledger) (o : OwnerRef) : Ledger :=
  ledgerOwnerGc (l.setOwner o (ledgerOwnerExpire (l.owner o) now)) o

def ledgerOwnersExpire (l : Ledger) (now : Nat) : Ledger :=
  l.owners.foldl (ledgerOwnersExpireOne now) l

def ledgerOwnerRoom (l : Ledger) (key : UInt64) : Bool :=
  l.owners.length < ledgerOwners &&
    (!keyAnonymous key || l.nAnonymous < ledgerOwners / 2)

/-- Make an owner of `key`; the table is walked bucket by bucket, the newest of a bucket first. -/
def ledgerOwnerMake (l : Ledger) (key : UInt64) : Ledger :=
  let made := l.setOwner l.nextOwner (Owner.new key)
  { made with
    owners := bucketInsert (fun o => (made.owner o).key.toNat % ownerBuckets) l.nextOwner l.owners
    nAnonymous := l.nAnonymous + (keyAnonymous key).toNat
    nextOwner := l.nextOwner + 1 }

def ledgerOwnerGet (l : Ledger) (key : UInt64) (now : Nat) (memory : Bool) : Ledger × Except Errno OwnerRef :=
  match ledgerOwnerFind l key with
  | some o => (l, .ok o)
  | none =>
    let l := if ledgerOwnerRoom l key then l else ledgerOwnersExpire l now
    if !ledgerOwnerRoom l key then (l, .error .enospc)
    else if !memory then (l, .error .enomem)
    else (ledgerOwnerMake l key, .ok l.nextOwner)

/-! ## Waking the waits -/

/-- One wait of the walk of `ledger_owner_wake`: the waits, and the chain to post so far. -/
def ledgerOwnerWakeOne : (WaitRef → Wait) × List WaitRef → WaitRef → (WaitRef → Wait) × List WaitRef
  | (wait, hits), w =>
    if (wait w).posted then (wait, hits)
    else
      (Function.update wait w { wait w with posted := true, refs := (wait w).refs + 1, hit := hits.head? }, w :: hits)

def ledgerOwnerWake (l : Ledger) (o : OwnerRef) : Ledger × List WaitRef :=
  let woken := (l.owner o).waits.foldl ledgerOwnerWakeOne (l.wait, [])
  ({ l with wait := woken.1 }, woken.2)

/-! ## Looking at an owner -/

/-- What `ledger_list` and `ledger_tell` return (`struct ledger_look`). -/
structure Look where
  tasks : List TaskRef
  timers : List Timer
  due : Nat
  more : Nat
  deriving DecidableEq, Repr

def ledgerLookEmpty : Look :=
  { tasks := [], timers := [], due := uint64Max, more := 0 }

def ledgerLookTimer (out : Look) (t : Timer) : Look :=
  { out with timers := insertBack (fun u => t.id < u.id) t out.timers }

/-- One slot of `ledger_owner_timers`: what it puts into `out`. -/
def ledgerOwnerTimersOne (now : Nat) (take : Bool) (out : Look) (t : Timer) : Look :=
  if t.due = 0 then out
  else
    match decide (t.due ≤ now), take with
    | true, true => ledgerLookTimer out t
    | false, false =>
      let out := ledgerLookTimer out t
      { out with due := if t.due < out.due then t.due else out.due }
    | false, true => { out with due := if t.due < out.due then t.due else out.due }
    | true, false => ledgerLookTimer out t

/-- One slot of `ledger_owner_timers`: what it leaves in the slot. -/
def ledgerTimerTaken (now : Nat) (take : Bool) (t : Timer) : Timer :=
  if t.due ≠ 0 ∧ t.due ≤ now ∧ take then { t with due := 0 } else t

def ledgerOwnerTimers (o : Owner) (now : Nat) (take : Bool) (out : Look) : Owner × Look :=
  ({ o with timers := o.timers.map (ledgerTimerTaken now take) },
    o.timers.toList.foldl (ledgerOwnerTimersOne now take) out)

def ledgerListed (ids : List HexId) (id : HexId) : Bool :=
  ids.any fun listed => listed == id

/-- The loop of `ledger_owner_tell` from a record on; it stops when `out` is full. -/
def ledgerOwnerTellFrom (ids : List HexId) : List TaskRef → Ledger → Look → Ledger × Look
  | [], l, out => (l, out)
  | t :: rest, l, out =>
    if ledgerMine ≤ out.tasks.length then (l, out)
    else if !l.hasEnded t || (!ids.isEmpty && !ledgerListed ids (l.task t).id) then
      ledgerOwnerTellFrom ids rest l out
    else
      let marked := l.setTask t { l.task t with told := true }
      -- A record that was read before goes out only to a call that names it.
      if (l.task t).told && ids.isEmpty then ledgerOwnerTellFrom ids rest marked out
      else ledgerOwnerTellFrom ids rest marked { out with tasks := out.tasks ++ [t] }

def ledgerOwnerTell (l : Ledger) (o : OwnerRef) (ids : List HexId) (out : Look) : Ledger × Look :=
  ledgerOwnerTellFrom ids (l.owner o).records l out

/-! ## Removing records -/

/-- The oldest record of an owner whose call has ended. -/
def ledgerOwnerEnded (l : Ledger) (o : OwnerRef) : Option TaskRef :=
  (l.owner o).records.find? l.hasEnded

/-- The record of the owner `key` whose id is `id`. -/
def ledgerMineFind (l : Ledger) (key : UInt64) (id : HexId) : Option TaskRef :=
  match l.tasks.find? fun t => (l.task t).id == id with
  | none => none
  | some t =>
    match (l.task t).owner with
    | none => none
    | some o => if (l.owner o).key = key then some t else none

/-- Take the record at `t` off the table, the ended list and its owner's list. -/
def ledgerUnlink (l : Ledger) (t : TaskRef) (o : OwnerRef) : Ledger :=
  let unlinked :=
    (l.setOwner o { l.owner o with records := (l.owner o).records.erase t, n := (l.owner o).n - 1 }).setTask t
      { l.task t with owner := none }
  { unlinked with
    tasks := l.tasks.erase t
    ended := l.ended.erase t
    bytes := l.bytes - (l.task t).size }

def ledgerDrop (l : Ledger) (t : TaskRef) (gone : List Gone) : Ledger × List Gone :=
  match (l.task t).owner with
  | none => (l, gone)
  | some o => (ledgerOwnerGc (ledgerUnlink l t o) o, { task := t, before := l } :: gone)

/-- The ended records of an owner, as its counts have it. -/
def ownerEndedCount (o : Owner) : Nat := o.n - o.running

/-- One owner of the walk of `ledger_owner_most`: the owner found so far and its count. -/
def ledgerOwnerMostOne (l : Ledger) : Option OwnerRef × Nat → OwnerRef → Option OwnerRef × Nat
  | (most, max), o =>
    if max < ownerEndedCount (l.owner o) then (some o, ownerEndedCount (l.owner o))
    else (most, max)

def ledgerOwnerMost (l : Ledger) : Option OwnerRef :=
  (l.owners.foldl (ledgerOwnerMostOne l) (none, 0)).1

/-- The first loop of `ledger_sweep`, over what was the ended list: each turn drops its head. -/
def ledgerSweepEnded (keep : Option TaskRef) (now : Nat) : List TaskRef → Ledger → List Gone → Ledger × List Gone
  | [], l, gone => (l, gone)
  | t :: rest, l, gone =>
    if some t = keep || (now < (l.task t).due && l.bytes ≤ ledgerBytes) then (l, gone)
    else
      let (l, gone) := ledgerDrop l t gone
      ledgerSweepEnded keep now rest l gone

/-- The second part of `ledger_sweep`: room for one record in a full ledger. -/
def ledgerSweepRoom (l : Ledger) (gone : List Gone) : Ledger × List Gone :=
  if l.tasks.length = ledgerMax then
    match ledgerOwnerMost l with
    | none => (l, gone)
    | some o =>
      match ledgerOwnerEnded l o with
      | none => (l, gone)
      | some t => ledgerDrop l t gone
  else (l, gone)

def ledgerSweep (l : Ledger) (keep : Option TaskRef) (room : Bool) (now : Nat) : Ledger × List Gone :=
  let (l, gone) := ledgerSweepEnded keep now l.ended l []
  if room then ledgerSweepRoom l gone else (l, gone)

/-! ## Adding records -/

/-- Link a new record into the table and its owner's list, by the time it was created. -/
def ledgerLink (l : Ledger) (task : Task) (o : OwnerRef) : Ledger :=
  let t := l.nextTask
  let linked :=
    (l.setTask t { task with owner := some o }).setOwner o
      { l.owner o with
        records :=
          insertBack (fun u => task.created < (l.task u).created) t (l.owner o).records
        n := (l.owner o).n + 1
        running := (l.owner o).running + (task.status == .working).toNat }
  { linked with tasks := t :: l.tasks, nextTask := t + 1 }

/-- The oldest ended record of an owner with `LEDGER_MINE` records makes room for another. -/
def ledgerMakeRoom (l : Ledger) (o : OwnerRef) (gone : List Gone) : Ledger × List Gone :=
  if ledgerMine ≤ (l.owner o).n then
    match ledgerOwnerEnded l o with
    | none => (l, gone)
    | some old => ledgerDrop l old gone
  else (l, gone)

def ledgerInsert (l : Ledger) (task : Task) (key : UInt64) (now : Nat) (memory : Bool)
    (gone : List Gone) : Ledger × Option Errno × List Gone :=
  if l.tasks.length = ledgerMax then (l, some .enospc, gone)
  else
    match ledgerOwnerGet l key now memory with
    | (l, .error e) => (l, some e, gone)
    | (l, .ok o) =>
      if task.status == .working && task.kind == .job && ledgerRunning ≤ (l.owner o).running then
        (l, some .ebusy, gone)
      else
        let (l, gone) := ledgerMakeRoom l o gone
        (ledgerLink l task o, none, gone)

/-- Put the record at `t`, whose call has ended, at the end of the ended list. -/
def ledgerAppendEnded (l : Ledger) (t : TaskRef) : Ledger :=
  { l with ended := l.ended ++ [t], bytes := l.bytes + (l.task t).size }

/-- The record that `ledger_restore` makes, with a result of `result` bytes. -/
def restoredTask (env : Env) (kind : Kind) (id : HexId) (created ended : Nat) (status : Status)
    (result : Nat) : Task where
  id := id
  owner := none
  kind := kind
  written := result
  size := result
  created := created
  ended := if status = .working then 0 else if ended ≠ 0 then ended else env.realtime
  due := if status = .working then 0 else env.clock 0 + ledgerKeep
  status := status
  told := false

/-- The arguments that `ledger_restore` refuses; `called` says that a loop and a handler are
given. -/
def restoreRefused (id : HexId) (ended : Nat) (status : Status) (result : Nat) (called : Bool) : Bool :=
  id == "" || (status == .working && (!called || result != 0 || ended != 0)) ||
    (status == .cancelled && result != 0)

/-- What `ledger_restore` does, after the insertion, with a record whose call has ended: list it,
wake the waits of its owner, and sweep. -/
def ledgerRestoreEnded (inserted : Ledger) (env : Env) (t : TaskRef) (gone : List Gone) :
    Outcome (Except Errno TaskRef) :=
  let listed := ledgerAppendEnded inserted t
  let woken :=
    match (listed.task t).owner with
    | none => (listed, [])
    | some o => ledgerOwnerWake listed o
  let swept := ledgerSweep woken.1 (some t) false (env.clock 3)
  { ledger := swept.1, value := .ok t, gone := swept.2 ++ gone, hits := woken.2 }

def ledgerRestore (l : Ledger) (env : Env) (key : UInt64) (kind : Kind) (id : HexId)
    (created ended : Nat) (status : Status) (result : Nat) (called : Bool) : Outcome (Except Errno TaskRef) :=
  if restoreRefused id ended status result called then
    { ledger := l, value := .error .einval, gone := [], hits := [] }
  else if !env.memory 0 || (result != 0 && !env.memory 1) then
    { ledger := l, value := .error .enomem, gone := [], hits := [] }
  else if l.tasks.any fun t => (l.task t).id == id then
    { ledger := l, value := .error .eexist, gone := [], hits := [] }
  else
    let swept := ledgerSweep l none true (env.clock 1)
    let task := restoredTask env kind id created ended status result
    match ledgerInsert swept.1 task key (env.clock 2) (env.memory 2) swept.2 with
    | (l, some e, gone) => { ledger := l, value := .error e, gone := gone, hits := [] }
    | (inserted, none, gone) =>
      -- The record's address is the one that the insertion took.
      if status = .working then
        { ledger := inserted, value := .ok (inserted.nextTask - 1), gone := gone, hits := [] }
      else ledgerRestoreEnded inserted env (inserted.nextTask - 1) gone

/-- `random` is the new id, or the error of `getrandom`. -/
def ledgerOpen (l : Ledger) (env : Env) (key : UInt64) (kind : Kind) (random : Except Errno HexId)
    (called : Bool) : Outcome (Except Errno TaskRef) :=
  match random with
  | .error e => { ledger := l, value := .error e, gone := [], hits := [] }
  | .ok id => ledgerRestore l env key kind id env.realtime 0 .working 0 called

/-! ## The end of a call -/

def ledgerTaskReserve (l : Ledger) (t : TaskRef) (len : Nat) (memory : Bool) : Ledger × Option Errno :=
  let size := if memory then len else 0
  (l.setTask t { l.task t with written := 0, size := size },
    if size = len then none else some .enomem)

def ledgerTaskWrite (l : Ledger) (t : TaskRef) (len : Nat) : Ledger × Option Errno :=
  if (l.task t).size - (l.task t).written < len then (l, some .epipe)
  else (l.setTask t { l.task t with written := (l.task t).written + len }, none)

/-- The record at `t` as its end leaves it: a result is kept only if it is whole. -/
def taskEnded (task : Task) (status : Status) (realtime now : Nat) : Task :=
  let kept := task.written = task.size ∧ status ≠ .cancelled
  { task with
    written := if kept then task.written else 0
    size := if kept then task.size else 0
    ended := realtime
    due := now + ledgerKeep
    status := status }

def ledgerEnd (l : Ledger) (env : Env) (t : TaskRef) (status : Status) : Outcome Unit :=
  if status = .working || l.hasEnded t then { ledger := l, value := (), gone := [], hits := [] }
  else
    match (l.task t).owner with
    | none => { ledger := l, value := (), gone := [], hits := [] }
    | some o =>
      let published := l.setTask t (taskEnded (l.task t) status env.realtime (env.clock 0))
      let counted :=
        published.setOwner o { l.owner o with running := (l.owner o).running - 1 }
      let woken := ledgerOwnerWake { counted with ended := l.ended ++ [t] } o
      let charged := { woken.1 with bytes := woken.1.bytes + (woken.1.task t).size }
      let swept := ledgerSweep charged (some t) false (env.clock 1)
      { ledger := swept.1, value := (), gone := swept.2, hits := woken.2 }

def ledgerFind (l : Ledger) (env : Env) (key : UInt64) (id : HexId) : Outcome (Option TaskRef) :=
  let swept := ledgerSweep l none false (env.clock 0)
  { ledger := swept.1, value := ledgerMineFind swept.1 key id, gone := swept.2, hits := [] }

def ledgerRemove (l : Ledger) (key : UInt64) (id : HexId) : Outcome (Option Errno) :=
  if id == "" then { ledger := l, value := some .einval, gone := [], hits := [] }
  else
    match ledgerMineFind l key id with
    | none => { ledger := l, value := some .enoent, gone := [], hits := [] }
    | some t =>
      if l.hasEnded t then
        { ledger := (ledgerDrop l t []).1, value := none, gone := (ledgerDrop l t []).2
          hits := [] }
      else { ledger := l, value := some .ebusy, gone := [], hits := [] }

/-! ## Timers -/

/-- The slots with the first free one set, or why not. -/
def ledgerTimerAdd (timers : Vector Timer ledgerTimers) (due id : Nat) (note : List UInt8)
    (serial : Nat) : Except Errno (Vector Timer ledgerTimers) :=
  if due = 0 || ledgerNote < note.length then .error .einval
  else
    match timers.findFinIdx? fun t => t.due == 0 with
    | none => .error .ebusy
    | some slot => .ok (timers.set slot { due := due, id := id, note := note, serial := serial })

def ledgerTimerSet (l : Ledger) (env : Env) (key : UInt64) (due : Nat) (note : List UInt8) :
    Outcome (Except Errno Nat) :=
  if due = 0 || ledgerNote < note.length then
    { ledger := l, value := .error .einval, gone := [], hits := [] }
  else
    match ledgerOwnerGet l key (env.clock 1) (env.memory 0) with
    | (l, .error e) => { ledger := l, value := .error e, gone := [], hits := [] }
    | (l, .ok o) =>
      let expired := ledgerOwnerExpire (l.owner o) (env.clock 0)
      let next := l.nTimers % uint32Max + 1
      match ledgerTimerAdd expired.timers due next note l.serials with
      | .error e =>
        { ledger := l.setOwner o expired, value := .error e, gone := [], hits := [] }
      | .ok timers =>
        let set := l.setOwner o { expired with timers := timers }
        let woken := ledgerOwnerWake { set with nTimers := next, serials := l.serials + 1 } o
        { ledger := woken.1, value := .ok next, gone := [], hits := woken.2 }

/-- The slot of the timer numbered `id` (`ledger_owner_timer`). -/
def ledgerOwnerTimer (o : Owner) (id : Nat) : Option (Fin ledgerTimers) :=
  o.timers.findFinIdx? fun t => t.due != 0 && t.id == id

/-- The owner as a cancellation of the timer numbered `id` leaves it, and the error. -/
def ledgerTimerLeft (o : Owner) (id now : Nat) : Owner × Option Errno :=
  match ledgerOwnerTimer o id with
  | none => (o, some .enoent)
  | some slot =>
    if o.timers[slot].due ≤ now then (o, some .ealready)
    else ({ o with timers := o.timers.set slot { o.timers[slot] with due := 0 } }, none)

def ledgerTimerCancel (l : Ledger) (env : Env) (key : UInt64) (id : Nat) : Outcome (Option Errno) :=
  match ledgerOwnerFind l key with
  | none => { ledger := l, value := some .enoent, gone := [], hits := [] }
  | some o =>
    let left := ledgerTimerLeft (ledgerOwnerExpire (l.owner o) (env.clock 0)) id (env.clock 0)
    { ledger := ledgerOwnerGc (l.setOwner o left.1) o, value := left.2, gone := [], hits := [] }

/-! ## Waits -/

/-- Put a new wait into the list of the owner at `o`. -/
def ledgerWaitLink (l : Ledger) (o : OwnerRef) (loop : Nat) : Ledger :=
  let w := l.nextWait
  let linked :=
    (l.setWait w { owner := some o, loop := loop, hit := none, refs := 1, posted := false }).setOwner
      o { l.owner o with waits := (l.owner o).waits ++ [w], nWaits := (l.owner o).nWaits + 1 }
  { linked with nextWait := w + 1 }

def ledgerWaitEnter (l : Ledger) (env : Env) (key : UInt64) (loop : Nat) : Outcome (Except Errno WaitRef) :=
  if !env.memory 0 then { ledger := l, value := .error .enomem, gone := [], hits := [] }
  else
    match ledgerOwnerGet l key (env.clock 0) (env.memory 1) with
    | (l, .error e) => { ledger := l, value := .error e, gone := [], hits := [] }
    | (l, .ok o) =>
      if ledgerWaits ≤ (l.owner o).nWaits then
        { ledger := l, value := .error .ebusy, gone := [], hits := [] }
      else
        { ledger := ledgerWaitLink l o loop, value := .ok l.nextWait, gone := [], hits := [] }

def ledgerWaitHeard (l : Ledger) (w : WaitRef) : Ledger :=
  l.setWait w { l.wait w with posted := false }

/-- Drop a reference to the wait; whether it was the last, which frees it. -/
def ledgerWaitPut (l : Ledger) (w : WaitRef) : Ledger × Bool :=
  (l.setWait w { l.wait w with refs := (l.wait w).refs - 1 }, (l.wait w).refs == 1)

/-- Take the wait out of its owner's list. -/
def ledgerWaitUnlink (l : Ledger) (w : WaitRef) : Ledger :=
  match (l.wait w).owner with
  | none => l
  | some o =>
    let unlinked :=
      (l.setWait w { l.wait w with owner := none }).setOwner o
        { l.owner o with waits := (l.owner o).waits.erase w, nWaits := (l.owner o).nWaits - 1 }
    ledgerOwnerGc unlinked o

def ledgerWaitLeave (l : Ledger) (w : WaitRef) : Ledger × Bool :=
  ledgerWaitPut (ledgerWaitUnlink l w) w

/-! ## Listing and telling -/

def ledgerList (l : Ledger) (env : Env) (key : UInt64) : Outcome Look :=
  let swept := ledgerSweep l none false (env.clock 1)
  match ledgerOwnerFind swept.1 key with
  | none => { ledger := swept.1, value := ledgerLookEmpty, gone := swept.2, hits := [] }
  | some o =>
    let expired := ledgerOwnerExpire (swept.1.owner o) (env.clock 0)
    let seen := ledgerOwnerTimers expired (env.clock 0) false ledgerLookEmpty
    let tasks := expired.records.reverse.take ledgerMine
    { ledger := ledgerOwnerGc (swept.1.setOwner o seen.1) o
      value := { seen.2 with tasks := tasks, more := expired.n - tasks.length }
      gone := swept.2
      hits := [] }

/-- No answer stands for `EINVAL`, of a wait that is out of the ledger. -/
def ledgerTell (l : Ledger) (env : Env) (w : WaitRef) (ids : List HexId) : Outcome (Option Look) :=
  match (l.wait w).owner with
  | none => { ledger := l, value := none, gone := [], hits := [] }
  | some o =>
    let taken := ledgerOwnerTimers (l.owner o) (env.clock 0) true ledgerLookEmpty
    let told := ledgerOwnerTell (l.setOwner o taken.1) o ids taken.2
    { ledger := told.1, value := some told.2, gone := [], hits := [] }

end Askai
