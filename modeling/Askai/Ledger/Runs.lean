import Askai.Ledger.Calls
import Askai.Library.Trace

/-!
# Runs of the ledger

The calls of `ledger.h` as the events of a transition system, and what holds of the ledger after
every run of them: its accounts.
-/

namespace Askai

open Library

/-- A call of the ledger, with its arguments. -/
inductive Call where
  | open_ (key : UInt64) (kind : Kind) (random : Except Errno HexId) (called : Bool)
  | restore (key : UInt64) (kind : Kind) (id : HexId) (created ended : Nat) (status : Status)
      (result : Nat) (called : Bool)
  | reserve (t : TaskRef) (len : Nat)
  | write (t : TaskRef) (len : Nat)
  | end_ (t : TaskRef) (status : Status)
  | find (key : UInt64) (id : HexId)
  | remove (key : UInt64) (id : HexId)
  | timerSet (key : UInt64) (due : UInt64) (note : List UInt8)
  | timerCancel (key : UInt64) (id : Nat)
  | waitEnter (key : UInt64) (loop : Nat)
  | waitHeard (w : WaitRef)
  | waitLeave (w : WaitRef)
  | list (key : UInt64)
  | tell (w : WaitRef) (ids : List HexId)

/-- What a call returns. -/
inductive Reply where
  | nothing
  | record (value : Except Errno TaskRef)
  | code (error : Option Errno)
  | found (value : Option TaskRef)
  | timer (value : Except Errno Nat)
  | wait (value : Except Errno WaitRef)
  | freed (last : Bool)
  | look (value : Option Look)

/-- The outcome of a call that lets go of no record and wakes no wait. -/
def Outcome.quiet (l : Ledger) (reply : Reply) : Outcome Reply :=
  { ledger := l, value := reply, gone := [], hits := [] }

def Outcome.map {α β : Type} (f : α → β) (outcome : Outcome α) : Outcome β :=
  { ledger := outcome.ledger, value := f outcome.value, gone := outcome.gone
    hits := outcome.hits }

/-- The call as the source runs it. -/
def ledgerCall (l : Ledger) (env : Env) : Call → Outcome Reply
  | .open_ key kind random called => (ledgerOpen l env key kind random called).map .record
  | .restore key kind id created ended status result called =>
    (ledgerRestore l env key kind id created ended status result called).map .record
  | .reserve t len =>
    .quiet (ledgerTaskReserve l t len (env.memory 0)).1
      (.code (ledgerTaskReserve l t len (env.memory 0)).2)
  | .write t len => .quiet (ledgerTaskWrite l t len).1 (.code (ledgerTaskWrite l t len).2)
  | .end_ t status => (ledgerEnd l env t status).map fun _ => .nothing
  | .find key id => (ledgerFind l env key id).map .found
  | .remove key id => (ledgerRemove l key id).map .code
  | .timerSet key due note => (ledgerTimerSet l env key due.toNat note).map .timer
  | .timerCancel key id => (ledgerTimerCancel l env key id).map .code
  | .waitEnter key loop => (ledgerWaitEnter l env key loop).map .wait
  | .waitHeard w => .quiet (ledgerWaitHeard l w) .nothing
  | .waitLeave w => .quiet (ledgerWaitLeave l w).1 (.freed (ledgerWaitLeave l w).2)
  | .list key => (ledgerList l env key).map fun look => .look (some look)
  | .tell w ids => (ledgerTell l env w ids).map .look

/-- A record's call writes its result before it ends. -/
def Call.Allowed (l : Ledger) : Call → Prop
  | .reserve t _ => l.hasEnded t = false
  | .write t _ => l.hasEnded t = false
  | _ => True

/-- One call of a run: the ledger before it, what it reads of the world, and the call. -/
structure Turn where
  before : Ledger
  env : Env
  call : Call

def Turn.outcome (turn : Turn) : Outcome Reply :=
  ledgerCall turn.before turn.env turn.call

/-- One step of a run. -/
def LedgerStep (l : Ledger) (turn : Turn) (m : Ledger) : Prop :=
  turn.before = l ∧ turn.call.Allowed l ∧ m = turn.outcome.ledger

/-- A world whose clocks stand at `now` and whose allocations succeed. -/
def Env.steady (now : Nat) : Env :=
  { clock := fun _ => now, realtime := now, memory := fun _ => true }

namespace Ledger

theorem sound_create : Sound ledgerCreate := by
  have idle : ∀ o, ledgerOwnerBusy (ledgerCreate.owner o) = false := fun o =>
    ledgerOwnerBusy_new 0
  refine ⟨⟨?_, ?_, ?_, ?_⟩, ?_⟩
  · constructor <;> simp [ledgerCreate, Owner.new]
  · constructor <;> simp [ledgerCreate]
  · constructor <;> simp [ledgerCreate, Owner.new]
  · intro o busy
    simp [idle o] at busy
  · intro o inside
    simp [ledgerCreate] at inside

/-- Each call keeps the accounts, whatever the clocks say and whichever allocations fail. -/
theorem Sound.call {l : Ledger} (sound : Sound l) (env : Env) {call : Call}
    (allowed : call.Allowed l) : Sound (ledgerCall l env call).ledger := by
  cases call with
  | open_ key kind random called =>
    simp only [ledgerCall, Outcome.map, ledgerOpen]
    split
    · exact sound
    · exact sound.restore _ _ _ _ _ _ _ _ _
  | restore => exact sound.restore _ _ _ _ _ _ _ _ _
  | reserve => exact sound.reserve allowed _ _
  | write => exact sound.write allowed _
  | end_ t status => exact sound.end_ env t status
  | find => exact sound.sweep _ _ _
  | remove key id => exact sound.remove key id
  | timerSet key due note => exact sound.timerSet env key due.toNat note
  | timerCancel key id => exact sound.timerCancel env key id
  | waitEnter key loop => exact sound.waitEnter env key loop
  | waitHeard w => exact sound.heard w
  | waitLeave w => exact (sound.waitUnlink w).put w
  | list key => exact sound.list env key
  | tell w ids => exact sound.tell env w ids

theorem Sound.run {turns : List Turn} {l : Ledger} (run : Trace LedgerStep ledgerCreate turns l) : Sound l := by
  refine run.invariant sound_create ?_
  rintro l turn m sound ⟨rfl, allowed, rfl⟩
  exact sound.call turn.env allowed

/-! ## The balance of the ledger -/

/-- What the tables, the lists and the counters say of each other between two calls. -/
structure Balance (l : Ledger) : Prop where
  /-- The table holds the records of all owners, each once. -/
  table : (l.owners.flatMap fun o => (l.owner o).records).Perm l.tasks ∧ l.tasks.Nodup
  /-- A record is in the list of one owner. -/
  one_owner : ∀ t ∈ l.tasks, ∃! o, t ∈ (l.owner o).records
  n_eq : ∀ o ∈ l.owners, (l.owner o).n = (l.owner o).records.length
  total : (l.owners.map fun o => (l.owner o).n).sum = l.tasks.length
  running_eq : ∀ o ∈ l.owners, (l.owner o).running =
    (l.owner o).records.countP fun t => (l.task t).status = .working
  ended : l.ended.Nodup ∧ ∀ t, t ∈ l.ended ↔ t ∈ l.tasks ∧ (l.task t).status ≠ .working
  bytes_eq : l.bytes = (l.ended.map fun t => (l.task t).size).sum
  anonymous_eq : l.nAnonymous = l.owners.countP fun o => keyAnonymous (l.owner o).key
  owners_le : l.owners.length ≤ ledgerOwners
  anonymous_le : l.nAnonymous ≤ ledgerOwners / 2
  tasks_le : l.tasks.length ≤ ledgerMax
  /-- An owner is in the table if and only if it has a record, a wait or a timer. -/
  listed : l.owners.Nodup ∧ ∀ o, o ∈ l.owners ↔ (l.owner o).records ≠ [] ∨ (l.owner o).waits ≠ [] ∨
    ∃ slot : Fin ledgerTimers, (l.owner o).timers[slot].due ≠ 0

theorem busy_iff {l : Ledger} (books : Accounts l) (o : OwnerRef) :
    ledgerOwnerBusy (l.owner o) = true ↔ (l.owner o).records ≠ [] ∨ (l.owner o).waits ≠ [] ∨
      ∃ slot : Fin ledgerTimers, (getElem (l.owner o).timers slot slot.isLt).due ≠ 0 := by
  have timers : ledgerTimerAny (l.owner o).timers = true ↔
      ∃ slot : Fin ledgerTimers, (l.owner o).timers[slot].due ≠ 0 := by
    simp [ledgerTimerAny, Vector.any_eq_true, Fin.exists_iff]
  simp only [ledgerOwnerBusy, Bool.or_eq_true, timers, books.records.n_eq, books.waits.nWaits_eq,
    bne_iff_ne, ne_eq, List.length_eq_zero_iff, or_assoc]

theorem Accounts.flatMap_records {l : Ledger} (books : Accounts l) :
    (l.owners.flatMap fun o => (l.owner o).records).Perm l.tasks := by
  refine (List.perm_ext_iff_of_nodup ?_ books.records.nodup).mpr fun t => ?_
  · refine List.nodup_flatMap.mpr ⟨fun o _ => books.records.records_nodup o, ?_⟩
    refine books.owners.nodup.imp fun {o p} other t mine also => other ?_
    exact Option.some.inj (((books.records.owner_iff t o).mpr mine).symm.trans ((books.records.owner_iff t p).mpr also))
  · rw [List.mem_flatMap]
    constructor
    · rintro ⟨o, _, inside⟩
      exact (books.mem_of_records inside).2
    · intro inside
      obtain ⟨o, _, mine, listed⟩ := books.owner_of inside
      exact ⟨o, listed, mine⟩

theorem Sound.balance {l : Ledger} (sound : Sound l) : Balance l := by
  have books := sound.accounts
  constructor
  · exact ⟨books.flatMap_records, books.records.nodup⟩
  · intro t inside
    obtain ⟨o, owner, mine, _⟩ := books.owner_of inside
    refine ⟨o, mine, fun p also => ?_⟩
    exact Option.some.inj (((books.records.owner_iff t p).mpr also).symm.trans owner)
  · exact fun o _ => books.records.n_eq o
  · rw [← books.flatMap_records.length_eq, List.length_flatMap]
    simp only [books.records.n_eq]
  · intro o _
    rw [books.records.running_eq]
    refine List.countP_congr fun t _ => ?_
    simp [hasEnded]
  · exact ⟨books.records.ended_nodup, by simpa using books.records.ended_iff⟩
  · exact books.records.bytes_eq
  · exact books.owners.anonymous_eq
  · exact books.owners.length_le
  · exact books.owners.anonymous_le
  · exact books.records.length_le
  · refine ⟨books.owners.nodup, fun o => ?_⟩
    rw [← busy_iff books o]
    exact ⟨fun inside => sound.noIdle o inside (by simp), books.listed o⟩

/-- After every run of calls the ledger is balanced: also after a refused call, and whatever the
clocks say and whichever allocations fail. -/
theorem ledger_balance {turns : List Turn} {l : Ledger} (run : Trace LedgerStep ledgerCreate turns l) : Balance l :=
  (Sound.run run).balance

/-- A job is opened, ends, and is removed: its owner goes with it. -/
theorem ledger_balance_removed :
    let opened := (ledgerOpen ledgerCreate (.steady 1) 7 .job (.ok "a") true).ledger
    let ended := (ledgerEnd opened (.steady 2) 0 .completed).ledger
    let removed := (ledgerRemove ended 7 "a").ledger
    Balance removed ∧ ended.tasks = [0] ∧ ended.owners = [0] ∧ removed.owners = [] := by
  intro opened ended removed
  have run : Trace LedgerStep ledgerCreate [⟨ledgerCreate, .steady 1, .open_ 7 .job (.ok "a") true⟩,
        ⟨opened, .steady 2, .end_ 0 .completed⟩, ⟨ended, .steady 3, .remove 7 "a"⟩] removed :=
    .snoc (.snoc (.snoc .nil ⟨rfl, trivial, rfl⟩) ⟨rfl, trivial, rfl⟩) ⟨rfl, trivial, rfl⟩
  exact ⟨ledger_balance run, by decide, by decide, by decide +kernel⟩

end Ledger

end Askai
