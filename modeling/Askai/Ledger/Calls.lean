import Askai.Ledger.Operations

/-!
# The calls of the ledger

What each call of `ledger.h` can do, case by case, and that each keeps the accounts.
-/

namespace Askai

open Library

namespace Ledger

/-! ## Records -/

/-- What a restoration can do: refuse at once, fail after a sweep, or add the record. -/
theorem restore_cases (l : Ledger) (env : Env) (key : UInt64) (kind : Kind) (id : HexId)
    (created ended : Nat) (status : Status) (result : Nat) (called : Bool) :
    (∃ e, ledgerRestore l env key kind id created ended status result called =
        { ledger := l, value := .error e, gone := [], hits := [] }) ∨
      restoreRefused id ended status result called = false ∧ (∀ t ∈ l.tasks, (l.task t).id ≠ id) ∧ ∃ m e gone,
        ledgerInsert (ledgerSweep l none true (env.clock 1)).1
          (restoredTask env kind id created ended status result) key (env.clock 2) (env.memory 2)
          (ledgerSweep l none true (env.clock 1)).2 = (m, e, gone) ∧ ((∃ error, e = some error ∧
            ledgerRestore l env key kind id created ended status result called =
              { ledger := m, value := .error error, gone := gone, hits := [] }) ∨ e = none ∧ status = .working ∧
            ledgerRestore l env key kind id created ended status result called =
              { ledger := m, value := .ok (m.nextTask - 1), gone := gone, hits := [] } ∨ e = none ∧ status ≠ .working ∧
            ledgerRestore l env key kind id created ended status result called =
              ledgerRestoreEnded m env (m.nextTask - 1) gone) := by
  unfold ledgerRestore
  split
  · exact .inl ⟨_, rfl⟩
  rename_i allowed
  split
  · exact .inl ⟨_, rfl⟩
  split
  · exact .inl ⟨_, rfl⟩
  rename_i fresh
  refine .inr ⟨by simpa using allowed, by simpa using fresh, ?_⟩
  rcases inserted : ledgerInsert (ledgerSweep l none true (env.clock 1)).1
    (restoredTask env kind id created ended status result) key (env.clock 2) (env.memory 2)
    (ledgerSweep l none true (env.clock 1)).2 with ⟨m, _ | e, gone⟩
  · refine ⟨m, none, gone, rfl, ?_⟩
    by_cases working : status = .working
    · exact .inr (.inl ⟨rfl, working, by simp only [inserted, if_pos working]⟩)
    · exact .inr (.inr ⟨rfl, working, by simp only [inserted, if_neg working]⟩)
  · exact ⟨m, some e, gone, rfl, .inl ⟨e, rfl, by simp [inserted]⟩⟩

variable {l : Ledger} {key : UInt64} {t : TaskRef}

/-- A new record in a swept ledger, entered in the ended list if its call has ended. -/
theorem Sound.insert {l m : Ledger} (sound : Sound l) {task : Task} {now : Nat}
    {memory : Bool} {gone all : List Gone} (fresh : ∀ t ∈ l.tasks, (l.task t).id ≠ task.id)
    (inserted : ledgerInsert l task key now memory gone = (m, none, all)) : Sound (enterEnded m (m.nextTask - 1)) := by
  obtain ⟨f, o, _, ready, rfl, _⟩ := insert_ok sound inserted
  have absent : ∀ t ∈ (ledgerMakeRoom f o gone).1.tasks, ((ledgerMakeRoom f o gone).1.task t).id ≠ task.id := by
    intro t inside
    rw [ready.less.task t]
    exact fresh t (ready.less.tasks.subset inside)
  exact ⟨ready.books.link ready.listed absent ready.room, ready.active.link task _⟩

theorem Sound.restoreEnded {m : Ledger} (sound : Sound (ledgerAppendEnded m t))
    (env : Env) (gone : List Gone) : Sound (ledgerRestoreEnded m env t gone).ledger := by
  unfold ledgerRestoreEnded
  refine Sound.sweep ?_ _ _ _
  split
  · exact sound
  · exact sound.same_books (SameBooks.wake _ _)

/-- The status of the record that an insertion adds. -/
theorem hasEnded_insert {l m : Ledger} (sound : Sound l) {task : Task} {now : Nat}
    {memory : Bool} {gone all : List Gone} (inserted : ledgerInsert l task key now memory gone = (m, none, all)) :
    m.hasEnded (m.nextTask - 1) = (task.status != .working) := by
  obtain ⟨f, o, _, _, rfl, _⟩ := insert_ok sound inserted
  simp [ledgerLink, hasEnded]

/-- The sweep leaves an id as new as it was. -/
theorem restore_fresh (env : Env) {id : HexId} (fresh : ∀ t ∈ l.tasks, (l.task t).id ≠ id) :
    ∀ t ∈ (ledgerSweep l none true (env.clock 1)).1.tasks,
      ((ledgerSweep l none true (env.clock 1)).1.task t).id ≠ id := by
  have less := Less.sweep l none true (env.clock 1)
  intro t inside
  rw [less.task t]
  exact fresh t (less.tasks.subset inside)

theorem Sound.restore (sound : Sound l) (env : Env) (key : UInt64) (kind : Kind)
    (id : HexId) (created ended : Nat) (status : Status) (result : Nat) (called : Bool) :
    Sound (ledgerRestore l env key kind id created ended status result called).ledger := by
  have swept := sound.sweep none true (env.clock 1)
  obtain ⟨e, eq⟩ | ⟨_, fresh, m, e, gone, inserted, cases⟩ :=
    restore_cases l env key kind id created ended status result called
  · rw [eq]
    exact sound
  have absent := restore_fresh env fresh
  obtain ⟨error, rfl, eq⟩ | ⟨rfl, working, eq⟩ | ⟨rfl, done, eq⟩ := cases
  · rw [eq]
    exact (insert_error swept inserted).1
  · have kept := swept.insert absent inserted
    have status := hasEnded_insert swept inserted
    rw [eq]
    simpa [enterEnded, status, restoredTask, working] using kept
  · have kept := swept.insert absent inserted
    have status := hasEnded_insert swept inserted
    rw [eq]
    refine Sound.restoreEnded ?_ env gone
    simpa [enterEnded, status, restoredTask, done] using kept

/-- The ledger as the end of a record's call publishes it, before the waits are woken. -/
def published (l : Ledger) (env : Env) (t : TaskRef) (o : OwnerRef) (status : Status) : Ledger :=
  { (l.setTask t (taskEnded (l.task t) status env.realtime (env.clock 0))).setOwner o
      { l.owner o with running := (l.owner o).running - 1 } with
    ended := l.ended ++ [t]
    bytes := l.bytes + (taskEnded (l.task t) status env.realtime (env.clock 0)).size }

/-- The ledger once the waits of the owner have heard of the end, with the chain to post. -/
def endWoken (l : Ledger) (env : Env) (t : TaskRef) (o : OwnerRef) (status : Status) : Ledger × List WaitRef :=
  ledgerOwnerWake (published l env t o status) o

/-- What the end of a record's call can do: nothing, or publish, wake and sweep. -/
theorem end_cases (l : Ledger) (env : Env) (t : TaskRef) (status : Status) :
    (status = .working ∨ l.hasEnded t = true ∨ (l.task t).owner = none) ∧
        ledgerEnd l env t status = { ledger := l, value := (), gone := [], hits := [] } ∨
      ∃ o, status ≠ .working ∧ l.hasEnded t = false ∧ (l.task t).owner = some o ∧ ledgerEnd l env t status =
          { ledger := (ledgerSweep (endWoken l env t o status).1 (some t) false (env.clock 1)).1
            value := ()
            gone := (ledgerSweep (endWoken l env t o status).1 (some t) false (env.clock 1)).2
            hits := (endWoken l env t o status).2 } := by
  unfold ledgerEnd
  split
  · rename_i closed
    simp only [Bool.or_eq_true, decide_eq_true_eq] at closed
    exact .inl ⟨closed.imp id .inl, rfl⟩
  rename_i open_
  simp only [Bool.or_eq_true, decide_eq_true_eq, not_or, Bool.not_eq_true] at open_
  split
  · rename_i nobody
    exact .inl ⟨.inr (.inr nobody), rfl⟩
  · rename_i o owner
    refine .inr ⟨o, open_.1, open_.2, owner, ?_⟩
    simp [endWoken, ledgerOwnerWake, published]

theorem Sound.endWoken (sound : Sound l) (env : Env) {o : OwnerRef}
    {status : Status} (owner : (l.task t).owner = some o) (working : l.hasEnded t = false)
    (ended : status ≠ .working) : Sound (endWoken l env t o status).1 := by
  have open_ : Sound (published l env t o status) := sound.publish owner working rfl owner ended
  exact open_.same_books (SameBooks.wake _ o)

theorem Sound.end_ (sound : Sound l) (env : Env) (t : TaskRef) (status : Status) :
    Sound (ledgerEnd l env t status).ledger := by
  obtain ⟨_, eq⟩ | ⟨o, ended, working, owner, eq⟩ := end_cases l env t status
  · rw [eq]
    exact sound
  · rw [eq]
    exact (sound.endWoken env owner working ended).sweep _ _ _

/-- The call of a record that runs writes its result outside the books. -/
theorem SameBooks.result (sound : Sound l) {value : Task}
    (working : l.hasEnded t = false) (id : value.id = (l.task t).id)
    (owner : value.owner = (l.task t).owner) (status : value.status = (l.task t).status) :
    Sound (l.setTask t value) := by
  have books := sound.accounts
  have notEnded : t ∉ l.ended := fun inside => by
    simp [((books.records.ended_iff t).mp inside).2] at working
  refine ⟨⟨books.records.congr rfl rfl rfl rfl ?_ (by simp), books.owners.congr rfl rfl rfl (by simp),
    books.waits.congr rfl (by simp) (by simp), books.listed⟩, sound.noIdle⟩
  intro u
  by_cases same : u = t
  · subst same
    simp [id, owner, status, notEnded]
  · simp [same]

theorem Sound.reserve (sound : Sound l) (working : l.hasEnded t = false)
    (len : Nat) (memory : Bool) : Sound (ledgerTaskReserve l t len memory).1 :=
  SameBooks.result sound working rfl rfl rfl

theorem Sound.write (sound : Sound l) (working : l.hasEnded t = false)
    (len : Nat) : Sound (ledgerTaskWrite l t len).1 := by
  unfold ledgerTaskWrite
  split
  · exact sound
  · exact SameBooks.result sound working rfl rfl rfl

theorem mineFind_some {id : HexId} (found : ledgerMineFind l key id = some t) :
    t ∈ l.tasks ∧ (l.task t).id = id ∧ ∃ o, (l.task t).owner = some o ∧ (l.owner o).key = key := by
  unfold ledgerMineFind at found
  split at found
  · simp at found
  · rename_i u first
    split at found
    · simp at found
    · rename_i o owner
      split at found
      · rename_i mine
        obtain rfl := Option.some.inj found
        exact ⟨List.mem_of_find?_eq_some first, by simpa using List.find?_some first, o, owner, mine⟩
      · simp at found

theorem remove_cases (l : Ledger) (key : UInt64) (id : HexId) :
    (∃ e, ledgerRemove l key id = { ledger := l, value := some e, gone := [], hits := [] }) ∨
      ∃ t, ledgerMineFind l key id = some t ∧ l.hasEnded t = true ∧ ledgerRemove l key id =
          { ledger := (ledgerDrop l t []).1, value := none, gone := (ledgerDrop l t []).2
            hits := [] } := by
  unfold ledgerRemove
  split
  · exact .inl ⟨_, rfl⟩
  split
  · exact .inl ⟨_, rfl⟩
  rename_i t found
  split
  · rename_i ended
    exact .inr ⟨t, found, ended, rfl⟩
  · exact .inl ⟨_, rfl⟩

theorem Sound.remove (sound : Sound l) (key : UInt64) (id : HexId) : Sound (ledgerRemove l key id).ledger := by
  obtain ⟨e, eq⟩ | ⟨t, found, ended, eq⟩ := remove_cases l key id
  · rw [eq]
    exact sound
  · rw [eq]
    exact sound.drop (mineFind_some found).1 ended []

/-! ## Timers -/

theorem timerAdd_cases (timers : Vector Timer ledgerTimers) {due : Nat} {note : List UInt8}
    (some : due ≠ 0) (short : note.length ≤ ledgerNote) (id serial : Nat) :
    (∀ slot : Fin ledgerTimers, timers[slot].due ≠ 0) ∧ ledgerTimerAdd timers due id note serial = .error .ebusy ∨
      ∃ slot : Fin ledgerTimers, timers[slot].due = 0 ∧ ledgerTimerAdd timers due id note serial =
          .ok (timers.set slot { due := due, id := id, note := note, serial := serial }) := by
  unfold ledgerTimerAdd
  split
  · rename_i refused
    simp only [Bool.or_eq_true, decide_eq_true_eq] at refused
    omega
  split
  · rename_i full
    rw [Vector.findFinIdx?_eq_none_iff] at full
    exact .inl ⟨fun slot free => full _ (Vector.getElem_mem slot.isLt) (by simpa using free), rfl⟩
  · rename_i slot found
    exact .inr ⟨slot, by simpa using findFinIdx_some found, rfl⟩

/-- The ledger with a timer in the free slot of the owner at `o`, before the waits are woken. -/
def timerPut (l : Ledger) (o : OwnerRef) (now : Nat) (slot : Fin ledgerTimers) (due : Nat)
    (note : List UInt8) : Ledger :=
  let expired := ledgerOwnerExpire (l.owner o) now
  { l.setOwner o { expired with
      timers := expired.timers.set slot
        { due := due, id := l.nTimers % uint32Max + 1, note := note, serial := l.serials } slot.isLt } with
    nTimers := l.nTimers % uint32Max + 1
    serials := l.serials + 1 }

/-- What the setting of a timer can do: refuse at once, find no owner or no slot, or set it. -/
theorem timerSet_cases (l : Ledger) (env : Env) (key : UInt64) (due : Nat) (note : List UInt8) :
    (∃ e, ledgerTimerSet l env key due note = { ledger := l, value := .error e, gone := [], hits := [] }) ∨
      due ≠ 0 ∧ note.length ≤ ledgerNote ∧ ∃ m,
        ((∃ e, ledgerOwnerGet l key (env.clock 1) (env.memory 0) = (m, .error e) ∧ ledgerTimerSet l env key due note =
              { ledger := m, value := .error e, gone := [], hits := [] }) ∨
          ∃ o, ledgerOwnerGet l key (env.clock 1) (env.memory 0) = (m, .ok o) ∧ ((∀ slot : Fin ledgerTimers,
                (getElem (ledgerOwnerExpire (m.owner o) (env.clock 0)).timers slot slot.isLt).due ≠ 0) ∧
              ledgerTimerSet l env key due note =
                { ledger := m.setOwner o (ledgerOwnerExpire (m.owner o) (env.clock 0))
                  value := .error .ebusy, gone := [], hits := [] } ∨ ∃ slot : Fin ledgerTimers,
              (getElem (ledgerOwnerExpire (m.owner o) (env.clock 0)).timers slot slot.isLt).due = 0 ∧ ledgerTimerSet l env key due note =
                { ledger := (ledgerOwnerWake (timerPut m o (env.clock 0) slot due note) o).1
                  value := .ok (m.nTimers % uint32Max + 1), gone := []
                  hits := (ledgerOwnerWake (timerPut m o (env.clock 0) slot due note) o).2 })) := by
  unfold ledgerTimerSet
  split
  · exact .inl ⟨_, rfl⟩
  rename_i allowed
  simp only [Bool.or_eq_true, decide_eq_true_eq, not_or, not_lt] at allowed
  refine .inr ⟨allowed.1, allowed.2, ?_⟩
  rcases got : ledgerOwnerGet l key (env.clock 1) (env.memory 0) with ⟨m, e | o⟩
  · exact ⟨m, .inl ⟨e, rfl, rfl⟩⟩
  · refine ⟨m, .inr ⟨o, rfl, ?_⟩⟩
    obtain ⟨full, eq⟩ | ⟨slot, free, eq⟩ := timerAdd_cases
      (ledgerOwnerExpire (m.owner o) (env.clock 0)).timers allowed.1 allowed.2
      (m.nTimers % uint32Max + 1) m.serials
    · exact .inl ⟨full, by simp only [eq]⟩
    · exact .inr ⟨slot, free, by simp only [eq]; rfl⟩

theorem timerAny_of {timers : Vector Timer ledgerTimers} {slot : Fin ledgerTimers}
    (some : (getElem timers slot slot.isLt).due ≠ 0) : ledgerTimerAny timers = true := by
  simp only [ledgerTimerAny, Vector.any_eq_true]
  exact ⟨slot, slot.isLt, by simpa using some⟩

/-- An owner at hand, with slots of which one is taken, is no idle owner. -/
theorem Fetched.setTimers {l m : Ledger} {o : OwnerRef} (fetched : Fetched l m key o)
    {timers : Vector Timer ledgerTimers} (slot : Fin ledgerTimers) (some : (getElem timers slot slot.isLt).due ≠ 0) :
    Sound (m.setOwner o { m.owner o with timers := timers }) := by
  refine ⟨fetched.books.setTimers fetched.listed timers, fun p inside _ => ?_⟩
  by_cases here : p = o
  · simp [here, ledgerOwnerBusy, timerAny_of some]
  · simpa [here] using fetched.active p inside (by simpa using here)

/-- An owner at hand takes a timer. -/
theorem Fetched.timerPut {l m : Ledger} {o : OwnerRef} (fetched : Fetched l m key o)
    (now : Nat) (slot : Fin ledgerTimers) {due : Nat} (some : due ≠ 0) (note : List UInt8) :
    Sound (timerPut m o now slot due note) := by
  have put : Sound (m.setOwner o { m.owner o with
      timers := (ledgerOwnerExpire (m.owner o) now).timers.set slot
        { due := due, id := m.nTimers % uint32Max + 1, note := note, serial := m.serials } }) :=
    fetched.setTimers slot (by simpa using some)
  refine put.same_books ?_
  exact ⟨rfl, rfl, rfl, rfl, rfl, rfl, rfl, rfl, rfl, fun _ => ⟨rfl, rfl, rfl, rfl⟩, fun _ => rfl⟩

theorem Sound.timerSet (sound : Sound l) (env : Env) (key : UInt64) (due : Nat)
    (note : List UInt8) : Sound (ledgerTimerSet l env key due note).ledger := by
  obtain ⟨e, eq⟩ | ⟨some, _, m, ⟨e, got, eq⟩ | ⟨o, got, ⟨full, eq⟩ | ⟨slot, _, eq⟩⟩⟩ :=
    timerSet_cases l env key due note
  · rw [eq]
    exact sound
  · rw [eq]
    exact (sound.get_error got).1
  · rw [eq]
    exact (sound.get_ok got).setTimers ⟨0, by decide⟩ (full _)
  · rw [eq]
    exact ((sound.get_ok got).timerPut _ slot some note).same_books (SameBooks.wake _ o)

theorem timerLeft_eq (o : Owner) (id now : Nat) :
    ∃ timers, (ledgerTimerLeft o id now).1 = { o with timers := timers } := by
  unfold ledgerTimerLeft
  split
  · exact ⟨o.timers, rfl⟩
  · split
    · exact ⟨o.timers, rfl⟩
    · exact ⟨_, rfl⟩

/-- What the cancellation of a timer can do: find no owner, refuse, or free the slot. -/
theorem timerCancel_cases (l : Ledger) (env : Env) (key : UInt64) (id : Nat) :
    ledgerOwnerFind l key = none ∧ ledgerTimerCancel l env key id =
        { ledger := l, value := some .enoent, gone := [], hits := [] } ∨ ∃ o expired, ledgerOwnerFind l key = some o ∧
        expired = ledgerOwnerExpire (l.owner o) (env.clock 0) ∧ ((∃ e, ledgerTimerCancel l env key id =
            { ledger := ledgerOwnerGc (l.setOwner o expired) o, value := some e, gone := []
              hits := [] }) ∨ ∃ slot, ledgerOwnerTimer expired id = some slot ∧ env.clock 0 < (getElem expired.timers slot slot.isLt).due ∧
            ledgerTimerCancel l env key id =
              { ledger := ledgerOwnerGc (l.setOwner o { expired with
                  timers := expired.timers.set slot { getElem expired.timers slot slot.isLt with due := 0 } slot.isLt }) o
                value := none, gone := [], hits := [] }) := by
  unfold ledgerTimerCancel
  split
  · rename_i absent
    exact .inl ⟨absent, rfl⟩
  rename_i o found
  refine .inr ⟨o, _, found, rfl, ?_⟩
  unfold ledgerTimerLeft
  split
  · exact .inl ⟨_, rfl⟩
  · rename_i slot timer
    split
    · exact .inl ⟨_, rfl⟩
    · rename_i later
      exact .inr ⟨slot, timer, not_le.mp later, rfl⟩

theorem Sound.timerCancel (sound : Sound l) (env : Env) (key : UInt64) (id : Nat) :
    Sound (ledgerTimerCancel l env key id).ledger := by
  unfold ledgerTimerCancel
  split
  · exact sound
  · rename_i o found
    obtain ⟨timers, eq⟩ := timerLeft_eq (ledgerOwnerExpire (l.owner o) (env.clock 0)) id (env.clock 0)
    simp only [eq]
    exact sound.expireOne (ledgerOwnerFind_some found).1 timers

/-! ## Waits -/

theorem Sound.heard (sound : Sound l) (w : WaitRef) : Sound (ledgerWaitHeard l w) :=
  sound.same_books (SameBooks.setWait rfl)

theorem Sound.put (sound : Sound l) (w : WaitRef) : Sound (ledgerWaitPut l w).1 :=
  sound.same_books (SameBooks.setWait rfl)

theorem Waits.link (book : Waits l) (o : OwnerRef) (loop : Nat)
    (room : (l.owner o).nWaits < ledgerWaits) : Waits (ledgerWaitLink l o loop) := by
  have new : ∀ p, l.nextWait ∉ (l.owner p).waits := by
    intro p inside
    exact (book.old _ p ((book.owner_iff _ p).mpr inside)).false
  constructor
  · intro w p
    by_cases same : w = l.nextWait
    · by_cases here : p = o
      · simp [ledgerWaitLink, same, here]
      · simp [ledgerWaitLink, same, here, new p, Ne.symm here]
    · by_cases here : p = o
      · simp [ledgerWaitLink, same, here, book.owner_iff]
      · simp [ledgerWaitLink, same, here, book.owner_iff]
  · intro p
    by_cases here : p = o
    · have apart : ∀ w ∈ (l.owner o).waits, ¬w = l.nextWait :=
        fun w inside same => new o (same ▸ inside)
      simpa [ledgerWaitLink, here, List.nodup_append, book.nodup] using apart
    · simpa [ledgerWaitLink, here] using book.nodup p
  · intro p
    by_cases here : p = o <;> simp [ledgerWaitLink, here, book.nWaits_eq]
  · intro p
    by_cases here : p = o
    · simpa [ledgerWaitLink, here] using room
    · simpa [ledgerWaitLink, here] using book.nWaits_le p
  · intro w p owner
    by_cases same : w = l.nextWait
    · simp [ledgerWaitLink, same]
    · have old := book.old w p (by simpa [ledgerWaitLink, same] using owner)
      exact old.trans (Nat.lt_succ_self _)

theorem Fetched.link {l m : Ledger} {o : OwnerRef} (fetched : Fetched l m key o)
    (loop : Nat) (room : (m.owner o).nWaits < ledgerWaits) : Sound (ledgerWaitLink m o loop) := by
  have books := fetched.books
  refine ⟨⟨books.records.congr rfl rfl rfl rfl (by simp [ledgerWaitLink]) ?_,
    books.owners.congr rfl rfl rfl ?_, books.waits.link o loop room, ?_⟩, ?_⟩
  · intro p
    by_cases here : p = o <;> simp [ledgerWaitLink, here]
  · intro p
    by_cases here : p = o <;> simp [ledgerWaitLink, here]
  · intro p busy
    by_cases here : p = o
    · exact here ▸ fetched.listed
    · exact books.listed p (by simpa [ledgerWaitLink, here] using busy)
  · intro p inside _
    by_cases here : p = o
    · simp [ledgerWaitLink, here, ledgerOwnerBusy]
    · simpa [ledgerWaitLink, here] using fetched.active p inside (by simpa using here)

/-- What the entry of a wait can do: refuse, or link the wait. -/
theorem waitEnter_cases (l : Ledger) (env : Env) (key : UInt64) (loop : Nat) : ledgerWaitEnter l env key loop =
        { ledger := l, value := .error .enomem, gone := [], hits := [] } ∨ ∃ m,
        (∃ e, ledgerOwnerGet l key (env.clock 0) (env.memory 1) = (m, .error e) ∧ ledgerWaitEnter l env key loop =
            { ledger := m, value := .error e, gone := [], hits := [] }) ∨
        ∃ o, ledgerOwnerGet l key (env.clock 0) (env.memory 1) = (m, .ok o) ∧ (ledgerWaits ≤ (m.owner o).nWaits ∧
              ledgerWaitEnter l env key loop = { ledger := m, value := .error .ebusy, gone := [], hits := [] } ∨
            (m.owner o).nWaits < ledgerWaits ∧ ledgerWaitEnter l env key loop =
                { ledger := ledgerWaitLink m o loop, value := .ok m.nextWait, gone := []
                  hits := [] }) := by
  unfold ledgerWaitEnter
  split
  · exact .inl rfl
  refine .inr ?_
  rcases got : ledgerOwnerGet l key (env.clock 0) (env.memory 1) with ⟨m, e | o⟩
  · exact ⟨m, .inl ⟨e, rfl, rfl⟩⟩
  · refine ⟨m, .inr ⟨o, rfl, ?_⟩⟩
    by_cases full : ledgerWaits ≤ (m.owner o).nWaits
    · exact .inl ⟨full, by simp only [if_pos full]⟩
    · exact .inr ⟨not_le.mp full, by simp only [if_neg full]⟩

theorem Sound.waitEnter (sound : Sound l) (env : Env) (key : UInt64) (loop : Nat) :
    Sound (ledgerWaitEnter l env key loop).ledger := by
  obtain eq | ⟨m, ⟨e, got, eq⟩ | ⟨o, got, ⟨full, eq⟩ | ⟨room, eq⟩⟩⟩ := waitEnter_cases l env key loop
  · rw [eq]
    exact sound
  · rw [eq]
    exact (sound.get_error got).1
  · rw [eq]
    have fetched := sound.get_ok got
    refine ⟨fetched.books, fun p inside _ => ?_⟩
    by_cases here : p = o
    · have some : (m.owner o).nWaits ≠ 0 := by
        have positive : 0 < ledgerWaits := by decide
        omega
      simp [here, ledgerOwnerBusy, some]
    · exact fetched.active p inside (by simpa using here)
  · rw [eq]
    exact (sound.get_ok got).link loop room

theorem Sound.waitUnlink (sound : Sound l) (w : WaitRef) : Sound (ledgerWaitUnlink l w) := by
  have books := sound.accounts
  unfold ledgerWaitUnlink
  split
  · exact sound
  rename_i o owner
  have inside : w ∈ (l.owner o).waits := (books.waits.owner_iff w o).mp owner
  have listed : o ∈ l.owners := by
    refine books.listed o ?_
    have some : (l.owner o).nWaits ≠ 0 := by
      rw [books.waits.nWaits_eq]
      exact (List.length_pos_of_mem inside).ne'
    simp [ledgerOwnerBusy, some]
  have unlinked : Accounts ((l.setWait w { l.wait w with owner := none }).setOwner o
      { l.owner o with waits := (l.owner o).waits.erase w, nWaits := (l.owner o).nWaits - 1 }) := by
    refine ⟨books.records.congr rfl rfl rfl rfl (by simp) ?_, books.owners.congr rfl rfl rfl ?_, ?_, ?_⟩
    · intro p
      by_cases here : p = o <;> simp [here]
    · intro p
      by_cases here : p = o <;> simp [here]
    · constructor
      · intro v p
        by_cases same : v = w
        · subst same
          by_cases here : p = o
          · simp [here, (books.waits.nodup o).mem_erase_iff]
          · have absent : v ∉ (l.owner p).waits := fun also =>
              here (Option.some.inj (((books.waits.owner_iff v p).mpr also).symm.trans owner))
            simp [here, absent]
        · by_cases here : p = o
          · simp [same, here, List.mem_erase_of_ne same, books.waits.owner_iff]
          · simp [same, here, books.waits.owner_iff]
      · intro p
        by_cases here : p = o
        · simpa [here] using (books.waits.nodup o).erase w
        · simpa [here] using books.waits.nodup p
      · intro p
        by_cases here : p = o
        · simp [here, List.length_erase_of_mem inside, books.waits.nWaits_eq]
        · simp [here, books.waits.nWaits_eq]
      · intro p
        have bound := books.waits.nWaits_le
        by_cases here : p = o
        · simpa [here] using (Nat.sub_le _ 1).trans (bound o)
        · simpa [here] using bound p
      · intro v p owner'
        by_cases same : v = w
        · simp [same] at owner'
        · exact books.waits.old v p (by simpa [same] using owner')
    · intro p busy
      by_cases here : p = o
      · exact here ▸ listed
      · exact books.listed p (by simpa [here] using busy)
  refine ⟨unlinked.gc listed, NoIdle.gc unlinked.owners.nodup ?_⟩
  intro p inside other _
  simpa [other] using sound.noIdle p inside (by simp)

/-! ## Listing and telling -/

theorem Sound.list (sound : Sound l) (env : Env) (key : UInt64) : Sound (ledgerList l env key).ledger := by
  have swept := sound.sweep none false (env.clock 1)
  simp only [ledgerList]
  split
  · exact swept
  · rename_i o found
    exact swept.expireOne (ledgerOwnerFind_some found).1 _

theorem Sound.tell (sound : Sound l) (env : Env) (w : WaitRef) (ids : List HexId) :
    Sound (ledgerTell l env w ids).ledger := by
  unfold ledgerTell
  split
  · exact sound
  rename_i o owner
  have books := sound.accounts
  have waiting : (l.owner o).nWaits ≠ 0 := by
    rw [books.waits.nWaits_eq]
    exact (List.length_pos_of_mem ((books.waits.owner_iff w o).mp owner)).ne'
  have listed : o ∈ l.owners := books.listed o (by simp [ledgerOwnerBusy, waiting])
  refine Sound.same_books ?_ (SameBooks.tell _ _ _)
  -- The wait itself keeps the owner in the table when the last timer is taken.
  refine ⟨books.setTimers listed _, fun p inside _ => ?_⟩
  by_cases here : p = o
  · simp [here, ledgerOwnerBusy, ledgerOwnerTimers, waiting]
  · simpa [here] using sound.noIdle p inside (by simp)

end Ledger

end Askai
