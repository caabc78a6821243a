import Askai.Journal.Invariant
import Askai.Library.Trace

/-!
# What the checkpoints say, over whole runs

Items for any number of jobs, and restarts, in any order: a checkpoint is the fold of the records
that were accepted for its job, and the recovery cache keeps its bounds.
-/

namespace Askai

open Library

variable {I : Type} [DecidableEq I]

/-- An item for the writer, with what its system calls answer, or a restart of the program. -/
inductive JournalEvent (I : Type) where
  | put (record : JournalRecord I) (io : WriteIo I)
  | thought (id : I) (turn offset len : Nat) (unlink : I → DirChange) (write : Option JournalErrno)
  | close (id : I) (turn : Nat) (finish : Bool) (commit : Option JournalErrno)
  | restart (names : List I) (touched : I → Nat)

/-- The job that an item is about. -/
def JournalEvent.about : JournalEvent I → Option I
  | .put record _ => some record.id
  | .thought id .. | .close id .. => some id
  | .restart .. => none

/-- The journal, and what became of the records put. -/
structure Books (I : Type) where
  journal : Journal I := {}
  /-- The list that the first record of a job's checkpoint was folded into. -/
  base : I → List (JournalRecord I) := fun _ => []
  /-- The records that a job's checkpoint has taken, in order. -/
  accepted : I → List (JournalRecord I) := fun _ => []
  /-- A record of the job was lost, and none has replaced all of its records since. -/
  lost : I → Bool := fun _ => false
  /-- The loss is in no entry: the job had none then, or its entry has gone since. -/
  forgotten : I → Bool := fun _ => false
  /-- A checkpoint of the job was written. -/
  written : I → Bool := fun _ => false

/-- The job's entry has the error of a lost record. -/
def Journal.remembers (j : Journal I) (id : I) : Bool :=
  (journalJobFind j id).any fun entry => entry.2.error.isSome

/-- A record that puts an end to the gap that a lost one leaves. -/
def JournalKind.mends (kind : JournalKind) : Bool :=
  kind = .state || kind.terminal

namespace Books

/-- With the journal as an item leaves it. -/
def moved (s : Books I) (t : Journal I) : Books I :=
  { s with
    journal := t
    accepted := fun id => if (t.files id).isNone then [] else s.accepted id
    forgotten := fun id =>
      s.forgotten id || (s.journal.remembers id && (journalJobFind t id).isNone) }

/-- A record is taken. -/
def accept (s : Books I) (record : JournalRecord I) (t : Journal I) : Books I :=
  { s.moved t with
    base := if (s.journal.files record.id).isNone then
        Function.update s.base record.id (s.journal.before record)
      else s.base
    accepted := Function.update (s.moved t).accepted record.id (s.accepted record.id ++ [record])
    lost := if record.kind.mends then Function.update s.lost record.id false else s.lost
    forgotten :=
      if record.kind.mends then Function.update (s.moved t).forgotten record.id false
      else (s.moved t).forgotten
    written := Function.update s.written record.id true }

/-- A record is lost. -/
def lose (s : Books I) (record : JournalRecord I) (t : Journal I) : Books I :=
  { s.moved t with
    lost := Function.update s.lost record.id true
    forgotten := Function.update (s.moved t).forgotten record.id
      ((s.moved t).forgotten record.id || (journalJobFind s.journal record.id).isNone) }

/-- A record put, of one of the checkpoints' kinds or not. -/
def put (s : Books I) (record : JournalRecord I) (io : WriteIo I) : Books I :=
  let out := journalCheckpointWrite s.journal record io
  match out.1 with
  | none => s.accept record out.2
  | some _ => if record.kind = .other then s.moved out.2 else s.lose record out.2

/-- A restart: the losses are another run's. -/
def restarted (s : Books I) (t : Journal I) : Books I :=
  { s with journal := t, lost := fun _ => false, forgotten := fun _ => false }

/-- A new journal, beside the legacy WAL if there is one. -/
def start (wal : Option (JournalFile I)) : Books I :=
  { journal := { wal } }

end Books

/-- The items that the journal takes, and the restarts that it survives. -/
inductive JournalStep (s : Books I) : JournalEvent I → Books I → Prop
  | put {record io} (short : record.data.length ≤ journalRecordMax) :
      JournalStep s (.put record io) (s.put record io)
  | thought {id turn offset len unlink write} :
      JournalStep s (.thought id turn offset len unlink write)
        (s.moved (journalThoughtPut s.journal id turn offset len unlink write).2)
  | close {id turn finish commit} :
      JournalStep s (.close id turn finish commit)
        (s.moved (journalThoughtClose s.journal id turn finish commit).2)
  | restart {names touched t} (lists : s.journal.Lists names)
      (scanned : journalJobsScan s.journal names touched = .ok t) :
      JournalStep s (.restart names touched) (s.restarted t)

/-- The jobs directory's changes are synchronized, and no item marks its job as migrated. -/
def JournalEvent.Plain : JournalEvent I → Prop
  | .put record io => Journal.SyncedIo io ∧ record.kind ≠ .legacy
  | .thought _ _ _ _ unlink _ => Synced unlink
  | _ => True

namespace Journal

variable {j m t : Journal I}

theorem Expires.files_some {slot : Option (Fin journalJobs)} (expires : Expires slot j t) {id : I}
    {file : JournalFile I} (had : t.files id = some file) : j.files id = some file := by
  cases before : j.files id with
  | none =>
    rw [expires.files_none before] at had
    cases had
  | some old =>
    rcases expires.removed before with same | ⟨gone, -⟩
    · rw [← same, had]
    · rw [gone] at had
      cases had

theorem MadeRoom.files_some {id id' : I} {file : JournalFile I} (made : MadeRoom id j m t)
    (had : m.files id' = some file) : j.files id' = some file := by
  obtain ⟨slot, expires, -⟩ := made.expires
  exact expires.files_some had

theorem Table.remembers (table : j.Table) {id : I} :
    j.remembers id = true ↔ ∃ k job, j.jobs k = some job ∧ job.id = id ∧ job.error ≠ none := by
  constructor
  · intro has
    cases found : journalJobFind j id with
    | none => simp [Journal.remembers, found] at has
    | some entry =>
      obtain ⟨k, job⟩ := entry
      obtain ⟨here, own⟩ := find_some found
      rw [Journal.remembers, found] at has
      exact ⟨k, job, here, own, by simpa [Option.isSome_iff_ne_none] using has⟩
  · rintro ⟨k, job, here, rfl, lost⟩
    rw [Journal.remembers, table.find here]
    simpa [Option.isSome_iff_ne_none] using lost

end Journal

namespace Books

open Journal

variable {s t : Books I}

/-! ## The fold -/

/-- Each checkpoint is the fold of the records accepted for its job, and each loss that is not
forgotten is in its job's entry. -/
structure Sound (s : Books I) : Prop where
  good : s.journal.Good
  fold : ∀ id file, s.journal.files id = some file →
    file.records = (s.accepted id).foldl journalFold (s.base id) ∧ s.accepted id ≠ []
  gone : ∀ id, s.journal.files id = none → s.accepted id = []
  lost : ∀ id, s.lost id = true → s.forgotten id = false → s.journal.remembers id = true

theorem sound_start (wal : Option (JournalFile I)) : (start wal).Sound where
  good :=
    { table :=
        { distinct := fun _ _ _ _ here => by cases here
          count := by simp [start, used]
          bytes := by simp [start, bytesAt]
          room := Nat.zero_le _ }
      shelf :=
        { kept := fun _ _ here => by cases here
          listed := fun _ _ had => by cases had
          bare := fun _ _ here => by cases here } }
  fold := fun _ _ had => by cases had
  gone := fun _ _ => rfl
  lost := fun _ lost => by cases lost

/-- What an item leaves alone, but for the job `id`. -/
structure Around (s : Books I) (id : I) (t : Journal I) : Prop where
  good : t.Good
  files : ∀ other, other ≠ id → ∀ file, t.files other = some file → s.journal.files other = some file
  errors : ∀ other, other ≠ id → s.journal.remembers other = true → t.remembers other = true ∨
    journalJobFind t other = none

variable {u : Journal I} {record : JournalRecord I}

/-- The other jobs' checkpoints and losses are as they were. -/
theorem Around.fold {id other : I} (around : s.Around id u) (sound : s.Sound)
    (apart : other ≠ id) {file : JournalFile I} (had : u.files other = some file) :
    file.records = ((s.moved u).accepted other).foldl journalFold (s.base other) ∧ (s.moved u).accepted other ≠ [] := by
  have same : (s.moved u).accepted other = s.accepted other := by simp [moved, had]
  rw [same]
  exact sound.fold other file (around.files other apart file had)

theorem moved_gone {id : I} (gone : u.files id = none) : (s.moved u).accepted id = [] := by
  simp [moved, gone]

theorem Around.lost {id other : I} {u : Journal I} (around : s.Around id u) (sound : s.Sound)
    (apart : other ≠ id) (lost : s.lost other = true)
    (remembered : (s.moved u).forgotten other = false) : u.remembers other = true := by
  simp only [moved, Bool.or_eq_false_iff, Bool.and_eq_false_iff] at remembered
  have before := sound.lost other lost remembered.1
  rcases around.errors other apart before with still | gone
  · exact still
  · rcases remembered.2 with never | kept
    · rw [before] at never
      cases never
    · simp [gone] at kept

theorem around_of_failed (sound : s.Sound)
    (failed : Failed s.journal record u) : s.Around record.id u := by
  obtain ⟨m, made, same, -⟩ := failed.files
  refine { good := failed.good, files := ?_, errors := ?_ }
  · intro other _ file had
    rw [same] at had
    exact made.files_some had
  · intro other apart has
    obtain ⟨k, job, here, rfl, lost⟩ := sound.good.table.remembers.mp has
    rcases failed.others k job here apart with stays | gone
    · exact .inl (failed.good.table.remembers.mpr ⟨k, job, stays, rfl, lost⟩)
    · exact .inr gone

theorem around_of_stored (sound : s.Sound)
    (stored : Stored s.journal record u) : s.Around record.id u := by
  obtain ⟨m, made, same⟩ := stored.files
  refine { good := stored.good, files := ?_, errors := ?_ }
  · intro other apart file had
    rw [same, Function.update_of_ne apart] at had
    exact made.files_some had
  · intro other apart has
    obtain ⟨k, job, here, rfl, lost⟩ := sound.good.table.remembers.mp has
    rcases stored.others k job here apart with stays | gone
    · exact .inl (stored.good.table.remembers.mpr ⟨k, job, stays, rfl, lost⟩)
    · exact .inr gone

theorem Sound.aside {id : I} (sound : s.Sound) (aside : Aside id s.journal u) : (s.moved u).Sound := by
  obtain ⟨m, made, same⟩ := aside.files
  refine { good := aside.good, fold := ?_, gone := fun _ gone => moved_gone gone, lost := ?_ }
  · intro other file had
    have before : s.journal.files other = some file := by
      apply made.files_some
      rw [← same]
      exact had
    have kept : (s.moved u).accepted other = s.accepted other := by
      have had : u.files other = some file := had
      simp [moved, had]
    rw [kept]
    exact sound.fold other file before
  · intro other lost remembered
    simp only [moved, Bool.or_eq_false_iff, Bool.and_eq_false_iff] at remembered
    have before := sound.lost other lost remembered.1
    obtain ⟨k, job, here, rfl, error⟩ := sound.good.table.remembers.mp before
    rcases aside.errors k job here with ⟨after, stays, own, still⟩ | gone
    · exact aside.good.table.remembers.mpr ⟨k, after, stays, own, still ▸ error⟩
    · rcases remembered.2 with never | kept
      · rw [before] at never
        cases never
      · simp [gone] at kept

theorem Sound.lose (sound : s.Sound)
    (failed : Failed s.journal record u) (known : record.kind ≠ .other) : (s.lose record u).Sound := by
  have around := around_of_failed sound failed
  obtain ⟨m, made, same, own⟩ := failed.files
  refine { good := failed.good, fold := ?_, gone := fun _ gone => moved_gone gone, lost := ?_ }
  · intro other file had
    rcases eq_or_ne other record.id with rfl | apart
    · have had : u.files record.id = some file := had
      have kept : (s.lose record u).accepted record.id = s.accepted record.id := by
        simp [Books.lose, moved, had]
      rw [kept]
      rw [same, own] at had
      exact sound.fold record.id file had
    · exact around.fold sound apart had
  · intro other lost remembered
    rcases eq_or_ne other record.id with rfl | apart
    · simp only [Books.lose, Function.update_self, Bool.or_eq_false_iff] at remembered
      cases found : journalJobFind s.journal record.id with
      | none => simp [found] at remembered
      | some entry =>
        obtain ⟨k, job⟩ := entry
        obtain ⟨after, here, mine, error⟩ := failed.error known k job found
        exact failed.good.table.remembers.mpr ⟨k, after, here, mine, error⟩
    · simp only [Books.lose, Function.update_of_ne apart] at lost remembered
      exact around.lost sound apart lost remembered

theorem Sound.accept (sound : s.Sound)
    (stored : Stored s.journal record u) : (s.accept record u).Sound := by
  have around := around_of_stored sound stored
  obtain ⟨m, made, same⟩ := stored.files
  refine { good := stored.good, fold := ?_, gone := ?_, lost := ?_ }
  · intro other file had
    rcases eq_or_ne other record.id with rfl | apart
    · have had : u.files record.id = some file := had
      rw [same, Function.update_self] at had
      obtain rfl := Option.some.inj had
      rw [records_journalFrames]
      simp only [Books.accept, Function.update_self, List.foldl_append, List.foldl_cons, List.foldl_nil]
      refine ⟨?_, by simp⟩
      congr 1
      cases before : s.journal.files record.id with
      | none =>
        rw [sound.gone record.id before]
        simp
      | some old =>
        have list := (sound.fold record.id old before).1
        simp [Journal.before, before, list]
    · have kept := around.fold sound apart had
      have base : (s.accept record u).base other = s.base other := by
        simp only [Books.accept]
        split
        · exact Function.update_of_ne apart ..
        · rfl
      rw [base]
      simpa only [Books.accept, Function.update_of_ne apart] using kept
  · intro other gone
    have apart : other ≠ record.id := by
      rintro rfl
      have gone : u.files record.id = none := gone
      rw [same, Function.update_self] at gone
      cases gone
    simp only [Books.accept, Function.update_of_ne apart]
    exact moved_gone gone
  · intro other lost remembered
    rcases eq_or_ne other record.id with rfl | apart
    · exfalso
      -- what was lost would have kept the record out
      simp only [Books.accept] at lost remembered
      cases mend : record.kind.mends with
      | true => simp [mend] at lost
      | false =>
        simp only [mend, Bool.false_eq_true, if_false] at lost remembered
        simp only [moved, Bool.or_eq_false_iff] at remembered
        have before := sound.lost record.id lost remembered.1
        obtain ⟨k, job, here, own, error⟩ := sound.good.table.remembers.mp before
        have found := sound.good.table.find here
        rw [own] at found
        simp only [JournalKind.mends, Bool.or_eq_false_iff, decide_eq_false_iff_not] at mend
        rcases stored.may k job found with clear | state | terminal
        · exact error clear
        · exact mend.1 state
        · rw [terminal] at mend
          exact absurd mend.2 (by simp)
    · have kept : (s.accept record u).lost other = s.lost other ∧
          (s.accept record u).forgotten other = (s.moved u).forgotten other := by
        simp only [Books.accept]
        split <;> simp [Function.update_of_ne apart]
      rw [kept.1] at lost
      rw [kept.2] at remembered
      exact around.lost sound apart lost remembered

/-- What an item comes to, with the directory's changes synchronized. -/
theorem Sound.outcome (sound : s.Sound) {io : WriteIo I}
    (plain : (JournalEvent.put record io).Plain) (short : record.data.length ≤ journalRecordMax) :
    let out := journalCheckpointWrite s.journal record io
    out.1 ≠ none ∧ Failed s.journal record out.2 ∨
      out.1 = none ∧ record.kind ≠ .other ∧ Stored s.journal record out.2 :=
  (wrote plain.1 sound.good.table sound.good.shelf).outcome sound.good plain.2 short

theorem Sound.step {e : JournalEvent I} (sound : s.Sound) (plain : e.Plain) (step : JournalStep s e t) : t.Sound := by
  cases step with
  | @put record io short =>
    rw [Books.put]
    rcases sound.outcome plain short with ⟨error, failed⟩ | ⟨done, known, stored⟩
    · cases out : (journalCheckpointWrite s.journal record io).1 with
      | none => exact absurd out error
      | some e =>
        simp only
        split
        · -- a record of no checkpoint's kind changes nothing
          rename_i other
          have same : (journalCheckpointWrite s.journal record io).2 = s.journal := by
            rw [journalCheckpointWrite, if_pos other]
          rw [same]
          exact sound.aside (.refl sound.good record.id)
        · rename_i known
          exact sound.lose failed known
    · simp only [done]
      exact sound.accept stored
  | thought => exact sound.aside (sound.good.thoughtPut plain ..)
  | close => exact sound.aside (sound.good.thoughtClose ..)
  | @restart names touched u lists scanned =>
    obtain ⟨v, ok, good, files, -⟩ := sound.good.scan touched lists
    rw [ok] at scanned
    obtain rfl := Except.ok.inj scanned
    refine { good, fold := ?_, gone := ?_, lost := (by rintro _ ⟨⟩) }
    · intro id file had
      simp only [restarted, files] at had
      exact sound.fold id file had
    · intro id gone
      simp only [restarted, files] at gone
      exact sound.gone id gone

omit [DecidableEq I] in
/-- An empty journal has room for a small record. -/
theorem loose_start {bytes : Nat} {terminal : Bool} (small : bytes ≤ journalRecoveryBytes) :
    crowded ({} : Journal I) none bytes terminal = false := by
  have jobs : (0 : Nat) ≠ journalJobs := by
    rw [journalJobs_eq]
    omega
  simp only [crowded, Option.bind_none, Option.map_none, Option.getD_none, sub64_of_le le_rfl,
    Bool.or_eq_false_iff, decide_eq_false_iff_not, not_lt, decide_true, Bool.true_and, jobs,
    not_false_eq_true, and_true, Nat.zero_le, true_and, Nat.sub_zero]
  omega

end Books

end Askai
