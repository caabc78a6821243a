import Askai.Journal.Recovery

/-!
# The bounds of the recovery cache

How large the checkpoints may grow together, which of them may go, and that what the legacy WAL says
of a job is not heard again once a checkpoint of the job was written.
-/

namespace Askai

open Library

variable {I : Type} [DecidableEq I]

namespace Books

open Journal

variable {s t : Books I}

/-- No job that the legacy WAL knows begins its checkpoints with a state. -/
def Migrates (s : Books I) : JournalEvent I → Prop
  | .put record _ => record.kind = .state → s.journal.files record.id = none →
      s.journal.walRecords record.id = []
  | _ => True

/-- The steps that meet the condition of the recovery cache's promise. -/
def CacheStep (s : Books I) (e : JournalEvent I) (t : Books I) : Prop :=
  e.Plain ∧ s.Migrates e ∧ JournalStep s e t

/-- Jobs that the legacy WAL knows are marked as long as they are kept, and kept once written. -/
structure Moved (s : Books I) : Prop where
  sound : s.Sound
  marks : ∀ id file, s.journal.files id = some file → s.journal.walRecords id ≠ [] →
    marked file.records = true
  kept : ∀ id, s.written id = true → s.journal.files id = none → s.journal.walRecords id = []

/-- What goes to make room is of a job that has ended and did not come from the legacy WAL, and none
that stays was touched before. -/
structure Removed (s : Books I) (t : Journal I) (own : Option I) (id : I) (file : JournalFile I) :
    Prop where
  flags : journalJobFlags file.records = (true, false)
  oldest : ∃ k job, s.journal.jobs k = some job ∧ job.id = id ∧
    ∀ l other, s.journal.jobs l = some other → t.jobs l = some other →
      some other.id ≠ own → other.terminal = true → other.legacy = false →
        job.touched ≤ other.touched

theorem removed_of_made {id id' : I} {m u : Journal I} {file : JournalFile I} (sound : s.Sound)
    (made : MadeRoom id s.journal m u) (had : s.journal.files id' = some file)
    (gone : m.files id' = none) : Removed s u (some id) id' file := by
  obtain ⟨slot, expires, own⟩ := made.expires
  rcases expires.removed had with still | ⟨-, k, job, here, mine, away, ended, new, least⟩
  · rw [still] at gone
    cases gone
  · obtain ⟨l, other, at_, same, filled⟩ := sound.good.shelf.listed id' file had
    obtain rfl := sound.good.table.distinct k l job other here at_ (mine.trans same.symm)
    rw [here] at at_
    obtain rfl := Option.some.inj at_
    obtain ⟨found, there, fits⟩ := sound.good.shelf.kept k job here filled
    rw [mine, had] at there
    obtain rfl := Option.some.inj there
    refine { flags := ?_, oldest := ⟨k, job, here, mine, ?_⟩ }
    · rw [← fits.flags, ended, new]
    · intro n third before after apart terminal legacy
      have off : third.id ≠ id := fun same => apart (congrArg some same)
      apply least n third (made.stays n third after off) _ terminal legacy
      rintro rfl
      obtain ⟨keeper, there, his⟩ := own n rfl
      rw [before] at there
      exact off (Option.some.inj there ▸ his)

theorem walRecords_congr {j u : Journal I} (same : u.wal = j.wal) (id : I) : u.walRecords id = j.walRecords id := by
  rw [walRecords, walRecords, same]

/-- What made room left what the legacy WAL knows. -/
theorem Moved.not_gone {id id' : I} {m u : Journal I} {file : JournalFile I} (moved : s.Moved)
    (made : MadeRoom id s.journal m u) (had : s.journal.files id' = some file)
    (gone : m.files id' = none) : s.journal.walRecords id' = [] := by
  by_contra known
  have mark := moved.marks id' file had known
  have flags := (removed_of_made moved.sound made had gone).flags
  rw [marked, flags] at mark
  cases mark

/-- A step that writes no checkpoint. -/
theorem Moved.made {id : I} {m : Journal I} (moved : s.Moved) (sound : t.Sound)
    (made : MadeRoom id s.journal m t.journal) (same : t.journal.files = m.files)
    (wal : t.journal.wal = s.journal.wal) (written : t.written = s.written) : t.Moved where
  sound
  marks := by
    intro other file had known
    rw [same] at had
    rw [walRecords_congr wal] at known
    exact moved.marks other file (made.files_some had) known
  kept := by
    intro other before gone
    rw [written] at before
    rw [same] at gone
    rw [walRecords_congr wal]
    cases had : s.journal.files other with
    | none => exact moved.kept other before had
    | some file => exact moved.not_gone made had gone

omit [DecidableEq I] in
/-- A record that is not of the mark's kind leaves the mark. -/
theorem marked_fold {records : List (JournalRecord I)} {record : JournalRecord I}
    (mark : marked records = true) (unmarked : record.kind ≠ .legacy) : marked (journalFold records record) = true := by
  rw [journalFold, if_pos mark]
  split
  · simp [marked, journalJobFlags, legacyMark]
  · rw [marked, flags_filter records record unmarked]
    exact mark

theorem Moved.accept {record : JournalRecord I} {u : Journal I} (moved : s.Moved)
    (sound : (s.accept record u).Sound) (stored : Stored s.journal record u) (unmarked : record.kind ≠ .legacy)
    (migrates : record.kind = .state → s.journal.files record.id = none →
      s.journal.walRecords record.id = []) : (s.accept record u).Moved := by
  obtain ⟨m, made, same⟩ := stored.files
  refine { sound, marks := ?_, kept := ?_ }
  · intro other file had known
    have had : u.files other = some file := had
    have known : u.walRecords other ≠ [] := known
    rw [walRecords_congr stored.wal] at known
    rcases eq_or_ne other record.id with rfl | apart
    · rw [same, Function.update_self] at had
      obtain rfl := Option.some.inj had
      rw [records_journalFrames]
      apply marked_fold _ unmarked
      cases before : s.journal.files record.id with
      | some old =>
        simp only [Journal.before, before]
        exact moved.marks record.id old before known
      | none =>
        have state : record.kind ≠ .state := fun state => known (migrates state before)
        simp only [Journal.before, before, state, if_false, migrated]
        have filled : (s.journal.walRecords record.id).isEmpty = false := by simpa using known
        rw [marked, flags_withMark, filled]
        simp
    · rw [same, Function.update_of_ne apart] at had
      exact moved.marks other file (made.files_some had) known
  · intro other written gone
    have gone : u.files other = none := gone
    have apart : other ≠ record.id := by
      rintro rfl
      rw [same, Function.update_self] at gone
      cases gone
    simp only [Books.accept, Function.update_of_ne apart] at written
    rw [same, Function.update_of_ne apart] at gone
    have unsaid : s.journal.walRecords other = [] := by
      cases had : s.journal.files other with
      | none => exact moved.kept other written had
      | some file => exact moved.not_gone made had gone
    exact (walRecords_congr stored.wal other).trans unsaid

theorem moved_start (wal : Option (JournalFile I)) : (start wal).Moved where
  sound := sound_start wal
  marks := fun _ _ had => by cases had
  kept := fun _ written => by cases written

theorem Moved.step {e : JournalEvent I} (moved : s.Moved) (step : CacheStep s e t) : t.Moved := by
  obtain ⟨plain, migrates, step⟩ := step
  have sound := moved.sound.step plain step
  cases step with
  | @put record io short =>
    rw [Books.put] at sound ⊢
    rcases moved.sound.outcome plain short with ⟨error, failed⟩ | ⟨done, known, stored⟩
    · obtain ⟨m, made, same, -⟩ := failed.files
      cases out : (journalCheckpointWrite s.journal record io).1 with
      | none => exact absurd out error
      | some e =>
        simp only [out] at sound ⊢
        split at sound
        · rename_i other
          rw [if_pos other]
          exact moved.made sound made same failed.wal rfl
        · rename_i known
          rw [if_neg known]
          exact moved.made sound made same failed.wal rfl
    · simp only [done] at sound ⊢
      exact moved.accept sound stored plain.2 migrates
  | @thought id turn offset len unlink write =>
    have aside := moved.sound.good.thoughtPut plain id turn offset len write
    obtain ⟨m, made, same⟩ := aside.files
    exact moved.made sound made same aside.wal rfl
  | @close id turn finish commit =>
    have aside := moved.sound.good.thoughtClose id turn finish commit
    obtain ⟨m, made, same⟩ := aside.files
    exact moved.made sound made same aside.wal rfl
  | @restart names touched u lists scanned =>
    obtain ⟨v, ok, good, files, wal⟩ := moved.sound.good.scan touched lists
    rw [ok] at scanned
    obtain rfl := Except.ok.inj scanned
    refine { sound, marks := ?_, kept := ?_ }
    · intro id file had known
      simp only [restarted, files] at had
      simp only [restarted, walRecords_congr wal] at known
      exact moved.marks id file had known
    · intro id written gone
      simp only [restarted, files] at gone
      simp only [restarted, walRecords_congr wal]
      exact moved.kept id written gone

/-! ## The bounds -/

/-- What the recovery cache promises. -/
structure Bounded (s : Books I) : Prop where
  /-- The writer knows how large the checkpoints are together. -/
  sum : ∀ names, s.journal.Lists names → s.journal.recoveryBytes = (names.map s.journal.sizeOf).sum
  room : s.journal.recoveryBytes ≤ journalRecoveryBytes + journalTerminalBytes
  count : s.journal.nJobs = s.journal.used ∧ s.journal.nJobs ≤ journalJobs
  /-- The room beyond is for the records that end a job. -/
  ordinary : ∀ record io, (JournalEvent.put record io).Plain →
    record.data.length ≤ journalRecordMax → record.kind.terminal = false →
      (journalCheckpointWrite s.journal record io).1 = none →
        (journalCheckpointWrite s.journal record io).2.recoveryBytes ≤ journalRecoveryBytes
  failed : ∀ record io, (JournalEvent.put record io).Plain →
    record.data.length ≤ journalRecordMax → (journalCheckpointWrite s.journal record io).1 ≠ none →
      (journalCheckpointWrite s.journal record io).2.recoveryBytes ≤ s.journal.recoveryBytes
  /-- Only jobs that have ended, and did not come from the legacy WAL, lose their checkpoints. -/
  removed : ∀ e t, CacheStep s e t → ∀ id file, s.journal.files id = some file →
    t.journal.files id = none → Removed s t.journal e.about id file
  /-- A start accepts the directory as it is. -/
  restarts : ∀ names touched, s.journal.Lists names →
    ∃ t, journalJobsScan s.journal names touched = .ok t
  /-- Once a checkpoint of the job was written, only what its checkpoint holds is loaded. -/
  loads : ∀ id, s.written id = true → ∀ io : ReadFault, (∀ n, io.fault ≠ some (n, .enoent)) →
    ∀ walFault, (journalLoadRecords s.journal id io walFault).2 <+:
      (s.journal.files id).elim [] JournalFile.records

theorem put_journal (record : JournalRecord I) (io : WriteIo I) :
    (s.put record io).journal = (journalCheckpointWrite s.journal record io).2 := by
  rw [Books.put]
  cases out : (journalCheckpointWrite s.journal record io).1 with
  | none => rfl
  | some e =>
    simp only
    split <;> rfl

theorem Moved.removed {e : JournalEvent I} (moved : s.Moved) (step : CacheStep s e t) {id : I}
    {file : JournalFile I} (had : s.journal.files id = some file)
    (gone : t.journal.files id = none) : Removed s t.journal e.about id file := by
  obtain ⟨plain, -, step⟩ := step
  cases step with
  | @put record io short =>
    rw [put_journal] at gone ⊢
    rcases moved.sound.outcome plain short with ⟨-, failed⟩ | ⟨-, -, stored⟩
    · obtain ⟨m, made, same, -⟩ := failed.files
      rw [same] at gone
      exact removed_of_made moved.sound made had gone
    · obtain ⟨m, made, same⟩ := stored.files
      rw [same, Function.update_apply] at gone
      split at gone
      · cases gone
      · exact removed_of_made moved.sound made had gone
  | @thought id' turn offset len unlink write =>
    obtain ⟨m, made, same⟩ :=
      (moved.sound.good.thoughtPut plain id' turn offset len write).files
    have empty : m.files id = none := same ▸ gone
    exact removed_of_made moved.sound made had empty
  | @close id' turn finish commit =>
    obtain ⟨m, made, same⟩ := (moved.sound.good.thoughtClose id' turn finish commit).files
    have empty : m.files id = none := same ▸ gone
    exact removed_of_made moved.sound made had empty
  | @restart names touched u lists scanned =>
    obtain ⟨v, ok, -, files, -⟩ := moved.sound.good.scan touched lists
    rw [ok] at scanned
    obtain rfl := Except.ok.inj scanned
    have gone : v.files id = none := gone
    rw [files, had] at gone
    cases gone

theorem Moved.loads (moved : s.Moved) {id : I} (written : s.written id = true) {io : ReadFault}
    (missing : ∀ n, io.fault ≠ some (n, .enoent)) (walFault : Option (Nat × JournalErrno)) :
    (journalLoadRecords s.journal id io walFault).2 <+: (s.journal.files id).elim [] JournalFile.records := by
  rw [journalLoadRecords]
  cases refused : io.refused with
  | some n =>
    simp only [journalFileRead, refused, Option.some.injEq, reduceCtorEq, if_false]
    exact List.nil_prefix
  | none =>
    cases had : s.journal.files id with
    | none =>
      -- the legacy WAL is read, and has nothing of the job
      have unsaid := moved.kept id written had
      simp only [journalFileRead, refused, had, if_true, Option.elim_none]
      cases wal : s.journal.wal with
      | none => exact List.prefix_rfl
      | some frames =>
        rw [walRecords, wal] at unsaid
        have nothing := readFrames_nil frames walFault 0 [] unsaid
        exact List.prefix_nil.mpr nothing
    | some file =>
      obtain ⟨k, job, here, rfl, filled⟩ := moved.sound.good.shelf.listed id file had
      obtain ⟨same, at_, fits⟩ := moved.sound.good.shelf.kept k job here filled
      rw [had] at at_
      obtain rfl := Option.some.inj at_
      have whole : (journalRecordsRead file job.id false io.fault).2 <+: file.records := by
        apply readFrames_isPrefix
        intro frame member
        obtain ⟨own, known, -⟩ := fits.readable.own frame.record (List.mem_map_of_mem member)
        exact ⟨own, known⟩
      have read : journalFileRead s.journal job.id io = journalRecordsRead file job.id false io.fault := by
        simp only [journalFileRead, refused, had]
      rw [read]
      split
      · rename_i absent
        exact absurd absent (readFrames_ne_enoent file _ 0 0 [] missing)
      · exact whole

theorem Moved.bounded (moved : s.Moved) : s.Bounded where
  sum := fun _ lists => (moved.sound.good.sum_sizeOf lists).1.symm
  room := moved.sound.good.table.room
  count := ⟨moved.sound.good.table.count, moved.sound.good.table.count ▸ used_le⟩
  ordinary := by
    intro record io plain short appends done
    rcases moved.sound.outcome plain short with ⟨error, -⟩ | ⟨-, -, stored⟩
    · exact absurd done error
    · exact stored.room appends
  failed := by
    intro record io plain short error
    rcases moved.sound.outcome plain short with ⟨-, failed⟩ | ⟨done, -⟩
    · exact failed.bytes
    · exact absurd done error
  removed := fun _ _ step _ _ had gone => moved.removed step had gone
  restarts := by
    intro names touched lists
    obtain ⟨t, ok, -⟩ := moved.sound.good.scan touched lists
    exact ⟨t, ok⟩
  loads := fun _ written _ missing walFault => moved.loads written missing walFault

/-- In every run whose items meet the condition, the recovery cache keeps its bounds, and the legacy
WAL is not heard again. -/
theorem cache_bounded {wal : Option (JournalFile I)} {es : List (JournalEvent I)}
    (run : Trace CacheStep (start wal) es s) : s.Bounded := by
  have moved : s.Moved := run.invariant (moved_start wal) fun _ _ _ moved step => moved.step step
  exact moved.bounded

/-- A job's state, which is stored. -/
theorem cache_bounded_stored :
    ((start none).put ({ id := 0, kind := .state, data := [] } : JournalRecord Nat) {}).Bounded := by
  have step : CacheStep (start none) (.put ({ id := 0, kind := .state, data := [] } : JournalRecord Nat) {}) _ :=
    ⟨⟨⟨nofun, nofun⟩, nofun⟩, fun _ _ => rfl, .put (Nat.zero_le _)⟩
  exact cache_bounded (Trace.single step)

/-! ## A job that the legacy WAL knows and that begins its checkpoints with a state -/

theorem put_done {record : JournalRecord I} {io : WriteIo I}
    (done : (journalCheckpointWrite s.journal record io).1 = none) :
    s.put record io = s.accept record (journalCheckpointWrite s.journal record io).2 := by
  rw [Books.put]
  simp only [done]

theorem thoughtPut_new {j : Journal I} (table : j.Table) {id : I} (turn : Nat)
    (unknown : journalJobFind j id = none) (few : j.nJobs ≠ journalJobs) :
    ∃ k job, j.jobs k = none ∧ job.id = id ∧ job.terminal = false ∧
      journalThoughtPut j id turn 0 0 (fun _ => .done) none =
        (none, { j with
          jobs := Function.update j.jobs k (some job)
          nJobs := add64 j.nJobs 1 }) := by
  obtain ⟨k, free, added⟩ := @Table.jobAdd _ _ _ table (fun _ => .done) id few
  simp only [journalThoughtPut, unknown, added, journalThoughtPut.put, Function.update_idem]
  exact ⟨k, _, free, by split <;> rfl, by split <;> rfl, rfl⟩

theorem thoughtPut_files {j : Journal I} {id : I} (unknown : journalJobFind j id = none)
    (turn offset len : Nat) (unlink : I → DirChange) (write : Option JournalErrno) :
    (journalThoughtPut j id turn offset len unlink write).2.files =
      (journalCheckpointSpace unlink none 0 true j).2.files := by
  simp only [journalThoughtPut, unknown, journalJobAdd]
  cases space : journalCheckpointSpace unlink none 0 true j with
  | mk e m =>
    cases e with
    | some e => rfl
    | none =>
      simp only
      cases (List.finRange journalJobs).find? fun k => (m.jobs k).isNone <;> rfl

/-- The state of a job. -/
def stateRecord : JournalRecord Nat := { id := 0, kind := .state, data := [] }

/-- Its result. -/
def resultRecord : JournalRecord Nat := { id := 0, kind := .result, data := [] }

/-- A legacy WAL with the job's state. -/
def stateWal : JournalFile Nat := [{ sequence := 1, record := stateRecord }]

/-- The items that the journal takes, with the directory's changes synchronized. -/
def PlainStep (s : Books Nat) (e : JournalEvent Nat) (t : Books Nat) : Prop :=
  e.Plain ∧ JournalStep s e t

/-- The job has ended, and `n` others reason. -/
structure Filling (n : Nat) (s : Books Nat) : Prop where
  sound : s.Sound
  wal : s.journal.wal = some stateWal
  written : s.written 0 = true
  count : s.journal.nJobs = n + 1
  ended : ∃ k job, s.journal.jobs k = some job ∧ job.id = 0 ∧ job.terminal = true ∧
    job.legacy = false ∧ job.bytes ≠ 0
  others : ∀ k job, s.journal.jobs k = some job → job.id ≠ 0 → job.terminal = false ∧ job.id ≤ n

variable {n : Nat} {b : Books Nat}

theorem Filling.unknown (filling : Filling n b) : journalJobFind b.journal (n + 1) = none := by
  rw [find_eq_none]
  intro k job here own
  have small := (filling.others k job here (by omega)).2
  omega

/-- One more job reasons. -/
theorem Filling.next (filling : Filling n b) (few : n + 1 ≠ journalJobs) :
    ∃ t, PlainStep b (.thought (n + 1) 1 0 0 (fun _ => .done) none) t ∧ Filling (n + 1) t := by
  have table := filling.sound.good.table
  obtain ⟨k, job, free, own, runs, put⟩ :=
    thoughtPut_new table 1 filling.unknown (by rw [filling.count]; exact few)
  have step : PlainStep b (.thought (n + 1) 1 0 0 (fun _ => .done) none) _ := ⟨nofun, .thought⟩
  have sound := filling.sound.step step.1 step.2
  rw [put] at step sound
  have most := @used_le _ b.journal
  rw [← table.count, filling.count, journalJobs_eq] at most
  refine ⟨_, step,
    { sound
      wal := filling.wal
      written := filling.written
      count := ?_
      ended := ?_
      others := ?_ }⟩
  · simp only [moved, filling.count]
    apply add64_of_lt
    rw [wrap64]
    omega
  · obtain ⟨l, other, here, rest⟩ := filling.ended
    have off : l ≠ k := by
      rintro rfl
      rw [free] at here
      cases here
    exact ⟨l, other, (Function.update_of_ne off ..).trans here, rest⟩
  · intro l other here apart
    simp only [moved, Function.update_apply] at here
    split at here
    · obtain rfl := Option.some.inj here
      exact ⟨runs, own.le⟩
    · obtain ⟨running, small⟩ := filling.others l other here apart
      exact ⟨running, by omega⟩

/-- With the table full, the job that has ended goes. -/
theorem Filling.last (filling : Filling n b) (full : n + 1 = journalJobs) :
    (journalThoughtPut b.journal (n + 1) 1 0 0 (fun _ => .done) none).2.files 0 = none := by
  rw [thoughtPut_files filling.unknown]
  have tight : crowded b.journal none 0 true = true := by
    simp [crowded, filling.count, full]
  obtain ⟨k, job, here, own, ended, new, filled⟩ := filling.ended
  have may : (k, job) ∈ expirable b.journal none := mem_expirable.mpr ⟨here, by simp, ended, new⟩
  unfold journalCheckpointSpace
  rw [if_pos tight]
  split
  · rename_i found
    rw [leastBy_eq_none] at found
    rw [found] at may
    cases may
  · rename_i l other found
    obtain ⟨at_, -, ended', -⟩ := mem_expirable.mp (leastBy_mem found)
    have mine : other.id = 0 := by
      by_contra apart
      rw [(filling.others l other at_ apart).1] at ended'
      cases ended'
    obtain rfl := filling.sound.good.table.distinct k l job other here at_ (own.trans mine.symm)
    rw [here] at at_
    obtain rfl := Option.some.inj at_
    rw [if_neg filled]
    have rest := (@checkpointSpace _ _ none (fun _ => .done) (by rintro _ _ ⟨⟩) 0 true (b.journal.expire k job)).1
    apply rest.files_none
    simp [Journal.expire, filled, own]

/-- The job's state is stored. -/
structure Begun (k : Fin journalJobs) (job : JournalJob Nat) (s : Books Nat) : Prop where
  sound : s.Sound
  jobs : s.journal.jobs = Function.update (fun _ => none) k (some job)
  entry : Entry { id := 0 } job (diskBytes [stateRecord]) false false
  file : s.journal.files 0 = some (journalFrames [stateRecord])
  count : s.journal.nJobs = 1
  wal : s.journal.wal = some stateWal
  written : s.written 0 = true

/-- A record of a known kind is put without a fault. -/
theorem put_plain {record : JournalRecord Nat} (known : record.kind ≠ .legacy) :
    (JournalEvent.put record {}).Plain := by
  refine ⟨⟨fun _ _ => ?_, ?_⟩, known⟩ <;> simp

theorem begun : ∃ k job s, PlainStep (start (some stateWal)) (.put stateRecord {}) s ∧ Begun k job s := by
  have empty := sound_start (some stateWal)
  have new : New (start (some stateWal)).journal stateRecord :=
    { unknown := find_eq_none.mpr fun _ _ here => by cases here
      kind := (by rintro ⟨⟩)
      unread := .inl rfl
      fits := by simp [diskBytes, stateRecord, journalHeader, journalLoadMax] }
  have loose : crowded (start (some stateWal)).journal none (diskBytes [stateRecord])
      stateRecord.kind.terminal = false :=
    loose_start (by simp [diskBytes, stateRecord, journalHeader, journalRecoveryBytes])
  obtain ⟨k, free, done⟩ := new.write_done empty.good.table loose
  have first : PlainStep (start (some stateWal)) (.put stateRecord {}) _ :=
    ⟨put_plain (by simp [stateRecord]), .put (Nat.zero_le _)⟩
  have sound := empty.step first.1 first.2
  obtain ⟨job, kept, entry⟩ := @journalKeep_eq Nat
    { (start (some stateWal)).journal.renamed stateRecord [] with
      jobs := Function.update (start (some stateWal)).journal.jobs k (some { id := stateRecord.id })
      nJobs := add64 (start (some stateWal)).journal.nJobs 1 }
    k { id := stateRecord.id } (diskBytes [stateRecord]) 0 stateRecord.kind (false, false) false
    (Function.update_self ..)
  have journal := congrArg Prod.snd done
  rw [kept] at journal
  have taken := put_done (congrArg Prod.fst done)
  refine ⟨k, job, _, first,
    { sound
      jobs := ?_
      entry
      file := ?_
      count := ?_
      wal := ?_
      written := ?_ }⟩
  · rw [put_journal, journal]
    exact Function.update_idem ..
  · rw [put_journal, journal]
    rfl
  · rw [put_journal, journal]
    rfl
  · rw [put_journal, journal]
    rfl
  · rw [taken]
    rfl

/-- Its result is stored too. -/
theorem Begun.filling {k : Fin journalJobs} {job : JournalJob Nat} (begun : Begun k job b) :
    ∃ t, PlainStep b (.put resultRecord {}) t ∧ Filling 0 t := by
  have here : b.journal.jobs k = some job := by rw [begun.jobs, Function.update_self]
  have own : job.id = 0 := begun.entry.id
  have filled : job.bytes ≠ 0 := by
    rw [begun.entry.bytes]
    simp [diskBytes, journalHeader]
  have found : journalJobFind b.journal resultRecord.id = some (k, job) := by
    have mine := begun.sound.good.table.find here
    rwa [own] at mine
  obtain ⟨file, had, fits⟩ := begun.sound.good.shelf.kept k job here filled
  rw [own, begun.file] at had
  obtain rfl := Option.some.inj had
  have readable : Readable resultRecord.id (journalFrames [stateRecord]) := by
    have mine := fits.readable
    rwa [own] at mine
  have rest_eq : rest (journalFrames [stateRecord]) resultRecord = [stateRecord] := by
    rw [rest, records_journalFrames]
    rfl
  have total : diskBytes [stateRecord, resultRecord] = 240 := rfl
  have bytes : b.journal.recoveryBytes = 120 := by
    have sum := sum_bytesAt_update (fun _ : Fin journalJobs => (none : Option (JournalJob Nat))) k (some job)
    rw [begun.sound.good.table.bytes, begun.jobs]
    simpa [bytesAt, begun.entry.bytes, diskBytes, stateRecord, journalHeader] using sum
  have loose : crowded b.journal (some k) (diskBytes [stateRecord, resultRecord])
      resultRecord.kind.terminal = false := by
    have before : diskBytes [stateRecord] = 120 := rfl
    have ends : resultRecord.kind.terminal = true := rfl
    simp [crowded, here, begun.entry.bytes, before, bytes, total, ends, sub64, journalRecoveryBytes]
    omega
  have done := write_known found begun.entry.error filled (Prod.mk.inj begun.entry.flags).2
    begun.file readable ⟨by rintro ⟨⟩, by rintro ⟨⟩⟩
    (by rw [rest_eq]; simp [diskBytes, journalHeader, journalLoadMax, stateRecord, resultRecord])
    (by rw [rest_eq]; exact loose)
  obtain ⟨after, kept, entry⟩ := @journalKeep_eq Nat
    (b.journal.renamed resultRecord (rest (journalFrames [stateRecord]) resultRecord)) k job
    (diskBytes (rest (journalFrames [stateRecord]) resultRecord ++ [resultRecord])) 0
    resultRecord.kind (journalJobFlags (JournalFile.records (journalFrames [stateRecord]))) false here
  rw [records_journalFrames] at done kept entry
  have journal := congrArg Prod.snd done
  rw [kept] at journal
  have taken := put_done (congrArg Prod.fst done)
  have step : PlainStep b (.put resultRecord {}) _ :=
    ⟨put_plain (by simp [resultRecord]), .put (Nat.zero_le _)⟩
  have jobs : (b.put resultRecord {}).journal.jobs = Function.update (fun _ => none) k (some after) := by
    rw [put_journal, journal]
    simp only [renamed, begun.jobs]
    exact Function.update_idem ..
  refine ⟨_, step,
    { sound := begun.sound.step step.1 step.2
      wal := ?_
      written := ?_
      count := ?_
      ended := ?_
      others := ?_ }⟩
  · rw [put_journal, journal]
    exact begun.wal
  · rw [taken]
    rfl
  · rw [put_journal, journal]
    exact begun.count
  · have flags := Prod.mk.inj entry.flags
    refine ⟨k, after, by rw [jobs, Function.update_self], entry.id.trans own, flags.1, flags.2, ?_⟩
    rw [entry.bytes, rest_eq]
    exact (total.symm ▸ (by simp) : diskBytes [stateRecord, resultRecord] ≠ 0)
  · intro l other at_ apart
    rw [jobs, Function.update_apply] at at_
    split at at_
    · obtain rfl := Option.some.inj at_
      exact absurd (entry.id.trans own) apart
    · cases at_

/-- Then other jobs reason, until the table is full. -/
theorem filled_up : ∀ n, n + 1 ≤ journalJobs → ∃ es s, Trace PlainStep (start (some stateWal)) es s ∧ Filling n s := by
  intro n
  induction n with
  | zero =>
    intro _
    obtain ⟨k, job, s, first, begun⟩ := begun
    obtain ⟨t, second, filling⟩ := begun.filling
    exact ⟨_, t, (Trace.single first).snoc second, filling⟩
  | succ n ih =>
    intro few
    obtain ⟨es, s, run, filling⟩ := ih (by omega)
    obtain ⟨t, step, next⟩ := filling.next (by omega)
    exact ⟨_, t, run.snoc step, next⟩

/-- The checkpoint of a job that the legacy WAL knows goes, when its first record was a state, and
then the old records of the legacy WAL are loaded. -/
theorem not_cache_bounded : ∃ es s, Trace PlainStep (start (some stateWal)) es s ∧
    s.written 0 = true ∧ s.journal.files 0 = none ∧ (journalLoadRecords s.journal 0 {} none).2 = [stateRecord] := by
  obtain ⟨n, full⟩ : ∃ n, n + 1 = journalJobs := ⟨1023, journalJobs_eq.symm⟩
  obtain ⟨es, s, run, filling⟩ := filled_up n full.le
  have gone := filling.last full
  have synced : Synced fun _ : Nat => DirChange.done := nofun
  have aside := filling.sound.good.thoughtPut synced (n + 1) 1 0 0 none
  have wal := aside.wal.trans filling.wal
  have step : PlainStep s (.thought (n + 1) 1 0 0 (fun _ => .done) none) _ := ⟨nofun, .thought⟩
  refine ⟨_, _, run.snoc step, filling.written, gone, ?_⟩
  have read : journalFileRead (s.moved (journalThoughtPut s.journal (n + 1) 1 0 0 (fun _ => .done)
      none).2).journal 0 {} = (some .enoent, []) := by
    simp only [journalFileRead, moved, gone]
  have found : (s.moved (journalThoughtPut s.journal (n + 1) 1 0 0 (fun _ => .done)
      none).2).journal.wal = some stateWal := wal
  simp only [journalLoadRecords, read, found, if_true]
  decide

end Books

end Askai
