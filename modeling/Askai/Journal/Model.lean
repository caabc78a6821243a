import Askai.Library.Lists
import Mathlib.Data.Fintype.Basic

/-!
# The recovery checkpoints of the journal

The checkpoints of jobs, the table of the jobs they belong to, and what the journal's writer does
with an item (`journal.c`).  The jobs directory is a map from names to files of framed records,
each replaced by one rename; what the system calls may answer is an input.
-/

namespace Askai

open Library

/-- The data of a record at most (`JOURNAL_RECORD_MAX`). -/
abbrev journalRecordMax : Nat := 16777216
/-- The bytes of a loaded checkpoint at most (`JOURNAL_LOAD_MAX`). -/
abbrev journalLoadMax : Nat := 67108864
/-- The header of a record on disk (`JOURNAL_HEADER`). -/
abbrev journalHeader : Nat := 120
/-- Jobs in the table at most (`JOURNAL_JOBS`); no proof counts them one by one. -/
@[irreducible] def journalJobs : Nat := 1024
/-- `JOURNAL_RECOVERY_BYTES`. -/
abbrev journalRecoveryBytes : Nat := 268435456
/-- What terminal records may take beyond (`JOURNAL_TERMINAL_BYTES`). -/
abbrev journalTerminalBytes : Nat := journalRecordMax + journalHeader
/-- A record in memory, but for its data (`sizeof (struct journal_record) + 1`). -/
abbrev journalRecordSize : Nat := 97
/-- `UINT64_MAX + 1`. -/
abbrev wrap64 : Nat := 18446744073709551616

/-- `x + n`, in 64 bits. -/
def add64 (x n : Nat) : Nat :=
  if x + n < wrap64 then x + n else x + n - wrap64

/-- `x - n`, in 64 bits. -/
def sub64 (x n : Nat) : Nat :=
  if n ≤ x then x - n else x + wrap64 - n

/-- `enum journal_kind`. -/
inductive JournalKind where
  | state | meta_ | toolIntent | toolResult | result | cancel | legacy | other
  deriving DecidableEq, Repr

/-- After a record of the kind, the job runs no more (`TERMINAL`). -/
def JournalKind.terminal : JournalKind → Bool
  | .result | .cancel => true
  | _ => false

/-- The error numbers of the writer; those of its system calls are all one kind. -/
inductive JournalErrno where
  | einval | efbig | eilseq | enospc | enoent | enomem
  | fault (number : Nat)
  deriving DecidableEq, Repr

variable {I : Type} [DecidableEq I]

/-- `struct journal_record`, of the job `id`. -/
structure JournalRecord (I : Type) where
  id : I
  kind : JournalKind
  data : List UInt8
  deriving DecidableEq, Repr

/-- A record on disk, with its header's sequence number. -/
structure JournalFrame (I : Type) where
  sequence : Nat
  record : JournalRecord I
  deriving DecidableEq, Repr

abbrev JournalFile (I : Type) := List (JournalFrame I)

/-- The records on disk, in order. -/
def JournalFile.records (file : JournalFile I) : List (JournalRecord I) :=
  file.map JournalFrame.record

/-- The bytes of records on disk. -/
def diskBytes (records : List (JournalRecord I)) : Nat :=
  (records.map fun r => journalHeader + r.data.length).sum

/-- The bytes of records in memory. -/
def memoryBytes (records : List (JournalRecord I)) : Nat :=
  (records.map fun r => journalRecordSize + r.data.length).sum

/-- An entry of the table (`struct journal_job`). -/
structure JournalJob (I : Type) where
  id : I
  /-- The checkpoint's size; 0 until there is one. -/
  bytes : Nat := 0
  touched : Nat := 0
  thoughtSeen : Nat := 0
  thoughtTurn : Nat := 0
  thoughtError : Option JournalErrno := none
  /-- The error of a lost record. -/
  error : Option JournalErrno := none
  /-- `JOB_TERMINAL`. -/
  terminal : Bool := false
  /-- `JOB_LEGACY`. -/
  legacy : Bool := false
  deriving DecidableEq, Repr

/-- What the writer has of the checkpoints, and the jobs directory itself. -/
structure Journal (I : Type) where
  jobs : Fin journalJobs → Option (JournalJob I) := fun _ => none
  nJobs : Nat := 0
  recoveryBytes : Nat := 0
  /-- The files of the jobs directory, but for the temporary one. -/
  files : I → Option (JournalFile I) := fun _ => none
  /-- The intact records of the legacy WAL, if there is one. -/
  wal : Option (JournalFile I) := none

/-! ## Reading -/

/-- `journal_records_drop`: the records left, and the bytes that those dropped took. -/
def journalRecordsDrop (records : List (JournalRecord I)) (kinds : JournalKind → Bool) : List (JournalRecord I) × Nat :=
  (records.filter fun r => !kinds r.kind, memoryBytes (records.filter fun r => kinds r.kind))

/-- What a record of the legacy WAL replaces. -/
def replaces : JournalKind → JournalKind → Bool
  | .state, _ => true
  | .meta_, kind => kind = .meta_
  | _, _ => false

/-- What the loop of `journal_records_read` makes of one record of the file: the bytes and the
records so far, or its error and the records it leaves. -/
def readFrame (id : I) (legacy : Bool) (frame : JournalFrame I) (sequence bytes : Nat) (out : List (JournalRecord I)) :
    Except (JournalErrno × List (JournalRecord I)) (Nat × List (JournalRecord I)) :=
  let r := frame.record
  if journalRecordMax < r.data.length || frame.sequence ≠ sequence + 1 then .error (.eilseq, out)
  else if r.id ≠ id || r.kind = .other then .ok (bytes, out)
  else
    let dropped := journalRecordsDrop out fun kind => legacy && replaces r.kind kind
    let bytes := bytes - dropped.2
    let size := journalRecordSize + r.data.length
    if journalLoadMax - bytes < size then .error (.efbig, dropped.1)
    else .ok (bytes + size, dropped.1 ++ [r])

/-- The error of the next read, with the number of records to be read before one. -/
def due (fault : Option (Nat × JournalErrno)) : Option JournalErrno :=
  fault.bind fun (n, e) => if n = 0 then some e else none

/-- The loop of `journal_records_read`. -/
def readFrames (id : I) (legacy : Bool) :
    JournalFile I → Option (Nat × JournalErrno) → Nat → Nat → List (JournalRecord I) →
      Option JournalErrno × List (JournalRecord I)
  | [], fault, _, _, out => (due fault, out)
  | frame :: frames, fault, sequence, bytes, out =>
    match due fault with
    | some e => (some e, out)
    | none =>
      match readFrame id legacy frame sequence bytes out with
      | .error (e, out) => (some e, out)
      | .ok (bytes, out) =>
        let later := fault.map fun (n, e) => (n - 1, e)
        readFrames id legacy frames later frame.sequence bytes out

/-- `journal_records_read`: its error, and the records that it leaves. -/
def journalRecordsRead (file : JournalFile I) (id : I) (legacy : Bool) (fault : Option (Nat × JournalErrno)) :
    Option JournalErrno × List (JournalRecord I) :=
  readFrames id legacy file fault 0 0 []

/-- How reading a file may go wrong: it is not opened, or a read fails. -/
structure ReadFault where
  refused : Option Nat := none
  fault : Option (Nat × JournalErrno) := none

/-- A job's checkpoint, opened and read. -/
def journalFileRead (j : Journal I) (id : I) (io : ReadFault) : Option JournalErrno × List (JournalRecord I) :=
  match io.refused with
  | some n => (some (.fault n), [])
  | none =>
    match j.files id with
    | none => (some .enoent, [])
    | some file => journalRecordsRead file id false io.fault

/-- `journal_load_records`. -/
def journalLoadRecords (j : Journal I) (id : I) (io : ReadFault) (walFault : Option (Nat × JournalErrno)) :
    Option JournalErrno × List (JournalRecord I) :=
  let read := journalFileRead j id io
  if read.1 = some .enoent then
    match j.wal with
    | none => (none, read.2)
    | some wal => journalRecordsRead wal id true walFault
  else read

/-! ## The table -/

/-- `journal_job_flags`: `JOB_TERMINAL` and `JOB_LEGACY`. -/
def journalJobFlags (records : List (JournalRecord I)) : Bool × Bool :=
  (records.any fun r => r.kind.terminal, records.any fun r => r.kind = .legacy)

def journalJobFind (j : Journal I) (id : I) : Option (Fin journalJobs × JournalJob I) :=
  (List.finRange journalJobs).findSome? fun k =>
    (j.jobs k).bind fun job => if job.id = id then some (k, job) else none

/-- The entries that may go to make room: not `keep`. -/
def expirable (j : Journal I) (keep : Option (Fin journalJobs)) : List (Fin journalJobs × JournalJob I) :=
  (List.finRange journalJobs).filterMap fun k =>
    (j.jobs k).bind fun job =>
      if some k ≠ keep ∧ job.terminal = true ∧ job.legacy = false then some (k, job) else none

/-- How a change of the jobs directory, and the synchronization after it, may go. -/
inductive DirChange where
  | done
  | failed (error : Nat)
  /-- The change was made, but not synchronized. -/
  | unsynced (error : Nat)
  deriving DecidableEq, Repr

/-- An entry and its checkpoint go. -/
def Journal.expire (j : Journal I) (k : Fin journalJobs) (job : JournalJob I) : Journal I :=
  { j with
    recoveryBytes := sub64 j.recoveryBytes job.bytes
    nJobs := sub64 j.nJobs 1
    jobs := Function.update j.jobs k none
    files := if job.bytes = 0 then j.files else Function.update j.files job.id none }

/-- How many entries are used. -/
def Journal.used (j : Journal I) : Nat :=
  (Finset.univ.filter fun k => (j.jobs k).isSome).card

omit [DecidableEq I] in
theorem mem_expirable {j : Journal I} {keep : Option (Fin journalJobs)} {k : Fin journalJobs} {job : JournalJob I} :
    (k, job) ∈ expirable j keep ↔ j.jobs k = some job ∧ some k ≠ keep ∧ job.terminal = true ∧ job.legacy = false := by
  simp only [expirable, List.mem_filterMap, List.mem_finRange, true_and, Option.bind_eq_some_iff]
  constructor
  · rintro ⟨k', job', here, found⟩
    split at found
    · rename_i may
      obtain ⟨rfl, rfl⟩ := Prod.mk.inj (Option.some.inj found)
      exact ⟨here, may⟩
    · simp at found
  · rintro ⟨here, may⟩
    exact ⟨k, job, here, by simp [may]⟩

theorem used_expire {j : Journal I} {k : Fin journalJobs} {job : JournalJob I} (here : j.jobs k = some job) :
    (j.expire k job).used + 1 = j.used := by
  have without : (Finset.univ.filter fun i => ((j.expire k job).jobs i).isSome) =
      (Finset.univ.filter fun i => (j.jobs i).isSome).erase k := by
    ext i
    rw [Finset.mem_erase, Finset.mem_filter, Finset.mem_filter, Journal.expire]
    rcases eq_or_ne i k with rfl | other
    · simp
    · simp [other]
  have member : k ∈ Finset.univ.filter fun i => (j.jobs i).isSome := by simp [here]
  rw [Journal.used, without, Finset.card_erase_add_one member, Journal.used]

/-- The room for `bytes` more is not there, the entry `keep` counting no more for its checkpoint. -/
def crowded (j : Journal I) (keep : Option (Fin journalJobs)) (bytes : Nat) (terminal : Bool) : Bool :=
  let previous := ((keep.bind j.jobs).map JournalJob.bytes).getD 0
  let limit := journalRecoveryBytes + if terminal then journalTerminalBytes else 0
  limit < sub64 j.recoveryBytes previous ||
    limit - sub64 j.recoveryBytes previous < bytes ||
    keep = none && j.nJobs = journalJobs

set_option maxRecDepth 2000 in
/-- `journal_checkpoint_space`. -/
def journalCheckpointSpace (unlink : I → DirChange) (keep : Option (Fin journalJobs)) (bytes : Nat)
    (terminal : Bool) (j : Journal I) : Option JournalErrno × Journal I :=
  if crowded j keep bytes terminal then
    match _found : leastBy (fun entry => entry.2.touched) (expirable j keep) with
    | none => (some .enospc, j)
    | some (k, job) =>
      if job.bytes = 0 then
        journalCheckpointSpace unlink keep bytes terminal (j.expire k job)
      else
        match unlink job.id with
        | .failed e => (some (.fault e), j)
        | .unsynced e => (some (.fault e), { j with files := Function.update j.files job.id none })
        | .done => journalCheckpointSpace unlink keep bytes terminal (j.expire k job)
  else (none, j)
termination_by j.used
decreasing_by
  all_goals
    have here := (mem_expirable.mp (leastBy_mem _found)).1
    have less := used_expire here
    omega

/-- `journal_job_add`: the entry's place. -/
def journalJobAdd (unlink : I → DirChange) (id : I) (j : Journal I) :
    Except JournalErrno (Fin journalJobs) × Journal I :=
  match journalCheckpointSpace unlink none 0 true j with
  | (some e, j) => (.error e, j)
  | (none, j) =>
    match (List.finRange journalJobs).find? fun k => (j.jobs k).isNone with
    | none => (.error .enospc, j)
    | some k =>
      (.ok k, { j with
        jobs := Function.update j.jobs k (some { id })
        nJobs := add64 j.nJobs 1 })

/-! ## Writing a checkpoint -/

/-- What the system calls of `journal_checkpoint_write` answer. -/
structure WriteIo (I : Type) where
  read : ReadFault := {}
  walFault : Option (Nat × JournalErrno) := none
  /-- There is memory for the mark of a migrated job. -/
  memory : Bool := true
  /-- The removal of an expired checkpoint, which is synchronized. -/
  unlink : I → DirChange := fun _ => .done
  /-- Writing the temporary file, up to its close. -/
  write : Option Nat := none
  /-- The rename, which is synchronized. -/
  rename : DirChange := .done
  /-- The real time, or 0. -/
  now : Nat := 0

/-- The records before a new one, as `journal_checkpoint_write` reads them, and whether the job's
came from the legacy WAL. -/
def journalCheckpointOld (j : Journal I) (job : Option (JournalJob I)) (record : JournalRecord I)
    (io : WriteIo I) : (Option JournalErrno × List (JournalRecord I)) × Bool :=
  let legacy := job.any JournalJob.legacy
  if record.kind = .state then ((none, []), legacy)
  else if job.any fun job => job.bytes ≠ 0 then (journalFileRead j record.id io.read, legacy)
  else
    match j.wal with
    | none => ((none, []), legacy)
    | some wal =>
      let read := journalRecordsRead wal record.id true io.walFault
      (read, !read.2.isEmpty)

/-- The mark of a job that came from the legacy WAL. -/
def legacyMark (id : I) : JournalRecord I :=
  { id, kind := .legacy, data := [] }

/-- The kinds of records that one of `kind` puts an end to. -/
def stale (kind old : JournalKind) : Bool :=
  if kind.terminal then old ≠ .state && old ≠ .legacy
  else kind = .meta_ && old = .meta_

/-- The frames of records, numbered from 1. -/
def journalFrames (records : List (JournalRecord I)) : JournalFile I :=
  records.mapIdx fun k record => { sequence := k + 1, record }

/-- A lost record leaves its error in its job's entry, if it has one. -/
def journalLose (j : Journal I) (k : Option (Fin journalJobs)) (e : JournalErrno) : Option JournalErrno × Journal I :=
  match k with
  | none => (some e, j)
  | some k =>
    (some e, { j with
      jobs := Function.update j.jobs k ((j.jobs k).map fun job => { job with error := some e }) })

/-- The entry of a job whose checkpoint was written, and the count of all bytes. -/
def journalKeep (j : Journal I) (k : Fin journalJobs) (bytes : Nat) (kind : JournalKind)
    (had : Bool × Bool) (legacy : Bool) (now : Nat) : Journal I :=
  match j.jobs k with
  | none => j
  | some old =>
    let job := { old with
      bytes
      touched := if now ≠ 0 then now else old.touched
      terminal := had.1 || kind.terminal
      legacy := had.2 || legacy
      error := none }
    let job :=
      if kind = .state then { job with thoughtError := none, thoughtTurn := 0, thoughtSeen := 0 }
      else job
    { j with
      recoveryBytes := add64 (sub64 j.recoveryBytes old.bytes) bytes
      jobs := Function.update j.jobs k (some job) }

/-- `journal_checkpoint_write`, from where it makes room for the `records`. -/
def journalCheckpointStore (j : Journal I) (k : Option (Fin journalJobs))
    (record : JournalRecord I) (records : List (JournalRecord I)) (had : Bool × Bool) (legacy : Bool)
    (io : WriteIo I) : Option JournalErrno × Journal I :=
  let records := records ++ [record]
  let bytes := diskBytes records
  if journalLoadMax < bytes then journalLose j k .efbig
  else
    match journalCheckpointSpace io.unlink k bytes record.kind.terminal j with
    | (some e, j) => journalLose j k e
    | (none, j) =>
      match io.write with
      | some e => journalLose j k (.fault e)
      | none =>
        let renamed := { j with
          files := Function.update j.files record.id (some (journalFrames records)) }
        match io.rename with
        | .failed e => journalLose j k (.fault e)
        | .unsynced e => journalLose renamed k (.fault e)
        | .done =>
          match k with
          | some k => (none, journalKeep renamed k bytes record.kind had legacy io.now)
          | none =>
            match journalJobAdd io.unlink record.id renamed with
            | (.error e, j) => (some e, j)
            | (.ok k, j) => (none, journalKeep j k bytes record.kind had legacy io.now)

def journalCheckpointWrite (j : Journal I) (record : JournalRecord I) (io : WriteIo I) :
    Option JournalErrno × Journal I :=
  if record.kind = .other then (some .einval, j)
  else
    let found := journalJobFind j record.id
    let k := found.map Prod.fst
    let job := found.map Prod.snd
    match job.bind JournalJob.error with
    | some e =>
      if record.kind = .state || record.kind.terminal then go k job else (some e, j)
    | none => go k job
where
  go (k : Option (Fin journalJobs)) (job : Option (JournalJob I)) :
      Option JournalErrno × Journal I :=
    let old := journalCheckpointOld j job record io
    match old.1.1 with
    | some e => journalLose j k e
    | none =>
      let had := journalJobFlags old.1.2
      let marks := old.2 && !had.2
      if marks && !io.memory then journalLose j k .enomem
      else
        let records := if marks then legacyMark record.id :: old.1.2 else old.1.2
        let kept := (journalRecordsDrop records (stale record.kind)).1
        journalCheckpointStore j k record kept had old.2 io

/-! ## Reasoning -/

/-- `journal_thought_put`, of a write at `offset` that may fail. -/
def journalThoughtPut (j : Journal I) (id : I) (turn offset len : Nat) (unlink : I → DirChange)
    (write : Option JournalErrno) : Option JournalErrno × Journal I :=
  match journalJobFind j id with
  | some (k, job) => put j k job
  | none =>
    match journalJobAdd unlink id j with
    | (.error e, j) => (some e, j)
    | (.ok k, j) => put j k { id }
where
  put (j : Journal I) (k : Fin journalJobs) (job : JournalJob I) :
      Option JournalErrno × Journal I :=
    let begin_ := offset = 0 && len = 0
    let job :=
      if begin_ || job.thoughtTurn ≠ turn then
        { job with thoughtTurn := turn, thoughtSeen := 0, thoughtError := none }
      else job
    let e := if begin_ then none else if job.thoughtError.isSome then job.thoughtError else write
    let job := { job with
      thoughtError := e
      terminal := job.terminal && job.bytes ≠ 0
      thoughtSeen := if e = none then offset + len else job.thoughtSeen }
    (e, { j with jobs := Function.update j.jobs k (some job) })

/-- `journal_thought_close`, with what the rest of `journal_thought_commit` comes to. -/
def journalThoughtClose (j : Journal I) (id : I) (turn : Nat) (finish : Bool)
    (commit : Option JournalErrno) : Option JournalErrno × Journal I :=
  match journalJobFind j id with
  | none => (commit, j)
  | some (k, job) =>
    let e := if job.thoughtTurn = turn && job.thoughtError.isSome then job.thoughtError else commit
    if e = none && job.bytes = 0 && finish then
      (e, { j with jobs := Function.update j.jobs k (some { job with terminal := true }) })
    else (e, j)

/-! ## A restart -/

/-- `journal_jobs_scan`, of one name. -/
def journalJobScan (touched : I → Nat) (j : Journal I) (id : I) : Except JournalErrno (Journal I) :=
  if room : j.nJobs < journalJobs then
    match j.files id with
    | none => .error .enoent
    | some file =>
      let size := diskBytes file.records
      if journalLoadMax < size ||
          sub64 (journalRecoveryBytes + journalTerminalBytes) j.recoveryBytes < size then
        .error .efbig
      else
        match journalRecordsRead file id false none with
        | (some e, _) => .error e
        | (none, records) =>
          let flags := journalJobFlags records
          let job : JournalJob I :=
            { id, bytes := size, touched := touched id, terminal := flags.1, legacy := flags.2 }
          .ok { j with
            jobs := Function.update j.jobs ⟨j.nJobs, room⟩ (some job)
            nJobs := j.nJobs + 1
            recoveryBytes := add64 j.recoveryBytes size }
  else .error .efbig

/-- `journal_jobs_scan`: the table of the files `names`, in the order they are found. -/
def journalJobsScan (j : Journal I) (names : List I) (touched : I → Nat) : Except JournalErrno (Journal I) :=
  names.foldlM (journalJobScan touched) { files := j.files, wal := j.wal }

end Askai
