import Askai.Journal.Reading

/-!
# Writing a checkpoint

What an item does to the checkpoints and the table: it is refused, or lost, or its record is folded
into the job's list.
-/

namespace Askai

open Library

variable {I : Type} [DecidableEq I]

/-! ## The list of a job -/

/-- A job's list says that it came from the legacy WAL. -/
def marked (records : List (JournalRecord I)) : Bool :=
  (journalJobFlags records).2

/-- A job's list after one more record: a state replaces all but the mark, a meta the earlier metas,
a result or a cancel all but the states and the mark. -/
def journalFold (records : List (JournalRecord I)) (r : JournalRecord I) : List (JournalRecord I) :=
  if r.kind = .state then (if marked records then [legacyMark r.id] else []) ++ [r]
  else records.filter (fun old => !stale r.kind old.kind) ++ [r]

/-- What the legacy WAL says of a job. -/
def Journal.walRecords (j : Journal I) (id : I) : List (JournalRecord I) :=
  match j.wal with
  | none => []
  | some wal => (journalRecordsRead wal id true none).2

/-- A list with the mark, if its job came from the legacy WAL. -/
def withMark (id : I) (legacy : Bool) (records : List (JournalRecord I)) : List (JournalRecord I) :=
  if legacy && !marked records then legacyMark id :: records else records

/-- The list that a job's checkpoint goes on with, from the legacy WAL. -/
def migrated (id : I) (records : List (JournalRecord I)) : List (JournalRecord I) :=
  withMark id (!records.isEmpty) records

/-- The list that a record is folded into. -/
def Journal.before (j : Journal I) (r : JournalRecord I) : List (JournalRecord I) :=
  match j.files r.id with
  | some file => file.records
  | none => if r.kind = .state then [] else migrated r.id (j.walRecords r.id)

/-- No change of the jobs directory that was made fails to be synchronized. -/
def Synced (unlink : I → DirChange) : Prop :=
  ∀ id e, unlink id ≠ .unsynced e

namespace Journal

variable {j t : Journal I} {keep : Option (Fin journalJobs)}

theorem checkpointSpace_loose {unlink : I → DirChange} {bytes : Nat} {terminal : Bool}
    (loose : crowded j keep bytes terminal = false) :
    journalCheckpointSpace unlink keep bytes terminal j = (none, j) := by
  unfold journalCheckpointSpace
  rw [if_neg (by simp [loose])]

/-- Making room expires jobs, until there is room or an error. -/
theorem checkpointSpace {unlink : I → DirChange} (synced : Synced unlink) {bytes : Nat}
    {terminal : Bool} (j : Journal I) : Expires keep j (journalCheckpointSpace unlink keep bytes terminal j).2 ∧
      ((journalCheckpointSpace unlink keep bytes terminal j).1 = none →
        crowded (journalCheckpointSpace unlink keep bytes terminal j).2 keep bytes terminal = false) := by
  induction j using journalCheckpointSpace.induct unlink keep bytes terminal with
  | case1 j tight none_left =>
    unfold journalCheckpointSpace
    rw [if_pos tight]
    split
    · exact ⟨.refl, nofun⟩
    · rename_i found
      rw [none_left] at found
      cases found
  | case2 j tight k job oldest empty ih =>
    unfold journalCheckpointSpace
    rw [if_pos tight]
    split
    · rename_i found
      rw [oldest] at found
      cases found
    · rename_i found
      rw [oldest] at found
      obtain ⟨rfl, rfl⟩ := Prod.mk.inj (Option.some.inj found)
      rw [if_pos empty]
      exact ⟨(Expires.refl.step oldest).trans ih.1, ih.2⟩
  | case3 j tight k job oldest filled e failed =>
    unfold journalCheckpointSpace
    rw [if_pos tight]
    split
    · exact ⟨.refl, nofun⟩
    · rename_i found
      rw [oldest] at found
      obtain ⟨rfl, rfl⟩ := Prod.mk.inj (Option.some.inj found)
      rw [if_neg filled, failed]
      exact ⟨.refl, nofun⟩
  | case4 j tight k job oldest filled e unsynced => exact absurd unsynced (synced job.id e)
  | case5 j tight k job oldest filled done ih =>
    unfold journalCheckpointSpace
    rw [if_pos tight]
    split
    · rename_i found
      rw [oldest] at found
      cases found
    · rename_i found
      rw [oldest] at found
      obtain ⟨rfl, rfl⟩ := Prod.mk.inj (Option.some.inj found)
      rw [if_neg filled, done]
      exact ⟨(Expires.refl.step oldest).trans ih.1, ih.2⟩
  | case6 j loose =>
    have loose : crowded j keep bytes terminal = false := by simpa using loose
    rw [checkpointSpace_loose loose]
    exact ⟨.refl, fun _ => loose⟩

omit [DecidableEq I] in
/-- Where there is room, the new checkpoint fits in with the others. -/
theorem Table.roomy (table : t.Table) {k : Fin journalJobs} {job : JournalJob I} {bytes : Nat}
    {terminal : Bool} (here : t.jobs k = some job) (loose : crowded t (some k) bytes terminal = false) :
    t.recoveryBytes - job.bytes + bytes ≤ journalRecoveryBytes + if terminal then journalTerminalBytes else 0 := by
  simp only [crowded, Option.bind_some, here, Option.map_some, Option.getD_some,
    sub64_of_le (table.le_recoveryBytes here), Bool.or_eq_false_iff, decide_eq_false_iff_not, not_lt] at loose
  omega

omit [DecidableEq I] in
theorem roomy_new {bytes : Nat} {terminal : Bool} (loose : crowded t none bytes terminal = false) :
    t.recoveryBytes + bytes ≤ (journalRecoveryBytes + if terminal then journalTerminalBytes else 0) ∧
      t.nJobs ≠ journalJobs := by
  simp only [crowded, Option.bind_none, Option.map_none, Option.getD_none,
    sub64_of_le (Nat.zero_le _), Bool.or_eq_false_iff, decide_eq_false_iff_not, not_lt,
    decide_true, Bool.true_and, Nat.sub_zero] at loose
  exact ⟨by omega, loose.2⟩

/-- With an entry free, a job is added without more to do. -/
theorem Table.jobAdd (table : t.Table) {unlink : I → DirChange} {id : I} (few : t.nJobs ≠ journalJobs) :
    ∃ k, t.jobs k = none ∧ journalJobAdd unlink id t =
      (.ok k, { t with
        jobs := Function.update t.jobs k (some { id })
        nJobs := add64 t.nJobs 1 }) := by
  have room := table.room
  have loose : crowded t none 0 true = false := by
    simp only [crowded, Option.bind_none, Option.map_none, Option.getD_none,
      sub64_of_le (Nat.zero_le _), if_true, Bool.or_eq_false_iff, decide_eq_false_iff_not, not_lt,
      decide_true, Bool.true_and, few, not_false_eq_true, and_true, Nat.zero_le]
    omega
  have space : journalCheckpointSpace unlink none 0 true t = (none, t) :=
    checkpointSpace_loose loose
  cases found : (List.finRange journalJobs).find? fun k => (t.jobs k).isNone with
  | none =>
    exfalso
    apply few
    have all : (Finset.univ.filter fun k => (t.jobs k).isSome) = Finset.univ := by
      apply Finset.filter_true_of_mem
      intro k _
      have taken := List.find?_eq_none.mp found k (List.mem_finRange k)
      cases here : t.jobs k with
      | none => simp [here] at taken
      | some job => rfl
    rw [table.count, used, all, Finset.card_fin]
  | some k =>
    have free : t.jobs k = none := by simpa using List.find?_some found
    refine ⟨k, free, ?_⟩
    simp only [journalJobAdd, space, found]

/-! ## What an item does -/

/-- The records that stay before a new one, and what was known of the list they come from. -/
structure Plan (j : Journal I) (record : JournalRecord I) (had : Bool × Bool) (legacy : Bool)
    (records : List (JournalRecord I)) : Prop where
  fold : records ++ [record] = journalFold (j.before record) record
  flags : record.kind ≠ .legacy →
    (had.1 || record.kind.terminal, had.2 || legacy) = journalJobFlags (records ++ [record])
  own : ∀ r ∈ records, r.id = record.id ∧ r.kind ≠ .other ∧ r.data.length ≤ journalRecordMax

omit [DecidableEq I] in
theorem flags_withMark (id : I) (legacy : Bool) (records : List (JournalRecord I)) :
    journalJobFlags (withMark id legacy records) =
      ((journalJobFlags records).1, (journalJobFlags records).2 || legacy) := by
  have mark : journalJobFlags (legacyMark id :: records) = ((journalJobFlags records).1, true) := by
    simp [journalJobFlags, legacyMark, JournalKind.terminal]
  rw [withMark, marked]
  cases legacy with
  | false => simp
  | true =>
    cases had : (journalJobFlags records).2 with
    | false => simp [mark]
    | true => simp [Prod.ext_iff, had]

omit [DecidableEq I] in
/-- What a record puts an end to says neither that the job has ended, unless the record does too, nor
that it came from the legacy WAL. -/
theorem flags_filter (records : List (JournalRecord I)) (r : JournalRecord I) (unmarked : r.kind ≠ .legacy) :
    journalJobFlags (records.filter (fun old => !stale r.kind old.kind) ++ [r]) =
      ((journalJobFlags records).1 || r.kind.terminal, (journalJobFlags records).2) := by
  induction records with
  | nil => simp [journalJobFlags, unmarked]
  | cons old records ih =>
    simp only [journalJobFlags, List.filter_cons, List.any_append, List.any_cons, List.any_nil,
      Bool.or_false, Prod.mk.injEq] at ih ⊢
    obtain ⟨ended, mark⟩ := ih
    cases new : r.kind <;> cases was : old.kind <;> simp_all [stale, JournalKind.terminal]

variable {record : JournalRecord I}

/-- The records that the code keeps are those of the fold. -/
theorem plan {legacy : Bool} {old : List (JournalRecord I)}
    (own : ∀ r ∈ old, r.id = record.id ∧ r.kind ≠ .other ∧ r.data.length ≤ journalRecordMax)
    (of_state : record.kind = .state → old = [] ∧ legacy = marked (j.before record))
    (of_other : record.kind ≠ .state → j.before record = withMark record.id legacy old) :
    Plan j record (journalJobFlags old) legacy
      (journalRecordsDrop (withMark record.id legacy old) (stale record.kind)).1 := by
  refine { fold := ?_, flags := fun unmarked => ?_, own := fun r member => ?_ }
  · rw [journalFold]
    split
    · rename_i state
      obtain ⟨rfl, rfl⟩ := of_state state
      cases marked (j.before record) <;>
        simp [journalRecordsDrop, withMark, marked, journalJobFlags, stale, state, JournalKind.terminal]
    · rename_i other
      rw [of_other other]
      rfl
  · have filtered := flags_filter (withMark record.id legacy old) record unmarked
    rw [flags_withMark] at filtered
    exact filtered.symm
  · have inside := List.mem_of_mem_filter member
    rw [withMark] at inside
    split at inside
    · rcases List.mem_cons.mp inside with rfl | later
      · exact ⟨rfl, by rintro ⟨⟩, Nat.zero_le _⟩
      · exact own r later
    · exact own r inside

/-- What `journal_checkpoint_write` reads is what its records are folded into. -/
theorem checkpointOld {io : WriteIo I} {old : List (JournalRecord I)}
    {legacy : Bool} (table : j.Table) (shelf : j.Shelf)
    (read : journalCheckpointOld j ((journalJobFind j record.id).map Prod.snd) record io = ((none, old), legacy)) :
    Plan j record (journalJobFlags old) legacy
      (journalRecordsDrop (withMark record.id legacy old) (stale record.kind)).1 := by
  -- whether the table knows of a checkpoint is whether there is one
  have known : (j.files record.id = none ∧
      ((journalJobFind j record.id).map Prod.snd).any (fun job => job.bytes ≠ 0) = false ∧
      ((journalJobFind j record.id).map Prod.snd).any JournalJob.legacy = false) ∨
      ∃ file, j.files record.id = some file ∧ Readable record.id file ∧
        ((journalJobFind j record.id).map Prod.snd).any (fun job => job.bytes ≠ 0) = true ∧
        ((journalJobFind j record.id).map Prod.snd).any JournalJob.legacy = marked file.records := by
    cases had : j.files record.id with
    | none =>
      left
      refine ⟨rfl, ?_⟩
      cases found : journalJobFind j record.id with
      | none => exact ⟨rfl, rfl⟩
      | some entry =>
        obtain ⟨k, job⟩ := entry
        obtain ⟨here, own⟩ := find_some found
        have empty : job.bytes = 0 := by
          by_contra filled
          obtain ⟨file, at_, -⟩ := shelf.kept k job here filled
          rw [own, had] at at_
          cases at_
        simp [empty, shelf.bare k job here empty]
    | some file =>
      right
      obtain ⟨k, job, here, own, filled⟩ := shelf.listed _ _ had
      obtain ⟨same, at_, fits⟩ := shelf.kept k job here filled
      rw [own, had] at at_
      obtain rfl := Option.some.inj at_
      have found := table.find here
      rw [own] at found
      refine ⟨file, rfl, own ▸ fits.readable, ?_⟩
      rw [found]
      simp only [Option.map_some, Option.any_some, filled, ne_eq, not_false_eq_true, decide_true, true_and]
      exact (Prod.mk.inj fits.flags).2
  have no_records : ∀ r ∈ ([] : List (JournalRecord I)),
      r.id = record.id ∧ r.kind ≠ .other ∧ r.data.length ≤ journalRecordMax := nofun
  by_cases state : record.kind = .state
  · simp only [journalCheckpointOld, state, if_true, Prod.mk.injEq, true_and] at read
    obtain ⟨rfl, rfl⟩ := read
    apply plan no_records _ (fun other => absurd state other)
    intro _
    refine ⟨rfl, ?_⟩
    rcases known with ⟨none_left, -, unmarked⟩ | ⟨file, had, -, -, mark⟩
    · simp [Journal.before, none_left, state, unmarked, marked, journalJobFlags]
    · simp [Journal.before, had, mark]
  · rcases known with ⟨none_left, empty, unmarked⟩ | ⟨file, had, readable, filled, mark⟩
    · have before_eq : j.before record = migrated record.id (j.walRecords record.id) := by
        simp only [Journal.before, none_left, state, if_false]
      simp only [journalCheckpointOld, state, if_false, empty, unmarked, Bool.false_eq_true] at read
      cases wal : j.wal with
      | none =>
        simp only [wal, Prod.mk.injEq, true_and] at read
        obtain ⟨rfl, rfl⟩ := read
        apply plan no_records (fun same => absurd same state)
        intro _
        simp [before_eq, Journal.walRecords, wal, migrated]
      | some frames =>
        simp only [wal, Prod.mk.injEq] at read
        obtain ⟨found, rfl⟩ := read
        have ok : (journalRecordsRead frames record.id true io.walFault).1 = none := by rw [found]
        have whole : journalRecordsRead frames record.id true none = (none, old) :=
          (readFrames_of_ok frames _ 0 0 [] ok).symm.trans found
        have own := @readFrames_own _ _ record.id true frames none 0 0 [] no_records
        have records : (readFrames record.id true frames none 0 0 []).2 = old :=
          congrArg Prod.snd whole
        rw [records] at own
        apply plan own (fun same => absurd same state)
        intro _
        simp only [before_eq, migrated, Journal.walRecords, wal, whole, found]
    · have before_eq : j.before record = file.records := by
        simp only [Journal.before, had]
      simp only [journalCheckpointOld, state, if_false, filled, if_true, mark, Prod.mk.injEq] at read
      obtain ⟨found, rfl⟩ := read
      have whole : old = file.records := by
        simp only [journalFileRead, had] at found
        cases refused : io.read.refused with
        | some n => simp [refused] at found
        | none =>
          rw [refused] at found
          have found : journalRecordsRead file record.id false io.read.fault = (none, old) := found
          have ok : (journalRecordsRead file record.id false io.read.fault).1 = none := by
            rw [found]
          have same := (readFrames_of_ok file _ 0 0 [] ok).trans readable.read
          exact congrArg Prod.snd (found.symm.trans same)
      subst whole
      apply plan readable.own (fun same => absurd same state)
      intro _
      cases had_mark : marked file.records <;> simp [before_eq, withMark, had_mark]

/-- The directory with a job's new checkpoint. -/
def renamed (j : Journal I) (record : JournalRecord I) (records : List (JournalRecord I)) : Journal I :=
  { j with
    files := Function.update j.files record.id (some (journalFrames (records ++ [record]))) }

/-- What `journal_checkpoint_write` comes to. -/
inductive Wrote (j : Journal I) (record : JournalRecord I) (now : Nat) :
    Option JournalErrno × Journal I → Prop
  | refused (other : record.kind = .other) : Wrote j record now (some .einval, j)
  /-- An earlier record of the job was lost. -/
  | barred {k job e} (found : journalJobFind j record.id = some (k, job)) (lost : job.error = some e)
      (appends : record.kind ≠ .state ∧ record.kind.terminal = false) :
      Wrote j record now (some e, j)
  | lost {m e} (expires : Expires ((journalJobFind j record.id).map Prod.fst) j m) :
      Wrote j record now (journalLose m ((journalJobFind j record.id).map Prod.fst) e)
  | kept {k job m had legacy records} (known : record.kind ≠ .other)
      (found : journalJobFind j record.id = some (k, job))
      (may : job.error = none ∨ record.kind = .state ∨ record.kind.terminal = true)
      (plan : Plan j record had legacy records) (expires : Expires (some k) j m)
      (loose : crowded m (some k) (diskBytes (records ++ [record])) record.kind.terminal = false)
      (fits : diskBytes (records ++ [record]) ≤ journalLoadMax) :
      Wrote j record now (none, journalKeep (m.renamed record records) k
        (diskBytes (records ++ [record])) record.kind had legacy now)
  | added {k m had legacy records} (known : record.kind ≠ .other)
      (unknown : journalJobFind j record.id = none)
      (plan : Plan j record had legacy records) (expires : Expires none j m)
      (loose : crowded m none (diskBytes (records ++ [record])) record.kind.terminal = false)
      (fits : diskBytes (records ++ [record]) ≤ journalLoadMax) (free : m.jobs k = none) :
      Wrote j record now (none, journalKeep { m.renamed record records with
          jobs := Function.update m.jobs k (some { id := record.id })
          nJobs := add64 m.nJobs 1 } k (diskBytes (records ++ [record])) record.kind had legacy now)

/-- The directory's changes are synchronized. -/
structure SyncedIo (io : WriteIo I) : Prop where
  unlink : Synced io.unlink
  rename : ∀ e, io.rename ≠ .unsynced e

theorem wrote_store {io : WriteIo I} (synced : SyncedIo io)
    (table : j.Table) {had : Bool × Bool} {legacy : Bool} {records : List (JournalRecord I)}
    (known : record.kind ≠ .other) (plan : Plan j record had legacy records)
    (may : ∀ k job, journalJobFind j record.id = some (k, job) →
      job.error = none ∨ record.kind = .state ∨ record.kind.terminal = true) :
    Wrote j record io.now (journalCheckpointStore j ((journalJobFind j record.id).map Prod.fst) record
      records had legacy io) := by
  rw [journalCheckpointStore]
  simp only
  split
  · exact .lost .refl
  rename_i fits
  obtain ⟨expires, loose⟩ := @checkpointSpace _ _ ((journalJobFind j record.id).map Prod.fst)
    io.unlink synced.unlink (diskBytes (records ++ [record])) record.kind.terminal j
  split
  · rename_i e m space
    rw [space] at expires
    exact .lost expires
  rename_i m space
  rw [space] at expires loose
  have loose := loose rfl
  cases io.write with
  | some e => exact .lost expires
  | none =>
    cases rename : io.rename with
    | failed e => exact .lost expires
    | unsynced e => exact absurd rename (synced.rename e)
    | done =>
      cases found : journalJobFind j record.id with
      | some entry =>
        obtain ⟨k, job⟩ := entry
        rw [found] at expires loose
        exact .kept known found (may k job found) plan expires loose (not_lt.mp fits)
      | none =>
        rw [found] at expires loose
        have mid : (m.renamed record records).Table :=
          { expires.table table with }
        obtain ⟨k, free, added⟩ := @Table.jobAdd _ _ _ mid io.unlink record.id (roomy_new loose).2
        have whole : Wrote j record io.now _ :=
          .added known found plan expires loose (not_lt.mp fits) free
        simp only [Option.map_none, renamed] at added ⊢
        rw [added]
        exact whole

/-- What an item does, with the directory's changes synchronized. -/
theorem wrote {io : WriteIo I} (synced : SyncedIo io) (table : j.Table)
    (shelf : j.Shelf) : Wrote j record io.now (journalCheckpointWrite j record io) := by
  have go (known : record.kind ≠ .other) (may : ∀ k job, journalJobFind j record.id = some (k, job) →
      job.error = none ∨ record.kind = .state ∨ record.kind.terminal = true) :
      Wrote j record io.now (journalCheckpointWrite.go j record io
        ((journalJobFind j record.id).map Prod.fst) ((journalJobFind j record.id).map Prod.snd)) := by
    rw [journalCheckpointWrite.go]
    simp only
    split
    · exact .lost .refl
    rename_i ok
    split
    · exact .lost .refl
    generalize read : journalCheckpointOld j ((journalJobFind j record.id).map Prod.snd) record io = old at ok ⊢
    obtain ⟨⟨e, old⟩, legacy⟩ := old
    obtain rfl : e = none := ok
    exact wrote_store synced table known (checkpointOld table shelf read) may
  rw [journalCheckpointWrite]
  split
  · rename_i other
    exact .refused other
  rename_i known
  simp only
  split
  · rename_i e lost
    obtain ⟨job, entry, lost⟩ := Option.bind_eq_some_iff.mp lost
    obtain ⟨⟨k, job⟩, found, rfl⟩ := Option.map_eq_some_iff.mp entry
    split
    · rename_i replaces
      apply go known
      intro _ _ _
      right
      simpa using replaces
    · rename_i appends
      exact .barred found lost (by simpa using appends)
  · rename_i clear
    apply go known
    intro k job found
    rw [found] at clear
    exact .inl clear

/-! ## A job's first record -/

/-- A job that has no entry, and nothing in the legacy WAL that its first record reads. -/
structure New (j : Journal I) (record : JournalRecord I) : Prop where
  unknown : journalJobFind j record.id = none
  kind : record.kind ≠ .other
  unread : record.kind = .state ∨ j.wal = none
  fits : diskBytes [record] ≤ journalLoadMax

theorem New.write_eq (new : New j record) (io : WriteIo I) :
    journalCheckpointWrite j record io = journalCheckpointStore j none record [] (false, false) false io := by
  have old : journalCheckpointOld j none record io = ((none, []), false) := by
    rw [journalCheckpointOld]
    rcases new.unread with state | none_left
    · simp [state]
    · simp [none_left]
  simp [journalCheckpointWrite, journalCheckpointWrite.go, new.kind, new.unknown, old,
    journalJobFlags, journalRecordsDrop]

/-- A job's first record is stored, where there is room. -/
theorem New.write_done (new : New j record) (table : j.Table)
    (loose : crowded j none (diskBytes [record]) record.kind.terminal = false) :
    ∃ k, j.jobs k = none ∧ journalCheckpointWrite j record {} =
      (none, journalKeep { j.renamed record [] with
          jobs := Function.update j.jobs k (some { id := record.id })
          nJobs := add64 j.nJobs 1 } k (diskBytes [record]) record.kind (false, false) false 0) := by
  have fits := new.fits
  have wide : (j.renamed record []).Table := { table with }
  obtain ⟨k, free, added⟩ := @Table.jobAdd _ _ _ wide (fun _ => .done) record.id (roomy_new loose).2
  refine ⟨k, free, ?_⟩
  rw [new.write_eq, journalCheckpointStore]
  simp only [List.nil_append, not_lt.mpr fits, if_false, checkpointSpace_loose loose]
  simp only [renamed, List.nil_append] at added ⊢
  simp only [added]

/-! ## A later record -/

/-- What a job's later record takes the place of, and its checkpoint with it. -/
def rest (file : JournalFile I) (record : JournalRecord I) : List (JournalRecord I) :=
  (journalRecordsDrop file.records (stale record.kind)).1

/-- A job's later record is stored, where there is room. -/
theorem write_known {k : Fin journalJobs} {job : JournalJob I}
    {file : JournalFile I} (found : journalJobFind j record.id = some (k, job))
    (clear : job.error = none) (filled : job.bytes ≠ 0) (unmarked : job.legacy = false)
    (had : j.files record.id = some file) (readable : Readable record.id file)
    (appends : record.kind ≠ .state ∧ record.kind ≠ .other)
    (fits : diskBytes (rest file record ++ [record]) ≤ journalLoadMax)
    (loose : crowded j (some k) (diskBytes (rest file record ++ [record])) record.kind.terminal = false) :
    journalCheckpointWrite j record {} = (none, journalKeep (j.renamed record (rest file record)) k
        (diskBytes (rest file record ++ [record])) record.kind (journalJobFlags file.records) false 0) := by
  have read : journalFileRead j record.id {} = (none, file.records) := by
    simp only [journalFileRead, had]
    exact readable.read
  have old : journalCheckpointOld j (some job) record {} = ((none, file.records), false) := by
    simp only [journalCheckpointOld, appends.1, if_false, Option.any_some, filled, unmarked, ne_eq,
      not_false_eq_true, decide_true, if_true, read]
  have stored : journalCheckpointStore j (some k) record (rest file record) (journalJobFlags file.records) false {} =
        (none, journalKeep (j.renamed record (rest file record)) k
          (diskBytes (rest file record ++ [record])) record.kind (journalJobFlags file.records) false 0) := by
    simp only [journalCheckpointStore, not_lt.mpr fits, if_false, checkpointSpace_loose loose, renamed]
  simp only [journalCheckpointWrite, journalCheckpointWrite.go, appends.2, if_false, found,
    Option.map_some, Option.bind_some, clear, old, Bool.false_and, Bool.false_eq_true]
  exact stored

end Journal

end Askai
