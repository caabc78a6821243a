import Askai.Journal.Checkpoint

/-!
# What the writer keeps

The table stays in order and agrees with the jobs directory, whatever the writer does and whenever
it starts anew.
-/

namespace Askai

open Library List

variable {I : Type} [DecidableEq I]

namespace Journal

variable {j m t : Journal I} {slot : Option (Fin journalJobs)}

/-- The table is in order and agrees with the jobs directory. -/
structure Good (j : Journal I) : Prop where
  table : j.Table
  shelf : j.Shelf

omit [DecidableEq I] in
/-- What an entry says of its checkpoint stays while the checkpoint does. -/
theorem Good.update (good : j.Good) {k : Fin journalJobs} {old job : JournalJob I}
    (here : j.jobs k = some old) (own : job.id = old.id) (bytes : job.bytes = old.bytes)
    (terminal : old.bytes ≠ 0 → job.terminal = old.terminal) (legacy : job.legacy = old.legacy) :
    Good { j with jobs := Function.update j.jobs k (some job) } := by
  refine { table := ?_, shelf := { kept := ?_, listed := ?_, bare := ?_ } }
  · exact good.table.update here own (by omega) good.table.room j.files
  · intro l other at_ filled
    simp only [Function.update_apply] at at_
    split at at_
    · obtain rfl := Option.some.inj at_
      have filled : old.bytes ≠ 0 := bytes ▸ filled
      obtain ⟨file, had, fits⟩ := good.shelf.kept k old here filled
      refine ⟨file, own ▸ had, own ▸ fits.readable, bytes.trans fits.bytes, ?_⟩
      rw [terminal filled, legacy]
      exact fits.flags
    · exact good.shelf.kept l other at_ filled
  · intro id file had
    obtain ⟨l, other, at_, mine, filled⟩ := good.shelf.listed id file had
    rcases eq_or_ne l k with rfl | apart
    · rw [here] at at_
      obtain rfl := Option.some.inj at_
      exact ⟨l, job, Function.update_self .., own.trans mine, bytes ▸ filled⟩
    · exact ⟨l, other, (Function.update_of_ne apart ..).trans at_, mine, filled⟩
  · intro l other at_ empty
    simp only [Function.update_apply] at at_
    split at at_
    · obtain rfl := Option.some.inj at_
      exact legacy.trans (good.shelf.bare k old here (bytes ▸ empty))
    · exact good.shelf.bare l other at_ empty

theorem Expires.good (expires : Expires slot j t) (good : j.Good) : t.Good :=
  ⟨expires.table good.table, expires.shelf good.table good.shelf⟩

/-- A job new to the table has no checkpoint. -/
theorem Good.add (good : j.Good) {k : Fin journalJobs} {id : I} (free : j.jobs k = none)
    (absent : journalJobFind j id = none) :
    Good { j with
      jobs := Function.update j.jobs k (some { id })
      nJobs := add64 j.nJobs 1 } := by
  refine { table := good.table.add free absent, shelf := { kept := ?_, listed := ?_, bare := ?_ } }
  · intro l other at_ filled
    simp only [Function.update_apply] at at_
    split at at_
    · obtain rfl := Option.some.inj at_
      exact absurd rfl filled
    · exact good.shelf.kept l other at_ filled
  · intro id' file had
    obtain ⟨l, other, at_, mine, filled⟩ := good.shelf.listed id' file had
    have apart : l ≠ k := by
      rintro rfl
      rw [free] at at_
      cases at_
    exact ⟨l, other, (Function.update_of_ne apart ..).trans at_, mine, filled⟩
  · intro l other at_ empty
    simp only [Function.update_apply] at at_
    split at at_
    · obtain rfl := Option.some.inj at_
      rfl
    · exact good.shelf.bare l other at_ empty

/-! ## Lost records -/

omit [DecidableEq I] in
theorem lose_some {k : Fin journalJobs} {job : JournalJob I} {e : JournalErrno} (here : j.jobs k = some job) :
    journalLose j (some k) e = (some e, { j with
      jobs := Function.update j.jobs k (some { job with error := some e }) }) := by
  simp only [journalLose, here, Option.map_some]

omit [DecidableEq I] in
theorem lose_files (k : Option (Fin journalJobs)) (e : JournalErrno) : (journalLose j k e).2.files = j.files := by
  cases k <;> rfl

omit [DecidableEq I] in
theorem Good.lose (good : j.Good) (k : Option (Fin journalJobs)) (e : JournalErrno) : (journalLose j k e).2.Good := by
  cases k with
  | none => exact good
  | some k =>
    cases here : j.jobs k with
    | none =>
      simp only [journalLose, here, Option.map_none]
      rw [← here, Function.update_eq_self]
      exact good
    | some job =>
      rw [lose_some here]
      exact good.update here rfl rfl (fun _ => rfl) rfl

/-! ## Kept records -/

/-- The entry that `journal_checkpoint_write` leaves. -/
structure Entry (old job : JournalJob I) (bytes : Nat) (terminal legacy : Bool) : Prop where
  id : job.id = old.id
  bytes : job.bytes = bytes
  error : job.error = none
  flags : (job.terminal, job.legacy) = (terminal, legacy)

omit [DecidableEq I] in
theorem journalKeep_eq {k : Fin journalJobs} {old : JournalJob I} {bytes now : Nat}
    {kind : JournalKind} {had : Bool × Bool} {legacy : Bool} (here : j.jobs k = some old) :
    ∃ job, journalKeep j k bytes kind had legacy now =
        { j with
          recoveryBytes := add64 (sub64 j.recoveryBytes old.bytes) bytes
          jobs := Function.update j.jobs k (some job) } ∧
      Entry old job bytes (had.1 || kind.terminal) (had.2 || legacy) := by
  simp only [journalKeep, here]
  split
  · exact ⟨_, rfl, rfl, rfl, rfl, rfl⟩
  · exact ⟨_, rfl, rfl, rfl, rfl, rfl⟩

/-- The checkpoint that takes the place of the entry's last one. -/
theorem Good.stored (good : m.Good) {k : Fin journalJobs} {old job : JournalJob I}
    {record : JournalRecord I} {records : List (JournalRecord I)}
    (here : m.jobs k = some old) (own : old.id = record.id) (entry : Entry old job (diskBytes (records ++ [record]))
      (journalJobFlags (records ++ [record])).1 (journalJobFlags (records ++ [record])).2)
    (records_own : ∀ r ∈ records ++ [record], r.id = record.id ∧ r.kind ≠ .other ∧ r.data.length ≤ journalRecordMax)
    (fits : diskBytes (records ++ [record]) ≤ journalLoadMax)
    (room : m.recoveryBytes - old.bytes + diskBytes (records ++ [record]) ≤
      journalRecoveryBytes + journalTerminalBytes) :
    Good { m.renamed record records with
      recoveryBytes := add64 (sub64 m.recoveryBytes old.bytes) (diskBytes (records ++ [record]))
      jobs := Function.update m.jobs k (some job) } := by
  have le := good.table.le_recoveryBytes here
  have total : add64 (sub64 m.recoveryBytes old.bytes) (diskBytes (records ++ [record])) =
      m.recoveryBytes - old.bytes + diskBytes (records ++ [record]) := by
    rw [sub64_of_le le]
    apply add64_of_lt
    simp only [journalRecoveryBytes, journalTerminalBytes, journalRecordMax, journalHeader] at room
    rw [wrap64]
    omega
  have filled : 0 < diskBytes (records ++ [record]) := diskBytes_pos (by simp)
  have whole : JournalFile.records (journalFrames (records ++ [record])) = records ++ [record] :=
    records_journalFrames _
  have mine : Matches job (journalFrames (records ++ [record])) := by
    refine { readable := ?_, bytes := ?_, flags := ?_ }
    · rw [entry.id, own]
      refine { numbered := ?_, filled := ?_, own := ?_, fits := ?_ }
      · rw [whole]
      · intro empty
        rw [empty] at whole
        simp [JournalFile.records] at whole
      · rwa [whole]
      · rwa [whole]
    · rw [whole]
      exact entry.bytes
    · rw [whole]
      exact entry.flags
  rw [total]
  refine { table := ?_, shelf := { kept := ?_, listed := ?_, bare := ?_ } }
  · apply good.table.update here entry.id _ room
    rw [entry.bytes]
    omega
  · intro l other at_ some_bytes
    simp only [renamed, Function.update_apply] at at_ ⊢
    split at at_
    · obtain rfl := Option.some.inj at_
      exact ⟨_, if_pos (entry.id.trans own), mine⟩
    · rename_i apart
      have off : other.id ≠ record.id := fun same =>
        apart (good.table.distinct l k other old at_ here (same.trans own.symm))
      rw [if_neg off]
      exact good.shelf.kept l other at_ some_bytes
  · intro id file had
    simp only [renamed, Function.update_apply] at had ⊢
    split at had
    · rename_i same
      refine ⟨k, job, if_pos rfl, (entry.id.trans own).trans same.symm, ?_⟩
      rw [entry.bytes]
      omega
    · rename_i apart
      obtain ⟨l, other, at_, idl, some_bytes⟩ := good.shelf.listed id file had
      have off : l ≠ k := by
        rintro rfl
        rw [here] at at_
        obtain rfl := Option.some.inj at_
        exact apart (idl.symm.trans own)
      exact ⟨l, other, (if_neg off).trans at_, idl, some_bytes⟩
  · intro l other at_ empty
    simp only [Function.update_apply] at at_
    split at at_
    · obtain rfl := Option.some.inj at_
      rw [entry.bytes] at empty
      omega
    · exact good.shelf.bare l other at_ empty

/-! ## Items -/

/-- The entries of other jobs than `id` stay as they are, or go. -/
def Others (id : I) (j t : Journal I) : Prop :=
  ∀ k other, j.jobs k = some other → other.id ≠ id →
    t.jobs k = some other ∨ journalJobFind t other.id = none

/-- An item of the job `id` made room: what it left then, and at its end. -/
structure MadeRoom (id : I) (j m t : Journal I) : Prop where
  expires : ∃ slot, Expires slot j m ∧
    ∀ k, slot = some k → ∃ job, j.jobs k = some job ∧ job.id = id
  stays : ∀ k other, t.jobs k = some other → other.id ≠ id → m.jobs k = some other

/-- An item failed: its job's checkpoint stays, and its error too if the job has an entry. -/
structure Failed (j : Journal I) (record : JournalRecord I) (t : Journal I) : Prop where
  good : t.Good
  others : Others record.id j t
  files : ∃ m, MadeRoom record.id j m t ∧ t.files = m.files ∧
    m.files record.id = j.files record.id
  wal : t.wal = j.wal
  bytes : t.recoveryBytes ≤ j.recoveryBytes
  error : record.kind ≠ .other → ∀ k job, journalJobFind j record.id = some (k, job) →
    ∃ after, t.jobs k = some after ∧ after.id = record.id ∧ after.error ≠ none

/-- An item succeeded: its record is folded into its job's checkpoint. -/
structure Stored (j : Journal I) (record : JournalRecord I) (t : Journal I) : Prop where
  good : t.Good
  others : Others record.id j t
  may : ∀ k job, journalJobFind j record.id = some (k, job) →
    job.error = none ∨ record.kind = .state ∨ record.kind.terminal = true
  files : ∃ m, MadeRoom record.id j m t ∧
    t.files = Function.update m.files record.id
      (some (journalFrames (journalFold (j.before record) record)))
  wal : t.wal = j.wal
  room : record.kind.terminal = false → t.recoveryBytes ≤ journalRecoveryBytes

theorem find_eq_none {id : I} : journalJobFind j id = none ↔ ∀ k job, j.jobs k = some job → job.id ≠ id := by
  constructor
  · intro unknown k job here
    exact find_none unknown here
  · intro apart
    cases found : journalJobFind j id with
    | none => rfl
    | some entry =>
      obtain ⟨here, own⟩ := find_some found
      exact absurd own (apart _ _ here)

/-- The entries that stay are those that were there. -/
theorem Expires.was (expires : Expires slot j t) {k : Fin journalJobs} {job : JournalJob I}
    (here : t.jobs k = some job) : j.jobs k = some job := by
  rcases expires.jobs k with same | ⟨gone, -⟩
  · exact same.symm.trans here
  · rw [gone] at here
    cases here

theorem Expires.madeRoom_none (expires : Expires none j t) (id : I) : MadeRoom id j t t where
  expires := ⟨none, expires, nofun⟩
  stays := fun _ _ here _ => here

theorem Expires.madeRoom {k : Fin journalJobs} {job : JournalJob I} (expires : Expires (some k) j t)
    (here : j.jobs k = some job) : MadeRoom job.id j t t where
  expires := ⟨some k, expires, fun _ same => ⟨job, Option.some.inj same ▸ here, rfl⟩⟩
  stays := fun _ _ here _ => here

/-- A change to the entry of the job. -/
theorem MadeRoom.update {id : I} {u : Journal I} (made : MadeRoom id j m u) {k : Fin journalJobs}
    {job : JournalJob I} (own : job.id = id) (jobs : t.jobs = Function.update u.jobs k (some job)) :
    MadeRoom id j m t where
  expires := made.expires
  stays := by
    intro l other here apart
    simp only [jobs, Function.update_apply] at here
    split at here
    · obtain rfl := Option.some.inj here
      exact absurd own apart
    · exact made.stays l other here apart

theorem Expires.others (expires : Expires slot j t) (table : j.Table) (id : I) : Others id j t := by
  intro k other here _
  rcases expires.jobs k with same | ⟨gone, -⟩
  · exact .inl (same.trans here)
  · right
    rw [find_eq_none]
    intro l job at_ same
    obtain rfl := table.distinct l k job other (expires.was at_) here same
    rw [gone] at at_
    cases at_

theorem Others.update {id : I} (others : Others id j m) {k : Fin journalJobs}
    (mine : ∀ old, m.jobs k = some old → old.id = id) {job : JournalJob I} (own : job.id = id) :
    Others id j { m with jobs := Function.update m.jobs k (some job) } := by
  intro l other at_ apart
  rcases others l other at_ apart with stays | gone
  · have off : l ≠ k := by
      rintro rfl
      exact apart (mine other stays)
    exact .inl ((Function.update_of_ne off ..).trans stays)
  · right
    rw [find_eq_none] at gone ⊢
    intro n third there same
    simp only [Function.update_apply] at there
    split at there
    · obtain rfl := Option.some.inj there
      exact apart (same.symm.trans own)
    · exact gone n third there same

theorem Expires.find_none (expires : Expires slot j t) {id : I}
    (unknown : journalJobFind j id = none) : journalJobFind t id = none := by
  rw [find_eq_none] at unknown ⊢
  intro k job here
  exact unknown k job (expires.was here)

/-- A job that the table does not know has no checkpoint. -/
theorem Good.files_none (good : j.Good) {id : I} (unknown : journalJobFind j id = none) : j.files id = none := by
  cases had : j.files id with
  | none => rfl
  | some file =>
    obtain ⟨k, job, here, own, -⟩ := good.shelf.listed id file had
    exact absurd own (find_none unknown here)

theorem Good.failed {record : JournalRecord I} {e : JournalErrno} (good : j.Good)
    (expires : Expires ((journalJobFind j record.id).map Prod.fst) j m) :
    Failed j record (journalLose m ((journalJobFind j record.id).map Prod.fst) e).2 := by
  cases found : journalJobFind j record.id with
  | none =>
    rw [found] at expires
    have absent := good.files_none found
    exact
      { good := expires.good good
        others := expires.others good.table record.id
        files := ⟨m, expires.madeRoom_none _, rfl, (expires.files_none absent).trans absent.symm⟩
        wal := expires.wal
        bytes := expires.recoveryBytes_le good.table
        error := fun _ _ _ known => absurd (found.symm.trans known) nofun }
  | some entry =>
    obtain ⟨k, job⟩ := entry
    rw [found] at expires
    obtain ⟨here, own⟩ := find_some found
    have stays : m.jobs k = some job := expires.jobs_keep.trans here
    have same := expires.files_keep good.table here
    rw [own] at same
    rw [Option.map_some]
    have made : MadeRoom record.id j m m := own ▸ expires.madeRoom here
    refine
      { good := (expires.good good).lose _ e
        others := ?_
        files := ⟨m, ?_, lose_files _ e, same⟩
        wal := ?_
        bytes := ?_
        error := ?_ }
    · rw [lose_some stays]
      refine Others.update (expires.others good.table record.id) (fun old same => ?_) own
      rw [stays] at same
      exact Option.some.inj same ▸ own
    · rw [lose_some stays]
      have lost : ({ job with error := some e } : JournalJob I).id = record.id := own
      exact made.update lost rfl
    · rw [lose_some stays]
      exact expires.wal
    · rw [lose_some stays]
      exact expires.recoveryBytes_le good.table
    · intro _ l other known
      rw [found] at known
      obtain ⟨rfl, rfl⟩ := Prod.mk.inj (Option.some.inj known)
      rw [lose_some stays]
      exact ⟨_, Function.update_self .., own, nofun⟩

/-- The entry of the job, kept or new, takes the new checkpoint. -/
theorem Good.journalKeep {n : Journal I} {k : Fin journalJobs} {old : JournalJob I}
    {record : JournalRecord I} {had : Bool × Bool} {legacy : Bool}
    {records : List (JournalRecord I)} {now : Nat} (good : n.Good) (here : n.jobs k = some old)
    (own : old.id = record.id) (plan : Plan j record had legacy records)
    (unmarked : record.kind ≠ .legacy) (known : record.kind ≠ .other) (short : record.data.length ≤ journalRecordMax)
    (fits : diskBytes (records ++ [record]) ≤ journalLoadMax)
    (room : n.recoveryBytes - old.bytes + diskBytes (records ++ [record]) ≤
      journalRecoveryBytes + if record.kind.terminal then journalTerminalBytes else 0) :
    ∃ job, job.id = old.id ∧ journalKeep (n.renamed record records) k (diskBytes (records ++ [record])) record.kind had
        legacy now =
          { n.renamed record records with
            recoveryBytes := n.recoveryBytes - old.bytes + diskBytes (records ++ [record])
            jobs := Function.update n.jobs k (some job) } ∧
      Good { n.renamed record records with
        recoveryBytes := n.recoveryBytes - old.bytes + diskBytes (records ++ [record])
        jobs := Function.update n.jobs k (some job) } := by
  obtain ⟨job, kept, entry⟩ := @journalKeep_eq _ (n.renamed record records) k old
    (diskBytes (records ++ [record])) now record.kind had legacy here
  have flags := plan.flags unmarked
  have whole : Entry old job (diskBytes (records ++ [record]))
      (journalJobFlags (records ++ [record])).1 (journalJobFlags (records ++ [record])).2 :=
    { entry with flags := entry.flags.trans flags }
  have records_own : ∀ r ∈ records ++ [record],
      r.id = record.id ∧ r.kind ≠ .other ∧ r.data.length ≤ journalRecordMax := by
    intro r member
    rcases mem_append.mp member with old | new
    · exact plan.own r old
    · rw [mem_singleton.mp new]
      exact ⟨rfl, known, short⟩
  have most : n.recoveryBytes - old.bytes + diskBytes (records ++ [record]) ≤
      journalRecoveryBytes + journalTerminalBytes := by
    apply room.trans
    split
    · exact le_rfl
    · exact Nat.add_le_add_left (Nat.zero_le _) _
  have total : add64 (sub64 n.recoveryBytes old.bytes) (diskBytes (records ++ [record])) =
      n.recoveryBytes - old.bytes + diskBytes (records ++ [record]) := by
    rw [sub64_of_le (good.table.le_recoveryBytes here)]
    apply add64_of_lt
    simp only [journalRecoveryBytes, journalTerminalBytes, journalRecordMax, journalHeader] at most
    rw [wrap64]
    omega
  have stored := good.stored here own whole records_own fits most
  rw [total] at stored
  refine ⟨job, entry.id, ?_, stored⟩
  rw [kept]
  simp only [renamed, total]

/-- An item that meets no unsynchronized change fails, or its record is folded in. -/
theorem Wrote.outcome {record : JournalRecord I} {now : Nat} {out : Option JournalErrno × Journal I}
    (wrote : Wrote j record now out) (good : j.Good) (unmarked : record.kind ≠ .legacy)
    (short : record.data.length ≤ journalRecordMax) : out.1 ≠ none ∧ Failed j record out.2 ∨
      out.1 = none ∧ record.kind ≠ .other ∧ Stored j record out.2 := by
  have unchanged : Others record.id j j := fun _ _ here _ => .inl here
  cases wrote with
  | refused other =>
    left
    refine ⟨nofun, ?_⟩
    exact
      { good, others := unchanged, files := ⟨j, Expires.refl.madeRoom_none _, rfl, rfl⟩, wal := rfl
        bytes := le_rfl
        error := fun known => absurd other known }
  | @barred k job e found lost appends =>
    left
    obtain ⟨here, own⟩ := find_some found
    refine ⟨nofun, ?_⟩
    refine
      { good, others := unchanged, files := ⟨j, Expires.refl.madeRoom_none _, rfl, rfl⟩, wal := rfl
        bytes := le_rfl
        error := ?_ }
    intro _ l other known
    rw [found] at known
    obtain ⟨rfl, rfl⟩ := Prod.mk.inj (Option.some.inj known)
    exact ⟨job, here, own, by simp [lost]⟩
  | @lost m e expires =>
    left
    refine ⟨?_, good.failed expires⟩
    cases (journalJobFind j record.id).map Prod.fst <;> exact nofun
  | @kept k job m had legacy records known found may plan expires loose fits =>
    right
    obtain ⟨here, own⟩ := find_some found
    have mid := expires.good good
    have stays : m.jobs k = some job := expires.jobs_keep.trans here
    have room := mid.table.roomy stays loose
    obtain ⟨after, id_after, kept, stored⟩ :=
      @Good.journalKeep _ _ _ m k job record had legacy records now mid stays own plan unmarked
        known short fits room
    refine ⟨rfl, known, ?_⟩
    rw [kept]
    refine
      { good := stored
        others := ?_
        may := ?_
        files := ⟨m, (own ▸ expires.madeRoom here : MadeRoom record.id j m m).update (id_after.trans own) rfl,
          by rw [← plan.fold]; rfl⟩
        wal := expires.wal
        room := ?_ }
    · apply (expires.others good.table record.id).update _ (id_after.trans own)
      intro old same
      rw [stays] at same
      exact Option.some.inj same ▸ own
    · intro l other at_
      rw [found] at at_
      obtain ⟨rfl, rfl⟩ := Prod.mk.inj (Option.some.inj at_)
      exact may
    · intro appends
      simpa [appends] using room
  | @added k m had legacy records known unknown plan expires loose fits free =>
    right
    have mid := expires.good good
    have absent : journalJobFind m record.id = none := expires.find_none unknown
    have room := (roomy_new loose).1
    have wide := mid.add free absent
    obtain ⟨after, id_after, kept, stored⟩ :=
      @Good.journalKeep _ _ _ _ k { id := record.id } record had legacy records now wide
        (Function.update_self ..) rfl plan unmarked known short fits (by simpa using room)
    have grown : (Journal.renamed { m with
        jobs := Function.update m.jobs k (some { id := record.id })
        nJobs := add64 m.nJobs 1 } record records) =
        { m.renamed record records with
          jobs := Function.update m.jobs k (some { id := record.id })
          nJobs := add64 m.nJobs 1 } := rfl
    rw [grown] at kept stored
    refine ⟨rfl, known, ?_⟩
    rw [kept]
    refine
      { good := stored
        others := ?_
        may := fun _ _ found => absurd (unknown.symm.trans found) nofun
        files := ⟨m, ?_, by rw [← plan.fold]; rfl⟩
        wal := expires.wal
        room := ?_ }
    · have first : Others record.id j { m with jobs := Function.update m.jobs k (some { id := record.id }) } :=
        (expires.others good.table record.id).update
          (fun old same => absurd (free.symm.trans same) nofun) rfl
      have second := first.update (k := k) (fun old same => by
          simp only [Function.update_self] at same
          exact Option.some.inj same ▸ rfl) id_after
      exact second
    · have entered : MadeRoom record.id j m { m with jobs := Function.update m.jobs k (some { id := record.id }) } :=
        (expires.madeRoom_none record.id).update rfl rfl
      exact entered.update id_after rfl
    · intro appends
      simpa [appends] using room

/-! ## Reasoning -/

/-- What an item about reasoning leaves of the checkpoints and the errors. -/
structure Aside (id : I) (j t : Journal I) : Prop where
  good : t.Good
  errors : ∀ k other, j.jobs k = some other →
    (∃ after, t.jobs k = some after ∧ after.id = other.id ∧ after.error = other.error) ∨
      journalJobFind t other.id = none
  files : ∃ m, MadeRoom id j m t ∧ t.files = m.files
  wal : t.wal = j.wal

theorem Aside.refl (good : j.Good) (id : I) : Aside id j j :=
  { good
    errors := fun _ _ here => .inl ⟨_, here, rfl, rfl⟩
    files := ⟨j, Expires.refl.madeRoom_none id, rfl⟩
    wal := rfl }

theorem Expires.aside (expires : Expires none j t) (good : j.Good) (id : I) : Aside id j t where
  good := expires.good good
  errors := by
    intro k other here
    rcases expires.jobs k with same | ⟨gone, -⟩
    · exact .inl ⟨other, same.trans here, rfl, rfl⟩
    · right
      rw [find_eq_none]
      intro l job at_ same
      obtain rfl := good.table.distinct l k job other (expires.was at_) here same
      rw [gone] at at_
      cases at_
  files := ⟨t, expires.madeRoom_none id, rfl⟩
  wal := expires.wal

/-- A change to an entry that leaves its checkpoint and its error alone. -/
theorem Aside.update {id : I} (aside : Aside id j m) {k : Fin journalJobs} {old job : JournalJob I}
    (mine : old.id = id) (here : m.jobs k = some old) (own : job.id = old.id) (bytes : job.bytes = old.bytes)
    (terminal : old.bytes ≠ 0 → job.terminal = old.terminal) (legacy : job.legacy = old.legacy)
    (error : job.error = old.error) : Aside id j { m with jobs := Function.update m.jobs k (some job) } where
  good := aside.good.update here own bytes terminal legacy
  errors := by
    intro l other at_
    rcases aside.errors l other at_ with ⟨after, stays, mine, same⟩ | gone
    · left
      rcases eq_or_ne l k with rfl | off
      · rw [here] at stays
        obtain rfl := Option.some.inj stays
        exact ⟨job, Function.update_self .., own.trans mine, error.trans same⟩
      · exact ⟨after, (Function.update_of_ne off ..).trans stays, mine, same⟩
    · right
      rw [find_eq_none] at gone ⊢
      intro n third there same
      simp only [Function.update_apply] at there
      split at there
      · obtain rfl := Option.some.inj there
        exact gone k old here (own.symm.trans same)
      · exact gone n third there same
  files := by
    obtain ⟨n, made, same⟩ := aside.files
    exact ⟨n, made.update (own.trans mine) rfl, same⟩
  wal := aside.wal

theorem jobAdd_cases {unlink : I → DirChange} (synced : Synced unlink) (id : I) : ∃ m, Expires none j m ∧
      ((∃ e, journalJobAdd unlink id j = (.error e, m)) ∨ ∃ k, m.jobs k = none ∧ journalJobAdd unlink id j =
          (.ok k, { m with
            jobs := Function.update m.jobs k (some { id })
            nJobs := add64 m.nJobs 1 })) := by
  obtain ⟨expires, -⟩ := @checkpointSpace _ _ none unlink synced 0 true j
  cases space : journalCheckpointSpace unlink none 0 true j with
  | mk e m =>
    rw [space] at expires
    refine ⟨m, expires, ?_⟩
    cases e with
    | some e => exact .inl ⟨e, by simp only [journalJobAdd, space]⟩
    | none =>
      cases found : (List.finRange journalJobs).find? fun k => (m.jobs k).isNone with
      | none => exact .inl ⟨.enospc, by simp only [journalJobAdd, space, found]⟩
      | some k =>
        have free : m.jobs k = none := by simpa using List.find?_some found
        exact .inr ⟨k, free, by simp only [journalJobAdd, space, found]⟩

theorem aside_put {k : Fin journalJobs} {job : JournalJob I} (aside : Aside job.id j m)
    (here : m.jobs k = some job) (turn offset len : Nat) (write : Option JournalErrno) :
    Aside job.id j (journalThoughtPut.put turn offset len write m k job).2 := by
  simp only [journalThoughtPut.put]
  split
  · exact aside.update rfl here rfl rfl (fun filled => by simp [filled]) rfl rfl
  · exact aside.update rfl here rfl rfl (fun filled => by simp [filled]) rfl rfl

theorem Good.thoughtPut (good : j.Good) {unlink : I → DirChange} (synced : Synced unlink)
    (id : I) (turn offset len : Nat) (write : Option JournalErrno) :
    Aside id j (journalThoughtPut j id turn offset len unlink write).2 := by
  rw [journalThoughtPut]
  cases found : journalJobFind j id with
  | some entry =>
    obtain ⟨k, job⟩ := entry
    obtain ⟨here, rfl⟩ := find_some found
    exact aside_put (.refl good _) here turn offset len write
  | none =>
    obtain ⟨m, expires, ⟨e, failed⟩ | ⟨k, free, added⟩⟩ := @jobAdd_cases _ _ j unlink synced id
    · simp only [failed]
      exact expires.aside good id
    · simp only [added]
      have mid := expires.aside good id
      have absent := expires.find_none found
      have grown : Aside id j { m with
          jobs := Function.update m.jobs k (some { id })
          nJobs := add64 m.nJobs 1 } :=
        { good := mid.good.add free absent
          errors := by
            intro l other here
            rcases mid.errors l other here with ⟨after, stays, mine, same⟩ | gone
            · have off : l ≠ k := by
                rintro rfl
                rw [free] at stays
                cases stays
              exact .inl ⟨after, (Function.update_of_ne off ..).trans stays, mine, same⟩
            · right
              rw [find_eq_none] at gone ⊢
              intro n third there same
              simp only [Function.update_apply] at there
              split at there
              · obtain rfl := Option.some.inj there
                exact find_none found here same.symm
              · exact gone n third there same
          files := ⟨m, (expires.madeRoom_none id).update rfl rfl, rfl⟩
          wal := mid.wal }
      exact @aside_put _ _ _ _ k { id } grown (Function.update_self ..) turn offset len write

theorem Good.thoughtClose (good : j.Good) (id : I) (turn : Nat) (finish : Bool)
    (commit : Option JournalErrno) : Aside id j (journalThoughtClose j id turn finish commit).2 := by
  rw [journalThoughtClose]
  cases found : journalJobFind j id with
  | none => exact .refl good id
  | some entry =>
    obtain ⟨k, job⟩ := entry
    obtain ⟨here, own⟩ := find_some found
    simp only
    generalize (if (decide (job.thoughtTurn = turn) && job.thoughtError.isSome) = true then
      job.thoughtError else commit) = e
    split
    · rename_i may
      simp only [Bool.and_eq_true, decide_eq_true_eq] at may
      exact (Aside.refl good id).update own here rfl rfl (fun filled => absurd may.1.2 filled) rfl rfl
    · exact .refl good id

/-! ## A restart -/

/-- The names of the jobs directory, each once, in some order. -/
structure Lists (j : Journal I) (names : List I) : Prop where
  nodup : names.Nodup
  mem_iff : ∀ id, id ∈ names ↔ ∃ file, j.files id = some file

/-- The bytes of a job's checkpoint on disk. -/
def sizeOf (j : Journal I) (id : I) : Nat :=
  (j.files id).elim 0 fun file => diskBytes file.records

/-- The jobs that the table has checkpoints of. -/
def checkpoints (j : Journal I) : List I :=
  (List.finRange journalJobs).filterMap fun k =>
    (j.jobs k).bind fun job => if job.bytes = 0 then none else some job.id

omit [DecidableEq I] in
theorem mem_checkpoints {id : I} : id ∈ j.checkpoints ↔ ∃ k job, j.jobs k = some job ∧ job.id = id ∧ job.bytes ≠ 0 := by
  simp only [checkpoints, mem_filterMap, mem_finRange, true_and, Option.bind_eq_some_iff]
  constructor
  · rintro ⟨k, job, here, found⟩
    split at found
    · cases found
    · rename_i filled
      exact ⟨k, job, here, Option.some.inj found, filled⟩
  · rintro ⟨k, job, here, rfl, filled⟩
    exact ⟨k, job, here, if_neg filled⟩

omit [DecidableEq I] in
theorem Table.nodup_checkpoints (table : j.Table) : j.checkpoints.Nodup := by
  apply List.Nodup.filterMap _ (nodup_finRange journalJobs)
  intro k l id left right
  obtain ⟨a, here, same⟩ := Option.bind_eq_some_iff.mp left
  obtain ⟨b, there, also_⟩ := Option.bind_eq_some_iff.mp right
  split at same
  · cases same
  split at also_
  · cases also_
  exact table.distinct k l a b here there ((Option.some.inj same).trans (Option.some.inj also_).symm)

omit [DecidableEq I] in
theorem Good.perm_checkpoints (good : j.Good) {names : List I} (lists : j.Lists names) : names.Perm j.checkpoints := by
  rw [perm_ext_iff_of_nodup lists.nodup good.table.nodup_checkpoints]
  intro id
  rw [lists.mem_iff, mem_checkpoints]
  constructor
  · rintro ⟨file, had⟩
    exact good.shelf.listed id file had
  · rintro ⟨k, job, here, rfl, filled⟩
    obtain ⟨file, had, -⟩ := good.shelf.kept k job here filled
    exact ⟨file, had⟩

omit [DecidableEq I] in
/-- The files of the jobs directory are as large together as the writer has it, and not too many. -/
theorem Good.sum_sizeOf (good : j.Good) {names : List I} (lists : j.Lists names) :
    (names.map j.sizeOf).sum = j.recoveryBytes ∧ names.length ≤ journalJobs := by
  have perm := good.perm_checkpoints lists
  have each : ∀ slots : List (Fin journalJobs), ((slots.filterMap fun k => (j.jobs k).bind fun job =>
        if job.bytes = 0 then none else some job.id).map j.sizeOf).sum =
          (slots.map (bytesAt j.jobs)).sum := by
    intro slots
    induction slots with
    | nil => rfl
    | cons k slots ih =>
      cases here : j.jobs k with
      | none => simpa [here, bytesAt] using ih
      | some job =>
        by_cases empty : job.bytes = 0
        · simpa [here, bytesAt, empty] using ih
        · obtain ⟨file, had, fits⟩ := good.shelf.kept k job here empty
          have size : j.sizeOf job.id = job.bytes := by
            rw [sizeOf, had, fits.bytes]
            rfl
          simpa [here, bytesAt, empty, size] using ih
  constructor
  · calc
      (names.map j.sizeOf).sum = (j.checkpoints.map j.sizeOf).sum := (perm.map _).sum_eq
      _ = ((List.finRange journalJobs).map (bytesAt j.jobs)).sum := each _
      _ = ∑ k, bytesAt j.jobs k := (Fin.sum_univ_def _).symm
      _ = j.recoveryBytes := good.table.bytes.symm
  · rw [perm.length_eq]
    exact (length_filterMap_le ..).trans (length_finRange ..).le

/-- The table after the first names of a scan. -/
structure Scanned (j : Journal I) (seen : List I) (t : Journal I) : Prop where
  table : t.Table
  files : t.files = j.files
  wal : t.wal = j.wal
  count : t.nJobs = seen.length
  free : ∀ k : Fin journalJobs, t.nJobs ≤ k.val → t.jobs k = none
  bytes : t.recoveryBytes = (seen.map j.sizeOf).sum
  entry : ∀ id ∈ seen, ∃ k job, t.jobs k = some job ∧ job.id = id
  kept : ∀ k job, t.jobs k = some job →
    job.id ∈ seen ∧ job.bytes ≠ 0 ∧ ∃ file, j.files job.id = some file ∧ Matches job file

omit [DecidableEq I] in
theorem scanned_nil (j : Journal I) : Scanned j [] { files := j.files, wal := j.wal } where
  table :=
    { distinct := fun _ _ _ _ here => by cases here
      count := by simp [used]
      bytes := by simp [bytesAt]
      room := Nat.zero_le _ }
  files := rfl
  wal := rfl
  count := rfl
  free := fun _ _ => rfl
  bytes := rfl
  entry := nofun
  kept := fun _ _ here => by cases here

/-- One more name is taken in, its file being one that was written. -/
theorem Scanned.step {seen : List I} {id : I} {file : JournalFile I} (scanned : Scanned j seen t)
    (touched : I → Nat) (fresh : id ∉ seen) (had : j.files id = some file)
    (readable : Readable id file) (few : seen.length < journalJobs)
    (room : ((seen ++ [id]).map j.sizeOf).sum ≤ journalRecoveryBytes + journalTerminalBytes) :
    ∃ u, journalJobScan touched t id = .ok u ∧ Scanned j (seen ++ [id]) u := by
  have size : j.sizeOf id = diskBytes file.records := by
    rw [sizeOf, had]
    rfl
  have total : ((seen ++ [id]).map j.sizeOf).sum = t.recoveryBytes + diskBytes file.records := by
    rw [scanned.bytes]
    simp [size]
  rw [total] at room
  have slot : t.nJobs < journalJobs := scanned.count ▸ few
  have le : t.recoveryBytes ≤ journalRecoveryBytes + journalTerminalBytes := by omega
  have fits : ¬(journalLoadMax < diskBytes file.records ∨
      sub64 (journalRecoveryBytes + journalTerminalBytes) t.recoveryBytes < diskBytes file.records) := by
    have load := readable.fits
    rw [sub64_of_le le]
    omega
  have sum : add64 t.recoveryBytes (diskBytes file.records) = t.recoveryBytes + diskBytes file.records := by
    apply add64_of_lt
    simp only [journalRecoveryBytes, journalTerminalBytes, journalRecordMax, journalHeader] at room
    rw [wrap64]
    omega
  have next : add64 t.nJobs 1 = t.nJobs + 1 := by
    apply add64_of_lt
    rw [journalJobs_eq] at slot
    rw [wrap64]
    omega
  have filled : 0 < diskBytes file.records := by
    apply diskBytes_pos
    intro none_left
    have empty := readable.numbered
    rw [none_left] at empty
    exact readable.filled empty
  have absent : journalJobFind t id = none := by
    rw [find_eq_none]
    rintro k job here rfl
    exact fresh (scanned.kept k job here).1
  have free := scanned.free ⟨t.nJobs, slot⟩ le_rfl
  let job : JournalJob I :=
    { id, bytes := diskBytes file.records, touched := touched id
      terminal := (journalJobFlags file.records).1, legacy := (journalJobFlags file.records).2 }
  have added := scanned.table.add free absent
  have table := @Table.update _ _ added ⟨t.nJobs, slot⟩ { id } job
    (t.recoveryBytes + diskBytes file.records) (Function.update_self ..) rfl rfl room t.files
  rw [Function.update_idem, next] at table
  refine ⟨{ t with
      jobs := Function.update t.jobs ⟨t.nJobs, slot⟩ (some job)
      nJobs := t.nJobs + 1
      recoveryBytes := t.recoveryBytes + diskBytes file.records }, ?_, ?_⟩
  · rw [journalJobScan, dif_pos slot, scanned.files, had]
    simp only [Bool.or_eq_true, decide_eq_true_eq, fits, if_false, readable.read, sum, job]
  · refine
      { table
        files := scanned.files
        wal := scanned.wal
        count := by simp [scanned.count]
        free := ?_
        bytes := total.symm
        entry := ?_
        kept := ?_ }
    · intro k beyond
      have off : k ≠ ⟨t.nJobs, slot⟩ := by
        rintro rfl
        simp only at beyond
        omega
      exact (Function.update_of_ne off ..).trans (scanned.free k (by simp only at beyond; omega))
    · intro id' member
      rcases mem_append.mp member with old | new
      · obtain ⟨k, other, here, own⟩ := scanned.entry id' old
        have off : k ≠ ⟨t.nJobs, slot⟩ := by
          rintro rfl
          rw [free] at here
          cases here
        exact ⟨k, other, (Function.update_of_ne off ..).trans here, own⟩
      · rw [mem_singleton.mp new]
        exact ⟨_, job, Function.update_self .., rfl⟩
    · intro k other here
      simp only [Function.update_apply] at here
      split at here
      · obtain rfl := Option.some.inj here
        exact ⟨by simp [job], by simp only [job]; omega, file, had, readable, rfl, rfl⟩
      · obtain ⟨member, some_bytes, found⟩ := scanned.kept k other here
        exact ⟨mem_append_left _ member, some_bytes, found⟩

omit [DecidableEq I] in
theorem Scanned.good {names : List I} (scanned : Scanned j names t) (lists : j.Lists names) : t.Good where
  table := scanned.table
  shelf :=
    { kept := by
        intro k job here _
        rw [scanned.files]
        exact (scanned.kept k job here).2.2
      listed := by
        intro id file had
        rw [scanned.files] at had
        obtain ⟨k, job, here, own⟩ := scanned.entry id ((lists.mem_iff id).mpr ⟨file, had⟩)
        exact ⟨k, job, here, own, (scanned.kept k job here).2.1⟩
      bare := fun k job here empty => absurd empty (scanned.kept k job here).2.1 }

/-- A start always accepts the jobs directory that the last one left. -/
theorem Good.scan (good : j.Good) (touched : I → Nat) {names : List I} (lists : j.Lists names) :
    ∃ t, journalJobsScan j names touched = .ok t ∧ t.Good ∧ t.files = j.files ∧ t.wal = j.wal := by
  obtain ⟨sum, few⟩ := good.sum_sizeOf lists
  have room := good.table.room
  have walk : ∀ rest seen t, seen ++ rest = names → Scanned j seen t →
      ∃ u, rest.foldlM (journalJobScan touched) t = .ok u ∧ Scanned j names u := by
    intro rest
    induction rest with
    | nil =>
      intro seen t whole scanned
      rw [append_nil] at whole
      exact ⟨t, rfl, whole ▸ scanned⟩
    | cons id rest ih =>
      intro seen t whole scanned
      have parts : seen ++ [id] ++ rest = names := by
        rw [← whole]
        simp
      have member : id ∈ names := by
        rw [← whole]
        simp
      have fresh : id ∉ seen := by
        have nodup := lists.nodup
        rw [← whole] at nodup
        intro early
        exact (nodup_append.mp nodup).2.2 id early id mem_cons_self rfl
      obtain ⟨file, had⟩ := (lists.mem_iff id).mp member
      obtain ⟨k, job, here, own, filled⟩ := good.shelf.listed id file had
      obtain ⟨same, found, fits⟩ := good.shelf.kept k job here filled
      rw [own, had] at found
      obtain rfl := Option.some.inj found
      have less : ((seen ++ [id]).map j.sizeOf).sum ≤ (names.map j.sizeOf).sum := by
        have split : (names.map j.sizeOf).sum = ((seen ++ [id]).map j.sizeOf).sum + (rest.map j.sizeOf).sum := by
          rw [← parts, map_append, sum_append]
        rw [split]
        exact Nat.le_add_right ..
      have shorter : seen.length < journalJobs := by
        rw [← whole, length_append, length_cons] at few
        omega
      obtain ⟨u, step, next⟩ := scanned.step touched fresh had (own ▸ fits.readable) shorter
        (less.trans (sum.le.trans room))
      obtain ⟨v, rest_ok, last⟩ := ih (seen ++ [id]) u parts next
      refine ⟨v, ?_, last⟩
      rw [foldlM_cons, step]
      exact rest_ok
  obtain ⟨t, ok, scanned⟩ := walk names [] _ rfl (scanned_nil j)
  exact ⟨t, ok, scanned.good lists, scanned.files, scanned.wal⟩

end Journal

end Askai
