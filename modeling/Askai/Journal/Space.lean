import Askai.Journal.Model
import Mathlib.Algebra.BigOperators.Fin
import Mathlib.Tactic

/-!
# The table of the journal and its files

What the writer keeps between items, and how it makes room: the oldest of the jobs that have ended
go first, each with its checkpoint.
-/

namespace Askai

open Library

variable {I : Type} [DecidableEq I]

theorem sub64_of_le {x n : Nat} (le : n ≤ x) : sub64 x n = x - n :=
  if_pos le

theorem journalJobs_eq : journalJobs = 1024 := by
  unfold journalJobs
  rfl

theorem add64_of_lt {x n : Nat} (fits : x + n < wrap64) : add64 x n = x + n :=
  if_pos fits

/-- The checkpoint of the job `id`, as it is read back. -/
structure Readable (id : I) (file : JournalFile I) : Prop where
  numbered : file = journalFrames file.records
  filled : file ≠ []
  own : ∀ r ∈ file.records, r.id = id ∧ r.kind ≠ .other ∧ r.data.length ≤ journalRecordMax
  fits : diskBytes file.records ≤ journalLoadMax

/-- What an entry says of its checkpoint. -/
structure Matches (job : JournalJob I) (file : JournalFile I) : Prop where
  readable : Readable job.id file
  bytes : job.bytes = diskBytes file.records
  flags : (job.terminal, job.legacy) = journalJobFlags file.records

namespace Journal

/-- The checkpoint bytes of an entry. -/
def bytesAt (jobs : Fin journalJobs → Option (JournalJob I)) (k : Fin journalJobs) : Nat :=
  (jobs k).elim 0 JournalJob.bytes

/-- The table is in order. -/
structure Table (j : Journal I) : Prop where
  distinct : ∀ k l a b, j.jobs k = some a → j.jobs l = some b → a.id = b.id → k = l
  count : j.nJobs = j.used
  bytes : j.recoveryBytes = ∑ k, bytesAt j.jobs k
  room : j.recoveryBytes ≤ journalRecoveryBytes + journalTerminalBytes

/-- The table and the jobs directory agree. -/
structure Shelf (j : Journal I) : Prop where
  kept : ∀ k job, j.jobs k = some job → job.bytes ≠ 0 →
    ∃ file, j.files job.id = some file ∧ Matches job file
  listed : ∀ id file, j.files id = some file →
    ∃ k job, j.jobs k = some job ∧ job.id = id ∧ job.bytes ≠ 0
  /-- Only a checkpoint can say that a job came from the legacy WAL. -/
  bare : ∀ k job, j.jobs k = some job → job.bytes = 0 → job.legacy = false

variable {j t : Journal I}

/-! ## Looking jobs up -/

variable {k : Fin journalJobs} {job : JournalJob I}

theorem find_some {id : I}
    (found : journalJobFind j id = some (k, job)) : j.jobs k = some job ∧ job.id = id := by
  obtain ⟨l, _, here⟩ := List.exists_of_findSome?_eq_some found
  obtain ⟨other, at_, same⟩ := Option.bind_eq_some_iff.mp here
  split at same
  · rename_i own
    obtain ⟨rfl, rfl⟩ := Prod.mk.inj (Option.some.inj same)
    exact ⟨at_, own⟩
  · cases same

theorem find_none {id : I} (absent : journalJobFind j id = none)
    (here : j.jobs k = some job) : job.id ≠ id := by
  intro own
  have missed := List.findSome?_eq_none_iff.mp absent k (List.mem_finRange k)
  simp [here, own] at missed

theorem Table.find (table : j.Table)
    (here : j.jobs k = some job) : journalJobFind j job.id = some (k, job) := by
  cases found : journalJobFind j job.id with
  | none => exact absurd rfl (find_none found here)
  | some entry =>
    obtain ⟨l, other⟩ := entry
    obtain ⟨at_, own⟩ := find_some found
    obtain rfl := table.distinct l k other job at_ here own
    rw [at_] at here
    rw [Option.some.inj here]

/-! ## The table as it changes -/

omit [DecidableEq I] in
theorem sum_bytesAt_update (jobs : Fin journalJobs → Option (JournalJob I)) (k : Fin journalJobs)
    (job : Option (JournalJob I)) : ∑ l, bytesAt (Function.update jobs k job) l + bytesAt jobs k =
      ∑ l, bytesAt jobs l + job.elim 0 JournalJob.bytes := by
  have others : ∑ l ∈ Finset.univ.erase k, bytesAt (Function.update jobs k job) l =
      ∑ l ∈ Finset.univ.erase k, bytesAt jobs l := by
    apply Finset.sum_congr rfl
    intro l member
    rw [bytesAt, bytesAt, Function.update_of_ne (Finset.ne_of_mem_erase member)]
  have here : bytesAt (Function.update jobs k job) k = job.elim 0 JournalJob.bytes := by
    rw [bytesAt, Function.update_self]
  rw [← Finset.add_sum_erase _ _ (Finset.mem_univ k), others, here,
    ← Finset.add_sum_erase _ (bytesAt jobs) (Finset.mem_univ k)]
  omega

omit [DecidableEq I] in
theorem bytesAt_le (jobs : Fin journalJobs → Option (JournalJob I)) (k : Fin journalJobs) :
    bytesAt jobs k ≤ ∑ l, bytesAt jobs l :=
  Finset.single_le_sum (fun _ _ => Nat.zero_le _) (Finset.mem_univ k)

omit [DecidableEq I] in
theorem Table.le_recoveryBytes (table : j.Table)
    (here : j.jobs k = some job) : job.bytes ≤ j.recoveryBytes := by
  have le := bytesAt_le j.jobs k
  rw [bytesAt, here] at le
  rw [table.bytes]
  exact le

omit [DecidableEq I] in
theorem used_pos (here : j.jobs k = some job) : 0 < j.used :=
  Finset.card_pos.mpr ⟨k, Finset.mem_filter.mpr ⟨Finset.mem_univ k, by simp [here]⟩⟩

omit [DecidableEq I] in
theorem used_le : j.used ≤ journalJobs := by
  have le := Finset.card_filter_le Finset.univ fun k => (j.jobs k).isSome
  rwa [Finset.card_fin] at le

omit [DecidableEq I] in
/-- An entry that stays where it is may change anything but its id. -/
theorem Table.update (table : j.Table) {k : Fin journalJobs} {old job : JournalJob I}
    {bytes : Nat} (here : j.jobs k = some old) (own : job.id = old.id)
    (changed : bytes + old.bytes = j.recoveryBytes + job.bytes)
    (room : bytes ≤ journalRecoveryBytes + journalTerminalBytes) (files : I → Option (JournalFile I)) :
    Table { j with jobs := Function.update j.jobs k (some job), recoveryBytes := bytes, files } := by
  have sum := sum_bytesAt_update j.jobs k (some job)
  rw [bytesAt, here, ← table.bytes] at sum
  refine { distinct := ?_, count := ?_, bytes := ?_, room }
  · intro l m a b left right same
    have back : ∀ n c, Function.update j.jobs k (some job) n = some c → ∃ d, j.jobs n = some d ∧ d.id = c.id := by
      intro n c at_
      rcases eq_or_ne n k with rfl | other
      · rw [Function.update_self] at at_
        exact ⟨old, here, own.symm.trans (congrArg JournalJob.id (Option.some.inj at_))⟩
      · rw [Function.update_of_ne other] at at_
        exact ⟨c, at_, rfl⟩
    obtain ⟨c, left, idc⟩ := back l a left
    obtain ⟨d, right, idd⟩ := back m b right
    exact table.distinct l m c d left right (idc.trans (same.trans idd.symm))
  · rw [table.count, used, used]
    congr 1
    ext n
    rw [Finset.mem_filter, Finset.mem_filter]
    rcases eq_or_ne n k with rfl | other
    · simp [here]
    · simp [other]
  · simp only [Option.elim] at sum
    simp only
    omega

/-- A free place takes an entry without a checkpoint. -/
theorem Table.add (table : j.Table) {k : Fin journalJobs} {id : I} (free : j.jobs k = none)
    (absent : journalJobFind j id = none) :
    Table { j with
      jobs := Function.update j.jobs k (some { id })
      nJobs := add64 j.nJobs 1 } := by
  have sum := sum_bytesAt_update j.jobs k (some { id })
  rw [bytesAt, free, ← table.bytes] at sum
  refine { distinct := ?_, count := ?_, bytes := ?_, room := table.room }
  · intro l m a b left right same
    simp only [Function.update_apply] at left right
    split at left <;> split at right
    · rename_i lk mk
      exact lk.trans mk.symm
    · have own : b.id = id := same.symm.trans (congrArg JournalJob.id (Option.some.inj left)).symm
      exact absurd own (find_none absent right)
    · have own : a.id = id := same.trans (congrArg JournalJob.id (Option.some.inj right)).symm
      exact absurd own (find_none absent left)
    · exact table.distinct l m a b left right same
  · have more : (Finset.univ.filter fun l => (Function.update j.jobs k (some { id }) l).isSome) =
        insert k (Finset.univ.filter fun l => (j.jobs l).isSome) := by
      ext l
      rw [Finset.mem_insert, Finset.mem_filter, Finset.mem_filter]
      rcases eq_or_ne l k with rfl | other
      · simp
      · simp [other]
    have fresh : k ∉ Finset.univ.filter fun l => (j.jobs l).isSome := by simp [free]
    have most : j.used ≤ journalJobs := used_le
    have fits : j.nJobs + 1 < wrap64 := by
      have few := journalJobs_eq
      rw [table.count, wrap64]
      omega
    simp only [used]
    rw [add64_of_lt fits, more, Finset.card_insert_of_notMem fresh, table.count, used]
  · have empty : (some ({ id } : JournalJob I)).elim 0 JournalJob.bytes = 0 := rfl
    rw [empty, Option.elim_none] at sum
    simp only
    omega

/-! ## Room -/

theorem Table.expire (table : j.Table)
    (here : j.jobs k = some job) : (j.expire k job).Table := by
  have sum := sum_bytesAt_update j.jobs k none
  have le := table.le_recoveryBytes here
  have less := used_expire here
  rw [bytesAt, here, ← table.bytes] at sum
  simp only [Option.elim] at sum
  refine { distinct := ?_, count := ?_, bytes := ?_, room := ?_ }
  · intro l m a b left right
    simp only [Journal.expire, Function.update_apply] at left right
    split at left
    · cases left
    split at right
    · cases right
    exact table.distinct l m a b left right
  · simp only [Journal.expire]
    rw [sub64_of_le (by rw [table.count]; exact used_pos here), table.count, ← less, Nat.add_sub_cancel]
    rfl
  · simp only [Journal.expire]
    rw [sub64_of_le le]
    omega
  · have room := table.room
    simp only [Journal.expire]
    rw [sub64_of_le le]
    omega

theorem Shelf.expire (table : j.Table) (shelf : j.Shelf)
    (here : j.jobs k = some job) : (j.expire k job).Shelf := by
  have apart : ∀ l other, l ≠ k → j.jobs l = some other → other.id ≠ job.id :=
    fun l other off at_ same => off (table.distinct l k other job at_ here same)
  refine { kept := ?_, listed := ?_, bare := ?_ }
  · intro l other at_ some_bytes
    simp only [Journal.expire, Function.update_apply] at at_ ⊢
    split at at_
    · cases at_
    · rename_i off
      obtain ⟨file, found, fits⟩ := shelf.kept l other at_ some_bytes
      refine ⟨file, ?_, fits⟩
      split
      · exact found
      · rw [Function.update_of_ne (apart l other off at_)]
        exact found
  · intro id file found
    have before : j.files id = some file ∧ (job.bytes ≠ 0 → id ≠ job.id) := by
      simp only [Journal.expire] at found
      split at found
      · rename_i empty
        exact ⟨found, fun some_bytes => absurd empty some_bytes⟩
      · rw [Function.update_apply] at found
        split at found
        · cases found
        · rename_i off
          exact ⟨found, fun _ => off⟩
    obtain ⟨l, other, at_, own, some_bytes⟩ := shelf.listed id file before.1
    have off : l ≠ k := by
      rintro rfl
      rw [here] at at_
      obtain rfl := Option.some.inj at_
      exact before.2 some_bytes own.symm
    exact ⟨l, other, (Function.update_of_ne off ..).trans at_, own, some_bytes⟩
  · intro l other at_
    simp only [Journal.expire, Function.update_apply] at at_
    split at at_
    · cases at_
    · exact shelf.bare l other at_

/-- Entries that have ended go, the oldest first, with their checkpoints. -/
inductive Expires (keep : Option (Fin journalJobs)) (j : Journal I) : Journal I → Prop
  | refl : Expires keep j j
  | step {t : Journal I} {k : Fin journalJobs} {job : JournalJob I} (before : Expires keep j t)
      (oldest : leastBy (fun entry => entry.2.touched) (expirable t keep) = some (k, job)) :
      Expires keep j (t.expire k job)

variable {keep : Option (Fin journalJobs)}

theorem Expires.trans {u : Journal I} (first : Expires keep j t) (second : Expires keep t u) : Expires keep j u := by
  induction second with
  | refl => exact first
  | step _ oldest ih => exact ih.step oldest

omit [DecidableEq I] in
/-- An oldest entry may go, and the others that may go are as old at least. -/
theorem oldest_spec
    (oldest : leastBy (fun entry => entry.2.touched) (expirable t keep) = some (k, job)) :
    (t.jobs k = some job ∧ some k ≠ keep ∧ job.terminal = true ∧ job.legacy = false) ∧
      ∀ l other, t.jobs l = some other → some l ≠ keep → other.terminal = true →
        other.legacy = false → job.touched ≤ other.touched :=
  ⟨mem_expirable.mp (leastBy_mem oldest), fun l other here away ended own =>
    leastBy_le oldest (l, other) (mem_expirable.mpr ⟨here, away, ended, own⟩)⟩

theorem Expires.table (expires : Expires keep j t) (table : j.Table) : t.Table := by
  induction expires with
  | refl => exact table
  | step _ oldest ih => exact ih.expire (oldest_spec oldest).1.1

theorem Expires.shelf (expires : Expires keep j t) (table : j.Table) (shelf : j.Shelf) : t.Shelf := by
  induction expires with
  | refl => exact shelf
  | step before oldest ih => exact ih.expire (before.table table) (oldest_spec oldest).1.1

theorem Expires.recoveryBytes_le (expires : Expires keep j t) (table : j.Table) :
    t.recoveryBytes ≤ j.recoveryBytes := by
  induction expires with
  | refl => exact le_rfl
  | @step t k job before oldest ih =>
    have le := (before.table table).le_recoveryBytes (oldest_spec oldest).1.1
    apply le_trans _ ih
    rw [Journal.expire, sub64_of_le le]
    exact Nat.sub_le ..

theorem Expires.wal (expires : Expires keep j t) : t.wal = j.wal := by
  induction expires with
  | refl => rfl
  | step _ _ ih => exact ih

/-- The entries that stay are as they were. -/
theorem Expires.jobs (expires : Expires keep j t) (k : Fin journalJobs) :
    t.jobs k = j.jobs k ∨ t.jobs k = none ∧ some k ≠ keep := by
  induction expires with
  | refl => exact .inl rfl
  | @step t l job before oldest ih =>
    rcases eq_or_ne k l with rfl | other
    · exact .inr ⟨by simp [Journal.expire], (oldest_spec oldest).1.2.1⟩
    · simpa [Journal.expire, other] using ih

theorem Expires.jobs_keep (expires : Expires (some k) j t) : t.jobs k = j.jobs k :=
  (expires.jobs k).resolve_right fun gone => gone.2 rfl

/-- A checkpoint that goes is one of a job that has ended and did not come from the legacy WAL, and
none of those that stay was older. -/
theorem Expires.removed (expires : Expires keep j t) {id : I} {file : JournalFile I} (had : j.files id = some file) :
    t.files id = some file ∨ t.files id = none ∧ ∃ k job, j.jobs k = some job ∧ job.id = id ∧ some k ≠ keep ∧
        job.terminal = true ∧ job.legacy = false ∧
        ∀ l other, t.jobs l = some other → some l ≠ keep → other.terminal = true →
          other.legacy = false → job.touched ≤ other.touched := by
  induction expires with
  | refl => exact .inl had
  | @step t k job before oldest ih =>
    obtain ⟨⟨here, away, ended, own⟩, least⟩ := oldest_spec oldest
    have stays : ∀ l other, (t.expire k job).jobs l = some other → t.jobs l = some other := by
      intro l other at_
      simp only [Journal.expire, Function.update_apply] at at_
      split at at_
      · cases at_
      · exact at_
    rcases ih with still | ⟨gone, l, other, at_, mine, off, over_, new, older⟩
    · by_cases same : job.bytes = 0 ∨ id ≠ job.id
      · left
        simp only [Journal.expire]
        rcases same with empty | apart
        · rw [if_pos empty, still]
        · split
          · exact still
          · rw [Function.update_of_ne apart, still]
      · obtain ⟨some_bytes, rfl⟩ : job.bytes ≠ 0 ∧ id = job.id := by
          simpa [not_or] using same
        right
        have was : j.jobs k = some job := by
          rcases before.jobs k with kept | ⟨empty, -⟩
          · rw [← kept, here]
          · rw [here] at empty
            cases empty
        refine ⟨by simp [Journal.expire, some_bytes], k, job, was, rfl, away, ended, own, ?_⟩
        intro l other at_
        exact least l other (stays l other at_)
    · right
      refine ⟨?_, l, other, at_, mine, off, over_, new, ?_⟩
      · simp only [Journal.expire]
        split
        · exact gone
        · rw [Function.update_apply]
          split
          · rfl
          · exact gone
      · intro m third there
        exact older m third (stays m third there)

theorem Expires.files_none (expires : Expires keep j t) {id : I} (absent : j.files id = none) : t.files id = none := by
  induction expires with
  | refl => exact absent
  | step _ _ ih =>
    simp only [Journal.expire]
    split
    · exact ih
    · rw [Function.update_apply]
      split
      · rfl
      · exact ih

/-- The job whose entry is kept keeps its checkpoint. -/
theorem Expires.files_keep
    (expires : Expires (some k) j t) (table : j.Table) (here : j.jobs k = some job) : t.files job.id = j.files job.id := by
  cases had : j.files job.id with
  | none => exact expires.files_none had
  | some file =>
    rcases expires.removed had with still | ⟨-, l, other, at_, own, off, -⟩
    · exact still
    · exact absurd (congrArg some (table.distinct l k other job at_ here own)) off

end Journal

end Askai
