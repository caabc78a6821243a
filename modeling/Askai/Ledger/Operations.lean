import Askai.Ledger.Accounts

/-!
# The operations keep the accounts

One lemma for each operation of the ledger, from the removal of one record up to the calls.
-/

namespace Askai

open Library List

namespace Ledger

/-! ## Removal -/

variable {l : Ledger} {o : OwnerRef} {t : TaskRef}

/-- The owner of a record in the table, and what the books say of the two. -/
theorem Accounts.owner_of (books : Accounts l) (member : t ∈ l.tasks) :
    ∃ o, (l.task t).owner = some o ∧ t ∈ (l.owner o).records ∧ o ∈ l.owners := by
  obtain ⟨o, owner⟩ := (books.records.mem_iff t).mp member
  have inside := (books.records.owner_iff t o).mp owner
  refine ⟨o, owner, inside, books.listed o ?_⟩
  have some : (l.owner o).n ≠ 0 := by
    rw [books.records.n_eq]
    exact (length_pos_of_mem inside).ne'
  simp [ledgerOwnerBusy, some]

theorem Accounts.unlink (books : Accounts l)
    (owner : (l.task t).owner = some o) (ended : l.hasEnded t = true) : Accounts (ledgerUnlink l t o) := by
  have member : t ∈ l.tasks := (books.records.mem_iff t).mpr ⟨o, owner⟩
  have inside : t ∈ (l.owner o).records := (books.records.owner_iff t o).mp owner
  have inEnded : t ∈ l.ended := (books.records.ended_iff t).mpr ⟨member, ended⟩
  have status : ∀ u, (ledgerUnlink l t o).hasEnded u = l.hasEnded u := by
    intro u
    by_cases same : u = t <;> simp [ledgerUnlink, hasEnded, same]
  have size : ∀ u, ((ledgerUnlink l t o).task u).size = (l.task u).size := by
    intro u
    by_cases same : u = t <;> simp [ledgerUnlink, same]
  have id : ∀ u, ((ledgerUnlink l t o).task u).id = (l.task u).id := by
    intro u
    by_cases same : u = t <;> simp [ledgerUnlink, same]
  have records : ∀ p, ((ledgerUnlink l t o).owner p).records =
      if p = o then (l.owner o).records.erase t else (l.owner p).records := by
    intro p
    by_cases same : p = o <;> simp [ledgerUnlink, same]
  have only : ∀ p, t ∈ (l.owner p).records → p = o := by
    intro p also
    have owner' := (books.records.owner_iff t p).mpr also
    exact Option.some.inj (owner'.symm.trans owner)
  refine ⟨?_, books.owners.congr rfl rfl rfl ?_, books.waits.congr rfl (by simp [ledgerUnlink]) ?_, ?_⟩
  · constructor
    · exact books.records.nodup.erase t
    · exact length_erase_le.trans books.records.length_le
    · exact fun u rest => books.records.old u (mem_of_mem_erase rest)
    · intro u rest v also same
      rw [id, id] at same
      exact books.records.ids u (mem_of_mem_erase rest) v (mem_of_mem_erase also) same
    · intro u
      by_cases same : u = t
      · simp [ledgerUnlink, same, books.records.nodup.mem_erase_iff]
      · simp [ledgerUnlink, same, mem_erase_of_ne same, books.records.mem_iff]
    · intro u p
      rw [records]
      by_cases same : u = t
      · subst same
        split
        · simp [ledgerUnlink, (books.records.records_nodup o).mem_erase_iff]
        · rename_i other
          have absent : u ∉ (l.owner p).records := fun also => other (only p also)
          simp [ledgerUnlink, absent]
      · split
        · rename_i here
          simp [ledgerUnlink, same, here, mem_erase_of_ne same, books.records.owner_iff]
        · simp [ledgerUnlink, same, books.records.owner_iff]
    · intro p
      rw [records]
      split
      · exact (books.records.records_nodup o).erase t
      · exact books.records.records_nodup p
    · intro p
      rw [records]
      split
      · rename_i here
        simp [ledgerUnlink, here, length_erase_of_mem inside, books.records.n_eq]
      · rename_i other
        simp [ledgerUnlink, other, books.records.n_eq]
    · intro p
      simp only [records, status]
      split
      · rename_i here
        have count := countP_erase_add (fun u => !l.hasEnded u) inside
        simp only [ended, Bool.not_true, Bool.toNat_false, Nat.add_zero] at count
        rw [count]
        simp [ledgerUnlink, here, books.records.running_eq]
      · rename_i other
        simp [ledgerUnlink, other, books.records.running_eq]
    · intro u old working
      rw [status] at working
      have other : u ≠ t := fun same => by simp [same, ended] at working
      exact (mem_erase_of_ne other).mpr (books.records.working_mem u old working)
    · exact books.records.ended_nodup.erase t
    · intro u
      rw [status]
      simp only [ledgerUnlink]
      rw [books.records.ended_nodup.mem_erase_iff, books.records.nodup.mem_erase_iff,
        books.records.ended_iff, and_assoc]
    · simp only [size]
      have sum := sum_map_erase (fun u => (l.task u).size) inEnded
      have total := books.records.bytes_eq
      simp only [ledgerUnlink]
      omega
  · intro p
    by_cases same : p = o <;> simp [ledgerUnlink, same]
  · intro p
    by_cases same : p = o <;> simp [ledgerUnlink, same]
  · intro p busy
    by_cases same : p = o
    · subst same
      obtain ⟨q, owner', _, listed⟩ := books.owner_of member
      exact Option.some.inj (owner.symm.trans owner') ▸ listed
    · exact books.listed p (by simpa [ledgerUnlink, same] using busy)

/-- What the removal of an ended record leaves of the accounts. -/
theorem Accounts.drop (books : Accounts l) (member : t ∈ l.tasks)
    (ended : l.hasEnded t = true) (gone : List Gone) : Accounts (ledgerDrop l t gone).1 := by
  obtain ⟨o, owner, _, listed⟩ := books.owner_of member
  simp only [ledgerDrop, owner]
  exact (books.unlink owner ended).gc listed

theorem NoIdle.drop {spared : Option OwnerRef} (active : NoIdle spared l)
    (books : Accounts l) (t : TaskRef) (gone : List Gone) : NoIdle spared (ledgerDrop l t gone).1 := by
  unfold ledgerDrop
  split
  · exact active
  · refine NoIdle.gc (o := _) books.owners.nodup ?_
    intro p inside other apart
    simpa [ledgerUnlink, other] using active p inside apart

theorem Sound.drop (sound : Sound l) (member : t ∈ l.tasks)
    (ended : l.hasEnded t = true) (gone : List Gone) : Sound (ledgerDrop l t gone).1 :=
  ⟨sound.accounts.drop member ended gone, sound.noIdle.drop sound.accounts t gone⟩

/-- A removal takes the one record off the lists, and leaves what a record's end wrote. -/
theorem drop_lists (owner : (l.task t).owner = some o) (gone : List Gone) :
    (ledgerDrop l t gone).1.tasks = l.tasks.erase t ∧ (ledgerDrop l t gone).1.ended = l.ended.erase t ∧
      (ledgerDrop l t gone).1.bytes = l.bytes - (l.task t).size ∧ (ledgerDrop l t gone).1.nextTask = l.nextTask ∧
      (ledgerDrop l t gone).2 = { task := t, before := l } :: gone := by
  simp only [ledgerDrop, owner]
  have same := SameTasks.gc (ledgerUnlink l t o) o
  exact ⟨same.tasks, same.ended, same.bytes, same.next, trivial⟩

/-- `m` is `l` without some of its records: what is left keeps its place and what it says. -/
structure Less (l m : Ledger) : Prop where
  task : ∀ t, m.task t = { l.task t with owner := (m.task t).owner }
  records : ∀ o, (m.owner o).records.Sublist (l.owner o).records
  tasks : m.tasks.Sublist l.tasks
  ended : m.ended.Sublist l.ended
  next : m.nextTask = l.nextTask
  key : ∀ o, (m.owner o).records ≠ [] → (m.owner o).key = (l.owner o).key
  wait : m.wait = l.wait
  nextWait : m.nextWait = l.nextWait

theorem Less.refl (l : Ledger) : Less l l :=
  ⟨fun _ => rfl, fun _ => List.Sublist.refl _, List.Sublist.refl _, List.Sublist.refl _, rfl, fun _ _ => rfl, rfl, rfl⟩

theorem Less.trans {l m k : Ledger} (first : Less l m) (second : Less m k) : Less l k := by
  refine ⟨fun t => ?_, fun o => (second.records o).trans (first.records o),
    second.tasks.trans first.tasks, second.ended.trans first.ended, second.next.trans first.next,
    fun o some => ?_, second.wait.trans first.wait, second.nextWait.trans first.nextWait⟩
  · rw [second.task t, first.task t]
  · have before : (m.owner o).records ≠ [] := by
      intro none
      have fewer := second.records o
      rw [none, sublist_nil] at fewer
      exact some fewer
    exact (second.key o some).trans (first.key o before)

theorem Less.hasEnded {l m : Ledger} (less : Less l m) (t : TaskRef) : m.hasEnded t = l.hasEnded t := by
  rw [Ledger.hasEnded, less.task t, Ledger.hasEnded]

theorem SameTasks.less {l m : Ledger} (same : SameTasks l m) : Less l m := by
  refine ⟨fun t => by rw [same.task], fun o => ?_, ?_, ?_, same.next, same.key, same.wait, same.nextWait⟩
  · rw [same.records]
  · rw [same.tasks]
  · rw [same.ended]

theorem Less.drop (l : Ledger) (t : TaskRef) (gone : List Gone) : Less l (ledgerDrop l t gone).1 := by
  unfold ledgerDrop
  split
  · exact Less.refl l
  · rename_i o _
    refine Less.trans ?_ (SameTasks.gc (ledgerUnlink l t o) o).less
    refine ⟨fun u => ?_, fun p => ?_, erase_sublist, erase_sublist, rfl, fun p _ => ?_, rfl, rfl⟩
    · by_cases same : u = t <;> simp [ledgerUnlink, same]
    · by_cases here : p = o
      · simpa [ledgerUnlink, here] using erase_sublist
      · simp [ledgerUnlink, here]
    · by_cases here : p = o <;> simp [ledgerUnlink, here]

/-! ## The sweep -/

theorem Sound.sweepEnded (keep : Option TaskRef) (now : Nat) (walk : List TaskRef)
    (sound : Sound l) (walked : l.ended = walk) (gone : List Gone) :
    Sound (ledgerSweepEnded keep now walk l gone).1 := by
  induction walk generalizing l gone with
  | nil => exact sound
  | cons t rest ih =>
    simp only [ledgerSweepEnded]
    split
    · exact sound
    · obtain ⟨member, ended⟩ := (sound.accounts.records.ended_iff t).mp (by simp [walked])
      obtain ⟨o, owner, _⟩ := sound.accounts.owner_of member
      refine ih (sound.drop member ended gone) ?_ _
      rw [(drop_lists owner gone).2.1, walked, erase_cons_head]

theorem ledgerOwnerEnded_some (found : ledgerOwnerEnded l o = some t) : t ∈ (l.owner o).records ∧ l.hasEnded t = true :=
  ⟨mem_of_find?_eq_some found, List.find?_some found⟩

theorem Accounts.mem_of_records (books : Accounts l)
    (inside : t ∈ (l.owner o).records) : (l.task t).owner = some o ∧ t ∈ l.tasks := by
  have owner := (books.records.owner_iff t o).mpr inside
  exact ⟨owner, (books.records.mem_iff t).mpr ⟨o, owner⟩⟩

theorem Sound.sweepRoom (sound : Sound l) (gone : List Gone) : Sound (ledgerSweepRoom l gone).1 := by
  unfold ledgerSweepRoom
  split
  · split
    · exact sound
    · split
      · exact sound
      · rename_i t found
        obtain ⟨inside, ended⟩ := ledgerOwnerEnded_some found
        exact sound.drop (sound.accounts.mem_of_records inside).2 ended gone
  · exact sound

theorem Sound.sweep (sound : Sound l) (keep : Option TaskRef) (room : Bool)
    (now : Nat) : Sound (ledgerSweep l keep room now).1 := by
  have swept := sound.sweepEnded keep now l.ended rfl []
  cases room with
  | false => exact swept
  | true => exact swept.sweepRoom _

/-- A relation between ledgers that removals keep. -/
structure Removes (r : Ledger → Ledger → Prop) : Prop where
  refl : ∀ l, r l l
  trans : ∀ {l m k}, r l m → r m k → r l k
  drop : ∀ l t gone, r l (ledgerDrop l t gone).1

namespace Removes

variable {r : Ledger → Ledger → Prop}

theorem sweepEnded (removes : Removes r) (keep : Option TaskRef) (now : Nat) (walk : List TaskRef)
    (l : Ledger) (gone : List Gone) : r l (ledgerSweepEnded keep now walk l gone).1 := by
  induction walk generalizing l gone with
  | nil => exact removes.refl l
  | cons t rest ih =>
    simp only [ledgerSweepEnded]
    split
    · exact removes.refl l
    · exact removes.trans (removes.drop l t gone) (ih _ _)

theorem sweepRoom (removes : Removes r) (l : Ledger) (gone : List Gone) : r l (ledgerSweepRoom l gone).1 := by
  unfold ledgerSweepRoom
  split
  · split
    · exact removes.refl l
    · split
      · exact removes.refl l
      · exact removes.drop l _ gone
  · exact removes.refl l

theorem sweep (removes : Removes r) (l : Ledger) (keep : Option TaskRef) (room : Bool)
    (now : Nat) : r l (ledgerSweep l keep room now).1 := by
  have swept := removes.sweepEnded keep now l.ended l []
  cases room with
  | false => exact swept
  | true => exact removes.trans swept (removes.sweepRoom _ _)

theorem makeRoom (removes : Removes r) (l : Ledger) (o : OwnerRef) (gone : List Gone) :
    r l (ledgerMakeRoom l o gone).1 := by
  unfold ledgerMakeRoom
  split
  · split
    · exact removes.refl l
    · exact removes.drop l _ gone
  · exact removes.refl l

end Removes

theorem Less.removes : Removes Less := ⟨Less.refl, Less.trans, Less.drop⟩

theorem Less.sweep (l : Ledger) (keep : Option TaskRef) (room : Bool) (now : Nat) :
    Less l (ledgerSweep l keep room now).1 :=
  Less.removes.sweep l keep room now

/-! ## New records -/

/-- The ledger `m`, made of `l`, can take a record of the owner at `o`. -/
structure Ready (l m : Ledger) (key : UInt64) (o : OwnerRef) : Prop where
  books : Accounts m
  active : NoIdle (some o) m
  listed : o ∈ m.owners
  key_eq : (m.owner o).key = key
  less : Less l m
  room : m.tasks.length < ledgerMax

theorem Fetched.ready {l m : Ledger} {key : UInt64} (fetched : Fetched l m key o)
    (room : l.tasks.length ≠ ledgerMax) : Ready l m key o := by
  have bound := fetched.books.records.length_le
  refine ⟨fetched.books, fetched.active, fetched.listed, fetched.key_eq, fetched.same.less, ?_⟩
  rw [fetched.same.tasks] at bound ⊢
  omega

theorem mem_owners_drop_of_busy (gone : List Gone)
    (owner : (l.task t).owner = some o) (many : 1 < (l.owner o).n) (listed : o ∈ l.owners) :
    o ∈ (ledgerDrop l t gone).1.owners ∧ ((ledgerDrop l t gone).1.owner o).key = (l.owner o).key := by
  have busy : ledgerOwnerBusy ((ledgerUnlink l t o).owner o) = true := by
    have some : (l.owner o).n - 1 ≠ 0 := by omega
    simp [ledgerUnlink, ledgerOwnerBusy, some]
  simp [ledgerDrop, owner, ledgerOwnerGc, busy]
  exact ⟨by simpa [ledgerUnlink] using listed, by simp [ledgerUnlink]⟩

theorem Ready.makeRoom {l m : Ledger} {key : UInt64} (ready : Ready l m key o)
    (gone : List Gone) : Ready l (ledgerMakeRoom m o gone).1 key o := by
  unfold ledgerMakeRoom
  split
  · rename_i many
    split
    · exact ready
    · rename_i old found
      obtain ⟨inside, ended⟩ := ledgerOwnerEnded_some found
      obtain ⟨owner, member⟩ := ready.books.mem_of_records inside
      obtain ⟨listed, key_eq⟩ := mem_owners_drop_of_busy gone owner
        (show 1 < _ from (by decide : 1 < ledgerMine).trans_le many) ready.listed
      have less := Less.drop m old gone
      exact ⟨ready.books.drop member ended gone, ready.active.drop ready.books old gone, listed,
        key_eq.trans ready.key_eq, ready.less.trans less, less.tasks.length_le.trans_lt ready.room⟩
  · exact ready

/-- The record at `t` on the ended list, if its call has ended. -/
def enterEnded (l : Ledger) (t : TaskRef) : Ledger :=
  if l.hasEnded t then ledgerAppendEnded l t else l

theorem Accounts.link {m : Ledger} (books : Accounts m) {task : Task}
    (listed : o ∈ m.owners) (fresh : ∀ t ∈ m.tasks, (m.task t).id ≠ task.id) (room : m.tasks.length < ledgerMax) :
    Accounts (enterEnded (ledgerLink m task o) m.nextTask) := by
  have new : m.nextTask ∉ m.tasks := fun inside => (books.records.old _ inside).false
  have notMine : ∀ p, m.nextTask ∉ (m.owner p).records :=
    fun p inside => new (books.mem_of_records inside).2
  have noOwner : (m.task m.nextTask).owner = none := by
    cases owner : (m.task m.nextTask).owner with
    | none => rfl
    | some p => exact absurd ((books.records.owner_iff _ p).mp owner) (notMine p)
  have notEnded : m.nextTask ∉ m.ended := fun inside => new ((books.records.ended_iff _).mp inside).1
  have other : ∀ t ∈ m.tasks, t ≠ m.nextTask := fun t inside same => new (same ▸ inside)
  set k := enterEnded (ledgerLink m task o) m.nextTask with entered
  have tasks : k.tasks = m.nextTask :: m.tasks := by
    rw [entered, enterEnded]
    split <;> rfl
  have at_new : k.task m.nextTask = { task with owner := some o } := by
    rw [entered, enterEnded]
    split <;> simp [ledgerAppendEnded, ledgerLink]
  have at_old : ∀ t, t ≠ m.nextTask → k.task t = m.task t := by
    intro t old
    rw [entered, enterEnded]
    split <;> simp [ledgerAppendEnded, ledgerLink, old]
  have at_owner : k.owner o =
      { m.owner o with
        records :=
          insertBack (fun u => task.created < (m.task u).created) m.nextTask (m.owner o).records
        n := (m.owner o).n + 1
        running := (m.owner o).running + (task.status == .working).toNat } := by
    rw [entered, enterEnded]
    split <;> simp [ledgerAppendEnded, ledgerLink]
  have at_others : ∀ p, p ≠ o → k.owner p = m.owner p := by
    intro p apart
    rw [entered, enterEnded]
    split <;> simp [ledgerAppendEnded, ledgerLink, apart]
  have rest : k.owners = m.owners ∧ k.nAnonymous = m.nAnonymous ∧ k.nextOwner = m.nextOwner ∧
      k.wait = m.wait ∧ k.nextWait = m.nextWait ∧ k.nextTask = m.nextTask + 1 := by
    rw [entered, enterEnded]
    split <;> exact ⟨rfl, rfl, rfl, rfl, rfl, rfl⟩
  have status : ∀ t, t ≠ m.nextTask → k.hasEnded t = m.hasEnded t := fun t old => by
    simp only [hasEnded, at_old t old]
  have status_new : k.hasEnded m.nextTask = (task.status != .working) := by
    simp only [hasEnded, at_new]
  have linked_new : (ledgerLink m task o).hasEnded m.nextTask = (task.status != .working) := by
    simp [hasEnded, ledgerLink]
  have ended : k.ended = if task.status != .working then m.ended ++ [m.nextTask] else m.ended := by
    rw [entered, enterEnded, linked_new]
    split <;> rfl
  have bytes : k.bytes = if task.status != .working then m.bytes + task.size else m.bytes := by
    rw [entered, enterEnded, linked_new]
    split <;> simp [ledgerAppendEnded, ledgerLink]
  refine ⟨?_, books.owners.congr rest.1 rest.2.1 rest.2.2.1 ?_, books.waits.congr rest.2.2.2.2.1
    (by simp [rest.2.2.2.1]) ?_, ?_⟩
  · constructor
    · rw [tasks]
      exact nodup_cons.mpr ⟨new, books.records.nodup⟩
    · rw [tasks, length_cons]
      exact Nat.succ_le_of_lt room
    · intro t inside
      rw [tasks] at inside
      rw [rest.2.2.2.2.2]
      rcases mem_cons.mp inside with rfl | inside
      · exact Nat.lt_succ_self _
      · exact (books.records.old t inside).trans (Nat.lt_succ_self _)
    · intro t inside u also same
      rw [tasks] at inside also
      rcases mem_cons.mp inside with rfl | inside <;> rcases mem_cons.mp also with rfl | also
      · rfl
      · rw [at_new, at_old u (other u also)] at same
        exact absurd same.symm (fresh u also)
      · rw [at_new, at_old t (other t inside)] at same
        exact absurd same (fresh t inside)
      · rw [at_old t (other t inside), at_old u (other u also)] at same
        exact books.records.ids t inside u also same
    · intro t
      rw [tasks, mem_cons]
      by_cases same : t = m.nextTask
      · simp [same, at_new]
      · rw [at_old t same, books.records.mem_iff]
        simp [same]
    · intro t p
      by_cases same : t = m.nextTask
      · subst same
        by_cases here : p = o
        · simp [at_new, here, at_owner]
        · simp [at_new, at_others p here, notMine p, Ne.symm here]
      · rw [at_old t same, books.records.owner_iff]
        by_cases here : p = o
        · simp [here, at_owner, same]
        · rw [at_others p here]
    · intro p
      by_cases here : p = o
      · rw [here, at_owner]
        exact nodup_insertBack.mpr ⟨notMine o, books.records.records_nodup o⟩
      · rw [at_others p here]
        exact books.records.records_nodup p
    · intro p
      by_cases here : p = o
      · simp [here, at_owner, books.records.n_eq]
      · rw [at_others p here]
        exact books.records.n_eq p
    · intro p
      by_cases here : p = o
      · have old : (m.owner o).records.countP (fun t => !k.hasEnded t) =
            (m.owner o).records.countP fun t => !m.hasEnded t := by
          refine countP_congr fun t inside => ?_
          rw [status t (other t (books.mem_of_records inside).2)]
        rw [here, at_owner, (insertBack_perm _ _ _).countP_eq, countP_cons, old, status_new]
        simp only [books.records.running_eq]
        cases task.status <;> simp
      · rw [at_others p here, books.records.running_eq]
        refine countP_congr fun t inside => ?_
        rw [status t (other t (books.mem_of_records inside).2)]
    · intro t old working
      rw [tasks]
      by_cases same : t = m.nextTask
      · simp [same]
      · rw [rest.2.2.2.2.2] at old
        rw [status t same] at working
        have older : t < m.nextTask := lt_of_le_of_ne (Nat.le_of_lt_succ old) same
        exact mem_cons_of_mem _ (books.records.working_mem t older working)
    · rw [ended]
      split
      · refine nodup_append.mpr ⟨books.records.ended_nodup, nodup_singleton _, ?_⟩
        rintro t inside u also rfl
        exact notEnded (mem_singleton.mp also ▸ inside)
      · exact books.records.ended_nodup
    · intro t
      rw [tasks, ended, mem_cons]
      by_cases same : t = m.nextTask
      · subst same
        rw [status_new]
        split <;> rename_i done <;> simp [done, notEnded]
      · rw [status t same]
        split <;> simp [same, books.records.ended_iff]
    · have old : (m.ended.map fun t => (k.task t).size).sum = (m.ended.map fun t => (m.task t).size).sum := by
        congr 1
        refine map_congr_left fun t inside => ?_
        rw [at_old t (fun same => notEnded (same ▸ inside))]
      rw [ended, bytes]
      split
      · simp [old, at_new, books.records.bytes_eq]
      · rw [old, books.records.bytes_eq]
  · intro p
    by_cases here : p = o
    · rw [here, at_owner]
    · rw [at_others p here]
  · intro p
    by_cases here : p = o
    · rw [here, at_owner]; exact ⟨rfl, rfl⟩
    · rw [at_others p here]; exact ⟨rfl, rfl⟩
  · intro p busy
    rw [rest.1]
    by_cases here : p = o
    · rw [here]; exact listed
    · rw [at_others p here] at busy
      exact books.listed p busy

theorem NoIdle.link {m : Ledger} (active : NoIdle (some o) m) (task : Task)
    (t : TaskRef) : NoIdle none (enterEnded (ledgerLink m task o) t) := by
  have busy : NoIdle none (ledgerLink m task o) := by
    intro p inside _
    by_cases here : p = o
    · simp [ledgerLink, here, ledgerOwnerBusy]
    · simpa [ledgerLink, here] using active p inside (by simpa using here)
  unfold enterEnded
  split
  · exact busy
  · exact busy

/-- A successful insertion: the owner's ledger, the room made in it, and the record linked. -/
theorem insert_ok {l m : Ledger} (sound : Sound l) {task : Task} {key : UInt64} {now : Nat}
    {memory : Bool} {gone all : List Gone} (inserted : ledgerInsert l task key now memory gone = (m, none, all)) :
    ∃ f o, Fetched l f key o ∧ Ready l (ledgerMakeRoom f o gone).1 key o ∧
      m = ledgerLink (ledgerMakeRoom f o gone).1 task o ∧ all = (ledgerMakeRoom f o gone).2 := by
  unfold ledgerInsert at inserted
  split at inserted
  · simp at inserted
  · rename_i room
    split at inserted
    · simp at inserted
    · rename_i k o got
      split at inserted
      · simp at inserted
      · have fetched := sound.get_ok got
        simp only [Prod.mk.injEq] at inserted
        exact ⟨k, o, fetched, (fetched.ready room).makeRoom gone, inserted.1.symm, inserted.2.2.symm⟩

theorem insert_error {l m : Ledger} (sound : Sound l) {task : Task} {key : UInt64} {now : Nat}
    {memory : Bool} {e : Errno} {gone all : List Gone}
    (inserted : ledgerInsert l task key now memory gone = (m, some e, all)) : Sound m ∧ SameTasks l m ∧ all = gone := by
  unfold ledgerInsert at inserted
  split at inserted
  · simp only [Prod.mk.injEq] at inserted
    obtain ⟨rfl, _, rfl⟩ := inserted
    exact ⟨sound, SameTasks.refl _, rfl⟩
  · split at inserted
    · rename_i got
      simp only [Prod.mk.injEq] at inserted
      obtain ⟨rfl, _, rfl⟩ := inserted
      obtain ⟨kept, same⟩ := sound.get_error got
      exact ⟨kept, same, rfl⟩
    · rename_i k o got
      have fetched := sound.get_ok got
      split at inserted
      · rename_i refused
        simp only [Prod.mk.injEq] at inserted
        obtain ⟨rfl, _, rfl⟩ := inserted
        refine ⟨⟨fetched.books, ?_⟩, fetched.same, rfl⟩
        -- A job is refused only to an owner whose records run, so the owner is no new one.
        intro p inside _
        by_cases here : p = o
        · have many : ledgerRunning ≤ (k.owner o).running := by simp_all
          have bound := countP_le_length (p := fun t => !k.hasEnded t)
            (l := (k.owner o).records)
          rw [fetched.books.records.running_eq] at many
          have some : (k.owner o).n ≠ 0 := by
            have positive : 0 < ledgerRunning := by decide
            rw [fetched.books.records.n_eq]
            omega
          simp [here, ledgerOwnerBusy, some]
        · exact fetched.active p inside (by simpa using here)
      · simp at inserted

/-! ## Steps outside the books -/

/-- `m` differs from `l` only in what no book holds. -/
structure SameBooks (l m : Ledger) : Prop where
  tasks : m.tasks = l.tasks
  ended : m.ended = l.ended
  bytes : m.bytes = l.bytes
  owners : m.owners = l.owners
  nAnonymous : m.nAnonymous = l.nAnonymous
  owner : m.owner = l.owner
  nextTask : m.nextTask = l.nextTask
  nextOwner : m.nextOwner = l.nextOwner
  nextWait : m.nextWait = l.nextWait
  task : ∀ t, (m.task t).id = (l.task t).id ∧ (m.task t).owner = (l.task t).owner ∧
    (m.task t).status = (l.task t).status ∧ (m.task t).size = (l.task t).size
  wait : ∀ w, (m.wait w).owner = (l.wait w).owner

theorem Accounts.same_books {l m : Ledger} (books : Accounts l) (same : SameBooks l m) : Accounts m := by
  refine ⟨books.records.congr same.tasks same.ended same.bytes same.nextTask ?_ ?_,
    books.owners.congr same.owners same.nAnonymous same.nextOwner ?_, books.waits.congr same.nextWait same.wait ?_, ?_⟩
  · exact fun t => ⟨(same.task t).1, (same.task t).2.1, (same.task t).2.2.1, fun _ => (same.task t).2.2.2⟩
  · simp [same.owner]
  · simp [same.owner]
  · simp [same.owner]
  · simpa [same.owner, same.owners] using books.listed

theorem Sound.same_books {l m : Ledger} (sound : Sound l) (same : SameBooks l m) : Sound m := by
  refine ⟨sound.accounts.same_books same, fun o inside spared => ?_⟩
  rw [same.owner]
  exact sound.noIdle o (same.owners ▸ inside) spared

/-- Waking waits leaves whose they are. -/
theorem wake_owner (walk : List WaitRef) (wait : WaitRef → Wait) (hits : List WaitRef) (w : WaitRef) :
    ((walk.foldl ledgerOwnerWakeOne (wait, hits)).1 w).owner = (wait w).owner := by
  induction walk generalizing wait hits with
  | nil => rfl
  | cons v walk ih =>
    simp only [foldl_cons, ledgerOwnerWakeOne]
    split
    · exact ih wait hits
    · rw [ih]
      by_cases same : w = v <;> simp [same]

theorem SameBooks.wake (l : Ledger) (o : OwnerRef) : SameBooks l (ledgerOwnerWake l o).1 := by
  refine ⟨rfl, rfl, rfl, rfl, rfl, rfl, rfl, rfl, rfl, by simp [ledgerOwnerWake], ?_⟩
  exact wake_owner (l.owner o).waits l.wait []

theorem SameBooks.setWait {w : WaitRef} {value : Wait}
    (owner : value.owner = (l.wait w).owner) : SameBooks l (l.setWait w value) := by
  refine ⟨rfl, rfl, rfl, rfl, rfl, rfl, rfl, rfl, rfl, by simp, fun v => ?_⟩
  by_cases same : v = w <;> simp [same, owner]

theorem SameBooks.tell {ids : List HexId} (walk : List TaskRef) (l : Ledger) (out : Look) :
    SameBooks l (ledgerOwnerTellFrom ids walk l out).1 := by
  induction walk generalizing l out with
  | nil => exact ⟨rfl, rfl, rfl, rfl, rfl, rfl, rfl, rfl, rfl, by simp [ledgerOwnerTellFrom],
      by simp [ledgerOwnerTellFrom]⟩
  | cons t walk ih =>
    have refl : SameBooks l l := ⟨rfl, rfl, rfl, rfl, rfl, rfl, rfl, rfl, rfl, by simp, by simp⟩
    have marked : ∀ out, SameBooks l (ledgerOwnerTellFrom ids walk
        (l.setTask t { l.task t with told := true }) out).1 := by
      intro out
      obtain ⟨a, b, c, d, e, f, g, h, i, task, wait⟩ :=
        ih (l.setTask t { l.task t with told := true }) out
      refine ⟨a, b, c, d, e, f, g, h, i, fun u => ?_, wait⟩
      by_cases same : u = t <;> simpa [same] using task u
    simp only [ledgerOwnerTellFrom]
    split
    · exact refl
    · split
      · exact ih l out
      · split
        · exact marked _
        · exact marked _

/-! ## The end of a record's call -/

theorem Sound.publish (sound : Sound l)
    (owner : (l.task t).owner = some o) (working : l.hasEnded t = false) {value : Task}
    (id : value.id = (l.task t).id) (still : value.owner = some o) (ended : value.status ≠ .working) :
    Sound { (l.setTask t value).setOwner o { l.owner o with running := (l.owner o).running - 1 } with
      ended := l.ended ++ [t], bytes := l.bytes + value.size } := by
  have books := sound.accounts
  have member : t ∈ l.tasks := (books.records.mem_iff t).mpr ⟨o, owner⟩
  have inside : t ∈ (l.owner o).records := (books.records.owner_iff t o).mp owner
  have notEnded : t ∉ l.ended := fun also => by
    simp [((books.records.ended_iff t).mp also).2] at working
  set m : Ledger := { (l.setTask t value).setOwner o
      { l.owner o with running := (l.owner o).running - 1 } with
    ended := l.ended ++ [t], bytes := l.bytes + value.size } with made
  have task : ∀ u, (m.task u).id = (l.task u).id ∧ (m.task u).owner = (l.task u).owner := by
    intro u
    by_cases same : u = t
    · simp [made, same, id, still, owner]
    · simp [made, same]
  have status : ∀ u, u ≠ t → m.hasEnded u = l.hasEnded u := by
    intro u other
    simp [made, hasEnded, other]
  have status_t : m.hasEnded t = true := by simp [made, ended]
  have same_owner : ∀ p, (m.owner p).key = (l.owner p).key ∧
      (m.owner p).records = (l.owner p).records ∧ (m.owner p).n = (l.owner p).n ∧
      (m.owner p).waits = (l.owner p).waits ∧ (m.owner p).nWaits = (l.owner p).nWaits ∧
      (m.owner p).timers = (l.owner p).timers := by
    intro p
    by_cases same : p = o <;> simp [made, same]
  have busy : ∀ p, ledgerOwnerBusy (m.owner p) = ledgerOwnerBusy (l.owner p) := by
    intro p
    obtain ⟨_, _, n, _, nWaits, timers⟩ := same_owner p
    simp only [ledgerOwnerBusy, n, nWaits, timers]
  refine ⟨⟨?_, books.owners.congr rfl rfl rfl fun p => (same_owner p).1, books.waits.congr rfl (by simp [made]) fun p =>
      ⟨(same_owner p).2.2.2.1, (same_owner p).2.2.2.2.1⟩, ?_⟩, ?_⟩
  · constructor
    · exact books.records.nodup
    · exact books.records.length_le
    · exact books.records.old
    · simp only [(task _).1]
      exact books.records.ids
    · simp only [(task _).2]
      exact books.records.mem_iff
    · simp only [(task _).2, (same_owner _).2.1]
      exact books.records.owner_iff
    · simp only [(same_owner _).2.1]
      exact books.records.records_nodup
    · simp only [(same_owner _).2.1, (same_owner _).2.2.1]
      exact books.records.n_eq
    · intro p
      rw [(same_owner p).2.1]
      by_cases here : p = o
      · subst here
        have count := countP_update (p := fun u => !l.hasEnded u) (q := fun u => !m.hasEnded u)
          (books.records.records_nodup p) inside fun u _ other => by rw [status u other]
        simp only [working, status_t, Bool.not_true, Bool.not_false, Bool.toNat_false,
          Bool.toNat_true, Nat.add_zero] at count
        have total := books.records.running_eq p
        rw [show (m.owner p).running = (l.owner p).running - 1 by simp [made]]
        omega
      · rw [show (m.owner p).running = (l.owner p).running by simp [made, here], books.records.running_eq]
        refine countP_congr fun u also => ?_
        have other : u ≠ t := by
          rintro rfl
          exact here (Option.some.inj (((books.records.owner_iff u p).mpr also).symm.trans owner))
        rw [status u other]
    · intro u old still
      have other : u ≠ t := fun same => by simp [same, status_t] at still
      rw [status u other] at still
      exact books.records.working_mem u old still
    · refine nodup_append.mpr ⟨books.records.ended_nodup, nodup_singleton t, ?_⟩
      rintro u also v last rfl
      exact notEnded (mem_singleton.mp last ▸ also)
    · intro u
      by_cases same : u = t
      · simp [same, made, member, ended]
      · rw [status u same]
        simp [made, same, books.records.ended_iff]
    · have old : (l.ended.map fun u => (m.task u).size).sum = (l.ended.map fun u => (l.task u).size).sum := by
        congr 1
        refine map_congr_left fun u also => ?_
        have other : u ≠ t := fun same => notEnded (same ▸ also)
        simp [made, other]
      have last : (m.task t).size = value.size := by simp [made]
      rw [show m.ended = l.ended ++ [t] from rfl, show m.bytes = l.bytes + value.size from rfl]
      simp [old, last, books.records.bytes_eq]
  · exact fun p active => books.listed p (busy p ▸ active)
  · exact fun p listed spared => (busy p).symm ▸ sound.noIdle p listed spared

end Ledger

end Askai
