import Askai.Ledger.Model

/-!
# The ledger's accounts

What the tables, lists and counters of the ledger say of each other.  The accounts are kept in
three books: the records with the ended list, the table of owners, and the waits.  Each step of an
operation writes in one of them, and leaves the others as they are.
-/

namespace Askai

open Library

namespace Ledger

attribute [simp] setOwner setTask setWait

variable {l : Ledger} {o : OwnerRef} {key : UInt64}

@[simp]
theorem hasEnded_eq_true {t : TaskRef} : l.hasEnded t = true ↔ (l.task t).status ≠ .working := by
  simp [hasEnded]

@[simp]
theorem hasEnded_eq_false {t : TaskRef} : l.hasEnded t = false ↔ (l.task t).status = .working := by
  simp [hasEnded]

/-- The book of the records: the table, the owners' lists, their counts and the ended list. -/
structure Records (l : Ledger) : Prop where
  nodup : l.tasks.Nodup
  length_le : l.tasks.length ≤ ledgerMax
  old : ∀ t ∈ l.tasks, t < l.nextTask
  ids : ∀ t ∈ l.tasks, ∀ u ∈ l.tasks, (l.task t).id = (l.task u).id → t = u
  mem_iff : ∀ t, t ∈ l.tasks ↔ ∃ o, (l.task t).owner = some o
  owner_iff : ∀ t o, (l.task t).owner = some o ↔ t ∈ (l.owner o).records
  records_nodup : ∀ o, (l.owner o).records.Nodup
  n_eq : ∀ o, (l.owner o).n = (l.owner o).records.length
  running_eq : ∀ o, (l.owner o).running = (l.owner o).records.countP fun t => !l.hasEnded t
  working_mem : ∀ t, t < l.nextTask → l.hasEnded t = false → t ∈ l.tasks
  ended_nodup : l.ended.Nodup
  ended_iff : ∀ t, t ∈ l.ended ↔ t ∈ l.tasks ∧ l.hasEnded t
  bytes_eq : l.bytes = (l.ended.map fun t => (l.task t).size).sum

/-- The book of the owners: the table and the count of the anonymous ones. -/
structure Owners (l : Ledger) : Prop where
  nodup : l.owners.Nodup
  length_le : l.owners.length ≤ ledgerOwners
  old : ∀ o ∈ l.owners, o < l.nextOwner
  keys : ∀ o ∈ l.owners, ∀ p ∈ l.owners, (l.owner o).key = (l.owner p).key → o = p
  anonymous_eq : l.nAnonymous = l.owners.countP fun o => keyAnonymous (l.owner o).key
  anonymous_le : l.nAnonymous ≤ ledgerOwners / 2

/-- The book of the waits. -/
structure Waits (l : Ledger) : Prop where
  owner_iff : ∀ w o, (l.wait w).owner = some o ↔ w ∈ (l.owner o).waits
  nodup : ∀ o, (l.owner o).waits.Nodup
  nWaits_eq : ∀ o, (l.owner o).nWaits = (l.owner o).waits.length
  nWaits_le : ∀ o, (l.owner o).nWaits ≤ ledgerWaits
  old : ∀ w o, (l.wait w).owner = some o → w < l.nextWait

/-- The three books, and that who has something is in the table. -/
structure Accounts (l : Ledger) : Prop where
  records : Records l
  owners : Owners l
  waits : Waits l
  listed : ∀ o, ledgerOwnerBusy (l.owner o) → o ∈ l.owners

/-- Every owner in the table but `spared` has a record, a wait or a timer. -/
def NoIdle (spared : Option OwnerRef) (l : Ledger) : Prop :=
  ∀ o ∈ l.owners, some o ≠ spared → ledgerOwnerBusy (l.owner o)

/-- What holds between two calls. -/
structure Sound (l : Ledger) : Prop where
  accounts : Accounts l
  noIdle : NoIdle none l

/-! ## What leaves a book as it is -/

theorem Records.congr {l m : Ledger} (book : Records l) (tasks : m.tasks = l.tasks)
    (ended : m.ended = l.ended) (bytes : m.bytes = l.bytes) (next : m.nextTask = l.nextTask)
    (task : ∀ t, (m.task t).id = (l.task t).id ∧ (m.task t).owner = (l.task t).owner ∧
      (m.task t).status = (l.task t).status ∧ (t ∈ l.ended → (m.task t).size = (l.task t).size))
    (owner : ∀ o, (m.owner o).records = (l.owner o).records ∧ (m.owner o).n = (l.owner o).n ∧
      (m.owner o).running = (l.owner o).running) : Records m := by
  have same : ∀ t, m.hasEnded t = l.hasEnded t := fun t => by simp only [hasEnded, (task t).2.2.1]
  constructor
  · rw [tasks]; exact book.nodup
  · rw [tasks]; exact book.length_le
  · rw [tasks, next]; exact book.old
  · simp only [tasks, (task _).1]; exact book.ids
  · simp only [tasks, (task _).2.1]; exact book.mem_iff
  · simp only [(task _).2.1, (owner _).1]; exact book.owner_iff
  · simp only [(owner _).1]; exact book.records_nodup
  · simp only [(owner _).1, (owner _).2.1]; exact book.n_eq
  · simp only [(owner _).1, (owner _).2.2, same]; exact book.running_eq
  · simp only [tasks, next, same]; exact book.working_mem
  · rw [ended]; exact book.ended_nodup
  · simp only [ended, tasks, same]; exact book.ended_iff
  · rw [bytes, ended, book.bytes_eq]
    congr 1
    exact List.map_congr_left fun t member => ((task t).2.2.2 member).symm

theorem Owners.congr {l m : Ledger} (book : Owners l) (owners : m.owners = l.owners)
    (anonymous : m.nAnonymous = l.nAnonymous) (next : m.nextOwner = l.nextOwner)
    (key : ∀ o, (m.owner o).key = (l.owner o).key) : Owners m := by
  constructor
  · rw [owners]; exact book.nodup
  · rw [owners]; exact book.length_le
  · rw [owners, next]; exact book.old
  · simp only [owners, key]; exact book.keys
  · simp only [anonymous, owners, key]; exact book.anonymous_eq
  · rw [anonymous]; exact book.anonymous_le

theorem Waits.congr {l m : Ledger} (book : Waits l) (next : m.nextWait = l.nextWait)
    (wait : ∀ w, (m.wait w).owner = (l.wait w).owner)
    (owner : ∀ o, (m.owner o).waits = (l.owner o).waits ∧ (m.owner o).nWaits = (l.owner o).nWaits) : Waits m := by
  constructor
  · simp only [wait, (owner _).1]; exact book.owner_iff
  · simp only [(owner _).1]; exact book.nodup
  · simp only [(owner _).1, (owner _).2]; exact book.nWaits_eq
  · simp only [(owner _).2]; exact book.nWaits_le
  · simp only [wait, next]; exact book.old

/-! ## Owners come and go -/

theorem Accounts.setTimers (books : Accounts l) (member : o ∈ l.owners)
    (timers : Vector Timer ledgerTimers) : Accounts (l.setOwner o { l.owner o with timers := timers }) := by
  refine ⟨books.records.congr rfl rfl rfl rfl (by simp) ?_, books.owners.congr rfl rfl rfl ?_,
    books.waits.congr rfl (by simp) ?_, ?_⟩
  · intro p
    by_cases same : p = o <;> simp [same]
  · intro p
    by_cases same : p = o <;> simp [same]
  · intro p
    by_cases same : p = o <;> simp [same]
  · intro p busy
    by_cases same : p = o
    · simpa [same] using member
    · simpa using books.listed p (by simpa [same] using busy)

theorem Accounts.gc (books : Accounts l) (member : o ∈ l.owners) : Accounts (ledgerOwnerGc l o) := by
  unfold ledgerOwnerGc
  split
  · exact books
  · rename_i idle
    have count := countP_erase_add (fun p => keyAnonymous (l.owner p).key) member
    refine ⟨books.records.congr rfl rfl rfl rfl (by simp) (by simp), ?_, books.waits.congr rfl (by simp) (by simp), ?_⟩
    · constructor
      · exact books.owners.nodup.erase o
      · exact (List.length_erase_le).trans books.owners.length_le
      · exact fun p inside => books.owners.old p (List.mem_of_mem_erase inside)
      · exact fun p inside q also => books.owners.keys p (List.mem_of_mem_erase inside) q (List.mem_of_mem_erase also)
      · have total := books.owners.anonymous_eq
        simp only
        omega
      · have bound := books.owners.anonymous_le
        simp only
        omega
    · intro p busy
      have other : p ≠ o := fun same => idle (same ▸ busy)
      exact (List.mem_erase_of_ne other).mpr (books.listed p busy)

theorem NoIdle.gc {spared : Option OwnerRef} (nodup : l.owners.Nodup)
    (active : ∀ p ∈ l.owners, p ≠ o → some p ≠ spared → ledgerOwnerBusy (l.owner p)) :
    NoIdle spared (ledgerOwnerGc l o) := by
  unfold ledgerOwnerGc
  split
  · rename_i busy
    intro p member other
    by_cases same : p = o
    · rw [same]; exact busy
    · exact active p member same other
  · intro p member other
    have inside := (List.Nodup.mem_erase_iff nodup).mp member
    exact active p inside.2 inside.1 other

theorem Sound.expireOne (sound : Sound l) (member : o ∈ l.owners) (timers : Vector Timer ledgerTimers) :
    Sound (ledgerOwnerGc (l.setOwner o { l.owner o with timers := timers }) o) := by
  refine ⟨(sound.accounts.setTimers member timers).gc member, NoIdle.gc sound.accounts.owners.nodup ?_⟩
  intro p inside other _
  simpa [other] using sound.noIdle p inside (by simp)

/-- A collection takes no other owner out of the table, and touches no owner's memory. -/
theorem mem_owners_gc {o p : OwnerRef} (other : p ≠ o) : p ∈ (ledgerOwnerGc l o).owners ↔ p ∈ l.owners := by
  unfold ledgerOwnerGc
  split
  · rfl
  · exact List.mem_erase_of_ne other

theorem Sound.expireAll {now : Nat} (walk : List OwnerRef) (sound : Sound l)
    (distinct : walk.Nodup) (members : ∀ o ∈ walk, o ∈ l.owners) :
    Sound (walk.foldl (ledgerOwnersExpireOne now) l) := by
  induction walk generalizing l with
  | nil => exact sound
  | cons o walk ih =>
    obtain ⟨fresh, distinct⟩ := List.nodup_cons.mp distinct
    refine ih (sound.expireOne (members o List.mem_cons_self) _) distinct fun p inside => ?_
    have other : p ≠ o := fun same => fresh (same ▸ inside)
    exact (mem_owners_gc other).mpr (members p (List.mem_cons_of_mem o inside))

theorem Sound.expire (sound : Sound l) (now : Nat) : Sound (ledgerOwnersExpire l now) :=
  sound.expireAll l.owners sound.accounts.owners.nodup fun _ member => member

theorem ledgerOwnerFind_some (found : ledgerOwnerFind l key = some o) : o ∈ l.owners ∧ (l.owner o).key = key := by
  refine ⟨List.mem_of_find?_eq_some found, ?_⟩
  simpa using List.find?_some found

theorem ledgerOwnerFind_none (absent : ledgerOwnerFind l key = none) : ∀ o ∈ l.owners, (l.owner o).key ≠ key := by
  simpa [ledgerOwnerFind] using absent

/-- `m` holds the records of `l`, under the same addresses. -/
structure SameTasks (l m : Ledger) : Prop where
  tasks : m.tasks = l.tasks
  task : m.task = l.task
  ended : m.ended = l.ended
  bytes : m.bytes = l.bytes
  next : m.nextTask = l.nextTask
  records : ∀ o, (m.owner o).records = (l.owner o).records
  key : ∀ o, (m.owner o).records ≠ [] → (m.owner o).key = (l.owner o).key
  wait : m.wait = l.wait
  nextWait : m.nextWait = l.nextWait

theorem SameTasks.refl (l : Ledger) : SameTasks l l :=
  ⟨rfl, rfl, rfl, rfl, rfl, fun _ => rfl, fun _ _ => rfl, rfl, rfl⟩

theorem SameTasks.trans {l m k : Ledger} (first : SameTasks l m) (second : SameTasks m k) : SameTasks l k :=
  ⟨second.tasks.trans first.tasks, second.task.trans first.task, second.ended.trans first.ended,
    second.bytes.trans first.bytes, second.next.trans first.next, fun o => (second.records o).trans (first.records o),
    fun o some => (second.key o some).trans (first.key o (second.records o ▸ some)),
    second.wait.trans first.wait, second.nextWait.trans first.nextWait⟩

theorem SameTasks.gc (l : Ledger) (o : OwnerRef) : SameTasks l (ledgerOwnerGc l o) := by
  unfold ledgerOwnerGc
  split <;> exact ⟨rfl, rfl, rfl, rfl, rfl, fun _ => rfl, fun _ _ => rfl, rfl, rfl⟩

theorem SameTasks.expireOne (l : Ledger) (now : Nat) (o : OwnerRef) : SameTasks l (ledgerOwnersExpireOne now l o) := by
  have set : SameTasks l (l.setOwner o (ledgerOwnerExpire (l.owner o) now)) := by
    refine ⟨rfl, rfl, rfl, rfl, rfl, fun p => ?_, fun p _ => ?_, rfl, rfl⟩ <;>
      by_cases same : p = o <;> simp [same, ledgerOwnerExpire]
  exact set.trans (SameTasks.gc _ o)

theorem SameTasks.expire (l : Ledger) (now : Nat) : SameTasks l (ledgerOwnersExpire l now) := by
  unfold ledgerOwnersExpire
  generalize l.owners = walk
  induction walk generalizing l with
  | nil => exact SameTasks.refl l
  | cons o walk ih => exact (SameTasks.expireOne l now o).trans (ih _)

/-- Expiry only takes owners out of the table, and changes no key. -/
theorem expire_owners (l : Ledger) (now : Nat) : (∀ o ∈ (ledgerOwnersExpire l now).owners, o ∈ l.owners) ∧
      ∀ o, ((ledgerOwnersExpire l now).owner o).key = (l.owner o).key := by
  suffices all : ∀ walk : List OwnerRef, (∀ o ∈ (walk.foldl (ledgerOwnersExpireOne now) l).owners, o ∈ l.owners) ∧
        ∀ o, ((walk.foldl (ledgerOwnersExpireOne now) l).owner o).key = (l.owner o).key from
    all l.owners
  intro walk
  induction walk generalizing l with
  | nil => simp
  | cons p walk ih =>
    have step : (∀ o ∈ (ledgerOwnersExpireOne now l p).owners, o ∈ l.owners) ∧
        ∀ o, ((ledgerOwnersExpireOne now l p).owner o).key = (l.owner o).key := by
      unfold ledgerOwnersExpireOne ledgerOwnerGc
      split
      · refine ⟨by simp, fun o => ?_⟩
        by_cases same : o = p <;> simp [same, ledgerOwnerExpire]
      · refine ⟨fun o inside => List.mem_of_mem_erase inside, fun o => ?_⟩
        by_cases same : o = p <;> simp [same, ledgerOwnerExpire]
    obtain ⟨fewer, keys⟩ := ih (ledgerOwnersExpireOne now l p)
    exact ⟨fun o inside => step.1 o (fewer o inside), fun o => (keys o).trans (step.2 o)⟩

theorem not_busy_iff {o : Owner} :
    ledgerOwnerBusy o = false ↔ o.n = 0 ∧ o.nWaits = 0 ∧ ledgerTimerAny o.timers = false := by
  simp [ledgerOwnerBusy, and_assoc]

theorem ledgerOwnerBusy_new (key : UInt64) : ledgerOwnerBusy (Owner.new key) = false := by
  simp [ledgerOwnerBusy, Owner.new, ledgerTimerAny, Timer.none]

/-- An address outside the table has nothing. -/
theorem Accounts.unlisted (books : Accounts l) (absent : o ∉ l.owners) :
    (l.owner o).records = [] ∧ (l.owner o).waits = [] := by
  have idle : ledgerOwnerBusy (l.owner o) = false :=
    Bool.eq_false_iff.mpr fun busy => absent (books.listed o busy)
  obtain ⟨n, nWaits, _⟩ := not_busy_iff.mp idle
  rw [books.records.n_eq] at n
  rw [books.waits.nWaits_eq] at nWaits
  exact ⟨List.eq_nil_of_length_eq_zero n, List.eq_nil_of_length_eq_zero nWaits⟩

theorem mem_owners_make : o ∈ (ledgerOwnerMake l key).owners ↔ o = l.nextOwner ∨ o ∈ l.owners := by
  simp only [ledgerOwnerMake]
  rw [(bucketInsert_perm _ _ _).mem_iff, List.mem_cons]

theorem Accounts.make (books : Accounts l)
    (absent : ∀ o ∈ l.owners, (l.owner o).key ≠ key) (room : ledgerOwnerRoom l key = true) :
    Accounts (ledgerOwnerMake l key) := by
  have fresh : l.nextOwner ∉ l.owners := fun inside => (books.owners.old _ inside).false
  have old : ∀ o ∈ l.owners, o ≠ l.nextOwner := fun o inside same => fresh (same ▸ inside)
  obtain ⟨noRecords, noWaits⟩ := books.unlisted fresh
  have idle : ledgerOwnerBusy (l.owner l.nextOwner) = false :=
    Bool.eq_false_iff.mpr fun busy => fresh (books.listed _ busy)
  obtain ⟨n, nWaits, _⟩ := not_busy_iff.mp idle
  have running : (l.owner l.nextOwner).running = 0 := by
    simpa [noRecords] using books.records.running_eq l.nextOwner
  simp only [ledgerOwnerRoom, Bool.and_eq_true, decide_eq_true_eq, Bool.or_eq_true, Bool.not_eq_true'] at room
  have perm := bucketInsert_perm (fun o => ((l.setOwner l.nextOwner (Owner.new key)).owner o).key.toNat % ownerBuckets)
    l.nextOwner l.owners
  refine ⟨books.records.congr rfl rfl rfl rfl (by simp [ledgerOwnerMake]) ?_, ?_,
    books.waits.congr rfl (by simp [ledgerOwnerMake]) ?_, ?_⟩
  · intro o
    by_cases same : o = l.nextOwner
    · simp [ledgerOwnerMake, Owner.new, same, noRecords, n, running]
    · simp [ledgerOwnerMake, same]
  · constructor
    · simp only [ledgerOwnerMake]
      exact perm.nodup_iff.mpr (List.nodup_cons.mpr ⟨fresh, books.owners.nodup⟩)
    · simp only [ledgerOwnerMake, perm.length_eq, List.length_cons]
      exact room.1
    · intro o inside
      rcases mem_owners_make.mp inside with rfl | inside
      · exact Nat.lt_succ_self _
      · exact (books.owners.old o inside).trans (Nat.lt_succ_self _)
    · intro o inside p also
      rcases mem_owners_make.mp inside with rfl | inside <;> rcases mem_owners_make.mp also with rfl | also
      · simp
      · have differs := absent p also
        simp [ledgerOwnerMake, Owner.new, old p also, Ne.symm differs]
      · have differs := absent o inside
        simp [ledgerOwnerMake, Owner.new, old o inside, differs]
      · simpa [ledgerOwnerMake, old o inside, old p also] using books.owners.keys o inside p also
    · have others : l.owners.countP
          (fun o => keyAnonymous (Function.update l.owner l.nextOwner (Owner.new key) o).key) =
            l.owners.countP fun o => keyAnonymous (l.owner o).key :=
        List.countP_congr fun o inside => by simp [old o inside]
      have total := perm.countP_eq fun o => keyAnonymous (Function.update l.owner l.nextOwner (Owner.new key) o).key
      rw [List.countP_cons, others, ← books.owners.anonymous_eq] at total
      refine Eq.trans ?_ total.symm
      simp only [ledgerOwnerMake, Function.update_self, Owner.new]
      cases keyAnonymous key <;> simp
    · have bound := books.owners.anonymous_le
      simp only [ledgerOwnerMake]
      rcases room.2 with named | few
      · simpa [named] using bound
      · cases keyAnonymous key <;> simp <;> omega
  · intro o
    by_cases same : o = l.nextOwner
    · simp [ledgerOwnerMake, Owner.new, same, noWaits, nWaits]
    · simp [ledgerOwnerMake, same]
  · intro o busy
    by_cases same : o = l.nextOwner
    · simp [same, ledgerOwnerMake, ledgerOwnerBusy_new] at busy
    · exact mem_owners_make.mpr (.inr (books.listed o (by simpa [ledgerOwnerMake, same] using busy)))

theorem Accounts.same_make (books : Accounts l) (key : UInt64) : SameTasks l (ledgerOwnerMake l key) := by
  have fresh : l.nextOwner ∉ l.owners := fun inside => (books.owners.old _ inside).false
  refine ⟨rfl, rfl, rfl, rfl, rfl, fun o => ?_, fun o some => ?_, rfl, rfl⟩
  · by_cases same : o = l.nextOwner
    · simp [ledgerOwnerMake, Owner.new, same, (books.unlisted fresh).1]
    · simp [ledgerOwnerMake, same]
  · by_cases same : o = l.nextOwner
    · simp [ledgerOwnerMake, Owner.new, same] at some
    · simp [ledgerOwnerMake, same]

theorem NoIdle.make (active : NoIdle none l) (key : UInt64) : NoIdle (some l.nextOwner) (ledgerOwnerMake l key) := by
  intro o inside other
  have other : o ≠ l.nextOwner := by simpa using other
  have inside : o ∈ l.owners := (mem_owners_make.mp inside).resolve_left other
  simpa [ledgerOwnerMake, other] using active o inside (by simp)

/-- The ledger `m` with the owner at `o` of `key`, looked up in `l` or made. -/
structure Fetched (l m : Ledger) (key : UInt64) (o : OwnerRef) : Prop where
  books : Accounts m
  active : NoIdle (some o) m
  listed : o ∈ m.owners
  key_eq : (m.owner o).key = key
  same : SameTasks l m

theorem NoIdle.spare (active : NoIdle none l) (spared : Option OwnerRef) : NoIdle spared l :=
  fun o inside _ => active o inside (by simp)

theorem Sound.get_ok {l m : Ledger} (sound : Sound l) {now : Nat} {memory : Bool}
    (got : ledgerOwnerGet l key now memory = (m, .ok o)) : Fetched l m key o := by
  unfold ledgerOwnerGet at got
  split at got
  · rename_i p found
    simp only [Prod.mk.injEq, Except.ok.injEq] at got
    obtain ⟨rfl, rfl⟩ := got
    obtain ⟨listed, key_eq⟩ := ledgerOwnerFind_some found
    exact ⟨sound.accounts, sound.noIdle.spare _, listed, key_eq, SameTasks.refl l⟩
  · rename_i absent
    have expired : Sound (if ledgerOwnerRoom l key then l else ledgerOwnersExpire l now) := by
      split
      · exact sound
      · exact sound.expire now
    have same : SameTasks l (if ledgerOwnerRoom l key then l else ledgerOwnersExpire l now) := by
      split
      · exact SameTasks.refl l
      · exact SameTasks.expire l now
    have nobody : ∀ p ∈ (if ledgerOwnerRoom l key then l else ledgerOwnersExpire l now).owners,
        ((if ledgerOwnerRoom l key then l else ledgerOwnersExpire l now).owner p).key ≠ key := by
      have before := ledgerOwnerFind_none absent
      split
      · exact before
      · intro p inside
        rw [(expire_owners l now).2 p]
        exact before p ((expire_owners l now).1 p inside)
    generalize (if ledgerOwnerRoom l key then l else ledgerOwnersExpire l now) = k at *
    simp only at got
    split at got
    · simp at got
    · rename_i room
      split at got
      · simp at got
      · simp only [Prod.mk.injEq, Except.ok.injEq] at got
        obtain ⟨rfl, rfl⟩ := got
        have room : ledgerOwnerRoom k key = true := by simpa using room
        refine ⟨expired.accounts.make nobody room, expired.noIdle.make key,
          mem_owners_make.mpr (.inl rfl), by simp [ledgerOwnerMake, Owner.new], same.trans ?_⟩
        exact expired.accounts.same_make key

theorem Sound.get_error {l m : Ledger} (sound : Sound l) {now : Nat} {memory : Bool}
    {e : Errno} (got : ledgerOwnerGet l key now memory = (m, .error e)) : Sound m ∧ SameTasks l m := by
  have expired : Sound (if ledgerOwnerRoom l key then l else ledgerOwnersExpire l now) ∧
      SameTasks l (if ledgerOwnerRoom l key then l else ledgerOwnersExpire l now) := by
    split
    · exact ⟨sound, SameTasks.refl l⟩
    · exact ⟨sound.expire now, SameTasks.expire l now⟩
  unfold ledgerOwnerGet at got
  split at got
  · simp at got
  · generalize (if ledgerOwnerRoom l key then l else ledgerOwnersExpire l now) = k at *
    simp only at got
    split at got
    · simp only [Prod.mk.injEq] at got
      exact got.1 ▸ expired
    · split at got
      · simp only [Prod.mk.injEq] at got
        exact got.1 ▸ expired
      · simp at got

end Ledger

end Askai
