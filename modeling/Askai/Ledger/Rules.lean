import Askai.Ledger.Removal

/-!
# The removal rules over runs

For every call of a run, why each record that it lets go of may go, when its time is up, and that
a record whose call has just ended is found.  All of it holds as long as no result alone passes the
bound of the results.
-/

namespace Askai

open Library List

/-- The owner for whom a call adds a record. -/
def Call.adds : Call → Option UInt64
  | .open_ key _ _ _ => some key
  | .restore key _ _ _ _ _ _ _ => some key
  | _ => none

/-- No whole result of more than `LEDGER_BYTES` is kept. -/
def Call.Fits (l : Ledger) : Call → Prop
  | .restore _ _ _ _ _ _ result _ => result ≤ ledgerBytes
  | .end_ t status => (l.task t).written = (l.task t).size → status ≠ .cancelled →
      (l.task t).size ≤ ledgerBytes
  | _ => True

/-- The turn leaves, newly ended, the record at `t` of the owner `key`. -/
def Turn.Ends (turn : Turn) (t : TaskRef) (key : UInt64) (id : HexId) : Prop :=
  match turn.call with
  | .end_ u status => u = t ∧ status ≠ .working ∧ turn.before.hasEnded t = false ∧
      (turn.before.task t).id = id ∧
      ∃ o, (turn.before.task t).owner = some o ∧ (turn.before.owner o).key = key
  | .restore key' _ id' _ _ status _ _ => key' = key ∧ id' = id ∧ status ≠ .working ∧
      (ledgerCall turn.before turn.env turn.call).value = .record (.ok t)
  | _ => False

/-- Why a turn may let go of a record. -/
inductive Cause (turn : Turn) (g : Gone) : Prop
  /-- Its time was up, which stood when the call came. -/
  | due (reading : Nat) (old : g.task ∈ turn.before.ended)
      (passed : (turn.before.task g.task).due ≤ turn.env.clock reading)
  /-- The results passed their bound, and all that ended before it left, but not the newest. -/
  | bytes (many : ledgerBytes < g.before.bytes) (first : g.before.ended.head? = some g.task)
      (newer : g.before.ended.getLast? ≠ some g.task)
      (earlier : ∀ front back, turn.before.ended = front ++ g.task :: back →
        ∀ u ∈ front, ∃ h ∈ turn.outcome.gone, h.task = u)
  /-- A record came to a full ledger. -/
  | room (key : UInt64) (adds : turn.call.adds = some key)
      (full : g.before.tasks.length = ledgerMax) (o : OwnerRef) (oldest : Ledger.Oldest g.before o g.task)
      (most : ∀ p ∈ g.before.owners, Ledger.endedOf g.before p ≤ Ledger.endedOf g.before o)
  /-- Its owner, with many records, opened another. -/
  | mine (key : UInt64) (adds : turn.call.adds = some key) (o : OwnerRef)
      (owner : (g.before.owner o).key = key)
      (many : ledgerMine ≤ (g.before.owner o).records.length)
      (oldest : Ledger.Oldest g.before o g.task)
  /-- It was removed by name. -/
  | named (key : UInt64) (call : turn.call = .remove key (g.before.task g.task).id)
      (o : OwnerRef) (owner : (g.before.task g.task).owner = some o)
      (mine : (g.before.owner o).key = key)

/-- What the rules of removal ask of one turn of a run. -/
structure RemovalRules (past : List Turn) (l : Ledger) (turn : Turn) (m : Ledger) : Prop where
  /-- A record's time is up `LEDGER_KEEP` after the turn that ended or restored it. -/
  due_eq : ∀ t ∈ l.ended, ∃ ender ∈ past, (∃ key id, ender.Ends t key id) ∧
    (l.task t).due = ender.env.clock 0 + ledgerKeep
  listed : ∀ t ∈ l.tasks, t ∉ m.tasks → ∃ g ∈ turn.outcome.gone, g.task = t
  ended : ∀ g ∈ turn.outcome.gone, g.before.hasEnded g.task = true
  cause : ∀ g ∈ turn.outcome.gone, Cause turn g
  /-- A record whose call has just ended is found as long as its time is not up. -/
  found : ∀ t key id, turn.Ends t key id → ∀ env : Env, env.clock 0 < turn.env.clock 0 + ledgerKeep →
    (ledgerFind m env key id).value = some t

namespace Ledger

/-! ## What a turn leaves ended -/

/-- The orders and sizes that a run keeps, beside its accounts. -/
structure Tidy (l : Ledger) : Prop where
  sound : Sound l
  ordered : Ordered l
  fitting : Fitting l

/-- The ended records that a turn leaves: old ones as they were, and those that it ended. -/
def EndedFrom (l : Ledger) (turn : Turn) (m : Ledger) : Prop :=
  ∀ t ∈ m.ended, t ∈ l.ended ∧ (m.task t).due = (l.task t).due ∨
    (∃ key id, turn.Ends t key id) ∧ (m.task t).due = turn.env.clock 0 + ledgerKeep

theorem Older.endedFrom {l m : Ledger} (older : Older l m) (turn : Turn) : EndedFrom l turn m :=
  fun t inside => .inl ⟨older.ended.subset inside, (older.kept t inside).1⟩

theorem Older.trans {l m k : Ledger} (first : Older l m) (second : Older m k) : Older l k := by
  refine ⟨fun o => (second.records o).trans (first.records o),
    fun t => (second.created t).trans (first.created t), second.ended.trans first.ended, fun t inside => ?_⟩
  have before := first.kept t (second.ended.subset inside)
  have after := second.kept t inside
  exact ⟨after.1.trans before.1, after.2.trans before.2⟩

/-- `m` has the records of `l`, each with the same times, the same mark and, if it has ended, the
same size. -/
structure Quiet (l m : Ledger) : Prop where
  tasks : m.tasks = l.tasks
  ended : m.ended = l.ended
  next : m.nextTask = l.nextTask
  records : ∀ o, (m.owner o).records = (l.owner o).records
  task : ∀ t, (m.task t).created = (l.task t).created ∧ (m.task t).due = (l.task t).due ∧
    (m.task t).told = (l.task t).told ∧ (t ∈ l.ended → (m.task t).size = (l.task t).size)

theorem Quiet.of_task {l m : Ledger} (tasks : m.tasks = l.tasks) (ended : m.ended = l.ended)
    (next : m.nextTask = l.nextTask) (task : m.task = l.task)
    (records : ∀ o, (m.owner o).records = (l.owner o).records) : Quiet l m :=
  ⟨tasks, ended, next, records, fun t => by rw [task]; exact ⟨rfl, rfl, rfl, fun _ => rfl⟩⟩

theorem Quiet.refl (l : Ledger) : Quiet l l :=
  .of_task rfl rfl rfl rfl fun _ => rfl

theorem Quiet.trans {l m k : Ledger} (first : Quiet l m) (second : Quiet m k) : Quiet l k := by
  refine ⟨second.tasks.trans first.tasks, second.ended.trans first.ended,
    second.next.trans first.next, fun o => (second.records o).trans (first.records o), fun t => ?_⟩
  obtain ⟨created, due, told, size⟩ := first.task t
  obtain ⟨created', due', told', size'⟩ := second.task t
  exact ⟨created'.trans created, due'.trans due, told'.trans told,
    fun inside => (size' (first.ended ▸ inside)).trans (size inside)⟩

theorem Quiet.older {l m : Ledger} (quiet : Quiet l m) : Older l m := by
  refine ⟨fun o => by rw [quiet.records], fun t => (quiet.task t).1, by rw [quiet.ended], fun t inside => ?_⟩
  exact ⟨(quiet.task t).2.1, (quiet.task t).2.2.2 (quiet.ended ▸ inside)⟩

theorem SameTasks.quiet {l m : Ledger} (same : SameTasks l m) : Quiet l m :=
  .of_task same.tasks same.ended same.next same.task same.records

variable {o : OwnerRef}

theorem Quiet.setOwner {l : Ledger} {value : Owner}
    (records : value.records = (l.owner o).records) : Quiet l (l.setOwner o value) := by
  refine .of_task rfl rfl rfl rfl fun p => ?_
  by_cases here : p = o <;> simp [here, records]

theorem Quiet.gc (l : Ledger) (o : OwnerRef) : Quiet l (ledgerOwnerGc l o) :=
  (SameTasks.gc l o).quiet

/-- The call of a record that runs writes its result. -/
theorem Quiet.setTask {l : Ledger} {t : TaskRef} {value : Task}
    (created : value.created = (l.task t).created) (due : value.due = (l.task t).due)
    (told : value.told = (l.task t).told)
    (size : t ∈ l.ended → value.size = (l.task t).size) : Quiet l (l.setTask t value) := by
  refine ⟨rfl, rfl, rfl, fun _ => rfl, fun u => ?_⟩
  by_cases same : u = t
  · subst same
    simpa [created, due, told] using size
  · simp [same]

/-- A tell only marks records. -/
theorem Older.tellFrom (ids : List HexId) (walk : List TaskRef) (l : Ledger) (out : Look) :
    Older l (ledgerOwnerTellFrom ids walk l out).1 ∧ (ledgerOwnerTellFrom ids walk l out).1.tasks = l.tasks := by
  induction walk generalizing l out with
  | nil => exact ⟨(Less.refl l).older, rfl⟩
  | cons t walk ih =>
    have marked : Older l (l.setTask t { l.task t with told := true }) := by
      refine ⟨fun _ => List.Sublist.refl _, fun u => ?_, List.Sublist.refl _, fun u _ => ?_⟩
      · by_cases same : u = t <;> simp [same]
      · by_cases same : u = t <;> simp [same]
    simp only [ledgerOwnerTellFrom]
    split
    · exact ⟨(Less.refl l).older, rfl⟩
    · split
      · exact ih l out
      · split
        · exact ⟨marked.trans (ih _ _).1, (ih _ _).2⟩
        · exact ⟨marked.trans (ih _ _).1, (ih _ _).2⟩

theorem Sound.not_ended {l : Ledger} (sound : Sound l) {t : TaskRef}
    (working : l.hasEnded t = false) : t ∉ l.ended := fun inside => by
  simp [((sound.accounts.records.ended_iff t).mp inside).2] at working

theorem quiet_timerSet {l : Ledger} (sound : Sound l) (env : Env) (key : UInt64) (due : Nat)
    (note : List UInt8) : Quiet l (ledgerTimerSet l env key due note).ledger ∧
      (ledgerTimerSet l env key due note).gone = [] := by
  obtain ⟨e, eq⟩ | ⟨_, _, m, ⟨e, got, eq⟩ | ⟨o, got, ⟨_, eq⟩ | ⟨slot, _, eq⟩⟩⟩ :=
    timerSet_cases l env key due note
  · rw [eq]
    exact ⟨Quiet.refl l, rfl⟩
  · rw [eq]
    exact ⟨(sound.get_error got).2.quiet, rfl⟩
  · rw [eq]
    exact ⟨(sound.get_ok got).same.quiet.trans (Quiet.setOwner rfl), rfl⟩
  · rw [eq]
    refine ⟨(sound.get_ok got).same.quiet.trans (.of_task rfl rfl rfl rfl fun p => ?_), rfl⟩
    by_cases here : p = o <;> simp [ledgerOwnerWake, timerPut, ledgerOwnerExpire, here]

theorem quiet_timerCancel (l : Ledger) (env : Env) (key : UInt64) (id : Nat) :
    Quiet l (ledgerTimerCancel l env key id).ledger ∧ (ledgerTimerCancel l env key id).gone = [] := by
  unfold ledgerTimerCancel
  split
  · exact ⟨Quiet.refl l, rfl⟩
  · rename_i o _
    obtain ⟨timers, eq⟩ :=
      timerLeft_eq (ledgerOwnerExpire (l.owner o) (env.clock 0)) id (env.clock 0)
    simp only [eq]
    refine ⟨Quiet.trans (Quiet.setOwner ?_) (Quiet.gc _ o), trivial⟩
    simp [ledgerOwnerExpire]

theorem quiet_waitEnter {l : Ledger} (sound : Sound l) (env : Env) (key : UInt64) (loop : Nat) :
    Quiet l (ledgerWaitEnter l env key loop).ledger ∧ (ledgerWaitEnter l env key loop).gone = [] := by
  obtain eq | ⟨m, ⟨e, got, eq⟩ | ⟨o, got, ⟨_, eq⟩ | ⟨_, eq⟩⟩⟩ := waitEnter_cases l env key loop
  · rw [eq]
    exact ⟨Quiet.refl l, rfl⟩
  · rw [eq]
    exact ⟨(sound.get_error got).2.quiet, rfl⟩
  · rw [eq]
    exact ⟨(sound.get_ok got).same.quiet, rfl⟩
  · rw [eq]
    refine ⟨(sound.get_ok got).same.quiet.trans (.of_task rfl rfl rfl rfl fun p => ?_), rfl⟩
    by_cases here : p = o <;> simp [ledgerWaitLink, here]

theorem quiet_waitLeave (l : Ledger) (w : WaitRef) : Quiet l (ledgerWaitLeave l w).1 := by
  have put : ∀ m : Ledger, Quiet m (ledgerWaitPut m w).1 := fun _ =>
    .of_task rfl rfl rfl rfl fun _ => rfl
  refine Quiet.trans ?_ (put _)
  simp only [ledgerWaitUnlink]
  split
  · exact Quiet.refl l
  · rename_i o _
    refine Quiet.trans ?_ (Quiet.gc _ o)
    refine .of_task rfl rfl rfl rfl fun p => ?_
    by_cases here : p = o <;> simp [here]

theorem older_tell (l : Ledger) (env : Env) (w : WaitRef) (ids : List HexId) :
    Older l (ledgerTell l env w ids).ledger ∧ (ledgerTell l env w ids).ledger.tasks = l.tasks ∧
      (ledgerTell l env w ids).gone = [] := by
  simp only [ledgerTell]
  split
  · exact ⟨(Less.refl l).older, rfl, rfl⟩
  · rename_i o _
    have taken : Older l (l.setOwner o (ledgerOwnerTimers (l.owner o) (env.clock 0) true ledgerLookEmpty).1) :=
      (Quiet.setOwner (by simp [ledgerOwnerTimers])).older
    exact ⟨taken.trans (Older.tellFrom ids _ _ _).1, (Older.tellFrom ids _ _ _).2, rfl⟩

/-- What `ledger_list` changes after its sweep, and what it lets go of. -/
theorem quiet_list (l : Ledger) (env : Env) (key : UInt64) :
    Quiet (ledgerSweep l none false (env.clock 1)).1 (ledgerList l env key).ledger ∧
      (ledgerList l env key).gone = (ledgerSweep l none false (env.clock 1)).2 := by
  simp only [ledgerList]
  split
  · exact ⟨Quiet.refl _, rfl⟩
  · rename_i o _
    refine ⟨Quiet.trans (Quiet.setOwner ?_) (Quiet.gc _ o), rfl⟩
    simp [ledgerOwnerTimers, ledgerOwnerExpire]

/-! ## The causes -/

/-- What headed the list for its weight was not alone on it. -/
theorem Headed.newer {keep : Option TaskRef} {now : Nat} {g : Gone} (headed : Headed keep now g)
    (books : Accounts g.before) (fitting : Fitting g.before) (many : ledgerBytes < g.before.bytes) :
    g.before.ended.getLast? ≠ some g.task := by
  intro last
  obtain ⟨rest, list⟩ := List.head?_eq_some_iff.mp headed.first
  have distinct := books.records.ended_nodup
  have weight := books.records.bytes_eq
  cases rest with
  | nil =>
    have fits := fitting g.task (by simp [list])
    simp only [list, map_cons, map_nil, sum_cons, sum_nil] at weight
    omega
  | cons u rest =>
    rw [list, List.getLast?_cons_cons] at last
    rw [list] at distinct
    exact (nodup_cons.mp distinct).1 (mem_of_getLast? last)

theorem Headed.cause {keep : Option TaskRef} {turn : Turn} {reading : Nat} {g : Gone}
    (headed : Headed keep (turn.env.clock reading) g) (books : Accounts g.before)
    (fitting : Fitting g.before) (old : g.task ∈ turn.before.ended)
    (due : (g.before.task g.task).due = (turn.before.task g.task).due)
    (earlier : ∀ front back, turn.before.ended = front ++ g.task :: back →
      ∀ u ∈ front, ∃ h ∈ turn.outcome.gone, h.task = u) : Cause turn g := by
  rcases headed.reason with passed | many
  · exact .due reading old (due ▸ passed)
  · exact .bytes many headed.first (headed.newer books fitting many) earlier

theorem MadeRoom.cause {turn : Turn} {g : Gone} (made : MadeRoom g) (ordered : Ordered g.before)
    {key : UInt64} (adds : turn.call.adds = some key) : Cause turn g := by
  obtain ⟨o, found, most⟩ := made.most
  exact .room key adds made.full o (ordered.oldest found) most

theorem MadeMine.cause {turn : Turn} {g : Gone} {key : UInt64} (made : MadeMine key g)
    (ordered : Ordered g.before) (adds : turn.call.adds = some key) : Cause turn g := by
  obtain ⟨o, owner, many, found⟩ := made.owner
  exact .mine key adds o owner many (ordered.oldest found)

/-- The causes of what the first sweep of a call lets go of. -/
theorem sweep_causes {turn : Turn} (tidy : Tidy turn.before) (keep : Option TaskRef) (room : Bool)
    (reading : Nat) (adds : room = true → ∃ key, turn.call.adds = some key)
    (all : (ledgerSweep turn.before keep room (turn.env.clock reading)).2 ⊆ turn.outcome.gone) :
    ∀ g ∈ (ledgerSweep turn.before keep room (turn.env.clock reading)).2,
      g.before.hasEnded g.task = true ∧ Cause turn g := by
  intro g inside
  obtain ⟨took, ⟨headed, earlier⟩ | ⟨rfl, made⟩⟩ := sweep_gone tidy.sound keep room _ g inside
  · refine ⟨took.ended, headed.cause took.books (took.less.older.fitting tidy.fitting) ?_ ?_ ?_⟩
    · exact took.less.ended.subset ((took.books.records.ended_iff _).mpr ⟨took.member, took.ended⟩)
    · rw [took.less.task]
    · intro front back eq u before
      obtain ⟨h, member, same⟩ := earlier front back eq u before
      exact ⟨h, all member, same⟩
  · obtain ⟨key, adds⟩ := adds rfl
    exact ⟨took.ended, made.cause (took.less.older.ordered tidy.ordered) adds⟩

/-! ## The end of a record's call -/

/-- The ledger `w`, made of `l`, in which the record at `t` has just ended. -/
structure Fresh (l : Ledger) (env : Env) (t : TaskRef) (key : UInt64) (id : HexId) (w : Ledger) :
    Prop where
  tidy : Tidy w
  ended : ∃ old : List TaskRef, w.ended = old ++ [t] ∧ old.Sublist l.ended ∧
    ∀ u ∈ old, (w.task u).due = (l.task u).due
  still : ∀ u ∈ l.ended, u ∈ w.tasks → u ∈ w.ended ∧ u ≠ t
  due_eq : (w.task t).due = env.clock 0 + ledgerKeep
  id_eq : (w.task t).id = id
  owner : ∃ o, (w.task t).owner = some o ∧ (w.owner o).key = key

variable {l w : Ledger} {env : Env} {t : TaskRef} {key : UInt64} {id : HexId}

theorem Fresh.last (fresh : Fresh l env t key id w) (now : Nat) :
    (ledgerSweep w (some t) false now).1.ended.getLast? = some t := by
  obtain ⟨old, list, _⟩ := fresh.ended
  exact sweepEnded_last w.ended fresh.tidy.sound rfl (by simp [list]) (.inl rfl) []

/-- The sweep after the end of a record's call leaves the ledger tidy. -/
theorem Fresh.swept (fresh : Fresh l env t key id w) (now : Nat) : Tidy (ledgerSweep w (some t) false now).1 := by
  have older := (Less.sweep w (some t) false now).older
  exact ⟨fresh.tidy.sound.sweep _ _ _, older.ordered fresh.tidy.ordered, older.fitting fresh.tidy.fitting⟩

theorem Fresh.endedFrom {turn : Turn} (fresh : Fresh l turn.env t key id w) (ends : turn.Ends t key id) (now : Nat) :
    EndedFrom l turn (ledgerSweep w (some t) false now).1 := by
  have less := Less.sweep w (some t) false now
  obtain ⟨old, list, sub, dues⟩ := fresh.ended
  intro u inside
  have before := less.ended.subset inside
  rw [list] at before
  rw [less.task u]
  rcases mem_append.mp before with before | before
  · exact .inl ⟨sub.subset before, dues u before⟩
  · obtain rfl := mem_singleton.mp before
    exact .inr ⟨⟨key, id, ends⟩, fresh.due_eq⟩

theorem Fresh.found (fresh : Fresh l env t key id w) (now : Nat) (later : Env)
    (early : later.clock 0 < env.clock 0 + ledgerKeep) :
    (ledgerFind (ledgerSweep w (some t) false now).1 later key id).value = some t := by
  have less := Less.sweep w (some t) false now
  have tidy := fresh.swept now
  have last := fresh.last now
  have inside := mem_of_getLast? last
  have member := ((tidy.sound.accounts.records.ended_iff t).mp inside).1
  obtain ⟨o, before, after, key_eq⟩ :=
    less.owner_of fresh.tidy.sound.accounts tidy.sound.accounts member
  obtain ⟨p, owner, mine⟩ := fresh.owner
  obtain rfl : p = o := Option.some.inj (owner.symm.trans before)
  have found := find_newest tidy.sound later last after
    (by rw [less.task t]; exact fresh.due_eq ▸ early) (tidy.fitting t inside)
  rw [key_eq, mine, less.task t] at found
  exact fresh.id_eq ▸ found

/-- The causes of what the sweep after the end of a record's call lets go of. -/
theorem Fresh.causes {turn : Turn} (sound : Sound turn.before)
    (fresh : Fresh turn.before turn.env t key id w) (reading : Nat) {early : List Gone}
    (chained : Chained turn.before w [] early) (prior : early ⊆ turn.outcome.gone)
    (all : (ledgerSweep w (some t) false (turn.env.clock reading)).2 ⊆ turn.outcome.gone) :
    ∀ g ∈ (ledgerSweep w (some t) false (turn.env.clock reading)).2,
      g.before.hasEnded g.task = true ∧ Cause turn g := by
  intro g inside
  obtain ⟨took, ⟨headed, earlier⟩ | ⟨off, _⟩⟩ := sweep_gone fresh.tidy.sound _ false _ g inside
  · obtain ⟨old, list, sub, dues⟩ := fresh.ended
    have listed : g.task ∈ w.ended :=
      took.less.ended.subset ((took.books.records.ended_iff _).mpr ⟨took.member, took.ended⟩)
    have isOld : g.task ∈ old := by
      rw [list] at listed
      rcases mem_append.mp listed with before | last
      · exact before
      · exact absurd (congrArg Option.some (mem_singleton.mp last)) headed.kept
    refine ⟨took.ended, headed.cause took.books (took.less.older.fitting fresh.tidy.fitting)
      (sub.subset isOld) (by rw [took.less.task]; exact dues _ isOld) ?_⟩
    intro front back eq u before
    have uEnded : u ∈ turn.before.ended := by simp [eq, before]
    by_cases kept : u ∈ w.tasks
    · -- It was before the record on the list that this sweep walked.
      have uOld : u ∈ old := by
        obtain ⟨also, other⟩ := fresh.still u uEnded kept
        simpa [list, other] using also
      obtain ⟨front', back', split, before'⟩ := exists_split_of_sublist (eq ▸ sub)
        (eq ▸ sound.accounts.records.ended_nodup) before uOld isOld
      obtain ⟨h, member, same⟩ := earlier front' (back' ++ [t]) (by simp [list, split]) u before'
      exact ⟨h, all member, same⟩
    · obtain ⟨h, member, same⟩ :=
        chained.leaves u ((sound.accounts.records.ended_iff u).mp uEnded).1 kept
      exact ⟨h, prior member, same⟩
  · simp at off

theorem Tidy.end_ (tidy : Tidy l) (env : Env) {status : Status}
    (owner : (l.task t).owner = some o) (working : l.hasEnded t = false)
    (ended : status ≠ .working) (fits : (Call.end_ t status).Fits l) :
    Fresh l env t (l.owner o).key (l.task t).id (endWoken l env t o status).1 := by
  have notEnded := tidy.sound.not_ended working
  have task : ∀ u, u ≠ t → (endWoken l env t o status).1.task u = l.task u := by
    intro u other
    simp [endWoken, ledgerOwnerWake, published, other]
  have self : (endWoken l env t o status).1.task t = taskEnded (l.task t) status env.realtime (env.clock 0) := by
    simp [endWoken, ledgerOwnerWake, published]
  have list : (endWoken l env t o status).1.ended = l.ended ++ [t] := rfl
  have ownerOf : ∀ p, ((endWoken l env t o status).1.owner p).records = (l.owner p).records ∧
      ((endWoken l env t o status).1.owner p).key = (l.owner p).key := by
    intro p
    by_cases here : p = o <;> simp [endWoken, ledgerOwnerWake, published, here]
  have created : ∀ u, ((endWoken l env t o status).1.task u).created = (l.task u).created := by
    intro u
    by_cases same : u = t
    · rw [same, self]
      rfl
    · rw [task u same]
  have other : ∀ u ∈ l.ended, u ≠ t := fun u inside same => notEnded (same ▸ inside)
  refine ⟨⟨tidy.sound.endWoken env owner working ended, fun p => ?_, fun u inside => ?_⟩,
    ⟨l.ended, list, List.Sublist.refl _, fun u inside => by rw [task u (other u inside)]⟩, ?_, ?_,
    ?_, o, ?_, (ownerOf o).2⟩
  · rw [(ownerOf p).1]
    simp only [created]
    exact tidy.ordered p
  · rw [list] at inside
    rcases mem_append.mp inside with old | last
    · rw [task u (other u old)]
      exact tidy.fitting u old
    · obtain rfl := mem_singleton.mp last
      rw [self]
      simp only [taskEnded]
      split
      · rename_i kept
        exact fits kept.1 kept.2
      · exact Nat.zero_le _
  · intro u inside _
    exact ⟨list ▸ mem_append_left _ inside, other u inside⟩
  · rw [self]
    rfl
  · rw [self]
    rfl
  · rw [self]
    exact owner

/-! ## New records -/

/-- The restored record in its place, before the last sweep. -/
def restoreWoken (k : Ledger) (task : Task) (o : OwnerRef) : Ledger × List WaitRef :=
  ledgerOwnerWake (ledgerAppendEnded (ledgerLink k task o) k.nextTask) o

theorem restoreEnded_eq (k : Ledger) (env : Env) (task : Task) (o : OwnerRef) (gone : List Gone) :
    ledgerRestoreEnded (ledgerLink k task o) env k.nextTask gone =
      { ledger := (ledgerSweep (restoreWoken k task o).1 (some k.nextTask) false (env.clock 3)).1
        value := .ok k.nextTask
        gone := (ledgerSweep (restoreWoken k task o).1 (some k.nextTask) false (env.clock 3)).2 ++
          gone
        hits := (restoreWoken k task o).2 } := by
  simp [ledgerRestoreEnded, restoreWoken, ledgerAppendEnded, ledgerLink]

/-- The ledger as the first sweep of a restoration leaves it, and what it let go of. -/
def restoreSwept (l : Ledger) (env : Env) : Ledger × List Gone :=
  ledgerSweep l none true (env.clock 1)

/-- A restoration that adds its record: the ledger `k` that takes it for the owner at `o`, after
the room made in `f`. -/
structure Restored (l : Ledger) (env : Env) (key : UInt64) (f k : Ledger) (o : OwnerRef)
    (chain : List Gone) : Prop where
  fetched : Fetched (restoreSwept l env).1 f key o
  ready : Ready (restoreSwept l env).1 k key o
  room : (k, chain) = ledgerMakeRoom f o (restoreSwept l env).2

theorem restore_outcomes {l : Ledger} (sound : Sound l) (env : Env) (key : UInt64) (kind : Kind)
    (id : HexId) (created ended : Nat) (status : Status) (result : Nat) (called : Bool) :
    (∃ e, ledgerRestore l env key kind id created ended status result called =
        { ledger := l, value := .error e, gone := [], hits := [] }) ∨ (∃ m e, SameTasks (restoreSwept l env).1 m ∧
        ledgerRestore l env key kind id created ended status result called =
          { ledger := m, value := .error e, gone := (restoreSwept l env).2, hits := [] }) ∨
      ∃ f k o chain, Restored l env key f k o chain ∧
        Sound (enterEnded (ledgerLink k (restoredTask env kind id created ended status result) o) k.nextTask) ∧
        (status = .working ∧ ledgerRestore l env key kind id created ended status result called =
            { ledger := ledgerLink k (restoredTask env kind id created ended status result) o
              value := .ok k.nextTask, gone := chain, hits := [] } ∨
          status ≠ .working ∧ ledgerRestore l env key kind id created ended status result called = ledgerRestoreEnded
              (ledgerLink k (restoredTask env kind id created ended status result) o) env k.nextTask chain) := by
  obtain ⟨e, eq⟩ | ⟨_, absent, m, e, gone, inserted, cases⟩ :=
    restore_cases l env key kind id created ended status result called
  · exact .inl ⟨e, eq⟩
  have swept : Sound (restoreSwept l env).1 := sound.sweep none true (env.clock 1)
  have fresh : ∀ t ∈ (restoreSwept l env).1.tasks, ((restoreSwept l env).1.task t).id ≠
      (restoredTask env kind id created ended status result).id := restore_fresh env absent
  obtain ⟨error, rfl, eq⟩ | ⟨rfl, working, eq⟩ | ⟨rfl, done, eq⟩ := cases
  · obtain ⟨_, same, rfl⟩ := insert_error swept inserted
    exact .inr (.inl ⟨m, error, same, eq⟩)
  · have entered := swept.insert fresh inserted
    obtain ⟨f, o, fetched, ready, rfl, rfl⟩ := insert_ok swept inserted
    exact .inr (.inr ⟨f, _, o, _, ⟨fetched, ready, rfl⟩, entered, .inl ⟨working, eq⟩⟩)
  · have entered := swept.insert fresh inserted
    obtain ⟨f, o, fetched, ready, rfl, rfl⟩ := insert_ok swept inserted
    exact .inr (.inr ⟨f, _, o, _, ⟨fetched, ready, rfl⟩, entered, .inr ⟨done, eq⟩⟩)

variable {chain : List Gone}

theorem Restored.less {l f k : Ledger} {env : Env} {key : UInt64}
    (restored : Restored l env key f k o chain) : Less l k :=
  (Less.sweep l none true (env.clock 1)).trans restored.ready.less

theorem Restored.chained {l f k : Ledger} {env : Env} {key : UInt64}
    (restored : Restored l env key f k o chain) : Chained l k [] chain := by
  have swept := Chained.sweep l none true (env.clock 1)
  have fetched : Chained (restoreSwept l env).1 f (restoreSwept l env).2 (restoreSwept l env).2 :=
    .of_tasks _ restored.fetched.same.tasks
  have made := Chained.makeRoom f o (restoreSwept l env).2
  rw [← restored.room] at made
  exact swept.trans (fetched.trans made)

theorem Restored.ordered {l f k : Ledger} {env : Env} {key : UInt64}
    (restored : Restored l env key f k o chain) (ordered : Ordered l) (task : Task) : Ordered (ledgerLink k task o) :=
  (restored.less.older.ordered ordered).link restored.ready.books task o

/-- The causes of what a restoration lets go of before it adds its record. -/
theorem Restored.causes {turn : Turn} {f k : Ledger}
    (restored : Restored turn.before turn.env key f k o chain) (tidy : Tidy turn.before)
    (adds : turn.call.adds = some key) (all : chain ⊆ turn.outcome.gone) :
    ∀ g ∈ chain, g.before.hasEnded g.task = true ∧ Cause turn g := by
  have grows := (Chained.makeRoom f o (restoreSwept turn.before turn.env).2).grows
  rw [← restored.room] at grows
  intro g inside
  have made := makeRoom_gone restored.fetched (restoreSwept turn.before turn.env).2 g
  rw [← restored.room] at made
  obtain early | ⟨took, mine⟩ := made inside
  · exact sweep_causes tidy none true 1 (fun _ => ⟨key, adds⟩) (fun h member => all (grows member)) g early
  · have less := (Less.sweep turn.before none true (turn.env.clock 1)).trans took.less
    exact ⟨took.ended, mine.cause (less.older.ordered tidy.ordered) adds⟩

theorem Tidy.restore {f k : Ledger} (tidy : Tidy l)
    (restored : Restored l env key f k o chain) {task : Task} (sound : Sound (restoreWoken k task o).1)
    (due : task.due = env.clock 0 + ledgerKeep) (fits : task.size ≤ ledgerBytes) :
    Fresh l env k.nextTask key task.id (restoreWoken k task o).1 := by
  have less := restored.less
  have books := restored.ready.books
  have list : (restoreWoken k task o).1.ended = k.ended ++ [k.nextTask] := rfl
  have self : (restoreWoken k task o).1.task k.nextTask = { task with owner := some o } := by
    simp [restoreWoken, ledgerOwnerWake, ledgerAppendEnded, ledgerLink]
  have at_old : ∀ u, u ≠ k.nextTask → (restoreWoken k task o).1.task u = k.task u := by
    intro u other
    simp [restoreWoken, ledgerOwnerWake, ledgerAppendEnded, ledgerLink, other]
  have other : ∀ u ∈ k.tasks, u ≠ k.nextTask := fun u inside same =>
    (books.records.old _ (same ▸ inside)).false
  have old_ended : ∀ u ∈ k.ended, u ≠ k.nextTask := fun u inside =>
    other u ((books.records.ended_iff u).mp inside).1
  refine ⟨⟨sound, ?_, fun u inside => ?_⟩, ⟨k.ended, list, less.ended, fun u inside => ?_⟩, ?_, ?_, ?_, o, ?_, ?_⟩
  · exact restored.ordered tidy.ordered task
  · rw [list] at inside
    rcases mem_append.mp inside with old | last
    · rw [at_old u (old_ended u old)]
      exact less.older.fitting tidy.fitting u old
    · obtain rfl := mem_singleton.mp last
      rw [self]
      exact fits
  · rw [at_old u (old_ended u inside), less.task u]
  · intro u uEnded kept
    have old : u < k.nextTask := by
      rw [less.next]
      exact tidy.sound.accounts.records.old u ((tidy.sound.accounts.records.ended_iff u).mp uEnded).1
    have member : u ∈ k.tasks := (mem_cons.mp kept).resolve_left old.ne
    refine ⟨list ▸ mem_append_left _ ((books.records.ended_iff u).mpr ⟨member, ?_⟩), old.ne⟩
    rw [less.hasEnded]
    exact ((tidy.sound.accounts.records.ended_iff u).mp uEnded).2
  · rw [self]
    exact due
  · rw [self]
  · rw [self]
  · rw [show ((restoreWoken k task o).1.owner o).key = (k.owner o).key by
      simp [restoreWoken, ledgerOwnerWake, ledgerAppendEnded, ledgerLink]]
    exact restored.ready.key_eq

/-! ## Each turn -/

/-- What a turn keeps of the rules. -/
structure Obeys (turn : Turn) (m : Ledger) : Prop where
  tidy : Tidy m
  endedFrom : EndedFrom turn.before turn m
  chained : Chained turn.before m [] turn.outcome.gone
  causes : ∀ g ∈ turn.outcome.gone, g.before.hasEnded g.task = true ∧ Cause turn g
  found : ∀ t key id, turn.Ends t key id → ∀ env : Env,
    env.clock 0 < turn.env.clock 0 + ledgerKeep → (ledgerFind m env key id).value = some t

theorem Older.tidy {m : Ledger} (older : Older l m) (tidy : Tidy l) (sound : Sound m) : Tidy m :=
  ⟨sound, older.ordered tidy.ordered, older.fitting tidy.fitting⟩

/-- A record that runs, added: what has ended is as old as before. -/
theorem Restored.obeys_working {turn : Turn} {f k : Ledger}
    (restored : Restored turn.before turn.env key f k o chain) (tidy : Tidy turn.before)
    (adds : turn.call.adds = some key) {task : Task} (sound : Sound (ledgerLink k task o))
    (outcome : turn.outcome.gone = chain) (never : ∀ t key' id', ¬turn.Ends t key' id') :
    Obeys turn (ledgerLink k task o) := by
  have less := restored.less
  have books := restored.ready.books
  have at_old : ∀ u ∈ k.ended, (ledgerLink k task o).task u = k.task u := by
    intro u inside
    have other : u ≠ k.nextTask := fun same =>
      (books.records.old u ((books.records.ended_iff u).mp inside).1).ne same
    simp [ledgerLink, other]
  refine ⟨⟨sound, restored.ordered tidy.ordered task, ?_⟩, ?_, ?_, ?_, ?_⟩
  · intro u inside
    rw [at_old u inside]
    exact less.older.fitting tidy.fitting u inside
  · intro u inside
    rw [at_old u inside]
    exact less.older.endedFrom turn u inside
  · rw [outcome]
    exact restored.chained.trans ⟨fun _ inside => inside, fun u inside left =>
      absurd (mem_cons_of_mem _ inside) left⟩
  · rw [outcome]
    exact restored.causes tidy adds (by rw [outcome]; exact fun _ inside => inside)
  · exact fun t key' id' ending => absurd ending (never t key' id')

/-- A record whose call has ended, added. -/
theorem Restored.obeys_ended {turn : Turn} {f k : Ledger}
    (restored : Restored turn.before turn.env key f k o chain) (tidy : Tidy turn.before)
    (adds : turn.call.adds = some key) {task : Task} (sound : Sound (restoreWoken k task o).1)
    (due : task.due = turn.env.clock 0 + ledgerKeep) (fits : task.size ≤ ledgerBytes)
    (outcome : turn.outcome.gone = (ledgerSweep (restoreWoken k task o).1 (some k.nextTask) false
      (turn.env.clock 3)).2 ++ chain)
    (ends : ∀ t key' id', turn.Ends t key' id' ↔ t = k.nextTask ∧ key' = key ∧ id' = task.id) :
    Obeys turn (ledgerSweep (restoreWoken k task o).1 (some k.nextTask) false (turn.env.clock 3)).1 := by
  have fresh := tidy.restore restored sound due fits
  have early : chain ⊆ turn.outcome.gone := by
    rw [outcome]
    exact fun _ inside => mem_append_right _ inside
  have late : (ledgerSweep (restoreWoken k task o).1 (some k.nextTask) false
      (turn.env.clock 3)).2 ⊆ turn.outcome.gone := by
    rw [outcome]
    exact fun _ inside => mem_append_left _ inside
  have linked : Chained turn.before (restoreWoken k task o).1 [] chain :=
    restored.chained.trans ⟨fun _ inside => inside, fun u inside left =>
      absurd (mem_cons_of_mem _ inside) left⟩
  refine ⟨fresh.swept _, fresh.endedFrom ((ends _ _ _).mpr ⟨rfl, rfl, rfl⟩) _, ⟨by simp, ?_⟩, ?_, ?_⟩
  · intro u inside left
    by_cases still : u ∈ (restoreWoken k task o).1.tasks
    · obtain ⟨g, member, same⟩ := (Chained.sweep _ _ _ _).leaves u still left
      exact ⟨g, late member, same⟩
    · obtain ⟨g, member, same⟩ := linked.leaves u inside still
      exact ⟨g, early member, same⟩
  · intro g inside
    rw [outcome] at inside
    rcases mem_append.mp inside with second | first
    · exact fresh.causes tidy.sound 3 linked early late g second
    · exact restored.causes tidy adds early g first
  · intro t key' id' ending env soon
    obtain ⟨rfl, rfl, rfl⟩ := (ends t key' id').mp ending
    exact fresh.found _ env soon

/-- A restoration obeys, also as the second half of an opening. -/
theorem Tidy.obeys_restore {turn : Turn} (tidy : Tidy turn.before) {kind : Kind}
    {created ended result : Nat} {status : Status} {called : Bool}
    (outcome : turn.outcome = (ledgerRestore turn.before turn.env key kind id created ended status
      result called).map .record) (adds : turn.call.adds = some key) (fits : result ≤ ledgerBytes)
    (ends : ∀ t key' id', turn.Ends t key' id' ↔ key = key' ∧ id = id' ∧ status ≠ .working ∧
      turn.outcome.value = .record (.ok t)) : Obeys turn turn.outcome.ledger := by
  have sound : Sound turn.outcome.ledger := by
    rw [outcome]
    exact tidy.sound.restore _ _ _ _ _ _ _ _ _
  obtain ⟨e, eq⟩ | ⟨m, e, same, eq⟩ | ⟨f, k, o, chain, restored, entered, cases⟩ :=
    restore_outcomes tidy.sound turn.env key kind id created ended status result called
  · rw [eq] at outcome
    rw [outcome] at sound ⊢
    refine ⟨tidy, (Less.refl _).older.endedFrom turn, ?_, ?_, ?_⟩
    · rw [outcome]
      exact Chained.refl _ _
    · simp [outcome, Outcome.map]
    · intro t key' id' ending
      simp [ends, outcome, Outcome.map] at ending
  · rw [eq] at outcome
    have older := (Less.sweep turn.before none true (turn.env.clock 1)).older.trans same.less.older
    rw [outcome] at sound ⊢
    refine ⟨older.tidy tidy sound, older.endedFrom turn, ?_, ?_, ?_⟩
    · rw [outcome]
      exact (Chained.sweep _ _ _ _).trans (.of_tasks _ same.tasks)
    · rw [outcome]
      exact sweep_causes tidy none true 1 (fun _ => ⟨key, adds⟩) (by rw [outcome]; exact fun _ inside => inside)
    · intro t key' id' ending
      simp [ends, outcome, Outcome.map] at ending
  · obtain ⟨working, eq⟩ | ⟨done, eq⟩ := cases
    · rw [eq] at outcome
      rw [outcome] at sound ⊢
      refine restored.obeys_working tidy adds sound (by rw [outcome]; rfl) ?_
      exact fun t key' id' ending => ((ends t key' id').mp ending).2.2.1 working
    · rw [eq, restoreEnded_eq] at outcome
      have status_new : (ledgerLink k (restoredTask turn.env kind id created ended status result)
          o).hasEnded k.nextTask = true := by
        simp [ledgerLink, restoredTask, done]
      rw [enterEnded, if_pos status_new] at entered
      have value : turn.outcome.value = .record (.ok k.nextTask) := by rw [outcome]; rfl
      rw [outcome] at sound ⊢
      refine restored.obeys_ended tidy adds (entered.same_books (SameBooks.wake _ o))
        (by simp [restoredTask, done]) fits (by rw [outcome]; rfl) fun t key' id' => ?_
      rw [ends, value]
      simp only [Reply.record.injEq, Except.ok.injEq, restoredTask]
      constructor
      · rintro ⟨rfl, rfl, _, rfl⟩
        exact ⟨rfl, rfl, rfl⟩
      · rintro ⟨rfl, rfl, rfl⟩
        exact ⟨rfl, rfl, done, rfl⟩

/-- The end of a record's call obeys. -/
theorem Tidy.obeys_end {turn : Turn} (tidy : Tidy turn.before) {status : Status}
    (call : turn.call = .end_ t status) (fits : turn.call.Fits turn.before) : Obeys turn turn.outcome.ledger := by
  have outcome : turn.outcome = (ledgerEnd turn.before turn.env t status).map fun _ => .nothing := by
    simp only [Turn.outcome, call, ledgerCall]
  have ends : ∀ u key id, turn.Ends u key id ↔ t = u ∧ status ≠ .working ∧
      turn.before.hasEnded u = false ∧ (turn.before.task u).id = id ∧
      ∃ o, (turn.before.task u).owner = some o ∧ (turn.before.owner o).key = key := by
    intro u key id
    simp only [Turn.Ends, call]
  obtain ⟨closed, eq⟩ | ⟨o, done, working, owner, eq⟩ := end_cases turn.before turn.env t status
  · rw [eq] at outcome
    rw [outcome]
    refine ⟨tidy, (Less.refl _).older.endedFrom turn, ?_, ?_, ?_⟩
    · rw [outcome]
      exact Chained.refl _ _
    · simp [outcome, Outcome.map]
    · intro u key' id' ending
      obtain ⟨rfl, done, working, _, o, owner, _⟩ := (ends u key' id').mp ending
      simp [done, working, owner] at closed
  · rw [call] at fits
    have fresh := tidy.end_ turn.env owner working done fits
    have linked : Chained turn.before (endWoken turn.before turn.env t o status).1 [] [] :=
      .of_tasks [] rfl
    rw [eq] at outcome
    have all : (ledgerSweep (endWoken turn.before turn.env t o status).1 (some t) false
        (turn.env.clock 1)).2 ⊆ turn.outcome.gone := by
      rw [outcome]
      exact fun _ inside => inside
    have ending : turn.Ends t (turn.before.owner o).key (turn.before.task t).id :=
      (ends _ _ _).mpr ⟨rfl, done, working, rfl, o, owner, rfl⟩
    rw [outcome]
    refine ⟨fresh.swept _, fresh.endedFrom ending _, ?_, ?_, ?_⟩
    · rw [outcome]
      exact linked.trans (Chained.sweep _ _ _ _)
    · rw [outcome]
      exact fresh.causes tidy.sound 1 linked (by simp) all
    · intro u key' id' also env soon
      obtain ⟨rfl, _, _, rfl, p, owner', rfl⟩ := (ends u key' id').mp also
      obtain rfl : p = o := Option.some.inj (owner'.symm.trans owner)
      exact fresh.found _ env soon

/-- What neither adds nor ends a record leaves nothing newer. -/
theorem Tidy.obeys_older {turn : Turn} (tidy : Tidy turn.before) (sound : Sound turn.outcome.ledger)
    (older : Older turn.before turn.outcome.ledger) (never : ∀ t key id, ¬turn.Ends t key id)
    (chained : Chained turn.before turn.outcome.ledger [] turn.outcome.gone)
    (causes : ∀ g ∈ turn.outcome.gone, g.before.hasEnded g.task = true ∧ Cause turn g) :
    Obeys turn turn.outcome.ledger :=
  ⟨older.tidy tidy sound, older.endedFrom turn, chained, causes, fun t key id ending => absurd ending (never t key id)⟩

theorem Tidy.obeys_quiet {turn : Turn} (tidy : Tidy turn.before) (sound : Sound turn.outcome.ledger)
    (quiet : Quiet turn.before turn.outcome.ledger) (never : ∀ t key id, ¬turn.Ends t key id)
    (none : turn.outcome.gone = []) : Obeys turn turn.outcome.ledger := by
  refine tidy.obeys_older sound quiet.older never ?_ (by simp [none])
  rw [none]
  exact .of_tasks [] quiet.tasks

theorem Tidy.obeys_remove {turn : Turn} (tidy : Tidy turn.before)
    (sound : Sound turn.outcome.ledger) (call : turn.call = .remove key id) : Obeys turn turn.outcome.ledger := by
  have outcome : turn.outcome = (ledgerRemove turn.before key id).map .code := by
    simp only [Turn.outcome, call, ledgerCall]
  have never : ∀ t key id, ¬turn.Ends t key id := by simp [Turn.Ends, call]
  obtain ⟨e, eq⟩ | ⟨t, found, ended, eq⟩ := remove_cases turn.before key id
  · rw [eq] at outcome
    refine tidy.obeys_quiet sound ?_ never (by rw [outcome]; rfl)
    rw [outcome]
    exact Quiet.refl _
  · rw [eq] at outcome
    obtain ⟨member, id_eq, o, owner, mine⟩ := mineFind_some found
    refine tidy.obeys_older sound ?_ never ?_ ?_
    · rw [outcome]
      exact (Less.drop _ t []).older
    · rw [outcome]
      exact Chained.drop _ t []
    · intro g inside
      rw [outcome] at inside
      simp only [Outcome.map, (drop_lists owner []).2.2.2.2, mem_singleton] at inside
      subst inside
      exact ⟨ended, .named key (id_eq ▸ call) o owner mine⟩

theorem Tidy.obeys_list {turn : Turn} (tidy : Tidy turn.before)
    (sound : Sound turn.outcome.ledger) (call : turn.call = .list key) : Obeys turn turn.outcome.ledger := by
  have outcome : turn.outcome = (ledgerList turn.before turn.env key).map fun look => .look (some look) := by
    simp only [Turn.outcome, call, ledgerCall]
  obtain ⟨quiet, gone⟩ := quiet_list turn.before turn.env key
  refine tidy.obeys_older sound ?_ (by simp [Turn.Ends, call]) ?_ ?_
  · rw [outcome]
    exact (Less.sweep _ _ _ _).older.trans quiet.older
  · rw [outcome]
    simp only [Outcome.map, gone]
    exact (Chained.sweep _ _ _ _).trans (.of_tasks _ quiet.tasks)
  · intro g inside
    have all : turn.outcome.gone = (ledgerSweep turn.before none false (turn.env.clock 1)).2 := by
      rw [outcome]
      exact gone
    rw [all] at inside
    exact sweep_causes tidy none false 1 (by simp) (by rw [all]; exact fun _ member => member) g inside

/-- Every call of a run keeps the rules. -/
theorem Tidy.obeys {turn : Turn} (tidy : Tidy turn.before) (allowed : turn.call.Allowed turn.before)
    (fits : turn.call.Fits turn.before) : Obeys turn turn.outcome.ledger := by
  have sound : Sound turn.outcome.ledger := tidy.sound.call turn.env allowed
  obtain ⟨before, env, call⟩ := turn
  cases call with
  | open_ key kind random called =>
    cases random with
    | error e => exact tidy.obeys_quiet sound (Quiet.refl _) (fun _ _ _ => False.elim) rfl
    | ok id =>
      refine @Tidy.obeys_restore key id _ tidy kind env.realtime 0 0 .working called rfl rfl
        (Nat.zero_le _) fun t key' id' => ?_
      simp [Turn.Ends]
  | restore key kind id created ended status result called =>
    exact tidy.obeys_restore rfl rfl fits fun t key' id' => Iff.rfl
  | reserve t len =>
    exact tidy.obeys_quiet sound (Quiet.setTask rfl rfl rfl fun inside =>
      absurd inside (tidy.sound.not_ended allowed)) (fun _ _ _ => False.elim) rfl
  | write t len =>
    refine tidy.obeys_quiet sound ?_ (fun _ _ _ => False.elim) rfl
    simp only [Turn.outcome, ledgerCall, Outcome.quiet, ledgerTaskWrite]
    split
    · exact Quiet.refl _
    · exact Quiet.setTask rfl rfl rfl fun _ => rfl
  | end_ t status => exact tidy.obeys_end rfl fits
  | find key id =>
    exact tidy.obeys_older sound (Less.sweep _ _ _ _).older (fun _ _ _ => False.elim) (Chained.sweep _ _ _ _)
      (sweep_causes tidy none false 0 (by simp) fun _ inside => inside)
  | remove key id => exact tidy.obeys_remove sound rfl
  | timerSet key due note =>
    obtain ⟨quiet, none⟩ := quiet_timerSet tidy.sound env key due.toNat note
    exact tidy.obeys_quiet sound quiet (fun _ _ _ => False.elim) none
  | timerCancel key id =>
    obtain ⟨quiet, none⟩ := quiet_timerCancel before env key id
    exact tidy.obeys_quiet sound quiet (fun _ _ _ => False.elim) none
  | waitEnter key loop =>
    obtain ⟨quiet, none⟩ := quiet_waitEnter tidy.sound env key loop
    exact tidy.obeys_quiet sound quiet (fun _ _ _ => False.elim) none
  | waitHeard w =>
    exact tidy.obeys_quiet sound (.of_task rfl rfl rfl rfl fun _ => rfl) (fun _ _ _ => False.elim) rfl
  | waitLeave w =>
    exact tidy.obeys_quiet sound (quiet_waitLeave before w) (fun _ _ _ => False.elim) rfl
  | list key => exact tidy.obeys_list sound rfl
  | tell w ids =>
    obtain ⟨older, tasks, none⟩ := older_tell before env w ids
    have gone : (Turn.mk before env (.tell w ids)).outcome.gone = [] := none
    refine tidy.obeys_older sound older (fun _ _ _ => False.elim) ?_ (by simp [gone])
    rw [gone]
    exact .of_tasks [] tasks

theorem tidy_create : Tidy ledgerCreate := by
  refine ⟨sound_create, fun o => ?_, fun t inside => ?_⟩
  · simp [ledgerCreate, Owner.new]
  · simp [ledgerCreate] at inside

/-- What a run of turns that fit keeps: order, sizes, and when each ended record's time is up. -/
theorem Tidy.run {turns : List Turn} {l : Ledger} (run : Trace LedgerStep ledgerCreate turns l)
    (fits : ∀ turn ∈ turns, turn.call.Fits turn.before) :
    Tidy l ∧ ∀ t ∈ l.ended, ∃ ender ∈ turns, (∃ key id, ender.Ends t key id) ∧
      (l.task t).due = ender.env.clock 0 + ledgerKeep := by
  induction run with
  | nil =>
    refine ⟨tidy_create, fun t inside => ?_⟩
    simp [ledgerCreate] at inside
  | @snoc turns l m turn front last ih =>
    obtain ⟨tidy, dues⟩ := ih fun past inside => fits past (mem_append_left _ inside)
    obtain ⟨rfl, allowed, rfl⟩ := last
    have obeys := tidy.obeys allowed (fits turn (by simp))
    refine ⟨obeys.tidy, fun t inside => ?_⟩
    rcases obeys.endedFrom t inside with ⟨old, same⟩ | ⟨ending, due⟩
    · obtain ⟨ender, member, ends, due⟩ := dues t old
      exact ⟨ender, mem_append_left _ member, ends, same.trans due⟩
    · exact ⟨turn, by simp, ending, due⟩

/-- As long as no result of more than `LEDGER_BYTES` is kept, records leave the ledger by the rules
alone, and the record of a call that has just ended is found. -/
theorem removal_rules {turns : List Turn} {l m : Ledger} {turn : Turn}
    (run : Trace LedgerStep ledgerCreate turns l) (step : LedgerStep l turn m)
    (fits : ∀ past ∈ turns ++ [turn], past.call.Fits past.before) : RemovalRules turns l turn m := by
  obtain ⟨tidy, dues⟩ := Tidy.run run fun past inside => fits past (mem_append_left _ inside)
  obtain ⟨rfl, allowed, rfl⟩ := step
  have obeys := tidy.obeys allowed (fits turn (by simp))
  exact ⟨dues, obeys.chained.leaves, fun g inside => (obeys.causes g inside).1,
    fun g inside => (obeys.causes g inside).2, obeys.found⟩

/-- A turn of a job that is opened, whose call then writes a result of `size` bytes. -/
def writing (size : Nat) : List Turn :=
  let opened := (ledgerOpen ledgerCreate (.steady 1) 7 .job (.ok "a") true).ledger
  let reserved := (ledgerTaskReserve opened 0 size true).1
  [⟨ledgerCreate, .steady 1, .open_ 7 .job (.ok "a") true⟩,
    ⟨opened, .steady 1, .reserve 0 size⟩, ⟨reserved, .steady 1, .write 0 size⟩]

/-- The ledger after that. -/
def written (size : Nat) : Ledger :=
  let opened := (ledgerOpen ledgerCreate (.steady 1) 7 .job (.ok "a") true).ledger
  (ledgerTaskWrite (ledgerTaskReserve opened 0 size true).1 0 size).1

/-- The turn that ends its call. -/
def ending (size : Nat) : Turn := ⟨written size, .steady 1, .end_ 0 .completed⟩

theorem writing_trace (size : Nat) : Trace LedgerStep ledgerCreate (writing size) (written size) :=
  .snoc (.snoc (.snoc .nil ⟨rfl, trivial, rfl⟩) ⟨rfl, rfl, rfl⟩) ⟨rfl, rfl, rfl⟩

/-- A result of a hundred bytes is kept. -/
theorem removal_rules_hundred : RemovalRules (writing 100) (written 100) (ending 100) (ending 100).outcome.ledger ∧
      (ledgerFind (ending 100).outcome.ledger (.steady 1) 7 "a").value = some 0 := by
  have fits : ∀ past ∈ writing 100 ++ [ending 100], past.call.Fits past.before := by
    simp only [writing, ending, cons_append, nil_append, forall_mem_cons,
      not_mem_nil, false_implies, implies_true, and_true]
    exact ⟨trivial, trivial, trivial, fun _ _ => by decide⟩
  have step : LedgerStep (written 100) (ending 100) (ending 100).outcome.ledger :=
    ⟨rfl, trivial, rfl⟩
  exact ⟨removal_rules (writing_trace 100) step fits, by decide⟩

/-- A result of one byte more than `LEDGER_BYTES` is gone at its owner's first look. -/
theorem not_removal_rules : ¬∀ (turns : List Turn) (l m : Ledger) (turn : Turn),
    Trace LedgerStep ledgerCreate turns l → LedgerStep l turn m → RemovalRules turns l turn m := by
  intro rules
  have kept := rules _ _ _ (ending (ledgerBytes + 1)) (writing_trace _) ⟨rfl, trivial, rfl⟩
  have found := kept.found 0 7 "a" ⟨rfl, by decide, rfl, rfl, 0, rfl, rfl⟩ (.steady 1) (by decide)
  have lost : (ledgerFind (ending (ledgerBytes + 1)).outcome.ledger (.steady 1) 7 "a").value =
      none := by decide +kernel
  rw [lost] at found
  exact absurd found (by decide)

end Ledger

end Askai
