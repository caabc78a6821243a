import Askai.Ledger.Runs

/-!
# Why a record leaves the ledger

Each record that a call lets go of is on the chain that the call returns, with the ledger at that
moment.  From these the reasons are read off: its time was up, the results passed their bound, a
new record needed room, or it was removed by name.
-/

namespace Askai

open Library List

namespace Ledger

/-! ## The chain of the records let go of -/

/-- The chain grows from `old` to `new`, and has every record that leaves the table. -/
structure Chained (l m : Ledger) (old new : List Gone) : Prop where
  grows : old ⊆ new
  leaves : ∀ t ∈ l.tasks, t ∉ m.tasks → ∃ g ∈ new, g.task = t

theorem Chained.refl (l : Ledger) (gone : List Gone) : Chained l l gone gone :=
  ⟨fun _ inside => inside, fun _ inside left => absurd inside left⟩

theorem Chained.trans {l m k : Ledger} {old middle new : List Gone}
    (first : Chained l m old middle) (second : Chained m k middle new) : Chained l k old new := by
  refine ⟨fun g inside => second.grows (first.grows inside), fun t inside left => ?_⟩
  by_cases still : t ∈ m.tasks
  · exact second.leaves t still left
  · obtain ⟨g, member, same⟩ := first.leaves t inside still
    exact ⟨g, second.grows member, same⟩

theorem Chained.of_tasks {l m : Ledger} (gone : List Gone) (tasks : m.tasks = l.tasks) : Chained l m gone gone :=
  ⟨fun _ inside => inside, fun _ inside left => absurd (tasks ▸ inside) left⟩

theorem Chained.drop (l : Ledger) (t : TaskRef) (gone : List Gone) :
    Chained l (ledgerDrop l t gone).1 gone (ledgerDrop l t gone).2 := by
  cases owner : (l.task t).owner with
  | none =>
    simp only [ledgerDrop, owner]
    exact Chained.refl l gone
  | some o =>
    obtain ⟨tasks, _, _, _, chain⟩ := drop_lists owner gone
    rw [chain]
    refine ⟨fun g inside => mem_cons_of_mem _ inside, fun u inside left => ?_⟩
    rw [tasks] at left
    have same : u = t := by
      by_contra other
      exact left ((mem_erase_of_ne other).mpr inside)
    exact ⟨_, mem_cons_self, same.symm⟩

theorem Chained.sweepEnded (keep : Option TaskRef) (now : Nat) (walk : List TaskRef) (l : Ledger) (gone : List Gone) :
    Chained l (ledgerSweepEnded keep now walk l gone).1 gone (ledgerSweepEnded keep now walk l gone).2 := by
  induction walk generalizing l gone with
  | nil => exact Chained.refl l gone
  | cons t rest ih =>
    simp only [ledgerSweepEnded]
    split
    · exact Chained.refl l gone
    · exact (Chained.drop l t gone).trans (ih _ _)

theorem Chained.sweepRoom (l : Ledger) (gone : List Gone) :
    Chained l (ledgerSweepRoom l gone).1 gone (ledgerSweepRoom l gone).2 := by
  unfold ledgerSweepRoom
  split
  · split
    · exact Chained.refl l gone
    · split
      · exact Chained.refl l gone
      · exact Chained.drop l _ gone
  · exact Chained.refl l gone

theorem Chained.sweep (l : Ledger) (keep : Option TaskRef) (room : Bool) (now : Nat) :
    Chained l (ledgerSweep l keep room now).1 [] (ledgerSweep l keep room now).2 := by
  have swept := Chained.sweepEnded keep now l.ended l []
  cases room with
  | false => exact swept
  | true => exact swept.trans (Chained.sweepRoom _ _)

theorem Chained.makeRoom (l : Ledger) (o : OwnerRef) (gone : List Gone) :
    Chained l (ledgerMakeRoom l o gone).1 gone (ledgerMakeRoom l o gone).2 := by
  unfold ledgerMakeRoom
  split
  · split
    · exact Chained.refl l gone
    · exact Chained.drop l _ gone
  · exact Chained.refl l gone

/-! ## What else a run keeps of the records -/

/-- An owner's records stand in the order in which they were created. -/
def Ordered (l : Ledger) : Prop :=
  ∀ o, (l.owner o).records.Pairwise fun t u => (l.task t).created ≤ (l.task u).created

/-- No ended record alone passes the bound of the results. -/
def Fitting (l : Ledger) : Prop :=
  ∀ t ∈ l.ended, (l.task t).size ≤ ledgerBytes

/-- `m` has no record and no ended record that `l` has not. -/
structure Older (l m : Ledger) : Prop where
  records : ∀ o, (m.owner o).records.Sublist (l.owner o).records
  created : ∀ t, (m.task t).created = (l.task t).created
  ended : m.ended.Sublist l.ended
  kept : ∀ t ∈ m.ended, (m.task t).due = (l.task t).due ∧ (m.task t).size = (l.task t).size

theorem Less.older {l m : Ledger} (less : Less l m) : Older l m :=
  ⟨less.records, fun t => by rw [less.task t], less.ended, fun t _ => by rw [less.task t]; simp⟩

theorem Older.ordered {l m : Ledger} (older : Older l m) (ordered : Ordered l) : Ordered m := by
  intro o
  simp only [older.created]
  exact (ordered o).sublist (older.records o)

theorem Older.fitting {l m : Ledger} (older : Older l m) (fitting : Fitting l) : Fitting m := by
  intro t inside
  rw [(older.kept t inside).2]
  exact fitting t (older.ended.subset inside)

variable {l : Ledger} {t : TaskRef}

theorem Ordered.link (ordered : Ordered l) (books : Accounts l) (task : Task)
    (o : OwnerRef) : Ordered (ledgerLink l task o) := by
  have new : ∀ p, ∀ t ∈ (l.owner p).records, t ≠ l.nextTask := by
    rintro p t inside rfl
    exact (books.records.old _ (books.mem_of_records inside).2).false
  have at_new : (ledgerLink l task o).task l.nextTask = { task with owner := some o } := by
    simp [ledgerLink]
  have at_old : ∀ t, t ≠ l.nextTask → (ledgerLink l task o).task t = l.task t := by
    intro t other
    simp [ledgerLink, other]
  have mine : ∀ p, (l.owner p).records.Pairwise fun t u =>
      ((ledgerLink l task o).task t).created ≤ ((ledgerLink l task o).task u).created := by
    intro p
    refine (ordered p).imp_of_mem fun {t u} first second le => ?_
    rwa [at_old t (new p t first), at_old u (new p u second)]
  intro p
  by_cases here : p = o
  · subst here
    have records : ((ledgerLink l task p).owner p).records =
        insertBack (fun u => decide (task.created < (l.task u).created)) l.nextTask
          (l.owner p).records := by
      simp [ledgerLink]
    rw [records]
    refine pairwise_insertBack (fun _ _ _ => le_trans) ?_ ?_ (mine p)
    · intro u after
      by_cases same : u = l.nextTask
      · rw [same]
      · rw [at_new, at_old u same]
        exact (decide_eq_true_eq.mp after).le
    · intro u stopped
      by_cases same : u = l.nextTask
      · rw [same]
      · rw [at_new, at_old u same]
        exact not_lt.mp fun later => stopped (decide_eq_true later)
  · have same := mine p
    simpa [ledgerLink, here] using same

/-! ## Each removal and its reason -/

/-- What holds of each record let go of since the ledger was `l`. -/
structure Took (l : Ledger) (g : Gone) : Prop where
  books : Accounts g.before
  less : Less l g.before
  member : g.task ∈ g.before.tasks
  ended : g.before.hasEnded g.task = true

/-- The record headed the ended list, and its time was up or the results passed their bound. -/
structure Headed (keep : Option TaskRef) (now : Nat) (g : Gone) : Prop where
  kept : some g.task ≠ keep
  first : g.before.ended.head? = some g.task
  reason : (g.before.task g.task).due ≤ now ∨ ledgerBytes < g.before.bytes

theorem sweepEnded_gone (keep : Option TaskRef) (now : Nat) (walk : List TaskRef)
    (sound : Sound l) (walked : l.ended = walk) (gone : List Gone) :
    ∀ g ∈ (ledgerSweepEnded keep now walk l gone).2, g ∈ gone ∨ Took l g ∧ Headed keep now g ∧
        ∀ front back, walk = front ++ g.task :: back → ∀ u ∈ front,
          ∃ h ∈ (ledgerSweepEnded keep now walk l gone).2, h.task = u := by
  induction walk generalizing l gone with
  | nil => exact fun g inside => .inl inside
  | cons t rest ih =>
    have listed : t ∈ l.ended := walked ▸ mem_cons_self
    obtain ⟨member, ended⟩ := (sound.accounts.records.ended_iff t).mp listed
    obtain ⟨o, owner, _, _⟩ := sound.accounts.owner_of member
    obtain ⟨_, endedLeft, _, _, chain⟩ := drop_lists owner gone
    rw [walked, erase_cons_head] at endedLeft
    have distinct : (t :: rest).Nodup := walked ▸ sound.accounts.records.ended_nodup
    simp only [ledgerSweepEnded]
    split
    · exact fun g inside => .inl inside
    rename_i turn
    simp only [Bool.or_eq_true, decide_eq_true_eq, Bool.and_eq_true, not_or, not_and, not_le] at turn
    have grown := Chained.sweepEnded keep now rest (ledgerDrop l t gone).1 (ledgerDrop l t gone).2
    intro g inside
    have first : g = { task := t, before := l } → Took l g ∧ Headed keep now g := by
      rintro rfl
      refine ⟨⟨sound.accounts, Less.refl l, member, ended⟩, turn.1, by simp [walked], ?_⟩
      exact (le_or_gt (l.task t).due now).imp id turn.2
    have later : ∀ front back, t :: rest = front ++ g.task :: back → ∀ u ∈ front,
        g.task ≠ t ∧ (u = t ∨ ∃ front', rest = front' ++ g.task :: back ∧ u ∈ front') := by
      intro front back eq u before
      cases front with
      | nil => simp at before
      | cons v front' =>
        simp only [cons_append, List.cons.injEq] at eq
        obtain ⟨rfl, eq⟩ := eq
        refine ⟨fun same => ?_, ?_⟩
        · exact (nodup_cons.mp distinct).1 (by simp [eq, same])
        · exact (mem_cons.mp before).imp id fun tail => ⟨front', eq, tail⟩
    rcases ih (sound.drop member ended gone) endedLeft (ledgerDrop l t gone).2 g inside with old | ⟨took, headed, front⟩
    · rw [chain] at old
      rcases mem_cons.mp old with same | old
      · refine .inr ⟨(first same).1, (first same).2, fun front back eq u before => ?_⟩
        exact absurd (by rw [same]) (later front back eq u before).1
      · exact .inl old
    · refine .inr ⟨⟨took.books, (Less.drop l t gone).trans took.less, took.member, took.ended⟩,
        headed, fun earlier back eq u before => ?_⟩
      rcases (later earlier back eq u before).2 with rfl | ⟨front', eq', before'⟩
      · exact ⟨_, grown.grows (chain ▸ mem_cons_self), rfl⟩
      · exact front front' back eq' u before'

/-- The oldest record of an owner whose call has ended. -/
structure Oldest (l : Ledger) (o : OwnerRef) (t : TaskRef) : Prop where
  mine : t ∈ (l.owner o).records
  ended : l.hasEnded t = true
  first : ∀ u ∈ (l.owner o).records, l.hasEnded u = true → (l.task t).created ≤ (l.task u).created

theorem Ordered.oldest (ordered : Ordered l) {o : OwnerRef} (found : ledgerOwnerEnded l o = some t) : Oldest l o t := by
  obtain ⟨mine, ended⟩ := ledgerOwnerEnded_some found
  refine ⟨mine, ended, fun u inside uEnded => ?_⟩
  obtain ⟨_, front, back, split, before⟩ := List.find?_eq_some_iff_append.mp found
  have order := ordered o
  rw [split] at inside order
  rcases mem_append.mp inside with early | late
  · exact absurd uEnded (by simpa using before u early)
  · rcases mem_cons.mp late with rfl | late
    · exact le_rfl
    · exact rel_of_pairwise_cons (pairwise_append.mp order).2.1 late

/-- The records of an owner whose calls have ended. -/
def endedOf (l : Ledger) (o : OwnerRef) : Nat :=
  (l.owner o).records.countP l.hasEnded

theorem Records.endedCount_eq (book : Records l) (o : OwnerRef) : ownerEndedCount (l.owner o) = endedOf l o := by
  have total := length_eq_countP_add_countP l.hasEnded (l := (l.owner o).records)
  have running := book.running_eq o
  have n := book.n_eq o
  simp only [Bool.not_eq_true, Bool.decide_eq_false] at total
  simp only [ownerEndedCount, endedOf]
  omega

theorem most_of_fold (l : Ledger) (walk : List OwnerRef) : ∀ start : Option OwnerRef × Nat,
      (∀ o, start.1 = some o → start.2 = ownerEndedCount (l.owner o)) →
      ∀ o, (walk.foldl (ledgerOwnerMostOne l) start).1 = some o → (start.2 ≤ ownerEndedCount (l.owner o)) ∧
          ∀ p ∈ walk, ownerEndedCount (l.owner p) ≤ ownerEndedCount (l.owner o) := by
  induction walk with
  | nil =>
    intro start exact_ o found
    exact ⟨(exact_ o found).le, by simp⟩
  | cons p walk ih =>
    intro start exact_ o found
    simp only [foldl_cons, ledgerOwnerMostOne] at found
    split at found
    · rename_i more
      obtain ⟨least, rest⟩ := ih (some p, ownerEndedCount (l.owner p)) (by simp) o found
      exact ⟨more.le.trans least, forall_mem_cons.mpr ⟨least, rest⟩⟩
    · rename_i few
      obtain ⟨least, rest⟩ := ih start exact_ o found
      exact ⟨least, forall_mem_cons.mpr ⟨(not_lt.mp few).trans least, rest⟩⟩

/-- Room in a full ledger is made at the cost of an owner with the most ended records. -/
structure MadeRoom (g : Gone) : Prop where
  full : g.before.tasks.length = ledgerMax
  most : ∃ o, ledgerOwnerEnded g.before o = some g.task ∧
    ∀ p ∈ g.before.owners, endedOf g.before p ≤ endedOf g.before o

theorem sweepRoom_gone (sound : Sound l) (gone : List Gone) :
    ∀ g ∈ (ledgerSweepRoom l gone).2, g ∈ gone ∨ Took l g ∧ MadeRoom g := by
  unfold ledgerSweepRoom
  split
  · rename_i full
    split
    · exact fun g inside => .inl inside
    · rename_i o most
      split
      · exact fun g inside => .inl inside
      · rename_i t found
        intro g inside
        obtain ⟨mine, ended⟩ := ledgerOwnerEnded_some found
        obtain ⟨owner, member⟩ := sound.accounts.mem_of_records mine
        rw [(drop_lists owner gone).2.2.2.2] at inside
        rcases mem_cons.mp inside with rfl | old
        · refine .inr ⟨⟨sound.accounts, Less.refl l, member, ended⟩, full, o, found, ?_⟩
          intro p listed
          rw [← sound.accounts.records.endedCount_eq, ← sound.accounts.records.endedCount_eq]
          exact (most_of_fold l l.owners (none, 0) (by simp) o most).2 p listed
        · exact .inl old
  · exact fun g inside => .inl inside

/-- What a sweep lets go of, and why. -/
theorem sweep_gone (sound : Sound l) (keep : Option TaskRef) (room : Bool) (now : Nat) :
    ∀ g ∈ (ledgerSweep l keep room now).2, Took l g ∧ (Headed keep now g ∧
          (∀ front back, l.ended = front ++ g.task :: back → ∀ u ∈ front,
            ∃ h ∈ (ledgerSweep l keep room now).2, h.task = u) ∨ room = true ∧ MadeRoom g) := by
  have headed := sweepEnded_gone keep now l.ended sound rfl []
  have swept := sound.sweepEnded keep now l.ended rfl []
  have less := Less.removes.sweepEnded keep now l.ended l []
  cases room with
  | false =>
    intro g inside
    obtain none | ⟨took, first, front⟩ := headed g inside
    · simp at none
    · exact ⟨took, .inl ⟨first, front⟩⟩
  | true =>
    have grows := (Chained.sweepRoom (ledgerSweepEnded keep now l.ended l []).1
      (ledgerSweepEnded keep now l.ended l []).2).grows
    intro g inside
    obtain early | ⟨took, made⟩ := sweepRoom_gone swept _ g inside
    · obtain none | ⟨took, first, front⟩ := headed g early
      · simp at none
      · refine ⟨took, .inl ⟨first, fun earlier back eq u before => ?_⟩⟩
        obtain ⟨h, member, same⟩ := front earlier back eq u before
        exact ⟨h, grows member, same⟩
    · exact ⟨⟨took.books, less.trans took.less, took.member, took.ended⟩, .inr ⟨rfl, made⟩⟩

/-- An owner with many records made room for one more. -/
structure MadeMine (key : UInt64) (g : Gone) : Prop where
  owner : ∃ o, (g.before.owner o).key = key ∧ ledgerMine ≤ (g.before.owner o).records.length ∧
    ledgerOwnerEnded g.before o = some g.task

theorem makeRoom_gone {l f : Ledger} {key : UInt64} {o : OwnerRef} (fetched : Fetched l f key o) (gone : List Gone) :
    ∀ g ∈ (ledgerMakeRoom f o gone).2, g ∈ gone ∨ Took l g ∧ MadeMine key g := by
  unfold ledgerMakeRoom
  split
  · rename_i many
    split
    · exact fun g inside => .inl inside
    · rename_i t found
      intro g inside
      obtain ⟨mine, ended⟩ := ledgerOwnerEnded_some found
      obtain ⟨owner, member⟩ := fetched.books.mem_of_records mine
      rw [(drop_lists owner gone).2.2.2.2] at inside
      rcases mem_cons.mp inside with rfl | old
      · refine .inr ⟨⟨fetched.books, fetched.same.less, member, ended⟩, o, fetched.key_eq, ?_, found⟩
        rwa [← fetched.books.records.n_eq]
      · exact .inl old
  · exact fun g inside => .inl inside

/-! ## The newest ended record -/

/-- A sweep leaves the newest ended record that it keeps, or that neither rule reaches. -/
theorem sweepEnded_last {keep : Option TaskRef} {now : Nat} (walk : List TaskRef)
    (sound : Sound l) (walked : l.ended = walk) (last : walk.getLast? = some t)
    (stays : some t = keep ∨ now < (l.task t).due ∧ (l.task t).size ≤ ledgerBytes) (gone : List Gone) :
    (ledgerSweepEnded keep now walk l gone).1.ended.getLast? = some t := by
  induction walk generalizing l gone with
  | nil => simp at last
  | cons u rest ih =>
    simp only [ledgerSweepEnded]
    split
    · rw [walked]
      exact last
    rename_i turn
    simp only [Bool.or_eq_true, decide_eq_true_eq, Bool.and_eq_true, not_or, not_and, not_le] at turn
    obtain ⟨member, ended⟩ :=
      (sound.accounts.records.ended_iff u).mp (walked ▸ mem_cons_self)
    obtain ⟨o, owner, _, _⟩ := sound.accounts.owner_of member
    have endedLeft := (drop_lists owner gone).2.1
    rw [walked, erase_cons_head] at endedLeft
    have less := Less.drop l u gone
    cases rest with
    | nil =>
      -- Alone on the list, the record is all that the results weigh.
      obtain rfl : u = t := by simpa using last
      have weight := sound.accounts.records.bytes_eq
      simp only [walked, map_cons, map_nil, sum_cons, sum_nil] at weight
      rcases stays with kept | ⟨early, fits⟩
      · exact absurd kept turn.1
      · have heavy := turn.2 early
        omega
    | cons v rest =>
      refine ih (sound.drop member ended gone) endedLeft (by simpa using last) ?_ _
      rw [less.task t]
      exact stays

theorem mineFind_of_mem (books : Accounts l) {o : OwnerRef}
    (owner : (l.task t).owner = some o) : ledgerMineFind l (l.owner o).key (l.task t).id = some t := by
  have member : t ∈ l.tasks := (books.records.mem_iff t).mpr ⟨o, owner⟩
  cases found : l.tasks.find? fun u => (l.task u).id == (l.task t).id with
  | none => simpa using List.find?_eq_none.mp found t member
  | some u =>
    have same : (l.task u).id = (l.task t).id := by simpa using List.find?_some found
    obtain rfl := books.records.ids u (mem_of_find?_eq_some found) t member same
    simp [ledgerMineFind, found, owner]

/-- A record that is left has its owner, under the same key. -/
theorem Less.owner_of {l m : Ledger} (less : Less l m) (before : Accounts l) (books : Accounts m)
    (member : t ∈ m.tasks) : ∃ o, (l.task t).owner = some o ∧ (m.task t).owner = some o ∧
      (m.owner o).key = (l.owner o).key := by
  obtain ⟨o, owner, mine, _⟩ := books.owner_of member
  refine ⟨o, ?_, owner, less.key o (ne_nil_of_mem mine)⟩
  exact (before.records.owner_iff t o).mpr ((less.records o).subset mine)

/-- The newest ended record is found until its time is up, if it fits the bound of the results. -/
theorem find_newest (sound : Sound l) {o : OwnerRef} (env : Env)
    (last : l.ended.getLast? = some t) (owner : (l.task t).owner = some o)
    (early : env.clock 0 < (l.task t).due) (fits : (l.task t).size ≤ ledgerBytes) :
    (ledgerFind l env (l.owner o).key (l.task t).id).value = some t := by
  have swept : Sound (ledgerSweep l none false (env.clock 0)).1 := sound.sweep _ _ _
  have less : Less l (ledgerSweep l none false (env.clock 0)).1 := Less.sweep _ _ _ _
  have still : (ledgerSweep l none false (env.clock 0)).1.ended.getLast? = some t :=
    sweepEnded_last l.ended sound rfl last (.inr ⟨early, fits⟩) []
  have member := ((swept.accounts.records.ended_iff t).mp (mem_of_getLast? still)).1
  obtain ⟨p, before, after, key⟩ := less.owner_of sound.accounts swept.accounts member
  obtain rfl : p = o := Option.some.inj (before.symm.trans owner)
  have found := mineFind_of_mem swept.accounts after
  rw [key, less.task t] at found
  exact found

end Ledger

end Askai
