import Askai.Ledger.Rules

/-!
# Waking the waits

The handshake between the calls of the ledger, which chain the waits to post under its lock, the
threads that walk those chains outside of it, the loops that deliver the messages, and the
handlers.  Each access to a wait that another thread can see is a step of its own.
-/

namespace Askai

open Library List

/-- From `hits` on, the members `hit` chain the waits of the list. -/
def Linked (wait : WaitRef → Wait) (hits : Option WaitRef) : List WaitRef → Prop
  | [] => hits = none
  | w :: rest => hits = some w ∧ Linked wait (wait w).hit rest

theorem Linked.congr {wait other : WaitRef → Wait} {chain : List WaitRef} {hits : Option WaitRef}
    (linked : Linked wait hits chain) (same : ∀ w ∈ chain, (other w).hit = (wait w).hit) : Linked other hits chain := by
  induction chain generalizing hits with
  | nil => exact linked
  | cons w rest ih =>
    obtain ⟨first, next⟩ := linked
    refine ⟨first, ?_⟩
    rw [same w mem_cons_self]
    exact ih next fun v inside => same v (mem_cons_of_mem w inside)

/-! ## What a call does to the waits -/

/-- The waits `hits` are posted and chained, each with a reference for its message. -/
structure Woke (before after : WaitRef → Wait) (hits : List WaitRef) : Prop where
  nodup : hits.Nodup
  linked : Linked after hits.head? hits
  woken : ∀ w ∈ hits, (before w).posted = false ∧ after w =
    { before w with posted := true, refs := (before w).refs + 1, hit := (after w).hit }
  same : ∀ w, w ∉ hits → after w = before w

theorem Woke.none (wait : WaitRef → Wait) : Woke wait wait [] :=
  ⟨nodup_nil, rfl, by simp, fun _ _ => rfl⟩

theorem Woke.step {before after : WaitRef → Wait} {hits : List WaitRef}
    (woke : Woke before after hits) {w : WaitRef} (unposted : (after w).posted = false) :
    Woke before (Function.update after w { after w with posted := true, refs := (after w).refs + 1, hit := hits.head? })
      (w :: hits) := by
  have fresh : w ∉ hits := by
    intro inside
    rw [(woke.woken w inside).2] at unposted
    simp at unposted
  have other : ∀ v ∈ hits, v ≠ w := fun v inside same => fresh (same ▸ inside)
  refine ⟨nodup_cons.mpr ⟨fresh, woke.nodup⟩, ⟨rfl, ?_⟩, ?_, ?_⟩
  · rw [Function.update_self]
    exact woke.linked.congr fun v inside => by rw [Function.update_of_ne (other v inside)]
  · intro v inside
    rcases mem_cons.mp inside with rfl | inside
    · rw [Function.update_self, ← woke.same v fresh]
      exact ⟨unposted, rfl⟩
    · rw [Function.update_of_ne (other v inside)]
      exact woke.woken v inside
  · intro v absent
    have apart : v ≠ w := fun same => absent (same ▸ mem_cons_self)
    rw [Function.update_of_ne apart]
    exact woke.same v fun inside => absent (mem_cons_of_mem w inside)

theorem Woke.fold (walk : List WaitRef) {before after : WaitRef → Wait} {hits : List WaitRef}
    (woke : Woke before after hits) : Woke before (walk.foldl ledgerOwnerWakeOne (after, hits)).1
        (walk.foldl ledgerOwnerWakeOne (after, hits)).2 ∧ (∀ w, (after w).posted = true →
        ((walk.foldl ledgerOwnerWakeOne (after, hits)).1 w).posted = true) ∧
      ∀ w ∈ walk, ((walk.foldl ledgerOwnerWakeOne (after, hits)).1 w).posted = true := by
  induction walk generalizing after hits with
  | nil => exact ⟨woke, fun _ posted => posted, by simp⟩
  | cons v walk ih =>
    simp only [foldl_cons, ledgerOwnerWakeOne]
    split
    · rename_i posted
      obtain ⟨woken, stays, all⟩ := ih woke
      exact ⟨woken, stays, forall_mem_cons.mpr ⟨stays v posted, all⟩⟩
    · rename_i unposted
      obtain ⟨woken, stays, all⟩ := ih (woke.step (Bool.eq_false_iff.mpr unposted))
      refine ⟨woken, fun w posted => stays w ?_, forall_mem_cons.mpr ⟨stays v ?_, all⟩⟩
      · by_cases same : w = v <;> simp [same, posted]
      · simp

/-- The walk chains no wait that it does not pass. -/
theorem wakeOne_subset (walk : List WaitRef) (wait : WaitRef → Wait) (hits : List WaitRef) :
    ∀ w ∈ (walk.foldl ledgerOwnerWakeOne (wait, hits)).2, w ∈ walk ∨ w ∈ hits := by
  induction walk generalizing wait hits with
  | nil => exact fun w inside => .inr inside
  | cons v walk ih =>
    intro w inside
    simp only [foldl_cons, ledgerOwnerWakeOne] at inside
    split at inside
    · exact (ih wait hits w inside).imp_left (mem_cons_of_mem v)
    · rcases ih _ _ w inside with further | first
      · exact .inl (mem_cons_of_mem v further)
      · rcases mem_cons.mp first with rfl | before
        · exact .inl mem_cons_self
        · exact .inr before

namespace Ledger

/-- Every wait of the owner hears of its wake. -/
theorem wake_woke (l : Ledger) (o : OwnerRef) : Woke l.wait (ledgerOwnerWake l o).1.wait (ledgerOwnerWake l o).2 ∧
      ∀ w ∈ (l.owner o).waits, ((ledgerOwnerWake l o).1.wait w).posted = true := by
  obtain ⟨woke, _, all⟩ := (Woke.none l.wait).fold (l.owner o).waits
  exact ⟨woke, all⟩

/-- From `l` to `m` no wait changes. -/
structure SameWaits (l m : Ledger) : Prop where
  wait : m.wait = l.wait
  next : m.nextWait = l.nextWait

theorem SameWaits.refl (l : Ledger) : SameWaits l l := ⟨rfl, rfl⟩

theorem SameWaits.trans {l m k : Ledger} (first : SameWaits l m) (second : SameWaits m k) : SameWaits l k :=
  ⟨second.wait.trans first.wait, second.next.trans first.next⟩

theorem Less.sameWaits {l m : Ledger} (less : Less l m) : SameWaits l m :=
  ⟨less.wait, less.nextWait⟩

theorem SameWaits.tell (ids : List HexId) (walk : List TaskRef) (l : Ledger) (out : Look) :
    SameWaits l (ledgerOwnerTellFrom ids walk l out).1 := by
  induction walk generalizing l out with
  | nil => exact SameWaits.refl l
  | cons t walk ih =>
    have marked : ∀ out, SameWaits l (ledgerOwnerTellFrom ids walk
        (l.setTask t { l.task t with told := true }) out).1 := by
      intro out
      obtain ⟨wait, next⟩ := ih (l.setTask t { l.task t with told := true }) out
      exact ⟨wait, next⟩
    simp only [ledgerOwnerTellFrom]
    split
    · exact SameWaits.refl l
    · split
      · exact ih l out
      · split
        · exact marked _
        · exact marked _

/-- Removals change no owner's key. -/
theorem keys_removes : Removes fun l m => ∀ o, (m.owner o).key = (l.owner o).key := by
  refine ⟨fun _ _ => rfl, fun first second o => (second o).trans (first o), fun l t gone o => ?_⟩
  unfold ledgerDrop
  split
  · rfl
  · rename_i p _
    have gc : ∀ m : Ledger, ((ledgerOwnerGc m p).owner o).key = (m.owner o).key := by
      intro m
      unfold ledgerOwnerGc
      split <;> rfl
    rw [gc]
    by_cases here : o = p <;> simp [ledgerUnlink, here]

end Ledger

/-- The calls that touch waits only to wake them. -/
def Call.plain : Call → Bool
  | .waitEnter _ _ => false
  | .waitHeard _ => false
  | .waitLeave _ => false
  | .tell _ _ => false
  | _ => true

/-- In the turn, a record of the owner at `o` ended or was restored as ended, or a timer was set. -/
def Turn.Happens (turn : Turn) (o : OwnerRef) : Prop :=
  match turn.call with
  | .end_ t status => status ≠ .working ∧ turn.before.hasEnded t = false ∧
      (turn.before.task t).owner = some o
  | .restore key _ _ _ _ status _ _ => status ≠ .working ∧
      (∃ t, (ledgerCall turn.before turn.env turn.call).value = .record (.ok t)) ∧
      ((ledgerCall turn.before turn.env turn.call).ledger.owner o).key = key
  | .timerSet key _ _ =>
    (∃ id, (ledgerCall turn.before turn.env turn.call).value = .timer (.ok id)) ∧
    ((ledgerCall turn.before turn.env turn.call).ledger.owner o).key = key
  | _ => False

namespace Ledger

/-- What a turn with a plain call does to the waits. -/
structure Rouses (turn : Turn) : Prop where
  woke : Woke turn.before.wait turn.outcome.ledger.wait turn.outcome.hits
  mine : ∀ w ∈ turn.outcome.hits, (turn.before.wait w).owner.isSome
  next : turn.outcome.ledger.nextWait = turn.before.nextWait
  hears : ∀ o, turn.Happens o → ∀ w, (turn.outcome.ledger.wait w).owner = some o →
    (turn.outcome.ledger.wait w).posted = true

variable {turn : Turn}

theorem rouses_none (same : SameWaits turn.before turn.outcome.ledger)
    (hits : turn.outcome.hits = []) (nothing : ∀ o, ¬turn.Happens o) : Rouses turn := by
  refine ⟨?_, by simp [hits], same.next, fun o happens => absurd happens (nothing o)⟩
  rw [same.wait, hits]
  exact Woke.none _

/-- The waits of one key are those of its owner. -/
theorem Sound.mem_waits {l : Ledger} (sound : Sound l) {w : WaitRef} {o p : OwnerRef}
    (listed : p ∈ l.owners) (owner : (l.wait w).owner = some o)
    (key : (l.owner o).key = (l.owner p).key) : w ∈ (l.owner p).waits := by
  have books := sound.accounts
  have inside := (books.waits.owner_iff w o).mp owner
  have some : (l.owner o).nWaits ≠ 0 := by
    rw [books.waits.nWaits_eq]
    exact (length_pos_of_mem inside).ne'
  have also : o ∈ l.owners := books.listed o (by simp [ledgerOwnerBusy, some])
  obtain rfl := books.owners.keys o also p listed key
  exact inside

/-- A wake and a sweep, in a turn about the owner at `p` of the ledger `x`. -/
theorem rouses_wake {x m : Ledger} {p : OwnerRef} (sound : Sound x)
    (listed : p ∈ x.owners) (before : SameWaits turn.before x)
    (after : SameWaits (ledgerOwnerWake x p).1 m) (ledger : turn.outcome.ledger = m)
    (hits : turn.outcome.hits = (ledgerOwnerWake x p).2)
    (about : ∀ o, turn.Happens o → (x.owner o).key = (x.owner p).key) : Rouses turn := by
  obtain ⟨woke, all⟩ := wake_woke x p
  rw [before.wait] at woke
  refine ⟨?_, fun w inside => ?_, ?_, fun o happens w owner => ?_⟩
  · rw [ledger, hits, after.wait]
    exact woke
  · rw [hits] at inside
    have passed : w ∈ (x.owner p).waits := by
      simpa using wakeOne_subset (x.owner p).waits x.wait [] w inside
    rw [← before.wait, (sound.accounts.waits.owner_iff w p).mpr passed]
    rfl
  · rw [ledger, after.next]
    exact before.next
  · rw [ledger, after.wait] at owner ⊢
    have mine : (x.wait w).owner = some o := by
      rw [← owner]
      exact (wake_owner (x.owner p).waits x.wait [] w).symm
    exact all w (sound.mem_waits listed mine (about o happens))

theorem Sound.rouses_end (sound : Sound turn.before) {t : TaskRef} {status : Status}
    (call : turn.call = .end_ t status) : Rouses turn := by
  have outcome : turn.outcome = (ledgerEnd turn.before turn.env t status).map fun _ => .nothing := by
    simp only [Turn.outcome, call, ledgerCall]
  have happens : ∀ o, turn.Happens o ↔ status ≠ .working ∧ turn.before.hasEnded t = false ∧
      (turn.before.task t).owner = some o := by
    intro o
    simp only [Turn.Happens, call]
  obtain ⟨closed, eq⟩ | ⟨o, done, working, owner, eq⟩ := end_cases turn.before turn.env t status
  · rw [eq] at outcome
    refine rouses_none (by rw [outcome]; exact SameWaits.refl _) (by rw [outcome]; rfl) fun o also => ?_
    obtain ⟨done, working, owner⟩ := (happens o).mp also
    simp [done, working, owner] at closed
  · have open_ : Sound (published turn.before turn.env t o status) :=
      sound.publish owner working rfl owner done
    have listed : o ∈ turn.before.owners := by
      obtain ⟨p, owner', _, listed⟩ :=
        sound.accounts.owner_of ((sound.accounts.records.mem_iff t).mpr ⟨o, owner⟩)
      exact Option.some.inj (owner.symm.trans owner') ▸ listed
    rw [eq] at outcome
    refine rouses_wake open_ listed ⟨rfl, rfl⟩ ((Less.sweep _ _ _ _).sameWaits)
      (congrArg Outcome.ledger outcome) (congrArg Outcome.hits outcome) fun p also => ?_
    obtain rfl : p = o := Option.some.inj (((happens p).mp also).2.2.symm.trans owner)
    rfl

/-- A restoration, also as the second half of an opening. -/
theorem Sound.rouses_restore (sound : Sound turn.before) {key : UInt64} {kind : Kind}
    {id : HexId} {created ended result : Nat} {status : Status} {called : Bool}
    (outcome : turn.outcome = (ledgerRestore turn.before turn.env key kind id created ended status
      result called).map .record) (happens : ∀ o, turn.Happens o → status ≠ .working ∧
      (∃ t, turn.outcome.value = .record (.ok t)) ∧ (turn.outcome.ledger.owner o).key = key) : Rouses turn := by
  obtain ⟨e, eq⟩ | ⟨m, e, same, eq⟩ | ⟨f, k, o, chain, restored, entered, cases⟩ :=
    restore_outcomes sound turn.env key kind id created ended status result called
  · rw [eq] at outcome
    refine rouses_none (by rw [outcome]; exact SameWaits.refl _) (by rw [outcome]; rfl) fun o also => ?_
    obtain ⟨_, ⟨t, value⟩, _⟩ := happens o also
    simp [outcome, Outcome.map] at value
  · rw [eq] at outcome
    have swept := (Less.sweep turn.before none true (turn.env.clock 1)).trans same.less
    refine rouses_none (by rw [outcome]; exact swept.sameWaits) (by rw [outcome]; rfl) fun o also => ?_
    obtain ⟨_, ⟨t, value⟩, _⟩ := happens o also
    simp [outcome, Outcome.map] at value
  · have linked : SameWaits turn.before (ledgerLink k (restoredTask turn.env kind id created ended
        status result) o) := restored.less.sameWaits.trans ⟨rfl, rfl⟩
    rcases cases with ⟨working, eq⟩ | ⟨done, eq⟩
    · rw [eq] at outcome
      refine rouses_none (by rw [outcome]; exact linked) (by rw [outcome]; rfl) fun o also => ?_
      exact (happens o also).1 working
    · rw [eq, restoreEnded_eq] at outcome
      have status_new : (ledgerLink k (restoredTask turn.env kind id created ended status result)
          o).hasEnded k.nextTask = true := by
        simp [ledgerLink, restoredTask, done]
      rw [enterEnded, if_pos status_new] at entered
      have keys : ∀ p, (turn.outcome.ledger.owner p).key = (k.owner p).key := by
        intro p
        rw [outcome]
        refine (keys_removes.sweep _ _ _ _ p).trans ?_
        by_cases here : p = o <;> simp [restoreWoken, ledgerOwnerWake, ledgerAppendEnded, ledgerLink, here]
      refine rouses_wake entered restored.ready.listed (linked.trans ⟨rfl, rfl⟩)
        (Less.sweep _ _ _ _).sameWaits (congrArg Outcome.ledger outcome)
        (congrArg Outcome.hits outcome) fun p also => ?_
      have same : ∀ q, ((ledgerAppendEnded (ledgerLink k (restoredTask turn.env kind id created
          ended status result) o) k.nextTask).owner q).key = (k.owner q).key := by
        intro q
        by_cases here : q = o <;> simp [ledgerAppendEnded, ledgerLink, here]
      rw [same, same, ← keys, (happens p also).2.2, restored.ready.key_eq]

theorem Sound.rouses_timerSet (sound : Sound turn.before) {key due : UInt64}
    {note : List UInt8} (call : turn.call = .timerSet key due note) : Rouses turn := by
  have outcome : turn.outcome = (ledgerTimerSet turn.before turn.env key due.toNat note).map .timer := by
    simp only [Turn.outcome, call, ledgerCall]
  have happens : ∀ o, turn.Happens o → (∃ id, turn.outcome.value = .timer (.ok id)) ∧
      (turn.outcome.ledger.owner o).key = key := by
    intro o also
    simp only [Turn.Happens, call] at also
    simpa only [Turn.outcome, call] using also
  obtain ⟨e, eq⟩ | ⟨some, _, m, ⟨e, got, eq⟩ | ⟨o, got, ⟨_, eq⟩ | ⟨slot, free, eq⟩⟩⟩ :=
    timerSet_cases turn.before turn.env key due.toNat note
  · rw [eq] at outcome
    refine rouses_none (by rw [outcome]; exact SameWaits.refl _) (by rw [outcome]; rfl) fun o also => ?_
    obtain ⟨id, value⟩ := (happens o also).1
    simp [outcome, Outcome.map] at value
  · rw [eq] at outcome
    refine rouses_none ?_ (by rw [outcome]; rfl) fun o also => ?_
    · rw [outcome]
      exact (sound.get_error got).2.less.sameWaits
    · obtain ⟨id, value⟩ := (happens o also).1
      simp [outcome, Outcome.map] at value
  · rw [eq] at outcome
    refine rouses_none ?_ (by rw [outcome]; rfl) fun p also => ?_
    · rw [outcome]
      exact (sound.get_ok got).same.less.sameWaits.trans ⟨rfl, rfl⟩
    · obtain ⟨id, value⟩ := (happens p also).1
      simp [outcome, Outcome.map] at value
  · rw [eq] at outcome
    have fetched := sound.get_ok got
    have keys : ∀ p, ((timerPut m o (turn.env.clock 0) slot due.toNat note).owner p).key = (m.owner p).key := by
      intro p
      by_cases here : p = o <;> simp [timerPut, ledgerOwnerExpire, here]
    refine rouses_wake (fetched.timerPut (turn.env.clock 0) slot some note) fetched.listed
      (fetched.same.less.sameWaits.trans ⟨rfl, rfl⟩) (SameWaits.refl _)
      (congrArg Outcome.ledger outcome) (congrArg Outcome.hits outcome) fun p also => ?_
    have mine := (happens p also).2
    rw [outcome] at mine
    rw [keys o, fetched.key_eq]
    exact mine

theorem SameWaits.sweep (l : Ledger) (keep : Option TaskRef) (room : Bool) (now : Nat) :
    SameWaits l (ledgerSweep l keep room now).1 :=
  (Less.sweep l keep room now).sameWaits

theorem SameWaits.setOwner_gc (l : Ledger) (o : OwnerRef) (value : Owner) :
    SameWaits l (ledgerOwnerGc (l.setOwner o value) o) := by
  have same := SameTasks.gc (l.setOwner o value) o
  exact ⟨same.wait, same.nextWait⟩

/-- Every plain call of a run posts the waits of whom it is about, and changes no other. -/
theorem Sound.rouses (sound : Sound turn.before) (plain : turn.call.plain = true) : Rouses turn := by
  obtain ⟨before, env, call⟩ := turn
  cases call with
  | open_ key kind random called =>
    cases random with
    | error e => exact rouses_none (SameWaits.refl before) rfl fun _ happens => happens
    | ok id => exact sound.rouses_restore rfl fun _ happens => happens.elim
  | restore key kind id created ended status result called =>
    exact sound.rouses_restore rfl fun _ happens => happens
  | reserve t len =>
    have same : SameWaits before (ledgerTaskReserve before t len (env.memory 0)).1 := ⟨rfl, rfl⟩
    exact rouses_none same rfl fun _ happens => happens
  | write t len =>
    have same : SameWaits before (ledgerTaskWrite before t len).1 := by
      unfold ledgerTaskWrite
      split <;> exact ⟨rfl, rfl⟩
    exact rouses_none same rfl fun _ happens => happens
  | end_ t status => exact sound.rouses_end rfl
  | find key id => exact rouses_none (SameWaits.sweep before _ _ _) rfl fun _ happens => happens
  | remove key id =>
    have cases : (ledgerRemove before key id).hits = [] ∧ SameWaits before (ledgerRemove before key id).ledger := by
      obtain ⟨e, eq⟩ | ⟨t, _, _, eq⟩ := remove_cases before key id <;> rw [eq]
      · exact ⟨rfl, SameWaits.refl before⟩
      · exact ⟨rfl, (Less.drop before t []).sameWaits⟩
    exact rouses_none cases.2 cases.1 fun _ happens => happens
  | timerSet key due note => exact sound.rouses_timerSet rfl
  | timerCancel key id =>
    have hits : (ledgerTimerCancel before env key id).hits = [] := by
      unfold ledgerTimerCancel
      split <;> rfl
    have same : SameWaits before (ledgerTimerCancel before env key id).ledger := by
      unfold ledgerTimerCancel
      split
      · exact SameWaits.refl before
      · exact SameWaits.setOwner_gc before _ _
    exact rouses_none same hits fun _ happens => happens
  | list key =>
    have hits : (ledgerList before env key).hits = [] := by
      simp only [ledgerList]
      split <;> rfl
    have same : SameWaits before (ledgerList before env key).ledger := by
      simp only [ledgerList]
      split
      · exact SameWaits.sweep before _ _ _
      · exact (SameWaits.sweep before _ _ _).trans (SameWaits.setOwner_gc _ _ _)
    exact rouses_none same hits fun _ happens => happens
  | waitEnter key loop => simp [Call.plain] at plain
  | waitHeard w => simp [Call.plain] at plain
  | waitLeave w => simp [Call.plain] at plain
  | tell w ids => simp [Call.plain] at plain

end Ledger

end Askai
