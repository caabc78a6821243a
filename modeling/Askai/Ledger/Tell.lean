import Askai.Ledger.Timers
import Askai.Ledger.Rules

/-!
# Telling exactly once

A waiter hears of each timer and of each ended record once.  Timers are followed by the number of
timers set before them, as their own numbers come round; records by their addresses.
-/

namespace Askai

open Library

/-- The timers that the turn tells of. -/
def Turn.fired (turn : Turn) : List Timer :=
  match turn.call, turn.outcome.value with
  | .tell _ _, .look (some look) => look.timers
  | _, _ => []

/-- The records that the turn tells of. -/
def Turn.tells (turn : Turn) : List TaskRef :=
  match turn.call, turn.outcome.value with
  | .tell _ _, .look (some look) => look.tasks
  | _, _ => []

/-- The records that the turn tells of to a call that names none. -/
def Turn.tellsUnnamed (turn : Turn) : List TaskRef :=
  match turn.call with
  | .tell _ [] => turn.tells
  | _ => []

/-- The timer that the turn cancels. -/
def Turn.cancelled (turn : Turn) : List Timer :=
  match turn.call, turn.outcome.value with
  | .timerCancel key id, .code none =>
    match ledgerOwnerFind turn.before key with
    | none => []
    | some o =>
      let expired := ledgerOwnerExpire (turn.before.owner o) (turn.env.clock 0)
      match ledgerOwnerTimer expired id with
      | none => []
      | some slot => [(getElem expired.timers slot slot.isLt)]
  | _, _ => []

/-- The turn looks at the owner at `o`, and this is what it returns of it. -/
def Turn.Looks (turn : Turn) (o : OwnerRef) (look : Look) : Prop :=
  match turn.call with
  | .tell w _ => turn.outcome.value = .look (some look) ∧ (turn.before.wait w).owner = some o
  | .list key => turn.outcome.value = .look (some look) ∧
      ledgerOwnerFind (ledgerSweep turn.before none false (turn.env.clock 1)).1 key = some o
  | _ => False

namespace Ledger

/-! ## Slots over runs -/

/-- The timers in the slots are told apart by their serials. -/
structure Wound (l : Ledger) : Prop where
  distinct : ∀ o i u p j v, Live l o i u → Live l p j v → u.serial = v.serial → o = p ∧ i = j
  old : ∀ o i u, Live l o i u → u.serial < l.serials
  due_le : ∀ o i u, Live l o i u → u.due ≤ uint64Max

variable {turn : Turn} {l m : Ledger}

theorem Fades.wound {clock : Nat → Nat} (fades : Fades clock l m) (wound : Wound l) : Wound m := by
  refine ⟨fun o i u p j v first second => ?_, fun o i u live => ?_, fun o i u live => ?_⟩
  · exact wound.distinct o i u p j v (fades.stays o i u first) (fades.stays p j v second)
  · rw [fades.serials]
    exact wound.old o i u (fades.stays o i u live)
  · exact wound.due_le o i u (fades.stays o i u live)

/-- What a turn does to the slots. -/
structure Ticks (turn : Turn) (m : Ledger) : Prop where
  wound : Wound m
  leaves : ∀ o i u, Live turn.before o i u → Live m o i u ∨ u ∈ turn.fired ∨
    u ∈ turn.cancelled ∧ turn.env.clock 0 < u.due ∨
    ∃ reading, timerExpired (turn.env.clock reading) u.due
  settled : ∀ u ∈ turn.fired ++ turn.cancelled, u.serial < turn.before.serials ∧
    (∃ o i, Live turn.before o i u) ∧ ∀ p j v, Live m p j v → v.serial ≠ u.serial
  nodup : ((turn.fired ++ turn.cancelled).map Timer.serial).Nodup
  grows : turn.before.serials ≤ m.serials
  comes : ∀ o i u, Live m o i u → Live turn.before o i u ∨ turn.before.serials ≤ u.serial
  due : ∀ u ∈ turn.fired, u.due ≠ 0 ∧ u.due ≤ turn.env.clock 0

theorem Wound.ticks_of_fades {m : Ledger} (wound : Wound turn.before)
    (fades : Fades turn.env.clock turn.before m) (fired : turn.fired = [])
    (cancelled : turn.cancelled = []) : Ticks turn m := by
  refine ⟨fades.wound wound, fun o i u live => ?_, by simp [fired, cancelled],
    by simp [fired, cancelled], fades.serials.ge, fun o i u live => .inl (fades.stays o i u live),
    by simp [fired]⟩
  exact (fades.fades o i u live).imp id fun old => .inr (.inr old)

theorem Sound.fades_insert {clock : Nat → Nat} (sound : Sound l) {task : Task}
    {key : UInt64} {reading : Nat} {memory : Bool} {e : Option Errno} {gone all : List Gone}
    (inserted : ledgerInsert l task key (clock reading) memory gone = (m, e, all)) : Fades clock l m := by
  unfold ledgerInsert at inserted
  split at inserted
  · obtain rfl : l = m := congrArg Prod.fst inserted
    exact (SameTimers.refl l).fades
  · split at inserted
    · rename_i got
      obtain rfl := congrArg Prod.fst inserted
      exact sound.fades_get got
    · rename_i k o got
      have fetched : Fades clock l k := sound.fades_get got
      split at inserted
      · obtain rfl : k = m := congrArg Prod.fst inserted
        exact fetched
      · obtain rfl : ledgerLink (ledgerMakeRoom k o gone).1 task o = m :=
          congrArg Prod.fst inserted
        exact fetched.trans ((SameTimers.removes.makeRoom k o gone).trans (SameTimers.link _ task o)).fades

theorem Sound.fades_restore {l : Ledger} (sound : Sound l) (env : Env) (key : UInt64) (kind : Kind)
    (id : HexId) (created ended : Nat) (status : Status) (result : Nat) (called : Bool) : Fades env.clock l
      (ledgerRestore l env key kind id created ended status result called).ledger := by
  have swept : Fades env.clock l (ledgerSweep l none true (env.clock 1)).1 :=
    (SameTimers.sweep _ _ _ _).fades
  obtain ⟨e, eq⟩ | ⟨_, _, m, e, gone, inserted, cases⟩ :=
    restore_cases l env key kind id created ended status result called
  · rw [eq]
    exact (SameTimers.refl l).fades
  have added := swept.trans ((sound.sweep none true (env.clock 1)).fades_insert inserted)
  obtain ⟨error, rfl, eq⟩ | ⟨rfl, working, eq⟩ | ⟨rfl, done, eq⟩ := cases
  · rw [eq]
    exact added
  · rw [eq]
    exact added
  · rw [eq]
    refine added.trans (SameTimers.fades ?_)
    simp only [ledgerRestoreEnded]
    split <;>
    · refine SameTimers.trans ?_ (SameTimers.sweep _ _ _ _)
      exact ⟨fun _ => rfl, rfl⟩

theorem SameTimers.end_ (l : Ledger) (env : Env) (t : TaskRef) (status : Status) :
    SameTimers l (ledgerEnd l env t status).ledger := by
  obtain ⟨_, eq⟩ | ⟨o, _, _, _, eq⟩ := end_cases l env t status
  · rw [eq]
    exact SameTimers.refl l
  · rw [eq]
    refine SameTimers.trans ?_ (SameTimers.sweep _ _ _ _)
    refine ⟨fun p => ?_, rfl⟩
    by_cases here : p = o <;> simp [endWoken, ledgerOwnerWake, published, here]

theorem Sound.fades_waitEnter {l : Ledger} (sound : Sound l) (env : Env) (key : UInt64)
    (loop : Nat) : Fades env.clock l (ledgerWaitEnter l env key loop).ledger := by
  obtain eq | ⟨m, ⟨e, got, eq⟩ | ⟨o, got, ⟨_, eq⟩ | ⟨_, eq⟩⟩⟩ := waitEnter_cases l env key loop
  · rw [eq]
    exact (SameTimers.refl l).fades
  · rw [eq]
    exact sound.fades_get got
  · rw [eq]
    exact sound.fades_get got
  · rw [eq]
    refine (sound.fades_get got).trans (SameTimers.fades ⟨fun p => ?_, rfl⟩)
    by_cases here : p = o <;> simp [ledgerWaitLink, here]

theorem SameTimers.waitUnlink (l : Ledger) (w : WaitRef) : SameTimers l (ledgerWaitUnlink l w) := by
  simp only [ledgerWaitUnlink]
  split
  · exact SameTimers.refl l
  · rename_i o _
    refine SameTimers.trans ?_ (SameTimers.gc _ o)
    refine ⟨fun p => ?_, rfl⟩
    by_cases here : p = o <;> simp [here]

theorem fades_list (l : Ledger) (env : Env) (key : UInt64) : Fades env.clock l (ledgerList l env key).ledger := by
  have swept : Fades env.clock l (ledgerSweep l none false (env.clock 1)).1 :=
    (SameTimers.sweep _ _ _ _).fades
  simp only [ledgerList]
  split
  · exact swept
  · rename_i o _
    have kept : ∀ value : Owner, (ledgerOwnerTimers value (env.clock 0) false ledgerLookEmpty).1 = value := by
      intro value
      have untaken : ledgerTimerTaken (env.clock 0) false = id := by
        funext t
        simp [ledgerTimerTaken]
      simp [ledgerOwnerTimers, untaken]
    rw [kept]
    exact swept.trans ((Fades.expireOwner _ o 0).trans (SameTimers.gc _ o).fades)

/-! ## A timer is set -/

theorem Wound.ticks_put {k m : Ledger} (wound : Wound turn.before)
    (fades : Fades turn.env.clock turn.before k) (o : OwnerRef) (slot : Fin ledgerTimers)
    (new : Timer) (free : (getElem (k.owner o).timers slot slot.isLt).due = 0) (serial : new.serial = turn.before.serials)
    (due : new.due ≤ uint64Max) (at_slot : (getElem (m.owner o).timers slot slot.isLt) = new)
    (others : ∀ p i, ¬(p = o ∧ i = slot) → (getElem (m.owner p).timers i i.isLt) = (getElem (k.owner p).timers i i.isLt))
    (serials : m.serials = turn.before.serials + 1) (fired : turn.fired = [])
    (cancelled : turn.cancelled = []) : Ticks turn m := by
  have live_iff : ∀ p i u, Live m p i u → Live k p i u ∨ p = o ∧ i = slot ∧ u = new := by
    rintro p i u ⟨rfl, some⟩
    by_cases here : p = o ∧ i = slot
    · obtain ⟨rfl, rfl⟩ := here
      exact .inr ⟨rfl, rfl, at_slot⟩
    · exact .inl ⟨(others p i here).symm, some⟩
  have kept : ∀ p i u, Live k p i u → Live m p i u := by
    rintro p i u ⟨rfl, some⟩
    by_cases here : p = o ∧ i = slot
    · obtain ⟨rfl, rfl⟩ := here
      exact absurd free some
    · exact ⟨others p i here, some⟩
  have before := fades.wound wound
  have fresh : ∀ p i u, Live k p i u → u.serial ≠ new.serial := by
    intro p i u live
    have old := before.old p i u live
    rw [fades.serials] at old
    omega
  refine ⟨⟨fun p i u q j v first second same => ?_, fun p i u live => ?_, fun p i u live => ?_⟩,
    fun p i u live => ?_, by simp [fired, cancelled], by simp [fired, cancelled], by omega,
    fun p i u live => ?_, by simp [fired]⟩
  · rcases live_iff p i u first with first | ⟨rfl, rfl, rfl⟩ <;>
      rcases live_iff q j v second with second | ⟨rfl, rfl, rfl⟩
    · exact before.distinct p i u q j v first second same
    · exact absurd same (fresh p i u first)
    · exact absurd same.symm (fresh q j v second)
    · exact ⟨rfl, rfl⟩
  · rcases live_iff p i u live with live | ⟨rfl, rfl, rfl⟩
    · have old := before.old p i u live
      rw [fades.serials] at old
      omega
    · omega
  · rcases live_iff p i u live with live | ⟨rfl, rfl, rfl⟩
    · exact before.due_le p i u live
    · exact due
  · exact (fades.fades p i u live).imp (kept p i u) fun old => .inr (.inr old)
  · rcases live_iff p i u live with live | ⟨rfl, rfl, rfl⟩
    · exact .inl (fades.stays p i u live)
    · exact .inr serial.ge

theorem Wound.ticks_timerSet (sound : Sound turn.before) (wound : Wound turn.before)
    {key due : UInt64} {note : List UInt8} (call : turn.call = .timerSet key due note) :
    Ticks turn turn.outcome.ledger := by
  have outcome : turn.outcome.ledger = (ledgerTimerSet turn.before turn.env key due.toNat note).ledger := by
    simp only [Turn.outcome, call, ledgerCall, Outcome.map]
  have fired : turn.fired = [] := by simp only [Turn.fired, call]
  have cancelled : turn.cancelled = [] := by simp only [Turn.cancelled, call]
  rw [outcome]
  obtain ⟨e, eq⟩ | ⟨_, _, m, ⟨e, got, eq⟩ | ⟨o, got, ⟨_, eq⟩ | ⟨slot, free, eq⟩⟩⟩ :=
    timerSet_cases turn.before turn.env key due.toNat note
  · rw [eq]
    exact wound.ticks_of_fades (SameTimers.refl _).fades fired cancelled
  · rw [eq]
    exact wound.ticks_of_fades (sound.fades_get got) fired cancelled
  · rw [eq]
    exact wound.ticks_of_fades ((sound.fades_get got).trans (Fades.expireOwner m o 0)) fired cancelled
  · rw [eq]
    have fades := (sound.fades_get got).trans (Fades.expireOwner m o 0)
    have serials : m.serials = turn.before.serials := (sound.fades_get got).serials
    have small : due.toNat ≤ uint64Max := Nat.le_of_lt_succ due.toNat_lt
    refine wound.ticks_put fades o slot
      { due := due.toNat, id := m.nTimers % uint32Max + 1, note := note, serial := m.serials }
      (by simpa using free) serials small ?_ ?_ ?_ fired cancelled
    · simp [ledgerOwnerWake, timerPut]
    · intro p i other
      by_cases here : p = o
      · subst here
        have apart : slot ≠ i := fun same => other ⟨rfl, same.symm⟩
        have apart : (slot : Nat) ≠ i := fun same => apart (Fin.ext same)
        simp [ledgerOwnerWake, timerPut, Vector.getElem_set_ne, apart]
      · simp [ledgerOwnerWake, timerPut, here]
    · simp [ledgerOwnerWake, timerPut, serials]

/-! ## Timers are told of or cancelled -/

/-- The slots of one owner lose the timers that the turn settles. -/
theorem Wound.ticks_settle {k m : Ledger} (wound : Wound turn.before)
    (fades : Fades turn.env.clock turn.before k) (o : OwnerRef) (settled : List Timer)
    (all : turn.fired ++ turn.cancelled = settled)
    (sub : ∀ u ∈ settled, ∃ i, Live k o i u) (distinct : (settled.map Timer.serial).Nodup)
    (slots : ∀ i u, Live m o i u ↔ Live k o i u ∧ u ∉ settled) (early : ∀ u ∈ turn.cancelled, turn.env.clock 0 < u.due)
    (late : ∀ u ∈ turn.fired, u.due ≠ 0 ∧ u.due ≤ turn.env.clock 0)
    (others : ∀ p, p ≠ o → (m.owner p).timers = (k.owner p).timers)
    (serials : m.serials = k.serials) : Ticks turn m := by
  have before := fades.wound wound
  have live_k : ∀ p i u, Live m p i u → Live k p i u := by
    intro p i u live
    by_cases here : p = o
    · subst here
      exact ((slots i u).mp live).1
    · rwa [Live, others p here] at live
  refine ⟨⟨fun p i u q j v first second => ?_, fun p i u live => ?_, fun p i u live => ?_⟩,
    fun p i u live => ?_, fun u inside => ?_, ?_, ?_, fun p i u live => ?_, late⟩
  · exact before.distinct p i u q j v (live_k p i u first) (live_k q j v second)
  · rw [serials]
    exact before.old p i u (live_k p i u live)
  · exact before.due_le p i u (live_k p i u live)
  · rcases fades.fades p i u live with still | old
    · by_cases here : p = o
      · subst here
        by_cases gone : u ∈ settled
        · rw [← all] at gone
          rcases List.mem_append.mp gone with told | cancelled
          · exact .inr (.inl told)
          · exact .inr (.inr (.inl ⟨cancelled, early u cancelled⟩))
        · exact .inl ((slots i u).mpr ⟨still, gone⟩)
      · exact .inl (by rwa [Live, others p here])
    · exact .inr (.inr (.inr old))
  · rw [all] at inside
    obtain ⟨i, live⟩ := sub u inside
    have old := before.old o i u live
    rw [fades.serials] at old
    refine ⟨old, ⟨o, i, fades.stays o i u live⟩, fun p j v also same => ?_⟩
    obtain ⟨rfl, rfl⟩ := before.distinct p j v o i u (live_k p j v also) live same
    have eq : v = u := (live_k p j v also).1.symm.trans live.1
    exact ((slots j v).mp also).2 (eq ▸ inside)
  · rw [all]
    exact distinct
  · rw [serials, fades.serials]
  · exact .inl (fades.stays p i u (live_k p i u live))

theorem ownerTimer_some {o : Owner} {id : Nat} {slot : Fin ledgerTimers}
    (found : ledgerOwnerTimer o id = some slot) : (getElem o.timers slot slot.isLt).due ≠ 0 := by
  have test := findFinIdx_some found
  simp only [Bool.and_eq_true, bne_iff_ne, ne_eq] at test
  exact test.1

theorem Wound.ticks_timerCancel (wound : Wound turn.before) {key : UInt64} {id : Nat}
    (call : turn.call = .timerCancel key id) : Ticks turn turn.outcome.ledger := by
  have fired : turn.fired = [] := by simp only [Turn.fired, call]
  have outcome : turn.outcome = (ledgerTimerCancel turn.before turn.env key id).map .code := by
    simp only [Turn.outcome, call, ledgerCall]
  obtain ⟨_, eq⟩ | ⟨o, expired, found, expired_eq, ⟨e, eq⟩ | ⟨slot, timer, later, eq⟩⟩ :=
    timerCancel_cases turn.before turn.env key id
  · have cancelled : turn.cancelled = [] := by
      simp [Turn.cancelled, call, outcome, eq, Outcome.map]
    rw [outcome, eq]
    exact wound.ticks_of_fades (SameTimers.refl _).fades fired cancelled
  · have cancelled : turn.cancelled = [] := by
      simp [Turn.cancelled, call, outcome, eq, Outcome.map]
    rw [outcome, eq, expired_eq]
    exact wound.ticks_of_fades ((Fades.expireOwner _ o 0).trans (SameTimers.gc _ o).fades) fired cancelled
  · have cancelled : turn.cancelled = [expired.timers[slot]] := by
      simp only [Turn.cancelled, call, outcome, eq, Outcome.map, found, ← expired_eq, timer]
    have fades : Fades turn.env.clock turn.before (turn.before.setOwner o expired) :=
      expired_eq ▸ Fades.expireOwner _ o 0
    have live : Live (turn.before.setOwner o expired) o slot expired.timers[slot] :=
      ⟨by simp, ownerTimer_some timer⟩
    have before := fades.wound wound
    have freed : ∀ i u, Live (ledgerOwnerGc (turn.before.setOwner o { expired with
        timers := expired.timers.set slot { expired.timers[slot] with due := 0 } }) o) o i u ↔
        Live (turn.before.setOwner o expired) o i u ∧ u ∉ [expired.timers[slot]] := by
      intro i u
      rw [Live, (SameTimers.gc _ o).timers o]
      simp only [setOwner, Function.update_self, List.mem_singleton]
      by_cases here : i = slot
      · subst here
        simp only [Fin.getElem_fin, Vector.getElem_set_self, Live, Function.update_self]
        constructor
        · rintro ⟨rfl, some⟩
          exact absurd rfl some
        · rintro ⟨⟨rfl, _⟩, other⟩
          exact absurd rfl other
      · have apart : (slot : Nat) ≠ i := fun same => here (Fin.ext same.symm)
        simp only [Fin.getElem_fin, Vector.getElem_set_ne _ _ apart, Live, Function.update_self]
        refine ⟨fun old => ⟨old, ?_⟩, fun old => old.1⟩
        rintro rfl
        have old : Live (turn.before.setOwner o expired) o i expired.timers[slot] := by
          simpa [Live] using old
        exact here (before.distinct o i _ o slot _ old live rfl).2
    rw [outcome, eq]
    have collected := SameTimers.gc (turn.before.setOwner o { expired with
      timers := expired.timers.set slot { expired.timers[slot] with due := 0 } }) o
    refine wound.ticks_settle fades o _ (by rw [fired, cancelled, List.nil_append]) ?_ (by simp)
      freed ?_ (by simp [fired]) ?_ collected.serials
    · intro u inside
      obtain rfl := List.mem_singleton.mp inside
      exact ⟨slot, live⟩
    · rw [cancelled]
      simpa using later
    · intro p other
      simp only [Outcome.map]
      rw [collected.timers p]
      simp [other]

theorem Wound.serials_nodup {l : Ledger} (wound : Wound l) (o : OwnerRef) (now : Nat) (take : Bool) :
    (((l.owner o).timers.toList.filter (Timer.shown now take)).map Timer.serial).Nodup := by
  have apart : (l.owner o).timers.toList.Pairwise fun t u =>
      t.due ≠ 0 → u.due ≠ 0 → t.serial ≠ u.serial := by
    rw [List.pairwise_iff_getElem]
    intro i j first second less some also same
    have bound : j < ledgerTimers := by simpa using second
    have i_live : Live l o ⟨i, less.trans bound⟩ (l.owner o).timers.toList[i] :=
      ⟨by simp, some⟩
    have j_live : Live l o ⟨j, bound⟩ (l.owner o).timers.toList[j] := ⟨by simp, also⟩
    have eq := (wound.distinct o _ _ o _ _ i_live j_live same).2
    exact less.ne (Fin.mk.inj_iff.mp eq)
  rw [List.Nodup, List.pairwise_map]
  refine (apart.filter _).imp_of_mem fun {t u} first second differ => ?_
  have some := (List.mem_filter.mp first).2
  have also := (List.mem_filter.mp second).2
  simp only [Timer.shown, Bool.and_eq_true, bne_iff_ne, ne_eq] at some also
  exact differ some.1 also.1

/-! ## The loop over an owner's records -/

/-- The ledger `m` is `l` with the records `new` marked as told. -/
structure Marked (ids : List HexId) (l m : Ledger) (new : List TaskRef) : Prop where
  task : ∀ t, m.task t = { l.task t with told := (l.task t).told || decide (t ∈ new) }
  ended : ∀ t ∈ new, l.hasEnded t = true
  unread : ids = [] → ∀ t ∈ new, (l.task t).told = false
  next : m.nextTask = l.nextTask

theorem Marked.nil (ids : List HexId) (l : Ledger) : Marked ids l l [] :=
  ⟨fun _ => by simp, by simp, by simp, rfl⟩

theorem Marked.cons {ids : List HexId} {t : TaskRef} {new : List TaskRef}
    (marked : Marked ids (l.setTask t { l.task t with told := true }) m new) (other : t ∉ new)
    (ended : l.hasEnded t = true) (unread : ids = [] → (l.task t).told = false) : Marked ids l m (t :: new) := by
  have apart : ∀ u ∈ new, u ≠ t := fun u inside same => other (same ▸ inside)
  refine ⟨fun u => ?_, ?_, fun none => ?_, marked.next⟩
  · rw [marked.task u]
    by_cases same : u = t <;> simp [same]
  · refine List.forall_mem_cons.mpr ⟨ended, fun u inside => ?_⟩
    simpa [hasEnded, apart u inside] using marked.ended u inside
  · refine List.forall_mem_cons.mpr ⟨unread none, fun u inside => ?_⟩
    simpa [apart u inside] using marked.unread none u inside

theorem tellFrom_marked (ids : List HexId) (walk : List TaskRef) (distinct : walk.Nodup) (l : Ledger) (out : Look) :
    ∃ new, new.Sublist walk ∧ (ledgerOwnerTellFrom ids walk l out).2 = { out with tasks := out.tasks ++ new } ∧
      Marked ids l (ledgerOwnerTellFrom ids walk l out).1 new := by
  induction walk generalizing l out with
  | nil => exact ⟨[], List.Sublist.refl _, by simp [ledgerOwnerTellFrom], Marked.nil ids l⟩
  | cons t walk ih =>
    obtain ⟨fresh, distinct⟩ := List.nodup_cons.mp distinct
    simp only [ledgerOwnerTellFrom]
    split
    · exact ⟨[], List.nil_sublist _, by simp, Marked.nil ids l⟩
    split
    · obtain ⟨new, sub, look, marked⟩ := ih distinct l out
      exact ⟨new, sub.cons t, look, marked⟩
    rename_i listed
    have ended : l.hasEnded t = true := by
      cases status : l.hasEnded t with
      | true => rfl
      | false => simp only [status, Bool.not_false, Bool.true_or, not_true_eq_false] at listed
    split
    · -- A record read before stays as it is.
      rename_i read
      simp only [Bool.and_eq_true] at read
      have same : l.setTask t { l.task t with told := true } = l := by
        have value : { l.task t with told := true } = l.task t := by
          rw [← read.1]
        simp [value]
      obtain ⟨new, sub, look, marked⟩ := ih distinct l out
      rw [same]
      exact ⟨new, sub.cons t, look, marked⟩
    · rename_i unread
      obtain ⟨new, sub, look, marked⟩ := ih distinct
        (l.setTask t { l.task t with told := true }) { out with tasks := out.tasks ++ [t] }
      refine ⟨t :: new, sub.cons_cons t, ?_, marked.cons (fun also => fresh (sub.subset also)) ended fun none => ?_⟩
      · rw [look]
        simp
      · simpa [none] using unread

/-! ## A wait is told -/

/-- What a tell returns, and the ledger after it. -/
theorem tell_cases (l : Ledger) (env : Env) (w : WaitRef) (ids : List HexId) (sound : Sound l) :
    (l.wait w).owner = none ∧ ledgerTell l env w ids = { ledger := l, value := none, gone := [], hits := [] } ∨
      ∃ o new m, (l.wait w).owner = some o ∧ new.Sublist (l.owner o).records ∧
        Marked ids (l.setOwner o (ledgerOwnerTimers (l.owner o) (env.clock 0) true ledgerLookEmpty).1) m new ∧
        SameTimers (l.setOwner o (ledgerOwnerTimers (l.owner o) (env.clock 0) true ledgerLookEmpty).1) m ∧
        ledgerTell l env w ids =
          { ledger := m
            value := some { (ledgerOwnerTimers (l.owner o) (env.clock 0) true
              ledgerLookEmpty).2 with tasks := new }
            gone := [], hits := [] } := by
  simp only [ledgerTell]
  split
  · rename_i nobody
    exact .inl ⟨nobody, rfl⟩
  · rename_i o owner
    have distinct := sound.accounts.records.records_nodup o
    have empty : (ledgerOwnerTimers (l.owner o) (env.clock 0) true ledgerLookEmpty).2.tasks = [] :=
      tasks_fold _ _ _ ledgerLookEmpty
    obtain ⟨new, sub, look, marked⟩ := tellFrom_marked ids (l.owner o).records distinct
      (l.setOwner o (ledgerOwnerTimers (l.owner o) (env.clock 0) true ledgerLookEmpty).1)
      (ledgerOwnerTimers (l.owner o) (env.clock 0) true ledgerLookEmpty).2
    have walk : ((l.setOwner o (ledgerOwnerTimers (l.owner o) (env.clock 0) true
        ledgerLookEmpty).1).owner o).records = (l.owner o).records := by
      simp [ledgerOwnerTimers]
    refine .inr ⟨o, new, _, owner, sub, marked, SameTimers.tellFrom _ _ _ _, ?_⟩
    simp only [ledgerOwnerTell, walk, look, empty, List.nil_append]

theorem Wound.ticks_tell (wound : Wound turn.before) (sound : Sound turn.before)
    {w : WaitRef} {ids : List HexId} (call : turn.call = .tell w ids) : Ticks turn turn.outcome.ledger := by
  have cancelled : turn.cancelled = [] := by simp only [Turn.cancelled, call]
  have outcome : turn.outcome = (ledgerTell turn.before turn.env w ids).map .look := by
    simp only [Turn.outcome, call, ledgerCall]
  obtain ⟨_, eq⟩ | ⟨o, new, m, owner, sub, marked, same, eq⟩ :=
    tell_cases turn.before turn.env w ids sound
  · rw [eq] at outcome
    have fired : turn.fired = [] := by simp [Turn.fired, call, outcome, Outcome.map]
    rw [outcome]
    exact wound.ticks_of_fades (SameTimers.refl _).fades fired cancelled
  · rw [eq] at outcome
    set look := (ledgerOwnerTimers (turn.before.owner o) (turn.env.clock 0) true ledgerLookEmpty).2
    have fired : turn.fired = look.timers := by simp [Turn.fired, call, outcome, Outcome.map]
    have shows : Shows (turn.before.owner o).timers (turn.env.clock 0) true look :=
      shows_timers _ _ _
    have mem_iff : ∀ u, u ∈ look.timers ↔ u ∈ (turn.before.owner o).timers ∧ u.due ≠ 0 ∧ u.due ≤ turn.env.clock 0 := by
      intro u
      rw [shows.timers_perm.mem_iff, List.mem_filter]
      simp [Timer.shown]
    have slot : ∀ i : Fin ledgerTimers, (m.owner o).timers[i] =
        ledgerTimerTaken (turn.env.clock 0) true (turn.before.owner o).timers[i] := by
      intro i
      rw [same.timers o]
      simp [ledgerOwnerTimers]
    rw [outcome]
    refine wound.ticks_settle (SameTimers.refl _).fades o look.timers ?_ ?_ ?_ ?_ ?_ ?_ ?_ same.serials
    · rw [fired, cancelled, List.append_nil]
    · intro u inside
      obtain ⟨member, some, _⟩ := (mem_iff u).mp inside
      obtain ⟨i, bound, eq⟩ := Vector.getElem_of_mem member
      exact ⟨⟨i, bound⟩, eq, some⟩
    · exact (shows.timers_perm.map _).nodup_iff.mpr (wound.serials_nodup o _ _)
    · intro i u
      rw [mem_iff, Live, Outcome.map, slot, ledgerTimerTaken]
      have member : (turn.before.owner o).timers[i] ∈ (turn.before.owner o).timers :=
        Vector.getElem_mem i.isLt
      split
      · rename_i taken
        constructor
        · rintro ⟨rfl, some⟩
          exact absurd rfl some
        · rintro ⟨⟨rfl, some⟩, other⟩
          exact absurd ⟨member, some, taken.2.1⟩ other
      · rename_i left
        constructor
        · rintro ⟨rfl, some⟩
          exact ⟨⟨rfl, some⟩, fun fires => left ⟨fires.2.1, fires.2.2, rfl⟩⟩
        · exact fun old => old.1
    · simp [cancelled]
    · exact fun u inside => ((mem_iff u).mp (fired ▸ inside)).2
    · intro p other
      simp only [Outcome.map]
      rw [same.timers p]
      simp [other]

/-- Every call of a run ticks. -/
theorem Wound.ticks (wound : Wound turn.before) (sound : Sound turn.before) : Ticks turn turn.outcome.ledger := by
  obtain ⟨before, env, call⟩ := turn
  cases call with
  | open_ key kind random called =>
    cases random with
    | error e => exact wound.ticks_of_fades (SameTimers.refl _).fades rfl rfl
    | ok id => exact wound.ticks_of_fades (sound.fades_restore _ _ _ _ _ _ _ _ _) rfl rfl
  | restore => exact wound.ticks_of_fades (sound.fades_restore _ _ _ _ _ _ _ _ _) rfl rfl
  | reserve | waitHeard => exact wound.ticks_of_fades (SameTimers.fades ⟨fun _ => rfl, rfl⟩) rfl rfl
  | write t len =>
    refine wound.ticks_of_fades (SameTimers.fades ?_) rfl rfl
    simp only [Turn.outcome, ledgerCall, Outcome.quiet, ledgerTaskWrite]
    split
    · exact SameTimers.refl _
    · exact ⟨fun _ => rfl, rfl⟩
  | end_ t status => exact wound.ticks_of_fades (SameTimers.end_ _ _ _ _).fades rfl rfl
  | find key id => exact wound.ticks_of_fades (SameTimers.sweep _ _ _ _).fades rfl rfl
  | remove key id =>
    refine wound.ticks_of_fades (SameTimers.fades ?_) rfl rfl
    simp only [Turn.outcome, ledgerCall, Outcome.map]
    obtain ⟨e, eq⟩ | ⟨t, _, _, eq⟩ := remove_cases before key id
    · rw [eq]
      exact SameTimers.refl _
    · rw [eq]
      exact SameTimers.drop _ _ _
  | timerSet key due note => exact wound.ticks_timerSet sound rfl
  | timerCancel key id => exact wound.ticks_timerCancel rfl
  | waitEnter key loop => exact wound.ticks_of_fades (sound.fades_waitEnter _ _ _) rfl rfl
  | waitLeave w =>
    refine wound.ticks_of_fades (SameTimers.fades ?_) rfl rfl
    exact (SameTimers.waitUnlink before w).trans ⟨fun _ => rfl, rfl⟩
  | list key => exact wound.ticks_of_fades (fades_list _ _ _) rfl rfl
  | tell w ids => exact wound.ticks_tell sound rfl

/-! ## Records over runs -/

/-- No record is marked as told from `l` to `m`, and none loses its mark. -/
structure SameTold (l m : Ledger) : Prop where
  none : ∀ t, (m.task t).told = true → (l.task t).told = true
  stays : ∀ t, t < l.nextTask → (l.task t).told = true → (m.task t).told = true
  grows : l.nextTask ≤ m.nextTask

theorem SameTold.of_eq (told : ∀ t, (m.task t).told = (l.task t).told)
    (next : m.nextTask = l.nextTask) : SameTold l m :=
  ⟨fun t read => told t ▸ read, fun t _ read => (told t).symm ▸ read, next.ge⟩

theorem SameTold.trans {l m k : Ledger} (first : SameTold l m) (second : SameTold m k) : SameTold l k :=
  ⟨fun t read => first.none t (second.none t read),
    fun t old read => second.stays t (old.trans_le first.grows) (first.stays t old read),
    first.grows.trans second.grows⟩

theorem Less.told (less : Less l m) : SameTold l m :=
  SameTold.of_eq (fun t => by rw [less.task t]) less.next

theorem Quiet.told (quiet : Quiet l m) : SameTold l m :=
  SameTold.of_eq (fun t => (quiet.task t).2.2.1) quiet.next

theorem SameTold.link (l : Ledger) {task : Task} (unread : task.told = false) (o : OwnerRef) :
    SameTold l (ledgerLink l task o) := by
  refine ⟨fun t read => ?_, fun t old read => ?_, Nat.le_succ _⟩
  · by_cases same : t = l.nextTask
    · simp [ledgerLink, same, unread] at read
    · simpa [ledgerLink, same] using read
  · simpa [ledgerLink, old.ne] using read

theorem SameTold.end_ (l : Ledger) (env : Env) (t : TaskRef) (status : Status) :
    SameTold l (ledgerEnd l env t status).ledger := by
  obtain ⟨_, eq⟩ | ⟨o, _, _, _, eq⟩ := end_cases l env t status
  · rw [eq]
    exact (Less.refl l).told
  · rw [eq]
    refine SameTold.trans ?_ (Less.sweep _ _ _ _).told
    refine SameTold.of_eq (fun u => ?_) rfl
    by_cases same : u = t <;> simp [endWoken, ledgerOwnerWake, published, taskEnded, same]

theorem Sound.told_restore {l : Ledger} (sound : Sound l) (env : Env) (key : UInt64) (kind : Kind)
    (id : HexId) (created ended : Nat) (status : Status) (result : Nat) (called : Bool) :
    SameTold l (ledgerRestore l env key kind id created ended status result called).ledger := by
  have swept := (Less.sweep l none true (env.clock 1)).told
  obtain ⟨e, eq⟩ | ⟨m, e, same, eq⟩ | ⟨f, k, o, chain, restored, _, ⟨_, eq⟩ | ⟨_, eq⟩⟩ :=
    restore_outcomes sound env key kind id created ended status result called
  · rw [eq]
    exact (Less.refl l).told
  · rw [eq]
    exact swept.trans same.less.told
  · rw [eq]
    exact restored.less.told.trans (SameTold.link k rfl o)
  · rw [eq, restoreEnded_eq]
    have linked : SameTold l (restoreWoken k (restoredTask env kind id created ended status result) o).1 :=
      restored.less.told.trans ((SameTold.link k rfl o).trans (SameTold.of_eq (fun _ => rfl) rfl))
    exact linked.trans (Less.sweep _ _ _ _).told

/-- What a turn does to the marks of the records. -/
structure Reads (turn : Turn) (m : Ledger) : Prop where
  flips : ∀ t, (turn.before.task t).told = false → (m.task t).told = true → t ∈ turn.tells
  marks : ∀ t ∈ turn.tells, (m.task t).told = true ∧ t < turn.before.nextTask
  ended : ∀ t ∈ turn.tells, turn.before.hasEnded t = true
  unread : ∀ t ∈ turn.tellsUnnamed, t ∈ turn.tells ∧ (turn.before.task t).told = false
  nodup : turn.tellsUnnamed.Nodup
  stays : ∀ t, t < turn.before.nextTask → (turn.before.task t).told = true →
    (m.task t).told = true
  grows : turn.before.nextTask ≤ m.nextTask

theorem SameTold.reads {m : Ledger} (same : SameTold turn.before m) (tells : turn.tells = []) : Reads turn m := by
  have unnamed : turn.tellsUnnamed = [] := by
    unfold Turn.tellsUnnamed
    split
    · exact tells
    · rfl
  refine ⟨fun t unread read => ?_, by simp [tells], by simp [tells], by simp [unnamed],
    by simp [unnamed], same.stays, same.grows⟩
  simp [same.none t read] at unread

theorem Sound.reads_tell (sound : Sound turn.before) {w : WaitRef}
    {ids : List HexId} (call : turn.call = .tell w ids) : Reads turn turn.outcome.ledger := by
  have outcome : turn.outcome = (ledgerTell turn.before turn.env w ids).map .look := by
    simp only [Turn.outcome, call, ledgerCall]
  obtain ⟨_, eq⟩ | ⟨o, new, m, owner, sub, marked, same, eq⟩ :=
    tell_cases turn.before turn.env w ids sound
  · rw [eq] at outcome
    have tells : turn.tells = [] := by simp [Turn.tells, call, outcome, Outcome.map]
    rw [outcome]
    exact (Less.refl _).told.reads tells
  · rw [eq] at outcome
    have tells : turn.tells = new := by simp [Turn.tells, call, outcome, Outcome.map]
    have distinct : new.Nodup := sub.nodup (sound.accounts.records.records_nodup o)
    have old : ∀ t ∈ new, t < turn.before.nextTask := fun t inside =>
      sound.accounts.records.old t (sound.accounts.mem_of_records (sub.subset inside)).2
    have unnamed : ∀ t ∈ turn.tellsUnnamed, ids = [] ∧ t ∈ new := by
      intro t inside
      simp only [Turn.tellsUnnamed, call] at inside
      split at inside
      · rename_i none
        exact ⟨(Call.tell.inj none).2, tells ▸ inside⟩
      · simp at inside
    have mark : ∀ t, (m.task t).told = ((turn.before.task t).told || decide (t ∈ new)) := by
      intro t
      rw [marked.task t]
      simp
    rw [outcome]
    refine ⟨fun t unread read => ?_, fun t inside => ⟨?_, old t (tells ▸ inside)⟩,
      fun t inside => ?_, fun t inside => ⟨tells ▸ (unnamed t inside).2, ?_⟩, ?_, fun t _ read => ?_, marked.next.ge⟩
    · simp only [Outcome.map, mark t, unread, Bool.false_or, decide_eq_true_eq] at read
      exact tells ▸ read
    · simp [Outcome.map, mark t, tells ▸ inside]
    · exact marked.ended t (tells ▸ inside)
    · exact marked.unread (unnamed t inside).1 t (unnamed t inside).2
    · unfold Turn.tellsUnnamed
      split
      · rw [tells]
        exact distinct
      · exact List.nodup_nil
    · simp [Outcome.map, mark t, read]

/-- Every call of a run marks what it tells of, and nothing else. -/
theorem Sound.reads (sound : Sound turn.before) : Reads turn turn.outcome.ledger := by
  obtain ⟨before, env, call⟩ := turn
  cases call with
  | open_ key kind random called =>
    cases random with
    | error e => exact (Less.refl _).told.reads rfl
    | ok id => exact (sound.told_restore _ _ _ _ _ _ _ _ _).reads rfl
  | restore => exact (sound.told_restore _ _ _ _ _ _ _ _ _).reads rfl
  | reserve t len =>
    refine SameTold.reads (SameTold.of_eq (fun u => ?_) rfl) rfl
    by_cases same : u = t <;> simp [Turn.outcome, ledgerCall, Outcome.quiet, ledgerTaskReserve, same]
  | write t len =>
    refine SameTold.reads ?_ rfl
    simp only [Turn.outcome, ledgerCall, Outcome.quiet, ledgerTaskWrite]
    split
    · exact (Less.refl _).told
    · refine SameTold.of_eq (fun u => ?_) rfl
      by_cases same : u = t <;> simp [same]
  | end_ t status => exact (SameTold.end_ _ _ _ _).reads rfl
  | find key id => exact (Less.sweep _ _ _ _).told.reads rfl
  | remove key id =>
    refine SameTold.reads ?_ rfl
    simp only [Turn.outcome, ledgerCall, Outcome.map]
    obtain ⟨e, eq⟩ | ⟨t, _, _, eq⟩ := remove_cases before key id
    · rw [eq]
      exact (Less.refl _).told
    · rw [eq]
      exact (Less.drop _ _ _).told
  | timerSet key due note => exact (quiet_timerSet sound env key due.toNat note).1.told.reads rfl
  | timerCancel key id => exact (quiet_timerCancel before env key id).1.told.reads rfl
  | waitEnter key loop => exact (quiet_waitEnter sound env key loop).1.told.reads rfl
  | waitHeard w =>
    have heard : SameTold before (ledgerWaitHeard before w) := SameTold.of_eq (fun _ => rfl) rfl
    exact heard.reads rfl
  | waitLeave w => exact (quiet_waitLeave before w).told.reads rfl
  | list key =>
    exact ((Less.sweep _ _ _ _).told.trans (quiet_list before env key).1.told).reads rfl
  | tell w ids => exact sound.reads_tell rfl

/-! ## Telling over runs -/

/-- What a look shows of an owner's timers: sorted by number, with the time of the first that has
not fired, or `UINT64_MAX`. -/
structure Orderly (turn : Turn) (o : OwnerRef) (look : Look) : Prop where
  sorted : look.timers.Pairwise fun t u => t.id ≤ u.id
  due_le : ∀ i u, Live turn.before o i u → turn.env.clock 0 < u.due → look.due ≤ u.due
  due_eq : (∃ i u, Live turn.before o i u ∧ turn.env.clock 0 < u.due ∧ look.due = u.due) ∨
    (∀ i u, Live turn.before o i u → u.due ≤ turn.env.clock 0) ∧ look.due = uint64Max

/-- What one turn of a run tells, and what it leaves untold. -/
structure Tells (turn : Turn) : Prop where
  fired : ∀ u ∈ turn.fired, u.due ≠ 0 ∧ u.due ≤ turn.env.clock 0
  /-- A fired timer leaves its owner only as it is told of, or expires. -/
  leaves : ∀ o i u, Live turn.before o i u → u.due ≤ turn.env.clock 0 →
    Live turn.outcome.ledger o i u ∨ u ∈ turn.fired ∨
      ∃ reading, u.due + ledgerKeep ≤ turn.env.clock reading
  ended : ∀ t ∈ turn.tells, turn.before.hasEnded t = true
  /-- A record is marked as told only by the call that returns it. -/
  marked : ∀ t, (turn.before.task t).told = false → (turn.outcome.ledger.task t).told = true →
    t ∈ turn.tells
  looks : ∀ o look, turn.Looks o look → Orderly turn o look

/-- What a run tells, it tells once. -/
structure ToldOnce (turns : List Turn) : Prop where
  timers : ((turns.flatMap Turn.fired).map Timer.serial).Nodup
  cancelled : ∀ front turn back, turns = front ++ turn :: back → ∀ u ∈ turn.cancelled,
    ∀ v ∈ back.flatMap Turn.fired, v.serial ≠ u.serial
  records : (turns.flatMap Turn.tellsUnnamed).Nodup
  afterwards : ∀ front turn back, turns = front ++ turn :: back → ∀ t ∈ turn.tells,
    t ∉ back.flatMap Turn.tellsUnnamed
  turns : ∀ turn ∈ turns, Tells turn

theorem wound_create : Wound ledgerCreate := by
  have none : ∀ o i u, ¬Live ledgerCreate o i u := by
    rintro o i u ⟨rfl, some⟩
    simp [ledgerCreate, Owner.new, Timer.none] at some
  exact ⟨fun o i u p j v live => absurd live (none o i u),
    fun o i u live => absurd live (none o i u), fun o i u live => absurd live (none o i u)⟩

/-- The ledger of a run, with its timers wound. -/
theorem wound_step (held : Sound l ∧ Wound l) (step : LedgerStep l turn m) : Sound m ∧ Wound m := by
  obtain ⟨rfl, allowed, rfl⟩ := step
  exact ⟨held.1.call turn.env allowed, (held.2.ticks held.1).wound⟩

theorem orderly_of_shows (wound : Wound turn.before) {o : OwnerRef} {take : Bool}
    {timers : Vector Timer ledgerTimers} {look : Look} (shows : Shows timers (turn.env.clock 0) take look)
    (slots : ∀ u : Timer, u.pending (turn.env.clock 0) →
      (u ∈ timers ↔ ∃ i, Live turn.before o i u)) : Orderly turn o look := by
  have pending : ∀ i u, Live turn.before o i u → turn.env.clock 0 < u.due →
      u.pending (turn.env.clock 0) ∧ u ∈ timers := by
    intro i u live later
    have waits : u.pending (turn.env.clock 0) := by simp [Timer.pending, live.2, later]
    exact ⟨waits, (slots u waits).mpr ⟨i, live⟩⟩
  refine ⟨shows.sorted, fun i u live later => ?_, ?_⟩
  · obtain ⟨waits, inside⟩ := pending i u live later
    exact shows.due_le u inside waits
  · rcases shows.due_eq with ⟨u, inside, waits, eq⟩ | none
    · obtain ⟨i, live⟩ := (slots u waits).mp inside
      simp only [Timer.pending, Bool.and_eq_true, decide_eq_true_eq] at waits
      exact .inl ⟨i, u, live, waits.2, eq⟩
    · by_cases some : ∃ i u, Live turn.before o i u ∧ turn.env.clock 0 < u.due
      · obtain ⟨i, u, live, later⟩ := some
        obtain ⟨waits, inside⟩ := pending i u live later
        have below := shows.due_le u inside waits
        exact .inl ⟨i, u, live, later, le_antisymm below (none ▸ wound.due_le o i u live)⟩
      · refine .inr ⟨fun i u live => ?_, none⟩
        by_contra later
        exact some ⟨i, u, live, not_le.mp later⟩

/-- Expiry leaves the timers that have not fired. -/
theorem mem_expire_pending {o : Owner} {now : Nat} {u : Timer} (waits : u.pending now) :
    u ∈ (ledgerOwnerExpire o now).timers ↔ u ∈ o.timers := by
  simp only [Timer.pending, Bool.and_eq_true, bne_iff_ne, ne_eq, decide_eq_true_eq] at waits
  simp only [ledgerOwnerExpire, Vector.mem_map]
  constructor
  · rintro ⟨t, inside, eq⟩
    split at eq
    · exact absurd (eq ▸ rfl) waits.1
    · exact eq ▸ inside
  · intro inside
    have young : timerExpired now u.due = false := by
      simp only [timerExpired, Bool.and_eq_false_iff, decide_eq_false_iff_not]
      exact .inl (by omega)
    exact ⟨u, inside, by simp [young]⟩

theorem mem_timers_iff {l : Ledger} {o : OwnerRef} {u : Timer} (some : u.due ≠ 0) :
    u ∈ (l.owner o).timers ↔ ∃ i, Live l o i u := by
  constructor
  · intro inside
    obtain ⟨i, bound, eq⟩ := Vector.getElem_of_mem inside
    exact ⟨⟨i, bound⟩, eq, some⟩
  · rintro ⟨i, rfl, _⟩
    exact Vector.getElem_mem i.isLt

theorem Wound.orderly (wound : Wound turn.before) (sound : Sound turn.before) {o : OwnerRef} {look : Look}
    (looks : turn.Looks o look) : Orderly turn o look := by
  unfold Turn.Looks at looks
  have some : ∀ u : Timer, u.pending (turn.env.clock 0) → u.due ≠ 0 := by
    intro u waits
    simp only [Timer.pending, Bool.and_eq_true, bne_iff_ne, ne_eq] at waits
    exact waits.1
  split at looks
  · rename_i w ids call
    obtain ⟨value, owner⟩ := looks
    have shows := shows_timers (turn.before.owner o) (turn.env.clock 0) true
    refine orderly_of_shows wound (shows.congr ?_) fun u waits =>
      mem_timers_iff (some u waits)
    obtain ⟨nobody, _⟩ | ⟨p, new, m, owner', _, _, _, eq⟩ :=
      tell_cases turn.before turn.env w ids sound
    · rw [owner] at nobody
      exact absurd nobody (by simp)
    · obtain rfl : p = o := Option.some.inj (owner'.symm.trans owner)
      simp only [Turn.outcome, call, ledgerCall, Outcome.map, eq, Reply.look.injEq, Option.some.injEq] at value
      rw [← value]
      exact ⟨rfl, rfl⟩
  · rename_i key call
    obtain ⟨value, found⟩ := looks
    have timers := (SameTimers.sweep turn.before none false (turn.env.clock 1)).timers o
    generalize swept_eq : ledgerSweep turn.before none false (turn.env.clock 1) = swept at *
    have shows := shows_timers (ledgerOwnerExpire (swept.1.owner o) (turn.env.clock 0)) (turn.env.clock 0) false
    have same : look.timers = (ledgerOwnerTimers (ledgerOwnerExpire (swept.1.owner o)
          (turn.env.clock 0)) (turn.env.clock 0) false ledgerLookEmpty).2.timers ∧
        look.due = (ledgerOwnerTimers (ledgerOwnerExpire (swept.1.owner o)
          (turn.env.clock 0)) (turn.env.clock 0) false ledgerLookEmpty).2.due := by
      simp only [Turn.outcome, call, ledgerCall, Outcome.map, ledgerList, swept_eq, found,
        Reply.look.injEq, Option.some.injEq] at value
      rw [← value]
      exact ⟨rfl, rfl⟩
    refine orderly_of_shows wound (shows.congr same) fun u waits => ?_
    rw [mem_expire_pending waits, timers]
    exact mem_timers_iff (some u waits)
  · exact absurd looks id

theorem Wound.tells (wound : Wound turn.before) (sound : Sound turn.before) : Tells turn := by
  have ticks := wound.ticks sound
  have reads := Sound.reads sound
  refine ⟨ticks.due, fun o i u live fired => ?_, reads.ended, reads.flips,
    fun o look looks => wound.orderly sound looks⟩
  rcases ticks.leaves o i u live with still | told | ⟨_, later⟩ | ⟨reading, old⟩
  · exact .inl still
  · exact .inr (.inl told)
  · exact absurd later fired.not_gt
  · refine .inr (.inr ⟨reading, ?_⟩)
    simp only [timerExpired, Bool.and_eq_true, decide_eq_true_eq] at old
    omega

/-- What the ledger of a run keeps for the telling. -/
def Telling (l : Ledger) : Prop := Sound l ∧ Wound l

/-- Timers as tokens: one is spent once no slot holds it any more. -/
theorem timer_tokens : Tokens LedgerStep Telling (fun turn => (turn.fired ++ turn.cancelled).map Timer.serial)
    (fun l serial => serial < l.serials ∧ ∀ o i u, Live l o i u → u.serial ≠ serial) := by
  have ticks : ∀ l turn m, Telling l → LedgerStep l turn m → turn.before = l ∧ Ticks turn m := by
    rintro l turn m held ⟨rfl, _, rfl⟩
    exact ⟨rfl, held.2.ticks held.1⟩
  refine ⟨fun l turn m held step => wound_step held step, fun l turn m held step => ?_,
    fun l turn m held step s emitted spent => ?_, fun l turn m held step s emitted => ?_,
    fun l turn m held step s spent => ?_⟩
  · exact (ticks l turn m held step).2.nodup
  · obtain ⟨rfl, ticks⟩ := ticks l turn m held step
    obtain ⟨u, inside, rfl⟩ := List.mem_map.mp emitted
    obtain ⟨_, ⟨o, i, live⟩, _⟩ := ticks.settled u inside
    exact spent.2 o i u live rfl
  · obtain ⟨rfl, ticks⟩ := ticks l turn m held step
    obtain ⟨u, inside, rfl⟩ := List.mem_map.mp emitted
    obtain ⟨old, _, gone⟩ := ticks.settled u inside
    exact ⟨old.trans_le ticks.grows, gone⟩
  · obtain ⟨rfl, ticks⟩ := ticks l turn m held step
    refine ⟨spent.1.trans_le ticks.grows, fun o i u live same => ?_⟩
    rcases ticks.comes o i u live with old | new
    · exact spent.2 o i u old same
    · have bound := spent.1
      omega

/-- Records as tokens: one is spent once it is marked. -/
theorem record_tokens : Tokens LedgerStep Telling Turn.tellsUnnamed
    (fun l t => t < l.nextTask ∧ (l.task t).told = true) := by
  have reads : ∀ l turn m, Telling l → LedgerStep l turn m → turn.before = l ∧ Reads turn m := by
    rintro l turn m held ⟨rfl, _, rfl⟩
    exact ⟨rfl, Sound.reads held.1⟩
  refine ⟨fun l turn m held step => wound_step held step, fun l turn m held step => ?_,
    fun l turn m held step t emitted spent => ?_, fun l turn m held step t emitted => ?_,
    fun l turn m held step t spent => ?_⟩
  · exact (reads l turn m held step).2.nodup
  · obtain ⟨rfl, reads⟩ := reads l turn m held step
    simp [(reads.unread t emitted).2] at spent
  · obtain ⟨rfl, reads⟩ := reads l turn m held step
    obtain ⟨told, old⟩ := reads.marks t (reads.unread t emitted).1
    exact ⟨old.trans_le reads.grows, told⟩
  · obtain ⟨rfl, reads⟩ := reads l turn m held step
    exact ⟨spent.1.trans_le reads.grows, reads.stays t spent.1 spent.2⟩

/-- In every run, each timer and each ended record is told of once, and none is lost untold. -/
theorem told_once {turns : List Turn} {l : Ledger} (run : Trace LedgerStep ledgerCreate turns l) : ToldOnce turns := by
  have start : Telling ledgerCreate := ⟨sound_create, wound_create⟩
  -- Where a turn stands in the run, and what is left of the run after it.
  have at_turn : ∀ front turn back, turns = front ++ turn :: back →
      Telling turn.before ∧ LedgerStep turn.before turn turn.outcome.ledger ∧
        Trace LedgerStep turn.outcome.ledger back l := by
    rintro front turn back rfl
    obtain ⟨k, before, rest⟩ := run.split
    rw [← List.singleton_append] at rest
    obtain ⟨m, one, after⟩ := rest.split
    obtain ⟨rfl, allowed, rfl⟩ := one.of_single
    exact ⟨before.invariant start timer_tokens.keeps, ⟨rfl, allowed, rfl⟩, after⟩
  have timers := (timer_tokens.emitted_nodup run start).1
  refine ⟨?_, fun front turn back eq u cancelled v later same => ?_,
    (record_tokens.emitted_nodup run start).1, fun front turn back eq t told => ?_, fun turn inside => ?_⟩
  · refine timers.sublist ?_
    rw [List.map_flatMap]
    exact List.Sublist.flatMap_right turns fun turn _ =>
      (List.sublist_append_left _ _).map Timer.serial
  · obtain ⟨held, step, after⟩ := at_turn front turn back eq
    have spent := timer_tokens.spends _ _ _ held step u.serial (List.mem_map_of_mem (List.mem_append_right _ cancelled))
    have absent := (timer_tokens.not_emitted after (timer_tokens.keeps _ _ _ held step) spent).1
    refine absent ?_
    obtain ⟨e, member, fired⟩ := List.mem_flatMap.mp later
    exact List.mem_flatMap.mpr ⟨e, member, same ▸ List.mem_map_of_mem (List.mem_append_left _ fired)⟩
  · obtain ⟨held, step, after⟩ := at_turn front turn back eq
    obtain ⟨marked, old⟩ := (Sound.reads held.1).marks t told
    exact (record_tokens.not_emitted after (timer_tokens.keeps _ _ _ held step)
      ⟨old.trans_le (Sound.reads held.1).grows, marked⟩).1
  · obtain ⟨front, back, eq⟩ := List.append_of_mem inside
    obtain ⟨held, _, _⟩ := at_turn front turn back eq
    exact held.2.tells held.1

/-- A wait hears of a timer and of a job that ended, and then of nothing. -/
theorem told_once_twice :
    let entered := (ledgerWaitEnter ledgerCreate (.steady 1) 7 0).ledger
    let opened := (ledgerOpen entered (.steady 1) 7 .job (.ok "a") true).ledger
    let ended := (ledgerEnd opened (.steady 2) 0 .completed).ledger
    let set := (ledgerTimerSet ended (.steady 2) 7 3 []).ledger
    let first : Turn := ⟨set, .steady 4, .tell 0 []⟩
    let second : Turn := ⟨first.outcome.ledger, .steady 5, .tell 0 []⟩
    ToldOnce [⟨ledgerCreate, .steady 1, .waitEnter 7 0⟩, ⟨entered, .steady 1, .open_ 7 .job (.ok "a") true⟩,
        ⟨opened, .steady 2, .end_ 0 .completed⟩, ⟨ended, .steady 2, .timerSet 7 3 []⟩, first, second] ∧
      first.tells = [0] ∧ first.fired.map Timer.id = [1] ∧ second.tells = [] ∧
      second.fired = [] := by
  intro entered opened ended set first second
  have run : Trace LedgerStep ledgerCreate [⟨ledgerCreate, .steady 1, .waitEnter 7 0⟩,
      ⟨entered, .steady 1, .open_ 7 .job (.ok "a") true⟩,
      ⟨opened, .steady 2, .end_ 0 .completed⟩, ⟨ended, .steady 2, .timerSet 7 3 []⟩,
      first, second] second.outcome.ledger :=
    .snoc (.snoc (.snoc (.snoc (.snoc (.snoc .nil ⟨rfl, trivial, rfl⟩) ⟨rfl, trivial, rfl⟩)
      ⟨rfl, trivial, rfl⟩) ⟨rfl, trivial, rfl⟩) ⟨rfl, trivial, rfl⟩) ⟨rfl, trivial, rfl⟩
  exact ⟨told_once run, by decide +kernel, by decide +kernel, by decide +kernel, by decide +kernel⟩

end Ledger

end Askai
