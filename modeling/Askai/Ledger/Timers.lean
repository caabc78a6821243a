import Askai.Ledger.Runs

/-!
# Timers

What each call does to the slots of the owners' timers.  A timer that is set stays in its slot
until a call tells of it, cancels it, or finds that it expired.
-/

namespace Askai

open Library

/-! ## What a look shows -/

/-- The slot's timer goes into the look. -/
def Timer.shown (now : Nat) (take : Bool) (t : Timer) : Bool :=
  t.due != 0 && (t.due ≤ now || !take)

/-- The slot's timer has not fired. -/
def Timer.pending (now : Nat) (t : Timer) : Bool :=
  t.due != 0 && now < t.due

theorem ledgerOwnerTimersOne_eq (now : Nat) (take : Bool) (out : Look) (t : Timer) :
    ledgerOwnerTimersOne now take out t =
      { out with
        timers := if t.shown now take then insertBack (fun u => t.id < u.id) t out.timers
          else out.timers
        due := if t.pending now then min t.due out.due else out.due } := by
  unfold ledgerOwnerTimersOne Timer.shown Timer.pending
  by_cases free : t.due = 0
  · simp [free]
  · have least : (if t.due < out.due then t.due else out.due) = min t.due out.due := by
      rw [min_def]
      split <;> split <;> omega
    by_cases fired : t.due ≤ now
    · cases take <;> simp [free, fired, ledgerLookTimer]
    · have later : now < t.due := not_le.mp fired
      cases take <;> simp [free, fired, later, ledgerLookTimer] <;> exact least

theorem shown_fold (now : Nat) (take : Bool) (slots : List Timer) (out : Look) :
    (slots.foldl (ledgerOwnerTimersOne now take) out).timers.Perm
      (slots.filter (Timer.shown now take) ++ out.timers) := by
  induction slots generalizing out with
  | nil => exact List.Perm.refl _
  | cons t slots ih =>
    rw [List.foldl_cons, ledgerOwnerTimersOne_eq]
    refine (ih _).trans ?_
    simp only [List.filter_cons]
    split
    · refine (List.Perm.append_left _ (insertBack_perm _ t out.timers)).trans ?_
      exact List.perm_middle
    · exact List.Perm.refl _

theorem sorted_fold (now : Nat) (take : Bool) (slots : List Timer) (out : Look)
    (sorted : out.timers.Pairwise fun t u => t.id ≤ u.id) :
    (slots.foldl (ledgerOwnerTimersOne now take) out).timers.Pairwise fun t u => t.id ≤ u.id := by
  induction slots generalizing out with
  | nil => exact sorted
  | cons t slots ih =>
    rw [List.foldl_cons, ledgerOwnerTimersOne_eq]
    refine ih _ ?_
    dsimp only
    split
    · refine pairwise_insertBack (fun _ _ _ => le_trans) (fun u after => ?_) (fun u stopped => ?_) sorted
      · exact (decide_eq_true_eq.mp after).le
      · exact not_lt.mp fun later => stopped (decide_eq_true later)
    · exact sorted

theorem due_fold (now : Nat) (take : Bool) (slots : List Timer) (out : Look) :
    (slots.foldl (ledgerOwnerTimersOne now take) out).due ≤ out.due ∧
      (∀ t ∈ slots, t.pending now → (slots.foldl (ledgerOwnerTimersOne now take) out).due ≤ t.due) ∧
      ((slots.foldl (ledgerOwnerTimersOne now take) out).due = out.due ∨ ∃ t ∈ slots, t.pending now ∧
          (slots.foldl (ledgerOwnerTimersOne now take) out).due = t.due) := by
  induction slots generalizing out with
  | nil => simp
  | cons t slots ih =>
    rw [List.foldl_cons]
    obtain ⟨below, least, attained⟩ := ih (ledgerOwnerTimersOne now take out t)
    have step : (ledgerOwnerTimersOne now take out t).due = if t.pending now then min t.due out.due else out.due := by
      rw [ledgerOwnerTimersOne_eq]
    cases waits : t.pending now with
    | false =>
      rw [waits] at step
      simp only [Bool.false_eq_true, if_false] at step
      rw [step] at below attained
      refine ⟨below, fun u inside pending => ?_, attained.imp id ?_⟩
      · rcases List.mem_cons.mp inside with rfl | tail
        · simp [waits] at pending
        · exact least u tail pending
      · rintro ⟨u, tail, pending, eq⟩
        exact ⟨u, List.mem_cons_of_mem _ tail, pending, eq⟩
    | true =>
      rw [waits, if_pos rfl] at step
      rw [step] at below attained
      refine ⟨below.trans (min_le_right _ _), fun u inside pending => ?_, ?_⟩
      · rcases List.mem_cons.mp inside with rfl | tail
        · exact below.trans (min_le_left _ _)
        · exact least u tail pending
      · rcases attained with same | ⟨u, tail, pending, eq⟩
        · rcases min_choice t.due out.due with mine | old
          · exact .inr ⟨t, List.mem_cons_self, waits, same.trans mine⟩
          · exact .inl (same.trans old)
        · exact .inr ⟨u, List.mem_cons_of_mem _ tail, pending, eq⟩

theorem tasks_fold (now : Nat) (take : Bool) (slots : List Timer) (out : Look) :
    (slots.foldl (ledgerOwnerTimersOne now take) out).tasks = out.tasks := by
  induction slots generalizing out with
  | nil => rfl
  | cons t slots ih => rw [List.foldl_cons, ih, ledgerOwnerTimersOne_eq]

/-- What a look at the slots of an owner shows of them. -/
structure Shows (timers : Vector Timer ledgerTimers) (now : Nat) (take : Bool) (look : Look) :
    Prop where
  timers_perm : look.timers.Perm (timers.toList.filter (Timer.shown now take))
  sorted : look.timers.Pairwise fun t u => t.id ≤ u.id
  due_le : ∀ t ∈ timers, t.pending now → look.due ≤ t.due
  due_eq : (∃ t ∈ timers, t.pending now ∧ look.due = t.due) ∨ look.due = uint64Max

theorem Shows.congr {timers : Vector Timer ledgerTimers} {now : Nat} {take : Bool}
    {look other : Look} (shows : Shows timers now take look)
    (same : other.timers = look.timers ∧ other.due = look.due) : Shows timers now take other := by
  obtain ⟨timers_eq, due_eq⟩ := same
  exact ⟨timers_eq ▸ shows.timers_perm, timers_eq ▸ shows.sorted, due_eq ▸ shows.due_le, due_eq ▸ shows.due_eq⟩

theorem shows_timers (o : Owner) (now : Nat) (take : Bool) :
    Shows o.timers now take (ledgerOwnerTimers o now take ledgerLookEmpty).2 := by
  obtain ⟨_, least, attained⟩ := due_fold now take o.timers.toList ledgerLookEmpty
  have perm := shown_fold now take o.timers.toList ledgerLookEmpty
  refine ⟨?_, sorted_fold now take _ _ (by simp [ledgerLookEmpty]), ?_, ?_⟩
  · rw [show ledgerLookEmpty.timers = [] from rfl, List.append_nil] at perm
    exact perm
  · exact fun t inside pending => least t (by simpa using inside) pending
  · rcases attained with none | ⟨t, inside, pending, eq⟩
    · exact .inr none
    · exact .inl ⟨t, by simpa using inside, pending, eq⟩

namespace Ledger

/-! ## Slots -/

/-- The timer `u` stands in slot `i` of the owner at `o`. -/
def Live (l : Ledger) (o : OwnerRef) (i : Fin ledgerTimers) (u : Timer) : Prop :=
  (getElem (l.owner o).timers i i.isLt) = u ∧ u.due ≠ 0

/-- No slot changes from `l` to `m`. -/
structure SameTimers (l m : Ledger) : Prop where
  timers : ∀ o, (m.owner o).timers = (l.owner o).timers
  serials : m.serials = l.serials

theorem SameTimers.refl (l : Ledger) : SameTimers l l := ⟨fun _ => rfl, rfl⟩

theorem SameTimers.trans {l m k : Ledger} (first : SameTimers l m) (second : SameTimers m k) : SameTimers l k :=
  ⟨fun o => (second.timers o).trans (first.timers o), second.serials.trans first.serials⟩

theorem SameTimers.gc (l : Ledger) (o : OwnerRef) : SameTimers l (ledgerOwnerGc l o) := by
  unfold ledgerOwnerGc
  split <;> exact ⟨fun _ => rfl, rfl⟩

theorem SameTimers.drop (l : Ledger) (t : TaskRef) (gone : List Gone) : SameTimers l (ledgerDrop l t gone).1 := by
  unfold ledgerDrop
  split
  · exact SameTimers.refl l
  · rename_i o _
    refine SameTimers.trans ?_ (SameTimers.gc (ledgerUnlink l t o) o)
    refine ⟨fun p => ?_, rfl⟩
    by_cases here : p = o <;> simp [ledgerUnlink, here]

theorem SameTimers.removes : Removes SameTimers :=
  ⟨SameTimers.refl, SameTimers.trans, SameTimers.drop⟩

theorem SameTimers.sweep (l : Ledger) (keep : Option TaskRef) (room : Bool) (now : Nat) :
    SameTimers l (ledgerSweep l keep room now).1 :=
  SameTimers.removes.sweep l keep room now

theorem SameTimers.link (l : Ledger) (task : Task) (o : OwnerRef) : SameTimers l (ledgerLink l task o) := by
  refine ⟨fun p => ?_, rfl⟩
  by_cases here : p = o <;> simp [ledgerLink, here]

theorem SameTimers.tellFrom (ids : List HexId) (walk : List TaskRef) (l : Ledger) (out : Look) :
    SameTimers l (ledgerOwnerTellFrom ids walk l out).1 := by
  induction walk generalizing l out with
  | nil => exact SameTimers.refl l
  | cons t walk ih =>
    have marked : ∀ value, SameTimers l (l.setTask t value) := fun _ => ⟨fun _ => rfl, rfl⟩
    simp only [ledgerOwnerTellFrom]
    split
    · exact SameTimers.refl l
    · split
      · exact ih l out
      · split <;> exact (marked _).trans (ih _ _)

/-! ## Expiry -/

/-- From `l` to `m` timers only expire, at the readings of one clock. -/
structure Fades (clock : Nat → Nat) (l m : Ledger) : Prop where
  stays : ∀ o i u, Live m o i u → Live l o i u
  fades : ∀ o i u, Live l o i u → Live m o i u ∨ ∃ reading, timerExpired (clock reading) u.due
  serials : m.serials = l.serials

variable {clock : Nat → Nat} {l m k : Ledger}

theorem SameTimers.fades (same : SameTimers l m) : Fades clock l m := by
  refine ⟨fun o i u live => ?_, fun o i u live => .inl ?_, same.serials⟩
  · rwa [Live, same.timers o] at live
  · rwa [Live, same.timers o]

theorem Fades.trans (first : Fades clock l m) (second : Fades clock m k) : Fades clock l k := by
  refine ⟨fun o i u live => first.stays o i u (second.stays o i u live), fun o i u live => ?_,
    second.serials.trans first.serials⟩
  rcases first.fades o i u live with still | gone
  · exact second.fades o i u still
  · exact .inr gone

theorem Fades.expireOwner (l : Ledger) (o : OwnerRef) (reading : Nat) :
    Fades clock l (l.setOwner o (ledgerOwnerExpire (l.owner o) (clock reading))) := by
  have slot : ∀ i : Fin ledgerTimers, (ledgerOwnerExpire (l.owner o) (clock reading)).timers[i] =
        if timerExpired (clock reading) (l.owner o).timers[i].due then
          { (l.owner o).timers[i] with due := 0 } else (l.owner o).timers[i] := by
    intro i
    simp [ledgerOwnerExpire]
  refine ⟨fun p i u live => ?_, fun p i u live => ?_, rfl⟩
  · by_cases here : p = o
    · subst here
      obtain ⟨eq, some⟩ := live
      simp only [Ledger.setOwner, Function.update_self] at eq
      rw [slot] at eq
      split at eq
      · exact absurd (eq ▸ rfl) some
      · exact ⟨eq, some⟩
    · simpa [Live, here] using live
  · by_cases here : p = o
    · subst here
      obtain ⟨rfl, some⟩ := live
      cases old : timerExpired (clock reading) (l.owner p).timers[i].due with
      | true => exact .inr ⟨reading, old⟩
      | false =>
        refine .inl ⟨?_, some⟩
        simp only [Ledger.setOwner, Function.update_self]
        rw [slot, old]
        rfl
    · exact .inl (by simpa [Live, here] using live)

theorem Fades.expire (l : Ledger) (reading : Nat) : Fades clock l (ledgerOwnersExpire l (clock reading)) := by
  unfold ledgerOwnersExpire
  generalize l.owners = walk
  induction walk generalizing l with
  | nil => exact (SameTimers.refl l).fades
  | cons o walk ih =>
    have one : Fades clock l (ledgerOwnersExpireOne (clock reading) l o) :=
      (Fades.expireOwner l o reading).trans (SameTimers.gc _ o).fades
    exact one.trans (ih _)

theorem Accounts.fades_make (books : Accounts l) (key : UInt64) : Fades clock l (ledgerOwnerMake l key) := by
  have fresh : l.nextOwner ∉ l.owners := fun inside => (books.owners.old _ inside).false
  have none : ∀ i u, ¬Live l l.nextOwner i u := by
    rintro i u ⟨rfl, some⟩
    refine fresh (books.listed _ ?_)
    simp [ledgerOwnerBusy, timerAny_of some]
  refine ⟨fun o i u live => ?_, fun o i u live => .inl ?_, rfl⟩
  · by_cases here : o = l.nextOwner
    · subst here
      obtain ⟨rfl, some⟩ := live
      simp [ledgerOwnerMake, Owner.new, Timer.none] at some
    · simpa [Live, ledgerOwnerMake, here] using live
  · by_cases here : o = l.nextOwner
    · exact absurd (here ▸ live) (none i u)
    · simpa [Live, ledgerOwnerMake, here] using live

theorem Sound.fades_get (sound : Sound l) {key : UInt64} {reading : Nat} {memory : Bool} {value : Except Errno OwnerRef}
    (got : ledgerOwnerGet l key (clock reading) memory = (m, value)) : Fades clock l m := by
  have expired : Sound (if ledgerOwnerRoom l key then l else ledgerOwnersExpire l (clock reading)) ∧ Fades clock l
        (if ledgerOwnerRoom l key then l else ledgerOwnersExpire l (clock reading)) := by
    split
    · exact ⟨sound, (SameTimers.refl l).fades⟩
    · exact ⟨sound.expire _, Fades.expire l reading⟩
  unfold ledgerOwnerGet at got
  split at got
  · obtain rfl : l = m := congrArg Prod.fst got
    exact (SameTimers.refl l).fades
  · generalize (if ledgerOwnerRoom l key then l else ledgerOwnersExpire l (clock reading)) = k at *
    simp only at got
    split at got
    · obtain rfl : k = m := congrArg Prod.fst got
      exact expired.2
    · split at got
      · obtain rfl : k = m := congrArg Prod.fst got
        exact expired.2
      · obtain rfl : ledgerOwnerMake k key = m := congrArg Prod.fst got
        exact expired.2.trans (expired.1.accounts.fades_make key)

end Ledger

end Askai
