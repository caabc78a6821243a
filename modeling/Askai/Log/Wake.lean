import Askai.Log.Whole

/-!
# The logger's sleep

While the logger is in `poll`, a line that was put in or a change of the state has its thread still to
look at `asleep`, or the logger is being woken.
-/

namespace Askai.Log

open Library

/-- The eventfd is readable, or a thread is between its exchange of `asleep` and its write. -/
def Waking (n : Nat) (s : State) : Prop :=
  s.readable = true ∨ s.stopper = .signals ∨ ∃ i < n, (s.rings i).emitter = .signals

/-- The ring is empty, or has the one line whose thread is yet to look at `asleep`. -/
def Ring.Unseen (r : Ring) : Prop :=
  r.held = [] ∨ (∃ line, r.held = [line]) ∧ (r.emitter = .peeks ∨ r.emitter = .swaps)

/-- The logger has set `asleep`. -/
def Stage.sleeping : Stage → Prop
  | .pendingState | .pendingRing _ | .polls => True
  | _ => False

/-- The logger has found the state unchanged since it set `asleep`. -/
def Stage.unstopped : Stage → Prop
  | .pendingRing _ | .polls => True
  | _ => False

/-- The logger has found ring `i` empty since it set `asleep`. -/
def Stage.looked (i : Nat) : Stage → Prop
  | .pendingRing j => i < j
  | .polls => True
  | _ => False

/-- What holds while the logger goes to sleep. -/
structure Roused (n : Nat) (s : State) : Prop where
  waking : s.stage.sleeping → s.asleep = false → Waking n s
  unseen : ∀ i < n, s.stage.looked i → s.asleep = true → (s.rings i).Unseen
  stopping : s.stage.unstopped → s.asleep = true → s.life ≠ .running → s.stopper = .swaps

variable {n i : Nat} {s t : State} {r : Ring}

namespace Roused

/-- A step to a stage in which the logger does not sleep. -/
theorem awake (stage : ¬t.stage.sleeping) : Roused n t := by
  have sleeping : ∀ stage : Stage, stage.unstopped → stage.sleeping := by
    intro stage
    cases stage <;> first | exact id | exact False.elim
  have looked : ∀ (stage : Stage) (i : Nat), stage.looked i → stage.sleeping := by
    intro stage i
    cases stage <;> first | exact id | exact fun _ => trivial
  constructor
  · exact fun here => absurd here stage
  · exact fun i _ here => absurd (looked _ _ here) stage
  · exact fun here => absurd (sleeping _ here) stage

/-- A step of the thread of ring `i` that leaves `asleep` as it is, and not as it signals. -/
theorem emit (roused : Roused n s) (rings : t.rings = Function.update s.rings i r)
    (stage : t.stage = s.stage) (asleep : t.asleep = s.asleep) (life : t.life = s.life)
    (stopper : t.stopper = s.stopper) (readable : t.readable = s.readable) (quiet : (s.rings i).emitter ≠ .signals)
    (unseen : s.asleep = true → (s.rings i).Unseen → r.Unseen) : Roused n t := by
  have others : ∀ j, j ≠ i → t.rings j = s.rings j := by
    intro j other
    rw [rings, Function.update_of_ne other]
  constructor
  · rw [stage, asleep]
    intro sleeping said
    rcases roused.waking sleeping said with ready | stop | ⟨j, inside, signals⟩
    · exact .inl (readable.trans ready)
    · exact .inr (.inl (stopper.trans stop))
    · refine .inr (.inr ⟨j, inside, ?_⟩)
      rw [others j]
      · exact signals
      · rintro rfl
        exact quiet signals
  · rw [stage, asleep]
    intro j inside looked said
    have before := roused.unseen j inside looked said
    rcases eq_or_ne j i with rfl | other
    · rw [rings, Function.update_self]
      exact unseen said before
    · rw [others j other]
      exact before
  · rw [stage, asleep, life, stopper]
    exact roused.stopping

/-- A step by which the logger is being woken. -/
theorem woken (said : t.asleep = false) (waking : Waking n t) : Roused n t := by
  constructor
  · exact fun _ _ => waking
  · intro j _ _ absurd_
    rw [said] at absurd_
    cases absurd_
  · intro _ absurd_
    rw [said] at absurd_
    cases absurd_

/-- A thread that has not looked at `asleep` since it put a line in is in no other place. -/
theorem held_of_unseen (unseen : r.Unseen) (peeks : r.emitter ≠ .peeks) (swaps : r.emitter ≠ .swaps) : r.held = [] := by
  rcases unseen with none_ | ⟨-, here | here⟩
  · exact none_
  · exact absurd here peeks
  · exact absurd here swaps

/-- A step of a thread that has no line to tell of. -/
theorem emit_quiet (roused : Roused n s) (rings : t.rings = Function.update s.rings i r)
    (stage : t.stage = s.stage) (asleep : t.asleep = s.asleep) (life : t.life = s.life)
    (stopper : t.stopper = s.stopper) (readable : t.readable = s.readable)
    (held : r.held = (s.rings i).held) (fresh : (s.rings i).emitter.fresh = 0) : Roused n t := by
  have none_ : ∀ emitter : Emitter, emitter.fresh = 1 → (s.rings i).emitter ≠ emitter := by
    rintro emitter one rfl
    omega
  apply roused.emit rings stage asleep life stopper readable (none_ _ rfl)
  intro _ unseen
  exact .inl (held.trans (held_of_unseen unseen (none_ _ rfl) (none_ _ rfl)))

theorem step (roused : Roused n s) (whole : Whole n s) {e : Event} (step : Step n s e t) : Roused n t := by
  cases step with
  | give line inside away some_ =>
    exact roused.emit_quiet rfl rfl rfl rfl rfl rfl rfl (by rw [away]; rfl)
  | begin inside at_ => exact roused.emit_quiet rfl rfl rfl rfl rfl rfl rfl (by rw [at_]; rfl)
  | lack inside at_ large => exact roused.emit_quiet rfl rfl rfl rfl rfl rfl rfl (by rw [at_]; rfl)
  | fit inside at_ small => exact roused.emit_quiet rfl rfl rfl rfl rfl rfl rfl (by rw [at_]; rfl)
  | drop inside at_ => exact roused.emit_quiet rfl rfl rfl rfl rfl rfl rfl (by rw [at_]; rfl)
  | copy inside at_ more => exact roused.emit_quiet rfl rfl rfl rfl rfl rfl rfl (by rw [at_]; rfl)
  | @publish i head line inside at_ =>
    refine roused.emit rfl rfl rfl rfl rfl rfl (by rw [at_]; nofun) fun _ unseen => ?_
    have none_ := held_of_unseen unseen (by rw [at_]; nofun) (by rw [at_]; nofun)
    refine .inr ⟨⟨line, ?_⟩, .inl rfl⟩
    change (s.rings i).batch ++ ((s.rings i).rest ++ [line]) = [line]
    rw [← List.append_assoc, show (s.rings i).batch ++ (s.rings i).rest = [] from none_]
    rfl
  | @peek i inside at_ =>
    refine roused.emit rfl rfl rfl rfl rfl rfl (by rw [at_]; nofun) fun said unseen => ?_
    rcases unseen with none_ | ⟨one, -⟩
    · exact .inl none_
    · refine .inr ⟨one, .inr ?_⟩
      change (if s.asleep = true then Emitter.swaps else .away) = .swaps
      rw [if_pos said]
  | @swap i inside at_ =>
    cases said : s.asleep with
    | true =>
      refine woken rfl (.inr (.inr ⟨i, inside, ?_⟩))
      rw [State.goOn, State.setRing_self]
      rfl
    | false =>
      refine roused.emit rfl rfl said.symm rfl rfl rfl (by rw [at_]; nofun) fun absurd_ => ?_
      rw [said] at absurd_
      cases absurd_
  | @signal i inside at_ =>
    constructor
    · exact fun _ _ => .inl rfl
    · intro j below looked said
      have before := roused.unseen j below looked said
      change ((s.goOn i .away).rings j).Unseen
      rcases eq_or_ne j i with rfl | other
      · have none_ := held_of_unseen before (by rw [at_]; nofun) (by rw [at_]; nofun)
        rw [State.goOn, State.setRing_self]
        exact .inl none_
      · rw [State.goOn, State.setRing_of_ne _ _ other]
        exact before
    · exact roused.stopping
  | call at_ =>
    constructor
    · intro sleeping said
      rcases roused.waking sleeping said with ready | stop | signals
      · exact .inl ready
      · rw [at_] at stop
        cases stop
      · exact .inr (.inr signals)
    · exact roused.unseen
    · intro unstopped said life
      have swaps := roused.stopping unstopped said life
      rw [at_] at swaps
      cases swaps
  | stop at_ running =>
    constructor
    · intro sleeping said
      rcases roused.waking sleeping said with ready | stop | signals
      · exact .inl ready
      · rw [at_] at stop
        cases stop
      · exact .inr (.inr signals)
    · exact roused.unseen
    · exact fun _ _ _ => rfl
  | stopSwap at_ =>
    cases said : s.asleep with
    | true =>
      exact woken rfl (.inr (.inl rfl))
    | false =>
      constructor
      · intro sleeping _
        rcases roused.waking sleeping said with ready | stop | signals
        · exact .inl ready
        · rw [at_] at stop
          cases stop
        · exact .inr (.inr signals)
      · exact fun _ _ _ => nofun
      · exact fun _ => nofun
  | stopSignal at_ =>
    constructor
    · exact fun _ _ => .inl rfl
    · exact roused.unseen
    · intro unstopped said life
      have swaps := roused.stopping unstopped said life
      rw [at_] at swaps
      cases swaps
  | note at_ more => exact awake id
  | noNote at_ same => exact awake id
  | scan at_ inside => exact awake id
  | scanned at_ =>
    apply awake
    change ¬(if _ then Stage.checks else .writes _).sleeping
    split <;> exact id
  | write at_ fits =>
    apply awake
    change ¬(if _ then Stage.stores 0 else .writes _).sleeping
    split <;> exact id
  | store at_ inside => exact awake id
  | stored at_ => exact awake id
  | check at_ =>
    apply awake
    change ¬(if _ then Stage.sleeps else .ends).sleeping
    split <;> exact id
  | sleep at_ =>
    constructor
    · exact fun _ => nofun
    · exact fun _ _ => nofun
    · exact nofun
  | pendingState at_ =>
    have waking := roused.waking
    rw [at_] at waking
    rcases Decidable.em (s.life = .running) with running | stopped
    · simp only [if_pos running]
      constructor
      · exact fun _ said => waking trivial said
      · exact fun _ _ => nofun
      · exact fun _ _ stopped => absurd running stopped
    · simp only [if_neg stopped]
      exact awake id
  | @pendingRing i at_ inside =>
    obtain ⟨waking, unseen, stopping⟩ := roused
    rw [at_] at waking unseen stopping
    rcases Decidable.em ((s.rings i).head = (s.rings i).tail) with same | more
    · simp only [if_pos same]
      constructor
      · exact fun _ said => waking trivial said
      · intro j below looked said
        rcases Nat.lt_or_eq_of_le (Nat.le_of_lt_succ looked) with before | rfl
        · exact unseen j below before said
        · exact .inl ((whole.rings j below).head_eq_tail.mp same)
      · exact fun _ => stopping trivial
    · simp only [if_neg more]
      exact awake id
  | pended at_ =>
    obtain ⟨waking, unseen, stopping⟩ := roused
    rw [at_] at waking unseen stopping
    constructor
    · exact fun _ said => waking trivial said
    · exact fun j below _ => unseen j below below
    · exact fun _ => stopping trivial
  | poll at_ => exact awake id
  | drain at_ => exact awake id
  | wake at_ => exact awake id
  | finish at_ => exact awake id

/-- In `poll`, the logger is being woken, or nothing waits for it that is its own to do. -/
theorem polls (roused : Roused n s) (stage : s.stage = .polls) (idle : ¬Waking n s) :
    (∀ i < n, (s.rings i).returned ≤ (s.rings i).written.length) ∧ (s.life ≠ .running → s.stopper = .swaps) := by
  obtain ⟨waking, unseen, stopping⟩ := roused
  rw [stage] at waking unseen stopping
  have said : s.asleep = true := by
    cases asleep : s.asleep with
    | true => rfl
    | false => exact absurd (waking trivial asleep) idle
  constructor
  · intro i inside
    rcases unseen i inside trivial said with none_ | ⟨⟨line, one⟩, here⟩
    · simp [Ring.returned, Ring.puts, none_]
    · have fresh : (s.rings i).emitter.fresh = 1 := by
        rcases here with here | here <;> rw [here] <;> rfl
      simp [Ring.returned, Ring.puts, one, fresh]
  · exact stopping trivial said

end Roused

theorem start_roused (n : Nat) (memory : Nat → Nat → UInt8) : Roused n (start memory) :=
  .awake id

end Askai.Log
