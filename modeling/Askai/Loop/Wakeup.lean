import Askai.Loop.Delivery

/-!
# No wake-up is lost

A loop that sleeps while its inbox holds a message is about to be woken, and the loop and its
posters can always go on until every message posted has been delivered.
-/

namespace Askai

open Library

namespace Loop

variable {P : Type*}

/-- A poster is about to write the eventfd, or the eventfd is readable. -/
def Signalled (s : Loop P) : Prop :=
  0 < s.wake ∨ ∃ p msg, s.posters p = .signals msg

/-- A poster has put its message into the inbox, and is not done with `loop_post`. -/
def Posting (s : Loop P) : Prop :=
  ∃ p msg, s.posters p = .rouses msg ∨ s.posters p = .signals msg

/-- What the loop's sleep rests on. -/
structure Wakes (s : Loop P) : Prop where
  stirred : s.stage = .looks ∨ s.stage = .waits true → s.asleep = false → s.Signalled
  noticed : s.stage = .waits true → s.inbox ≠ none → 0 < s.wake ∨ s.Posting
  dozed : s.stage = .looks ∨ s.stage = .waits true → s.mail = none
  ended : s.stage = .finished → s.closing = true

theorem start_wakes (next : Msg → Option Msg) : (start next : Loop P).Wakes :=
  ⟨nofun, nofun, nofun, nofun⟩

/-- A loop that neither sleeps nor is about to. -/
theorem Wakes.of_awake {s : Loop P} (looks : s.stage ≠ .looks) (waits : s.stage ≠ .waits true)
    (ended : s.stage = .finished → s.closing = true) : s.Wakes :=
  ⟨fun sleeps => absurd sleeps (not_or.mpr ⟨looks, waits⟩), fun sleeps => absurd sleeps waits,
    fun sleeps => absurd sleeps (not_or.mpr ⟨looks, waits⟩), ended⟩

/-- A state that a run can reach. -/
structure Sound (s : Loop P) : Prop where
  orderly : s.Orderly
  wakes : s.Wakes

/-- The loop has not ended, nor come to the end of `loop_fini`. -/
def Serves (s : Loop P) : Prop :=
  s.closing = false ∨ s.stage = .collects

/-- Messages wait to be delivered. -/
def Waiting (s : Loop P) : Prop :=
  s.delivered.length < s.accepted.length

/-- Messages that wait, while the loop reverses none, are in its mail or its inbox. -/
theorem Sound.filled {s : Loop P} (sound : s.Sound) (waiting : s.Waiting)
    (idle : ∀ l, Batch s.next s.stage l → l = []) : s.mail ≠ none ∨ s.inbox ≠ none := by
  obtain ⟨mail, batch, box, holds⟩ := sound.orderly
  obtain rfl := idle _ holds.batched
  by_contra empty
  obtain ⟨no_mail, no_inbox⟩ := not_or.mp empty
  obtain rfl := holds.mailed.eq_nil_iff.mpr (not_not.mp no_mail)
  obtain rfl := holds.inboxed.eq_nil_iff.mpr (not_not.mp no_inbox)
  have order := holds.order
  simp only [List.append_nil, List.reverse_nil] at order
  rw [Waiting, order] at waiting
  exact lt_irrefl _ waiting

section

variable [DecidableEq P] {s t : Loop P} {e : LoopEvent P}

/-- What another poster is about to do stays so. -/
theorem posters_of_ne {p q : P} {at_ : Poster} (other : q ≠ p) : (s.poster p at_).posters q = s.posters q :=
  Function.update_of_ne other ..

theorem posters_self {p : P} {at_ : Poster} : (s.poster p at_).posters p = at_ :=
  Function.update_self ..

/-- A poster that is about neither to rouse the loop nor to signal it goes on. -/
theorem Wakes.poster (wakes : s.Wakes) {p : P} {at_ : Poster}
    (rouses : ∀ msg, s.posters p ≠ .rouses msg) (signals : ∀ msg, s.posters p ≠ .signals msg) :
    (s.poster p at_).Wakes := by
  have other {q : P} {msg : Msg} (at_q : s.posters q = .rouses msg ∨ s.posters q = .signals msg) : q ≠ p := by
    rintro rfl
    exact at_q.elim (rouses msg) (signals msg)
  refine { wakes with stirred := ?_, noticed := ?_ }
  · intro sleeps awake
    refine (wakes.stirred sleeps awake).imp_right fun ⟨q, msg, at_q⟩ => ⟨q, msg, ?_⟩
    rw [posters_of_ne (other (.inr at_q)), at_q]
  · intro sleeps filled
    refine (wakes.noticed sleeps filled).imp_right fun ⟨q, msg, at_q⟩ => ⟨q, msg, ?_⟩
    rwa [posters_of_ne (other at_q)]

theorem Wakes.rouse (wakes : s.Wakes) {p : P} {msg : Msg} (at_ : s.posters p = .rouses msg) :
    (Loop.poster { s with asleep := false } p (if s.asleep then .signals msg else .away)).Wakes := by
  cases asleep : s.asleep with
  | true =>
    have signals : (Loop.poster { s with asleep := false } p (.signals msg)).posters p = .signals msg := posters_self
    exact
      { stirred := fun _ _ => .inr ⟨p, msg, signals⟩
        noticed := fun _ _ => .inr ⟨p, msg, .inr signals⟩
        dozed := wakes.dozed
        ended := wakes.ended }
  | false =>
    have kept (sleeps : s.stage = .looks ∨ s.stage = .waits true) :
        (Loop.poster { s with asleep := false } p .away).Signalled := by
      refine (wakes.stirred sleeps asleep).imp_right fun ⟨q, other, at_q⟩ => ⟨q, other, ?_⟩
      have differs : q ≠ p := by
        rintro rfl
        rw [at_] at at_q
        simp at at_q
      exact (Function.update_of_ne differs ..).trans at_q
    exact
      { stirred := fun sleeps _ => kept sleeps
        noticed := fun sleeps _ =>
          (kept (.inr sleeps)).imp_right fun ⟨q, other, at_q⟩ => ⟨q, other, .inr at_q⟩
        dozed := wakes.dozed
        ended := wakes.ended }

/-- Every step keeps what the loop's sleep rests on. -/
theorem Wakes.step (wakes : s.Wakes) (step : LoopStep s e t) : t.Wakes := by
  cases step with
  | post away may => exact wakes.poster (by simp [away]) (by simp [away])
  | @link p msg head at_ =>
    have relinked : Loop.Wakes { s with next := Function.update s.next msg head } := { wakes with }
    exact relinked.poster (by simp [at_]) (by simp [at_])
  | @swap p msg head at_ same =>
    have posted : (Loop.poster { s with inbox := some msg, accepted := s.accepted ++ [msg] } p
        (.rouses msg)).posters p = .rouses msg := posters_self
    have kept : Wakes (s.poster p (.rouses msg)) := wakes.poster (by simp [at_]) (by simp [at_])
    exact
      { stirred := kept.stirred
        noticed := fun _ _ => .inr ⟨p, msg, .inl posted⟩
        dozed := wakes.dozed
        ended := wakes.ended }
  | miss at_ => exact wakes.poster (by simp [at_]) (by simp [at_])
  | rouse at_ => exact wakes.rouse at_
  | signal at_ =>
    exact
      { stirred := fun _ _ => .inl (Nat.succ_pos _)
        noticed := fun _ _ => .inl (Nat.succ_pos _)
        dozed := wakes.dozed
        ended := wakes.ended }
  | stay | busy | wake | elapse | stir | interrupt | fail | read | skip | take | reverse | append | rest | run | close =>
    exact .of_awake nofun nofun nofun
  | doze at_ goes empty => exact ⟨nofun, nofun, fun _ => empty, nofun⟩
  | look at_ =>
    refine ⟨fun _ => wakes.stirred (.inl at_), ?_, fun _ => wakes.dozed (.inl at_), nofun⟩
    intro sleeps filled
    simp only [Stage.waits.injEq, decide_eq_true_eq] at sleeps
    exact absurd sleeps filled
  | @rise woken at_ => cases woken <;> exact .of_awake nofun nofun nofun
  | exits => exact { wakes with }
  | collect at_ =>
    by_cases empty : s.inbox = none
    · simp only [empty, if_true]
      exact .of_awake nofun nofun nofun
    · simp only [empty, if_false]
      exact .of_awake nofun nofun nofun
  | deliver at_ first goes =>
    cases closing : s.closing <;> exact .of_awake nofun nofun nofun
  | finish at_ closes empty => exact .of_awake nofun nofun fun _ => closes

/-- In every state that a run reaches, no wake-up is lost. -/
theorem wakes_of_trace {next : Msg → Option Msg} {es : List (LoopEvent P)}
    (run : Trace LoopStep (start next) es s) : s.Wakes :=
  run.invariant (start_wakes next) fun _ _ _ wakes step => wakes.step step

/-! ## The loop and its posters can always go on -/

/-- The loop's own steps, and its posters', lead from `s` to `t`. -/
def Drives (s t : Loop P) : Prop :=
  ∃ es, Trace LoopStep s es t ∧ ∀ e ∈ es, e ≠ .other ∧ ∀ p msg, e ≠ .post p msg

theorem Drives.refl (s : Loop P) : Drives s s := ⟨[], .nil, by simp⟩

theorem Drives.trans {u : Loop P} (first : Drives s t) (second : Drives t u) : Drives s u := by
  obtain ⟨es, run, own⟩ := first
  obtain ⟨fs, run', own'⟩ := second
  refine ⟨es ++ fs, run.append run', fun e member => ?_⟩
  exact (List.mem_append.mp member).elim (own e) (own' e)

theorem Sound.step (sound : s.Sound) (step : LoopStep s e t) : t.Sound :=
  ⟨sound.orderly.step step, sound.wakes.step step⟩

/-- One more of the messages posted gets delivered. -/
def Grows (s : Loop P) : Prop :=
  ∃ t, Drives s t ∧ t.Sound ∧ t.Serves ∧ t.accepted = s.accepted ∧
    t.delivered.length = s.delivered.length + 1

/-- The mail of a turn, while it may go on. -/
theorem grows_of_delivers (sound : s.Sound) {n : Nat} (at_ : s.stage = .delivers n)
    (filled : s.mail ≠ none) (goes : s.closing = true ∨ n < loopMail ∧ s.exit = false) : s.Grows := by
  obtain ⟨msg, first⟩ := Option.ne_none_iff_exists'.mp filled
  have step := LoopStep.deliver at_ first goes
  refine ⟨_, ⟨[_], .single step, by simp⟩, sound.step step, ?_, rfl, by simp [loopDeliver]⟩
  cases closing : s.closing with
  | true => exact .inr (by simp)
  | false => exact .inl closing

/-- From `s`, the loop collects its mail and comes to deliver it, in `t`. -/
structure Collected (s t : Loop P) : Prop where
  drives : Drives s t
  sound : t.Sound
  at_ : t.stage = .delivers 0
  filled : t.mail ≠ none
  accepted : t.accepted = s.accepted
  delivered : t.delivered = s.delivered
  exit : t.exit = s.exit
  closing : t.closing = s.closing

theorem Collected.step {u : Loop P} (collected : Collected t u) (step : LoopStep s .loop t)
    (accepted : t.accepted = s.accepted) (delivered : t.delivered = s.delivered)
    (exit : t.exit = s.exit) (closing : t.closing = s.closing) : Collected s u :=
  { drives := Drives.trans ⟨[_], .single step, by simp⟩ collected.drives
    sound := collected.sound
    at_ := collected.at_
    filled := collected.filled
    accepted := collected.accepted.trans accepted
    delivered := collected.delivered.trans delivered
    exit := collected.exit.trans exit
    closing := collected.closing.trans closing }

/-- The end of `loop_collect`; the induction is on what it has yet to reverse. -/
theorem exists_collected_of_reverses (rest : List Msg) :
    ∀ {s : Loop P}, s.Sound → ∀ {msg fifo last}, s.stage = .reverses msg fifo last →
      Chain s.next msg rest → ∃ t, Collected s t := by
  induction rest with
  | nil =>
    intro s sound msg fifo last at_ chain
    obtain rfl : msg = none := chain
    have step := LoopStep.append at_
    obtain ⟨mail, batch, box, holds⟩ := sound.orderly
    have going := holds.batched
    rw [at_] at going
    have filled : mail ++ batch ≠ [] := by simp [going.1]
    have same : s.loopAppend fifo last =
        { s with
          next := (s.loopAppend fifo last).next
          mail := (s.loopAppend fifo last).mail
          mailLast := (s.loopAppend fifo last).mailLast } := by
      unfold loopAppend
      split <;> rfl
    exact ⟨_,
      { drives := ⟨[_], .single step, by simp⟩
        sound := sound.step step
        at_ := rfl
        filled := fun empty => filled ((holds.append at_).mailed.eq_nil_iff.mpr empty)
        accepted := by rw [same]
        delivered := by rw [same]
        exit := by rw [same]
        closing := by rw [same] }⟩
  | cons x rest ih =>
    intro s sound msg fifo last at_ chain
    obtain ⟨rfl, behind⟩ := chain
    have step := LoopStep.reverse at_
    obtain ⟨mail, batch, box, holds⟩ := sound.orderly
    have going := holds.batched
    rw [at_] at going
    obtain ⟨-, -, ahead, done, parts, chain, -⟩ := going
    obtain rfl := chain.unique (Chain.cons_iff.mpr ⟨rfl, behind⟩)
    have distinct : (x :: rest).Nodup := by
      have whole := (List.nodup_append.mp (List.nodup_append.mp holds.distinct).1).2.1
      rw [parts] at whole
      exact List.nodup_reverse.mp (List.nodup_append.mp whole).1
    obtain ⟨t, collected⟩ := ih (sound.step step) rfl (behind.update (List.nodup_cons.mp distinct).1)
    exact ⟨t, collected.step step rfl rfl rfl rfl⟩

theorem exists_collected_of_takes (sound : s.Sound) (at_ : s.stage = .takes) : ∃ t, Collected s t := by
  have step := LoopStep.take at_
  obtain ⟨mail, batch, box, holds⟩ := sound.orderly
  obtain ⟨t, collected⟩ := exists_collected_of_reverses box (sound.step step) rfl holds.inboxed
  exact ⟨t, collected.step step rfl rfl rfl rfl⟩

theorem exists_collected (sound : s.Sound) (waiting : s.Waiting) (at_ : s.stage = .collects) : ∃ t, Collected s t := by
  have step := LoopStep.collect at_
  have after := sound.step step
  by_cases empty : s.inbox = none
  · simp only [empty, if_true] at step after
    have filled := (sound.filled waiting (by rw [at_]; exact fun _ h => h)).resolve_right (not_not.mpr empty)
    exact ⟨_,
      { drives := ⟨[_], .single step, by simp⟩
        sound := after
        at_ := rfl
        filled
        accepted := rfl
        delivered := rfl
        exit := rfl
        closing := rfl }⟩
  · simp only [empty, if_false] at step after
    obtain ⟨t, collected⟩ := exists_collected_of_takes after rfl
    exact ⟨t, collected.step step rfl rfl rfl rfl⟩

theorem Grows.of_drives (drives : Drives s t) (accepted : t.accepted = s.accepted)
    (delivered : t.delivered = s.delivered) (grows : t.Grows) : s.Grows := by
  obtain ⟨u, drives', sound, serves, accepted', delivered'⟩ := grows
  exact ⟨u, drives.trans drives', sound, serves, accepted'.trans accepted, by rw [delivered', delivered]⟩

theorem Grows.loop (step : LoopStep s .loop t) (accepted : t.accepted = s.accepted)
    (delivered : t.delivered = s.delivered) (grows : t.Grows) : s.Grows :=
  grows.of_drives ⟨[_], .single step, by simp⟩ accepted delivered

/-- A loop that goes on, or is in `loop_fini`, delivers what it collects. -/
theorem Collected.grows (collected : Collected s t) (goes : s.closing = true ∨ s.exit = false) : s.Grows := by
  refine .of_drives collected.drives collected.accepted collected.delivered
    (grows_of_delivers collected.sound collected.at_ collected.filled ?_)
  rw [collected.closing, collected.exit]
  exact goes.imp_right fun goes => ⟨by decide, goes⟩

/-- Once it has ended, the loop comes to `loop_fini`. -/
theorem grows_of_exit (sound : s.Sound) (waiting : s.Waiting) (at_ : s.stage = .turn)
    (exits : s.exit = true) : s.Grows := by
  have step := LoopStep.close at_ exits
  obtain ⟨t, collected⟩ := exists_collected (sound.step step) waiting rfl
  exact .loop step rfl rfl (collected.grows (.inl rfl))

theorem Collected.grows_any (collected : Collected s t) (waiting : s.Waiting) : s.Grows := by
  by_cases goes : s.closing = true ∨ s.exit = false
  · exact collected.grows goes
  -- the exit flag came up in this turn, which delivers none; `loop_fini` does
  obtain ⟨turns, exits⟩ := not_or.mp goes
  simp only [Bool.not_eq_true, Bool.not_eq_false] at turns exits
  have exits_t := collected.exit.trans exits
  have rest := LoopStep.rest collected.at_ (collected.closing.trans turns) (.inr (.inr exits_t))
  have run := LoopStep.run (s := { t with stage := .runs }) rfl
  refine .of_drives collected.drives collected.accepted collected.delivered ?_
  refine .loop rest rfl rfl (.loop run rfl rfl ?_)
  refine grows_of_exit ((collected.sound.step rest).step run) ?_ rfl exits_t
  simpa [Waiting, collected.accepted, collected.delivered] using waiting

theorem grows_of_collects (sound : s.Sound) (waiting : s.Waiting) (at_ : s.stage = .collects) : s.Grows := by
  obtain ⟨t, collected⟩ := exists_collected sound waiting at_
  exact collected.grows_any waiting

theorem grows_of_returned (sound : s.Sound) (waiting : s.Waiting) {woken : Bool}
    (at_ : s.stage = .returned woken) : s.Grows := by
  have rise := LoopStep.rise at_
  have after := sound.step rise
  cases woken with
  | false => exact .loop rise rfl rfl (grows_of_collects after waiting rfl)
  | true =>
    have read := LoopStep.read (s := { s with asleep := false, stage := .reads }) rfl
    exact .loop rise rfl rfl (.loop read rfl rfl (grows_of_collects (after.step read) waiting rfl))

/-- The eventfd ends a wait. -/
theorem grows_of_readable (sound : s.Sound) (waiting : s.Waiting) {sleeps : Bool}
    (at_ : s.stage = .waits sleeps) (readable : 0 < s.wake) : s.Grows := by
  have wake := LoopStep.wake at_ readable
  exact .loop wake rfl rfl (grows_of_returned (sound.step wake) waiting rfl)

theorem grows_of_signals (sound : s.Sound) (waiting : s.Waiting) {p : P} {msg : Msg}
    (at_ : s.stage = .waits true) (at_p : s.posters p = .signals msg) : s.Grows := by
  have signal := LoopStep.signal at_p
  refine .of_drives ⟨[_], .single signal, by simp⟩ rfl rfl ?_
  exact grows_of_readable (sound.step signal) waiting at_ (Nat.succ_pos _)

/-- A sleeping loop's inbox is empty, or it is woken: `loop_post` sees to that. -/
theorem grows_of_sleeps (sound : s.Sound) (waiting : s.Waiting) (at_ : s.stage = .waits true) : s.Grows := by
  have no_mail := sound.wakes.dozed (.inr at_)
  have filled := (sound.filled waiting (by rw [at_]; exact fun _ h => h)).resolve_left (not_not.mpr no_mail)
  rcases sound.wakes.noticed at_ filled with readable | ⟨p, msg, rouses | signals⟩
  · exact grows_of_readable sound waiting at_ readable
  · have rouse := LoopStep.rouse rouses
    refine .of_drives ⟨[_], .single rouse, by simp⟩ rfl rfl ?_
    have after := sound.step rouse
    -- it finds the loop asleep, or another poster found it so before
    rcases after.wakes.stirred (.inr at_) rfl with readable | ⟨q, other, signals⟩
    · exact grows_of_readable after waiting at_ readable
    · exact grows_of_signals after waiting at_ signals
  · exact grows_of_signals sound waiting at_ signals

theorem grows_of_waits (sound : s.Sound) (waiting : s.Waiting) {sleeps : Bool}
    (at_ : s.stage = .waits sleeps) : s.Grows := by
  cases sleeps with
  | true => exact grows_of_sleeps sound waiting at_
  | false =>
    have elapse := LoopStep.elapse at_
    exact .loop elapse rfl rfl (grows_of_returned (sound.step elapse) waiting rfl)

theorem grows_of_looks (sound : s.Sound) (waiting : s.Waiting) (at_ : s.stage = .looks) : s.Grows := by
  have look := LoopStep.look at_
  exact .loop look rfl rfl (grows_of_waits (sound.step look) waiting rfl)

theorem grows_of_turn (sound : s.Sound) (waiting : s.Waiting) (at_ : s.stage = .turn) : s.Grows := by
  cases exits : s.exit with
  | true => exact grows_of_exit sound waiting at_ exits
  | false =>
    by_cases empty : s.mail = none
    · have doze := LoopStep.doze at_ exits empty
      exact .loop doze rfl rfl (grows_of_looks (sound.step doze) waiting rfl)
    · have stay := LoopStep.stay at_ exits empty
      exact .loop stay rfl rfl (grows_of_waits (sound.step stay) waiting rfl)

theorem grows_of_runs (sound : s.Sound) (waiting : s.Waiting) (at_ : s.stage = .runs) : s.Grows := by
  have run := LoopStep.run at_
  exact .loop run rfl rfl (grows_of_turn (sound.step run) waiting rfl)

/-- While messages wait, the loop and its posters can go on until one more is delivered. -/
theorem Sound.grows (sound : s.Sound) (serves : s.Serves) (waiting : s.Waiting) : s.Grows := by
  rcases serves with open_ | at_
  swap
  · exact grows_of_collects sound waiting at_
  cases at_ : s.stage with
  | turn => exact grows_of_turn sound waiting at_
  | looks => exact grows_of_looks sound waiting at_
  | waits sleeps => exact grows_of_waits sound waiting at_
  | returned woken => exact grows_of_returned sound waiting at_
  | reads =>
    have read := LoopStep.read at_
    exact .loop read rfl rfl (grows_of_collects (sound.step read) waiting rfl)
  | collects => exact grows_of_collects sound waiting at_
  | takes =>
    obtain ⟨t, collected⟩ := exists_collected_of_takes sound at_
    exact collected.grows_any waiting
  | reverses msg fifo last =>
    obtain ⟨mail, batch, box, holds⟩ := sound.orderly
    have going := holds.batched
    rw [at_] at going
    obtain ⟨-, -, rest, done, parts, chain, -⟩ := going
    obtain ⟨t, collected⟩ := exists_collected_of_reverses rest sound at_ chain
    exact collected.grows_any waiting
  | delivers n =>
    by_cases goes : s.mail ≠ none ∧ n < loopMail ∧ s.exit = false
    · exact grows_of_delivers sound at_ goes.1 (.inr goes.2)
    · have stops : s.mail = none ∨ loopMail ≤ n ∨ s.exit = true := by
        by_contra stops
        simp only [not_or, not_le, Bool.not_eq_true] at stops
        exact goes stops
      have rest := LoopStep.rest at_ open_ stops
      exact .loop rest rfl rfl (grows_of_runs (sound.step rest) waiting rfl)
  | runs => exact grows_of_runs sound waiting at_
  | finished => exact absurd (sound.wakes.ended at_) (by simp [open_])

/-- The loop and its posters can go on until all that was posted has been delivered. -/
theorem Sound.drains (sound : s.Sound) (serves : s.Serves) : ∃ t, Drives s t ∧ t.delivered = s.accepted := by
  have prefixed {u : Loop P} (sound : u.Sound) : ∃ queue, u.accepted = u.delivered ++ queue := by
    obtain ⟨mail, batch, box, holds⟩ := sound.orderly
    exact ⟨_, holds.order⟩
  generalize left_eq : s.accepted.length - s.delivered.length = left
  induction left generalizing s with
  | zero =>
    obtain ⟨queue, order⟩ := prefixed sound
    rw [order, List.length_append] at left_eq
    obtain rfl : queue = [] := List.length_eq_zero_iff.mp (by omega)
    exact ⟨s, .refl s, by simpa using order.symm⟩
  | succ left ih =>
    have waiting : s.Waiting := by
      rw [Waiting]
      omega
    obtain ⟨t, drives, sound', serves', accepted, delivered⟩ := sound.grows serves waiting
    obtain ⟨u, drives', all⟩ := ih sound' serves' (by rw [accepted, delivered]; omega)
    exact ⟨u, drives.trans drives', all.trans accepted⟩

/-- The messages posted are delivered once each, in the order of their compare-and-swaps, and the
loop sleeps on none of them unless it is about to be woken. -/
theorem inbox_delivery {next : Msg → Option Msg} {es : List (LoopEvent P)} (run : Trace LoopStep (start next) es s) :
    s.delivered <+: s.accepted ∧ (s.Serves → ∃ t, Drives s t ∧ t.delivered = s.accepted) ∧
      (s.stage = .waits true → s.inbox ≠ none →
        0 < s.wake ∨ ∃ p msg, s.posters p = .rouses msg ∨ s.posters p = .signals msg) := by
  have sound : s.Sound := ⟨orderly_of_trace run, wakes_of_trace run⟩
  refine ⟨?_, sound.drains, sound.wakes.noticed⟩
  obtain ⟨mail, batch, box, holds⟩ := sound.orderly
  exact ⟨_, holds.order.symm⟩

end

/-- A loop that sleeps, and a poster that has just swapped its message in. -/
def asleepPosted : Loop Unit :=
  { start (P := Unit) (fun _ => none) with
    inbox := some 7
    asleep := true
    stage := .waits true
    posters := fun _ => .rouses 7
    next := Function.update (fun _ => none) 7 none
    accepted := [7] }

theorem asleepPosted_run : Trace LoopStep (start fun _ => none)
      [.loop, .loop, .post () 7, .poster (), .poster ()] asleepPosted := by
  have doze := Trace.nil.snoc (LoopStep.doze (s := (start fun _ => none : Loop Unit)) rfl rfl rfl)
  have look := doze.snoc (.look rfl)
  have post := look.snoc (@LoopStep.post Unit _ _ () 7 rfl (.inl ⟨rfl, nofun⟩))
  have link := post.snoc (@LoopStep.link Unit _ _ () 7 none rfl)
  have swap := link.snoc (@LoopStep.swap Unit _ _ () 7 none rfl rfl)
  exact swap

theorem inbox_delivery_asleepPosted : asleepPosted.delivered <+: asleepPosted.accepted ∧
      (asleepPosted.Serves → ∃ t, Drives asleepPosted t ∧ t.delivered = asleepPosted.accepted) ∧
      (asleepPosted.stage = .waits true → asleepPosted.inbox ≠ none → 0 < asleepPosted.wake ∨
          ∃ p msg, asleepPosted.posters p = .rouses msg ∨ asleepPosted.posters p = .signals msg) :=
  inbox_delivery asleepPosted_run

/-- Between its compare-and-swap and its exchange of `asleep`, a poster leaves a loop asleep whose
inbox is not empty. -/
theorem not_signalled_asleepPosted : ¬ ∀ (es : List (LoopEvent Unit)) (s : Loop Unit),
      Trace LoopStep (start fun _ => none) es s → s.stage = .waits true → s.inbox ≠ none →
        0 < s.wake ∨ ∃ p msg, s.posters p = .signals msg := by
  intro signalled
  rcases signalled _ _ asleepPosted_run rfl nofun with readable | ⟨p, msg, signals⟩
  · exact absurd readable (by decide)
  · exact absurd signals nofun

end Loop

end Askai
