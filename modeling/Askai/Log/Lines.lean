import Askai.Log.Wake

/-!
# The lines before the stop

What `log_stop` asks for is written, unless it changes the state while the logger is in a pass that
has found nothing and has gone past one of the lines.
-/

namespace Askai.Log

open Library

/-- A pass of the logger that has found nothing, and will find nothing, went past none of the lines
whose `log_emit` had returned when `log_stop` was called. -/
def Passed (n : Nat) (s : State) : Prop :=
  match s.stage with
  | .scans j [] =>
    (∀ i < n, i < j → s.promised i ≤ (s.rings i).written.length) ∨
      ∃ i < n, j ≤ i ∧ (s.rings i).head ≠ (s.rings i).tail
  | .checks => ∀ i < n, s.promised i ≤ (s.rings i).written.length
  | _ => True

/-- What holds of the lines before the stop. -/
structure Stopped (n : Nat) (s : State) : Prop where
  passed : s.life ≠ .running → Passed n s
  called : s.life ≠ .running → s.stopper ≠ .away ∧ s.stopper ≠ .called
  ended : s.stage = .ends ∨ s.stage = .finished →
    s.life ≠ .running ∧ ∀ i < n, s.promised i ≤ (s.rings i).written.length
  done : s.life = .done → s.stage = .finished
  known : ∀ i < n, s.promised i ≤ (s.rings i).puts.length

/-- A step in which `log_stop` meets the condition. -/
def CleanStep (n : Nat) (s : State) (e : Event) (t : State) : Prop :=
  Step n s e t ∧ (e = .stop → Passed n s)

variable {n i : Nat} {s t : State} {r : Ring}

namespace Stopped

/-- A step of the thread of ring `i`, which takes no line out. -/
theorem emit (stopped : Stopped n s) (whole : Whole n s) (after : Whole n t)
    (rings : t.rings = Function.update s.rings i r) (stage : t.stage = s.stage)
    (life : t.life = s.life) (stopper : t.stopper = s.stopper) (promised : t.promised = s.promised)
    (written : r.written = (s.rings i).written) (held : ∃ more, r.held = (s.rings i).held ++ more) : Stopped n t := by
  have same : ∀ j, (t.rings j).written = (s.rings j).written := by
    intro j
    rw [rings]
    rcases eq_or_ne j i with rfl | other
    · rw [Function.update_self, written]
    · rw [Function.update_of_ne other]
  have kept : ∀ j < n, (s.rings j).head ≠ (s.rings j).tail → (t.rings j).head ≠ (t.rings j).tail := by
    intro j inside some_ none_
    apply some_
    apply (whole.rings j inside).head_eq_tail.mpr
    have empty := (after.rings j inside).head_eq_tail.mp none_
    rw [rings] at empty
    rcases eq_or_ne j i with rfl | other
    · obtain ⟨more, longer⟩ := held
      rw [Function.update_self, longer] at empty
      exact (List.append_eq_nil_iff.mp empty).1
    · rw [Function.update_of_ne other] at empty
      exact empty
  constructor
  · intro stop
    rw [life] at stop
    have passed := stopped.passed stop
    unfold Passed at passed ⊢
    rw [stage, promised]
    simp only [same]
    split
    · next here =>
        rw [here] at passed
        rcases passed with all | ⟨j, inside, later, some_⟩
        · exact .inl all
        · exact .inr ⟨j, inside, later, kept j inside some_⟩
    · next here =>
        rw [here] at passed
        exact passed
    · trivial
  · rw [life, stopper]
    exact stopped.called
  · rw [stage, life, promised]
    simp only [same]
    exact stopped.ended
  · rw [stage, life]
    exact stopped.done
  · rw [promised]
    intro j inside
    apply (stopped.known j inside).trans
    rw [rings]
    rcases eq_or_ne j i with rfl | other
    · obtain ⟨more, longer⟩ := held
      rw [Function.update_self, Ring.puts, Ring.puts, written, longer]
      simp
    · rw [Function.update_of_ne other]

/-- A step to a stage that promises nothing. -/
theorem pass (stopped : Stopped n s) (rings : t.rings = s.rings) (life : t.life = s.life)
    (stopper : t.stopper = s.stopper) (promised : t.promised = s.promised) (passed : Passed n t) (before : s.stage ≠ .finished) (ends : t.stage ≠ .ends)
    (finished : t.stage ≠ .finished) : Stopped n t := by
  constructor
  · exact fun _ => passed
  · rw [life, stopper]
    exact stopped.called
  · rintro (here | here)
    · exact absurd here ends
    · exact absurd here finished
  · intro done
    rw [life] at done
    exact absurd (stopped.done done) before
  · rw [promised, rings]
    exact stopped.known

/-- A step of `log_stop` once it has changed the state. -/
theorem stopper (stopped : Stopped n s) (rings : t.rings = s.rings) (stage : t.stage = s.stage)
    (life : t.life = s.life) (promised : t.promised = s.promised)
    (called : t.stopper ≠ .away ∧ t.stopper ≠ .called) : Stopped n t := by
  constructor
  · rw [life]
    intro stop
    have passed := stopped.passed stop
    unfold Passed at passed ⊢
    rw [stage, promised, rings]
    exact passed
  · exact fun _ => called
  · rw [stage, life, promised, rings]
    exact stopped.ended
  · rw [stage, life]
    exact stopped.done
  · rw [promised, rings]
    exact stopped.known

theorem scan (stopped : Stopped n s) (whole : Whole n s) {iov : List Piece}
    (at_ : s.stage = .scans i iov) (inside : i < n) :
    Stopped n { s.setRing i (s.rings i).look with
      stage := .scans (i + 1) (iov ++ logPieces i (s.rings i).tail (s.rings i).head)
      entries := s.entries ++ (s.rings i).rest.map fun line => (some i, line) } := by
  have written : ∀ j, ((s.setRing i (s.rings i).look).rings j).written = (s.rings j).written := by
    intro j
    rcases eq_or_ne j i with rfl | other
    · rw [State.setRing_self]
      rfl
    · rw [State.setRing_of_ne _ _ other]
  constructor
  · intro stop
    have passed := stopped.passed stop
    generalize left_eq : iov ++ logPieces i (s.rings i).tail (s.rings i).head = left
    cases left with
    | cons piece left => trivial
    | nil =>
      obtain ⟨rfl, none_⟩ := List.append_eq_nil_iff.mp left_eq
      have empty := (whole.rings i inside).pieces_eq_nil none_
      rw [Passed, at_] at passed
      change (∀ j < n, j < i + 1 → s.promised j ≤ ((s.setRing i _).rings j).written.length) ∨
        ∃ j < n, i + 1 ≤ j ∧ ((s.setRing i _).rings j).head ≠ ((s.setRing i _).rings j).tail
      simp only [written]
      rcases passed with all | ⟨j, below, later, some_⟩
      · refine .inl fun j below before => ?_
        rcases Nat.lt_or_eq_of_le (Nat.le_of_lt_succ before) with less | rfl
        · exact all j below less
        · apply (stopped.known j below).trans
          rw [Ring.puts, empty, List.append_nil]
      · rcases eq_or_ne j i with rfl | other
        · exact absurd ((whole.rings j below).head_eq_tail.mpr empty) some_
        · refine .inr ⟨j, below, by omega, ?_⟩
          rw [State.setRing_of_ne _ _ other]
          exact some_
  · exact stopped.called
  · rintro (here | here) <;> cases here
  · intro done
    have finished := stopped.done done
    rw [at_] at finished
    cases finished
  · intro j below
    apply (stopped.known j below).trans
    rcases eq_or_ne j i with rfl | other
    · rw [State.setRing_self]
      simp [Ring.look, Ring.puts, Ring.held]
    · rw [State.setRing_of_ne _ _ other]

theorem store (stopped : Stopped n s) (at_ : s.stage = .stores i) :
    Stopped n { s.setRing i (s.rings i).store with stage := .stores (i + 1) } := by
  constructor
  · exact fun _ => trivial
  · exact stopped.called
  · rintro (here | here) <;> cases here
  · intro done
    have finished := stopped.done done
    rw [at_] at finished
    cases finished
  · intro j below
    apply (stopped.known j below).trans
    rcases eq_or_ne j i with rfl | other
    · rw [State.setRing_self]
      simp [Ring.store, Ring.puts, Ring.held]
    · rw [State.setRing_of_ne _ _ other]

theorem step (stopped : Stopped n s) (whole : Whole n s) {e : Event} (clean : CleanStep n s e t) : Stopped n t := by
  obtain ⟨step, condition⟩ := clean
  have after := whole.step step
  cases step with
  | give | begin | lack | fit | drop | copy | peek | swap | signal =>
    exact stopped.emit whole after rfl rfl rfl rfl rfl rfl ⟨[], (List.append_nil _).symm⟩
  | @publish i head line inside at_ =>
    exact stopped.emit whole after rfl rfl rfl rfl rfl rfl ⟨[line], (List.append_assoc ..).symm⟩
  | call at_ =>
    have running : s.life = .running := by
      apply Decidable.byContradiction
      intro stop
      exact (stopped.called stop).1 at_
    constructor
    · exact fun stop => absurd running stop
    · exact fun stop => absurd running stop
    · exact fun here => absurd running (stopped.ended here).1
    · intro done
      cases running.symm.trans done
    · exact fun i _ => Nat.sub_le _ _
  | stop at_ running =>
    constructor
    · exact fun _ => condition rfl
    · exact fun _ => ⟨nofun, nofun⟩
    · exact fun here => absurd running (stopped.ended here).1
    · nofun
    · exact stopped.known
  | stopSwap at_ =>
    refine stopped.stopper rfl rfl rfl rfl ?_
    change (if _ then Stopper.signals else .returned) ≠ _ ∧ (if _ then Stopper.signals else _) ≠ _
    split <;> exact ⟨nofun, nofun⟩
  | stopSignal at_ => exact stopped.stopper rfl rfl rfl rfl ⟨nofun, nofun⟩
  | note at_ more => exact stopped.pass rfl rfl rfl rfl trivial (by rw [at_]; nofun) nofun nofun
  | noNote at_ same =>
    refine stopped.pass rfl rfl rfl rfl (.inl ?_) (by rw [at_]; nofun) nofun nofun
    exact fun _ _ => nofun
  | scan at_ inside => exact stopped.scan whole at_ inside
  | @scanned iov at_ =>
    cases iov with
    | cons piece iov => exact stopped.pass rfl rfl rfl rfl trivial (by rw [at_]; nofun) nofun nofun
    | nil =>
      constructor
      · intro stop
        have passed := stopped.passed stop
        rw [Passed, at_] at passed
        rcases passed with all | ⟨j, inside, later, -⟩
        · exact fun i inside => all i inside inside
        · omega
      · exact stopped.called
      · rintro (here | here) <;> cases here
      · intro done
        have finished := stopped.done done
        rw [at_] at finished
        cases finished
      · exact stopped.known
  | @write iov w at_ fits =>
    generalize logAdvance iov w = left
    cases left with
    | nil => exact stopped.pass rfl rfl rfl rfl trivial (by rw [at_]; nofun) nofun nofun
    | cons piece left =>
      exact stopped.pass rfl rfl rfl rfl trivial (by rw [at_]; nofun) nofun nofun
  | store at_ inside => exact stopped.store at_
  | stored at_ => exact stopped.pass rfl rfl rfl rfl trivial (by rw [at_]; nofun) nofun nofun
  | check at_ =>
    rcases Decidable.em (s.life = .running) with running | stop
    · simp only [if_pos running]
      exact stopped.pass rfl rfl rfl rfl trivial (by rw [at_]; nofun) nofun nofun
    · have passed := stopped.passed stop
      rw [Passed, at_] at passed
      simp only [if_neg stop]
      constructor
      · exact fun _ => trivial
      · exact stopped.called
      · exact fun _ => ⟨stop, passed⟩
      · intro done
        have finished := stopped.done done
        rw [at_] at finished
        cases finished
      · exact stopped.known
  | sleep at_ => exact stopped.pass rfl rfl rfl rfl trivial (by rw [at_]; nofun) nofun nofun
  | pendingState at_ =>
    rcases Decidable.em (s.life = .running) with running | stop
    · simp only [if_pos running]
      exact stopped.pass rfl rfl rfl rfl trivial (by rw [at_]; nofun) nofun nofun
    · simp only [if_neg stop]
      exact stopped.pass rfl rfl rfl rfl trivial (by rw [at_]; nofun) nofun nofun
  | @pendingRing i at_ inside =>
    rcases Decidable.em ((s.rings i).head = (s.rings i).tail) with same | more
    · simp only [if_pos same]
      exact stopped.pass rfl rfl rfl rfl trivial (by rw [at_]; nofun) nofun nofun
    · simp only [if_neg more]
      exact stopped.pass rfl rfl rfl rfl trivial (by rw [at_]; nofun) nofun nofun
  | pended at_ => exact stopped.pass rfl rfl rfl rfl trivial (by rw [at_]; nofun) nofun nofun
  | poll at_ => exact stopped.pass rfl rfl rfl rfl trivial (by rw [at_]; nofun) nofun nofun
  | drain at_ => exact stopped.pass rfl rfl rfl rfl trivial (by rw [at_]; nofun) nofun nofun
  | wake at_ => exact stopped.pass rfl rfl rfl rfl trivial (by rw [at_]; nofun) nofun nofun
  | finish at_ =>
    obtain ⟨stop, written⟩ := stopped.ended (.inl at_)
    constructor
    · exact fun _ => trivial
    · exact fun _ => stopped.called stop
    · exact fun _ => ⟨nofun, written⟩
    · exact fun _ => rfl
    · exact stopped.known

end Stopped

theorem start_stopped (n : Nat) (memory : Nat → Nat → UInt8) : Stopped n (start memory) where
  passed := fun stop => absurd rfl stop
  called := fun stop => absurd rfl stop
  ended := by rintro (here | here) <;> cases here
  done := nofun
  known := fun _ _ => Nat.zero_le _

/-! ## Runs -/

/-- A run of the threads of `n` rings, of `log_stop` and of the logger. -/
abbrev Run (n : Nat) (memory : Nat → Nat → UInt8) (events : List Event) (s : State) : Prop :=
  Trace (Step n) (start memory) events s

variable {memory : Nat → Nat → UInt8} {events : List Event}

theorem run_kept (run : Run n memory events s) : Whole n s ∧ Roused n s := by
  change (fun s => Whole n s ∧ Roused n s) s
  apply run.invariant
  · exact ⟨start_whole n memory, start_roused n memory⟩
  · exact fun _ _ _ kept step => ⟨kept.1.step step, kept.2.step kept.1 step⟩

theorem clean_kept (run : Trace (CleanStep n) (start memory) events s) : Whole n s ∧ Stopped n s := by
  change (fun s => Whole n s ∧ Stopped n s) s
  apply run.invariant
  · exact ⟨start_whole n memory, start_stopped n memory⟩
  · exact fun _ _ _ kept clean => ⟨kept.1.step clean.1, kept.2.step kept.1 clean⟩

end Askai.Log

/-!
# The lines of the log

Every line that a thread gives to `log_emit` is written whole and in its place, waits in its ring, or is
dropped and counted; the logger does not sleep over one; and what was logged before `log_stop` is
written before the logger is done.
-/

namespace Askai.Log

open Library

variable {n : Nat} {memory : Nat → Nat → UInt8} {events : List Event} {s : State}

/-- In every run, what was given to `log_emit` is in a ring or dropped, line by line; the lines put
into a ring are, in order, those that the logger took to write and those that wait; and what it wrote
and has in hand is what it took. A ring has the bytes of its lines from the tail to the head, until
the tail is past them. In `poll` the logger is being woken, or each line whose `log_emit` has returned
is written, and the state is unchanged or `log_stop` has yet to exchange `asleep`. If `log_stop` meets
the condition, then once the state is `DONE`, the lines that were put in before it are written. -/
theorem lines_kept (run : Run n memory events s) :
    (∀ i < n, (s.rings i).given = (s.rings i).fates.map Prod.fst ++ (s.rings i).emitter.line ∧
      ((s.rings i).fates.filter fun fate => fate.2).map Prod.fst = linesOf i s.entries ++ (s.rings i).rest) ∧
    s.out ++ s.stage.iov.flatMap s.bytes = s.entries.flatMap Prod.snd ∧
    s.dropped = tally n Ring.drops s.rings % sizeMax ∧
    (∀ i < n, linesOf i s.entries = (s.rings i).written ++ (s.rings i).batch ∧
      cyclic logRing (s.rings i).data (s.rings i).tail (apart sizeMax (s.rings i).head (s.rings i).tail) =
          ((s.rings i).batch ++ (s.rings i).rest).flatten) ∧ (s.stage = .polls → ¬Waking n s →
      (∀ i < n, (s.rings i).returned ≤ (s.rings i).written.length) ∧ (s.life ≠ .running → s.stopper = .swaps)) ∧
    (Trace (CleanStep n) (start memory) events s → s.life = .done → s.out = s.entries.flatMap Prod.snd ∧
        ∀ i < n, (s.rings i).puts.take (s.promised i) <+: linesOf i s.entries) := by
  obtain ⟨whole, roused⟩ := run_kept run
  refine ⟨?_, whole.out, whole.dropped, ?_, roused.polls, ?_⟩
  · intro i inside
    have intact := whole.rings i inside
    refine ⟨intact.given, ?_⟩
    rw [intact.fates, whole.lines i inside, Ring.puts, Ring.held, List.append_assoc]
  · intro i inside
    have intact := whole.rings i inside
    have room := intact.room
    have below := logRing_lt
    have place : (s.rings i).tail % logRing = (s.rings i).base % logRing := by
      rw [intact.tail, mod_mod_of_wrap logRing_dvd]
    have distance : apart sizeMax (s.rings i).head (s.rings i).tail = (s.rings i).used := by
      rw [intact.head, intact.tail, apart_mod (Nat.le_add_right _ _) (by omega), Nat.add_sub_cancel_left]
    refine ⟨whole.lines i inside, ?_⟩
    rw [distance, cyclic_congr place]
    exact intact.cells
  · intro clean done
    obtain ⟨-, stopped⟩ := clean_kept clean
    have finished := stopped.done done
    have promised := (stopped.ended (.inr finished)).2
    constructor
    · have out := whole.out
      rw [finished] at out
      rw [← out]
      exact (List.append_nil _).symm
    · intro i inside
      rw [whole.lines i inside, Ring.puts, List.take_append_of_le_length (promised i inside)]
      exact ( List.take_prefix _ _).trans (List.prefix_append _ _)

/-- The room of an empty ring. -/
theorem free_empty (memory : Nat → UInt8) : Ring.free { data := memory } 0 = logRing :=
  (start_intact memory).free_eq

theorem one_le_logRing : 1 ≤ logRing := by
  unfold logRing
  decide

/-- A line in its ring, which the logger has not seen. -/
theorem lines_kept_put : ∃ events s, Run 1 (fun _ _ => 0) events s ∧ (s.rings 0).rest = [[10]] ∧
    ((s.rings 0).fates.filter fun fate => fate.2).map Prod.fst = linesOf 0 s.entries ++ [[10]] := by
  have given : Run 1 (fun _ _ => 0) _ _ := .snoc .nil (.give (i := 0) [10] Nat.one_pos rfl nofun)
  have loaded : Run 1 (fun _ _ => 0) _ _ := .snoc given (.begin (i := 0) Nat.one_pos rfl)
  have room : [(10 : UInt8)].length ≤ Ring.free { data := fun _ => 0 } 0 := by
    rw [free_empty]
    exact one_le_logRing
  have fits : Run 1 (fun _ _ => 0) _ _ := .snoc loaded (.fit (i := 0) Nat.one_pos rfl room)
  have copied : Run 1 (fun _ _ => 0) _ _ :=
    .snoc fits (.copy (i := 0) Nat.one_pos rfl Nat.one_pos)
  have put : Run 1 (fun _ _ => 0) _ _ := .snoc copied (.publish (i := 0) Nat.one_pos rfl)
  exact ⟨_, _, put, rfl, ((lines_kept put).1 0 Nat.one_pos).2⟩

/-! ## A stop that races with a line -/

/-- Nothing is to be written of an empty ring. -/
theorem logPieces_empty : logPieces 0 0 0 = [] := by
  have intact := start_intact fun _ => 0
  exact (intact.pieces_eq 0).trans rfl

/-- The logger has gone past the ring as its thread puts a line in and returns; then `log_stop`
changes the state, and the logger, which found nothing, stops. -/
theorem log_stop_races : (∃ events s, Run 1 (fun _ _ => 0) events s ∧ s.life = .done ∧
      s.promised 0 = 1 ∧ (s.rings 0).fates = [([10], true)] ∧ s.out = []) ∧
    ∃ events s, Run 1 (fun _ _ => 0) events s ∧ s.stage = .polls ∧ s.life ≠ .running ∧ ¬Waking 1 s := by
  have begun : Run 1 (fun _ _ => 0) _ _ := .snoc .nil (.noNote rfl rfl)
  have looked : Run 1 (fun _ _ => 0) _ _ := .snoc begun (.scan rfl Nat.one_pos)
  constructor
  · have given : Run 1 (fun _ _ => 0) _ _ :=
      .snoc looked (.give (i := 0) [10] Nat.one_pos rfl nofun)
    have loaded : Run 1 (fun _ _ => 0) _ _ := .snoc given (.begin (i := 0) Nat.one_pos rfl)
    have room : [(10 : UInt8)].length ≤ Ring.free { data := fun _ => 0 } 0 := by
      rw [free_empty]
      exact one_le_logRing
    have fits : Run 1 (fun _ _ => 0) _ _ := .snoc loaded (.fit (i := 0) Nat.one_pos rfl room)
    have copied : Run 1 (fun _ _ => 0) _ _ :=
      .snoc fits (.copy (i := 0) Nat.one_pos rfl Nat.one_pos)
    have put : Run 1 (fun _ _ => 0) _ _ :=
      .snoc copied (.publish (i := 0) Nat.one_pos rfl)
    have returned : Run 1 (fun _ _ => 0) _ _ := .snoc put (.peek (i := 0) Nat.one_pos rfl)
    have called : Run 1 (fun _ _ => 0) _ _ := .snoc returned (.call rfl)
    have stopped : Run 1 (fun _ _ => 0) _ _ := .snoc called (.stop rfl rfl)
    have scanned : Run 1 (fun _ _ => 0) _ _ := .snoc stopped (.scanned rfl)
    have checked : Run 1 (fun _ _ => 0) _ _ := .snoc scanned (.check (if_pos logPieces_empty))
    have done : Run 1 (fun _ _ => 0) _ _ := .snoc checked (.finish rfl)
    exact ⟨_, _, done, rfl, rfl, rfl, rfl⟩
  · have scanned : Run 1 (fun _ _ => 0) _ _ := .snoc looked (.scanned rfl)
    have checked : Run 1 (fun _ _ => 0) _ _ := .snoc scanned (.check (if_pos logPieces_empty))
    have asleep : Run 1 (fun _ _ => 0) _ _ := .snoc checked (.sleep rfl)
    have running : Run 1 (fun _ _ => 0) _ _ := .snoc asleep (.pendingState rfl)
    have empty : Run 1 (fun _ _ => 0) _ _ := .snoc running (.pendingRing rfl Nat.one_pos)
    have polls : Run 1 (fun _ _ => 0) _ _ := .snoc empty (.pended rfl)
    have called : Run 1 (fun _ _ => 0) _ _ := .snoc polls (.call rfl)
    have stopped : Run 1 (fun _ _ => 0) _ _ := .snoc called (.stop rfl rfl)
    refine ⟨_, _, stopped, rfl, nofun, ?_⟩
    rintro (ready | signals | ⟨i, inside, signals⟩)
    · cases ready
    · cases signals
    · obtain rfl : i = 0 := by omega
      cases signals

end Askai.Log
