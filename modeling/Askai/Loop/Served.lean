import Askai.Loop.Turns

/-!
# Turns over hooks

Turns over lists of hooks are turns over plain lists, so what holds of those holds of the hooks.
-/

namespace Askai

open Library

variable {S : Type*} [DecidableEq S]

namespace Threads

variable {m : Links (ReadyHook S)} {lists : Nat → List S}

omit [DecidableEq S] in
theorem tidy (threads : Threads m lists) : Tidy lists where
  distinct _ inside := threads.distinct inside
  apart := threads.apart

theorem take_interactive (threads : Threads m lists) (idle : Idle lists) :
    Threads (ReadyLoop.takeLists hookLists m 0 2) (ReadyLoop.takeLists plainLists lists 0 2) := by
  have first := (threads.init (show 3 < 5 by decide) idle.1).transplant (show 3 < 5 by decide)
    (show 0 < 5 by decide) (by decide)
  have empty : plainLists.transplant (plainLists.init lists 3) 3 0 4 = [] := idle.2
  exact (first.init (by decide) empty).transplant (by decide) (by decide) (by decide)

theorem take_bulk (threads : Threads m lists) (idle : Idle lists) :
    Threads (ReadyLoop.takeLists hookLists m 2 1) (ReadyLoop.takeLists plainLists lists 2 1) :=
  (threads.init (by decide) idle.1).transplant (by decide) (by decide) (by decide)

/-- The rest of a batch goes back before the list it was taken from. -/
theorem put_back (threads : Threads m lists) {i j : Nat} (inside : i < 5) (inside' : j < 5) (other : i ≠ j) :
    Threads (hookLists.transplant (hookLists.transplant m i j) j i)
      (plainLists.transplant (plainLists.transplant lists i j) j i) :=
  (threads.transplant inside inside' other).transplant inside' inside other.symm

theorem put_interactive (threads : Threads m lists) :
    Threads (ReadyLoop.putLists hookLists m 0 2) (ReadyLoop.putLists plainLists lists 0 2) :=
  (threads.put_back (show 3 < 5 by decide) (show 0 < 5 by decide) (by decide)).put_back
    (show 4 < 5 by decide) (show 1 < 5 by decide) (by decide)

theorem put_bulk (threads : Threads m lists) :
    Threads (ReadyLoop.putLists hookLists m 2 1) (ReadyLoop.putLists plainLists lists 2 1) :=
  threads.put_back (by decide) (by decide) (by decide)

end Threads

namespace ReadyLoop

variable {loop : ReadyLoop (Links (ReadyHook S))} {plain : ReadyLoop (Nat → List S)}
  {did : Nat → StepDone S} {til clock fuel cursor : Nat}

variable {result : ReadyLoop (Nat → List S) × Nat × List (StepRun S)}

theorem Alike.run_interactive (alike : Alike loop plain) (idle : Idle plain.lists) (inside : cursor < 2)
    (ends : loopRun plainLists did 0 2 til clock fuel cursor plain = some result) :
    ∃ loop', loopRun hookLists did 0 2 til clock fuel cursor loop = some (loop', result.2) ∧ Alike loop' result.1 := by
  obtain ⟨⟨plain', i, ran⟩, steps, rfl⟩ := Option.map_eq_some_iff.mp ends
  have begun : Alike { loop with lists := takeLists hookLists loop.lists 0 2 }
      { plain with lists := takeLists plainLists plain.lists 0 2 } :=
    ⟨alike.threads.take_interactive idle, alike.exit, alike.stepping, alike.cursor⟩
  obtain ⟨loop', steps', alike'⟩ := begun.runSteps (Nat.le_refl 2) (by decide) inside steps
  refine ⟨{ loop' with lists := putLists hookLists loop'.lists 0 2 }, ?_, ?_⟩
  · rw [loopRun, steps', Option.map_some]
  · exact ⟨alike'.threads.put_interactive, alike'.exit, alike'.stepping, alike'.cursor⟩

theorem Alike.run_bulk (alike : Alike loop plain) (idle : Idle plain.lists)
    (ends : loopRun plainLists did 2 1 til clock fuel 0 plain = some result) :
    ∃ loop', loopRun hookLists did 2 1 til clock fuel 0 loop = some (loop', result.2) ∧ Alike loop' result.1 := by
  obtain ⟨⟨plain', i, ran⟩, steps, rfl⟩ := Option.map_eq_some_iff.mp ends
  have begun : Alike { loop with lists := takeLists hookLists loop.lists 2 1 }
      { plain with lists := takeLists plainLists plain.lists 2 1 } :=
    ⟨alike.threads.take_bulk idle, alike.exit, alike.stepping, alike.cursor⟩
  obtain ⟨loop', steps', alike'⟩ := begun.runSteps (show 1 ≤ 2 by decide) (by decide) (by decide) steps
  refine ⟨{ loop' with lists := putLists hookLists loop'.lists 2 1 }, ?_, ?_⟩
  · rw [loopRun, steps', Option.map_some]
  · exact ⟨alike'.threads.put_bulk, alike'.exit, alike'.stepping, alike'.cursor⟩

/-- A turn over hooks is the turn over plain lists. -/
theorem Alike.loopTurn (alike : Alike loop plain) (idle : Idle plain.lists) (inside : plain.cursor < 2)
    (turn : ReadyTurn S) {result : ReadyLoop (Nat → List S) × List (StepRun S) × List (StepRun S)}
    (ends : ReadyLoop.loopTurn plainLists fuel turn plain = some result) :
    ∃ loop', ReadyLoop.loopTurn hookLists fuel turn loop = some (loop', result.2) ∧ Alike loop' result.1 := by
  obtain ⟨⟨mid, c, ran⟩, first, rest⟩ := Option.bind_eq_some_iff.mp ends
  obtain ⟨⟨after, c', bulk⟩, second, rfl⟩ := Option.map_eq_some_iff.mp rest
  have called := alike.calls turn.calls
  have begun : Alike { loop.calls hookLists turn.calls with stepping := true }
      { plain.calls plainLists turn.calls with stepping := true } :=
    ⟨called.threads, called.exit, rfl, called.cursor⟩
  have cursor := (calls_rest plain turn.calls).2.1
  have inside' : (plain.calls plainLists turn.calls).cursor < 2 := by
    rw [cursor]
    exact inside
  have calledIdle : Idle (plain.calls plainLists turn.calls).lists := Idle.calls idle turn.calls
  obtain ⟨mid', first', between⟩ := begun.run_interactive calledIdle inside' first
  have midIdle : Idle mid.lists := by
    have spec := loopRun_interactive begun.threads.tidy calledIdle inside' first
    exact spec.idle
  have onward : Alike { mid' with cursor := c } { mid with cursor := c } :=
    ⟨between.threads, between.exit, between.stepping, rfl⟩
  obtain ⟨after', second', ended⟩ := onward.run_bulk midIdle second
  refine ⟨{ after' with stepping := false }, ?_, ended.threads, ended.exit, rfl, ended.cursor⟩
  rw [← called.cursor] at first'
  exact Option.bind_eq_some_iff.mpr ⟨_, first', Option.map_eq_some_iff.mpr ⟨_, second', rfl⟩⟩

/-! ## Fuel -/

variable {σ : Type*} {R : ReadyLists σ S} {fuel' : Nat}

omit [DecidableEq S] in
theorem runSteps_le {base n i empty t : Nat} {loop : ReadyLoop σ} {ran : List (StepRun S)} (more : fuel ≤ fuel')
    {result : ReadyLoop σ × Nat × List (StepRun S)}
    (ends : runSteps R did base n til fuel loop i empty t ran = some result) :
    runSteps R did base n til fuel' loop i empty t ran = some result := by
  induction fuel generalizing fuel' loop i empty t ran with
  | zero => exact nomatch ends
  | succ fuel ih =>
    obtain ⟨fuel', rfl⟩ : ∃ k, fuel' = k + 1 := ⟨fuel' - 1, by omega⟩
    have more' : fuel ≤ fuel' := Nat.le_of_succ_le_succ more
    rw [runSteps] at ends ⊢
    split at ends
    · next goes =>
      rw [if_pos goes]
      dsimp only at ends ⊢
      split at ends
      · exact ih more' ends
      · exact ih more' ends
    · next stops =>
      rw [if_neg stops]
      exact ends

omit [DecidableEq S] in
theorem loopRun_le {base n : Nat} {loop : ReadyLoop σ} (more : fuel ≤ fuel')
    {result : ReadyLoop σ × Nat × List (StepRun S)}
    (ends : loopRun R did base n til clock fuel cursor loop = some result) :
    loopRun R did base n til clock fuel' cursor loop = some result := by
  obtain ⟨stopped, steps, rfl⟩ := Option.map_eq_some_iff.mp ends
  rw [loopRun, runSteps_le more steps, Option.map_some]

omit [DecidableEq S] in
theorem loopTurn_le {loop : ReadyLoop σ} {turn : ReadyTurn S} (more : fuel ≤ fuel')
    {result : ReadyLoop σ × List (StepRun S) × List (StepRun S)}
    (ends : ReadyLoop.loopTurn R fuel turn loop = some result) :
    ReadyLoop.loopTurn R fuel' turn loop = some result := by
  obtain ⟨mid, first, rest⟩ := Option.bind_eq_some_iff.mp ends
  obtain ⟨after, second, rfl⟩ := Option.map_eq_some_iff.mp rest
  exact Option.bind_eq_some_iff.mpr
    ⟨mid, loopRun_le more first, Option.map_eq_some_iff.mpr ⟨after, loopRun_le more second, rfl⟩⟩

/-- Turns over hooks are the turns over plain lists. -/
theorem Alike.turns (alike : Alike loop plain) (idle : Idle plain.lists) (inside : plain.cursor < 2)
    {done : List (ReadyTurn S)} {plain' : ReadyLoop (Nat → List S)} {trace : List (List (StepRun S) × List (StepRun S))}
    (ends : ReadyLoop.turns plainLists fuel done plain = some (plain', trace)) :
    ∃ loop', (∀ fuel' ≥ fuel, ReadyLoop.turns hookLists fuel' done loop = some (loop', trace)) ∧
      Alike loop' plain' := by
  induction done generalizing loop plain trace with
  | nil =>
    obtain ⟨rfl, rfl⟩ := Prod.mk.inj (Option.some.inj ends)
    exact ⟨loop, fun _ _ => rfl, alike⟩
  | cons turn done ih =>
    obtain ⟨⟨mid, ran, bulk⟩, first, rest⟩ := Option.bind_eq_some_iff.mp ends
    obtain ⟨⟨last, later⟩, second, same⟩ := Option.map_eq_some_iff.mp rest
    obtain ⟨rfl, rfl⟩ := Prod.mk.inj same
    obtain ⟨mid', first', between⟩ := alike.loopTurn idle inside turn first
    obtain ⟨mid'', ran', bulk', -, enough, ends', -, -, idle', inside', -⟩ :=
      loopTurn_spec alike.threads.tidy idle inside turn
    have equal := (loopTurn_le (le_max_left fuel enough) first).symm.trans (ends' _ (le_max_right _ _))
    obtain ⟨rfl, -⟩ := Prod.mk.inj (Option.some.inj equal)
    obtain ⟨loop', second', alike'⟩ := ih between idle' inside' second
    refine ⟨loop', fun fuel' more => ?_, alike'⟩
    rw [ReadyLoop.turns, loopTurn_le more first', Option.bind_some]
    dsimp only
    rw [second' fuel' more, Option.map_some]

/-! ## The turns of a loop -/

/-- The ready lists over turns: what the last of any turns does with them, how the interactive steps of
the turns follow each other, and how many of them an entry waits for. -/
theorem ready_lists {loop : ReadyLoop (Links (ReadyHook S))} {lists : Nat → List S}
    (threads : Threads loop.lists lists) (idle : Idle lists) (inside : loop.cursor < 2)
    (done : List (ReadyTurn S)) (turn : ReadyTurn S) : ∃ begun trace ended ran bulk start before mid after enough,
      (∀ fuel ≥ enough, ReadyLoop.turns hookLists fuel done loop = some (begun, trace) ∧
        ReadyLoop.loopTurn hookLists fuel turn begun = some (ended, ran, bulk)) ∧
      Threads begun.lists start ∧ Threads (begun.calls hookLists turn.calls).lists before ∧
      Threads ended.lists after ∧ Idle after ∧ ended.cursor < 2 ∧
      (Rest start (turn.calls.filterMap ReadyCall.taken) (turn.calls.filterMap ReadyCall.queued) before ∧
        Queued before = turn.calls.foldl ReadyCall.after (Queued start)) ∧
      TurnLists before (begun.calls hookLists turn.calls).exit ran bulk mid after ∧
      Alternates (trace.flatMap Prod.fst ++ ran) ∧
      ∀ q < 2, ∀ front s back, lists q = front ++ s :: back → List.Forall₂ (Spared s) done trace →
        .unready s ∉ turn.calls → ∀ prior, prior <+: ran → (∀ r ∈ prior, Spares s r) →
          (trace.flatMap Prod.fst).length + prior.length ≤ 2 * front.length + 1 := by
  obtain ⟨plain, plainIs⟩ : ∃ plain : ReadyLoop (Nat → List S), plain =
    { lists, exit := loop.exit, stepping := loop.stepping, cursor := loop.cursor } := ⟨_, rfl⟩
  have alike : Alike loop plain := by
    rw [plainIs]
    exact ⟨threads, rfl, rfl, rfl⟩
  have plainLists_ : plain.lists = lists := by rw [plainIs]
  have idle' : Idle plain.lists := plainLists_ ▸ idle
  have inside' : plain.cursor < 2 := alike.cursor ▸ inside
  obtain ⟨begun, trace, enough, turned, tidy, idle'', inside'', alternate, waits⟩ :=
    turns_spec alike.threads.tidy idle' inside' done
  obtain ⟨begun', turned', alike'⟩ := alike.turns idle' inside' (turned enough (Nat.le_refl enough))
  obtain ⟨ended, ran, bulk, mid, enough', last, lists', -, idleEnd, insideEnd, alternate', waits'⟩ :=
    loopTurn_spec tidy idle'' inside'' turn
  obtain ⟨ended', last', alikeEnd⟩ := alike'.loopTurn idle'' inside'' turn (last enough' (Nat.le_refl enough'))
  have called := alike'.calls turn.calls
  have start := (Called.start tidy).calls turn.calls
  have nothing : Alternates ([] : List (StepRun S)) := List.isChain_nil
  obtain ⟨alternates, next⟩ := alternate [] nothing nofun
  refine ⟨begun', trace, ended', ran, bulk, begun.lists, _, mid, ended.lists, max enough enough',
    fun fuel more => ⟨turned' fuel (le_trans (le_max_left _ _) more),
      loopTurn_le (le_trans (le_max_right _ _) more) last'⟩,
    alike'.threads, called.threads, alikeEnd.threads, idleEnd, ?_, ⟨?_, queued_calls tidy turn.calls⟩, ?_,
    (alternate' _ alternates next).1, ?_⟩
  · rw [alikeEnd.cursor]
    exact insideEnd
  · intro i few
    obtain ⟨tail, split, new, -⟩ := start.left i (by omega)
    exact ⟨tail, split, new⟩
  · rw [called.exit]
    exact lists'
  · intro q few front s back split spared spares prior starts spared'
    have waiting : Waiting plain.lists q q s plain.cursor 0 (2 * front.length + 1) := by
      refine ⟨front.length, ⟨front, back, ?_, Nat.le_refl _⟩, ?_⟩
      · rw [plainLists_, split]
      · split <;> omega
    have onward := waits q few s 0 _ waiting spared
    have within := (waits' q few s _ _ onward spares).1 prior starts spared'
    rw [Nat.zero_add] at within
    exact within

/-- Hooks of lists that are empty. -/
def emptyHooks : Links (ReadyHook S) where
  next
    | .list i => some (.list i)
    | .step _ => none
  prev
    | .list i => some (.list i)
    | .step _ => none

omit [DecidableEq S] in
theorem threads_empty : Threads (emptyHooks : Links (ReadyHook S)) fun _ => [] where
  circles _ _ := ⟨⟨rfl, rfl⟩, List.nodup_singleton _⟩
  apart _ _ _ _ _ here := nomatch here
  off _ _ := rfl

/-- Three fresh entries, and an ongoing one. -/
def threeAndOne : ReadyLoop (Links (ReadyHook Nat)) :=
  { lists := hookLists.enqueue (hookLists.enqueue (hookLists.enqueue (hookLists.enqueue emptyHooks 0 1) 0 2) 0 3) 1 4 }

def threeAndOneLists : Nat → List Nat :=
  plainLists.enqueue (plainLists.enqueue (plainLists.enqueue (plainLists.enqueue (fun _ => []) 0 1) 0 2) 0 3) 1 4

/-- The second step of the turn queues its entry again. -/
def threeAndOneTurn : ReadyTurn Nat :=
  { calls := [], start := 0, clock := 0, did := fun k => ⟨if k = 1 then [.ready 4] else [], 0⟩
    bulkClock := 0, bulkDid := fun _ => ⟨[], 0⟩ }

theorem threads_threeAndOne : Threads threeAndOne.lists threeAndOneLists := by
  have fresh : 0 < 5 := by decide
  have ongoing : 1 < 5 := by decide
  exact (((threads_empty.enqueue fresh 1).enqueue fresh 2).enqueue fresh 3).enqueue ongoing 4

/-- The steps of a turn from three fresh entries and an ongoing one. -/
theorem ready_lists_one : ∃ begun trace ended ran bulk enough, ∀ fuel ≥ enough,
      ReadyLoop.turns hookLists fuel [threeAndOneTurn] threeAndOne = some (begun, trace) ∧
        ReadyLoop.loopTurn hookLists fuel threeAndOneTurn begun = some (ended, ran, bulk) := by
  obtain ⟨begun, trace, ended, ran, bulk, -, -, -, -, enough, ends, -⟩ :=
    ready_lists threads_threeAndOne ⟨rfl, rfl⟩ (by decide) [threeAndOneTurn] threeAndOneTurn
  exact ⟨begun, trace, ended, ran, bulk, enough, ends⟩

/-- Two steps in a row are from the fresh list, though the ongoing list has the entry that queued itself. -/
theorem same_list_twice :
    ¬ ∀ (loop : ReadyLoop (Links (ReadyHook Nat))) (lists : Nat → List Nat) (turn : ReadyTurn Nat) fuel ended
      (ran bulk : List (StepRun Nat)), Threads loop.lists lists → Idle lists → loop.cursor < 2 →
      ReadyLoop.loopTurn hookLists fuel turn loop = some (ended, ran, bulk) →
      ran.IsChain fun r r' => r.list ≠ r'.list ∨ r'.batch = none ∧ r'.other = none := by
  intro strict
  have steps : ((ReadyLoop.loopTurn hookLists 9 threeAndOneTurn threeAndOne).map fun result => result.2.1) =
      some [⟨0, 1, [], some 4, none⟩, ⟨1, 4, [.ready 4], some 2, none⟩, ⟨0, 2, [], none, some 4⟩,
        ⟨0, 3, [], none, some 4⟩] := by decide
  obtain ⟨⟨ended, ran, bulk⟩, ends, rfl⟩ := Option.map_eq_some_iff.mp steps
  have chain := strict _ _ _ _ _ _ _ threads_threeAndOne ⟨rfl, rfl⟩ (by decide) ends
  revert chain
  decide

end ReadyLoop

end Askai
