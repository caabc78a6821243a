import Askai.Loop.Fair
import Askai.Loop.Threads

/-!
# The ready lists over turns

What a turn does with the ready lists, for any calls of its callbacks and its steps, and how the
interactive steps of turns follow each other.
-/

namespace Askai

open Library List

variable {S : Type*} [DecidableEq S]

/-- No entry is in a batch. -/
def Idle (lists : Nat → List S) : Prop :=
  lists 3 = [] ∧ lists 4 = []

/-- What is left of the ready lists without those that are gone, in order, comes before those that were
queued since. -/
def Rest (lists : Nat → List S) (gone fresh : List S) (lists' : Nat → List S) : Prop :=
  ∀ i < 3, ∃ tail, lists' i = (lists i).filter (· ∉ gone) ++ tail ∧ ∀ x ∈ tail, x ∈ fresh

variable {lists lists' lists'' : Nat → List S} {gone gone' fresh fresh' : List S} {s : S} {i j q : Nat}

theorem Rest.trans (first : Rest lists gone fresh lists') (second : Rest lists' gone' fresh' lists'') :
    Rest lists (gone ++ gone') (fresh ++ fresh') lists'' := by
  intro i inside
  obtain ⟨tail, split, new⟩ := first i inside
  obtain ⟨tail', split', new'⟩ := second i inside
  refine ⟨tail.filter (· ∉ gone') ++ tail', ?_, fun x member => ?_⟩
  · rw [split', split, filter_append, filter_filter, append_assoc]
    congr 1
    apply filter_congr
    intro x _
    rw [Bool.eq_iff_iff]
    simp [and_comm]
  · rcases mem_append.mp member with old | late
    · exact mem_append_left _ (new x (mem_of_mem_filter old))
    · exact mem_append_right _ (new' x late)

/-! ## Batches -/

theorem Tidy.transplant (tidy : Tidy lists) (inside : i < 5) (inside' : j < 5) (other : i ≠ j) :
    Tidy (plainLists.transplant lists i j) ∧ Queued (plainLists.transplant lists i j) = Queued lists := by
  obtain ⟨moved, movedIs⟩ : ∃ moved, moved = plainLists.transplant lists i j := ⟨_, rfl⟩
  have atJ : moved j = [] := by
    rw [movedIs]
    exact Function.update_self _ _ _
  have atI : moved i = lists i ++ lists j := by
    rw [movedIs]
    exact (Function.update_of_ne other _ _).trans (Function.update_self _ _ _)
  have rest : ∀ k, k ≠ i → k ≠ j → moved k = lists k := by
    intro k notI notJ
    rw [movedIs]
    exact (Function.update_of_ne notJ _ _).trans (Function.update_of_ne notI _ _)
  rw [← movedIs]
  have mem : ∀ k x, x ∈ moved k ↔ (k ≠ j ∧ x ∈ lists k) ∨ k = i ∧ x ∈ lists j := by
    intro k x
    rcases eq_or_ne k j with rfl | notJ
    · rw [atJ]
      simp [other.symm]
    · rcases eq_or_ne k i with rfl | notI
      · rw [atI, mem_append]
        simp [notJ]
      · rw [rest k notI notJ]
        simp [notI, notJ]
  refine ⟨⟨fun k within => ?_, fun k within k' within' x here there => ?_⟩, ?_⟩
  · rcases eq_or_ne k j with rfl | notJ
    · rw [atJ]
      exact nodup_nil
    · rcases eq_or_ne k i with rfl | notI
      · rw [atI, nodup_append]
        refine ⟨tidy.distinct k within, tidy.distinct j inside', ?_⟩
        rintro x here y there rfl
        exact notJ (tidy.apart k within j inside' x here there)
      · rw [rest k notI notJ]
        exact tidy.distinct k within
  · rcases (mem k x).mp here with ⟨notJ, was⟩ | ⟨first, was⟩ <;>
      rcases (mem k' x).mp there with ⟨notJ', was'⟩ | ⟨second, was'⟩
    · exact tidy.apart k within k' within' x was was'
    · exact absurd (tidy.apart k within j inside' x was was') notJ
    · exact absurd (tidy.apart k' within' j inside' x was' was) notJ'
    · exact first.trans second.symm
  · funext x
    apply propext
    constructor
    · rintro ⟨k, within, member⟩
      rcases (mem k x).mp member with ⟨-, was⟩ | ⟨-, was⟩
      · exact ⟨k, within, was⟩
      · exact ⟨j, inside', was⟩
    · rintro ⟨k, within, member⟩
      rcases eq_or_ne k j with rfl | notJ
      · exact ⟨i, inside, (mem i x).mpr (.inr ⟨rfl, member⟩)⟩
      · exact ⟨k, within, (mem k x).mpr (.inl ⟨notJ, member⟩)⟩

theorem init_empty (empty : lists i = []) : plainLists.init lists i = lists := by
  change Function.update lists i [] = lists
  rw [← empty]
  exact Function.update_eq_self i lists

namespace ReadyLoop

/-- The batches of the interactive lists. -/
theorem take_interactive (tidy : Tidy lists) (idle : Idle lists) :
    Tidy (takeLists plainLists lists 0 2) ∧ Queued (takeLists plainLists lists 0 2) = Queued lists := by
  have first := tidy.transplant (show 3 < 5 by decide) (show 0 < 5 by decide) (by decide)
  have second := first.1.transplant (show 4 < 5 by decide) (show 1 < 5 by decide) (by decide)
  have empty : plainLists.transplant lists 3 0 4 = [] := idle.2
  have same : takeLists plainLists lists 0 2 = plainLists.transplant (plainLists.transplant lists 3 0) 4 1 := by
    change plainLists.transplant (plainLists.init (plainLists.transplant (plainLists.init lists 3) 3 0) 4) 4 1 = _
    rw [init_empty idle.1, init_empty empty]
  rw [same]
  exact ⟨second.1, second.2.trans first.2⟩

/-- The batch of the bulk list. -/
theorem take_bulk (tidy : Tidy lists) (idle : Idle lists) :
    Tidy (takeLists plainLists lists 2 1) ∧ Queued (takeLists plainLists lists 2 1) = Queued lists := by
  have same : takeLists plainLists lists 2 1 = plainLists.transplant lists 3 2 := by
    change plainLists.transplant (plainLists.init lists 3) 3 2 = _
    rw [init_empty idle.1]
  rw [same]
  exact tidy.transplant (by decide) (by decide) (by decide)

theorem put_interactive (tidy : Tidy lists) :
    Tidy (putLists plainLists lists 0 2) ∧ Queued (putLists plainLists lists 0 2) = Queued lists := by
  have first := tidy.transplant (show 3 < 5 by decide) (show 0 < 5 by decide) (by decide)
  have second := first.1.transplant (show 0 < 5 by decide) (show 3 < 5 by decide) (by decide)
  have third := second.1.transplant (show 4 < 5 by decide) (show 1 < 5 by decide) (by decide)
  have fourth := third.1.transplant (show 1 < 5 by decide) (show 4 < 5 by decide) (by decide)
  exact ⟨fourth.1, fourth.2.trans (third.2.trans (second.2.trans first.2))⟩

theorem put_bulk (tidy : Tidy lists) :
    Tidy (putLists plainLists lists 2 1) ∧ Queued (putLists plainLists lists 2 1) = Queued lists := by
  have first := tidy.transplant (show 3 < 5 by decide) (show 2 < 5 by decide) (by decide)
  have second := first.1.transplant (show 2 < 5 by decide) (show 3 < 5 by decide) (by decide)
  exact ⟨second.1, second.2.trans first.2⟩

/-! ## The two calls of `loop_run` -/

/-- What a call of `loop_run` does, with the lists from `base` on, `n` of them. -/
structure RunSpec (base n : Nat) (loop loop' : ReadyLoop (Nat → List S)) (ran : List (StepRun S)) : Prop where
  tidy : Tidy loop'.lists
  idle : Idle loop'.lists
  rest : Rest loop.lists (ran.flatMap StepRun.takes) (ran.flatMap StepRun.puts) loop'.lists
  queued : Queued loop'.lists = ran.foldl StepRun.after (Queued loop.lists)
  once : (ran.map StepRun.step).Nodup
  sources : ∀ r ∈ ran, r.list < base + n ∧ base ≤ r.list ∧ r.step ∈ loop.lists r.list
  exit : loop'.exit = false ↔ loop.exit = false ∧ ∀ r ∈ ran, .exit ∉ r.calls
  starts : loop.exit = false → (∃ k < n, loop.lists (base + k) ≠ []) → ran ≠ []

variable {loop : ReadyLoop (Nat → List S)} {did : Nat → StepDone S} {til clock fuel cursor : Nat}

variable {result : ReadyLoop (Nat → List S) × Nat × List (StepRun S)}

theorem loopRun_interactive (tidy : Tidy loop.lists) (idle : Idle loop.lists) (inside : cursor < 2)
    (ends : loopRun plainLists did 0 2 til clock fuel cursor loop = some result) :
    RunSpec 0 2 loop result.1 result.2.2 := by
  obtain ⟨⟨loop', i, ran⟩, steps, rfl⟩ := Option.map_eq_some_iff.mp ends
  obtain ⟨tidy', queued'⟩ := take_interactive tidy idle
  have progress := runSteps_progress (by decide) inside tidy' steps
  obtain ⟨called, queued, once, sources, exit, -⟩ := progress
  obtain ⟨putTidy, putQueued⟩ := put_interactive called.tidy
  -- what follows a batch in its list is what was queued, and a batch has nothing of it
  have left : ∀ k < 5, _ := called.left
  refine ⟨putTidy, ⟨rfl, rfl⟩, ?_, ?_, once, ?_, exit, ?_⟩
  · intro k within
    obtain rfl | rfl | rfl : k = 0 ∨ k = 1 ∨ k = 2 := by omega
    · obtain ⟨none_, split, -, empty⟩ := left 3 (by decide)
      obtain ⟨tail, split', new, -⟩ := left 0 (by decide)
      refine ⟨tail, ?_, new⟩
      change loop'.lists 3 ++ loop'.lists 0 = _
      rw [split, split', empty (by decide), append_nil]
      rfl
    · obtain ⟨none_, split, -, empty⟩ := left 4 (by decide)
      obtain ⟨tail, split', new, -⟩ := left 1 (by decide)
      refine ⟨tail, ?_, new⟩
      change loop'.lists 4 ++ loop'.lists 1 = _
      rw [split, split', empty (by decide), append_nil]
      rfl
    · obtain ⟨tail, split, new, -⟩ := left 2 (by decide)
      exact ⟨tail, split, new⟩
  · rw [putQueued, queued, queued']
  · intro r here
    obtain ⟨k, within, list, member⟩ := sources r here
    obtain rfl | rfl : k = 0 ∨ k = 1 := by omega
    · rw [list]
      exact ⟨by decide, by decide, member⟩
    · rw [list]
      exact ⟨by decide, by decide, member⟩
  · rintro goes ⟨k, within, some_⟩
    have goes' : ({ loop with lists := takeLists plainLists loop.lists 0 2 } : ReadyLoop _).exit = false := goes
    have batch : takeLists plainLists loop.lists 0 2 (3 + k) ≠ [] := by
      obtain rfl | rfl : k = 0 ∨ k = 1 := by omega
      · exact some_
      · exact some_
    have starts := runSteps_starts inside within goes' batch steps
    exact starts

theorem loopRun_bulk (tidy : Tidy loop.lists) (idle : Idle loop.lists)
    (ends : loopRun plainLists did 2 1 til clock fuel 0 loop = some result) :
    RunSpec 2 1 loop result.1 result.2.2 ∧ result.1.cursor = loop.cursor := by
  obtain ⟨⟨loop', i, ran⟩, steps, rfl⟩ := Option.map_eq_some_iff.mp ends
  obtain ⟨tidy', queued'⟩ := take_bulk tidy idle
  have progress := runSteps_progress (by decide) (by decide) tidy' steps
  obtain ⟨called, queued, once, sources, exit, -, cursor'⟩ := progress
  obtain ⟨putTidy, putQueued⟩ := put_bulk called.tidy
  have left : ∀ k < 5, _ := called.left
  refine ⟨⟨putTidy, ⟨rfl, ?_⟩, ?_, ?_, once, ?_, exit, ?_⟩, cursor'⟩
  · obtain ⟨tail, split, -, empty⟩ := left 4 (by decide)
    change loop'.lists 4 = []
    rw [split, empty (by decide), append_nil]
    change (loop.lists 4).filter _ = []
    rw [idle.2, filter_nil]
  · intro k within
    obtain rfl | rfl | rfl : k = 0 ∨ k = 1 ∨ k = 2 := by omega
    · obtain ⟨tail, split, new, -⟩ := left 0 (by decide)
      exact ⟨tail, split, new⟩
    · obtain ⟨tail, split, new, -⟩ := left 1 (by decide)
      exact ⟨tail, split, new⟩
    · obtain ⟨none_, split, -, empty⟩ := left 3 (by decide)
      obtain ⟨tail, split', new, -⟩ := left 2 (by decide)
      refine ⟨tail, ?_, new⟩
      change loop'.lists 3 ++ loop'.lists 2 = _
      rw [split, split', empty (by decide), append_nil]
      rfl
  · rw [putQueued, queued, queued']
  · intro r here
    obtain ⟨k, within, list, member⟩ := sources r here
    obtain rfl : k = 0 := by omega
    rw [list]
    exact ⟨by decide, by decide, member⟩
  · rintro goes ⟨k, within, some_⟩
    obtain rfl : k = 0 := by omega
    have goes' : ({ loop with lists := takeLists plainLists loop.lists 2 1 } : ReadyLoop _).exit = false := goes
    have batch : takeLists plainLists loop.lists 2 1 (3 + 0) ≠ [] := some_
    have starts := runSteps_starts (show 0 < 1 by decide) within goes' batch steps
    exact starts

/-- The interactive steps of a call go on where those before it stopped. -/
theorem loopRun_alternates {past : List (StepRun S)} (inside : cursor < 2) (alternates : Alternates past)
    (next : Next cursor past) (ends : loopRun plainLists did 0 2 til clock fuel cursor loop = some result) :
    result.2.1 < 2 ∧ Alternates (past ++ result.2.2) ∧ Next result.2.1 (past ++ result.2.2) := by
  obtain ⟨⟨loop', i, ran⟩, steps, rfl⟩ := Option.map_eq_some_iff.mp ends
  have turn := runSteps_alternates inside alternates next steps
  exact turn

/-- While no step of a call runs the entry or takes it off its list, it waits behind fewer entries. -/
theorem loopRun_waits {past most : Nat} (inside : cursor < 2) (few : q < 2)
    (waiting : Waiting loop.lists q q s cursor past most)
    (ends : loopRun plainLists did 0 2 til clock fuel cursor loop = some result) :
    (∀ before, before <+: result.2.2 → (∀ r ∈ before, Spares s r) → past + before.length ≤ most) ∧
      ((∀ r ∈ result.2.2, Spares s r) → Waiting result.1.lists q q s result.2.1 (past + result.2.2.length) most) := by
  obtain ⟨⟨loop', i, ran⟩, steps, rfl⟩ := Option.map_eq_some_iff.mp ends
  have batch : Waiting (takeLists plainLists loop.lists 0 2) (3 + q) q s cursor past most := by
    obtain rfl | rfl : q = 0 ∨ q = 1 := by omega
    · exact waiting
    · exact waiting
  obtain ⟨within, still⟩ := runSteps_waits inside few batch steps
  refine ⟨within, fun spared => ?_⟩
  obtain ⟨p, ⟨front, back, split, before⟩, room⟩ := still spared
  refine ⟨p, ?_, room⟩
  obtain rfl | rfl : q = 0 ∨ q = 1 := by omega
  · refine ⟨front, back ++ loop'.lists 0, ?_, before⟩
    change loop'.lists 3 ++ loop'.lists 0 = _
    rw [split, append_assoc, cons_append]
  · refine ⟨front, back ++ loop'.lists 1, ?_, before⟩
    change loop'.lists 4 ++ loop'.lists 1 = _
    rw [split, append_assoc, cons_append]

/-- Bulk steps that neither run the entry nor take it off its list put nothing before it. -/
theorem loopRun_bulk_waits {p : Nat} (list : q < 2) (behind : Behind loop.lists q s p)
    (ends : loopRun plainLists did 2 1 til clock fuel 0 loop = some result)
    (spared : ∀ r ∈ result.2.2, Spares s r) : Behind result.1.lists q s p := by
  obtain ⟨⟨loop', i, ran⟩, steps, rfl⟩ := Option.map_eq_some_iff.mp ends
  have taken : Behind (takeLists plainLists loop.lists 2 1) q s p := by
    obtain rfl | rfl : q = 0 ∨ q = 1 := by omega
    · exact behind
    · exact behind
  have keeps := runSteps_invariant
    (fun loop _ _ _ ran => (∀ r ∈ ran, Spares s r) → Behind loop.lists q s p) (fun _ => taken)
    ?_ ?_ steps
  · obtain ⟨-, -, kept, -⟩ := keeps
    obtain rfl | rfl : q = 0 ∨ q = 1 := by omega
    · exact kept spared
    · exact kept spared
  · exact fun _ _ _ _ _ kept _ _ => kept
  · intro loop i empty t ran x l kept _ _ spared
    obtain ⟨other, spares⟩ := spared _ (mem_append_right _ mem_cons_self)
    have behind := kept fun r here => spared r (mem_append_left _ here)
    exact Behind.calls (behind.unready other) spares

/-! ## Turns -/

/-- What a turn does with the lists as its callbacks leave them, `before`: after its interactive steps they
are `mid`, and after its bulk steps `after`. -/
structure TurnLists (before : Nat → List S) (exits : Bool) (ran bulk : List (StepRun S))
    (mid after : Nat → List S) : Prop where
  once : (ran.map StepRun.step).Nodup ∧ (bulk.map StepRun.step).Nodup
  sources : ∀ r ∈ ran, r.list < 2 ∧ r.step ∈ before r.list
  bulkSources : ∀ r ∈ bulk, r.list = 2 ∧ r.step ∈ mid 2
  starts : exits = false → (before 0 ≠ [] ∨ before 1 ≠ []) → ran ≠ []
  startsBulk : exits = false → (∀ r ∈ ran, .exit ∉ r.calls) → mid 2 ≠ [] → bulk ≠ []
  rest : Rest before (ran.flatMap StepRun.takes) (ran.flatMap StepRun.puts) mid ∧
    Rest before ((ran ++ bulk).flatMap StepRun.takes) ((ran ++ bulk).flatMap StepRun.puts) after
  queued : Queued after = (ran ++ bulk).foldl StepRun.after (Queued before)

theorem RunSpec.turn {mid after : ReadyLoop (Nat → List S)} {ran bulk : List (StepRun S)}
    (first : RunSpec 0 2 loop mid ran) (second : RunSpec 2 1 mid after bulk) :
    TurnLists loop.lists loop.exit ran bulk mid.lists after.lists where
  once := ⟨first.once, second.once⟩
  sources r here := ⟨(first.sources r here).1, (first.sources r here).2.2⟩
  bulkSources r here := by
    obtain ⟨below, above, member⟩ := second.sources r here
    have same : r.list = 2 := by omega
    rw [same] at member
    exact ⟨same, member⟩
  starts goes some_ := by
    apply first.starts goes
    rcases some_ with some_ | some_
    · exact ⟨0, by decide, some_⟩
    · exact ⟨1, by decide, some_⟩
  startsBulk goes stays some_ :=
    second.starts (first.exit.mpr ⟨goes, stays⟩) ⟨0, by decide, some_⟩
  rest := by
    refine ⟨first.rest, ?_⟩
    rw [flatMap_append, flatMap_append]
    exact first.rest.trans second.rest
  queued := by rw [foldl_append, ← first.queued, second.queued]

theorem loopRun_ends (did : Nat → StepDone S) (base n til clock : Nat) (few : n ≤ 2) (inside : cursor < n)
    (loop : ReadyLoop (Nat → List S)) : ∃ result enough, ∀ fuel ≥ enough,
      loopRun plainLists did base n til clock fuel cursor loop = some result := by
  obtain ⟨result, enough, ends⟩ := runSteps_ends did base n til few
    { loop with lists := takeLists plainLists loop.lists base n } cursor 0 clock [] inside
  obtain ⟨loop', i, ran⟩ := result
  refine ⟨({ loop' with lists := putLists plainLists loop'.lists base n }, i, ran), enough, fun fuel most => ?_⟩
  rw [loopRun, ends fuel most, Option.map_some]

/-- Calls put nothing into a batch. -/
theorem Idle.calls (idle : Idle loop.lists) (calls : List (ReadyCall S)) :
    Idle (loop.calls plainLists calls).lists := by
  have three := length_calls loop calls (Nat.le_refl 3)
  have four := length_calls loop calls (show 3 ≤ 4 by decide)
  rw [idle.1] at three
  rw [idle.2] at four
  exact ⟨eq_nil_of_length_eq_zero (Nat.le_zero.mp three), eq_nil_of_length_eq_zero (Nat.le_zero.mp four)⟩

/-- An entry that no step of a turn runs, and that nothing takes off its list. -/
def Spared (s : S) (turn : ReadyTurn S) (ran : List (StepRun S) × List (StepRun S)) : Prop :=
  .unready s ∉ turn.calls ∧ ∀ r ∈ ran.1 ++ ran.2, Spares s r

/-- All that a turn does, over plain lists. -/
theorem loopTurn_spec (tidy : Tidy loop.lists) (idle : Idle loop.lists) (inside : loop.cursor < 2)
    (turn : ReadyTurn S) : ∃ loop' ran bulk mid enough,
      (∀ fuel ≥ enough, loopTurn plainLists fuel turn loop = some (loop', ran, bulk)) ∧
      TurnLists (loop.calls plainLists turn.calls).lists (loop.calls plainLists turn.calls).exit ran bulk mid
        loop'.lists ∧ Tidy loop'.lists ∧ Idle loop'.lists ∧ loop'.cursor < 2 ∧
      (∀ past, Alternates past → Next loop.cursor past → Alternates (past ++ ran) ∧ Next loop'.cursor (past ++ ran)) ∧
      ∀ q < 2, ∀ s past most, Waiting loop.lists q q s loop.cursor past most → .unready s ∉ turn.calls →
        (∀ before, before <+: ran → (∀ r ∈ before, Spares s r) → past + before.length ≤ most) ∧
          ((∀ r ∈ ran ++ bulk, Spares s r) → Waiting loop'.lists q q s loop'.cursor (past + ran.length) most) := by
  obtain ⟨called, calledIs⟩ : ∃ called, called = loop.calls plainLists turn.calls := ⟨_, rfl⟩
  obtain ⟨stepping, cursor, exit⟩ := calls_rest loop turn.calls
  have start := (Called.start tidy).calls turn.calls
  rw [← calledIs] at stepping cursor exit start
  have calledIdle : Idle called.lists := by
    rw [calledIs]
    exact Idle.calls idle turn.calls
  -- the interactive steps
  obtain ⟨begun, begunIs⟩ : ∃ begun, begun = { called with stepping := true } := ⟨_, rfl⟩
  have begunLists : begun.lists = called.lists := by rw [begunIs]
  have begunExit : begun.exit = called.exit := by rw [begunIs]
  have sameCursor : begun.cursor = called.cursor := by rw [begunIs]
  have begunCursor : begun.cursor = loop.cursor := sameCursor.trans cursor
  have inside' : begun.cursor < 2 := by
    rw [begunCursor]
    exact inside
  obtain ⟨⟨mid, c, ran⟩, enough, ends⟩ := loopRun_ends turn.did 0 2 (turn.start + interactiveNs) turn.clock
    (Nat.le_refl 2) inside' begun
  have first := loopRun_interactive (begunLists ▸ start.tidy) (begunLists ▸ calledIdle) inside'
    (ends enough (Nat.le_refl enough))
  -- the bulk steps
  obtain ⟨between, betweenIs⟩ : ∃ between, between = { mid with cursor := c } := ⟨_, rfl⟩
  have onward : RunSpec 0 2 begun between ran := by
    rw [betweenIs]
    exact ⟨first.tidy, first.idle, first.rest, first.queued, first.once, first.sources, first.exit, first.starts⟩
  obtain ⟨⟨after, c', bulk⟩, enough', ends'⟩ := loopRun_ends turn.bulkDid 2 1 (turn.start + bulkNs) turn.bulkClock
    (show 1 ≤ 2 by decide) Nat.one_pos between
  obtain ⟨second, kept⟩ := loopRun_bulk onward.tidy onward.idle (ends' enough' (Nat.le_refl enough'))
  have cursor' : after.cursor = c := by rw [kept, betweenIs]
  refine ⟨{ after with stepping := false }, ran, bulk, between.lists, max enough enough', fun fuel most => ?_, ?_,
    second.tidy, second.idle, ?_, ?_, ?_⟩
  · rw [loopTurn]
    dsimp only
    rw [← calledIs, ← begunIs, ← sameCursor, ends fuel (le_trans (le_max_left _ _) most), Option.bind_some]
    dsimp only
    rw [← betweenIs, ends' fuel (le_trans (le_max_right _ _) most), Option.map_some]
  · have whole := onward.turn second
    rw [begunLists, begunExit, calledIs] at whole
    exact whole
  · have nothing : Alternates ([] : List (StepRun S)) := isChain_nil
    have turned := loopRun_alternates inside' nothing nofun (ends enough (Nat.le_refl enough))
    change after.cursor < 2
    rw [cursor']
    exact turned.1
  · intro past alternates next
    have turned := loopRun_alternates inside' alternates (begunCursor ▸ next) (ends enough (Nat.le_refl enough))
    change _ ∧ Next after.cursor _
    rw [cursor']
    exact turned.2
  · rintro q list s past most ⟨p, behind, room⟩ spares
    have waiting : Waiting begun.lists q q s begun.cursor past most := by
      rw [begunLists, calledIs, begunCursor]
      exact ⟨p, behind.calls spares, room⟩
    obtain ⟨within, still⟩ := loopRun_waits inside' list waiting (ends enough (Nat.le_refl enough))
    refine ⟨within, fun spared => ?_⟩
    obtain ⟨p', behind', room'⟩ := still fun r here => spared r (mem_append_left _ here)
    refine ⟨p', ?_, ?_⟩
    · have between' : Behind between.lists q s p' := by
        rw [betweenIs]
        exact behind'
      exact loopRun_bulk_waits list between' (ends' enough' (Nat.le_refl enough'))
        fun r here => spared r (mem_append_right _ here)
    · change _ + (if after.cursor = q then 0 else 1) ≤ most
      rw [cursor']
      exact room'

/-- What turns one after the other do, over plain lists. -/
theorem turns_spec (tidy : Tidy loop.lists) (idle : Idle loop.lists) (inside : loop.cursor < 2)
    (done : List (ReadyTurn S)) : ∃ loop' trace enough,
      (∀ fuel ≥ enough, turns plainLists fuel done loop = some (loop', trace)) ∧
      Tidy loop'.lists ∧ Idle loop'.lists ∧ loop'.cursor < 2 ∧ (∀ past, Alternates past → Next loop.cursor past →
        Alternates (past ++ trace.flatMap Prod.fst) ∧ Next loop'.cursor (past ++ trace.flatMap Prod.fst)) ∧
      ∀ q < 2, ∀ s past most, Waiting loop.lists q q s loop.cursor past most → List.Forall₂ (Spared s) done trace →
        Waiting loop'.lists q q s loop'.cursor (past + (trace.flatMap Prod.fst).length) most := by
  induction done generalizing loop with
  | nil =>
    refine ⟨loop, [], 0, fun _ _ => rfl, tidy, idle, inside, fun past alternates next => ?_, ?_⟩
    · rw [flatMap_nil, append_nil]
      exact ⟨alternates, next⟩
    · exact fun q few s past most waiting _ => waiting
  | cons turn done ih =>
    obtain ⟨mid, ran, bulk, -, enough, ends, -, tidy, idle, inside, alternate, waits⟩ :=
      loopTurn_spec tidy idle inside turn
    obtain ⟨last, trace, enough', ends', tidy, idle, inside, alternate', waits'⟩ := ih tidy idle inside
    refine ⟨last, (ran, bulk) :: trace, max enough enough', fun fuel most => ?_, tidy, idle, inside,
      fun past alternates next => ?_, fun q few s past most waiting spared => ?_⟩
    · rw [turns, ends fuel (le_trans (le_max_left _ _) most), Option.bind_some]
      dsimp only
      rw [ends' fuel (le_trans (le_max_right _ _) most), Option.map_some]
    · obtain ⟨alternates, next⟩ := alternate past alternates next
      rw [flatMap_cons, ← append_assoc]
      exact alternate' _ alternates next
    · obtain ⟨⟨spares, here⟩, later⟩ := forall₂_cons.mp spared
      obtain ⟨-, still⟩ := waits q few s past most waiting spares
      rw [flatMap_cons, length_append, ← Nat.add_assoc]
      exact waits' q few s _ most (still here) later

end ReadyLoop

end Askai
