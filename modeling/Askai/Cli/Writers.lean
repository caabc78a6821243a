import Askai.Cli.Load

/-!
# Writers that load what others saved

Any number of writers, the states that they have saved, and what holds of both after any calls.
-/

namespace Askai

open Library List

/-- The writers, and the states whose snapshots git has. -/
structure CliWorld where
  writers : List CliState := []
  saved : List CliState := []

/-- A call of a writer, or the creation of one that loads the snapshots with these numbers, the parent first. -/
inductive CliCall
  | create (identity : Bytes) (tips : List Nat)
  | addInput (writer : Nat) (text : Bytes) (memory : Bool) (run : CliState.SaveRun)
  | addTurn (writer : Nat) (prompt answer : Bytes) (replace memory : Bool) (run : CliState.SaveRun)
  | clearTurns (writer : Nat) (run : CliState.SaveRun)

namespace CliWorld

/-- `cli_state_create`: the identity is checked, and the snapshots are loaded. -/
def create (world : CliWorld) (identity : Bytes) (tips : List Nat) : CliState.CallResult × CliWorld :=
  if CliState.IsIdentity identity then
    match CliState.load identity ((tips.filterMap fun tip => world.saved[tip]?).map CliState.snapshot) with
    | .ok state => (.done, { world with writers := world.writers ++ [state] })
    | .error _ => (.unmade, world)
  else (.inval, world)

/-- A call of a writer, with whether git stores what it saves. -/
def apply (world : CliWorld) (writer : Nat) (stored : Bool) (call : CliState → CliState.CallResult × CliState × Bool) :
    CliState.CallResult × CliWorld :=
  match world.writers[writer]? with
  | none => (.inval, world)
  | some state =>
    let (result, state, saves) := call state
    (result, { writers := world.writers.set writer state
               saved := if saves && stored then world.saved ++ [state] else world.saved })

/-- A call: what it returns, and what is left. -/
def step (world : CliWorld) : CliCall → CliState.CallResult × CliWorld
  | .create identity tips => world.create identity tips
  | .addInput writer text memory run => world.apply writer run.stored fun state => state.addInput text memory run
  | .addTurn writer prompt answer replace memory run =>
    world.apply writer run.stored fun state => state.addTurn prompt answer replace memory run
  | .clearTurns writer run => world.apply writer run.stored fun state => state.clearTurns run

/-- Any calls, of which none was before. -/
def run (calls : List CliCall) : CliWorld :=
  calls.foldl (fun world call => (world.step call).2) {}

end CliWorld

namespace CliState

variable {state next : CliState} {l : List CliStateTurn} {turns : Nat → CliStateTurn} {used : Tally}

/-! ## Turns -/

theorem TurnsHold.length (holds : TurnsHold turns used l) : l.length = used.n := by
  rw [← holds.list, length_map, length_range]

/-- The last turn is taken off. -/
theorem TurnsHold.sub {last : CliStateTurn} (holds : TurnsHold turns used (l ++ [last])) :
    turns (used.n - 1) = last ∧ TurnsHold turns (used.sub last.size) l := by
  have length := holds.length
  rw [length_append, length_singleton] at length
  have list := holds.list
  rw [← length, range_succ, map_append, map_singleton] at list
  obtain ⟨front, back⟩ := append_inj' list rfl
  have bytes := holds.bytes
  rw [map_append, sum_append, map_singleton, sum_singleton] at bytes
  refine ⟨?_, ?_, ?_⟩
  · rw [← length, Nat.add_sub_cancel]
    exact singleton_injective back
  · rw [Tally.sub, ← length]
    exact front
  · rw [Tally.sub]
    dsimp only
    omega

/-- Another turn is put after them. -/
theorem TurnsHold.add (holds : TurnsHold turns used l) (turn : CliStateTurn) :
    TurnsHold (Function.update turns used.n turn) (used.add turn.size) (l ++ [turn]) := by
  refine ⟨?_, ?_⟩
  · rw [Tally.add, range_succ, map_append, map_singleton, Function.update_self, ← holds.list]
    congr 1
    apply map_congr_left
    intro i less
    rw [Function.update_of_ne (mem_range.mp less).ne]
  · rw [Tally.add, map_append, sum_append, map_singleton, sum_singleton, ← holds.bytes]

/-- The state with other turns that are within the bounds. -/
theorem Sound.converse (sound : state.Sound) (holds : TurnsHold turns used l) (most : used.n ≤ cliStateTurns)
    (bytes_most : used.bytes ≤ cliStateTurnBytes) (utf8 : ∀ turn ∈ l, turn.IsUtf8) :
    Sound { state with turns, turnsUsed := used } := by
  have list : turnList { state with turns, turnsUsed := used } = l := holds.list
  refine { sound with conversation := ?_, turns_most := most, turn_bytes_most := bytes_most, turns_utf8 := ?_ }
  · rw [list]
    exact holds
  · rw [list]
    exact utf8

/-- The state with other inputs that are within the bounds. -/
theorem Sound.listed (sound : state.Sound) {inputs : Nat → Bytes} {ring : CliStateRing} {l : List Bytes}
    (holds : CliStateRing.Holds inputs ring l) (fit : InputsFit l) (texts : ∀ input ∈ l, jbIsText input = true) :
    Sound { state with inputs, ring } := by
  have list : inputList { state with inputs, ring } = l := holds.list
  refine { sound with recalled := ?_, inputs_fit := ?_, inputs_text := ?_ }
  · rw [list]
    exact holds
  · rw [list]
    exact fit
  · rw [list]
    exact texts

/-! ## Calls -/

theorem Sound.save (sound : state.Sound) (run : SaveRun) : (state.save run).2.Sound :=
  ⟨sound.identity, sound.recalled, sound.inputs_fit, sound.inputs_text, sound.conversation, sound.turns_most,
    sound.turn_bytes_most, sound.turns_utf8⟩

/-- What a call leaves of a state: a sound one, and the same one where it was refused. -/
structure Leaves (state : CliState) (left : CallResult × CliState × Bool) : Prop where
  sound : left.2.1.Sound
  refused : left.1 = .inval ∨ left.1 = .tooBig → left.2.1 = state ∧ left.2.2 = false

theorem Leaves.same (sound : state.Sound) (result : CallResult) : Leaves state (result, state, false) :=
  ⟨sound, fun _ => ⟨rfl, rfl⟩⟩

theorem Leaves.saved (sound : next.Sound) (run : SaveRun) :
    Leaves state ((next.save run).1, (next.save run).2, true) := by
  refine ⟨sound.save run, ?_⟩
  rw [CliState.save]
  dsimp only
  intro refused
  split at refused
  · obtain refused | refused := refused <;> exact nomatch refused
  · obtain refused | refused := refused <;> exact nomatch refused

theorem Sound.pushInput (sound : state.Sound) {text : Bytes} (is_text : jbIsText text = true)
    (alone : text.length ≤ cliStateInputBytes) : (state.pushInput text).Sound := by
  have holds := pushInput_holds sound.recalled alone
  refine sound.listed holds (roomFor_fits alone) ?_
  intro input among
  rw [mem_append, mem_singleton] at among
  obtain among | rfl := among
  · exact sound.inputs_text input ((roomFor_suffix _).subset among)
  · exact is_text

theorem Sound.addInput (sound : state.Sound) (text : Bytes) (memory : Bool) (run : SaveRun) :
    Leaves state (state.addInput text memory run) := by
  rw [CliState.addInput]
  by_cases is_text : jbIsText text = false
  · rw [if_pos is_text]
    exact .same sound _
  · rw [if_neg is_text]
    by_cases big : cliStateInputBytes < text.length
    · rw [if_pos big]
      exact .same sound _
    · rw [if_neg big]
      have pushed := sound.pushInput (eq_true_of_ne_false is_text) (Nat.not_lt.mp big)
      split
      · exact .same sound _
      · split
        · split
          · exact .saved pushed run
          · exact .same sound _
        · split
          · exact .same sound _
          · exact .saved sound run

theorem Sound.addTurn (sound : state.Sound) (prompt answer : Bytes) (replace memory : Bool) (run : SaveRun) :
    Leaves state (state.addTurn prompt answer replace memory run) := by
  rw [CliState.addTurn]
  by_cases refused : (replace ∧ state.turnsUsed.n = 0) ∨ jbIsText prompt = false ∨ jbIsText answer = false
  · rw [if_pos refused]
    exact .same sound _
  · rw [if_neg refused]
    obtain ⟨some_, prompt_text, answer_text⟩ : ¬ (replace ∧ state.turnsUsed.n = 0) ∧ jbIsText prompt = true ∧
        jbIsText answer = true := by
      rw [not_or, not_or, Bool.not_eq_false, Bool.not_eq_false] at refused
      exact refused
    obtain ⟨used, usedIs⟩ : ∃ used, used = if replace then
        state.turnsUsed.sub ((state.turns (state.turnsUsed.n - replace.toNat)).prompt.length +
          (state.turns (state.turnsUsed.n - replace.toNat)).answer.length)
      else state.turnsUsed := ⟨_, rfl⟩
    obtain ⟨l, holds, n, sub⟩ : ∃ l, TurnsHold state.turns used l ∧ state.turnsUsed.n - replace.toNat = used.n ∧
        l ⊆ state.turnList := by
      rw [usedIs]
      cases replace with
      | false => exact ⟨state.turnList, sound.conversation, rfl, fun _ among => among⟩
      | true =>
        obtain none_ | ⟨l, last, turnsAre⟩ := eq_nil_or_concat' state.turnList
        · have length := sound.conversation.length
          rw [none_] at length
          exact absurd ⟨rfl, length.symm⟩ some_
        · have holds := sound.conversation
          rw [turnsAre] at holds
          obtain ⟨lastIs, rest⟩ := holds.sub
          refine ⟨l, ?_, rfl, ?_⟩
          · rw [Bool.toNat_true, lastIs]
            exact rest
          · rw [turnsAre]
            exact subset_append_left _ _
    dsimp only
    rw [← usedIs, n]
    split
    · exact .same sound _
    · next fits =>
      rw [Bool.not_eq_false, Tally.fits, decide_eq_true_iff] at fits
      dsimp only at fits
      split
      · refine .saved (sound.converse (holds.add { prompt, answer }) ?_ ?_ ?_) run
        · rw [Tally.add]
          dsimp only
          omega
        · rw [Tally.add, CliStateTurn.size]
          dsimp only
          omega
        · intro turn among
          rw [mem_append, mem_singleton] at among
          obtain among | rfl := among
          · exact sound.turns_utf8 turn (sub among)
          · exact ⟨jbUtf8_of_text prompt_text, jbUtf8_of_text answer_text⟩
      · exact .same sound _

theorem Sound.clearTurns (sound : state.Sound) (run : SaveRun) : Leaves state (state.clearTurns run) :=
  .saved (sound.converse ⟨rfl, rfl⟩ (Nat.zero_le _) (Nat.zero_le _) (forall_mem_nil _)) run

end CliState

namespace CliWorld

variable {world : CliWorld}

/-- All states are sound, of writers and in git. -/
structure Sound (world : CliWorld) : Prop where
  writers : ∀ state ∈ world.writers, state.Sound
  saved : ∀ state ∈ world.saved, state.Sound

/-- What a call leaves. -/
structure Leaves (world : CliWorld) (left : CliState.CallResult × CliWorld) : Prop where
  sound : left.2.Sound
  refused : left.1 = .inval ∨ left.1 = .tooBig → left.2 = world

theorem Sound.apply (sound : world.Sound) {writer : Nat} {stored : Bool} {call : CliState → CliState.CallResult × CliState × Bool}
    (leaves : ∀ state, state.Sound → CliState.Leaves state (call state)) :
    Leaves world (world.apply writer stored call) := by
  rw [CliWorld.apply]
  rcases at_ : world.writers[writer]? with _ | state
  · exact ⟨sound, fun _ => rfl⟩
  · have left := leaves state (sound.writers state (mem_of_getElem? at_))
    refine ⟨⟨?_, ?_⟩, ?_⟩
    · intro other among
      obtain among | rfl := mem_or_eq_of_mem_set among
      · exact sound.writers other among
      · exact left.sound
    · intro other among
      dsimp only at among
      split at among
      · rw [mem_append, mem_singleton] at among
        obtain among | rfl := among
        · exact sound.saved other among
        · exact left.sound
      · exact sound.saved other among
    · intro refused
      obtain ⟨same, unsaved⟩ := left.refused refused
      obtain ⟨inside, is⟩ := List.getElem?_eq_some_iff.mp at_
      dsimp only
      rw [unsaved, same, ← is, set_getElem_self]
      rfl

/-- The states of the snapshots that are loaded are sound ones, whatever their numbers are. -/
theorem Sound.sources (sound : world.Sound) (tips : List Nat) :
    ∀ source ∈ tips.filterMap fun tip => world.saved[tip]?, source.Sound := by
  intro source among
  obtain ⟨tip, -, is⟩ := mem_filterMap.mp among
  exact sound.saved source (mem_of_getElem? is)

theorem Sound.create (sound : world.Sound) (identity : Bytes) (tips : List Nat) :
    Leaves world (world.create identity tips) := by
  rw [CliWorld.create]
  split
  · next is_identity =>
    rcases loads : CliState.load identity ((tips.filterMap fun tip => world.saved[tip]?).map CliState.snapshot)
      with error | state
    · exact ⟨sound, nofun⟩
    · refine ⟨⟨?_, sound.saved⟩, nofun⟩
      intro other among
      rw [mem_append, mem_singleton] at among
      obtain among | rfl := among
      · exact sound.writers other among
      · exact CliState.load_sound is_identity (sound.sources tips) loads
  · exact ⟨sound, fun _ => rfl⟩

theorem Sound.step (sound : world.Sound) (call : CliCall) : Leaves world (world.step call) := by
  cases call with
  | create identity tips => exact sound.create identity tips
  | addInput writer text memory run => exact sound.apply fun _ state_sound => state_sound.addInput text memory run
  | addTurn writer prompt answer replace memory run =>
    exact sound.apply fun _ state_sound => state_sound.addTurn prompt answer replace memory run
  | clearTurns writer run => exact sound.apply fun _ state_sound => state_sound.clearTurns run

theorem sound_run (calls : List CliCall) : (run calls).Sound := by
  rw [run]
  induction calls using List.reverseRecOn with
  | nil => exact ⟨forall_mem_nil _, forall_mem_nil _⟩
  | append_singleton calls call ih =>
    rw [foldl_append]
    exact (ih.step call).sound

/-- After any calls of any writers, each is within its bounds and has the sums as its tallies, what is refused changes
nothing, and what was saved is loaded: the turns of the latest snapshot, and of the inputs of all the last of each
text, as many of the newest as fit. -/
theorem saved_states_load (calls : List CliCall) : (∀ state ∈ (run calls).writers,
      state.ring.used = ⟨state.inputList.length, (state.inputList.map List.length).sum⟩ ∧
      state.inputList.length ≤ cliStateInputs ∧ (state.inputList.map List.length).sum ≤ cliStateInputBytes ∧
      state.turnsUsed = ⟨state.turnList.length, (state.turnList.map CliStateTurn.size).sum⟩ ∧
      state.turnList.length ≤ cliStateTurns ∧ (state.turnList.map CliStateTurn.size).sum ≤ cliStateTurnBytes) ∧
    (∀ call, ((run calls).step call).1 = .inval ∨ ((run calls).step call).1 = .tooBig →
      ((run calls).step call).2 = run calls) ∧
    ∀ identity head tips, (∀ source ∈ head :: tips, source ∈ (run calls).saved ∧ source.identity = identity) →
      ∃ loaded, CliState.load identity ((head :: tips).map CliState.snapshot) = .ok loaded ∧
        loaded.turnList = head.turnList ∧
        loaded.inputList = lastInputs ((head :: tips).reverse.flatMap CliState.inputList).dedup := by
  have sound := sound_run calls
  refine ⟨?_, ?_, ?_⟩
  · intro state among
    have state_sound := sound.writers state among
    have inputs := state_sound.recalled.length
    have turns := state_sound.conversation.length
    have turn_bytes := state_sound.conversation.bytes
    refine ⟨?_, state_sound.inputs_fit.1, state_sound.inputs_fit.2, ?_, ?_, state_sound.turn_sum⟩
    · rw [inputs, ← state_sound.recalled.bytes]
    · rw [turns, ← turn_bytes]
    · rw [turns]
      exact state_sound.turns_most
  · intro call
    exact (sound.step call).refused
  · intro identity head tips all
    obtain ⟨loaded, loads, -, -, turns, inputs⟩ := CliState.load_snapshots
      (fun source among => sound.saved source (all source among).1) (fun source among => (all source among).2)
    exact ⟨loaded, loads, turns, inputs⟩

end CliWorld

end Askai
