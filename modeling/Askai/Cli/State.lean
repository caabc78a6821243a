import Askai.Library.RawMemory
import Askai.Library.Recency
import Askai.Library.Ring
import Askai.Util.Room
import Askai.Util.Utf8

/-!
# The saved state of a client

The inputs and the turns that a writer keeps (`cli_state.h` and `cli_state.c`), the snapshot that it saves of them,
and what a new writer loads from snapshots.
-/

namespace Askai

open Library

/-- `CLI_STATE_INPUTS`. -/
abbrev cliStateInputs : Nat := 256

/-- `CLI_STATE_INPUT_BYTES`. -/
abbrev cliStateInputBytes : Nat := 1048576

/-- `CLI_STATE_TURNS`. -/
abbrev cliStateTurns : Nat := 512

/-- `CLI_STATE_TURN_BYTES`. -/
abbrev cliStateTurnBytes : Nat := 16777216

/-- `CLI_STATE_ID_BYTES`. -/
abbrev cliStateIdBytes : Nat := 65536

/-- `struct cli_state_ring`. -/
structure CliStateRing where
  first : Nat := 0
  used : Tally := {}

namespace CliStateRing

/-- `cli_state_ring_slot`. -/
def slot (ring : CliStateRing) (index : Nat) : Nat :=
  (ring.first + index) % cliStateInputs

/-- `cli_state_ring_full`. -/
def full (ring : CliStateRing) (len : Nat) : Bool :=
  ring.used.n ≠ 0 ∧ ring.used.fits ⟨cliStateInputs, cliStateInputBytes⟩ len = false

/-- `cli_state_ring_drop`. -/
def drop (ring : CliStateRing) (len : Nat) : CliStateRing where
  first := ring.slot 1
  used := ring.used.sub len

/-- `cli_state_ring_add`. -/
def add (ring : CliStateRing) (len : Nat) : CliStateRing :=
  { ring with used := ring.used.add len }

end CliStateRing

/-- `struct cli_state_turn`. -/
structure CliStateTurn where
  prompt : Bytes := []
  answer : Bytes := []
  deriving DecidableEq

/-- The part of `struct cli_state` that is saved, with whether its last save failed. -/
structure CliState where
  identity : Bytes
  inputs : Nat → Bytes := fun _ => []
  turns : Nat → CliStateTurn := fun _ => {}
  ring : CliStateRing := {}
  turnsUsed : Tally := {}
  unsaved : Bool := false

/-- Why a snapshot is not read. -/
inductive CliStateError where
  | inval | tooBig | ilseq | otherIdentity
  deriving DecidableEq

namespace CliState

/-- `cli_state_input_at`. -/
def inputAt (state : CliState) (index : Nat) : Bytes :=
  if index < state.ring.used.n then state.inputs (state.ring.slot index) else []

/-- The inputs, the oldest first. -/
def inputList (state : CliState) : List Bytes :=
  cyclic cliStateInputs state.inputs state.ring.first state.ring.used.n

/-- The turns, the oldest first. -/
def turnList (state : CliState) : List CliStateTurn :=
  (List.range state.turnsUsed.n).map state.turns

/-- The loop of `cli_state_push_input`, which drops as many as `fuel` inputs at most. -/
def makeRoom (inputs : Nat → Bytes) (len : Nat) : Nat → CliStateRing → CliStateRing
  | 0, ring => ring
  | fuel + 1, ring =>
    if ring.full len then makeRoom inputs len fuel (ring.drop (inputs ring.first).length) else ring

/-- `cli_state_push_input`, with memory for the text. -/
def pushInput (state : CliState) (text : Bytes) : CliState :=
  let ring := (makeRoom state.inputs text.length state.ring.used.n state.ring).add text.length
  { state with ring, inputs := Function.update state.inputs (ring.slot (ring.used.n - 1)) text }

/-- The inputs after the one at `j` moved down by a place each: `k` of them. -/
def moveDown (ring : CliStateRing) (inputs : Nat → Bytes) (j : Nat) : Nat → Nat → Bytes
  | 0 => inputs
  | k + 1 =>
    let inputs := moveDown ring inputs j k
    Function.update inputs (ring.slot (j + k)) (inputs (ring.slot (j + k + 1)))

/-- `cli_state_recall`, with memory for the text. -/
def recallInput (state : CliState) (text : Bytes) : Except CliStateError CliState :=
  if jbIsText text = false then .error .ilseq
  else
    match (List.range state.ring.used.n).find? fun j => state.inputAt j = text with
    | some j =>
      let last := state.ring.used.n - 1
      let inputs := moveDown state.ring state.inputs j (last - j)
      .ok { state with inputs := Function.update inputs (state.ring.slot last) (state.inputs (state.ring.slot j)) }
    | none => .ok (state.pushInput text)

/-! ## Snapshots -/

/-- `cli_state_magic`. -/
def magic : Bytes :=
  ascii "ASKAI-CLI-1\n"

/-- `cli_state_write_number`: four bytes, the highest first. -/
def writeNumber (value : Nat) : Bytes :=
  (leBytes 4 value).reverse

/-- `cli_state_write_text`. -/
def writeText (text : Bytes) : Bytes :=
  writeNumber text.length ++ text

/-- The snapshot that `cli_state_save` writes. -/
def snapshot (state : CliState) : Bytes :=
  magic ++ writeText state.identity ++ writeNumber state.ring.used.n ++ writeNumber state.turnsUsed.n ++
    ((List.range state.ring.used.n).flatMap fun i => writeText (state.inputs (state.ring.slot i))) ++
    (List.range state.turnsUsed.n).flatMap fun i =>
      writeText (state.turns i).prompt ++ writeText (state.turns i).answer

/-- `cli_state_read`: `len` bytes, and the file after them. -/
def read (len : Nat) (file : Bytes) : Except CliStateError (Bytes × Bytes) :=
  if file.length < len then .error .inval else .ok (file.take len, file.drop len)

/-- `cli_state_read_number`. -/
def readNumber (file : Bytes) : Except CliStateError (Nat × Bytes) := do
  let (bytes, file) ← read 4 file
  return (leNat bytes.reverse, file)

/-- `cli_state_read_text`: the text, the rest of the budget, and the file after it. -/
def readText (budget : Nat) (file : Bytes) : Except CliStateError (Bytes × Nat × Bytes) := do
  let (len, file) ← readNumber file
  if budget < len then throw .tooBig
  let (text, file) ← read len file
  if jbUtf8 text ≠ text.length then throw .ilseq
  return (text, budget - len, file)

/-- `cli_state_snapshot`: the numbers of inputs and turns, and the file after them. -/
def readHeader (identity file : Bytes) : Except CliStateError (Nat × Nat × Bytes) := do
  let (found, file) ← read magic.length file
  if found ≠ magic then throw .inval
  let (id_, _, file) ← readText cliStateIdBytes file
  if id_ ≠ identity then throw .otherIdentity
  let (inputs, file) ← readNumber file
  let (turns, file) ← readNumber file
  if cliStateInputs < inputs ∨ cliStateTurns < turns then throw .tooBig
  return (inputs, turns, file)

/-- The loop of `cli_state_read_inputs`. -/
def readInputs : Nat → Nat → Bytes → CliState → Except CliStateError (CliState × Bytes)
  | 0, _, file, state => .ok (state, file)
  | count + 1, budget, file, state => do
      let (entry, budget, file) ← readText budget file
      let state ← recallInput state entry
      readInputs count budget file state

/-- The loop of `cli_state_read_turns`, from the `i`th turn on: the turns, and the rest of the budget and of the
file. -/
def readTurnsFrom : Nat → Nat → Nat → Bytes → (Nat → CliStateTurn) →
    Except CliStateError ((Nat → CliStateTurn) × Nat × Bytes)
  | 0, _, budget, file, turns => .ok (turns, budget, file)
  | count + 1, i, budget, file, turns => do
      let (prompt, budget, file) ← readText budget file
      let (answer, budget, file) ← readText budget file
      readTurnsFrom count (i + 1) budget file (Function.update turns i { prompt, answer })

/-- `cli_state_read_turns`. -/
def readTurns (count : Nat) (file : Bytes) (state : CliState) : Except CliStateError CliState := do
  let (turns, budget, file) ← readTurnsFrom count 0 cliStateTurnBytes file state.turns
  if file ≠ [] then throw .inval
  return { state with turns, turnsUsed := ⟨count, cliStateTurnBytes - budget⟩ }

/-- The loop of `cli_state_load` over the snapshots of tips, the oldest first: the last is the latest. -/
def loadTips : List Bytes → CliState → Except CliStateError CliState
  | [], state => .ok state
  | file :: files, state => do
      let (inputs, turns, file) ← readHeader state.identity file
      let (state, file) ← readInputs inputs cliStateInputBytes file state
      let state ← if files = [] then readTurns turns file state else pure state
      loadTips files state

/-- `cli_state_load`, of the snapshots of the parent and of the tips that git lists, the newest first. -/
def load (identity : Bytes) (tips : List Bytes) : Except CliStateError CliState :=
  loadTips tips.reverse { identity }

/-! ## Calls -/

/-- What became of a save: whether git has the snapshot as the writer's tip and the latest, whether the commit
succeeded as far as the writer knows, and whether the save did. -/
structure SaveRun where
  stored : Bool
  saved : Bool
  failed : Bool
  known : saved → stored
  passed : failed = false → saved

/-- What a call returns. -/
inductive CallResult where
  | done | inval | tooBig | noMemory | unsaved | unmade
  deriving DecidableEq

/-- `cli_state_save`: what it returns, and the state. -/
def save (state : CliState) (run : SaveRun) : CallResult × CliState :=
  (if run.failed then .unsaved else .done, { state with unsaved := !run.saved })

/-- `cli_state_add_input`: what it returns, the state, and whether it saved. -/
def addInput (state : CliState) (text : Bytes) (memory : Bool) (run : SaveRun) : CallResult × CliState × Bool :=
  if jbIsText text = false then (.inval, state, false)
  else if cliStateInputBytes < text.length then (.tooBig, state, false)
  else if text.length = 0 then (.done, state, false)
  else if state.inputAt (state.ring.used.n - 1) ≠ text then
    if memory then
      let (result, state) := (state.pushInput text).save run
      (result, state, true)
    else (.noMemory, state, false)
  else if state.unsaved = false then (.done, state, false)
  else
    let (result, state) := state.save run
    (result, state, true)

/-- `cli_state_add_turn`. -/
def addTurn (state : CliState) (prompt answer : Bytes) (replace memory : Bool) (run : SaveRun) :
    CallResult × CliState × Bool :=
  if (replace ∧ state.turnsUsed.n = 0) ∨ jbIsText prompt = false ∨ jbIsText answer = false then (.inval, state, false)
  else
    let index := state.turnsUsed.n - replace.toNat
    let used := if replace then
        state.turnsUsed.sub ((state.turns index).prompt.length + (state.turns index).answer.length)
      else state.turnsUsed
    if used.fits ⟨cliStateTurns, cliStateTurnBytes⟩ (prompt.length + answer.length) = false then (.tooBig, state, false)
    else if memory then
      let (result, state) := CliState.save { state with
        turns := Function.update state.turns index { prompt, answer }
        turnsUsed := used.add (prompt.length + answer.length) } run
      (result, state, true)
    else (.noMemory, state, false)

/-- `cli_state_clear_turns`. -/
def clearTurns (state : CliState) (run : SaveRun) : CallResult × CliState × Bool :=
  let (result, state) := CliState.save { state with turnsUsed := {} } run
  (result, state, true)

end CliState

end Askai

/-!
# The recall of inputs

The ring of inputs is a list of the most recent of them within the bounds, whatever is added and recalled.
-/

namespace Askai

open Library

/-- The most recent inputs within the bounds. -/
abbrev lastInputs (l : List Bytes) : List Bytes :=
  lastWithin List.length cliStateInputs cliStateInputBytes l

/-- The recall after an input that may be in it. -/
abbrev recalls (l : List Bytes) (text : Bytes) : List Bytes :=
  comes List.length cliStateInputs cliStateInputBytes l text

/-- The list is within the bounds of the inputs. -/
abbrev InputsFit (l : List Bytes) : Prop :=
  Within List.length cliStateInputs cliStateInputBytes l

namespace CliStateRing

theorem cyclic_slot (ring : CliStateRing) (inputs : Nat → Bytes) (n : Nat) :
    cyclic cliStateInputs inputs ring.first (n + 1) =
      cyclic cliStateInputs inputs ring.first n ++ [inputs (ring.slot n)] :=
  cyclic_succ _ _ _ _

/-- The ring is of this list. -/
structure Holds (inputs : Nat → Bytes) (ring : CliStateRing) (l : List Bytes) : Prop where
  inside : ring.first < cliStateInputs
  list : cyclic cliStateInputs inputs ring.first ring.used.n = l
  bytes : ring.used.bytes = (l.map List.length).sum

variable {inputs : Nat → Bytes} {ring : CliStateRing} {l : List Bytes} {text : Bytes}

theorem Holds.length (holds : Holds inputs ring l) : l.length = ring.used.n := by
  rw [← holds.list, length_cyclic]

theorem Holds.full_iff (holds : Holds inputs ring l) (text : Bytes) :
    ring.full text.length ↔ l ≠ [] ∧ ¬ InputsFit (l ++ [text]) := by
  have length := holds.length
  rw [full, Tally.fits, decide_eq_true_iff, holds.bytes, ← length, InputsFit, Within, List.length_append,
    List.length_singleton, List.map_append, List.sum_append, List.map_singleton, List.sum_singleton,
    decide_eq_false_iff_not]
  apply and_congr
  · rw [ne_eq, ne_eq, List.length_eq_zero_iff]
  · apply not_congr
    dsimp only
    omega

theorem Holds.drop {x : Bytes} (holds : Holds inputs ring (x :: l)) :
    inputs ring.first = x ∧ Holds inputs (ring.drop x.length) l := by
  have length := holds.length
  have list := holds.list
  rw [List.length_cons] at length
  rw [← length, Nat.add_comm l.length 1, cyclic_add] at list
  have head : cyclic cliStateInputs inputs ring.first 1 = [inputs ring.first] := by
    rw [cyclic, List.range_one, List.map_singleton, Nat.add_zero, Nat.mod_eq_of_lt holds.inside]
  rw [head, List.singleton_append] at list
  obtain ⟨first, rest⟩ := List.cons.inj list
  refine ⟨first, Nat.mod_lt _ (by decide), ?_, ?_⟩
  · rw [CliStateRing.drop, slot, Tally.sub, ← length]
    dsimp only
    rw [Nat.add_sub_cancel, cyclic_congr (Nat.mod_mod _ _)]
    exact rest
  · have bytes := holds.bytes
    rw [List.map_cons, List.sum_cons] at bytes
    rw [CliStateRing.drop, Tally.sub]
    dsimp only
    omega

theorem Holds.makeRoom (text : Bytes) (fuel : Nat) (holds : Holds inputs ring l) (enough : l.length ≤ fuel) :
    Holds inputs (CliState.makeRoom inputs text.length fuel ring)
      (roomFor List.length cliStateInputs cliStateInputBytes text l) := by
  induction fuel generalizing ring l with
  | zero =>
    rw [List.length_eq_zero_iff.mp (Nat.le_zero.mp enough)] at holds ⊢
    exact holds
  | succ fuel ih =>
    rw [CliState.makeRoom]
    cases l with
    | nil =>
      rw [if_neg (fun full => ((holds.full_iff text).mp full).1 rfl), roomFor]
      exact holds
    | cons x l =>
      rw [roomFor]
      by_cases fits : InputsFit (x :: l ++ [text])
      · rw [if_neg (fun full => ((holds.full_iff text).mp full).2 fits), if_pos fits]
        exact holds
      · rw [if_pos ((holds.full_iff text).mpr ⟨List.cons_ne_nil _ _, fits⟩), if_neg fits]
        obtain ⟨first, rest⟩ := holds.drop
        rw [first]
        exact ih rest (Nat.le_of_succ_le_succ enough)

/-- Another input, with room for it. -/
theorem Holds.add (holds : Holds inputs ring l) (room : l.length < cliStateInputs) :
    Holds (Function.update inputs ((ring.add text.length).slot ((ring.add text.length).used.n - 1)) text)
      (ring.add text.length) (l ++ [text]) := by
  have length := holds.length
  refine ⟨holds.inside, ?_, ?_⟩
  · rw [CliStateRing.add, Tally.add, slot]
    dsimp only
    rw [Nat.add_sub_cancel, cyclic_succ, Function.update_self,
      cyclic_update (le_refl _) (Nat.add_lt_add_left (length ▸ room) _), holds.list]
  · rw [CliStateRing.add, Tally.add]
    dsimp only
    rw [holds.bytes, List.map_append, List.sum_append, List.map_singleton, List.sum_singleton]

end CliStateRing

namespace CliState

variable {state : CliState} {l : List Bytes} {text : Bytes}

theorem roomFor_fits {l : List Bytes} (alone : text.length ≤ cliStateInputBytes) :
    InputsFit (roomFor List.length cliStateInputs cliStateInputBytes text l ++ [text]) := by
  rw [roomFor_append]
  · exact within_lastWithin _
  · exact ⟨by rw [List.length_singleton]; decide, by rw [List.map_singleton, List.sum_singleton]; exact alone⟩

theorem pushInput_holds (holds : CliStateRing.Holds state.inputs state.ring l)
    (alone : text.length ≤ cliStateInputBytes) :
    CliStateRing.Holds (state.pushInput text).inputs (state.pushInput text).ring
      (roomFor List.length cliStateInputs cliStateInputBytes text l ++ [text]) := by
  have made := holds.makeRoom text state.ring.used.n holds.length.le
  have fits := (roomFor_fits (l := l) alone).1
  rw [List.length_append, List.length_singleton] at fits
  exact made.add fits

/-! ## An input that is there -/

theorem slot_ne {ring : CliStateRing} {i j : Nat} (inside : i < cliStateInputs) (inside' : j < cliStateInputs)
    (other : i ≠ j) : ring.slot i ≠ ring.slot j := by
  rcases Nat.lt_or_gt_of_ne other with less | more
  · exact mod_ne (by omega) (by omega)
  · exact (mod_ne (by omega) (by omega)).symm

theorem moveDown_slot (ring : CliStateRing) (inputs : Nat → Bytes) {j : Nat} (k : Nat) (inside : j + k < cliStateInputs)
    (i : Nat) (i_inside : i < cliStateInputs) :
    moveDown ring inputs j k (ring.slot i) = inputs (ring.slot (if j ≤ i ∧ i < j + k then i + 1 else i)) := by
  induction k generalizing i with
  | zero =>
    rw [if_neg (by omega)]
    rfl
  | succ k ih =>
    rw [moveDown]
    by_cases here : i = j + k
    · rw [here, Function.update_self, ih (by omega) _ (by omega), if_neg (by omega), if_pos (by omega)]
    · rw [Function.update_of_ne (slot_ne i_inside (by omega) here), ih (by omega) i i_inside]
      congr 2
      apply if_congr _ rfl rfl
      omega

/-- The input at `j` moves to the end. -/
theorem moveDown_list {ring : CliStateRing} {inputs : Nat → Bytes} {j k : Nat} (inside : j + k < cliStateInputs) :
    cyclic cliStateInputs
        (Function.update (moveDown ring inputs j k) (ring.slot (j + k)) (inputs (ring.slot j))) ring.first (j + k + 1) =
      cyclic cliStateInputs inputs ring.first j ++ cyclic cliStateInputs inputs (ring.first + j + 1) k ++
        [inputs (ring.slot j)] := by
  rw [CliStateRing.cyclic_slot, Function.update_self, CliStateRing.slot,
    cyclic_update (le_refl _) (Nat.add_lt_add_left inside _), cyclic_add]
  congr 2
  · apply List.map_congr_left
    intro i less
    rw [List.mem_range] at less
    have moved := moveDown_slot ring inputs k inside i (by omega)
    rw [if_neg (by omega)] at moved
    exact moved
  · apply List.map_congr_left
    intro i less
    rw [List.mem_range] at less
    have moved := moveDown_slot ring inputs k inside (j + i) (by omega)
    rw [if_pos (by omega), CliStateRing.slot, CliStateRing.slot] at moved
    rw [Nat.add_assoc, moved]
    congr 2
    omega

theorem inputAt_eq (holds : CliStateRing.Holds state.inputs state.ring l) {j : Nat} (inside : j < l.length) :
    state.inputAt j = l[j] := by
  rw [inputAt, if_pos (holds.length ▸ inside)]
  have is : l[j]? = some (state.inputs (state.ring.slot j)) := by
    rw [← holds.list, cyclic, List.getElem?_map, List.getElem?_range (holds.length ▸ inside)]
    rfl
  exact (List.getElem?_eq_some_iff.mp is).2.symm

/-- What `cli_state_recall` does to the list of inputs. -/
theorem recallInput_spec (holds : CliStateRing.Holds state.inputs state.ring l) (fits : l.length ≤ cliStateInputs)
    (alone : text.length ≤ cliStateInputBytes) (is_text : jbIsText text = true) :
    ∃ inputs ring, recallInput state text = .ok { state with inputs, ring } ∧
      CliStateRing.Holds inputs ring (recalls l text) := by
  have length := holds.length
  rw [recallInput, if_neg (by rw [is_text]; decide)]
  rcases found : (List.range state.ring.used.n).find? fun j => state.inputAt j = text with _ | j
  · refine ⟨_, _, rfl, ?_⟩
    have absent : text ∉ l := by
      intro among
      obtain ⟨j, inside, is⟩ := List.getElem_of_mem among
      rw [List.find?_eq_none] at found
      apply found j (List.mem_range.mpr (length ▸ inside))
      rw [decide_eq_true_iff, inputAt_eq holds inside, is]
    rw [recalls, comes, if_neg absent]
    exact pushInput_holds holds alone
  · rw [List.find?_range_eq_some] at found
    obtain ⟨is, inside, before⟩ := found
    rw [List.mem_range] at inside
    rw [decide_eq_true_iff, inputAt, if_pos inside] at is
    obtain ⟨k, kIs⟩ : ∃ k, state.ring.used.n = j + k + 1 := ⟨state.ring.used.n - j - 1, by omega⟩
    have list := holds.list
    rw [kIs, Nat.add_right_comm, cyclic_add, CliStateRing.cyclic_slot, is, List.append_assoc] at list
    have fresh : text ∉ cyclic cliStateInputs state.inputs state.ring.first j := by
      intro among
      obtain ⟨i, less, same⟩ := List.mem_map.mp among
      rw [List.mem_range] at less
      have other := before i less
      rw [Bool.not_eq_true', decide_eq_false_iff_not, inputAt, if_pos (less.trans inside)] at other
      exact other same
    have erased : recalls l text = cyclic cliStateInputs state.inputs state.ring.first j ++
        cyclic cliStateInputs state.inputs (state.ring.first + j + 1) k ++ [text] := by
      rw [← list]
      exact comes_mem fresh
    refine ⟨_, _, rfl, holds.inside, ?_, ?_⟩
    · rw [erased, kIs, Nat.add_sub_cancel, Nat.add_sub_cancel_left, moveDown_list (by omega), is]
    · rw [holds.bytes, erased, ← list]
      simp only [List.map_append, List.sum_append, Nat.add_assoc, Nat.add_left_comm]
      omega

end CliState

end Askai
