import Askai.Cli.State

/-!
# Snapshots that are read back

The snapshot of a state with the right tallies, and what a writer has that loads such snapshots.
-/

namespace Askai

open Library List

/-- The bytes of a turn. -/
def CliStateTurn.size (turn : CliStateTurn) : Nat :=
  turn.prompt.length + turn.answer.length

/-- A turn of UTF-8. -/
def CliStateTurn.IsUtf8 (turn : CliStateTurn) : Prop :=
  jbUtf8 turn.prompt = turn.prompt.length ∧ jbUtf8 turn.answer = turn.answer.length

namespace CliState

/-- The identity is one that `cli_state_create` takes. -/
def IsIdentity (identity : Bytes) : Prop :=
  identity ≠ [] ∧ identity.length ≤ cliStateIdBytes ∧ jbUtf8 identity = identity.length

instance (identity : Bytes) : Decidable (IsIdentity identity) :=
  inferInstanceAs (Decidable (_ ∧ _ ∧ _))

/-- The turns are this list, which the tally is of. -/
structure TurnsHold (turns : Nat → CliStateTurn) (used : Tally) (l : List CliStateTurn) : Prop where
  list : (List.range used.n).map turns = l
  bytes : used.bytes = (l.map CliStateTurn.size).sum

/-- A state within its bounds, whose tallies are the sums, and which has text only. -/
structure Sound (state : CliState) : Prop where
  identity : IsIdentity state.identity
  recalled : CliStateRing.Holds state.inputs state.ring state.inputList
  inputs_fit : InputsFit state.inputList
  inputs_text : ∀ input ∈ state.inputList, jbIsText input = true
  conversation : TurnsHold state.turns state.turnsUsed state.turnList
  turns_most : state.turnsUsed.n ≤ cliStateTurns
  turn_bytes_most : state.turnsUsed.bytes ≤ cliStateTurnBytes
  turns_utf8 : ∀ turn ∈ state.turnList, turn.IsUtf8

variable {state : CliState} {text rest : Bytes}

theorem jbUtf8_of_text (is_text : jbIsText text = true) : jbUtf8 text = text.length := by
  rw [jbIsText, Bool.or_eq_true, decide_eq_true_iff, Bool.and_eq_true, decide_eq_true_iff, decide_eq_true_iff]
    at is_text
  obtain rfl | ⟨-, whole⟩ := is_text
  · exact Nat.le_zero.mp (jbUtf8_le_length [])
  · exact whole

/-! ## What was written is read -/

theorem read_append (text rest : Bytes) : read text.length (text ++ rest) = .ok (text, rest) := by
  rw [read, if_neg (by rw [length_append]; omega), take_left, drop_left]

theorem readNumber_write {n : Nat} (fits : n < 256 ^ 4) (rest : Bytes) :
    readNumber (writeNumber n ++ rest) = .ok (n, rest) := by
  have length : (writeNumber n).length = 4 := by rw [writeNumber, length_reverse, length_leBytes]
  have bytes := read_append (writeNumber n) rest
  rw [length] at bytes
  rw [readNumber, bytes]
  change Except.ok (leNat (writeNumber n).reverse, rest) = _
  rw [writeNumber, reverse_reverse, leNat_leBytes fits]

theorem readText_write {budget : Nat} (fits : text.length ≤ budget) (few : budget < 256 ^ 4)
    (whole : jbUtf8 text = text.length) (rest : Bytes) :
    readText budget (writeText text ++ rest) = .ok (text, budget - text.length, rest) := by
  rw [readText, writeText, append_assoc, readNumber_write (by omega)]
  simp only [bind, Except.bind, if_neg (Nat.not_lt.mpr fits), read_append, whole, ne_eq, not_true_eq_false, if_false]
  rfl

/-- A snapshot of these inputs and turns. -/
def snapshotOf (identity : Bytes) (inputs : List Bytes) (turns : List CliStateTurn) : Bytes :=
  magic ++ (writeText identity ++ (writeNumber inputs.length ++ (writeNumber turns.length ++
    (inputs.flatMap writeText ++ turns.flatMap fun turn => writeText turn.prompt ++ writeText turn.answer))))

theorem snapshot_eq (state : CliState) : state.snapshot = snapshotOf state.identity state.inputList state.turnList := by
  rw [snapshot, snapshotOf, inputList, length_cyclic, turnList, length_map, length_range, cyclic,
    flatMap_map, flatMap_map]
  simp only [append_assoc]
  rfl

variable {identity : Bytes}

theorem readHeader_snapshot (is_identity : IsIdentity identity) {inputs : List Bytes}
    {turns : List CliStateTurn} (inputs_most : inputs.length ≤ cliStateInputs)
    (turns_most : turns.length ≤ cliStateTurns) :
    readHeader identity (snapshotOf identity inputs turns) = .ok (inputs.length, turns.length,
      inputs.flatMap writeText ++ turns.flatMap fun turn => writeText turn.prompt ++ writeText turn.answer) := by
  obtain ⟨-, id_most, id_utf8⟩ := is_identity
  have inputs_few : inputs.length < 256 ^ 4 := inputs_most.trans_lt (by decide)
  have turns_few : turns.length < 256 ^ 4 := turns_most.trans_lt (by decide)
  rw [readHeader, snapshotOf, read_append]
  simp only [bind, Except.bind, ne_eq, not_true_eq_false, if_false]
  rw [readText_write id_most (by decide) id_utf8]
  simp only [not_true_eq_false, if_false]
  rw [readNumber_write inputs_few]
  simp only []
  rw [readNumber_write turns_few]
  simp only []
  rw [if_neg (by omega)]
  rfl

/-- A snapshot of another identity is refused. -/
theorem readHeader_other {identity other : Bytes} (is_identity : IsIdentity other) (differs : other ≠ identity)
    (inputs : List Bytes) (turns : List CliStateTurn) :
    readHeader identity (snapshotOf other inputs turns) = .error .otherIdentity := by
  obtain ⟨-, id_most, id_utf8⟩ := is_identity
  rw [readHeader, snapshotOf, read_append]
  simp only [bind, Except.bind, ne_eq, not_true_eq_false, if_false]
  rw [readText_write id_most (by decide) id_utf8]
  simp only [differs, not_false_eq_true, if_true]
  rfl

/-- The inputs that are read come into the recall one after the other. -/
theorem readInputs_write (state : CliState) (l : List Bytes) {inputs : List Bytes} {budget : Nat}
    (fits : (inputs.map List.length).sum ≤ budget) (few : budget ≤ cliStateInputBytes)
    (texts : ∀ input ∈ inputs, jbIsText input = true)
    (holds : CliStateRing.Holds state.inputs state.ring (lastInputs l.dedup)) (rest : Bytes) :
    ∃ slots ring, readInputs inputs.length budget (inputs.flatMap writeText ++ rest) state =
        .ok ({ state with inputs := slots, ring }, rest) ∧
      CliStateRing.Holds slots ring (lastInputs (l ++ inputs).dedup) := by
  induction inputs generalizing state l budget with
  | nil =>
    refine ⟨_, _, rfl, ?_⟩
    rw [append_nil]
    exact holds
  | cons input inputs ih =>
    rw [map_cons, sum_cons] at fits
    have is_text := texts input mem_cons_self
    have alone : input.length ≤ cliStateInputBytes := by omega
    obtain ⟨slots, ring, recalled, holds⟩ :=
      recallInput_spec holds (within_lastWithin _).1 alone is_text
    rw [recalls, lastWithin_comes] at holds
    · obtain ⟨slots, ring, reads, holds⟩ := ih { state with inputs := slots, ring } (l ++ [input])
        (show _ ≤ budget - input.length by omega) (by omega)
        (fun other among => texts other (mem_cons_of_mem _ among)) holds
      refine ⟨slots, ring, ?_, ?_⟩
      · rw [length_cons, readInputs, flatMap_cons, append_assoc,
          readText_write (by omega) (few.trans_lt (by decide)) (jbUtf8_of_text is_text)]
        simp only [bind, Except.bind]
        rw [recalled]
        exact reads
      · rw [append_assoc] at holds
        exact holds
    · exact ⟨by rw [length_singleton]; decide, by rw [map_singleton, sum_singleton]; exact alone⟩

theorem readTurnsFrom_write {l : List CliStateTurn} {i budget : Nat} (fits : (l.map CliStateTurn.size).sum ≤ budget)
    (few : budget < 256 ^ 4) (texts : ∀ turn ∈ l, turn.IsUtf8) (turns : Nat → CliStateTurn) (rest : Bytes) :
    ∃ turns', readTurnsFrom l.length i budget
        ((l.flatMap fun turn => writeText turn.prompt ++ writeText turn.answer) ++ rest) turns =
        .ok (turns', budget - (l.map CliStateTurn.size).sum, rest) ∧
      (∀ j < i, turns' j = turns j) ∧ (List.range l.length).map (fun j => turns' (i + j)) = l := by
  induction l generalizing i budget turns with
  | nil => exact ⟨turns, rfl, fun _ _ => rfl, rfl⟩
  | cons turn l ih =>
    rw [map_cons, sum_cons, CliStateTurn.size] at fits
    obtain ⟨prompt_utf8, answer_utf8⟩ := texts turn mem_cons_self
    obtain ⟨turns', reads, before, is⟩ := ih (i := i + 1)
      (show _ ≤ budget - turn.prompt.length - turn.answer.length by omega) (by omega)
      (fun other among => texts other (mem_cons_of_mem _ among)) (Function.update turns i turn)
    refine ⟨turns', ?_, ?_, ?_⟩
    · rw [length_cons, readTurnsFrom, flatMap_cons, append_assoc, append_assoc,
        readText_write (by omega) few prompt_utf8]
      simp only [bind, Except.bind]
      rw [readText_write (by omega) (by omega) answer_utf8]
      simp only []
      rw [reads, map_cons, sum_cons, CliStateTurn.size, Nat.sub_sub, Nat.sub_sub, Nat.add_assoc]
    · intro j less
      rw [before j (by omega), Function.update_of_ne (by omega)]
    · rw [length_cons, range_succ_eq_map, map_cons, map_map, Nat.add_zero,
        before i (Nat.lt_succ_self i), Function.update_self]
      congr 1
      refine Eq.trans ?_ is
      apply map_congr_left
      intro j _
      rw [Function.comp_apply, Nat.succ_eq_add_one, Nat.add_comm j, Nat.add_assoc]

theorem readTurns_write (state : CliState) {l : List CliStateTurn} (fits : (l.map CliStateTurn.size).sum ≤ cliStateTurnBytes)
    (texts : ∀ turn ∈ l, turn.IsUtf8) :
    ∃ turns used, readTurns l.length (l.flatMap fun turn => writeText turn.prompt ++ writeText turn.answer) state =
      .ok { state with turns, turnsUsed := used } ∧ used.n = l.length ∧ TurnsHold turns used l := by
  obtain ⟨turns, reads, -, is⟩ := readTurnsFrom_write (i := 0) fits (by decide) texts state.turns []
  rw [append_nil] at reads
  refine ⟨turns, ⟨l.length, _⟩, ?_, rfl, ?_, Nat.sub_sub_self fits⟩
  · rw [readTurns, reads]
    rfl
  · simp only [Nat.zero_add] at is
    exact is

theorem length_turnList (state : CliState) : state.turnList.length = state.turnsUsed.n := by
  rw [turnList, length_map, length_range]

theorem Sound.readHeader (sound : state.Sound) :
    CliState.readHeader state.identity state.snapshot = .ok (state.inputList.length, state.turnList.length,
      state.inputList.flatMap writeText ++
        state.turnList.flatMap fun turn => writeText turn.prompt ++ writeText turn.answer) := by
  rw [snapshot_eq]
  apply readHeader_snapshot sound.identity sound.inputs_fit.1
  rw [length_turnList]
  exact sound.turns_most

theorem Sound.turn_sum (sound : state.Sound) : (state.turnList.map CliStateTurn.size).sum ≤ cliStateTurnBytes :=
  sound.conversation.bytes ▸ sound.turn_bytes_most

/-- The snapshots of sound states are taken, whatever the recall has by then. -/
theorem loadTips_snapshots (state : CliState) {sources : List CliState} (some_ : sources ≠ []) (sound : ∀ source ∈ sources, source.Sound)
    (same : ∀ source ∈ sources, source.identity = state.identity) (l : List Bytes)
    (holds : CliStateRing.Holds state.inputs state.ring (lastInputs l.dedup)) :
    ∃ inputs ring turns turnsUsed, loadTips (sources.map snapshot) state =
        .ok { state with inputs, ring, turns, turnsUsed } ∧
      CliStateRing.Holds inputs ring (lastInputs (l ++ sources.flatMap inputList).dedup) ∧
      turnsUsed.n = (sources.getLast some_).turnList.length ∧
      TurnsHold turns turnsUsed (sources.getLast some_).turnList := by
  induction sources generalizing state l with
  | nil => exact absurd rfl some_
  | cons source sources ih =>
    have source_sound := sound source mem_cons_self
    have source_same := same source mem_cons_self
    obtain ⟨inputs, ring, reads, held⟩ := readInputs_write state l source_sound.inputs_fit.2 le_rfl
      source_sound.inputs_text holds
      (source.turnList.flatMap fun turn => writeText turn.prompt ++ writeText turn.answer)
    have header := source_sound.readHeader
    rw [source_same] at header
    rw [map_cons, loadTips, header]
    simp only [bind, Except.bind]
    rw [reads]
    simp only []
    by_cases last : sources = []
    · subst last
      obtain ⟨turns, used, taken, n, turns_held⟩ := readTurns_write { state with inputs, ring }
        source_sound.turn_sum source_sound.turns_utf8
      refine ⟨inputs, ring, turns, used, ?_, ?_, n, turns_held⟩
      · rw [map_nil, if_pos rfl, taken]
        rfl
      · rw [flatMap_cons, flatMap_nil, append_nil]
        exact held
    · have more : sources.map snapshot ≠ [] := by
        rw [ne_eq, map_eq_nil_iff]
        exact last
      rw [if_neg more]
      obtain ⟨inputs, ring, turns, used, taken, held, n, turns_held⟩ :=
        ih { state with inputs, ring } last (fun other among => sound other (mem_cons_of_mem _ among))
          (fun other among => same other (mem_cons_of_mem _ among)) (l ++ source.inputList) held
      refine ⟨inputs, ring, turns, used, ?_, ?_, ?_, ?_⟩
      · simp only [pure, Except.pure]
        exact taken
      · rw [flatMap_cons, ← append_assoc]
        exact held
      · rw [getLast_cons last]
        exact n
      · rw [getLast_cons last]
        exact turns_held

/-- Snapshots that are taken are of the identity. -/
theorem loadTips_same (state : CliState) {sources : List CliState} {loaded : CliState} (sound : ∀ source ∈ sources, source.Sound)
    (l : List Bytes) (holds : CliStateRing.Holds state.inputs state.ring (lastInputs l.dedup))
    (loads : loadTips (sources.map snapshot) state = .ok loaded) :
    ∀ source ∈ sources, source.identity = state.identity := by
  induction sources generalizing state l with
  | nil => exact forall_mem_nil _
  | cons source sources ih =>
    have source_sound := sound source mem_cons_self
    rw [map_cons, loadTips] at loads
    by_cases same : source.identity = state.identity
    · obtain ⟨inputs, ring, reads, held⟩ := readInputs_write state l source_sound.inputs_fit.2 le_rfl
        source_sound.inputs_text holds
        (source.turnList.flatMap fun turn => writeText turn.prompt ++ writeText turn.answer)
      have header := source_sound.readHeader
      rw [same] at header
      rw [header] at loads
      simp only [bind, Except.bind] at loads
      rw [reads] at loads
      rw [forall_mem_cons]
      refine ⟨same, ?_⟩
      by_cases last : sources = []
      · rw [last]
        exact forall_mem_nil _
      · have more : sources.map snapshot ≠ [] := by
          rw [ne_eq, map_eq_nil_iff]
          exact last
        simp only [if_neg more, pure, Except.pure] at loads
        exact ih { state with inputs, ring }
          (fun other among => sound other (mem_cons_of_mem _ among)) (l ++ source.inputList) held loads
    · rw [snapshot_eq, readHeader_other source_sound.identity same] at loads
      exact nomatch loads

/-! ## A state that is loaded -/

theorem holds_nil (inputs : Nat → Bytes) : CliStateRing.Holds inputs {} [] :=
  ⟨by decide, rfl, rfl⟩

theorem sound_empty (is_identity : IsIdentity identity) : Sound { identity } where
  identity := is_identity
  recalled := holds_nil _
  inputs_fit := .nil
  inputs_text := nofun
  conversation := ⟨rfl, rfl⟩
  turns_most := Nat.zero_le _
  turn_bytes_most := Nat.zero_le _
  turns_utf8 := nofun

/-- What a writer has that loads the snapshots of sound states. -/
theorem load_snapshots {head : CliState} {tips : List CliState}
    (sound : ∀ source ∈ head :: tips, source.Sound) (same : ∀ source ∈ head :: tips, source.identity = identity) :
    ∃ loaded, load identity ((head :: tips).map snapshot) = .ok loaded ∧ loaded.Sound ∧ loaded.identity = identity ∧
      loaded.turnList = head.turnList ∧
      loaded.inputList = lastInputs ((head :: tips).reverse.flatMap inputList).dedup := by
  have some_ : (head :: tips).reverse ≠ [] := by
    rw [ne_eq, reverse_eq_nil_iff]
    exact cons_ne_nil _ _
  have head_sound := sound head mem_cons_self
  obtain ⟨inputs, ring, turns, used, taken, held, n, turns_held⟩ :=
    loadTips_snapshots { identity } some_ (fun source among => sound source (mem_reverse.mp among))
      (fun source among => same source (mem_reverse.mp among)) [] (holds_nil _)
  have last : (head :: tips).reverse.getLast some_ = head := by
    rw [getLast_reverse, head_cons]
  rw [last] at n turns_held
  rw [nil_append] at held
  obtain ⟨loaded, loadedIs⟩ : ∃ loaded : CliState, loaded = { identity, inputs, ring, turns, turnsUsed := used } :=
    ⟨_, rfl⟩
  have list : loaded.inputList = lastInputs ((head :: tips).reverse.flatMap inputList).dedup := by
    rw [loadedIs]
    exact held.list
  have turn_list : loaded.turnList = head.turnList := by
    rw [loadedIs]
    exact turns_held.list
  refine ⟨loaded, ?_, ?_, ?_, turn_list, list⟩
  · rw [load, ← map_reverse, taken, loadedIs]
  · refine ⟨?_, ?_, ?_, ?_, ?_, ?_, ?_, ?_⟩
    · rw [loadedIs, ← same head mem_cons_self]
      exact head_sound.identity
    · rw [list, loadedIs]
      exact held
    · rw [list]
      exact within_lastWithin _
    · intro input among
      rw [list] at among
      have whole := (lastWithin_suffix _).subset among
      rw [mem_dedup, mem_flatMap] at whole
      obtain ⟨source, source_among, input_among⟩ := whole
      exact (sound source (mem_reverse.mp source_among)).inputs_text input input_among
    · rw [turn_list, loadedIs]
      exact turns_held
    · rw [loadedIs]
      exact n.trans_le ((length_turnList head).trans_le head_sound.turns_most)
    · rw [loadedIs]
      exact turns_held.bytes.trans_le head_sound.turn_sum
    · intro turn among
      rw [turn_list] at among
      exact head_sound.turns_utf8 turn among
  · rw [loadedIs]

/-- What is loaded of the snapshots of sound states is sound. -/
theorem load_sound (is_identity : IsIdentity identity) {tips : List CliState} {loaded : CliState}
    (sound : ∀ source ∈ tips, source.Sound) (loads : load identity (tips.map snapshot) = .ok loaded) :
    loaded.Sound := by
  cases tips with
  | nil =>
    have is := Except.ok.inj loads
    rw [← is]
    exact sound_empty is_identity
  | cons head tips =>
    have loads' := loads
    rw [load, ← map_reverse] at loads'
    have same := loadTips_same { identity }
      (fun source among => sound source (mem_reverse.mp among)) [] (holds_nil _) loads'
    obtain ⟨other, other_loads, other_sound, -⟩ :=
      load_snapshots sound (fun source among => same source (mem_reverse.mpr among))
    rw [loads] at other_loads
    rw [Except.ok.inj other_loads]
    exact other_sound

end CliState

end Askai
