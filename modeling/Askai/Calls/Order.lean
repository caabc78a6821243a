import Askai.Calls.Steps

/-!
# The order of a turn's calls

A run of a turn's calls ends, and what it did by then: the calls launched and the results written
in the order of the answer, and the turn submitted once.
-/

namespace Askai.Calls

open Library List

variable {answer : Answer} {c : Chance} {req after : Req} {move : Move}

/-! ## How long a run may go on -/

/-- The calls of the answer with no durable intent. -/
def Answer.unset (answer : Answer) (intents : BitVec 32) : Nat :=
  (List.range answer.calls.length).countP fun k => !intents.getLsbD k

/-- What the calls of a turn have yet to do. -/
def Answer.work (answer : Answer) (req : Req) : Nat :=
  2 * (answer.calls.length - (ends req.log).length) + (answer.calls.length - req.launched) +
    2 * answer.unset req.intents + 2 * (answer.calls.length - req.part) +
    (uploadMax - req.upload) + 3

/-- What a request has yet to do in its turn. -/
def Answer.potential (answer : Answer) (req : Req) : Nat :=
  req.ready.toNat +
    match req.phase with
    | .calls | .journal .intent => answer.work req
    | .result => answer.work req - 1
    | .journal .state => 2 * (answer.calls.length - (ends req.log).length) + 1
    | .call | .compacted | .gone => 2 * (answer.calls.length - (ends req.log).length)

/-- A step that a keep-alive queued, or one with no share of its own, gets no further. -/
def Move.spare : Move → Nat
  | .rouse => 2
  | .step c => if c.share = 0 then 1 else 0
  | _ => 0

/-- What the calls that have not ended may still do. -/
def Answer.rest (answer : Answer) (req : Req) : Nat :=
  2 * (answer.calls.length - (ends req.log).length)

theorem rest_lt_work (answer : Answer) (req : Req) : answer.rest req + 3 ≤ answer.work req := by
  unfold Answer.rest Answer.work
  omega

theorem ready_le (b : Bool) : b.toNat ≤ 1 := by
  cases b <;> decide

section

variable {k : Nat} {o : Output}

theorem fail_le (answer : Answer) (req : Req) : answer.potential (mcpReqFail req) ≤ 1 + answer.rest req := by
  have bound := ready_le req.ready
  have same : ends (req.log ++ [.gone]) = ends req.log := ends_closing trivial
  simp only [Answer.potential, mcpReqFail, Req.say, Answer.rest, same]
  omega

theorem compact_le (answer : Answer) (c : Chance) (req : Req) :
    answer.potential (mcpReqCompact c req) ≤ 1 + answer.rest req := by
  unfold mcpReqCompact
  split
  · exact fail_le answer _
  · have bound := ready_le req.ready
    have same : ends (req.log ++ [.compacted]) = ends req.log := ends_closing trivial
    simp only [Answer.potential, mcpReqSlotsDrop, Req.say, Answer.rest, same]
    omega

theorem compactFull_le (answer : Answer) (c : Chance) (req : Req) :
    answer.potential (mcpReqCompactFull c req) ≤ 1 + answer.rest req := by
  unfold mcpReqCompactFull
  split
  · exact fail_le answer _
  · exact compact_le answer c req

theorem submit_le (answer : Answer) (req : Req) : answer.potential (mcpReqSubmit req) ≤ 1 + answer.rest req := by
  have bound := ready_le req.ready
  have same : ends (req.log ++ [.submitted]) = ends req.log := ends_closing trivial
  simp only [Answer.potential, mcpReqSubmit, Req.say, Answer.rest, same]
  omega

theorem turnSubmit_le (answer : Answer) (c : Chance) (req : Req) :
    answer.potential (mcpReqTurnSubmit answer c req) ≤ 1 + answer.rest req := by
  unfold mcpReqTurnSubmit
  split
  · exact fail_le answer _
  · split
    · split
      · simp only [Answer.potential, Answer.rest, Bool.toNat_false]
        omega
      · exact submit_le answer req
    · exact compactFull_le answer c req
    · exact fail_le answer _

/-- A call that ends has less to do, even if its end queues the step. -/
theorem work_end (lawful : Lawful answer (req.log ++ [.ended k o])) :
    answer.work (mcpSlotDone answer req k o) + 2 = answer.work req := by
  have bound := lawful.length_ends
  rw [ends_ended, length_append, length_singleton] at bound
  simp only [Answer.work, mcpSlotDone, Req.say, ends_ended, length_append, length_singleton]
  omega

theorem rest_end (lawful : Lawful answer (req.log ++ [.ended k o])) :
    answer.rest (mcpSlotDone answer req k o) + 2 = answer.rest req := by
  have bound := lawful.length_ends
  rw [ends_ended, length_append, length_singleton] at bound
  simp only [Answer.rest, mcpSlotDone_log, ends_ended, length_append, length_singleton]
  omega

theorem potential_end (lawful : Lawful answer (req.log ++ [.ended k o])) :
    answer.potential (mcpSlotDone answer req k o) + 1 ≤ answer.potential req := by
  have work := work_end lawful
  have rest := rest_end lawful
  have more := rest_lt_work answer (mcpSlotDone answer req k o)
  unfold Answer.potential
  rw [mcpSlotDone_phase, mcpSlotDone_ready]
  simp only [Bool.toNat_true]
  unfold Answer.rest at rest more
  split <;> omega

theorem potential_calls (phase : req.phase = .calls) : answer.potential req = req.ready.toNat + answer.work req := by
  simp only [Answer.potential, phase]

theorem work_launch {call : AnswerCall} (here : answer.calls[req.launched]? = some call) :
    answer.work (req.launch req.launched call.tool) + 1 = answer.work req := by
  have inside : req.launched < answer.calls.length := (List.getElem?_eq_some_iff.mp here).1
  simp only [Answer.work, launch_log, ends_launched]
  simp only [Req.launch, Req.say]
  omega

theorem Live.callStart_le (live : Live answer req) (phase : req.phase = .calls) {call : AnswerCall}
    (here : answer.calls[req.launched]? = some call) (alone : answer.Alone req.launched → req.part = req.launched) :
    answer.potential (mcpReqCallStart answer c req req.launched call) ≤ answer.work req := by
  have launched := live.launch here alone
  have work := work_launch here
  have more := rest_lt_work answer (req.launch req.launched call.tool)
  have runs : answer.potential (req.launch req.launched call.tool) ≤ answer.work req := by
    have same : answer.potential (req.launch req.launched call.tool) = 1 + _ :=
      potential_calls phase
    omega
  have ends : ∀ o, answer.potential (mcpSlotDone answer (req.launch req.launched call.tool) req.launched o) ≤
        answer.work req := by
    intro o
    have waits := live.launched_waits call.tool
    have less := potential_end (o := o) (launched.lawful.snoc
      (.ended (launched.slotted.runs live.order (Nat.lt_succ_self _) waits)))
    omega
  have fails : answer.potential (mcpReqFail (req.launch req.launched call.tool)) ≤ answer.work req := by
    apply Nat.le_trans (fail_le answer _)
    omega
  rw [mcpReqCallStart_eq]
  split
  · split
    · exact ends _
    · exact fails
  · split
    · unfold mcpSlotStart
      split
      · exact runs
      · exact ends _
      · exact fails
      · apply Nat.le_trans (compact_le answer c _)
        omega
    · exact ends _

theorem Live.callLaunch_le (live : Live answer req) (phase : req.phase = .calls) (quiet : req.ready = false) :
    answer.potential (mcpReqCallLaunch answer c req) ≤ answer.work req := by
  have same : answer.potential req ≤ answer.work req := by
    rw [potential_calls phase, quiet]
    simp
  have fails : answer.potential (mcpReqFail req) ≤ answer.work req := by
    have more := rest_lt_work answer req
    apply Nat.le_trans (fail_le answer _)
    omega
  unfold mcpReqCallLaunch
  dsimp only
  split
  · exact same
  · rename_i call here
    split
    · exact same
    · rename_i goes
      split
      · exact fails
      · split
        · split
          · simp [Answer.potential, Answer.work]
          · exact fails
        · apply live.callStart_le phase here
          exact live.part_of_alone here (Bool.not_eq_true _ ▸ goes)

theorem Live.callsNext_le (live : Live answer req) (quiet : req.ready = false) :
    answer.potential (mcpReqCallsNext answer c req) ≤ answer.work req := by
  have more := rest_lt_work answer req
  have dropped : answer.rest (mcpReqSlotsDrop req) = answer.rest req := rfl
  unfold mcpReqCallsNext
  split
  · dsimp only
    split
    · have less := compactFull_le answer c (mcpReqSlotsDrop req)
      omega
    · have less := turnSubmit_le answer c (mcpReqSlotsDrop req)
      omega
  · split
    · show 1 + (answer.work req - 1) ≤ _
      omega
    · have same := live.same (n := { req with phase := .calls }) ⟨rfl, rfl, rfl, rfl⟩
      exact same.callLaunch_le rfl quiet

theorem Live.resultWrite_le (live : Live answer req) (phase : req.phase = .result)
    (below : req.part < req.launched) (done : (req.slots req.part).done.isSome = true) (quiet : req.ready = false) :
    answer.potential (mcpReqResultWrite answer c req) + 1 ≤ answer.work req + (Move.step c).spare := by
  have more := rest_lt_work answer req
  unfold mcpReqResultWrite
  dsimp only
  split
  · have less := compactFull_le answer c req
    omega
  · rename_i room
    simp only [Bool.or_eq_true, decide_eq_true_eq, not_or, Nat.not_lt] at room
    split
    · have less := fail_le answer req
      omega
    · let next : Req := { req with
        upload := req.upload + min req.left c.share
        left := req.left - min req.left c.share }
      have same : Live answer next := live.same ⟨rfl, rfl, rfl, rfl⟩
      have work : answer.work next + min req.left c.share = answer.work req := by
        simp only [Answer.work, next]
        omega
      split
      · unfold mcpReqResultEnd
        split
        · show answer.potential (mcpReqFail next) + 1 ≤ _
          have less := fail_le answer next
          have rest : answer.rest next = answer.rest req := rfl
          omega
        · have written := same.write below done
          have less := written.callsNext_le (c := c) quiet
          have inside := Nat.lt_of_lt_of_le below live.inside
          have fewer : answer.work next.write + 2 = answer.work next := by
            simp only [Answer.work, write_log, ends_written]
            simp only [Req.write, Req.say, next]
            omega
          have here : answer.potential (mcpReqCallsNext answer c next.write) + 1 ≤ answer.work req := by omega
          exact Nat.le_trans here (Nat.le_add_right _ _)
      · rename_i left
        have here : answer.potential { next with ready := true } = 1 + (answer.work next - 1) := by
          simp [Answer.potential, next, phase, Answer.work]
        show answer.potential { next with ready := true } + 1 ≤ _
        rw [here]
        have three := rest_lt_work answer next
        -- What is left shows that the step ran out of its share first.
        simp only [Move.spare]
        split <;> omega

/-- An intent is made durable once. -/
theorem unset_set {intents : BitVec 32} (inside : k < answer.calls.length) (unset : intents.getLsbD k = false) :
    answer.unset (intents ||| 1#32 <<< k) + 1 ≤ answer.unset intents := by
  have small : k < 32 := by
    have few : answer.calls.length ≤ 16 := answer.few
    omega
  obtain ⟨before, later, split⟩ := append_of_mem (mem_range.mpr inside)
  have set : (intents ||| 1#32 <<< k).getLsbD k = true := by
    simp [small]
  have fewer (l : List Nat) : (l.countP fun j => !(intents ||| 1#32 <<< k).getLsbD j) ≤
        l.countP fun j => !intents.getLsbD j := by
    apply countP_mono_left
    intro j _ clear
    rw [BitVec.getLsbD_or, Bool.not_or, Bool.and_eq_true] at clear
    exact clear.1
  unfold Answer.unset
  rw [split]
  simp only [countP_append, countP_cons, set, unset]
  have front := fewer before
  have back := fewer later
  simp only [Bool.not_true, Bool.not_false, Bool.false_eq_true, if_false, if_true]
  omega

end

/-! ## The steps -/

theorem Inv.step_le (inv : Inv answer req) (ready : req.ready = true) :
    answer.potential (mcpReqStep answer c { req with ready := false }) + 1 ≤
      answer.potential req + (Move.step c).spare := by
  have situation := inv.situation
  unfold Situation at situation
  rcases eq_or_ne req.phase .calls with phase | calls
  · rw [phase] at situation
    have here : mcpReqStep answer c { req with ready := false } = _ := mcpReqStep_calls phase
    have quiet : Live answer { req with ready := false } := situation.1.same ⟨rfl, rfl, rfl, rfl⟩
    have less := quiet.callsNext_le (c := c) rfl
    have work : answer.work { req with ready := false } = answer.work req := rfl
    rw [here, potential_calls phase, ready]
    simp only [Bool.toNat_true]
    omega
  · rcases eq_or_ne req.phase .result with phase | result
    · rw [phase] at situation
      obtain ⟨live, _, below, done⟩ := situation
      have here : mcpReqStep answer c { req with ready := false } = _ := mcpReqStep_result phase
      have quiet : Live answer { req with ready := false } := live.same ⟨rfl, rfl, rfl, rfl⟩
      have less := quiet.resultWrite_le (c := c) phase below done rfl
      have work : answer.work { req with ready := false } = answer.work req := rfl
      have more := rest_lt_work answer req
      have before : answer.potential req = 1 + (answer.work req - 1) := by
        simp only [Answer.potential, phase, ready, Bool.toNat_true]
      rw [here]
      omega
    · have here : mcpReqStep answer c { req with ready := false } = _ :=
        mcpReqStep_rest calls result
      rw [here]
      simp only [Answer.potential, ready, Bool.toNat_true, Bool.toNat_false]
      have same : answer.work { req with ready := false } = answer.work req := rfl
      rw [same]
      omega

theorem Inv.stored_le (inv : Inv answer req) {write : Write} (waits : req.phase = .journal write) :
    answer.potential (mcpArchiveBack c req write) + 1 ≤ answer.potential req := by
  have situation := inv.situation
  unfold Situation at situation
  rw [waits] at situation
  have more := rest_lt_work answer req
  cases write with
  | intent =>
    obtain ⟨_, below, unset⟩ := situation
    have here : answer.potential req = req.ready.toNat + answer.work req := by
      simp only [Answer.potential, waits]
    unfold mcpArchiveBack mcpReqIntentSaved
    dsimp only
    split
    · have fewer := unset_set below unset
      rw [potential_calls rfl, here]
      simp only [Answer.work, Bool.toNat_true]
      omega
    · have less := fail_le answer req
      omega
  | state =>
    have here : answer.potential req = req.ready.toNat + (answer.rest req + 1) := by
      simp only [Answer.potential, waits, Answer.rest]
    unfold mcpArchiveBack mcpReqArchiveSubmitted
    dsimp only
    split
    · have same : ends (req.log ++ [.gone]) = ends req.log := ends_closing trivial
      rw [here]
      simp only [Answer.potential, mcpReqFail, Req.say, Answer.rest, same]
      omega
    · have same : ends (req.log ++ [.submitted]) = ends req.log := ends_closing trivial
      rw [here]
      simp only [Answer.potential, mcpReqSubmit, Req.say, Answer.rest, same]
      omega

theorem rouse_le (answer : Answer) (req : Req) :
    answer.potential { req with ready := true } ≤ answer.potential req + 1 := by
  simp only [Answer.potential, Bool.toNat_true]
  have same : answer.work { req with ready := true } = answer.work req := rfl
  rw [same]
  omega

theorem leave_le (goes : req.phase = .calls ∨ req.phase = .result ∨ ∃ write, req.phase = .journal write) :
    answer.potential (mcpReqFail req) + 1 ≤ answer.potential req := by
  have same : ends (req.log ++ [.gone]) = ends req.log := ends_closing trivial
  have more := rest_lt_work answer req
  unfold Answer.rest at more
  simp only [Answer.potential, mcpReqFail, Req.say, same]
  rcases goes with phase | phase | ⟨write, phase⟩
  · rw [phase]
    dsimp only
    omega
  · rw [phase]
    dsimp only
    omega
  · rw [phase]
    cases write <;> dsimp only <;> omega

/-- Each step of a run leaves less to do. -/
theorem Inv.next_le (inv : Inv answer req) (step : Step answer req move after) :
    answer.potential after + 1 ≤ answer.potential req + move.spare := by
  cases step with
  | step c ready => exact inv.step_le ready
  | ends k output low high waits =>
    exact potential_end (inv.lawful.snoc (.ended (inv.slotted.runs low high waits)))
  | stored c waits => exact inv.stored_le waits
  | rouse =>
    have less := rouse_le answer req
    simp only [Move.spare]
    omega
  | gone goes => exact leave_le goes

theorem work_fresh (answer : Answer) (intents : BitVec 32) (upload : Nat) :
    answer.work (.fresh intents upload) ≤ uploadMax + 7 * answer.calls.length + 3 := by
  have few : answer.unset intents ≤ answer.calls.length := by
    have bound := countP_le_length (l := List.range answer.calls.length)
      (p := fun k => !intents.getLsbD k)
    simpa [Answer.unset] using bound
  simp only [Answer.work, Req.fresh]
  omega

/-! ## A run -/

/-- What a run of a turn's calls did. -/
structure Orderly (answer : Answer) (moves : List Move) (req : Req) : Prop where
  /-- The calls are launched in the order of the answer, each once. -/
  launched : ∃ m ≤ answer.calls.length, launches req.log = List.range m
  /-- Each ends once. -/
  once : (ends req.log).Nodup
  /-- The results are written in that order, each once. -/
  written : ∃ p ≤ answer.calls.length, writes req.log = List.range p
  /-- A result is written after its call ended, with the output it ended with. -/
  ended : ∀ past k w later, req.log = past ++ .written k w :: later →
    ∃ o, w = some o ∧ .ended k o ∈ past
  /-- While a call of a serial tool runs, no other does. -/
  alone : ∀ past later, req.log = past ++ later →
    ∀ k j, answer.Serial k → Runs past k → Runs past j → j = k
  /-- Such a call starts after the results of all calls before it are written, and the call after
  it after its own. -/
  waits : ∀ past k later, req.log = past ++ .launched k :: later → answer.Alone k →
    writes past = List.range k
  /-- The turn is submitted once, after the last result. -/
  submitted : ∀ past later, req.log = past ++ .submitted :: later →
    writes past = List.range answer.calls.length ∧ later = []
  /-- The request comes to rest only as the turn is submitted, compacted or ended. -/
  settled : req.ready = false → (∀ k, ¬Runs req.log k) → (∀ write, req.phase ≠ .journal write) →
    .submitted ∈ req.log ∨ .compacted ∈ req.log ∨ .gone ∈ req.log
  /-- It does come to rest. -/
  bounded : moves.length ≤ uploadMax + 7 * answer.calls.length + 3 + (moves.map Move.spare).sum

theorem Inv.settled (inv : Inv answer req) (quiet : req.ready = false)
    (done : ∀ k, ¬Runs req.log k) (stored : ∀ write, req.phase ≠ .journal write) :
    .submitted ∈ req.log ∨ .compacted ∈ req.log ∨ .gone ∈ req.log := by
  have situation := inv.situation
  unfold Situation at situation
  cases phase : req.phase with
  | calls =>
    rw [phase] at situation
    obtain ⟨below, waits⟩ := situation.2 quiet
    exact absurd (inv.slotted.runs (Nat.le_refl _) below waits) (done _)
  | result =>
    rw [phase] at situation
    have ready := situation.2.1
    rw [quiet] at ready
    cases ready
  | journal write => exact absurd phase (stored write)
  | call =>
    rw [phase] at situation
    exact .inl situation
  | compacted =>
    rw [phase] at situation
    exact .inr (.inl situation)
  | gone =>
    rw [phase] at situation
    exact .inr (.inr situation)

/-- Whatever order the calls of a turn end in, with the journal or without it, they are launched
and their results are written in the order of the answer, a call of a serial tool has the turn to
itself, and the turn is submitted once, after the last result. -/
theorem calls_orderly {moves : List Move} {intents : BitVec 32} {upload : Nat}
    (run : Trace (Step answer) (mcpReqTurnWritten answer c intents upload) moves req) : Orderly answer moves req := by
  have inv := Inv.reached run
  obtain ⟨⟨p, order⟩, after⟩ := inv.lawful.writes_eq
  constructor
  · exact inv.lawful.launches_eq
  · exact inv.lawful.ends_sub.1
  · exact ⟨p, inv.lawful.written_inside order, order⟩
  · intro past k w later split
    have lawful := inv.lawful
    rw [split] at lawful
    cases Ruled.allows lawful with
    | @written _ o _ ended _ => exact ⟨o, rfl, ended⟩
  · intro past later split k j serial runs other
    have lawful := inv.lawful
    rw [split] at lawful
    have front : Lawful answer past := Ruled.left lawful
    exact front.runs_alone serial runs other
  · intro past k later split first
    have lawful := inv.lawful
    rw [split] at lawful
    cases Ruled.allows lawful with
    | launched _ _ alone _ => exact alone first
  · intro past later split
    have lawful := inv.lawful
    rw [split] at lawful
    exact lawful.submitted_last
  · exact inv.settled
  · have fresh : Live answer (.fresh intents upload) := .fresh intents upload
    have length : moves.length + _ ≤ _ + (moves.map Move.spare).sum :=
      run.length_le fresh.callsNext (fun _ _ _ inv step => inv.next step)
        (fun _ _ _ inv step => inv.next_le step)
    have start : answer.potential (mcpReqTurnWritten answer c intents upload) ≤ _ :=
      fresh.callsNext_le rfl
    have work := work_fresh answer intents upload
    omega

/-- Two calls, the second of a serial tool. -/
def twoCalls : Answer :=
  { calls := [{ tool := none, args := false }, { tool := some 0, args := true }]
    few := by decide
    tools := fun _ => { serial := true, rerun := false, agenda := false }
    cut := false
    archive := false
    savedTools := fun _ => none }

/-- A start that ends its call at once, in a step with room for its result. -/
def atOnce : Chance :=
  { draining := false, share := 100, size := 10, tight := false, memory := true, shown := false,
    full := false, forced := false, compact := false, journal := true, replay := true,
    start := .ends { text := "done", failed := false }, submit := .ok, stored := true,
    refused := false }

theorem calls_orderly_two : ∃ req, .submitted ∈ req.log ∧
    Orderly twoCalls [.step atOnce, .step atOnce, .step atOnce, .step atOnce] req := by
  have run : Trace (Step twoCalls) (mcpReqTurnWritten twoCalls atOnce 0 0)
      [.step atOnce, .step atOnce, .step atOnce, .step atOnce] _ :=
    .snoc (.snoc (.snoc (.snoc .nil (.step atOnce rfl)) (.step atOnce rfl)) (.step atOnce rfl))
      (.step atOnce rfl)
  exact ⟨_, by decide, calls_orderly run⟩

end Askai.Calls
