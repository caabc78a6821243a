import Askai.Calls.Slots
import Askai.Library.Trace

/-!
# The steps of a turn's calls

Every run of a turn's calls keeps the rules of the turn.
-/

namespace Askai.Calls

open Library

variable {answer : Answer} {c : Chance} {req after : Req} {move : Move}

/-! ## The functions of a turn -/

/-- A slot in use holds a call under way. -/
theorem Slotted.inside {k : Nat} (slotted : Slotted answer req)
    (done : (req.slots k).done.isSome = true) : req.part ≤ k ∧ k < req.launched := by
  apply Classical.byContradiction
  intro outside
  rw [slotted.empty k outside] at done
  cases done

theorem Live.callsNext (live : Live answer req) : Inv answer (mcpReqCallsNext answer c req) := by
  unfold mcpReqCallsNext
  split
  · rename_i whole
    have written : Calls.writes (mcpReqSlotsDrop req).log = List.range answer.calls.length := by
      rw [← whole]
      exact live.writes
    dsimp only
    split
    · exact live.slotsDrop.compactFull
    · exact live.slotsDrop.turnSubmit written
  · rename_i part
    split
    · rename_i done
      have inside := live.slotted.inside done
      have same := live.same (n := mcpReqResultBegin c req) ⟨rfl, rfl, rfl, rfl⟩
      exact ⟨same.lawful, same.slotted, same, rfl, inside.2, done⟩
    · rename_i waits
      have same := live.same (n := { req with phase := .calls }) ⟨rfl, rfl, rfl, rfl⟩
      apply same.callLaunch rfl
      · exact Nat.lt_of_le_of_ne (Nat.le_trans live.order live.inside) part
      · simpa using waits

/-- The request whose result `part` is written. -/
def Req.write (req : Req) : Req :=
  { req with
    slots := Function.update req.slots req.part Slot.empty
    part := req.part + 1 }.say (.written req.part (req.slots req.part).done)

@[simp] theorem write_log : req.write.log = req.log ++ [.written req.part (req.slots req.part).done] := rfl

@[simp] theorem write_slots : req.write.slots = Function.update req.slots req.part Slot.empty := rfl

@[simp] theorem write_part : req.write.part = req.part + 1 := rfl

@[simp] theorem write_launched : req.write.launched = req.launched := rfl

theorem Live.write (live : Live answer req) (below : req.part < req.launched)
    (done : (req.slots req.part).done.isSome = true) : Live answer req.write := by
  obtain ⟨o, here⟩ := Option.isSome_iff_exists.mp done
  have ended := (live.slotted.done req.part (Nat.le_refl _) below o).mp here
  have inner {k : Nat} (low : req.part + 1 ≤ k) : k ≠ req.part := by omega
  refine ⟨⟨?_, ?_, ?_⟩, ?_, ?_, below, live.inside⟩
  · rw [write_log, here]
    exact live.lawful.snoc (.written live.writes ended live.goes)
  · constructor
    · intro k low high
      rw [write_log, launches_written]
      exact live.slotted.launched k (Nat.le_of_succ_le low) high
    · intro k low high
      rw [write_slots, Function.update_of_ne (inner low)]
      exact live.slotted.tool k (Nat.le_of_succ_le low) high
    · intro k low high p
      rw [write_slots, Function.update_of_ne (inner low), write_log, live.slotted.done k (Nat.le_of_succ_le low) high p]
      simp
    · intro k outside
      rw [write_slots]
      rcases eq_or_ne k req.part with rfl | other
      · rw [Function.update_self]
      · rw [Function.update_of_ne other]
        apply live.slotted.empty
        rintro ⟨low, high⟩
        exact outside ⟨Nat.lt_of_le_of_ne low other.symm, high⟩
  · exact live.goes.snoc id
  · rw [write_log, launches_written]
    exact live.launches
  · rw [write_log, writes_written, live.writes]
    exact List.range_succ.symm

theorem Live.resultEnd (live : Live answer req) (below : req.part < req.launched)
    (done : (req.slots req.part).done.isSome = true) : Inv answer (mcpReqResultEnd answer c req) := by
  unfold mcpReqResultEnd
  split
  · exact live.fail
  · exact (live.write below done).callsNext

theorem Live.resultWrite (live : Live answer req) (phase : req.phase = .result)
    (below : req.part < req.launched) (done : (req.slots req.part).done.isSome = true) :
    Inv answer (mcpReqResultWrite answer c req) := by
  have same := live.same (n := { req with
    upload := req.upload + min req.left c.share
    left := req.left - min req.left c.share }) ⟨rfl, rfl, rfl, rfl⟩
  unfold mcpReqResultWrite
  dsimp only
  split
  · exact live.compactFull
  · split
    · exact live.fail
    · split
      · exact same.resultEnd below done
      · refine ⟨same.lawful, same.slotted.same ⟨rfl, rfl, rfl, rfl⟩, ?_⟩
        unfold Situation
        dsimp only
        rw [phase]
        exact ⟨same.same ⟨rfl, rfl, rfl, rfl⟩, rfl, below, done⟩

/-! ## The steps of a run -/

/-- What the phase says stays true if only the step is queued or taken, but for what a request
that waits in `PHASE_CALLS` or works in `PHASE_RESULT` does of its own. -/
theorem Inv.rouse (inv : Inv answer req) : Inv answer { req with ready := true } := by
  have slotted := inv.slotted.same (n := { req with ready := true }) ⟨rfl, rfl, rfl, rfl⟩
  refine ⟨inv.lawful, slotted, ?_⟩
  have situation := inv.situation
  unfold Situation at situation ⊢
  dsimp only
  split at situation
  · exact ⟨situation.1.same ⟨rfl, rfl, rfl, rfl⟩, by simp⟩
  · exact ⟨situation.1.same ⟨rfl, rfl, rfl, rfl⟩, rfl, situation.2.2⟩
  · exact ⟨situation.1.same ⟨rfl, rfl, rfl, rfl⟩, situation.2⟩
  · exact ⟨situation.1.same ⟨rfl, rfl, rfl, rfl⟩, situation.2⟩
  · exact situation
  · exact situation
  · exact situation

theorem mcpReqStep_calls (phase : req.phase = .calls) : mcpReqStep answer c req = mcpReqCallsNext answer c req := by
  unfold mcpReqStep
  rw [phase]

theorem mcpReqStep_result (phase : req.phase = .result) : mcpReqStep answer c req = mcpReqResultWrite answer c req := by
  unfold mcpReqStep
  rw [phase]

theorem mcpReqStep_rest (calls : req.phase ≠ .calls) (result : req.phase ≠ .result) :
    mcpReqStep answer c req = req := by
  unfold mcpReqStep
  split
  · contradiction
  · contradiction
  · rfl

/-- The step of a request in a phase that has no work loses no more than the step. -/
theorem Inv.rest (inv : Inv answer req) (calls : req.phase ≠ .calls) (result : req.phase ≠ .result) :
    Inv answer { req with ready := false } := by
  have slotted := inv.slotted.same (n := { req with ready := false }) ⟨rfl, rfl, rfl, rfl⟩
  refine ⟨inv.lawful, slotted, ?_⟩
  have situation := inv.situation
  unfold Situation at situation ⊢
  dsimp only
  split at situation
  · contradiction
  · contradiction
  · exact ⟨situation.1.same ⟨rfl, rfl, rfl, rfl⟩, situation.2⟩
  · exact ⟨situation.1.same ⟨rfl, rfl, rfl, rfl⟩, situation.2⟩
  · exact situation
  · exact situation
  · exact situation

theorem Inv.step (inv : Inv answer req) : Inv answer (mcpReqStep answer c { req with ready := false }) := by
  have situation := inv.situation
  unfold Situation at situation
  rcases eq_or_ne req.phase .calls with phase | calls
  · rw [phase] at situation
    have here : mcpReqStep answer c { req with ready := false } = _ := mcpReqStep_calls phase
    rw [here]
    have quiet : Live answer { req with ready := false } := situation.1.same ⟨rfl, rfl, rfl, rfl⟩
    exact quiet.callsNext
  · rcases eq_or_ne req.phase .result with phase | result
    · rw [phase] at situation
      have here : mcpReqStep answer c { req with ready := false } = _ := mcpReqStep_result phase
      rw [here]
      obtain ⟨live, _, below, done⟩ := situation
      have quiet : Live answer { req with ready := false } := live.same ⟨rfl, rfl, rfl, rfl⟩
      exact quiet.resultWrite phase below done
    · have here : mcpReqStep answer c { req with ready := false } = _ :=
        mcpReqStep_rest calls result
      rw [here]
      exact inv.rest calls result

theorem Inv.stored (inv : Inv answer req) {write : Write} (waits : req.phase = .journal write) :
    Inv answer (mcpArchiveBack c req write) := by
  have situation := inv.situation
  unfold Situation at situation
  rw [waits] at situation
  cases write with
  | intent =>
    obtain ⟨live, _⟩ := situation
    unfold mcpArchiveBack mcpReqIntentSaved
    dsimp only
    split
    · have same := live.same (n := { req with
        intents := req.intents ||| 1#32 <<< req.launched
        phase := .calls
        ready := true }) ⟨rfl, rfl, rfl, rfl⟩
      exact same.inv rfl rfl
    · exact live.fail
  | state =>
    obtain ⟨going, whole⟩ := situation
    unfold mcpArchiveBack mcpReqArchiveSubmitted
    dsimp only
    split
    · exact going.fail
    · exact going.submit whole

theorem Inv.next (inv : Inv answer req) (step : Step answer req move after) : Inv answer after := by
  cases step with
  | step c ready => exact inv.step
  | ends k output low high waits => exact inv.end_ low high waits
  | stored c waits => exact inv.stored waits
  | rouse => exact inv.rouse
  | gone goes =>
    have situation := inv.situation
    unfold Situation at situation
    rcases goes with phase | phase | ⟨write, phase⟩
    · rw [phase] at situation
      exact situation.1.fail
    · rw [phase] at situation
      exact situation.1.fail
    · rw [phase] at situation
      cases write with
      | intent | state => exact situation.1.fail

theorem Live.fresh (intents : BitVec 32) (upload : Nat) : Live answer (.fresh intents upload) := by
  refine ⟨⟨.nil, ?_, ?_⟩, rfl, rfl, Nat.le_refl _, Nat.zero_le _⟩
  · constructor
    · intro k _ high
      exact absurd high (Nat.not_lt_zero k)
    · intro k _ high
      exact absurd high (Nat.not_lt_zero k)
    · intro k _ high
      exact absurd high (Nat.not_lt_zero k)
    · intro k _
      rfl
  · intro e mem
    cases mem

/-- What holds between two steps holds in every state of every run. -/
theorem Inv.reached {es : List Move} {intents : BitVec 32} {upload : Nat}
    (run : Trace (Step answer) (mcpReqTurnWritten answer c intents upload) es req) : Inv answer req := by
  have start : Inv answer (mcpReqTurnWritten answer c intents upload) :=
    (Live.fresh intents upload).callsNext
  exact run.invariant start fun _ _ _ inv step => inv.next step

end Askai.Calls
