import Askai.Calls.Rules

/-!
# The slots of a turn and its history

What the counters, slots and phases of a request say of what happened to its calls, and that each
function keeps it.
-/

namespace Askai.Calls

open Library List

variable {answer : Answer} {c : Chance} {req : Req}

/-- The slots of the calls under way, and only they, hold what happened to their calls. -/
structure Slotted (answer : Answer) (req : Req) : Prop where
  launched : ∀ k, req.part ≤ k → k < req.launched → k ∈ launches req.log
  tool : ∀ k, req.part ≤ k → k < req.launched →
    ∃ call, answer.calls[k]? = some call ∧ (req.slots k).tool = call.tool
  done : ∀ k, req.part ≤ k → k < req.launched →
    ∀ o, (req.slots k).done = some o ↔ .ended k o ∈ req.log
  empty : ∀ k, ¬(req.part ≤ k ∧ k < req.launched) → req.slots k = Slot.empty

/-- A request whose turn is not over. -/
structure Going (answer : Answer) (req : Req) : Prop where
  lawful : Lawful answer req.log
  slotted : Slotted answer req
  goes : Goes req.log

/-- A request that runs the calls of its turn. -/
structure Live (answer : Answer) (req : Req) : Prop extends Going answer req where
  launches : launches req.log = List.range req.launched
  writes : writes req.log = List.range req.part
  order : req.part ≤ req.launched
  inside : req.launched ≤ answer.calls.length

/-- The call whose result is next runs. -/
def Blocked (req : Req) : Prop :=
  req.part < req.launched ∧ (req.slots req.part).done = none

/-- What the phase of a request says. -/
def Situation (answer : Answer) (req : Req) : Prop :=
  match req.phase with
  | .calls => Live answer req ∧ (req.ready = false → Blocked req)
  | .result => Live answer req ∧ req.ready = true ∧ req.part < req.launched ∧
      (req.slots req.part).done.isSome = true
  | .journal .intent => Live answer req ∧ req.launched < answer.calls.length ∧
      req.intents.getLsbD req.launched = false
  | .journal .state => Going answer req ∧ writes req.log = List.range answer.calls.length
  | .call => .submitted ∈ req.log
  | .compacted => .compacted ∈ req.log
  | .gone => .gone ∈ req.log

/-- What holds of a request between two steps. -/
structure Inv (answer : Answer) (req : Req) : Prop where
  lawful : Lawful answer req.log
  slotted : Slotted answer req
  situation : Situation answer req

/-! ## What the slots are about -/

/-- The two requests have the same calls. -/
structure Same (n req : Req) : Prop where
  log : n.log = req.log
  slots : n.slots = req.slots
  part : n.part = req.part
  launched : n.launched = req.launched

theorem Slotted.same {n : Req} (slotted : Slotted answer req) (same : Same n req) : Slotted answer n := by
  constructor
  · rw [same.part, same.launched, same.log]
    exact slotted.launched
  · rw [same.part, same.launched, same.slots]
    exact slotted.tool
  · rw [same.part, same.launched, same.slots, same.log]
    exact slotted.done
  · rw [same.part, same.launched, same.slots]
    exact slotted.empty

theorem Going.same {n : Req} (going : Going answer req) (same : Same n req) : Going answer n := by
  refine ⟨?_, going.slotted.same same, ?_⟩
  · rw [same.log]
    exact going.lawful
  · rw [same.log]
    exact going.goes

theorem Live.same {n : Req} (live : Live answer req) (same : Same n req) : Live answer n := by
  refine ⟨live.toGoing.same same, ?_, ?_, ?_, ?_⟩
  · rw [same.log, same.launched]
    exact live.launches
  · rw [same.log, same.part]
    exact live.writes
  · rw [same.part, same.launched]
    exact live.order
  · rw [same.launched]
    exact live.inside

/-! ## Events -/

@[simp] theorem say_log (e : Event) : (req.say e).log = req.log ++ [e] := rfl

@[simp] theorem say_slots (e : Event) : (req.say e).slots = req.slots := rfl

theorem mem_closed {past : List Event} {e f : Event} (closes : e.Closes) (other : ¬f.Closes) :
    f ∈ past ++ [e] ↔ f ∈ past := by
  simp only [mem_append, mem_singleton, or_iff_left_iff_imp]
  rintro rfl
  exact absurd closes other

/-- The end of a turn leaves the slots as they are. -/
theorem Slotted.closed {e : Event} (slotted : Slotted answer req) (closes : e.Closes)
    (phase : Phase) : Slotted answer ({ req with phase }.say e) := by
  constructor
  · intro k low high
    have here := slotted.launched k low high
    simpa [Req.say, launches_closing closes] using here
  · exact slotted.tool
  · intro k low high o
    rw [say_slots, say_log, mem_closed closes id]
    exact slotted.done k low high o
  · exact slotted.empty

theorem Goes.snoc {past : List Event} {e : Event} (goes : Goes past) (other : ¬e.Closes) : Goes (past ++ [e]) := by
  intro f mem
  rw [mem_append, mem_singleton] at mem
  rcases mem with mem | rfl
  · exact goes f mem
  · exact other

/-! ## The end of a turn -/

theorem Going.fail (going : Going answer req) : Inv answer (mcpReqFail req) := by
  constructor
  · exact going.lawful.snoc (.gone going.goes)
  · exact going.slotted.closed (e := .gone) trivial .gone
  · exact mem_append_right _ (mem_singleton_self _)

theorem Going.slotsDrop (going : Going answer req) : Going answer (mcpReqSlotsDrop req) := by
  refine ⟨going.lawful, ?_, going.goes⟩
  constructor
  · intro k _ high
    exact absurd high (Nat.not_lt_zero k)
  · intro k _ high
    exact absurd high (Nat.not_lt_zero k)
  · intro k _ high
    exact absurd high (Nat.not_lt_zero k)
  · intro k _
    simp only [mcpReqSlotsDrop]
    split
    · rfl
    · exact going.slotted.empty k ‹_›

theorem Going.compact (going : Going answer req) : Inv answer (mcpReqCompact c req) := by
  unfold mcpReqCompact
  split
  · exact going.slotsDrop.fail
  · constructor
    · exact going.lawful.snoc (.compacted going.goes)
    · exact going.slotsDrop.slotted.closed (e := .compacted) trivial .compacted
    · exact mem_append_right _ (mem_singleton_self _)

theorem Going.compactFull (going : Going answer req) : Inv answer (mcpReqCompactFull c req) := by
  unfold mcpReqCompactFull
  split
  · exact going.fail
  · exact going.compact

theorem Going.submit (going : Going answer req) (whole : Calls.writes req.log = List.range answer.calls.length) :
    Inv answer (mcpReqSubmit req) := by
  constructor
  · exact going.lawful.snoc (.submitted whole going.goes)
  · exact going.slotted.closed (e := .submitted) trivial .call
  · exact mem_append_right _ (mem_singleton_self _)

theorem Going.turnSubmit (going : Going answer req) (whole : Calls.writes req.log = List.range answer.calls.length) :
    Inv answer (mcpReqTurnSubmit answer c req) := by
  unfold mcpReqTurnSubmit
  split
  · exact going.fail
  · split
    · split
      · have same := going.same (n := { req with
          intents := 0
          records := req.records ++ [.state]
          ready := false
          phase := .journal .state }) ⟨rfl, rfl, rfl, rfl⟩
        exact ⟨same.lawful, same.slotted, same, whole⟩
      · exact going.submit whole
    · exact going.compactFull
    · exact going.fail

/-! ## The end of a call -/

@[simp] theorem mcpSlotDone_log (k : Nat) (o : Output) :
    (mcpSlotDone answer req k o).log = req.log ++ [.ended k o] := rfl

@[simp] theorem mcpSlotDone_part (k : Nat) (o : Output) : (mcpSlotDone answer req k o).part = req.part := rfl

@[simp] theorem mcpSlotDone_launched (k : Nat) (o : Output) :
    (mcpSlotDone answer req k o).launched = req.launched := rfl

@[simp] theorem mcpSlotDone_phase (k : Nat) (o : Output) : (mcpSlotDone answer req k o).phase = req.phase := rfl

@[simp] theorem mcpSlotDone_ready (k : Nat) (o : Output) : (mcpSlotDone answer req k o).ready = true := rfl

@[simp] theorem mcpSlotDone_intents (k : Nat) (o : Output) : (mcpSlotDone answer req k o).intents = req.intents := rfl

@[simp] theorem mcpSlotDone_slots (k : Nat) (o : Output) : (mcpSlotDone answer req k o).slots =
      Function.update req.slots k { tool := (req.slots k).tool, done := some o } := rfl

section

variable {k : Nat} {o : Output}

/-- A call under way that is not done runs. -/
theorem Slotted.runs (slotted : Slotted answer req) (low : req.part ≤ k) (high : k < req.launched)
    (waits : (req.slots k).done = none) : Runs req.log k := by
  refine ⟨slotted.launched k low high, ?_⟩
  intro ended
  obtain ⟨o, mem⟩ := mem_ends.mp ended
  have done := (slotted.done k low high o).mpr mem
  rw [waits] at done
  cases done

theorem Slotted.end_ (slotted : Slotted answer req) (low : req.part ≤ k) (high : k < req.launched)
    (waits : (req.slots k).done = none) : Slotted answer (mcpSlotDone answer req k o) := by
  constructor
  · intro j low high
    simpa using slotted.launched j low high
  · intro j low high
    obtain ⟨call, here, tool⟩ := slotted.tool j low high
    refine ⟨call, here, ?_⟩
    rw [mcpSlotDone_slots]
    rcases eq_or_ne j k with rfl | other
    · rw [Function.update_self]
      exact tool
    · rw [Function.update_of_ne other]
      exact tool
  · intro j low' high' p
    rw [mcpSlotDone_slots, mcpSlotDone_log, mem_append, mem_singleton]
    rcases eq_or_ne j k with rfl | other
    · have absent : .ended j p ∉ req.log := by
        rw [← slotted.done j low high p, waits]
        simp
      simp [absent, eq_comm]
    · rw [Function.update_of_ne other, slotted.done j low' high' p]
      simp [other]
  · intro j outside
    have other : j ≠ k := by
      rintro rfl
      exact outside ⟨low, high⟩
    rw [mcpSlotDone_slots, Function.update_of_ne other]
    exact slotted.empty j outside

theorem Live.end_ (live : Live answer req) (low : req.part ≤ k) (high : k < req.launched)
    (waits : (req.slots k).done = none) : Live answer (mcpSlotDone answer req k o) := by
  refine ⟨⟨?_, ?_, ?_⟩, ?_, ?_, live.order, live.inside⟩
  · exact live.lawful.snoc (.ended (live.slotted.runs low high waits))
  · exact live.slotted.end_ low high waits
  · exact live.goes.snoc id
  · simpa using live.launches
  · simpa using live.writes

/-- What the phase says stays true as a call ends. -/
theorem Inv.end_ (inv : Inv answer req) (low : req.part ≤ k) (high : k < req.launched)
    (waits : (req.slots k).done = none) : Inv answer (mcpSlotDone answer req k o) := by
  have slotted : Slotted answer (mcpSlotDone answer req k o) := inv.slotted.end_ low high waits
  refine ⟨inv.lawful.snoc (.ended (inv.slotted.runs low high waits)), slotted, ?_⟩
  have situation := inv.situation
  unfold Situation at situation ⊢
  rw [mcpSlotDone_phase]
  split at situation
  · exact ⟨situation.1.end_ low high waits, by simp⟩
  · obtain ⟨live, _, below, done⟩ := situation
    refine ⟨live.end_ low high waits, rfl, below, ?_⟩
    have other : req.part ≠ k := by
      rintro rfl
      rw [waits] at done
      cases done
    simpa [Function.update_of_ne other] using done
  · obtain ⟨live, below, unset⟩ := situation
    exact ⟨live.end_ low high waits, below, unset⟩
  · obtain ⟨going, whole⟩ := situation
    refine ⟨⟨?_, slotted, going.goes.snoc id⟩, by simpa using whole⟩
    exact going.lawful.snoc (.ended (going.slotted.runs low high waits))
  · exact mem_append_left _ situation
  · exact mem_append_left _ situation
  · exact mem_append_left _ situation

end

/-! ## The launch of a call -/

/-- The request as its call `k` is launched. -/
def Req.launch (req : Req) (k : Nat) (tool : Option ToolId) : Req :=
  { req with
    slots := Function.update req.slots k { req.slots k with tool }
    launched := k + 1
    ready := true }.say (.launched k)

@[simp] theorem launch_log (k : Nat) (tool : Option ToolId) : (req.launch k tool).log = req.log ++ [.launched k] := rfl

@[simp] theorem launch_slots (k : Nat) (tool : Option ToolId) :
    (req.launch k tool).slots = Function.update req.slots k { req.slots k with tool } := rfl

theorem Live.launch (live : Live answer req) {call : AnswerCall} (here : answer.calls[req.launched]? = some call)
    (alone : answer.Alone req.launched → req.part = req.launched) :
    Live answer (req.launch req.launched call.tool) := by
  have inside : req.launched < answer.calls.length := (List.getElem?_eq_some_iff.mp here).1
  have fresh : req.slots req.launched = Slot.empty := by
    apply live.slotted.empty
    omega
  have unknown : ∀ o, .ended req.launched o ∉ req.log := by
    intro o mem
    have launched := live.lawful.ends_sub.2 _ (mem_ends.mpr ⟨o, mem⟩)
    rw [live.launches, mem_range] at launched
    exact Nat.lt_irrefl _ launched
  refine ⟨⟨?_, ?_, live.goes.snoc id⟩, ?_, ?_, ?_, inside⟩
  · apply live.lawful.snoc
    apply Allowed.launched inside live.launches _ live.goes
    intro first
    rw [live.writes, alone first]
  · constructor
    · intro k _ high
      rw [launch_log, launches_launched, live.launches, ← range_succ, mem_range]
      exact high
    · intro k low high
      rcases Nat.lt_succ_iff_lt_or_eq.mp high with before | rfl
      · obtain ⟨found, at_, tool⟩ := live.slotted.tool k low before
        refine ⟨found, at_, ?_⟩
        rw [launch_slots, Function.update_of_ne (Nat.ne_of_lt before)]
        exact tool
      · exact ⟨call, here, by simp⟩
    · intro k low high o
      rw [launch_slots, launch_log]
      rcases Nat.lt_succ_iff_lt_or_eq.mp high with before | rfl
      · rw [Function.update_of_ne (Nat.ne_of_lt before), live.slotted.done k low before o]
        simp
      · simp [fresh, Slot.empty, unknown o]
    · intro k outside
      have other : k ≠ req.launched := by
        rintro rfl
        exact outside ⟨live.order, Nat.lt_succ_self _⟩
      rw [launch_slots, Function.update_of_ne other]
      apply live.slotted.empty
      rintro ⟨low, high⟩
      exact outside ⟨low, Nat.lt_succ_of_lt high⟩
  · rw [launch_log, launches_launched, live.launches]
    exact range_succ.symm
  · rw [launch_log, writes_launched]
    exact live.writes
  · exact Nat.le_succ_of_le live.order

/-- In `PHASE_CALLS`, with its step queued. -/
theorem Live.inv (live : Live answer req) (phase : req.phase = .calls) (ready : req.ready = true) : Inv answer req := by
  refine ⟨live.lawful, live.slotted, ?_⟩
  unfold Situation
  rw [phase]
  exact ⟨live, by simp [ready]⟩

/-- The launched call runs. -/
theorem Live.launched_waits (live : Live answer req) (tool : Option ToolId) :
    ((req.launch req.launched tool).slots req.launched).done = none := by
  have fresh : req.slots req.launched = Slot.empty := by
    apply live.slotted.empty
    omega
  simp [fresh, Slot.empty]

theorem mcpReqCallStart_eq (k : Nat) (call : AnswerCall) : mcpReqCallStart answer c req k call =
    match answer.savedTools k with
    | some output =>
      if c.replay then mcpSlotDone answer (req.launch k call.tool) k output else mcpReqFail (req.launch k call.tool)
    | none =>
      if call.args then mcpSlotStart answer c (req.launch k call.tool) k
      else mcpSlotDone answer (req.launch k call.tool) k answer.noArgs :=
  rfl

theorem Live.callStart (live : Live answer req) (phase : req.phase = .calls) {call : AnswerCall}
    (here : answer.calls[req.launched]? = some call) (alone : answer.Alone req.launched → req.part = req.launched) :
    Inv answer (mcpReqCallStart answer c req req.launched call) := by
  have launched := live.launch here alone
  have waits := live.launched_waits call.tool
  have ends : ∀ o, Inv answer (mcpSlotDone answer (req.launch req.launched call.tool) req.launched o) := by
    intro o
    exact (launched.inv phase rfl).end_ live.order (Nat.lt_succ_self _) waits
  rw [mcpReqCallStart_eq]
  split
  · split
    · exact ends _
    · exact launched.fail
  · split
    · unfold mcpSlotStart
      split
      · exact launched.inv phase rfl
      · exact ends _
      · exact launched.fail
      · exact launched.compact
    · exact ends _

/-- A call that is alone and is not to wait comes after the results of all calls before it. -/
theorem Live.part_of_alone (live : Live answer req) {call : AnswerCall} (here : answer.calls[req.launched]? = some call)
    (goes : (decide (req.part < req.launched) && ((answer.flags call.tool).serial ||
      (answer.flags (req.slots (req.launched - 1)).tool).serial)) = false)
    (alone : answer.Alone req.launched) : req.part = req.launched := by
  apply Nat.le_antisymm live.order
  apply Nat.le_of_not_lt
  intro below
  simp only [below, decide_true, Bool.true_and, Bool.or_eq_false_iff] at goes
  rcases alone with ⟨found, at_, serial⟩ | ⟨j, next, found, at_, serial⟩
  · obtain rfl := Option.some.inj (here.symm.trans at_)
    rw [goes.1] at serial
    cases serial
  · obtain ⟨last, there, tool⟩ := live.slotted.tool j (by omega) (by omega)
    obtain rfl := Option.some.inj (there.symm.trans at_)
    rw [next, Nat.add_sub_cancel, tool, serial] at goes
    cases goes.2

theorem Live.callLaunch (live : Live answer req) (phase : req.phase = .calls)
    (below : req.part < answer.calls.length) (waits : (req.slots req.part).done = none) :
    Inv answer (mcpReqCallLaunch answer c req) := by
  have blocked (inner : req.part < req.launched) : Inv answer req := by
    refine ⟨live.lawful, live.slotted, ?_⟩
    unfold Situation
    rw [phase]
    exact ⟨live, fun _ => ⟨inner, waits⟩⟩
  unfold mcpReqCallLaunch
  dsimp only
  split
  · rename_i none
    rw [List.getElem?_eq_none_iff] at none
    exact blocked (Nat.lt_of_lt_of_le below none)
  · rename_i call here
    split
    · rename_i wait
      simp only [Bool.and_eq_true, decide_eq_true_eq] at wait
      exact blocked wait.1
    · rename_i goes
      split
      · exact live.fail
      · split
        · rename_i intent
          split
          · simp only [Bool.and_eq_true, Bool.not_eq_true'] at intent
            have same := live.same (n := { req with
              records := req.records ++
                [.toolIntent req.launched (answer.flags call.tool).agenda]
              ready := false
              phase := .journal .intent }) ⟨rfl, rfl, rfl, rfl⟩
            exact ⟨same.lawful, same.slotted, same, (List.getElem?_eq_some_iff.mp here).1, intent.1.2⟩
          · exact live.fail
        · apply live.callStart phase here
          exact live.part_of_alone here (Bool.not_eq_true _ ▸ goes)

end Askai.Calls
