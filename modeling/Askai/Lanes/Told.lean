import Askai.Lanes.Model
import Mathlib.Tactic

/-!
# What a lane is told

A lane's message is on its way exactly while there is something to tell it: a policy stored for it, or
evictions asked of it.
-/

namespace Askai.Lanes

open Library

/-- The policies stored for the lane that its server is yet to take. -/
def Lane.pending (lane : Lane) : List Policy :=
  lane.handler.policy.toList ++ lane.policy.toList

/-- A lane and what home is doing for it are in order. -/
structure Fair (phase : Phase) (i : Nat) (first : Policy) (lane : Lane) : Prop where
  /-- The handover is posted, or about to be, or begun, exactly while a policy is stored. -/
  policies : (if phase.handover = some i then 1 else 0) + lane.handovers +
      (if lane.handler = .policyBegun then 1 else 0) = if lane.policy = none then 0 else 1
  /-- The evict message is posted, or about to be, or begun, exactly while evictions are asked. -/
  evicts : (if phase.evict = some i then 1 else 0) + lane.evictPosts +
      (if lane.handler = .evictBegun then 1 else 0) = if lane.evicts = 0 then 0 else 1
  adding : ∀ asked, phase = .adds i asked → lane.evicts ≤ asked ∧ asked + 1 < 2 ^ 32
  balance : lane.told + lane.dropped + lane.evicts = lane.asked
  nothing : lane.life = .running ∨ lane.life = .exiting ∨ lane.life = .stopped → lane.dropped = 0
  order : (lane.taken ++ lane.pending).Sublist lane.stored
  newest : lane.life = .running ∨ lane.life = .exiting →
    ∃ server, lane.server = some server ∧ lane.pending.getLastD server = lane.stored.getLastD first
  gone : lane.life = .stopped ∨ lane.life = .draining ∨ lane.life = .ended → lane.server = none
  handling : lane.handler ≠ .away → lane.life = .running ∨ lane.life = .draining
  closed : lane.life = .draining ∨ lane.life = .ended → phase = .closed
  ended : lane.life = .ended → lane.handovers = 0 ∧ lane.evictPosts = 0

variable {n : Nat} {first p : Policy} {i j : Nat} {lane : Lane} {phase phase' : Phase} {s t : State}

/-- What home does for another lane. -/
theorem Fair.phase_of (fair : Fair phase i first lane) (handover : phase'.handover = some i ↔ phase.handover = some i)
    (evict : phase'.evict = some i ↔ phase.evict = some i)
    (adding : ∀ asked, phase' = .adds i asked → lane.evicts ≤ asked ∧ asked + 1 < 2 ^ 32)
    (open_ : phase ≠ .closed) : Fair phase' i first lane := by
  constructor
  · have policies := fair.policies
    simp only [← handover] at policies
    exact policies
  · have evicts := fair.evicts
    simp only [← evict] at evicts
    exact evicts
  · exact adding
  · exact fair.balance
  · exact fair.nothing
  · exact fair.order
  · exact fair.newest
  · exact fair.gone
  · exact fair.handling
  · exact fun life => absurd (fair.closed life) open_
  · exact fair.ended

/-! ## What home does -/

theorem pending_store (lane : Lane) (p : Policy) : (lane.store p).pending = lane.handler.policy.toList ++ [p] := rfl

/-- Home stores a policy for the lane. -/
theorem Fair.store (fair : Fair phase i first lane) (open_ : phase ≠ .closed)
    (stores : phase.handover = none ∧ phase.evict = none)
    (posts : if lane.policy = none then phase'.handover = some i else phase'.handover ≠ some i)
    (evict : phase'.evict = none) (adding : ∀ asked, phase' ≠ .adds i asked) : Fair phase' i first (lane.store p) := by
  have policies := fair.policies
  have evicts := fair.evicts
  have order := fair.order
  constructor
  · rw [stores.1, if_neg nofun] at policies
    change _ + lane.handovers + _ = if some p = none then 0 else 1
    split at posts
    · rename_i none
      rw [if_pos none] at policies
      rw [if_pos posts]
      simp only [reduceCtorEq, if_false]
      change _ + lane.handovers + (if lane.handler = .policyBegun then 1 else 0) = 1
      omega
    · rename_i some_
      rw [if_neg some_] at policies
      rw [if_neg posts]
      simp only [reduceCtorEq, if_false]
      exact policies
  · rw [stores.2] at evicts
    rw [evict]
    exact evicts
  · exact fun asked here => absurd here (adding asked)
  · exact fair.balance
  · exact fair.nothing
  · change (lane.taken ++ (lane.store p).pending).Sublist (lane.stored ++ [p])
    rw [pending_store, ← List.append_assoc]
    apply List.Sublist.append _ (List.Sublist.refl [p])
    apply List.Sublist.trans _ order
    apply List.Sublist.append (List.Sublist.refl lane.taken)
    exact List.sublist_append_left _ _
  · intro life
    obtain ⟨server, here, -⟩ := fair.newest life
    refine ⟨server, here, ?_⟩
    change _ = (lane.stored ++ [p]).getLastD first
    rw [pending_store]
    simp
  · exact fair.gone
  · exact fair.handling
  · exact fun life => absurd (fair.closed life) open_
  · intro life
    exact absurd (fair.closed (.inr life)) open_

/-- Home posts the handover. -/
theorem Fair.posts (fair : Fair phase i first lane) (open_ : phase ≠ .closed)
    (handover : phase.handover = some i) (evict : phase.evict = none)
    (handover' : phase'.handover = none) (evict' : phase'.evict = none) (adding : ∀ asked, phase' ≠ .adds i asked) :
    Fair phase' i first { lane with handovers := lane.handovers + 1 } := by
  have policies := fair.policies
  have evicts := fair.evicts
  constructor
  · rw [if_pos handover] at policies
    rw [handover', if_neg nofun]
    dsimp only
    omega
  · rw [evict] at evicts
    rw [evict']
    exact evicts
  · exact fun asked here => absurd here (adding asked)
  · exact fair.balance
  · exact fair.nothing
  · exact fair.order
  · exact fair.newest
  · exact fair.gone
  · exact fair.handling
  · exact fun life => absurd (fair.closed life) open_
  · exact fun life => absurd (fair.closed (.inr life)) open_

/-- Home adds to the evictions asked of the lane. -/
theorem Fair.adds {asked : Nat} (fair : Fair (.adds i asked) i first lane) :
    Fair (if lane.evicts = 0 then .postsEvict i else .away) i first
      { lane with evicts := (lane.evicts + 1) % 2 ^ 32, asked := lane.asked + 1 } := by
  have policies := fair.policies
  have evicts := fair.evicts
  have balance := fair.balance
  obtain ⟨fits, bound⟩ := fair.adding asked rfl
  have whole : (lane.evicts + 1) % 2 ^ 32 = lane.evicts + 1 := Nat.mod_eq_of_lt (by omega)
  rw [whole]
  have never : (Phase.adds i asked) ≠ .closed := nofun
  constructor
  · have same : (if lane.evicts = 0 then Phase.postsEvict i else .away).handover = none := by
      split <;> rfl
    rw [same]
    exact policies
  · rw [if_neg (show ¬(Phase.adds i asked).evict = some i from nofun)] at evicts
    dsimp only
    rw [if_neg (Nat.succ_ne_zero lane.evicts)]
    rcases Decidable.em (lane.evicts = 0) with none | some_
    · rw [if_pos none] at evicts
      rw [if_pos none, if_pos (show (Phase.postsEvict i).evict = some i from rfl)]
      omega
    · rw [if_neg some_] at evicts
      rw [if_neg some_, if_neg (show ¬Phase.away.evict = some i from nofun)]
      exact evicts
  · intro asked here
    split at here <;> cases here
  · dsimp only
    omega
  · exact fair.nothing
  · exact fair.order
  · exact fair.newest
  · exact fair.gone
  · exact fair.handling
  · exact fun life => absurd (fair.closed life) never
  · exact fun life => absurd (fair.closed (.inr life)) never

/-- Home posts the evict message. -/
theorem Fair.postsEvict (fair : Fair (.postsEvict i) i first lane) :
    Fair .away i first { lane with evictPosts := lane.evictPosts + 1 } := by
  have policies := fair.policies
  have evicts := fair.evicts
  have never : Phase.postsEvict i ≠ .closed := nofun
  constructor
  · exact policies
  · rw [if_pos (show (Phase.postsEvict i).evict = some i from rfl)] at evicts
    rw [if_neg nofun]
    dsimp only
    omega
  · exact nofun
  · exact fair.balance
  · exact fair.nothing
  · exact fair.order
  · exact fair.newest
  · exact fair.gone
  · exact fair.handling
  · exact fun life => absurd (fair.closed life) never
  · exact fun life => absurd (fair.closed (.inr life)) never

/-! ## What the loop does -/

/-- The handover's handler begins. -/
theorem Fair.beginPolicy (fair : Fair phase i first lane) (away : lane.handler = .away)
    (posted : 0 < lane.handovers) (life : lane.life = .running ∨ lane.life = .draining) :
    Fair phase i first { lane with handovers := lane.handovers - 1, handler := .policyBegun } := by
  have policies := fair.policies
  have evicts := fair.evicts
  have order := fair.order
  have newest := fair.newest
  rw [away] at policies evicts
  rw [Lane.pending, away] at order newest
  constructor
  · simp only [reduceCtorEq, if_false] at policies
    simp only [if_true]
    omega
  · simpa using evicts
  · exact fair.adding
  · exact fair.balance
  · exact fair.nothing
  · exact order
  · exact newest
  · exact fair.gone
  · exact fun _ => life
  · exact fair.closed
  · intro ended
    rcases life with life | life <;> (rw [ended] at life; cases life)

/-- The handover's handler takes the policy stored. -/
theorem Fair.takePolicy (fair : Fair phase i first lane) (handler : lane.handler = .policyBegun) :
    Fair phase i first { lane with policy := none, handler := .policyTaken lane.policy } := by
  have policies := fair.policies
  have evicts := fair.evicts
  have order := fair.order
  have newest := fair.newest
  rw [handler] at policies evicts
  rw [Lane.pending, handler] at order newest
  have handling := fair.handling (by rw [handler]; nofun)
  constructor
  · simp only [if_true] at policies
    simp only [reduceCtorEq, if_false, if_true]
    rcases Decidable.em (lane.policy = none) with none_ | some_
    · rw [if_pos none_] at policies
      omega
    · rw [if_neg some_] at policies
      omega
  · simpa using evicts
  · exact fair.adding
  · exact fair.balance
  · exact fair.nothing
  · simpa [Lane.pending, Handler.policy] using order
  · simpa [Lane.pending, Handler.policy] using newest
  · exact fair.gone
  · exact fun _ => handling
  · exact fair.closed
  · exact fair.ended

/-- The server takes the policy. -/
theorem Fair.applyPolicy (fair : Fair phase i first lane)
    (handler : lane.handler = .policyTaken (some p)) (life : lane.life = .running) : Fair phase i first
      { lane with server := some p, taken := lane.taken ++ [p], handler := .away } := by
  have policies := fair.policies
  have evicts := fair.evicts
  have order := fair.order
  have newest := fair.newest
  rw [handler] at policies evicts
  rw [Lane.pending, handler] at order newest
  constructor
  · simpa using policies
  · simpa using evicts
  · exact fair.adding
  · exact fair.balance
  · exact fair.nothing
  · simpa [Lane.pending, Handler.policy] using order
  · intro running
    obtain ⟨server, -, same⟩ := newest running
    refine ⟨p, rfl, ?_⟩
    dsimp only
    rw [← same]
    cases lane.policy <;> rfl
  · intro gone
    rw [life] at gone
    rcases gone with gone | gone | gone <;> cases gone
  · exact fun absurd_ => absurd rfl absurd_
  · exact fair.closed
  · exact fair.ended

/-- The handler lets go of the policy. -/
theorem Fair.dropPolicy {o : Option Policy} (fair : Fair phase i first lane)
    (handler : lane.handler = .policyTaken o) (life : o = none ∨ lane.life ≠ .running) :
    Fair phase i first { lane with handler := .away } := by
  have policies := fair.policies
  have evicts := fair.evicts
  have order := fair.order
  have newest := fair.newest
  have handling := fair.handling (by rw [handler]; nofun)
  rw [handler] at policies evicts
  rw [Lane.pending, handler] at order newest
  constructor
  · simpa using policies
  · simpa using evicts
  · exact fair.adding
  · exact fair.balance
  · exact fair.nothing
  · apply List.Sublist.trans _ order
    apply List.Sublist.append (List.Sublist.refl _)
    exact List.sublist_append_right _ _
  · intro running
    rcases life with rfl | stopped
    · exact newest running
    · dsimp only at running
      rcases running with running | exiting
      · exact absurd running stopped
      · rw [exiting] at handling
        rcases handling with absurd_ | absurd_ <;> cases absurd_
  · exact fair.gone
  · exact fun absurd_ => absurd rfl absurd_
  · exact fair.closed
  · exact fair.ended

/-- The evict message's handler begins. -/
theorem Fair.beginEvict (fair : Fair phase i first lane) (away : lane.handler = .away)
    (posted : 0 < lane.evictPosts) (life : lane.life = .running ∨ lane.life = .draining) :
    Fair phase i first { lane with evictPosts := lane.evictPosts - 1, handler := .evictBegun } := by
  have policies := fair.policies
  have evicts := fair.evicts
  have order := fair.order
  have newest := fair.newest
  rw [away] at policies evicts
  rw [Lane.pending, away] at order newest
  constructor
  · simpa using policies
  · rw [if_neg (show ¬Handler.away = .evictBegun from nofun)] at evicts
    simp only [if_true]
    omega
  · exact fair.adding
  · exact fair.balance
  · exact fair.nothing
  · exact order
  · exact newest
  · exact fair.gone
  · exact fun _ => life
  · exact fair.closed
  · intro ended
    rcases life with life | life <;> (rw [ended] at life; cases life)

/-- The evict message's handler tells the server. -/
theorem Fair.takeEvict (fair : Fair phase i first lane) (handler : lane.handler = .evictBegun) : Fair phase i first
      { lane with
        evicts := 0
        told := lane.told + if lane.life = .running then lane.evicts else 0
        dropped := lane.dropped + if lane.life = .running then 0 else lane.evicts
        handler := .away } := by
  have policies := fair.policies
  have evicts := fair.evicts
  have order := fair.order
  have newest := fair.newest
  have balance := fair.balance
  have handling := fair.handling (by rw [handler]; nofun)
  rw [handler] at policies evicts
  rw [Lane.pending, handler] at order newest
  constructor
  · simpa using policies
  · simp only [if_true] at evicts
    simp only [reduceCtorEq, if_false, if_true]
    rcases Decidable.em (lane.evicts = 0) with none_ | some_
    · rw [if_pos none_] at evicts
      omega
    · rw [if_neg some_] at evicts
      omega
  · intro asked here
    obtain ⟨-, bound⟩ := fair.adding asked here
    exact ⟨Nat.zero_le _, bound⟩
  · dsimp only
    split <;> omega
  · intro life
    dsimp only at life ⊢
    have none := fair.nothing life
    rcases handling with running | draining
    · rw [if_pos running, none]
    · rw [draining] at life
      rcases life with absurd_ | absurd_ | absurd_ <;> cases absurd_
  · exact order
  · exact newest
  · exact fair.gone
  · exact fun absurd_ => absurd rfl absurd_
  · exact fair.closed
  · exact fair.ended

/-! ## How a loop ends -/

/-- The loop exits. -/
theorem Fair.exits (fair : Fair phase i first lane) (away : lane.handler = .away)
    (life : lane.life = .running) : Fair phase i first { lane with life := .exiting } := by
  constructor
  · exact fair.policies
  · exact fair.evicts
  · exact fair.adding
  · exact fair.balance
  · exact fun _ => fair.nothing (.inl life)
  · exact fair.order
  · exact fun _ => fair.newest (.inl life)
  · rintro (absurd_ | absurd_ | absurd_) <;> cases absurd_
  · exact fun handling => absurd away handling
  · rintro (absurd_ | absurd_) <;> cases absurd_
  · exact nofun

theorem Fair.away_of (fair : Fair phase i first lane) (running : lane.life ≠ .running)
    (draining : lane.life ≠ .draining) : lane.handler = .away := by
  apply Decidable.byContradiction
  intro handling
  rcases fair.handling handling with life | life
  · exact running life
  · exact draining life

/-- The loop's server is freed. -/
theorem Fair.stops (fair : Fair phase i first lane) (life : lane.life = .exiting) :
    Fair phase i first { lane with server := none, life := .stopped } := by
  have away := fair.away_of (by rw [life]; nofun) (by rw [life]; nofun)
  constructor
  · exact fair.policies
  · exact fair.evicts
  · exact fair.adding
  · exact fair.balance
  · exact fun _ => fair.nothing (.inr (.inl life))
  · exact fair.order
  · rintro (absurd_ | absurd_) <;> cases absurd_
  · exact fun _ => rfl
  · exact fun handling => absurd away handling
  · rintro (absurd_ | absurd_) <;> cases absurd_
  · exact nofun

/-- `loop_fini` begins. -/
theorem Fair.finis (fair : Fair phase i first lane) (life : lane.life = .stopped)
    (closed : phase = .closed) : Fair phase i first { lane with life := .draining } := by
  constructor
  · exact fair.policies
  · exact fair.evicts
  · exact fair.adding
  · exact fair.balance
  · rintro (absurd_ | absurd_ | absurd_) <;> cases absurd_
  · exact fair.order
  · rintro (absurd_ | absurd_) <;> cases absurd_
  · exact fun _ => fair.gone (.inl life)
  · exact fun _ => .inr rfl
  · exact fun _ => closed
  · exact nofun

/-- `loop_fini` has handed out every message. -/
theorem Fair.ends (fair : Fair phase i first lane) (life : lane.life = .draining)
    (away : lane.handler = .away) (policies : lane.handovers = 0) (evicts : lane.evictPosts = 0) :
    Fair phase i first { lane with life := .ended } := by
  constructor
  · exact fair.policies
  · exact fair.evicts
  · exact fair.adding
  · exact fair.balance
  · rintro (absurd_ | absurd_ | absurd_) <;> cases absurd_
  · exact fair.order
  · rintro (absurd_ | absurd_) <;> cases absurd_
  · exact fun _ => fair.gone (.inr (.inl life))
  · exact fun handling => absurd away handling
  · exact fun _ => fair.closed (.inl life)
  · exact fun _ => ⟨policies, evicts⟩

end Askai.Lanes
