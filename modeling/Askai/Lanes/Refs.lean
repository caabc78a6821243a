import Askai.Lanes.Model
import Askai.Library.Sums

/-!
# The references of a policy

Each policy has the references that home, the lanes and others hold of it, and is freed once, with the
last of them.
-/

namespace Askai.Lanes

open Library

/-- Whether a place has the policy. -/
def has (o : Option Policy) (p : Policy) : Nat :=
  if o = some p then 1 else 0

@[simp] theorem has_none (p : Policy) : has none p = 0 := rfl

@[simp] theorem has_self (p : Policy) : has (some p) p = 1 := if_pos rfl

/-- The references of the policy that a lane holds: its word, its server and its handler. -/
def Lane.holds (p : Policy) (lane : Lane) : Nat :=
  has lane.policy p + has lane.server p + has lane.handler.policy p

/-- The references of the policy that are held. -/
def State.holds (n : Nat) (s : State) (p : Policy) : Nat :=
  has s.policy p + s.others p + tally n (Lane.holds p) s.lanes

/-- A policy is freed once it was made and has no references left. -/
def Freed (refs frees : Policy → Nat) (made : Policy → Bool) : Prop :=
  ∀ p, frees p = (if made p = true ∧ refs p = 0 then 1 else 0) ∧ (made p = false → refs p = 0)

/-- The references of all policies are in order. -/
structure Balanced (n : Nat) (s : State) : Prop where
  refs : ∀ p, s.refs p = s.holds n p
  freed : Freed s.refs s.frees s.made
  kept : ∀ p, s.phase.policy = some p → 1 ≤ s.others p
  inside : ∀ p i, s.phase = .posts p i → i < n

variable {n : Nat} {s : State} {p q : Policy} {o : Option Policy} {i : Nat}

/-! ## Getting and putting -/

theorem refs_get (s : State) (q p : Policy) : (s.get q).refs p = s.refs p + has (some q) p := by
  unfold State.get has
  dsimp only
  rcases eq_or_ne p q with rfl | other
  · simp
  · simp [Function.update_of_ne other, other.symm]

theorem refs_put (s : State) (o : Option Policy) (p : Policy) : (s.put o).refs p = s.refs p - has o p := by
  cases o with
  | none => rfl
  | some q =>
    unfold State.put has
    dsimp only
    rcases eq_or_ne p q with rfl | other
    · simp
    · simp [Function.update_of_ne other, other.symm]

theorem Freed.get (freed : Freed s.refs s.frees s.made) (held : 1 ≤ s.refs q) :
    Freed (s.get q).refs (s.get q).frees (s.get q).made := by
  intro p
  obtain ⟨frees, unmade⟩ := freed p
  have same : (s.get q).frees = s.frees ∧ (s.get q).made = s.made := ⟨rfl, rfl⟩
  rw [refs_get, same.1, same.2]
  rcases eq_or_ne q p with rfl | other
  · have made : s.made q = true := by
      cases made : s.made q with
      | true => rfl
      | false =>
        have none := unmade made
        omega
    rw [has_self]
    refine ⟨?_, fun absurd_ => by rw [made] at absurd_; cases absurd_⟩
    rw [frees, if_neg (by omega), if_neg (by omega)]
  · have none : has (some q) p = 0 := by simp [has, other]
    rw [none]
    exact ⟨frees, unmade⟩

theorem Freed.put (freed : Freed s.refs s.frees s.made) (held : ∀ q, o = some q → 1 ≤ s.refs q) :
    Freed (s.put o).refs (s.put o).frees (s.put o).made := by
  cases o with
  | none => exact freed
  | some q =>
    have some_ := held q rfl
    intro p
    obtain ⟨frees, unmade⟩ := freed p
    have made_ : (s.put (some q)).made = s.made := rfl
    have frees_ : (s.put (some q)).frees =
        if s.refs q = 1 then Function.update s.frees q (s.frees q + 1) else s.frees := rfl
    rw [refs_put, made_, frees_]
    rcases eq_or_ne p q with rfl | other
    · have made : s.made p = true := by
        cases made : s.made p with
        | true => rfl
        | false =>
          have none := unmade made
          omega
      rw [has_self]
      refine ⟨?_, fun absurd_ => by rw [made] at absurd_; cases absurd_⟩
      rw [if_neg (by omega)] at frees
      split
      · rename_i last
        rw [Function.update_self, frees, if_pos ⟨made, by omega⟩]
      · rw [frees, if_neg (by omega)]
    · have none : has (some q) p = 0 := by simp [has, other.symm]
      rw [none, Nat.sub_zero]
      refine ⟨?_, unmade⟩
      split
      · rw [Function.update_of_ne other, frees]
      · exact frees

/-! ## Steps -/

theorem refs_of_lane (balanced : Balanced n s) (inside : i < n)
    (here : 1 ≤ Lane.holds p (s.lanes i)) : 1 ≤ s.refs p := by
  have part := le_tally inside (Lane.holds p) s.lanes
  rw [balanced.refs, State.holds]
  omega

theorem refs_of_others (balanced : Balanced n s) (held : 1 ≤ s.others p) : 1 ≤ s.refs p := by
  rw [balanced.refs, State.holds]
  omega

/-- A lane that holds what it held. -/
theorem Balanced.setLane (balanced : Balanced n s) {lane : Lane} {phase : Phase}
    (same : ∀ p, Lane.holds p lane = Lane.holds p (s.lanes i))
    (policy : ∀ p, phase.policy = some p → s.phase.policy = some p) (inside : ∀ p i, phase = .posts p i → i < n) :
    Balanced n { s.setLane i lane with phase := phase } := by
  constructor
  · intro p
    have refs := balanced.refs p
    unfold State.holds at refs ⊢
    dsimp only [State.setLane]
    rw [tally_update_eq (same p)]
    exact refs
  · exact balanced.freed
  · exact fun p here => balanced.kept p (policy p here)
  · exact inside

/-- A lane that lets go of a policy. -/
theorem Balanced.putLane (balanced : Balanced n s) (inside : i < n) {lane : Lane}
    (lets : ∀ p, Lane.holds p lane + has o p = Lane.holds p (s.lanes i)) : Balanced n ((s.put o).setLane i lane) := by
  have others : ∀ o, (s.put o).lanes = s.lanes ∧ (s.put o).policy = s.policy ∧
      (s.put o).others = s.others ∧ (s.put o).phase = s.phase := by
    intro o
    cases o <;> exact ⟨rfl, rfl, rfl, rfl⟩
  obtain ⟨lanes, policy, rest, phase⟩ := others o
  constructor
  · intro p
    have refs := balanced.refs p
    have tallied := tally_update inside (Lane.holds p) s.lanes lane
    have change := lets p
    have after : ((s.put o).setLane i lane).holds n p =
        has s.policy p + s.others p + tally n (Lane.holds p) (Function.update s.lanes i lane) := by
      unfold State.holds State.setLane
      dsimp only
      rw [lanes, policy, rest]
    have before : ((s.put o).setLane i lane).refs p = s.refs p - has o p := refs_put s o p
    rw [after, before]
    unfold State.holds at refs
    omega
  · apply balanced.freed.put
    rintro q rfl
    have change := lets q
    rw [has_self] at change
    exact refs_of_lane balanced inside (by omega)
  · intro p here
    change (s.put o).phase.policy = some p at here
    change 1 ≤ (s.put o).others p
    rw [phase] at here
    rw [rest]
    exact balanced.kept p here
  · intro p j here
    change (s.put o).phase = .posts p j at here
    rw [phase] at here
    exact balanced.inside p j here

/-- Home stores a policy for a lane. -/
theorem Balanced.store (balanced : Balanced n s) (storing : s.phase.policy = some q)
    (inside : i < n) (phase : Phase) (policy : phase.policy = some q) (posts : ∀ p i, phase = .posts p i → i < n) :
    Balanced n { ((s.get q).put (s.lanes i).policy).setLane i ((s.lanes i).store q) with
      phase := phase } := by
  have enough := refs_of_others balanced (balanced.kept q storing)
  have same : ∀ o, ((s.get q).put o).lanes = s.lanes ∧ ((s.get q).put o).policy = s.policy ∧
      ((s.get q).put o).others = s.others := by
    intro o
    cases o <;> exact ⟨rfl, rfl, rfl⟩
  obtain ⟨lanes, home, rest⟩ := same (s.lanes i).policy
  have word : ∀ p, has (s.lanes i).policy p ≤ s.refs p := by
    intro p
    have part := le_tally inside (Lane.holds p) s.lanes
    have refs := balanced.refs p
    have here : Lane.holds p (s.lanes i) = has (s.lanes i).policy p + has (s.lanes i).server p +
        has (s.lanes i).handler.policy p := rfl
    unfold State.holds at refs
    omega
  constructor
  · intro p
    have refs := balanced.refs p
    have tallied := tally_update inside (Lane.holds p) s.lanes ((s.lanes i).store q)
    have got := refs_get s q p
    have put := refs_put (s.get q) (s.lanes i).policy p
    have here := word p
    have before : Lane.holds p (s.lanes i) = has (s.lanes i).policy p + has (s.lanes i).server p +
        has (s.lanes i).handler.policy p := rfl
    have after : Lane.holds p ((s.lanes i).store q) =
        has (some q) p + has (s.lanes i).server p + has (s.lanes i).handler.policy p := rfl
    unfold State.holds at refs ⊢
    dsimp only [State.setLane]
    rw [lanes, home, rest, put, got]
    omega
  · apply Freed.put (balanced.freed.get enough)
    intro p here
    have some_ := word p
    rw [here, has_self] at some_
    rw [refs_get]
    omega
  · intro p here
    change 1 ≤ ((s.get q).put (s.lanes i).policy).others p
    rw [rest]
    have same : phase.policy = some p := here
    rw [policy] at same
    obtain rfl := Option.some.inj same
    exact balanced.kept q storing
  · exact posts

theorem Balanced.step {t : State} (balanced : Balanced n s) (step : Step n s () t) : Balanced n t := by
  have refs := balanced.refs
  have freed := balanced.freed
  have kept := balanced.kept
  unfold State.holds at refs
  cases step with
  | make q fresh =>
    have unmade := (freed q).2 fresh
    have here := refs q
    constructor
    · intro p
      have before := refs p
      unfold State.holds
      dsimp only
      rcases eq_or_ne p q with rfl | other
      · rw [Function.update_self, Function.update_self]
        omega
      · rw [Function.update_of_ne other, Function.update_of_ne other]
        exact before
    · intro p
      obtain ⟨frees, none⟩ := freed p
      dsimp only
      rcases eq_or_ne p q with rfl | other
      · simp [frees, fresh]
      · simp only [Function.update_of_ne other]
        exact ⟨frees, none⟩
    · intro p here
      dsimp only
      rcases eq_or_ne p q with rfl | other
      · rw [Function.update_self]
      · rw [Function.update_of_ne other]
        exact kept p here
    · exact balanced.inside
  | keep q held =>
    constructor
    · intro p
      have before := refs p
      have got := refs_get s q p
      unfold State.holds
      dsimp only
      rw [got]
      change _ = has s.policy p + Function.update s.others q (s.others q + 1) p + tally n (Lane.holds p) s.lanes
      rcases eq_or_ne p q with rfl | other
      · rw [Function.update_self, has_self]
        omega
      · have none : has (some q) p = 0 := by simp [has, other.symm]
        rw [Function.update_of_ne other]
        omega
    · exact freed.get (refs_of_others balanced held)
    · intro p here
      have before := kept p here
      dsimp only
      rcases eq_or_ne p q with rfl | other
      · rw [Function.update_self]
        omega
      · rw [Function.update_of_ne other]
        exact before
    · exact balanced.inside
  | drop q held =>
    have one : 1 ≤ s.others q := by
      split at held <;> omega
    constructor
    · intro p
      have before := refs p
      have put := refs_put s (some q) p
      unfold State.holds
      dsimp only
      rw [put]
      change _ = has s.policy p + Function.update s.others q (s.others q - 1) p + tally n (Lane.holds p) s.lanes
      rcases eq_or_ne p q with rfl | other
      · rw [Function.update_self, has_self]
        omega
      · have none : has (some q) p = 0 := by simp [has, other.symm]
        rw [Function.update_of_ne other]
        omega
    · apply freed.put
      rintro p here
      obtain rfl := Option.some.inj here
      exact refs_of_others balanced one
    · intro p here
      have storing : s.phase.policy = some p := here
      have before := kept p storing
      dsimp only
      rcases eq_or_ne p q with rfl | other
      · rw [if_pos storing] at held
        rw [Function.update_self]
        omega
      · rw [Function.update_of_ne other]
        exact before
    · exact balanced.inside
  | opens | drains => exact ⟨balanced.refs, freed, kept, balanced.inside⟩
  | reload q away isOpen held =>
    have rest : ∀ o, (s.put o).lanes = s.lanes ∧ (s.put o).others = s.others := by
      intro o
      cases o <;> exact ⟨rfl, rfl⟩
    obtain ⟨lanes, others⟩ := rest s.policy
    constructor
    · intro p
      have before := refs p
      have put := refs_put s s.policy p
      have got := refs_get (s.put s.policy) q p
      change ((s.put s.policy).get q).refs p = has (some q) p + (s.put s.policy).others p +
        tally n (Lane.holds p) (s.put s.policy).lanes
      rw [got, put, lanes, others]
      omega
    · apply Freed.get
      · exact freed.put fun p here => by
          have before := refs p
          rw [here, has_self] at before
          omega
      · have before := refs q
        rw [refs_put]
        omega
    · intro p here
      obtain rfl := Option.some.inj here
      change 1 ≤ (s.put s.policy).others q
      rw [others]
      exact held
    · exact nofun
  | @stores q i phase inside none_ =>
    have stored := balanced.store (by rw [phase]; rfl) inside (.posts q i) rfl
      (fun p j here => by cases here; exact inside)
    rw [none_] at stored
    exact stored
  | @replaces q old i phase inside some_ =>
    have stored := balanced.store (by rw [phase]; rfl) inside (.stores q (i + 1)) rfl nofun
    rw [some_] at stored
    exact stored
  | posts phase =>
    apply balanced.setLane
    · exact fun p => rfl
    · exact fun p here => by rw [phase]; exact here
    · exact nofun
  | reloaded | finds => exact ⟨balanced.refs, freed, nofun, nofun⟩
  | adds phase =>
    apply balanced.setLane
    · exact fun p => rfl
    · intro p here
      split at here <;> cases here
    · intro p j here
      split at here <;> cases here
  | postsEvict phase => exact balanced.setLane (fun p => rfl) nofun nofun
  | close away exited =>
    have rest : ∀ o, (s.put o).lanes = s.lanes ∧ (s.put o).others = s.others := by
      intro o
      cases o <;> exact ⟨rfl, rfl⟩
    obtain ⟨lanes, others⟩ := rest s.policy
    constructor
    · intro p
      have before := refs p
      have put := refs_put s s.policy p
      change (s.put s.policy).refs p = has none p + (s.put s.policy).others p +
        tally n (Lane.holds p) (s.put s.policy).lanes
      rw [put, lanes, others, has_none]
      omega
    · exact freed.put fun p here => by
        have before := refs p
        rw [here, has_self] at before
        omega
    · exact nofun
    · exact nofun
  | beginPolicy inside away posted life =>
    apply balanced.putLane (o := none) inside
    intro p
    simp only [Lane.holds, Handler.policy, away, has_none]
  | takePolicy inside handler =>
    apply balanced.putLane (o := none) inside
    intro p
    simp only [Lane.holds, Handler.policy, handler, has_none]
    omega
  | applyPolicy inside handler life =>
    apply balanced.putLane inside
    intro p
    simp only [Lane.holds, Handler.policy, handler, has_none]
    omega
  | dropPolicy inside handler life =>
    apply balanced.putLane inside
    intro p
    simp only [Lane.holds, Handler.policy, handler, has_none]
    omega
  | beginEvict inside away posted life =>
    apply balanced.putLane (o := none) inside
    intro p
    simp only [Lane.holds, Handler.policy, away, has_none]
  | takeEvict inside handler =>
    apply balanced.putLane (o := none) inside
    intro p
    simp only [Lane.holds, Handler.policy, handler, has_none]
  | exits inside away life =>
    apply balanced.putLane (o := none) inside
    exact fun p => rfl
  | stops inside life =>
    apply balanced.putLane inside
    intro p
    simp only [Lane.holds, has_none]
    omega
  | finis inside life closed =>
    apply balanced.putLane (o := none) inside
    exact fun p => rfl
  | ends inside life away policies evicts =>
    apply balanced.putLane (o := none) inside
    exact fun p => rfl

end Askai.Lanes
