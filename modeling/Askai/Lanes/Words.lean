import Askai.Lanes.Refs
import Askai.Lanes.Told

/-!
# Home's words reach the loops

In every run of home and its client loops no reload is lost, each message is posted once at a time, the
policies that a loop takes follow the reloads, and every policy is freed once.
-/

namespace Askai.Lanes

open Library

variable {n : Nat} {first p : Policy} {i j : Nat} {s t : State}

/-- Home and its lanes are in order. -/
structure Kept (n : Nat) (first : Policy) (s : State) : Prop where
  lanes : ∀ i < n, Fair s.phase i first (s.lanes i)
  newest : s.policy = if s.phase = .closed then none else some (s.reloads.getLastD first)
  storing : ∀ p, s.phase.policy = some p → s.reloads.getLast? = some p
  stored : ∀ i < n,
    (s.lanes i).stored = if s.phase.reached i then s.reloads else s.reloads.dropLast

/-- A step of a loop. -/
theorem Kept.loop (kept : Kept n first s) (inside : i < n) {lane : Lane}
    (fair : Fair s.phase i first lane) (stored : lane.stored = (s.lanes i).stored)
    (o : Option Policy) : Kept n first ((s.put o).setLane i lane) := by
  have same : (s.put o).phase = s.phase ∧ (s.put o).policy = s.policy ∧
      (s.put o).reloads = s.reloads ∧ (s.put o).lanes = s.lanes := by
    cases o <;> exact ⟨rfl, rfl, rfl, rfl⟩
  obtain ⟨phase, policy, reloads, lanes⟩ := same
  unfold State.setLane
  constructor
  · intro j less
    dsimp only
    rw [phase, lanes]
    rcases eq_or_ne j i with rfl | other
    · rw [Function.update_self]
      exact fair
    · rw [Function.update_of_ne other]
      exact kept.lanes j less
  · dsimp only
    rw [phase, policy, reloads]
    exact kept.newest
  · dsimp only
    rw [phase, reloads]
    exact kept.storing
  · intro j less
    dsimp only
    rw [phase, reloads, lanes]
    rcases eq_or_ne j i with rfl | other
    · rw [Function.update_self, stored]
      exact kept.stored j less
    · rw [Function.update_of_ne other]
      exact kept.stored j less

/-- The steps of others, and of home where it does nothing for a lane. -/
theorem Kept.home (kept : Kept n first s) (lanes : t.lanes = s.lanes)
    (open_ : s.phase ≠ .closed) (policy : t.policy = if t.phase = .closed then none else s.policy)
    (reloads : t.reloads = s.reloads)
    (handover : t.phase.handover = s.phase.handover) (evict : t.phase.evict = s.phase.evict)
    (storing : ∀ p, t.phase.policy = some p → s.phase.policy = some p)
    (reached : ∀ i < n, t.phase.reached i = s.phase.reached i) (adding : ∀ i < n, ∀ asked, t.phase = .adds i asked →
      (s.lanes i).evicts ≤ asked ∧ asked + 1 < 2 ^ 32) : Kept n first t := by
  constructor
  · intro j less
    rw [lanes]
    exact (kept.lanes j less).phase_of (by rw [handover]) (by rw [evict]) (adding j less) open_
  · have newest := kept.newest
    rw [if_neg open_] at newest
    rw [policy, reloads, newest]
  · intro p here
    rw [reloads]
    exact kept.storing p (storing p here)
  · intro j less
    rw [lanes, reloads, reached j less]
    exact kept.stored j less

/-- The steps of home for a lane. -/
theorem Kept.forLane (kept : Kept n first s) {lane : Lane} (open_ : s.phase ≠ .closed) (open' : t.phase ≠ .closed)
    (lanes : t.lanes = Function.update s.lanes i lane) (policy : t.policy = s.policy)
    (reloads : t.reloads = s.reloads) (fair : i < n → Fair t.phase i first lane)
    (handover : ∀ j ≠ i, t.phase.handover = some j ↔ s.phase.handover = some j)
    (evict : ∀ j ≠ i, t.phase.evict = some j ↔ s.phase.evict = some j) (adding : ∀ j asked, t.phase ≠ .adds j asked)
    (storing : ∀ p, t.phase.policy = some p → s.phase.policy = some p)
    (reached : ∀ j ≠ i, t.phase.reached j = s.phase.reached j)
    (stored : i < n → lane.stored = if t.phase.reached i then s.reloads else s.reloads.dropLast) : Kept n first t := by
  constructor
  · intro j less
    rw [lanes]
    rcases eq_or_ne j i with rfl | other
    · rw [Function.update_self]
      exact fair less
    · rw [Function.update_of_ne other]
      exact (kept.lanes j less).phase_of (handover j other) (evict j other)
        (fun asked here => absurd here (adding j asked)) open_
  · have newest := kept.newest
    rw [if_neg open_] at newest
    rw [policy, reloads, newest, if_neg open']
  · intro p here
    rw [reloads]
    exact kept.storing p (storing p here)
  · intro j less
    rw [lanes, reloads]
    rcases eq_or_ne j i with rfl | other
    · rw [Function.update_self]
      exact stored less
    · rw [Function.update_of_ne other, reached j other]
      exact kept.stored j less

/-- What home stores for a lane is the policy of the last reload. -/
theorem Kept.store_reached (kept : Kept n first s) (phase : s.phase = .stores p i) (inside : i < n) :
    ((s.lanes i).store p).stored = s.reloads := by
  have stored := kept.stored i inside
  have last := kept.storing p (by rw [phase]; rfl)
  have early : s.phase.reached i = false := by
    rw [phase]
    simp [Phase.reached]
  rw [early] at stored
  change (s.lanes i).stored ++ [p] = s.reloads
  rw [stored]
  exact List.dropLast_append_getLast? p last

theorem Kept.step (kept : Kept n first s) (step : Step n s () t) : Kept n first t := by
  have put : ∀ o, (s.put o).phase = s.phase ∧ (s.put o).policy = s.policy ∧
      (s.put o).reloads = s.reloads ∧ (s.put o).lanes = s.lanes := by
    intro o
    cases o <;> exact ⟨rfl, rfl, rfl, rfl⟩
  cases step with
  | make | keep | drop | opens | drains => exact ⟨kept.lanes, kept.newest, kept.storing, kept.stored⟩
  | reload q away isOpen held =>
    obtain ⟨-, -, -, lanes⟩ := put s.policy
    have open_ : s.phase ≠ .closed := by
      rw [away]
      nofun
    constructor
    · intro j less
      change Fair (.stores q 0) j first ((s.put s.policy).lanes j)
      rw [lanes]
      have fair := kept.lanes j less
      rw [away] at fair
      exact fair.phase_of Iff.rfl Iff.rfl nofun nofun
    · change some q = some ((s.reloads ++ [q]).getLastD first)
      simp
    · intro p here
      obtain rfl := Option.some.inj here
      change (s.reloads ++ [q]).getLast? = some q
      simp
    · intro j less
      have stored := kept.stored j less
      rw [away] at stored
      change ((s.put s.policy).lanes j).stored =
        if (Phase.stores q 0).reached j then s.reloads ++ [q] else (s.reloads ++ [q]).dropLast
      rw [lanes, stored]
      simp [Phase.reached]
  | @stores q i phase inside none_ =>
    have reached := kept.store_reached phase inside
    have fair := kept.lanes i inside
    rw [phase] at fair
    refine kept.forLane (i := i) (by rw [phase]; nofun) nofun rfl rfl rfl ?_ ?_ ?_ ?_ ?_ ?_ ?_
    · intro _
      refine fair.store nofun ⟨rfl, rfl⟩ ?_ rfl nofun
      rw [if_pos none_]
      rfl
    · intro j other
      rw [phase]
      simp [Phase.handover, other.symm]
    · intro j other
      rw [phase]
      rfl
    · exact nofun
    · intro p here
      rw [phase]
      exact here
    · intro j other
      rw [phase]
      simp only [Phase.reached, decide_eq_decide]
      omega
    · intro _
      rw [reached]
      simp [Phase.reached]
  | @replaces q old i phase inside some_ =>
    have reached := kept.store_reached phase inside
    have fair := kept.lanes i inside
    rw [phase] at fair
    refine kept.forLane (i := i) (by rw [phase]; nofun) nofun rfl rfl rfl ?_ ?_ ?_ ?_ ?_ ?_ ?_
    · intro _
      refine fair.store nofun ⟨rfl, rfl⟩ ?_ rfl nofun
      rw [some_]
      nofun
    · intro j other
      rw [phase]
      rfl
    · intro j other
      rw [phase]
      rfl
    · exact nofun
    · intro p here
      rw [phase]
      exact here
    · intro j other
      rw [phase]
      simp only [Phase.reached, decide_eq_decide]
      omega
    · intro _
      rw [reached]
      simp [Phase.reached]
  | @posts q i phase =>
    refine kept.forLane (i := i) (by rw [phase]; nofun) nofun rfl rfl rfl ?_ ?_ ?_ ?_ ?_ ?_ ?_
    · intro inside
      have fair := kept.lanes i inside
      rw [phase] at fair
      exact fair.posts nofun rfl rfl rfl rfl nofun
    · intro j other
      rw [phase]
      simp [Phase.handover, other.symm]
    · intro j other
      rw [phase]
      rfl
    · exact nofun
    · intro p here
      rw [phase]
      exact here
    · intro j other
      rw [phase]
      simp only [Phase.reached, decide_eq_decide]
      omega
    · intro inside
      have stored := kept.stored i inside
      rw [phase] at stored
      change (s.lanes i).stored = _
      rw [stored]
      simp [Phase.reached]
  | @reloaded q phase =>
    refine kept.home rfl (by rw [phase]; nofun) rfl rfl ?_ ?_ ?_ ?_ ?_
    · rw [phase]
      rfl
    · rw [phase]
      rfl
    · exact nofun
    · intro j less
      rw [phase]
      simp [Phase.reached, less]
    · exact nofun
  | finds i idles away inside spare fits =>
    refine kept.home rfl (by rw [away]; nofun) rfl rfl ?_ ?_ ?_ ?_ ?_
    · rw [away]
      rfl
    · rw [away]
      rfl
    · exact nofun
    · intro j less
      rw [away]
      rfl
    · rintro j less asked here
      cases here
      exact ⟨Nat.le_refl _, by omega⟩
  | @adds i asked phase =>
    have same : ∀ k, (if (s.lanes i).evicts = 0 then Phase.postsEvict i else .away).handover = none ∧
        (if (s.lanes i).evicts = 0 then Phase.postsEvict i else .away).policy = none ∧
        (if (s.lanes i).evicts = 0 then Phase.postsEvict i else .away).reached k = true := by
      intro k
      split <;> exact ⟨rfl, rfl, rfl⟩
    refine kept.forLane (i := i) (by rw [phase]; nofun)
      (by change (if _ then _ else _ : Phase) ≠ _; split <;> nofun) rfl rfl rfl ?_ ?_ ?_ ?_ ?_ ?_ ?_
    · intro inside
      have fair := kept.lanes i inside
      rw [phase] at fair
      exact fair.adds
    · intro j other
      rw [phase]
      change (if _ then _ else _ : Phase).handover = some j ↔ _
      rw [(same j).1]
      rfl
    · intro j other
      rw [phase]
      change (if _ then _ else _ : Phase).evict = some j ↔ _
      split
      · simp [Phase.evict, other.symm]
      · rfl
    · intro j asked here
      change (if _ then _ else _ : Phase) = _ at here
      split at here <;> cases here
    · intro p here
      change (if _ then _ else _ : Phase).policy = _ at here
      rw [(same i).2.1] at here
      cases here
    · intro j other
      rw [phase]
      exact (same j).2.2
    · intro inside
      have stored := kept.stored i inside
      rw [phase] at stored
      change (s.lanes i).stored = if (if _ then _ else _ : Phase).reached i then _ else _
      rw [(same i).2.2, stored]
      rfl
  | @postsEvict i phase =>
    refine kept.forLane (i := i) (by rw [phase]; nofun) nofun rfl rfl rfl ?_ ?_ ?_ ?_ ?_ ?_ ?_
    · intro inside
      have fair := kept.lanes i inside
      rw [phase] at fair
      exact fair.postsEvict
    · intro j other
      rw [phase]
      rfl
    · intro j other
      rw [phase]
      simp [Phase.evict, other.symm]
    · exact nofun
    · exact nofun
    · intro j other
      rw [phase]
      rfl
    · intro inside
      have stored := kept.stored i inside
      rw [phase] at stored
      change (s.lanes i).stored = _
      rw [stored]
      rfl
  | close away exited =>
    obtain ⟨-, -, reloads, lanes⟩ := put s.policy
    refine kept.home lanes (by rw [away]; nofun) rfl reloads ?_ ?_ ?_ ?_ ?_
    · rw [away]
      rfl
    · rw [away]
      rfl
    · exact nofun
    · intro j less
      rw [away]
      rfl
    · exact nofun
  | beginPolicy inside away posted life =>
    exact kept.loop inside ((kept.lanes _ inside).beginPolicy away posted life) rfl none
  | takePolicy inside handler =>
    exact kept.loop inside ((kept.lanes _ inside).takePolicy handler) rfl none
  | applyPolicy inside handler life =>
    exact kept.loop inside ((kept.lanes _ inside).applyPolicy handler life) rfl _
  | dropPolicy inside handler life =>
    exact kept.loop inside ((kept.lanes _ inside).dropPolicy handler life) rfl _
  | beginEvict inside away posted life =>
    exact kept.loop inside ((kept.lanes _ inside).beginEvict away posted life) rfl none
  | takeEvict inside handler =>
    exact kept.loop inside ((kept.lanes _ inside).takeEvict handler) rfl none
  | exits inside away life =>
    exact kept.loop inside ((kept.lanes _ inside).exits away life) rfl none
  | stops inside life => exact kept.loop inside ((kept.lanes _ inside).stops life) rfl _
  | finis inside life closed =>
    exact kept.loop inside ((kept.lanes _ inside).finis life closed) rfl none
  | ends inside life away policies evicts =>
    exact kept.loop inside ((kept.lanes _ inside).ends life away policies evicts) rfl none

/-! ## Runs -/

/-- A run of home and its `n` client loops. -/
abbrev Run (n : Nat) (first : Policy) (events : List Unit) (s : State) : Prop :=
  Trace (Step n) (start n first) events s

theorem start_kept : Kept n first (start n first) := by
  constructor
  · intro i _
    constructor
    · rfl
    · rfl
    · exact nofun
    · rfl
    · exact fun _ => rfl
    · exact List.Sublist.refl _
    · exact fun _ => ⟨first, rfl, rfl⟩
    · rintro (absurd_ | absurd_ | absurd_) <;> cases absurd_
    · exact fun absurd_ => absurd rfl absurd_
    · rintro (absurd_ | absurd_) <;> cases absurd_
    · exact nofun
  · rfl
  · exact nofun
  · exact fun _ _ => rfl

theorem start_balanced : Balanced n (start n first) := by
  constructor
  · intro p
    unfold State.holds start
    dsimp only
    rw [tally_const]
    rcases eq_or_ne p first with rfl | other
    · simp [Lane.holds, Handler.policy]
      omega
    · simp [Lane.holds, Handler.policy, has, other, other.symm]
  · intro p
    unfold start
    dsimp only
    rcases eq_or_ne p first with rfl | other <;> simp_all
  · rintro _ ⟨⟩
  · intros; contradiction

theorem run_kept {events : List Unit} (run : Run n first events s) : Kept n first s ∧ Balanced n s :=
  ⟨run.invariant start_kept fun _ _ _ kept step => kept.step step,
    run.invariant start_balanced fun _ _ _ balanced step => balanced.step step⟩

/-- A message of the lane is on its way: posted, about to be posted, or in its handler. -/
def OnItsWay (s : State) (i : Nat) : Prop :=
  s.phase.handover = some i ∨ s.phase.evict = some i ∨ 0 < (s.lanes i).handovers ∨
    0 < (s.lanes i).evictPosts ∨ (s.lanes i).handler ≠ .away

/-- In every run, each message of a lane is posted at most once before its handler begins. While none
is on its way, the lane's server has the policy of the last reload, and no eviction is asked that it is
not told. The policies that it takes follow the reloads. The references of each policy are those that
home, the lanes and others hold, and it is freed once, with the last of them. -/
theorem words_kept {events : List Unit} (run : Run n first events s) :
    (∀ i < n, (s.lanes i).handovers ≤ 1 ∧ (s.lanes i).evictPosts ≤ 1) ∧
    (∀ i < n, ¬OnItsWay s i → (s.lanes i).evicts = 0 ∧ ((s.lanes i).life = .running ∨ (s.lanes i).life = .exiting →
        (s.lanes i).server = some ((s.lanes i).stored.getLastD first) ∧
        (s.phase.policy = none → (s.lanes i).stored = s.reloads ∧
          (s.phase ≠ .closed → (s.lanes i).server = s.policy)))) ∧ (∀ i < n, (s.lanes i).taken.Sublist s.reloads) ∧
    (∀ i < n, (s.lanes i).told + (s.lanes i).dropped + (s.lanes i).evicts = (s.lanes i).asked ∧
      ((s.lanes i).life = .running ∨ (s.lanes i).life = .exiting → (s.lanes i).dropped = 0)) ∧
    (∀ p, s.refs p = s.holds n p ∧ s.frees p = if s.made p = true ∧ s.refs p = 0 then 1 else 0) ∧
    ((∀ i < n, (s.lanes i).life = .ended) → s.phase = .closed → ∀ p, s.refs p = s.others p) := by
  obtain ⟨kept, balanced⟩ := run_kept run
  refine ⟨?_, ?_, ?_, ?_, ?_, ?_⟩
  · intro i inside
    have fair := kept.lanes i inside
    have policies := fair.policies
    have evicts := fair.evicts
    have most : ∀ c : Prop, ∀ _ : Decidable c, (if c then 0 else 1) ≤ 1 := by
      intro c _
      split <;> omega
    have bound := most ((s.lanes i).policy = none) inferInstance
    have bound_ := most ((s.lanes i).evicts = 0) inferInstance
    omega
  · intro i inside idle
    have fair := kept.lanes i inside
    unfold OnItsWay at idle
    simp only [not_or, Nat.not_lt, Nat.le_zero, not_not] at idle
    obtain ⟨handover, evict, handovers, evictPosts, away⟩ := idle
    have policies := fair.policies
    have evicts := fair.evicts
    rw [if_neg handover, handovers, away, if_neg (by simp)] at policies
    rw [if_neg evict, evictPosts, away, if_neg (by simp)] at evicts
    have none_ : (s.lanes i).policy = none := by
      apply Decidable.byContradiction
      intro some_
      rw [if_neg some_] at policies
      omega
    constructor
    · apply Decidable.byContradiction
      intro some_
      rw [if_neg some_] at evicts
      omega
    · intro life
      obtain ⟨server, has_, same⟩ := fair.newest life
      rw [Lane.pending, away, none_] at same
      have newest : (s.lanes i).server = some ((s.lanes i).stored.getLastD first) := by
        rw [has_, ← same]
        rfl
      refine ⟨newest, fun done => ?_⟩
      have stored := kept.stored i inside
      have reached : s.phase.reached i = true := by
        cases phase : s.phase <;> rw [phase] at done <;> first | rfl | cases done
      rw [reached, if_pos rfl] at stored
      refine ⟨stored, fun open_ => ?_⟩
      rw [newest, stored, kept.newest, if_neg open_]
  · intro i inside
    have stored := kept.stored i inside
    have order := (kept.lanes i inside).order
    have taken : (s.lanes i).taken.Sublist (s.lanes i).stored :=
      (List.sublist_append_left _ _).trans order
    apply taken.trans
    rw [stored]
    split
    · exact List.Sublist.refl _
    · exact List.dropLast_sublist _
  · intro i inside
    have fair := kept.lanes i inside
    exact ⟨fair.balance, fun life => fair.nothing (life.imp_right .inl)⟩
  · exact fun p => ⟨balanced.refs p, (balanced.freed p).1⟩
  · intro ended closed p
    have none_ : tally n (Lane.holds p) s.lanes = 0 := by
      apply tally_eq_zero
      intro i inside
      have fair := kept.lanes i inside
      have life := ended i inside
      obtain ⟨handovers, -⟩ := fair.ended life
      have away := fair.away_of (by rw [life]; simp) (by rw [life]; simp)
      have policies := fair.policies
      have gone := fair.gone (.inr (.inr life))
      rw [closed, handovers, away, if_neg (by rintro ⟨⟩), if_neg (by rintro ⟨⟩)] at policies
      have word : (s.lanes i).policy = none := by
        apply Decidable.byContradiction
        intro some_
        rw [if_neg some_] at policies
        omega
      rw [Lane.holds, word, gone, away]
      rfl
    have refs := balanced.refs p
    have shut := kept.newest
    rw [if_pos closed] at shut
    rw [refs, State.holds, none_, shut, has_none]
    omega

/-- A reload as home posts the handover of its only lane. -/
theorem words_kept_reload : ∃ events s, Run 1 7 events s ∧ (s.lanes 0).policy = some 8 ∧
    (s.lanes 0).handovers = 1 ∧ (s.lanes 0).evictPosts ≤ 1 := by
  have made : Run 1 7 _ _ := .snoc .nil (.make 8 rfl)
  have opened : Run 1 7 _ _ := .snoc made (.opens rfl)
  have begun : Run 1 7 _ _ := .snoc opened (.reload 8 rfl rfl (by decide))
  have stored : Run 1 7 _ _ := .snoc begun (.stores rfl (by decide) rfl)
  have posted : Run 1 7 _ _ := .snoc stored (.posts rfl)
  exact ⟨_, _, posted, rfl, rfl, ((words_kept posted).1 0 (by decide)).2⟩

end Askai.Lanes
