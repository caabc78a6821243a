import Askai.Relief.Blocks

/-!
# A relief, once

What holds of the reliefs in any order of the steps: the shares and what counts them, the one trim,
the blocks, and the levels that set it all off.
-/

namespace Askai.Relief

open Library

variable {n i j full l : Nat} {s t : State} {e : Event} {es : List Event}

/-! ## Levels -/

theorem Input.down_le_up (input : Input) (l : Nat) : input.down l ≤ input.up l := by
  cases input <;> simp only [Input.down, Input.up] <;> split <;> decide

/-- The level rises over the marks that the fullness has reached. -/
theorem rise_spec (input : Input) (full l : Nat) :
    l ≤ rise input full l ∧ ∀ k, l ≤ k → k < rise input full l → input.up k ≤ full := by
  fun_induction rise input full l with
  | case1 l reached ih =>
    refine ⟨Nat.le_of_succ_le ih.1, ?_⟩
    intro k above below
    rcases Nat.eq_or_lt_of_le above with rfl | more
    · exact reached.2
    · exact ih.2 k more below
  | case2 l stays =>
    refine ⟨Nat.le_refl l, ?_⟩
    intro k above below
    omega

/-- It falls over the marks that the fullness is below. -/
theorem fall_spec (input : Input) (full l : Nat) :
    fall input full l ≤ l ∧ ∀ k, fall input full l ≤ k → k < l → full < input.down k := by
  induction l with
  | zero => exact ⟨Nat.le_refl 0, fun k _ below => absurd below (Nat.not_lt_zero k)⟩
  | succ l ih =>
    rw [fall]
    split
    · next under =>
        refine ⟨Nat.le_succ_of_le ih.1, ?_⟩
        intro k above below
        rcases Nat.eq_or_lt_of_le (Nat.le_of_lt_succ below) with rfl | less
        · exact under
        · exact ih.2 k above less
    · refine ⟨Nat.le_refl _, ?_⟩
      intro k above below
      omega

/-- A level that rose does not fall at once. -/
theorem brainstemInput_of_lt {input : Input} (more : l < rise input full l) :
    brainstemInput input full l = rise input full l := by
  obtain ⟨-, reached⟩ := rise_spec input full l
  obtain ⟨k, same⟩ : ∃ k, rise input full l = k + 1 := Nat.exists_eq_succ_of_ne_zero (by omega)
  have up := reached k (by omega) (by omega)
  have down := input.down_le_up k
  rw [brainstemInput, same, fall, if_neg (by omega)]

/-- A level rises across the up marks that the fullness has reached, and falls across the down marks
that it is below. -/
theorem brainstemInput_spec (input : Input) (full l : Nat) :
    (∀ k, l ≤ k → k < brainstemInput input full l → input.up k ≤ full) ∧
      ∀ k, brainstemInput input full l ≤ k → k < l → full < input.down k := by
  obtain ⟨least, reached⟩ := rise_spec input full l
  rcases Nat.eq_or_lt_of_le least with same | more
  · have stays : brainstemInput input full l = fall input full l := by
      rw [brainstemInput, ← same]
    obtain ⟨most, under⟩ := fall_spec input full l
    rw [stays]
    exact ⟨fun k above below => by omega, under⟩
  · rw [brainstemInput_of_lt more]
    exact ⟨reached, fun k above below => by omega⟩

/-! ## The shares that count -/

/-- The loops whose share of the relief has not ended. -/
def State.unended (n : Nat) (s : State) : Finset Nat :=
  (Finset.range n).filter fun i => (s.threads i).ends < s.reliefs

/-- Those that the brainstem has yet to order are what it counts. -/
theorem Brain.sum_owes (brain : Brain) (n : Nat) : ∑ i ∈ Finset.range n, brain.owes i = brain.pending n := by
  induction n with
  | zero => cases brain <;> simp [Brain.pending]
  | succ n ih =>
    rw [Finset.sum_range_succ, ih]
    cases brain with
    | orders j =>
      change n - j + (if j ≤ n then 1 else 0) = n + 1 - j
      split <;> omega
    | posts j =>
      change n - (j + 1) + (if j < n then 1 else 0) = n + 1 - (j + 1)
      split <;> omega
    | _ => rfl

/-- What the reliefs' counts say of the shares that have not ended. -/
theorem Counted.card_unended (counted : Counted n s) :
    (s.unended n).card = s.brain.pending n + tally n Thread.owes s.threads := by
  rw [State.unended, Finset.card_filter, ← Brain.sum_owes, tally, ← Finset.sum_add_distrib]
  apply Finset.sum_congr rfl
  intro i mem
  have inside := Finset.mem_range.mp mem
  have ends := (counted.threads i inside).ends
  have bound := counted.owes_le inside
  split <;> omega

/-- `relieving` counts the shares that have not ended, and one for the trim. -/
theorem Counted.relieving_eq (counted : Counted n s) :
    s.relieving = if s.trimmed < s.reliefs then 1 + (s.unended n).card else 0 := by
  have relieving := counted.relieving
  rw [counted.card_unended]
  rcases counted.reliefs with same | more
  · rw [if_pos same] at relieving
    rw [if_neg (by omega)]
    exact relieving
  · rw [if_neg (by omega)] at relieving
    rw [if_pos (by omega)]
    exact relieving

/-! ## The loop that trims -/

/-- Loop `i` runs the trim: from the end of the last share to the end of `brainstem_trimmed`. -/
def State.Trims (n : Nat) (s : State) (i : Nat) : Prop :=
  i < n ∧ ((s.threads i).token ≠ 0 ∨ s.walk.loop = some i)

theorem Walk.token_of_loop {walk : Walk} (loop : walk.loop = some i) : walk.token = 1 := by
  cases walk with
  | idle => cases loop
  | _ => rfl

/-- A trim is of one loop. -/
theorem Counted.trims_unique (counted : Counted n s) (mine : s.Trims n i) (yours : s.Trims n j) : i = j := by
  obtain ⟨inside, mine⟩ := mine
  obtain ⟨inside', yours⟩ := yours
  rcases mine with token | loop
  · rcases yours with token' | loop'
    · exact counted.token_unique inside inside' token token'
    · have idle := counted.walk_idle inside token
      rw [Walk.token_of_loop loop'] at idle
      cases idle
  · rcases yours with token' | loop'
    · have idle := counted.walk_idle inside' token'
      rw [Walk.token_of_loop loop] at idle
      cases idle
    · rw [loop] at loop'
      exact Option.some.inj loop'

/-- A step of one thread that passes no trim on. -/
theorem State.trims_update {th : Thread} (threads : t.threads = Function.update s.threads i th)
    (walk : t.walk.loop = s.walk.loop) (token : th.token = (s.threads i).token) : t.Trims n j ↔ s.Trims n j := by
  rw [State.Trims, State.Trims, threads, walk, update_apply_eq Thread.token token]

/-- Another thread than that of a step has what it had. -/
theorem State.trims_of_ne {th : Thread} (trims : t.Trims n j) (other : j ≠ i)
    (threads : t.threads = Function.update s.threads i th)
    (walk : t.walk.loop = s.walk.loop ∨ t.walk.loop = none ∨ t.walk.loop = some i) : s.Trims n j := by
  obtain ⟨inside, token | loop⟩ := trims
  · rw [threads, Function.update_of_ne other] at token
    exact ⟨inside, .inl token⟩
  · rcases walk with same | gone | mine
    · rw [same] at loop
      exact ⟨inside, .inr loop⟩
    · rw [gone] at loop
      cases loop
    · rw [mine] at loop
      exact absurd (Option.some.inj loop).symm other

/-- The share of loop `i` is the last, and ends. -/
structure Lasts (n : Nat) (s t : State) (i : Nat) : Prop where
  unended : s.unended n = {i}
  ends : (t.threads i).ends = (s.threads i).ends + 1
  trims : t.trims = s.trims + 1

/-- The last share of a relief. -/
theorem Counted.lasts (counted : Counted n s) (inside : i < n)
    (at_ : (s.threads i).handler = .subtracts) (two : s.relieving = 2)
    (ends : (t.threads i).ends = (s.threads i).ends + 1) (trims : t.trims = s.trims + 1) : Lasts n s t i := by
  refine ⟨?_, ends, trims⟩
  have relieving := counted.relieving_eq
  have card : (s.unended n).card = 1 := by
    split at relieving <;> omega
  obtain ⟨k, same⟩ := Finset.card_eq_one.mp card
  have mem : i ∈ s.unended n := by
    have fair := (counted.threads i inside).ends
    have owes : (s.threads i).owes = (s.threads i).relieve.toNat +
        (if (s.threads i).phase = .relieved then 0 else 1) + 1 := by
      rw [Thread.owes, at_]
      rfl
    rw [State.unended, Finset.mem_filter, Finset.mem_range]
    exact ⟨inside, by omega⟩
  rw [same] at mem ⊢
  rw [Finset.mem_singleton.mp mem]

/-- The trim stays with its loop, from the end of the last share to the end of
`brainstem_trimmed`. -/
theorem Counted.trims_step (counted : Counted n s) (step : Step n s e t) (j : Nat) :
    (t.Trims n j → s.Trims n j ∨ Lasts n s t j) ∧ (s.Trims n j → t.Trims n j ∨ t.trimmed = s.trimmed + 1) := by
  have of_iff : (t.Trims n j ↔ s.Trims n j) → (t.Trims n j → s.Trims n j ∨ Lasts n s t j) ∧
      (s.Trims n j → t.Trims n j ∨ t.trimmed = s.trimmed + 1) :=
    fun same => ⟨fun here => .inl (same.mp here), fun here => .inl (same.mpr here)⟩
  cases step with
  | sample | check | store | ordered => exact of_iff Iff.rfl
  | order | post | orderOther | postOther | release | reliefIdle | pop =>
    exact of_iff (State.trims_update rfl rfl rfl)
  | deliver _ away | finish _ away | finishBare _ away =>
    apply of_iff
    refine State.trims_update rfl rfl ?_
    rw [Thread.token, Thread.token, away]
    rfl
  | obey _ at_ =>
    apply of_iff
    refine State.trims_update rfl rfl ?_
    rw [Thread.token, Thread.token, at_, Thread.obey]
    split <;> rfl
  | load _ at_ | link _ at_ | swap _ at_ | miss _ at_ | add _ _ at_ | walkHere _ at_
  | exchange _ at_ =>
    apply of_iff
    refine State.trims_update rfl rfl ?_
    rw [Thread.token, Thread.token, at_]
    rfl
  | trim _ away ready =>
    apply of_iff
    refine State.trims_update rfl rfl ?_
    rw [Thread.token, Thread.token, away, ready]
    dsimp only
    split <;> rfl
  | @take i inside at_ =>
    have single := counted.token_le inside
    apply of_iff
    refine State.trims_update rfl rfl ?_
    have token : (s.threads i).token = (s.threads i).trim.toNat + 1 := by
      rw [Thread.token, at_]
      rfl
    change 1 + 0 = _
    omega
  | walkBegin at_ | walkEnd at_ | walkCancel at_ =>
    apply of_iff
    rw [State.Trims, State.Trims, at_]
    rfl
  | @submit i inside at_ =>
    have mine : s.Trims n i := ⟨inside, .inl (by rw [Thread.token, at_]; exact Nat.succ_ne_zero _)⟩
    apply of_iff
    constructor
    · intro trims
      rcases eq_or_ne j i with rfl | other
      · exact mine
      · exact State.trims_of_ne trims other rfl (.inr (.inr rfl))
    · intro trims
      rw [counted.trims_unique trims mine]
      exact ⟨inside, .inr rfl⟩
  | @walkDone i inside away at_ =>
    have mine : s.Trims n i := ⟨inside, .inr (by rw [at_]; rfl)⟩
    apply of_iff
    constructor
    · intro trims
      rcases eq_or_ne j i with rfl | other
      · exact mine
      · exact State.trims_of_ne trims other rfl (.inr (.inl rfl))
    · intro trims
      rw [counted.trims_unique trims mine]
      refine ⟨inside, .inl ?_⟩
      change (Function.update s.threads i _ i).token ≠ 0
      rw [Function.update_self]
      exact Nat.succ_ne_zero _
  | @subtract i inside at_ =>
    rcases Decidable.em (s.relieving = 2) with last | more
    · constructor
      · intro trims
        rcases eq_or_ne j i with rfl | other
        · right
          apply counted.lasts inside at_ last
          · change (Function.update s.threads j _ j).ends = _
            rw [Function.update_self]
            rfl
          · exact if_pos last
        · exact .inl (State.trims_of_ne trims other rfl (.inl rfl))
      · rintro ⟨below, token | loop⟩
        · have one := counted.relieving_eq_one below token
          omega
        · have tokens := counted.tokens
          rw [Walk.token_of_loop loop, if_neg (by omega)] at tokens
          omega
    · apply of_iff
      refine State.trims_update rfl rfl ?_
      rw [Thread.token, Thread.token, at_, Thread.subtract]
      simp only [more, decide_false]
      rfl
  | @clear i inside at_ =>
    refine ⟨fun trims => .inl ?_, fun _ => .inr rfl⟩
    rcases eq_or_ne j i with rfl | other
    · refine ⟨inside, .inl ?_⟩
      rw [Thread.token, at_]
      exact Nat.succ_ne_zero _
    · exact State.trims_of_ne trims other rfl (.inl rfl)

/-! ## A relief -/

/-- What leads to the end of the share of loop `i` is on its way. -/
def State.Goes (s : State) (i : Nat) : Prop :=
  s.brain.owes i = 1 ∨ s.brain.posting i = 1 ∨ 0 < (s.threads i).posts ∨
    (s.threads i).handler ≠ .away ∨ (s.threads i).relief = true

/-- What holds between any two steps. -/
structure Orderly (n : Nat) (s : State) : Prop where
  /-- One relief is under way at most. -/
  reliefs : s.reliefs = s.trimmed ∨ s.reliefs = s.trimmed + 1
  relieving : s.relieving = if s.trimmed < s.reliefs then 1 + (s.unended n).card else 0
  /-- A loop ends its share of each relief, once, before the relief is done. -/
  ends : ∀ i < n, s.trimmed ≤ (s.threads i).ends ∧ (s.threads i).ends ≤ s.reliefs
  /-- It starts none before the relief before is done. -/
  starts : ∀ i < n, (s.threads i).ends ≤ (s.threads i).starts ∧
    (s.threads i).starts ≤ s.trimmed + 1
  goes : ∀ i ∈ s.unended n, s.Goes i
  /-- A trim is begun for each relief whose shares have all ended. -/
  trims : s.trims + (if (s.unended n).Nonempty then 1 else 0) = s.reliefs
  trimmer : s.relieving = 1 → ∃! i, s.Trims n i
  untrimmed : s.relieving ≠ 1 → ∀ i, ¬s.Trims n i
  /-- `brainstem_trimmed` is called once the blocks are freed. -/
  called : ∀ i < n, (s.threads i).handler = .exchanges ∨ (s.threads i).handler = .clears →
    ∀ b, s.freed b = s.pushed b
  done : s.relieving = 0 → ∀ b, s.freed b = s.pushed b
  freed : ∀ b, s.freed b ≤ s.pushed b

/-- What a step may change. -/
structure Steps (n : Nat) (s : State) (e : Event) (t : State) : Prop where
  rises : ∀ input, s.levels input < t.levels input → ∃ full, e = .sample full ∧
    ∀ k, s.levels input ≤ k → k < t.levels input → input.up k ≤ full input
  falls : ∀ input, t.levels input < s.levels input → ∃ full, e = .sample full ∧
    ∀ k, t.levels input ≤ k → k < s.levels input → full input < input.down k
  trims : ∀ i, (t.Trims n i → s.Trims n i ∨ Lasts n s t i) ∧
    (s.Trims n i → t.Trims n i ∨ t.trimmed = s.trimmed + 1)

/-- The walk is for a loop that runs. -/
theorem walk_step (bound : ∀ i, s.walk.loop = some i → i < n) (step : Step n s e t) :
    ∀ i, t.walk.loop = some i → i < n := by
  cases step with
  | submit inside =>
    rintro i ⟨⟩
    exact inside
  | walkBegin at_ | walkEnd at_ | walkCancel at_ =>
    rw [at_] at bound
    exact bound
  | walkDone => nofun
  | _ => exact bound

/-- A share that has not ended goes on. -/
theorem Counted.goes (counted : Counted n s) (inside : i < n)
    (unended : (s.threads i).ends < s.reliefs) : s.Goes i := by
  have fair := counted.threads i inside
  have ends := fair.ends
  have bound := counted.owes_le inside
  have told := fair.told
  rcases Nat.eq_zero_or_pos (s.brain.owes i) with ordered | yet
  · right
    cases relieve : (s.threads i).relieve with
    | true =>
      rw [if_pos (.inl relieve), Thread.told] at told
      rcases Decidable.em ((s.threads i).handler = .obeys) with obeys | other
      · right; right; left
        rw [obeys]
        simp
      · rw [if_neg other] at told
        rcases Nat.eq_zero_or_pos (s.threads i).posts with none_ | posted
        · left
          omega
        · exact .inr (.inl posted)
    | false =>
      right; right
      rcases Decidable.em ((s.threads i).phase = .relieved) with idle | phase
      · left
        intro away
        rw [Thread.owes, relieve, idle, away] at ends
        change _ + _ + 0 = _ at ends
        omega
      · exact .inr (fair.ready phase)
  · left
    omega

/-- As all shares have ended, one loop has the trim. -/
theorem Counted.trims_exists (counted : Counted n s) (bound : ∀ i, s.walk.loop = some i → i < n)
    (one : s.relieving = 1) : ∃ i, s.Trims n i := by
  have tokens := counted.tokens
  rw [if_pos one] at tokens
  cases loop : s.walk.loop with
  | some i => exact ⟨i, bound i loop, .inr loop⟩
  | none =>
    have idle : s.walk.token = 0 := by
      cases walk : s.walk with
      | idle => rfl
      | _ =>
        rw [walk] at loop
        cases loop
    by_contra none_
    have zero : tally n Thread.token s.threads = 0 := by
      apply tally_eq_zero
      intro i below
      apply Decidable.byContradiction
      exact fun token => none_ ⟨i, below, .inl token⟩
    omega

/-- No thread has the trim but one that runs it. -/
theorem Counted.no_token (counted : Counted n s) (inside : i < n) (other : s.relieving ≠ 1) : (s.threads i).token = 0 :=
  Decidable.byContradiction fun token => other (counted.relieving_eq_one inside token)

theorem Counted.orderly (counted : Counted n s) (stacked : Stacked n s)
    (bound : ∀ i, s.walk.loop = some i → i < n) : Orderly n s where
  reliefs := counted.reliefs
  relieving := counted.relieving_eq
  ends i inside := by
    have fair := counted.threads i inside
    have ends := fair.ends
    exact ⟨fair.done, by omega⟩
  starts i inside := by
    have fair := counted.threads i inside
    have ends := fair.ends
    have starts := fair.starts
    rw [Thread.owes] at ends
    rcases counted.reliefs with same | more <;> omega
  goes i mem := by
    obtain ⟨inside, unended⟩ := Finset.mem_filter.mp mem
    exact counted.goes (Finset.mem_range.mp inside) unended
  trims := by
    have trims := counted.trims
    have relieving := counted.relieving
    have some_ : (s.unended n).Nonempty ↔ 2 ≤ s.relieving := by
      rw [← Finset.card_pos, counted.card_unended]
      have still := counted.still
      split at relieving
      · next same =>
          have none_ := still same
          omega
      · omega
    rw [if_congr some_ rfl rfl]
    exact trims
  trimmer one := by
    obtain ⟨i, mine⟩ := counted.trims_exists bound one
    exact ⟨i, mine, fun j yours => counted.trims_unique yours mine⟩
  untrimmed other i := by
    rintro ⟨inside, token | loop⟩
    · exact token (counted.no_token inside other)
    · have tokens := counted.tokens
      rw [Walk.token_of_loop loop, if_neg other] at tokens
      omega
  called i inside at_ := by
    have mine : (s.threads i).token = (s.threads i).trim.toNat + 1 := by
      rw [Thread.token]
      rcases at_ with here | here <;> rw [here] <;> rfl
    have single := counted.token_le inside
    have one := counted.relieving_eq_one inside (by omega)
    apply stacked.freed_eq (by omega)
    · intro j below takes
      have same := counted.token_unique inside below (by omega) (by rw [Thread.token, takes]; exact Nat.succ_ne_zero _)
      rw [← same] at takes
      rcases at_ with here | here <;> rw [here] at takes <;> cases takes
    · intro j below
      cases trim : (s.threads j).trim with
      | false => rfl
      | true =>
        have same := counted.token_unique inside below (by omega) (by rw [Thread.token, trim]; change 1 + _ ≠ 0; omega)
        rw [same, trim] at mine
        rw [same] at single
        change _ = 1 + 1 at mine
        omega
  done zero := by
    apply stacked.freed_eq (by omega)
    · intro j below takes
      have none_ := counted.no_token below (by omega)
      rw [Thread.token, takes] at none_
      cases none_
    · intro j below
      have none_ := counted.no_token below (by omega)
      cases trim : (s.threads j).trim with
      | false => rfl
      | true =>
        rw [Thread.token, trim] at none_
        change 1 + _ = 0 at none_
        omega
  freed b := by
    have freed := stacked.freed b
    omega

/-- The level of an input changes with a sample alone. -/
theorem levels_step (step : Step n s e t) : (∃ full, e = .sample full ∧ ∀ input,
      t.levels input = brainstemInput input (full input) (s.levels input)) ∨ t.levels = s.levels := by
  cases step with
  | sample full => exact .inl ⟨full, rfl, fun _ => rfl⟩
  | _ => exact .inr rfl

theorem Counted.steps (counted : Counted n s) (step : Step n s e t) : Steps n s e t where
  rises input more := by
    rcases levels_step step with ⟨full, rfl, level⟩ | same
    · refine ⟨full, rfl, ?_⟩
      rw [level]
      exact (brainstemInput_spec input (full input) (s.levels input)).1
    · rw [same] at more
      omega
  falls input less := by
    rcases levels_step step with ⟨full, rfl, level⟩ | same
    · refine ⟨full, rfl, ?_⟩
      rw [level]
      exact (brainstemInput_spec input (full input) (s.levels input)).2
    · rw [same] at less
      omega
  trims := counted.trims_step step

/-- In any order of the steps, and with any samples, each relief is had by every loop once, trimmed
by the last of them once, and done before the next begins. -/
theorem relief_once (run : Trace (Step n) {} es s) : Orderly n s ∧ ∀ e t, Step n s e t → Steps n s e t := by
  have both : Counted n s ∧ Stacked n s ∧ ∀ i, s.walk.loop = some i → i < n := by
    apply run.invariant
    · exact ⟨Counted.init, Stacked.init, nofun⟩
    · rintro s e t ⟨counted, stacked, bound⟩ step
      exact ⟨counted.step step, stacked.step counted step, walk_step bound step⟩
  obtain ⟨counted, stacked, bound⟩ := both
  exact ⟨counted.orderly stacked bound, fun e t => counted.steps⟩

/-- RAM past its first mark has one loop relieve it. -/
theorem relief_once_begun : ∃ s : State,
    Trace (Step 1) {} [.sample fun _ => 10000, .other, .other] s ∧ s.relieving = 2 ∧
      Orderly 1 s ∧ ∀ e t, Step 1 s e t → Steps 1 s e t := by
  have high : (brainstemInputs fun i => brainstemInput i 10000 0) ≠ 0 := by decide +kernel
  have sampled := Step.sample (n := 1) (s := {}) (fun _ => 10000) true rfl
  rw [if_pos ⟨high, rfl⟩] at sampled
  have run := ((Trace.single sampled).snoc (.check rfl)).snoc (.store rfl)
  exact ⟨_, run, rfl, relief_once run⟩

end Askai.Relief
