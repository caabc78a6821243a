import Askai.Relief.Model

/-!
# Shares and trims

`relieving` counts the shares that have not ended, and one for the trim; one token goes from the last
loop to end its share through the trim to `brainstem_trimmed`.
-/

namespace Askai.Relief

open Library

variable {n i : Nat} {s t : State} {th : Thread}

/-- The loops that the brainstem has yet to order. -/
def Brain.pending (n : Nat) : Brain → Nat
  | .orders j => n - j
  | .posts j => n - (j + 1)
  | _ => 0

/-- The brainstem has yet to order loop `i`. -/
def Brain.owes (i : Nat) : Brain → Nat
  | .orders j => if j ≤ i then 1 else 0
  | .posts j => if j < i then 1 else 0
  | _ => 0

/-- The brainstem is about to post loop `i` an order. -/
def Brain.posting (i : Nat) : Brain → Nat
  | .posts j | .postsOther j => if j = i then 1 else 0
  | _ => 0

/-- The thread ends its share. -/
def Handler.ends : Handler → Nat
  | .pushes _ | .links _ _ | .swaps _ _ | .adds | .subtracts => 1
  | _ => 0

/-- The thread has the trim in hand. -/
def Handler.trims : Handler → Nat
  | .takes | .submits | .exchanges | .clears => 1
  | _ => 0

/-- The thread's share is ordered and has not ended. -/
def Thread.owes (t : Thread) : Nat :=
  t.relieve.toNat + (if t.phase = .relieved then 0 else 1) + t.handler.ends

/-- The trim is the thread's. -/
def Thread.token (t : Thread) : Nat :=
  t.trim.toNat + t.handler.trims

/-- The trim is the walk's. -/
def Walk.token : Walk → Nat
  | .idle => 0
  | _ => 1

/-- The loop that the walk is for. -/
def Walk.loop : Walk → Option Nat
  | .idle => none
  | .queued i | .runs i | .posted i => some i

/-- The order message is on its way, or in its handler. -/
def Thread.told (t : Thread) : Nat :=
  t.posts + if t.handler = .obeys then 1 else 0

/-- What holds of a loop. -/
structure Thread.Fair (brain : Brain) (i reliefs trimmed : Nat) (t : Thread) : Prop where
  ends : t.ends + brain.owes i + t.owes = reliefs
  starts : t.starts + brain.owes i + t.relieve.toNat = reliefs
  done : trimmed ≤ t.ends
  ready : t.phase ≠ .relieved → t.relief = true
  told : t.told + brain.posting i = if t.relieve = true ∨ t.other = true then 1 else 0

/-- What holds of the reliefs. -/
structure Counted (n : Nat) (s : State) : Prop where
  threads : ∀ i < n, (s.threads i).Fair s.brain i s.reliefs s.trimmed
  relieving : s.relieving = if s.reliefs = s.trimmed then 0
    else 1 + (s.brain.pending n + tally n Thread.owes s.threads)
  reliefs : s.reliefs = s.trimmed ∨ s.reliefs = s.trimmed + 1
  still : s.reliefs = s.trimmed → s.brain.pending n + tally n Thread.owes s.threads = 0
  stores : s.brain = .stores → s.relieving = 0 ∧ 0 < n
  orders : ∀ j, s.brain = .orders j → j ≤ n
  posts : ∀ j, s.brain.posting j ≠ 0 → j < n
  trims : s.trims + (if 2 ≤ s.relieving then 1 else 0) = s.reliefs
  tokens : tally n Thread.token s.threads + s.walk.token = if s.relieving = 1 then 1 else 0

namespace Counted

/-- No relief is under way while `relieving` is 0. -/
theorem relieving_eq_zero (counted : Counted n s) : s.relieving = 0 ↔ s.reliefs = s.trimmed := by
  have relieving := counted.relieving
  split at relieving
  · next same => exact ⟨fun _ => same, fun _ => relieving⟩
  · next other => exact ⟨fun none_ => by omega, fun same => absurd same other⟩

/-- A loop owes one share at most. -/
theorem owes_le (counted : Counted n s) (inside : i < n) : s.brain.owes i + (s.threads i).owes ≤ 1 := by
  have fair := counted.threads i inside
  have ends := fair.ends
  have done := fair.done
  rcases counted.reliefs with same | more <;> omega

/-- A share that has not ended counts, and so does the trim. -/
theorem two_le (counted : Counted n s) (inside : i < n) (owes : (s.threads i).owes ≠ 0) : 2 ≤ s.relieving := by
  have relieving := counted.relieving
  have part := le_tally inside Thread.owes s.threads
  rw [if_neg] at relieving
  · omega
  · intro same
    have still := counted.still same
    omega

/-- A thread has the trim once. -/
theorem token_le (counted : Counted n s) (inside : i < n) : (s.threads i).token ≤ 1 := by
  have part := le_tally inside Thread.token s.threads
  have tokens := counted.tokens
  split at tokens <;> omega

/-- A thread that has the trim is the only one, and no share is left. -/
theorem relieving_eq_one (counted : Counted n s) (inside : i < n)
    (token : (s.threads i).token ≠ 0) : s.relieving = 1 := by
  have part := le_tally inside Thread.token s.threads
  have tokens := counted.tokens
  split at tokens
  · assumption
  · omega

/-- A step of the thread of loop `i` that neither ends its share nor passes the trim on. -/
theorem move (counted : Counted n s) (inside : i < n)
    (threads : t.threads = Function.update s.threads i th) (brain : t.brain = s.brain)
    (relieving : t.relieving = s.relieving) (reliefs : t.reliefs = s.reliefs)
    (trims : t.trims = s.trims) (trimmed : t.trimmed = s.trimmed)
    (fair : th.Fair s.brain i s.reliefs s.trimmed) (owes : th.owes = (s.threads i).owes)
    (token : th.token + t.walk.token = (s.threads i).token + s.walk.token) : Counted n t := by
  have owed : tally n Thread.owes t.threads = tally n Thread.owes s.threads := by
    rw [threads, tally_update_eq owes]
  have tokens := tally_update inside Thread.token s.threads th
  rw [← threads] at tokens
  constructor
  · intro j below
    rw [threads, brain, reliefs, trimmed]
    rcases eq_or_ne j i with rfl | other
    · rw [Function.update_self]
      exact fair
    · rw [Function.update_of_ne other]
      exact counted.threads j below
  · rw [relieving, reliefs, trimmed, brain, owed]
    exact counted.relieving
  · rw [reliefs, trimmed]
    exact counted.reliefs
  · rw [reliefs, trimmed, brain, owed]
    exact counted.still
  · rw [brain, relieving]
    exact counted.stores
  · rw [brain]
    exact counted.orders
  · rw [brain]
    exact counted.posts
  · rw [trims, relieving, reliefs]
    exact counted.trims
  · have before := counted.tokens
    rw [relieving]
    omega

/-- A step of the brainstem that leaves the relief alone. -/
theorem brain (counted : Counted n s) (threads : t.threads = s.threads)
    (relieving : t.relieving = s.relieving) (reliefs : t.reliefs = s.reliefs)
    (trims : t.trims = s.trims) (trimmed : t.trimmed = s.trimmed) (walk : t.walk.token = s.walk.token)
    (pending : t.brain.pending n = s.brain.pending n) (owes : ∀ i < n, t.brain.owes i = s.brain.owes i)
    (posting : ∀ i < n, t.brain.posting i = s.brain.posting i)
    (stores : t.brain = .stores → s.relieving = 0 ∧ 0 < n) (orders : ∀ j, t.brain = .orders j → j ≤ n)
    (posts : ∀ j, t.brain.posting j ≠ 0 → j < n) : Counted n t := by
  constructor
  · intro i below
    rw [threads, reliefs, trimmed]
    have fair := counted.threads i below
    constructor
    · rw [owes i below]
      exact fair.ends
    · rw [owes i below]
      exact fair.starts
    · exact fair.done
    · exact fair.ready
    · rw [posting i below]
      exact fair.told
  · rw [relieving, reliefs, trimmed, pending, threads]
    exact counted.relieving
  · rw [reliefs, trimmed]
    exact counted.reliefs
  · rw [reliefs, trimmed, pending, threads]
    exact counted.still
  · rw [relieving]
    exact stores
  · exact orders
  · exact posts
  · rw [trims, relieving, reliefs]
    exact counted.trims
  · rw [threads, walk, relieving]
    exact counted.tokens

/-! ## The brainstem's steps -/

theorem store (counted : Counted n s) (at_ : s.brain = .stores) :
    Counted n { s with brain := .orders 0, relieving := n + 1, reliefs := s.reliefs + 1 } := by
  obtain ⟨none_, some_⟩ := counted.stores at_
  have same := counted.relieving_eq_zero.mp none_
  have still := counted.still same
  rw [at_] at still
  change 0 + _ = 0 at still
  constructor
  · intro i below
    have fair := counted.threads i below
    rw [at_] at fair
    constructor
    · have ends := fair.ends
      change (s.threads i).ends + 0 + (s.threads i).owes = s.reliefs at ends
      change (s.threads i).ends + 1 + (s.threads i).owes = s.reliefs + 1
      omega
    · have starts := fair.starts
      change (s.threads i).starts + 0 + (s.threads i).relieve.toNat = s.reliefs at starts
      change (s.threads i).starts + 1 + (s.threads i).relieve.toNat = s.reliefs + 1
      omega
    · exact fair.done
    · exact fair.ready
    · exact fair.told
  · change n + 1 = if s.reliefs + 1 = s.trimmed then 0
      else 1 + (n - 0 + tally n Thread.owes s.threads)
    rw [if_neg (by omega)]
    omega
  · exact .inr (congrArg (· + 1) same)
  · intro absurd_
    change s.reliefs + 1 = s.trimmed at absurd_
    omega
  · nofun
  · rintro j ⟨⟩
    exact Nat.zero_le _
  · exact fun j some_ => absurd rfl some_
  · have trims := counted.trims
    rw [none_] at trims
    change s.trims + (if 2 ≤ n + 1 then 1 else 0) = s.reliefs + 1
    rw [if_pos (by omega)]
    exact congrArg (· + 1) trims
  · have tokens := counted.tokens
    rw [none_] at tokens
    change tally n Thread.token s.threads + s.walk.token = if n + 1 = 1 then 1 else 0
    rw [if_neg (by omega)]
    exact tokens

/-- The brainstem sets a bit of a loop's orders, and has the loop told if none was set. -/
theorem order (counted : Counted n s) (at_ : s.brain = .orders i) (inside : i < n) : Counted n
      { s.setThread i { s.threads i with relieve := true } with
        brain :=
          if (s.threads i).relieve = true ∨ (s.threads i).other = true then .orders (i + 1)
          else .posts i } := by
  have bound := counted.owes_le inside
  have mine : s.brain.owes i = 1 := by
    rw [at_]
    exact if_pos (Nat.le_refl i)
  have none_ : (s.threads i).relieve = false := by
    cases relieve : (s.threads i).relieve with
    | false => rfl
    | true =>
      rw [mine, Thread.owes, relieve] at bound
      change 1 + (1 + _ + _) ≤ 1 at bound
      omega
  rw [none_]
  set brain := if false = true ∨ (s.threads i).other = true then Brain.orders (i + 1) else .posts i with brain_eq
  have pending : brain.pending n + 1 = s.brain.pending n := by
    rw [brain_eq, at_]
    split <;> simp only [Brain.pending] <;> omega
  have owes : ∀ j, brain.owes j + (if j = i then 1 else 0) = s.brain.owes j := by
    intro j
    rw [brain_eq, at_]
    split <;> simp only [Brain.owes] <;> split <;> split <;> split <;> omega
  have posting : ∀ j, brain.posting j = if j = i ∧ (s.threads i).other = false then 1 else 0 := by
    intro j
    rw [brain_eq]
    cases other : (s.threads i).other with
    | true => simp [Brain.posting]
    | false => simp [Brain.posting, eq_comm]
  have quiet : ∀ j, s.brain.posting j = 0 := by
    intro j
    rw [at_]
    rfl
  set th : Thread := { s.threads i with relieve := true } with th_eq
  have owed : th.owes = (s.threads i).owes + 1 := by
    have before : (s.threads i).owes =
        0 + (if (s.threads i).phase = .relieved then 0 else 1) + (s.threads i).handler.ends := by
      rw [Thread.owes, none_]
      rfl
    rw [before]
    change 1 + (if (s.threads i).phase = .relieved then 0 else 1) + (s.threads i).handler.ends = _
    omega
  have total := tally_update inside Thread.owes s.threads th
  have some_ := counted.relieving
  rw [if_neg] at some_
  swap
  · intro same
    have still := counted.still same
    omega
  constructor
  · intro j below
    have fair := counted.threads j below
    have change_ := owes j
    change (Function.update s.threads i th j).Fair brain j s.reliefs s.trimmed
    rcases eq_or_ne j i with rfl | other
    · rw [Function.update_self]
      rw [if_pos rfl] at change_
      constructor
      · have ends := fair.ends
        rw [owed]
        change (s.threads j).ends + _ + _ = _
        omega
      · have starts := fair.starts
        rw [none_] at starts
        change (s.threads j).starts + _ + 0 = _ at starts
        change (s.threads j).starts + _ + 1 = _
        omega
      · exact fair.done
      · exact fair.ready
      · have told := fair.told
        rw [none_, quiet] at told
        change (s.threads j).told + brain.posting j = if true = true ∨ (s.threads j).other = true then 1 else 0
        rw [if_pos (.inl rfl), posting]
        cases other : (s.threads j).other with
        | true => simpa [other] using told
        | false => simpa [other] using told
    · rw [Function.update_of_ne other]
      rw [if_neg other, Nat.add_zero] at change_
      constructor
      · rw [change_]
        exact fair.ends
      · rw [change_]
        exact fair.starts
      · exact fair.done
      · exact fair.ready
      · have told := fair.told
        rw [quiet] at told
        rw [posting, if_neg fun both => other both.1]
        exact told
  · change s.relieving = if s.reliefs = s.trimmed then 0 else
      1 + (brain.pending n + tally n Thread.owes (Function.update s.threads i th))
    rw [if_neg]
    · omega
    · intro same
      have still := counted.still same
      omega
  · exact counted.reliefs
  · intro same
    have still := counted.still same
    omega
  · intro absurd_
    change brain = _ at absurd_
    rw [brain_eq] at absurd_
    split at absurd_ <;> cases absurd_
  · intro j here
    change brain = _ at here
    rw [brain_eq] at here
    split at here
    · cases here
      exact inside
    · cases here
  · intro j here
    change brain.posting j ≠ 0 at here
    rw [posting] at here
    split at here
    · next both => exact both.1 ▸ inside
    · exact absurd rfl here
  · exact counted.trims
  · change tally n Thread.token (Function.update s.threads i th) + _ = _
    rw [tally_update_eq (show th.token = (s.threads i).token from rfl)]
    exact counted.tokens

/-- The brainstem posts a loop its order. -/
theorem post (counted : Counted n s) {brain : Brain} (posting : s.brain.posting i = 1)
    (others : ∀ j, j ≠ i → s.brain.posting j = 0) (pending : brain.pending n = s.brain.pending n)
    (owes : ∀ j, brain.owes j = s.brain.owes j) (quiet : ∀ j, brain.posting j = 0)
    (stores : brain ≠ .stores) (orders : ∀ j, brain = .orders j → j ≤ n) : Counted n
      { s.setThread i { s.threads i with posts := (s.threads i).posts + 1 } with brain } := by
  set th : Thread := { s.threads i with posts := (s.threads i).posts + 1 } with th_eq
  constructor
  · intro j below
    have fair := counted.threads j below
    change (Function.update s.threads i th j).Fair brain j s.reliefs s.trimmed
    have told := fair.told
    rcases eq_or_ne j i with rfl | other
    · rw [Function.update_self]
      rw [posting] at told
      refine ⟨?_, ?_, fair.done, fair.ready, ?_⟩
      · rw [owes]
        exact fair.ends
      · rw [owes]
        exact fair.starts
      · rw [quiet]
        change (s.threads j).posts + 1 + (if (s.threads j).handler = .obeys then 1 else 0) + 0 =
          if (s.threads j).relieve = true ∨ (s.threads j).other = true then 1 else 0
        rw [← told, Thread.told]
        omega
    · rw [Function.update_of_ne other]
      refine ⟨?_, ?_, fair.done, fair.ready, ?_⟩
      · rw [owes]
        exact fair.ends
      · rw [owes]
        exact fair.starts
      · rw [quiet]
        rw [others j other] at told
        exact told
  · change s.relieving = if s.reliefs = s.trimmed then 0 else
      1 + (brain.pending n + tally n Thread.owes (Function.update s.threads i th))
    rw [pending, tally_update_eq (show th.owes = (s.threads i).owes from rfl)]
    exact counted.relieving
  · exact counted.reliefs
  · change _ → brain.pending n + tally n Thread.owes (Function.update s.threads i th) = 0
    rw [pending, tally_update_eq (show th.owes = (s.threads i).owes from rfl)]
    exact counted.still
  · exact fun here => absurd here stores
  · exact orders
  · exact fun j here => absurd (quiet j) here
  · exact counted.trims
  · change tally n Thread.token (Function.update s.threads i th) + _ = _
    rw [tally_update_eq (show th.token = (s.threads i).token from rfl)]
    exact counted.tokens

/-- Another order to a loop. -/
theorem orderOther (counted : Counted n s) (rests : s.brain = .rests) (inside : i < n) : Counted n
      { s.setThread i { s.threads i with other := true } with
        brain :=
          if (s.threads i).relieve = true ∨ (s.threads i).other = true then .rests
          else .postsOther i } := by
  set brain := if (s.threads i).relieve = true ∨ (s.threads i).other = true then Brain.rests
    else .postsOther i with brain_eq
  set th : Thread := { s.threads i with other := true } with th_eq
  have pending : brain.pending n = s.brain.pending n := by
    rw [brain_eq, rests]
    split <;> rfl
  have owes : ∀ j, brain.owes j = s.brain.owes j := by
    intro j
    rw [brain_eq, rests]
    split <;> rfl
  have quiet : ∀ j, s.brain.posting j = 0 := by
    intro j
    rw [rests]
    rfl
  constructor
  · intro j below
    have fair := counted.threads j below
    have told := fair.told
    rw [quiet] at told
    change (Function.update s.threads i th j).Fair brain j s.reliefs s.trimmed
    rcases eq_or_ne j i with rfl | other
    · rw [Function.update_self]
      refine ⟨?_, ?_, fair.done, fair.ready, ?_⟩
      · rw [owes]
        exact fair.ends
      · rw [owes]
        exact fair.starts
      · change (s.threads j).told + brain.posting j = if (s.threads j).relieve = true ∨ true = true then 1 else 0
        rw [if_pos (.inr rfl), brain_eq]
        split
        · next set_ =>
            rw [if_pos set_] at told
            exact told
        · next unset =>
            rw [if_neg unset] at told
            simp [Brain.posting]
            omega
    · rw [Function.update_of_ne other]
      refine ⟨?_, ?_, fair.done, fair.ready, ?_⟩
      · rw [owes]
        exact fair.ends
      · rw [owes]
        exact fair.starts
      · have none_ : brain.posting j = 0 := by
          rw [brain_eq]
          split
          · rfl
          · exact if_neg other.symm
        rw [none_]
        exact told
  · change s.relieving = if s.reliefs = s.trimmed then 0 else
      1 + (brain.pending n + tally n Thread.owes (Function.update s.threads i th))
    rw [pending, tally_update_eq (show th.owes = (s.threads i).owes from rfl)]
    exact counted.relieving
  · exact counted.reliefs
  · change _ → brain.pending n + tally n Thread.owes (Function.update s.threads i th) = 0
    rw [pending, tally_update_eq (show th.owes = (s.threads i).owes from rfl)]
    exact counted.still
  · intro here
    change brain = _ at here
    rw [brain_eq] at here
    split at here <;> cases here
  · intro j here
    change brain = _ at here
    rw [brain_eq] at here
    split at here <;> cases here
  · intro j here
    change brain.posting j ≠ 0 at here
    rw [brain_eq] at here
    split at here
    · exact absurd rfl here
    · rcases eq_or_ne i j with rfl | other
      · exact inside
      · exact absurd (if_neg other) here
  · exact counted.trims
  · change tally n Thread.token (Function.update s.threads i th) + _ = _
    rw [tally_update_eq (show th.token = (s.threads i).token from rfl)]
    exact counted.tokens

/-! ## The loops' steps -/

/-- A thread goes on to another handler in its share, in the trim, or outside of both. -/
theorem goOn (counted : Counted n s) (inside : i < n) (handler : Handler) {old : Handler}
    (at_ : (s.threads i).handler = old) (threads : t.threads = Function.update s.threads i { s.threads i with handler })
    (brain : t.brain = s.brain) (relieving : t.relieving = s.relieving)
    (reliefs : t.reliefs = s.reliefs) (trims : t.trims = s.trims) (trimmed : t.trimmed = s.trimmed)
    (ends : handler.ends = old.ends) (tokens : handler.trims + t.walk.token = old.trims + s.walk.token)
    (before : old ≠ .obeys) (after : handler ≠ .obeys) : Counted n t := by
  have fair := counted.threads i inside
  have owes : Thread.owes { s.threads i with handler } = (s.threads i).owes := by
    rw [Thread.owes, Thread.owes, ends, at_]
  have told : Thread.told { s.threads i with handler } = (s.threads i).told := by
    rw [Thread.told, Thread.told, at_, if_neg before, if_neg after]
  refine counted.move inside threads brain relieving reliefs trims trimmed ?_ owes ?_
  · refine ⟨?_, fair.starts, fair.done, fair.ready, ?_⟩
    · rw [owes]
      exact fair.ends
    · rw [told]
      exact fair.told
  · rw [Thread.token, Thread.token, at_]
    change (s.threads i).trim.toNat + handler.trims + _ = _
    omega

theorem deliver (counted : Counted n s) (inside : i < n) (away : (s.threads i).handler = .away)
    (posted : 0 < (s.threads i).posts) : Counted n (s.setThread i
      { s.threads i with posts := (s.threads i).posts - 1, handler := .obeys }) := by
  have fair := counted.threads i inside
  have owes : Thread.owes { s.threads i with posts := (s.threads i).posts - 1, handler := .obeys } =
      (s.threads i).owes := by
    rw [Thread.owes, Thread.owes, away]
    rfl
  refine counted.move inside rfl rfl rfl rfl rfl rfl ?_ owes ?_
  · refine ⟨?_, fair.starts, fair.done, fair.ready, ?_⟩
    · rw [owes]
      exact fair.ends
    · have told := fair.told
      rw [Thread.told, away, if_neg nofun] at told
      rw [Thread.told]
      change (s.threads i).posts - 1 + 1 + _ = if (s.threads i).relieve = true ∨ _ then 1 else 0
      rw [← told]
      omega
  · rw [Thread.token, Thread.token, away]
    rfl

theorem obey (counted : Counted n s) (inside : i < n) (at_ : (s.threads i).handler = .obeys) :
    Counted n (s.setThread i (s.threads i).obey) := by
  have fair := counted.threads i inside
  have bound := counted.owes_le inside
  have ends := fair.ends
  have starts := fair.starts
  have told := fair.told
  rw [Thread.told, at_, if_pos rfl] at told
  rw [Thread.owes, at_] at bound ends
  cases relieve : (s.threads i).relieve with
  | true =>
    rw [relieve] at bound starts told ends
    rw [if_pos (.inl rfl)] at told
    change _ + (1 + _ + 0) ≤ 1 at bound
    change _ + (1 + _ + 0) = _ at ends
    change _ + 1 = _ at starts
    have idle : (s.threads i).phase = .relieved := by
      apply Decidable.byContradiction
      intro other
      rw [if_neg other] at bound
      omega
    rw [idle, if_pos rfl] at ends
    have thread : (s.threads i).obey = { s.threads i with
        relieve := false, other := false, handler := .away
        phase := .kept, relief := true, starts := (s.threads i).starts + 1 } := by
      rw [Thread.obey, if_pos relieve]
    rw [thread]
    refine counted.move inside rfl rfl rfl rfl rfl rfl ⟨?_, ?_, fair.done, fun _ => rfl, ?_⟩ ?_ ?_
    · exact ends
    · change (s.threads i).starts + 1 + _ + 0 = _
      omega
    · change (s.threads i).posts + 0 + _ = 0
      omega
    · rw [Thread.owes, Thread.owes, relieve, idle, at_]
      rfl
    · rw [Thread.token, Thread.token, at_]
      rfl
  | false =>
    have thread : (s.threads i).obey = { s.threads i with other := false, handler := .away } := by
      rw [Thread.obey, if_neg (by rw [relieve]; nofun)]
    have owes : Thread.owes { s.threads i with other := false, handler := .away } = (s.threads i).owes := by
      rw [Thread.owes, Thread.owes, at_]
      rfl
    rw [thread]
    refine counted.move inside rfl rfl rfl rfl rfl rfl ⟨?_, fair.starts, fair.done, fair.ready, ?_⟩ owes ?_
    · rw [owes]
      exact fair.ends
    · change (s.threads i).posts + 0 + _ = if (s.threads i).relieve = true ∨ false = true then 1 else 0
      rw [relieve, if_neg (by simp)]
      split at told <;> omega
    · rw [Thread.token, Thread.token, at_]
      rfl

theorem release (counted : Counted n s) (inside : i < n) (some_ : Bool)
    (phase : (s.threads i).phase = .kept ∨ (s.threads i).phase = .stash) :
    Counted n (s.setThread i ((s.threads i).release some_)) := by
  have fair := counted.threads i inside
  have before : (s.threads i).phase ≠ .relieved := by
    rcases phase with here | here <;> rw [here] <;> nofun
  have after : ((s.threads i).release some_).phase ≠ .relieved := by
    cases some_ with
    | true => exact before
    | false =>
      change (s.threads i).phase.succ ≠ .relieved
      rcases phase with here | here <;> rw [here] <;> nofun
  have owes : ((s.threads i).release some_).owes = (s.threads i).owes := by
    rw [Thread.owes, Thread.owes, if_neg before, if_neg after]
    rfl
  refine counted.move inside rfl rfl rfl rfl rfl rfl
    ⟨?_, fair.starts, fair.done, fun _ => fair.ready before, fair.told⟩ owes rfl
  rw [owes]
  exact fair.ends

theorem finish (counted : Counted n s) (inside : i < n) (away : (s.threads i).handler = .away)
    {handler : Handler} (ends : handler.ends = 1) (trims : handler.trims = 0)
    (after : handler ≠ .obeys) (before : (s.threads i).phase ≠ .relieved) :
    Counted n (s.setThread i ((s.threads i).finish handler)) := by
  have fair := counted.threads i inside
  have owes : ((s.threads i).finish handler).owes = (s.threads i).owes := by
    rw [Thread.owes, Thread.owes, away, if_neg before]
    change (s.threads i).relieve.toNat + 0 + handler.ends = (s.threads i).relieve.toNat + 1 + 0
    omega
  refine counted.move inside rfl rfl rfl rfl rfl rfl
    ⟨?_, fair.starts, fair.done, fun some_ => absurd rfl some_, ?_⟩ owes ?_
  · rw [owes]
    exact fair.ends
  · have told := fair.told
    rw [Thread.told, away, if_neg nofun] at told
    rw [Thread.told]
    change (s.threads i).posts + (if handler = .obeys then 1 else 0) + _ = _
    rw [if_neg after]
    exact told
  · rw [Thread.token, Thread.token, away]
    change (s.threads i).trim.toNat + handler.trims + _ = _
    rw [trims]
    rfl

/-- A loop ends its share; the last has the trim. -/
theorem subtract (counted : Counted n s) (inside : i < n) (at_ : (s.threads i).handler = .subtracts) : Counted n
      { s.setThread i ((s.threads i).subtract (s.relieving = 2)) with
        relieving := s.relieving - 1
        trims := if s.relieving = 2 then s.trims + 1 else s.trims } := by
  have fair := counted.threads i inside
  set th := (s.threads i).subtract (s.relieving = 2) with th_eq
  have handler : th.handler.ends = 0 ∧ th.handler ≠ .obeys ∧ th.handler.trims = if s.relieving = 2 then 1 else 0 := by
    rw [th_eq, Thread.subtract]
    rcases Decidable.em (s.relieving = 2) with last | more
    · rw [if_pos last]
      simp [last, Handler.ends, Handler.trims]
    · rw [if_neg more]
      simp [more, Handler.ends, Handler.trims]
  have owed : th.owes + 1 = (s.threads i).owes := by
    rw [Thread.owes, Thread.owes, at_, handler.1]
    rfl
  have token : th.token = (s.threads i).token + if s.relieving = 2 then 1 else 0 := by
    rw [Thread.token, Thread.token, at_, handler.2.2]
    rfl
  have shares := counted.two_le inside (by omega)
  have relieving := counted.relieving
  have some_ : s.reliefs ≠ s.trimmed := by
    intro same
    rw [if_pos same] at relieving
    omega
  rw [if_neg some_] at relieving
  have total := tally_update inside Thread.owes s.threads th
  have passed := tally_update inside Thread.token s.threads th
  have part := le_tally inside Thread.owes s.threads
  constructor
  · intro j below
    change (Function.update s.threads i th j).Fair s.brain j s.reliefs s.trimmed
    rcases eq_or_ne j i with rfl | other
    · rw [Function.update_self]
      refine ⟨?_, fair.starts, Nat.le_succ_of_le fair.done, fair.ready, ?_⟩
      · have ends := fair.ends
        change (s.threads j).ends + 1 + _ + th.owes = _
        omega
      · have told := fair.told
        rw [Thread.told, at_, if_neg nofun] at told
        rw [Thread.told, if_neg handler.2.1]
        exact told
    · rw [Function.update_of_ne other]
      exact counted.threads j below
  · change s.relieving - 1 = if s.reliefs = s.trimmed then 0 else
      1 + (s.brain.pending n + tally n Thread.owes (Function.update s.threads i th))
    rw [if_neg some_]
    omega
  · exact counted.reliefs
  · exact fun same => absurd same some_
  · intro here
    have none_ := (counted.stores here).1
    omega
  · exact counted.orders
  · exact counted.posts
  · have trims := counted.trims
    change (if s.relieving = 2 then s.trims + 1 else s.trims) + (if 2 ≤ s.relieving - 1 then 1 else 0) = s.reliefs
    rw [if_pos (by omega)] at trims
    rcases Decidable.em (s.relieving = 2) with last | more
    · rw [if_pos last, if_neg (by omega)]
      exact trims
    · rw [if_neg more, if_pos (by omega)]
      exact trims
  · have tokens := counted.tokens
    change tally n Thread.token (Function.update s.threads i th) + s.walk.token = if s.relieving - 1 = 1 then 1 else 0
    rw [if_neg (by omega)] at tokens
    rcases Decidable.em (s.relieving = 2) with last | more
    · rw [if_pos last] at token
      rw [if_pos (by omega)]
      omega
    · rw [if_neg more] at token
      rw [if_neg (by omega)]
      omega

/-- `brainstem_trimmed` lets the next relief begin. -/
theorem clear (counted : Counted n s) (inside : i < n) (at_ : (s.threads i).handler = .clears) :
    Counted n { s.goOn i .away with relieving := 0, trimmed := s.trimmed + 1 } := by
  have token : (s.threads i).token = (s.threads i).trim.toNat + 1 := by
    rw [Thread.token, at_]
    rfl
  have one := counted.relieving_eq_one inside (by omega)
  have relieving := counted.relieving
  have some_ : s.reliefs ≠ s.trimmed := by
    intro same
    rw [if_pos same] at relieving
    omega
  rw [if_neg some_] at relieving
  have more := counted.reliefs.resolve_left some_
  set th : Thread := { s.threads i with handler := .away } with th_eq
  have owes : th.owes = (s.threads i).owes := by
    rw [Thread.owes, Thread.owes, at_]
    rfl
  have passed := tally_update inside Thread.token s.threads th
  have token_ : th.token = (s.threads i).trim.toNat := rfl
  constructor
  · intro j below
    have fair := counted.threads j below
    have part := le_tally below Thread.owes s.threads
    change (Function.update s.threads i th j).Fair s.brain j s.reliefs (s.trimmed + 1)
    have done : s.trimmed + 1 ≤ (s.threads j).ends := by
      have ends := fair.ends
      have none_ : s.brain.owes j = 0 := by
        have pending : s.brain.pending n = 0 := by omega
        cases brain : s.brain with
        | orders k =>
          rw [brain] at pending
          change n - k = 0 at pending
          exact if_neg (by omega)
        | posts k =>
          rw [brain] at pending
          change n - (k + 1) = 0 at pending
          exact if_neg (by omega)
        | _ => rfl
      omega
    rcases eq_or_ne j i with rfl | other
    · rw [Function.update_self]
      refine ⟨?_, fair.starts, done, fair.ready, ?_⟩
      · rw [owes]
        exact fair.ends
      · have told := fair.told
        rw [Thread.told, at_, if_neg nofun] at told
        exact told
    · rw [Function.update_of_ne other]
      exact ⟨fair.ends, fair.starts, done, fair.ready, fair.told⟩
  · exact (if_pos more).symm
  · exact .inl more
  · intro _
    change s.brain.pending n + tally n Thread.owes (Function.update s.threads i th) = 0
    rw [tally_update_eq owes]
    omega
  · intro here
    have none_ := (counted.stores here).1
    omega
  · exact counted.orders
  · exact counted.posts
  · have trims := counted.trims
    rw [one, if_neg (by omega)] at trims
    exact trims
  · have tokens := counted.tokens
    rw [if_pos one] at tokens
    change tally n Thread.token (Function.update s.threads i th) + s.walk.token = 0
    omega

/-- `askai_keep_relieved` of the last loop readies the trim. -/
theorem take (counted : Counted n s) (inside : i < n) (at_ : (s.threads i).handler = .takes)
    (tops : Option Block) (taken : List Block) : Counted n
      { s.setThread i ((s.threads i).take tops taken) with tops := none, stack := [] } := by
  have fair := counted.threads i inside
  have token : (s.threads i).token = (s.threads i).trim.toNat + 1 := by
    rw [Thread.token, at_]
    rfl
  have single := counted.token_le inside
  have owes : ((s.threads i).take tops taken).owes = (s.threads i).owes := by
    rw [Thread.owes, Thread.owes, at_]
    rfl
  refine counted.move inside rfl rfl rfl rfl rfl rfl ⟨?_, fair.starts, fair.done, fair.ready, ?_⟩ owes ?_
  · rw [owes]
    exact fair.ends
  · have told := fair.told
    rw [Thread.told, at_, if_neg nofun] at told
    exact told
  · change 1 + 0 + s.walk.token = (s.threads i).token + s.walk.token
    omega

/-- `askai_keep_trim` is done with the blocks. -/
theorem trim (counted : Counted n s) (inside : i < n) (away : (s.threads i).handler = .away)
    (ready : (s.threads i).trim = true) {handler : Handler} (ends : handler.ends = 0)
    (trims : handler.trims = 1) (after : handler ≠ .obeys) :
    Counted n (s.setThread i { s.threads i with trim := false, handler }) := by
  have fair := counted.threads i inside
  have owes : Thread.owes { s.threads i with trim := false, handler } = (s.threads i).owes := by
    rw [Thread.owes, Thread.owes, away]
    change _ + _ + handler.ends = _
    rw [ends]
    rfl
  refine counted.move inside rfl rfl rfl rfl rfl rfl ⟨?_, fair.starts, fair.done, fair.ready, ?_⟩ owes ?_
  · rw [owes]
    exact fair.ends
  · have told := fair.told
    rw [Thread.told, away, if_neg nofun] at told
    rw [Thread.told]
    change (s.threads i).posts + (if handler = .obeys then 1 else 0) + _ = _
    rw [if_neg after]
    exact told
  · rw [Thread.token, Thread.token, away, ready]
    change 0 + handler.trims + s.walk.token = 1 + 0 + s.walk.token
    rw [trims]

/-- A trim in hand leaves no walk under way. -/
theorem walk_idle (counted : Counted n s) (inside : i < n) (token : (s.threads i).token ≠ 0) : s.walk.token = 0 := by
  have one := counted.relieving_eq_one inside token
  have part := le_tally inside Thread.token s.threads
  have tokens := counted.tokens
  rw [if_pos one] at tokens
  omega

/-- At most one thread has the trim. -/
theorem token_unique (counted : Counted n s) {j : Nat} (inside : i < n) (inside' : j < n)
    (token : (s.threads i).token ≠ 0) (token' : (s.threads j).token ≠ 0) : i = j := by
  apply Decidable.byContradiction
  intro other
  have one := counted.relieving_eq_one inside token
  have tokens := counted.tokens
  rw [if_pos one] at tokens
  -- Without the one's trim, the other's still counts.
  have passed := tally_update inside Thread.token s.threads {}
  have part := le_tally inside' Thread.token (Function.update s.threads i {})
  rw [Function.update_of_ne (Ne.symm other)] at part
  change _ = _ + 0 at passed
  omega

/-- The walk of the arenas goes on. -/
theorem walks (counted : Counted n s) {walk : Walk} (token : walk.token = s.walk.token) :
    Counted n { s with walk } := by
  have tokens := counted.tokens
  rw [← token] at tokens
  exact ⟨counted.threads, counted.relieving, counted.reliefs, counted.still, counted.stores,
    counted.orders, counted.posts, counted.trims, tokens⟩

/-! ## Every step -/

theorem init : Counted n {} := by
  have owes : tally n Thread.owes (fun _ => {}) = 0 := tally_eq_zero _ _ fun _ _ => rfl
  have token : tally n Thread.token (fun _ => {}) = 0 := tally_eq_zero _ _ fun _ _ => rfl
  constructor
  · intro i _
    exact ⟨rfl, rfl, Nat.le_refl _, fun some_ => absurd rfl some_, rfl⟩
  · rfl
  · exact .inl rfl
  · intro _
    change 0 + _ = 0
    rw [owes]
  · nofun
  · nofun
  · exact fun j some_ => absurd rfl some_
  · rfl
  · exact token

theorem step {e : Event} (counted : Counted n s) (step : Step n s e t) : Counted n t := by
  cases step with
  | sample full due rests =>
    refine counted.brain rfl rfl rfl rfl rfl rfl ?_ ?_ ?_ ?_ ?_ ?_
    all_goals
      dsimp only
      try rw [rests]
      split <;> simp [Brain.pending, Brain.owes, Brain.posting]
  | check at_ =>
    refine counted.brain rfl rfl rfl rfl rfl rfl ?_ ?_ ?_ ?_ ?_ ?_
    all_goals
      dsimp only
      try rw [at_]
      split
    all_goals simp [Brain.pending, Brain.owes, Brain.posting]
    omega
  | store at_ => exact counted.store at_
  | order at_ inside => exact counted.order at_ inside
  | @post i at_ => 
      have inside := counted.posts i (by rw [at_]; simp [Brain.posting])
      apply counted.post
      · rw [at_]
        exact if_pos rfl
      · intro j other
        rw [at_]
        exact if_neg (Ne.symm other)
      · rw [at_]
        rfl
      · intro j
        rw [at_]
        rfl
      · intro j
        rfl
      · nofun
      · rintro j ⟨⟩
        exact inside
  | ordered at_ =>
    refine counted.brain rfl rfl rfl rfl rfl rfl ?_ ?_ ?_ ?_ ?_ ?_
    · rw [at_]
      exact (Nat.sub_self n).symm
    · intro j below
      rw [at_]
      exact (if_neg (by omega)).symm
    · intro j _
      rw [at_]
      rfl
    · nofun
    · nofun
    · exact fun j some_ => absurd rfl some_
  | orderOther rests inside => exact counted.orderOther rests inside
  | @postOther i at_ =>
    apply counted.post
    · rw [at_]
      exact if_pos rfl
    · intro j other
      rw [at_]
      exact if_neg (Ne.symm other)
    · rw [at_]
      rfl
    · intro j
      rw [at_]
      rfl
    · intro j
      rfl
    · nofun
    · nofun
  | deliver inside away posted => exact counted.deliver inside away posted
  | obey inside at_ => exact counted.obey inside at_
  | release some_ inside _ _ _ phase => exact counted.release inside some_ phase
  | @finish i b inside away _ phase _ =>
    have before := phase.elim (fun here => by rw [here]; nofun) And.right
    have done := counted.finish inside away (Eq.refl (Handler.pushes b).ends) rfl nofun before
    exact ⟨done.threads, done.relieving, done.reliefs, done.still, done.stores, done.orders,
      done.posts, done.trims, done.tokens⟩
  | finishBare inside away _ phase =>
    have before := phase.elim (fun here => by rw [here]; nofun) And.right
    exact counted.finish inside away rfl rfl nofun before
  | @reliefIdle i inside _ _ phase =>
    have fair := counted.threads i inside
    refine counted.move inside rfl rfl rfl rfl rfl rfl ?_ rfl rfl
    exact ⟨fair.ends, fair.starts, fair.done, fun some_ => absurd phase some_, fair.told⟩
  | @load i b inside at_ =>
    exact counted.goOn inside (.links b s.tops) at_ rfl rfl rfl rfl rfl rfl rfl rfl nofun nofun
  | @link i b head inside at_ =>
    exact counted.goOn inside (.swaps b head) at_ rfl rfl rfl rfl rfl rfl rfl rfl nofun nofun
  | swap inside at_ _ =>
    exact counted.goOn inside .adds at_ rfl rfl rfl rfl rfl rfl rfl rfl nofun nofun
  | @miss i b head inside at_ =>
    exact counted.goOn inside (.links b s.tops) at_ rfl rfl rfl rfl rfl rfl rfl rfl nofun nofun
  | add bytes inside at_ =>
    exact counted.goOn inside .subtracts at_ rfl rfl rfl rfl rfl rfl rfl rfl nofun nofun
  | subtract inside at_ => exact counted.subtract inside at_
  | take inside at_ => exact counted.take inside at_ _ _
  | @pop i b inside _ ready _ =>
    have fair := counted.threads i inside
    refine counted.move inside rfl rfl rfl rfl rfl rfl ?_ rfl rfl
    exact ⟨fair.ends, fair.starts, fair.done, fair.ready, fair.told⟩
  | trim inside away ready _ =>
    apply counted.trim inside away ready <;> split
    all_goals first | rfl | nofun
  | @submit i inside at_ =>
    have idle := counted.walk_idle inside (by rw [Thread.token, at_]; exact Nat.succ_ne_zero _)
    refine counted.goOn inside .away at_ rfl rfl rfl rfl rfl rfl rfl ?_ nofun nofun
    rw [idle]
    rfl
  | walkHere inside at_ =>
    exact counted.goOn inside .exchanges at_ rfl rfl rfl rfl rfl rfl rfl rfl nofun nofun
  | walkBegin at_ | walkEnd at_ | walkCancel at_ =>
    apply counted.walks
    rw [at_]
    rfl
  | walkDone inside away at_ =>
    refine counted.goOn inside .exchanges away rfl rfl rfl rfl rfl rfl rfl ?_ nofun nofun
    rw [at_]
    rfl
  | exchange inside at_ =>
    exact counted.goOn inside .clears at_ rfl rfl rfl rfl rfl rfl rfl rfl nofun nofun
  | clear inside at_ => exact counted.clear inside at_

end Counted

end Askai.Relief
