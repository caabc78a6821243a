import Askai.Relief.Shares

/-!
# The blocks for the trim

Each share leaves a block on the shared stack; the last loop of all takes the stack, and its trim
frees every block of it, once.
-/

namespace Askai.Relief

open Library

variable {n i : Nat} {s t : State} {th : Thread} {b c : Block} {head : Option Block}

/-- The block that the thread is about to push. -/
def Handler.block : Handler → List Block
  | .pushes b | .links b _ | .swaps b _ => [b]
  | _ => []

/-- How often the block is the thread's. -/
def Thread.owns (b : Block) (t : Thread) : Nat :=
  t.taken.count b + t.handler.block.count b

/-- How often the thread has taken the block. -/
def Thread.takes (b : Block) (t : Thread) : Nat :=
  t.taken.count b

/-- What holds of the blocks. -/
structure Stacked (n : Nat) (s : State) : Prop where
  stack : Chain s.next s.tops s.stack
  taken : ∀ i < n, Chain s.next (s.threads i).tops (s.threads i).taken
  links : ∀ i < n, ∀ b head, (s.threads i).handler = .swaps b head → s.next b = head
  alloc : ∀ b, s.stack.count b + tally n (Thread.owns b) s.threads = (s.alloc b).toNat
  freed : ∀ b, s.freed b + s.stack.count b + tally n (Thread.takes b) s.threads = s.pushed b
  trims : ∀ i < n, (s.threads i).taken ≠ [] → (s.threads i).trim = true
  left : s.stack ≠ [] → 2 ≤ s.relieving ∨ ∃ i < n, (s.threads i).handler = .takes

namespace Stacked

theorem init : Stacked n {} := by
  have owns : ∀ b, tally n (Thread.owns b) (fun _ => {}) = 0 :=
    fun _ => tally_eq_zero _ _ fun _ _ => rfl
  have takes : ∀ b, tally n (Thread.takes b) (fun _ => {}) = 0 :=
    fun _ => tally_eq_zero _ _ fun _ _ => rfl
  constructor
  · exact rfl
  · exact fun _ _ => rfl
  · intro i _ b head at_
    cases at_
  · intro b
    exact congrArg (0 + ·) (owns b)
  · intro b
    exact congrArg (0 + 0 + ·) (takes b)
  · exact fun _ _ some_ => absurd rfl some_
  · exact fun some_ => absurd rfl some_

/-- A thread's block is no other's. -/
theorem owns_le (stacked : Stacked n s) (inside : i < n) (b : Block) :
    s.stack.count b + (s.threads i).owns b ≤ (s.alloc b).toNat := by
  have alloc := stacked.alloc b
  have part := le_tally inside (Thread.owns b) s.threads
  omega

/-- The block in a thread's hand is no other's. -/
theorem hand_unique {j : Nat} (stacked : Stacked n s) (inside : i < n) (below : j < n)
    (other : j ≠ i) (block : (s.threads i).handler.block = [b]) : (s.threads j).owns b = 0 := by
  have alloc := stacked.alloc b
  have bound := (s.alloc b).toNat_le
  have mine : (s.threads i).owns b = (s.threads i).taken.count b + 1 := by
    rw [Thread.owns, block, List.count_singleton_self]
  -- Without the thread's own, the other's still counts.
  have less := tally_update inside (Thread.owns b) s.threads {}
  have yours := le_tally below (Thread.owns b) (Function.update s.threads i {})
  rw [Function.update_of_ne other] at yours
  change _ = _ + 0 at less
  omega

/-- The block in a thread's hand is on no stack. -/
theorem hand (stacked : Stacked n s) (inside : i < n) (block : (s.threads i).handler.block = [b]) :
    b ∉ s.stack ∧ ∀ j < n, b ∉ (s.threads j).taken := by
  have bound := (s.alloc b).toNat_le
  have mine : (s.threads i).owns b = (s.threads i).taken.count b + 1 := by
    rw [Thread.owns, block, List.count_singleton_self]
  have part := stacked.owns_le inside b
  constructor
  · apply List.count_eq_zero.mp
    omega
  · intro j below
    apply List.count_eq_zero.mp
    rcases eq_or_ne j i with rfl | other
    · omega
    · have none_ := stacked.hand_unique inside below other block
      rw [Thread.owns] at none_
      omega

/-- The blocks that a thread has taken are freed by its trim, also after a step. -/
theorem trims_update (stacked : Stacked n s) (trims : i < n → th.taken ≠ [] → th.trim = true) :
    ∀ j < n, (Function.update s.threads i th j).taken ≠ [] → (Function.update s.threads i th j).trim = true := by
  apply (Function.forall_update_iff s.threads fun j u => j < n → u.taken ≠ [] → u.trim = true).mpr
  exact ⟨trims, fun j _ below => stacked.trims j below⟩

/-- The thread that is about to take the stack is still, after a step of another. -/
theorem left_update (takes : (s.threads i).handler = .takes → th.handler = .takes)
    (left : ∃ j < n, (s.threads j).handler = .takes) :
    ∃ j < n, (Function.update s.threads i th j).handler = .takes := by
  obtain ⟨j, below, at_⟩ := left
  refine ⟨j, below, ?_⟩
  rcases eq_or_ne j i with rfl | other
  · rw [Function.update_self]
    exact takes at_
  · rw [Function.update_of_ne other]
    exact at_

/-- A thread with no block in hand or taken changes nothing else of the blocks. -/
theorem move (stacked : Stacked n s) (threads : t.threads = Function.update s.threads i th)
    (tops : t.tops = s.tops) (stack : t.stack = s.stack) (next_ : t.next = s.next)
    (alloc : t.alloc = s.alloc) (pushed : t.pushed = s.pushed) (freed : t.freed = s.freed)
    (tops_ : th.tops = (s.threads i).tops) (taken : th.taken = (s.threads i).taken)
    (block : th.handler.block = (s.threads i).handler.block)
    (links : ∀ b head, th.handler = .swaps b head → (s.threads i).handler = .swaps b head)
    (trims : i < n → th.taken ≠ [] → th.trim = true)
    (left : 2 ≤ s.relieving → 2 ≤ t.relieving ∨ i < n ∧ th.handler = .takes)
    (takes : (s.threads i).handler = .takes → th.handler = .takes) : Stacked n t := by
  have owns : ∀ b, th.owns b = (s.threads i).owns b := by
    intro b
    rw [Thread.owns, Thread.owns, taken, block]
  have took : ∀ b, th.takes b = (s.threads i).takes b := by
    intro b
    rw [Thread.takes, Thread.takes, taken]
  constructor
  · rw [next_, tops, stack]
    exact stacked.stack
  · intro j below
    rw [next_, threads, update_apply_eq Thread.tops tops_, update_apply_eq Thread.taken taken]
    exact stacked.taken j below
  · intro j below b head at_
    rw [threads] at at_
    rw [next_]
    rcases eq_or_ne j i with rfl | other
    · rw [Function.update_self] at at_
      exact stacked.links j below b head (links b head at_)
    · rw [Function.update_of_ne other] at at_
      exact stacked.links j below b head at_
  · intro b
    rw [stack, threads, alloc, tally_update_eq (owns b)]
    exact stacked.alloc b
  · intro b
    rw [freed, stack, threads, pushed, tally_update_eq (took b)]
    exact stacked.freed b
  · rw [threads]
    exact stacked.trims_update trims
  · intro some_
    rw [stack] at some_
    rw [threads]
    rcases stacked.left some_ with shares | left_
    · rcases left shares with shares | ⟨below, at_⟩
      · exact .inl shares
      · refine .inr ⟨i, below, ?_⟩
        rw [Function.update_self]
        exact at_
    · exact .inr (left_update takes left_)

/-- A thread goes on to another handler, with the block that it has in hand. -/
theorem goOn (stacked : Stacked n s) {old : Handler} (at_ : (s.threads i).handler = old)
    (threads : t.threads = Function.update s.threads i th)
    (tops : t.tops = s.tops) (stack : t.stack = s.stack) (next_ : t.next = s.next)
    (alloc : t.alloc = s.alloc) (pushed : t.pushed = s.pushed) (freed : t.freed = s.freed)
    (tops_ : th.tops = (s.threads i).tops) (taken : th.taken = (s.threads i).taken)
    (block : th.handler.block = old.block) (swaps : ∀ b head, th.handler ≠ .swaps b head)
    (trims : i < n → th.taken ≠ [] → th.trim = true)
    (left : 2 ≤ s.relieving → 2 ≤ t.relieving ∨ i < n ∧ th.handler = .takes) (takes : old ≠ .takes) : Stacked n t := by
  rw [← at_] at block takes
  exact stacked.move threads tops stack next_ alloc pushed freed tops_ taken block
    (fun b head here => absurd here (swaps b head)) trims left fun here => absurd here takes

/-- A step that leaves the threads alone. -/
theorem same (stacked : Stacked n s) (threads : t.threads = s.threads) (tops : t.tops = s.tops)
    (stack : t.stack = s.stack) (next_ : t.next = s.next) (alloc : t.alloc = s.alloc)
    (pushed : t.pushed = s.pushed) (freed : t.freed = s.freed)
    (left : 2 ≤ s.relieving → 2 ≤ t.relieving) : Stacked n t := by
  constructor
  · rw [next_, tops, stack]
    exact stacked.stack
  · rw [next_, threads]
    exact stacked.taken
  · rw [next_, threads]
    exact stacked.links
  · rw [stack, threads, alloc]
    exact stacked.alloc
  · rw [freed, stack, threads, pushed]
    exact stacked.freed
  · rw [threads]
    exact stacked.trims
  · rw [stack, threads]
    exact fun some_ => (stacked.left some_).imp_left left

/-! ## The steps that move a block -/

theorem finish (stacked : Stacked n s) (inside : i < n) (away : (s.threads i).handler = .away)
    (fresh : s.alloc b = false) : Stacked n ((s.setThread i ((s.threads i).finish (.pushes b))).malloc b) := by
  set th := (s.threads i).finish (.pushes b) with th_eq
  have owns : ∀ c, th.owns c = (s.threads i).owns c + if b = c then 1 else 0 := by
    intro c
    rw [Thread.owns, Thread.owns, away]
    change (s.threads i).taken.count c + [b].count c = (s.threads i).taken.count c + 0 + _
    rw [List.count_singleton]
    simp
  constructor
  · exact stacked.stack
  · intro j below
    change Chain s.next (Function.update s.threads i th j).tops (Function.update s.threads i th j).taken
    rw [update_apply_eq Thread.tops (by rfl), update_apply_eq Thread.taken (by rfl)]
    exact stacked.taken j below
  · intro j below c head at_
    change (Function.update s.threads i th j).handler = _ at at_
    rcases eq_or_ne j i with rfl | other
    · rw [Function.update_self] at at_
      cases at_
    · rw [Function.update_of_ne other] at at_
      exact stacked.links j below c head at_
  · intro c
    have alloc := stacked.alloc c
    have total := tally_update inside (Thread.owns c) s.threads th
    change s.stack.count c + tally n (Thread.owns c) (Function.update s.threads i th) =
      (Function.update s.alloc b true c).toNat
    rw [owns] at total
    rcases eq_or_ne b c with rfl | other
    · rw [Function.update_self]
      rw [if_pos rfl] at total
      rw [fresh] at alloc
      change _ = 0 at alloc
      change _ = 1
      omega
    · rw [Function.update_of_ne (Ne.symm other)]
      rw [if_neg other] at total
      omega
  · intro c
    change s.freed c + s.stack.count c + tally n (Thread.takes c) (Function.update s.threads i th) = _
    rw [tally_update_eq (show th.takes c = (s.threads i).takes c from rfl)]
    exact stacked.freed c
  · exact stacked.trims_update (stacked.trims i)
  · intro some_
    refine (stacked.left some_).imp_right (left_update ?_)
    rw [away]
    nofun

/-- What an address outside of the stacks leads to may change. -/
theorem link (stacked : Stacked n s) (inside : i < n) (at_ : (s.threads i).handler = .links b head) :
    Stacked n { s.goOn i (.swaps b head) with next := Function.update s.next b head } := by
  have block : (s.threads i).handler.block = [b] := by rw [at_]; rfl
  obtain ⟨outside, untaken⟩ := stacked.hand inside block
  set th : Thread := { s.threads i with handler := .swaps b head } with th_eq
  have owns : ∀ c, th.owns c = (s.threads i).owns c := by
    intro c
    rw [Thread.owns, Thread.owns, at_]
    rfl
  constructor
  · exact stacked.stack.update outside
  · intro j below
    change Chain _ (Function.update s.threads i th j).tops (Function.update s.threads i th j).taken
    rw [update_apply_eq Thread.tops (by rfl), update_apply_eq Thread.taken (by rfl)]
    exact (stacked.taken j below).update (untaken j below)
  · intro j below c mark there
    change (Function.update s.threads i th j).handler = _ at there
    change Function.update s.next b head c = mark
    rcases eq_or_ne j i with rfl | other
    · rw [Function.update_self] at there
      cases there
      exact Function.update_self ..
    · rw [Function.update_of_ne other] at there
      have apart : c ≠ b := by
        rintro rfl
        have none_ := stacked.hand_unique inside below other block
        rw [Thread.owns, there] at none_
        change _ + [c].count c = 0 at none_
        rw [List.count_singleton_self] at none_
        omega
      rw [Function.update_of_ne apart]
      exact stacked.links j below c mark there
  · intro c
    change s.stack.count c + tally n (Thread.owns c) (Function.update s.threads i th) = _
    rw [tally_update_eq (owns c)]
    exact stacked.alloc c
  · intro c
    change s.freed c + s.stack.count c + tally n (Thread.takes c) (Function.update s.threads i th) = _
    rw [tally_update_eq (show th.takes c = (s.threads i).takes c from rfl)]
    exact stacked.freed c
  · exact stacked.trims_update (stacked.trims i)
  · intro some_
    refine (stacked.left some_).imp_right (left_update ?_)
    rw [at_]
    nofun

/-- The block is on top of the stack. -/
theorem swap (stacked : Stacked n s) (counted : Counted n s) (inside : i < n)
    (at_ : (s.threads i).handler = .swaps b head) (same : s.tops = head) : Stacked n
      { s.goOn i .adds with
        tops := some b
        stack := b :: s.stack
        pushed := Function.update s.pushed b (s.pushed b + 1) } := by
  have shares : 2 ≤ s.relieving := by
    apply counted.two_le inside
    rw [Thread.owes, at_]
    exact Nat.succ_ne_zero _
  set th : Thread := { s.threads i with handler := .adds } with th_eq
  have owns : ∀ c, (s.threads i).owns c = th.owns c + if b = c then 1 else 0 := by
    intro c
    rw [Thread.owns, Thread.owns, at_]
    change (s.threads i).taken.count c + [b].count c = (s.threads i).taken.count c + 0 + _
    rw [List.count_singleton]
    simp
  have more : ∀ c, (b :: s.stack).count c = s.stack.count c + if b = c then 1 else 0 := by
    intro c
    rw [List.count_cons]
    simp
  constructor
  · refine ⟨rfl, ?_⟩
    change Chain s.next (s.next b) s.stack
    rw [stacked.links i inside b head at_, ← same]
    exact stacked.stack
  · intro j below
    change Chain s.next (Function.update s.threads i th j).tops (Function.update s.threads i th j).taken
    rw [update_apply_eq Thread.tops (by rfl), update_apply_eq Thread.taken (by rfl)]
    exact stacked.taken j below
  · intro j below c mark there
    change (Function.update s.threads i th j).handler = _ at there
    rcases eq_or_ne j i with rfl | other
    · rw [Function.update_self] at there
      cases there
    · rw [Function.update_of_ne other] at there
      exact stacked.links j below c mark there
  · intro c
    have alloc := stacked.alloc c
    have total := tally_update inside (Thread.owns c) s.threads th
    change (b :: s.stack).count c + tally n (Thread.owns c) (Function.update s.threads i th) = _
    rw [owns] at total
    rw [more]
    change _ = (s.alloc c).toNat
    omega
  · intro c
    have freed := stacked.freed c
    change s.freed c + (b :: s.stack).count c + tally n (Thread.takes c) (Function.update s.threads i th) =
        Function.update s.pushed b (s.pushed b + 1) c
    rw [tally_update_eq (show th.takes c = (s.threads i).takes c from rfl), more]
    rcases eq_or_ne b c with rfl | other
    · rw [Function.update_self, if_pos rfl]
      omega
    · rw [Function.update_of_ne (Ne.symm other), if_neg other]
      omega
  · exact stacked.trims_update (stacked.trims i)
  · exact fun _ => .inl shares

/-- The last loop takes every block. -/
theorem take (stacked : Stacked n s) (counted : Counted n s) (inside : i < n) (at_ : (s.threads i).handler = .takes) :
    Stacked n { s.setThread i ((s.threads i).take s.tops s.stack) with tops := none, stack := [] } := by
  have none_ : (s.threads i).taken = [] := by
    apply Decidable.byContradiction
    intro some_
    -- Its trim would be a second.
    have single := counted.token_le inside
    rw [Thread.token, stacked.trims i inside some_, at_] at single
    change 1 + 1 ≤ 1 at single
    omega
  set th := (s.threads i).take s.tops s.stack with th_eq
  have takes : ∀ c, th.takes c = (s.threads i).takes c + s.stack.count c := by
    intro c
    rw [Thread.takes, Thread.takes, none_]
    exact (Nat.zero_add _).symm
  have owns : ∀ c, th.owns c = (s.threads i).owns c + s.stack.count c := by
    intro c
    have took := takes c
    rw [Thread.owns, Thread.owns, at_]
    exact took
  constructor
  · exact rfl
  · apply (Function.forall_update_iff s.threads fun j u => j < n → Chain s.next u.tops u.taken).mpr
    exact ⟨fun _ => stacked.stack, fun j _ below => stacked.taken j below⟩
  · intro j below c mark there
    change (Function.update s.threads i th j).handler = _ at there
    rcases eq_or_ne j i with rfl | other
    · rw [Function.update_self] at there
      cases there
    · rw [Function.update_of_ne other] at there
      exact stacked.links j below c mark there
  · intro c
    have alloc := stacked.alloc c
    have total := tally_update inside (Thread.owns c) s.threads th
    change 0 + tally n (Thread.owns c) (Function.update s.threads i th) = (s.alloc c).toNat
    rw [owns] at total
    omega
  · intro c
    have freed := stacked.freed c
    have total := tally_update inside (Thread.takes c) s.threads th
    change s.freed c + 0 + tally n (Thread.takes c) (Function.update s.threads i th) = s.pushed c
    rw [takes] at total
    omega
  · exact stacked.trims_update fun _ _ => rfl
  · exact fun some_ => absurd rfl some_

/-- The trim frees the block on top of those taken. -/
theorem pop (stacked : Stacked n s) (inside : i < n) (away : (s.threads i).handler = .away)
    (ready : (s.threads i).trim = true) (block : (s.threads i).tops = some b) : Stacked n ((s.setThread i
      { s.threads i with tops := s.next b, taken := (s.threads i).taken.tail }).free b) := by
  have chain := stacked.taken i inside
  rw [block] at chain
  obtain ⟨rest, taken, chain⟩ := Chain.some_iff.mp chain
  set th : Thread := { s.threads i with tops := s.next b, taken := (s.threads i).taken.tail } with th_eq
  have rest_eq : th.taken = rest := by
    rw [th_eq, taken]
    rfl
  have takes : ∀ c, (s.threads i).takes c = th.takes c + if b = c then 1 else 0 := by
    intro c
    rw [Thread.takes, Thread.takes, taken, rest_eq, List.count_cons]
    simp
  have owns : ∀ c, (s.threads i).owns c = th.owns c + if b = c then 1 else 0 := by
    intro c
    have took := takes c
    rw [Thread.owns, Thread.owns, away]
    exact took
  constructor
  · exact stacked.stack
  · apply (Function.forall_update_iff s.threads fun j u => j < n → Chain s.next u.tops u.taken).mpr
    refine ⟨fun _ => ?_, fun j _ below => stacked.taken j below⟩
    rw [rest_eq]
    exact chain
  · intro j below c mark there
    change (Function.update s.threads i th j).handler = _ at there
    rw [update_apply_eq Thread.handler (by rfl)] at there
    exact stacked.links j below c mark there
  · intro c
    have alloc := stacked.alloc c
    have bound := (s.alloc c).toNat_le
    have total := tally_update inside (Thread.owns c) s.threads th
    change s.stack.count c + tally n (Thread.owns c) (Function.update s.threads i th) =
      (Function.update s.alloc b false c).toNat
    rw [owns] at total
    rcases eq_or_ne b c with rfl | other
    · rw [Function.update_self]
      rw [if_pos rfl] at total
      change _ = 0
      omega
    · rw [Function.update_of_ne (Ne.symm other)]
      rw [if_neg other] at total
      omega
  · intro c
    have freed := stacked.freed c
    have total := tally_update inside (Thread.takes c) s.threads th
    change Function.update s.freed b (s.freed b + 1) c + s.stack.count c +
      tally n (Thread.takes c) (Function.update s.threads i th) = s.pushed c
    rw [takes] at total
    rcases eq_or_ne b c with rfl | other
    · rw [Function.update_self]
      rw [if_pos rfl] at total
      omega
    · rw [Function.update_of_ne (Ne.symm other)]
      rw [if_neg other] at total
      omega
  · exact stacked.trims_update fun _ _ => ready
  · intro some_
    refine (stacked.left some_).imp_right (left_update ?_)
    exact id

/-! ## Every step -/

theorem step {e : Event} (stacked : Stacked n s) (counted : Counted n s) (step : Step n s e t) : Stacked n t := by
  cases step with
  | sample | check | ordered | walkBegin | walkEnd | walkCancel =>
    exact stacked.same rfl rfl rfl rfl rfl rfl rfl id
  | store at_ =>
    have some_ := (counted.stores at_).2
    exact stacked.same rfl rfl rfl rfl rfl rfl rfl fun _ => Nat.succ_le_succ some_
  | @order i | @orderOther i | @post i | @postOther i | @release i | @reliefIdle i =>
    exact stacked.move rfl rfl rfl rfl rfl rfl rfl rfl rfl rfl (fun _ _ => id) (stacked.trims i) .inl id
  | @deliver i _ away | @finishBare i _ away | @walkDone i _ away =>
    exact stacked.goOn away rfl rfl rfl rfl rfl rfl rfl rfl rfl rfl (fun _ _ => by rintro ⟨⟩) (stacked.trims i) .inl
      (by rintro ⟨⟩)
  | @load i b _ at_ | @miss i b head _ at_ =>
    exact stacked.goOn at_ rfl rfl rfl rfl rfl rfl rfl rfl rfl rfl (by simp) (stacked.trims i) .inl (by simp)
  | @add i _ _ at_ | @submit i _ at_ | @walkHere i _ at_ | @exchange i _ at_ =>
    exact stacked.goOn at_ rfl rfl rfl rfl rfl rfl rfl rfl rfl rfl (by simp) (stacked.trims i) .inl (by simp)
  | @obey i _ at_ =>
    have obeyed : (s.threads i).obey.handler = .away ∧ (s.threads i).obey.tops = (s.threads i).tops ∧
        (s.threads i).obey.taken = (s.threads i).taken ∧
        (s.threads i).obey.trim = (s.threads i).trim := by
      rw [Thread.obey]
      split <;> exact ⟨rfl, rfl, rfl, rfl⟩
    obtain ⟨away, tops, taken, trim⟩ := obeyed
    refine stacked.goOn at_ rfl rfl rfl rfl rfl rfl rfl tops taken ?_ ?_ ?_ ?_ ?_
    · rw [away]
      rfl
    · rw [away]
      simp
    · rw [taken, trim]
      exact stacked.trims i
    · exact .inl
    · simp
  | finish inside away _ _ fresh => exact stacked.finish inside away fresh
  | link inside at_ => exact stacked.link inside at_
  | swap inside at_ same => exact stacked.swap counted inside at_ same
  | @subtract i inside at_ =>
    refine stacked.goOn at_ rfl rfl rfl rfl rfl rfl rfl rfl rfl ?_ ?_ ?_ ?_ ?_
    · rw [Thread.subtract]
      dsimp only
      split <;> rfl
    · rw [Thread.subtract]
      dsimp only
      split <;> simp
    · exact stacked.trims i
    · intro shares
      change 2 ≤ s.relieving - 1 ∨ _
      rcases Nat.eq_or_lt_of_le shares with two | more
      · refine .inr ⟨inside, ?_⟩
        rw [← two]
        rfl
      · exact .inl (by omega)
    · simp
  | take inside at_ => exact stacked.take counted inside at_
  | pop inside away ready block => exact stacked.pop inside away ready block
  | @trim i inside away _ none_ =>
    have chain := stacked.taken i inside
    rw [none_, Chain.none_iff] at chain
    refine stacked.goOn away rfl rfl rfl rfl rfl rfl rfl rfl rfl ?_ ?_ ?_ ?_ ?_
    · dsimp only
      split <;> rfl
    · dsimp only
      split <;> simp
    · exact fun _ some_ => absurd chain some_
    · exact .inl
    · simp
  | @clear i inside at_ =>
    have one := counted.relieving_eq_one inside (by rw [Thread.token, at_]; exact Nat.succ_ne_zero _)
    refine stacked.goOn at_ rfl rfl rfl rfl rfl rfl rfl rfl rfl rfl (by simp) (stacked.trims i) ?_ ?_
    · intro shares
      omega
    · simp

/-! ## The end of a relief -/

/-- As `brainstem_trimmed` is called, every block that was pushed is freed. -/
theorem freed_eq (stacked : Stacked n s) (done : s.relieving ≤ 1) (untaken : ∀ i < n, (s.threads i).handler ≠ .takes)
    (untrimmed : ∀ i < n, (s.threads i).trim = false) (b : Block) : s.freed b = s.pushed b := by
  have stack : s.stack = [] := by
    apply Decidable.byContradiction
    intro some_
    rcases stacked.left some_ with shares | ⟨i, below, at_⟩
    · omega
    · exact untaken i below at_
  have taken : tally n (Thread.takes b) s.threads = 0 := by
    apply tally_eq_zero
    intro i below
    have none_ : (s.threads i).taken = [] := by
      apply Decidable.byContradiction
      intro some_
      have ready := stacked.trims i below some_
      rw [untrimmed i below] at ready
      cases ready
    rw [Thread.takes, none_]
    rfl
  have freed := stacked.freed b
  rw [stack, taken] at freed
  exact freed

end Stacked

end Askai.Relief
