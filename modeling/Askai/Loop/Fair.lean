import Askai.Loop.Steps

/-!
# Whose turn it is

The steps of a call end, the first of them starts, they come from both lists in turn, and no entry waits
long for its step.
-/

namespace Askai

open Library List

variable {S : Type*} [DecidableEq S]

namespace ReadyLoop

variable {loop : ReadyLoop (Nat → List S)} {lists : Nat → List S} {s : S} {i q : Nat}

/-! ## The steps end -/

theorem length_enqueue (other : q ≠ i) (s : S) : (plainLists.enqueue lists i s q).length = (lists q).length := by
  change (ite _ lists (Function.update lists i (lists i ++ [s])) q).length = _
  split
  · rfl
  · rw [Function.update_of_ne other]

/-- No call lengthens a batch. -/
theorem length_call (loop : ReadyLoop (Nat → List S)) (c : ReadyCall S) (batch : 3 ≤ q) :
    ((loop.call plainLists c).lists q).length ≤ (loop.lists q).length := by
  cases c with
  | ready s =>
    apply Nat.le_of_eq
    apply length_enqueue
    split <;> omega
  | readyBulk s =>
    have other : q ≠ 2 := by omega
    exact Nat.le_of_eq (length_enqueue other s)
  | unready s => exact (erase_sublist).length_le
  | exit => exact Nat.le_refl _

theorem length_calls (loop : ReadyLoop (Nat → List S)) (calls : List (ReadyCall S)) (batch : 3 ≤ q) :
    ((loop.calls plainLists calls).lists q).length ≤ (loop.lists q).length := by
  induction calls generalizing loop with
  | nil => exact Nat.le_refl _
  | cons c calls ih => exact (ih _).trans (length_call loop c batch)

/-- What the batches hold. -/
def held (loop : ReadyLoop (Nat → List S)) : Nat :=
  (loop.lists 3).length + (loop.lists 4).length

theorem held_run {l : List S} (few : i < 2) (head : loop.lists (3 + i) = s :: l) (calls : List (ReadyCall S)) :
    ((loop.loopUnready plainLists s).calls plainLists calls).held < loop.held := by
  have three := length_calls (loop.loopUnready plainLists s) calls (Nat.le_refl 3)
  have four := length_calls (loop.loopUnready plainLists s) calls (show 3 ≤ 4 by decide)
  have three' : ((loop.lists 3).erase s).length ≤ (loop.lists 3).length := (erase_sublist).length_le
  have four' : ((loop.lists 4).erase s).length ≤ (loop.lists 4).length := (erase_sublist).length_le
  change _ ≤ ((loop.lists 3).erase s).length at three
  change _ ≤ ((loop.lists 4).erase s).length at four
  rw [held, held]
  obtain rfl | rfl : i = 0 ∨ i = 1 := by omega
  · rw [head, erase_cons_head] at three
    rw [head, length_cons]
    omega
  · rw [head, erase_cons_head] at four
    rw [head, length_cons]
    omega

/-- With fuel enough, the loop of `loop_run` ends. -/
theorem runSteps_ends (did : Nat → StepDone S) (base n til : Nat) (few : n ≤ 2)
    (loop : ReadyLoop (Nat → List S)) (i empty t : Nat) (ran : List (StepRun S)) (inside : i < n) :
    ∃ result enough, ∀ fuel ≥ enough, runSteps plainLists did base n til fuel loop i empty t ran = some result := by
  induction work : loop.held * (n + 1) + (n - empty) using Nat.strong_induction_on generalizing loop i empty t ran with
  | _ work ih =>
    subst work
    have next : (i + 1) % n < n := Nat.mod_lt _ (by omega)
    by_cases goes : Goes n til loop empty t ran
    · cases head : loop.lists (3 + i) with
      | nil =>
        have less : loop.held * (n + 1) + (n - (empty + 1)) < loop.held * (n + 1) + (n - empty) := by
          have := goes.1
          omega
        obtain ⟨result, enough, ends⟩ := ih _ less loop ((i + 1) % n) (empty + 1) t ran next rfl
        refine ⟨result, enough + 1, fun fuel most => ?_⟩
        obtain ⟨fuel, rfl⟩ : ∃ fuel', fuel = fuel' + 1 := ⟨fuel - 1, by omega⟩
        have none_ : plainLists.first loop.lists (3 + i) = none := List.head?_eq_none_iff.mpr head
        rw [runSteps, if_pos goes]
        dsimp only
        rw [none_]
        exact ends fuel (by omega)
      | cons s l =>
        have less : ((loop.loopUnready plainLists s).calls plainLists (did ran.length).calls).held * (n + 1) +
            (n - 0) < loop.held * (n + 1) + (n - empty) := by
          have fewer := held_run (by omega) head (did ran.length).calls
          have := Nat.mul_le_mul_right (n + 1) (Nat.succ_le_of_lt fewer)
          rw [Nat.succ_mul] at this
          omega
        obtain ⟨result, enough, ends⟩ := ih _ less _ ((i + 1) % n) 0 (did ran.length).clock
          (ran ++ [begun plainLists did base n loop i ran.length s]) next rfl
        refine ⟨result, enough + 1, fun fuel most => ?_⟩
        obtain ⟨fuel, rfl⟩ : ∃ fuel', fuel = fuel' + 1 := ⟨fuel - 1, by omega⟩
        have some_ : plainLists.first loop.lists (3 + i) = some s := by
          change (loop.lists (3 + i)).head? = some s
          rw [head]
          rfl
        rw [runSteps, if_pos goes]
        dsimp only
        rw [some_]
        exact ends fuel (by omega)
    · refine ⟨(loop, i, ran), 1, fun fuel most => ?_⟩
      obtain ⟨fuel, rfl⟩ : ∃ fuel', fuel = fuel' + 1 := ⟨fuel - 1, by omega⟩
      rw [runSteps, if_neg goes]

/-! ## The first step -/

variable {result : ReadyLoop (Nat → List S) × Nat × List (StepRun S)}

theorem runSteps_starts {did : Nat → StepDone S} {base n til fuel t k : Nat} (inside : i < n) (within : k < n)
    (goes : loop.exit = false) (some_ : loop.lists (3 + k) ≠ [])
    (ends : runSteps plainLists did base n til fuel loop i 0 t [] = some result) : result.2.2 ≠ [] := by
  have keeps := runSteps_invariant (fun loop' i' empty _ ran => ran ≠ [] ∨ loop' = loop ∧ i' = (i + empty) % n ∧
      ∀ d < empty, loop.lists (3 + (i + d) % n) = [])
    (.inr ⟨rfl, (Nat.mod_eq_of_lt inside).symm, fun d none_ => absurd none_ (Nat.not_lt_zero d)⟩)
    ?_ ?_ ends
  · obtain ⟨empty, t', kept, stops⟩ := keeps
    rcases kept with ran | ⟨same, -, none_⟩
    · exact ran
    · intro none'
      have through : n ≤ empty := by
        by_contra more
        exact stops ⟨by omega, same ▸ goes, .inl none'⟩
      apply some_
      rcases Nat.lt_or_ge k i with before | after
      · have at_ : (i + (k + n - i)) % n = k := by
          rw [show i + (k + n - i) = k + n by omega, Nat.add_mod_right, Nat.mod_eq_of_lt within]
        rw [← at_]
        exact none_ _ (by omega)
      · have at_ : (i + (k - i)) % n = k := by
          rw [show i + (k - i) = k by omega, Nat.mod_eq_of_lt within]
        rw [← at_]
        exact none_ _ (by omega)
  · rintro loop' i' empty t' ran (already | ⟨rfl, rfl, none_⟩) _ nothing
    · exact .inl already
    · refine .inr ⟨rfl, ?_, fun d less => ?_⟩
      · rw [Nat.mod_add_mod, Nat.add_assoc]
      · rcases Nat.lt_succ_iff_lt_or_eq.mp less with before | rfl
        · exact none_ d before
        · exact nothing
  · intro loop' i' empty t' ran s l _ _ _
    exact .inl (append_ne_nil_of_right_ne_nil _ (cons_ne_nil _ _))

/-! ## Both lists in turn -/

/-- A step is from the list other than that of the step before it, unless the other batch is empty then. -/
def Alternates (ran : List (StepRun S)) : Prop :=
  ran.IsChain fun r r' => r.list ≠ r'.list ∨ r'.batch = none

omit [DecidableEq S] in
theorem alternates_concat {past : List (StepRun S)} {r' : StepRun S} (alternates : Alternates past)
    (last : ∀ r, past.getLast? = some r → r.list ≠ r'.list ∨ r'.batch = none) : Alternates (past ++ [r']) := by
  rw [Alternates, isChain_append]
  refine ⟨alternates, isChain_singleton _, fun r ends r'' begins => ?_⟩
  rw [List.head?_cons, Option.mem_some_iff] at begins
  exact begins ▸ last r ends

/-- The list that comes after that of the last step, if any. -/
def Next (i : Nat) (ran : List (StepRun S)) : Prop :=
  ∀ r, ran.getLast? = some r → r.list < 2 ∧ i ≠ r.list

theorem runSteps_alternates {did : Nat → StepDone S} {til fuel t : Nat} {past : List (StepRun S)}
    (inside : i < 2) (alternates : Alternates past) (next : Next i past)
    (ends : runSteps plainLists did 0 2 til fuel loop i 0 t [] = some result) :
    result.2.1 < 2 ∧ Alternates (past ++ result.2.2) ∧ Next result.2.1 (past ++ result.2.2) := by
  -- between two steps, the loop passes over one empty batch at most
  have keeps := runSteps_invariant (fun loop i empty t ran => i < 2 ∧ Alternates (past ++ ran) ∧
      ∀ r, (past ++ ran).getLast? = some r → r.list < 2 ∧ ((i ≠ r.list ∧ empty ≠ 1) ∨
        (i = r.list ∧ empty = 1 ∧ loop.lists (3 + (i + 1) % 2) = [] ∧ Goes 2 til loop empty t ran)))
    (by
      rw [append_nil]
      exact ⟨inside, alternates, fun r last => ⟨(next r last).1, .inl ⟨(next r last).2, by decide⟩⟩⟩)
    ?_ ?_ ends
  · obtain ⟨empty, t', ⟨inside', alternates', last⟩, stops⟩ := keeps
    refine ⟨inside', alternates', fun r ends => ?_⟩
    obtain ⟨few, ⟨other, -⟩ | ⟨-, -, -, goes⟩⟩ := last r ends
    · exact ⟨few, other⟩
    · exact absurd goes stops
  · rintro loop i empty t ran ⟨inside, alternates, last⟩ goes nothing
    refine ⟨Nat.mod_lt _ (by decide), alternates, fun r ends => ?_⟩
    obtain ⟨few, ⟨other, still⟩ | ⟨same, one, -, -⟩⟩ := last r ends
    · have zero : empty = 0 := by
        have := goes.1
        omega
      have back : ((i + 1) % 2 + 1) % 2 = i := by omega
      refine ⟨few, .inr ⟨by omega, by omega, by rw [back]; exact nothing, by omega, goes.2⟩⟩
    · exact ⟨few, .inl ⟨by omega, by omega⟩⟩
  · rintro loop i empty t ran s l ⟨inside, alternates, last⟩ _ head
    refine ⟨Nat.mod_lt _ (by decide), ?_, fun r ends => ?_⟩
    · rw [← append_assoc]
      apply alternates_concat alternates
      intro r ends
      change r.list ≠ 0 + i ∨ (loop.lists (3 + (i + 1) % 2)).head? = none
      rw [Nat.zero_add, List.head?_eq_none_iff]
      obtain ⟨-, ⟨other, -⟩ | ⟨-, -, nothing, -⟩⟩ := last r ends
      · exact .inl other.symm
      · exact .inr nothing
    · rw [← append_assoc, List.getLast?_concat] at ends
      obtain rfl := Option.some.inj ends
      change 0 + i < 2 ∧ (((i + 1) % 2 ≠ 0 + i ∧ 0 ≠ 1) ∨ _)
      exact ⟨by omega, .inl ⟨by omega, by decide⟩⟩

/-! ## How long an entry waits -/

/-- The entry is on the list, behind `p` others at most. -/
def Behind (lists : Nat → List S) (q : Nat) (s : S) (p : Nat) : Prop :=
  ∃ front back, lists q = front ++ s :: back ∧ front.length ≤ p

theorem Behind.unready {p : Nat} {x : S} (behind : Behind lists q s p) (other : x ≠ s) :
    Behind (plainLists.unready lists x) q s p := by
  obtain ⟨front, back, split, few⟩ := behind
  change ∃ front back, (lists q).erase x = _ ∧ _
  rw [split]
  by_cases before : x ∈ front
  · rw [erase_append_left _ before]
    exact ⟨front.erase x, back, rfl, (erase_sublist).length_le.trans few⟩
  · have rest : (s :: back).erase x = s :: back.erase x :=
      erase_cons_tail fun same => other (eq_of_beq same).symm
    rw [erase_append_right _ before, rest]
    exact ⟨front, back.erase x, rfl, few⟩

theorem Behind.enqueue {p : Nat} (behind : Behind lists q s p) (i : Nat) (x : S) :
    Behind (plainLists.enqueue lists i x) q s p := by
  change Behind (ite _ lists (Function.update lists i (lists i ++ [x]))) q s p
  split
  · exact behind
  · obtain ⟨front, back, split, few⟩ := behind
    rcases eq_or_ne q i with rfl | other
    · refine ⟨front, back ++ [x], ?_, few⟩
      rw [Function.update_self, split, append_assoc, cons_append]
    · refine ⟨front, back, ?_, few⟩
      rw [Function.update_of_ne other, split]

theorem Behind.call {p : Nat} (behind : Behind loop.lists q s p) {c : ReadyCall S} (spares : c.taken ≠ some s) :
    Behind (loop.call plainLists c).lists q s p := by
  cases c with
  | ready x => exact behind.enqueue _ x
  | readyBulk x => exact behind.enqueue _ x
  | unready x => exact behind.unready fun same => spares (congrArg some same)
  | exit => exact behind

theorem Behind.calls {p : Nat} {calls : List (ReadyCall S)} (behind : Behind loop.lists q s p)
    (spares : .unready s ∉ calls) : Behind (loop.calls plainLists calls).lists q s p := by
  induction calls generalizing loop with
  | nil => exact behind
  | cons c calls ih =>
    refine ih (behind.call ?_) fun later => spares (mem_cons_of_mem _ later)
    intro taken
    apply spares
    cases c with
    | unready x =>
      obtain rfl : x = s := Option.some.inj taken
      exact mem_cons_self
    | ready | readyBulk | exit => exact nomatch taken

/-- The step neither is the entry's nor takes it off its list. -/
def Spares (s : S) (r : StepRun S) : Prop :=
  r.step ≠ s ∧ .unready s ∉ r.calls

/-- The entry is on list `b` with so few before it that, with `past` steps already and the next one from
list `i`, at most `most` run before its own, from list `q`. -/
def Waiting (lists : Nat → List S) (b q : Nat) (s : S) (i past most : Nat) : Prop :=
  ∃ p, Behind lists b s p ∧ past + 2 * p + (if i = q then 0 else 1) ≤ most

omit [DecidableEq S] in
theorem Waiting.past_le {past most : Nat} (waiting : Waiting lists j q s i past most) : past ≤ most := by
  obtain ⟨p, -, room⟩ := waiting
  omega

theorem Waiting.run {x : S} {l : List S} {past most : Nat} {calls : List (ReadyCall S)} (inside : i < 2)
    (few : q < 2) (head : loop.lists (3 + i) = x :: l)
    (waiting : Waiting loop.lists (3 + q) q s i past most) (other : x ≠ s) (spares : .unready s ∉ calls) :
    Waiting ((loop.loopUnready plainLists x).calls plainLists calls).lists (3 + q) q s ((i + 1) % 2)
      (past + 1) most := by
  obtain ⟨p, behind, room⟩ := waiting
  rcases eq_or_ne i q with rfl | differs
  · -- the entry at the head of its own batch ran
    obtain ⟨front, back, split, before⟩ := behind
    rw [head] at split
    cases front with
    | nil => exact absurd (List.cons.inj split).1 other
    | cons y front =>
      obtain ⟨rfl, rest⟩ := List.cons.inj split
      rw [length_cons] at before
      have shorter : Behind (loop.loopUnready plainLists x).lists (3 + i) s front.length := by
        refine ⟨front, back, ?_, Nat.le_refl _⟩
        change (loop.lists (3 + i)).erase x = _
        rw [head, erase_cons_head, rest]
        rfl
      refine ⟨front.length, shorter.calls spares, ?_⟩
      rw [if_pos rfl] at room
      split <;> omega
  · refine ⟨p, Behind.calls (behind.unready other) spares, ?_⟩
    rw [if_neg differs] at room
    have back : (i + 1) % 2 = q := by omega
    rw [if_pos back]
    omega

/-- While no step runs the entry or takes it off its list, it waits behind fewer entries the more steps
have run. -/
theorem runSteps_waits {did : Nat → StepDone S} {til fuel t past most : Nat} (inside : i < 2)
    (few : q < 2) (waiting : Waiting loop.lists (3 + q) q s i past most)
    (ends : runSteps plainLists did 0 2 til fuel loop i 0 t [] = some result) :
    (∀ before, before <+: result.2.2 → (∀ r ∈ before, Spares s r) → past + before.length ≤ most) ∧
      ((∀ r ∈ result.2.2, Spares s r) →
        Waiting result.1.lists (3 + q) q s result.2.1 (past + result.2.2.length) most) := by
  have keeps := runSteps_invariant (fun loop i _ _ ran => i < 2 ∧
      (∀ before, before <+: ran → (∀ r ∈ before, Spares s r) → past + before.length ≤ most) ∧
      ((∀ r ∈ ran, Spares s r) → Waiting loop.lists (3 + q) q s i (past + ran.length) most))
    ⟨inside, fun before start _ => ?_, fun _ => waiting⟩ ?_ ?_ ends
  · obtain ⟨-, -, ⟨-, within, still⟩, -⟩ := keeps
    exact ⟨within, still⟩
  · rw [prefix_nil.mp start]
    exact waiting.past_le
  · rintro loop i empty t ran ⟨inside, within, still⟩ _ nothing
    refine ⟨Nat.mod_lt _ (by decide), within, fun spared => ?_⟩
    obtain ⟨p, behind, room⟩ := still spared
    refine ⟨p, behind, ?_⟩
    -- the entry's own batch is not empty
    have other : i ≠ q := by
      rintro rfl
      obtain ⟨front, back, split, -⟩ := behind
      rw [nothing] at split
      exact absurd split.symm (by simp)
    rw [if_neg other] at room
    split <;> omega
  · rintro loop i empty t ran x l ⟨inside, within, still⟩ _ head
    obtain ⟨r, rIs⟩ : ∃ r, r = begun plainLists did 0 2 loop i ran.length x := ⟨_, rfl⟩
    have onward : (∀ r' ∈ ran ++ [r], Spares s r') →
        Waiting ((loop.loopUnready plainLists x).calls plainLists (did ran.length).calls).lists (3 + q) q s
          ((i + 1) % 2) (past + (ran ++ [r]).length) most := by
      intro spared
      obtain ⟨other, spares⟩ := spared r (mem_append_right _ mem_cons_self)
      rw [rIs] at other spares
      rw [length_append, length_singleton, ← Nat.add_assoc]
      exact (still fun r' here => spared r' (mem_append_left _ here)).run inside few head other spares
    rw [← rIs]
    refine ⟨Nat.mod_lt _ (by decide), fun before start spared => ?_, onward⟩
    rcases prefix_concat_iff.mp start with rfl | start
    · exact (onward spared).past_le
    · exact within before start spared

end ReadyLoop

end Askai
