import Askai.Loop.Ready

/-!
# The hooks of the ready lists

What the loop does with hooks is what it does with plain lists, as long as each hook is on one list at
most, and is zeroed when it is on none.
-/

namespace Askai

open Library List

variable {S : Type*}

/-- The nodes of a list. -/
def hookNodes (l : List S) : List (ReadyHook S) :=
  l.map .step

theorem hookNodes_append (l l' : List S) : hookNodes (l ++ l') = hookNodes l ++ hookNodes l' :=
  map_append

/-- The hooks are threaded as the lists say. -/
structure Threads (m : Links (ReadyHook S)) (lists : Nat → List S) : Prop where
  circles : ∀ i < 5, m.Circle (.list i) (hookNodes (lists i))
  apart : ∀ i < 5, ∀ j < 5, ∀ s ∈ lists i, s ∈ lists j → i = j
  off : ∀ s, (∀ i < 5, s ∉ lists i) → m.next (.step s) = none

namespace Threads

variable {m : Links (ReadyHook S)} {lists : Nat → List S} {s : S} {i j : Nat}

theorem mem_nodes {x : S} : ReadyHook.step x ∈ ReadyHook.list i :: hookNodes (lists i) ↔ x ∈ lists i := by
  simp [hookNodes]

theorem distinct (threads : Threads m lists) (inside : i < 5) : (lists i).Nodup :=
  (nodup_cons.mp (threads.circles i inside).distinct).2.of_map

variable [DecidableEq S]

theorem hookLists_first (i : Nat) : hookLists.first m i =
    match m.next (.list i) with
    | some (.step s) => some s
    | _ => none :=
  rfl

theorem first (threads : Threads m lists) (inside : i < 5) : hookLists.first m i = plainLists.first lists i := by
  have first := (threads.circles i inside).segment.first
  change _ = (lists i).head?
  rw [hookLists_first, first, hookNodes]
  cases lists i <;> rfl

omit [DecidableEq S] in
/-- The nodes of two lists differ. -/
theorem disjoint (threads : Threads m lists) (inside : i < 5) (inside' : j < 5) (other : i ≠ j)
    {x : ReadyHook S} (member : x ∈ ReadyHook.list i :: hookNodes (lists i)) :
    x ∉ ReadyHook.list j :: hookNodes (lists j) := by
  intro member'
  cases x with
  | list k =>
    simp [hookNodes] at member member'
    exact other (member.symm.trans member')
  | step s => exact other (threads.apart i inside j inside' s (mem_nodes.mp member) (mem_nodes.mp member'))

omit [DecidableEq S] in
theorem next_none_iff (threads : Threads m lists) : m.next (.step s) = none ↔ ∀ i < 5, s ∉ lists i := by
  constructor
  · intro none_ i inside member
    exact (threads.circles i inside).segment.next_ne (mem_nodes.mpr member) none_
  · exact threads.off s

theorem enqueue (threads : Threads m lists) (inside : i < 5) (s : S) :
    Threads (hookLists.enqueue m i s) (plainLists.enqueue lists i s) := by
  have some_ : (∃ j ∈ List.range 5, s ∈ lists j) ↔ m.next (.step s) ≠ none := by
    rw [ne_eq, threads.next_none_iff]
    push Not
    simp only [mem_range]
  change Threads (if (m.next (.step s)).isNone then listAppend m (.list i) (.step s) else m)
    (if ∃ j ∈ List.range 5, s ∈ lists j then lists else Function.update lists i (lists i ++ [s]))
  split
  · next free =>
    rw [Option.isNone_iff_eq_none] at free
    rw [if_neg fun queued => some_.mp queued free]
    rw [threads.next_none_iff] at free
    have outside : ∀ j < 5, ReadyHook.step s ∉ ReadyHook.list j :: hookNodes (lists j) :=
      fun j inside member => free j inside (mem_nodes.mp member)
    rw [listAppend_eq (threads.circles i inside) (outside i inside)]
    have same : ∀ j, j ≠ i → Function.update lists i (lists i ++ [s]) j = lists j :=
      fun j other => Function.update_of_ne other _ _
    refine ⟨fun j within => ?_, ?_, ?_⟩
    · rcases eq_or_ne j i with rfl | other
      · rw [Function.update_self, hookNodes_append]
        exact (threads.circles j within).push (outside j within)
      · rw [same j other]
        apply Links.Circle.join _ (outside j within)
        · exact threads.disjoint inside within other.symm mem_cons_self
        · apply (threads.circles j within).join
          · exact threads.disjoint inside within other.symm (Links.getLastD_mem _ _)
          · exact outside j within
    · have mem : ∀ k x, x ∈ Function.update lists i (lists i ++ [s]) k → x ∈ lists k ∨ k = i ∧ x = s := by
        intro k x member
        rcases eq_or_ne k i with rfl | other
        · rw [Function.update_self] at member
          exact (mem_append.mp member).imp_right fun last => ⟨rfl, mem_singleton.mp last⟩
        · rw [same k other] at member
          exact .inl member
      intro j within k within' x member member'
      rcases mem j x member with here | ⟨rfl, rfl⟩ <;> rcases mem k x member' with there | ⟨rfl, new⟩
      · exact threads.apart j within k within' x here there
      · rw [new] at here
        exact absurd here (free j within)
      · exact absurd there (free k within')
      · rfl
    · intro x absent
      have off : ∀ k < 5, x ∉ lists k := by
        intro k within member
        apply absent k within
        rcases eq_or_ne k i with rfl | other
        · rw [Function.update_self]
          exact mem_append_left _ member
        · rwa [same k other]
      have differs : x ≠ s := by
        rintro rfl
        apply absent i inside
        rw [Function.update_self]
        exact mem_append_right _ mem_cons_self
      have last : ReadyHook.step x ≠ (hookNodes (lists i)).getLastD (.list i) := by
        intro equal
        exact off i inside (mem_nodes.mp (equal ▸ Links.getLastD_mem _ _))
      rw [Links.next_join _ _ fun equal => differs (ReadyHook.step.inj equal), Links.next_join _ _ last]
      exact threads.off x off
  · next held =>
    rw [Option.isNone_iff_eq_none] at held
    rw [if_pos (some_.mpr held)]
    exact threads

theorem unready (threads : Threads m lists) (s : S) : Threads (hookLists.unready m s) (plainLists.unready lists s) := by
  change Threads (if (m.next (.step s)).isSome then (listDel m (.step s)).clear (.step s) else m)
    fun i => (lists i).erase s
  by_cases queued : ∃ i < 5, s ∈ lists i
  · obtain ⟨i, inside, member⟩ := queued
    have held : m.next (.step s) ≠ none := fun free => threads.next_none_iff.mp free i inside member
    rw [if_pos (Option.isSome_iff_ne_none.mpr held)]
    obtain ⟨front, back, split⟩ := append_of_mem member
    have distinct := threads.distinct inside
    rw [split] at distinct
    have notFront : s ∉ front := fun here =>
      (nodup_append.mp distinct).2.2 s here s mem_cons_self rfl
    have notBack : s ∉ back := (nodup_cons.mp (nodup_append.mp distinct).2.1).1
    have erased : (lists i).erase s = front ++ back := by
      rw [split, erase_append_right _ notFront, erase_cons_head]
    have others : ∀ j < 5, j ≠ i → (lists j).erase s = lists j := by
      intro j within other
      apply erase_of_not_mem
      exact fun there => other (threads.apart j within i inside s there member)
    have circle := threads.circles i inside
    rw [split, hookNodes_append] at circle
    rw [listDel_eq circle]
    have mine : ∀ x ∈ ReadyHook.list i :: (hookNodes front ++ hookNodes back),
        x ∈ ReadyHook.list i :: hookNodes (lists i) := by
      intro x here
      rw [split, hookNodes_append]
      rcases mem_cons.mp here with rfl | here
      · exact mem_cons_self
      · apply mem_cons_of_mem
        exact (mem_append.mp here).elim (mem_append_left _)
          fun there => mem_append_right _ (mem_cons_of_mem _ there)
    have before : (hookNodes front).getLastD (.list i) ∈ ReadyHook.list i :: hookNodes (lists i) := by
      apply mine
      rcases mem_cons.mp (Links.getLastD_mem (ReadyHook.list i) (hookNodes front)) with same | here
      · rw [same]
        exact mem_cons_self
      · exact mem_cons_of_mem _ (mem_append_left _ here)
    have behind : (hookNodes back).headD (.list i) ∈ ReadyHook.list i :: hookNodes (lists i) := by
      apply mine
      cases back with
      | nil => exact mem_cons_self
      | cons x back => exact mem_cons_of_mem _ (mem_append_right _ mem_cons_self)
    have gone : ReadyHook.step s ∉ ReadyHook.list i :: (hookNodes front ++ hookNodes back) := by
      simp [hookNodes, notFront, notBack]
    refine ⟨fun j within => ?_, ?_, ?_⟩
    · rcases eq_or_ne j i with rfl | other
      · rw [erased, hookNodes_append]
        exact (circle.skip.join gone gone).clear gone
      · have absent : ReadyHook.step s ∉ ReadyHook.list j :: hookNodes (lists j) :=
          threads.disjoint inside within other.symm (mem_nodes.mpr member)
        rw [others j within other]
        apply Links.Circle.clear _ absent
        apply Links.Circle.join _ absent absent
        exact (threads.circles j within).join (threads.disjoint inside within other.symm before)
          (threads.disjoint inside within other.symm behind)
    · exact fun j within k within' x here there => threads.apart j within k within' x
        (mem_of_mem_erase here) (mem_of_mem_erase there)
    · intro x absent
      rcases eq_or_ne x s with rfl | other
      · exact Function.update_self _ _ _
      · have off : ∀ k < 5, x ∉ lists k := fun k within here =>
          absent k within ((mem_erase_of_ne other).mpr here)
        have differs : ReadyHook.step x ≠ ReadyHook.step s := fun same => other (ReadyHook.step.inj same)
        have last : ReadyHook.step x ≠ (hookNodes front).getLastD (.list i) := by
          intro same
          rw [← same] at before
          exact off i inside (mem_nodes.mp before)
        rw [Links.clear]
        dsimp only
        rw [Function.update_of_ne differs, Links.next_join _ _ differs, Links.next_join _ _ last]
        exact threads.off x off
  · push Not at queued
    have free := threads.off s queued
    have none_ : ¬ (m.next (.step s)).isSome := by
      rw [free]
      exact Bool.false_ne_true
    rw [if_neg none_]
    have same : ∀ j < 5, (lists j).erase s = lists j := fun j within => erase_of_not_mem (queued j within)
    refine ⟨fun j within => ?_, fun j within k within' x here there => threads.apart j within k within' x
      (mem_of_mem_erase here) (mem_of_mem_erase there), fun x absent => ?_⟩
    · rw [same j within]
      exact threads.circles j within
    · apply threads.off
      intro k within here
      rw [← same k within] at here
      exact absent k within here

theorem init (threads : Threads m lists) (inside : i < 5) (empty : lists i = []) :
    Threads (hookLists.init m i) (plainLists.init lists i) := by
  have same : Function.update lists i [] = lists := by
    rw [← empty]
    exact Function.update_eq_self i lists
  change Threads (m.join (.list i) (.list i)) (Function.update lists i [])
  rw [same]
  refine ⟨fun j within => ?_, threads.apart, fun x off => ?_⟩
  · rcases eq_or_ne j i with rfl | other
    · rw [empty]
      exact Links.Circle.alone m _
    · exact (threads.circles j within).join (threads.disjoint inside within other.symm mem_cons_self)
        (threads.disjoint inside within other.symm mem_cons_self)
  · have differs : ReadyHook.step x ≠ ReadyHook.list i := by simp
    rw [Links.next_join _ _ differs]
    exact threads.off x off

theorem transplant (threads : Threads m lists) (inside : i < 5) (inside' : j < 5) (other : i ≠ j) :
    Threads (hookLists.transplant m i j) (plainLists.transplant lists i j) := by
  change Threads (listTransplant m (.list i) (.list j))
    (Function.update (Function.update lists i (lists i ++ lists j)) j [])
  have source := threads.circles j inside'
  cases split : lists j with
  | nil =>
    have empty : listIsEmpty m (.list j) = true := by
      rw [listIsEmpty_iff source, split]
      rfl
    have same : Function.update (Function.update lists i (lists i ++ [])) j [] = lists := by
      rw [append_nil, Function.update_eq_self, ← split, Function.update_eq_self]
    rw [listTransplant, if_pos empty, same]
    exact threads
  | cons x l =>
    rw [split] at source
    have apart : ∀ y ∈ ReadyHook.list i :: hookNodes (lists i), y ∉ ReadyHook.list j :: hookNodes (x :: l) := by
      rw [← split]
      exact fun y here => threads.disjoint inside inside' other here
    have circle := threads.circles i inside
    rw [listTransplant_eq circle source apart]
    have mine := circle.splice source apart
    have last : (hookNodes l).getLastD (.step x) ∈ ReadyHook.list j :: hookNodes (lists j) := by
      rw [split]
      exact mem_cons_of_mem _ (Links.getLastD_mem _ _)
    have firstIn : ReadyHook.step x ∈ ReadyHook.list j :: hookNodes (lists j) := by
      rw [split]
      exact mem_cons_of_mem _ mem_cons_self
    have atJ : ∀ l', Function.update (Function.update lists i l') j [] j = [] :=
      fun _ => Function.update_self _ _ _
    have atI : Function.update (Function.update lists i (lists i ++ x :: l)) j [] i = lists i ++ x :: l := by
      rw [Function.update_of_ne other, Function.update_self]
    have rest : ∀ k, k ≠ i → k ≠ j →
        Function.update (Function.update lists i (lists i ++ x :: l)) j [] k = lists k := by
      intro k notI notJ
      rw [Function.update_of_ne notJ, Function.update_of_ne notI]
    refine ⟨fun k within => ?_, ?_, ?_⟩
    · rcases eq_or_ne k j with rfl | notJ
      · rw [atJ]
        exact Links.Circle.alone _ _
      · have away : ReadyHook.list j ∉ ReadyHook.list k :: hookNodes (lists k) :=
          threads.disjoint inside' within notJ.symm mem_cons_self
        rcases eq_or_ne k i with rfl | notI
        · rw [atI, hookNodes_append]
          apply Links.Circle.join mine
          all_goals
            rw [← cons_append, mem_append]
            rintro (here | there)
            · exact away here
            · exact (nodup_cons.mp source.distinct).1 there
        · rw [rest k notI notJ]
          apply Links.Circle.join _ away away
          apply Links.Circle.join
          · exact (threads.circles k within).join (threads.disjoint inside within notI.symm (Links.getLastD_mem _ _))
              (threads.disjoint inside' within notJ.symm firstIn)
          · exact threads.disjoint inside' within notJ.symm last
          · exact threads.disjoint inside within notI.symm mem_cons_self
    · have mem : ∀ k y, y ∈ Function.update (Function.update lists i (lists i ++ x :: l)) j [] k →
          (k ≠ j ∧ y ∈ lists k) ∨ k = i ∧ y ∈ lists j := by
        intro k y here
        rcases eq_or_ne k j with rfl | notJ
        · rw [atJ] at here
          exact absurd here not_mem_nil
        · rcases eq_or_ne k i with rfl | notI
          · rw [atI, ← split] at here
            exact (mem_append.mp here).imp (fun here => ⟨notJ, here⟩) fun there => ⟨rfl, there⟩
          · rw [rest k notI notJ] at here
            exact .inl ⟨notJ, here⟩
      intro k within k' within' y here there
      rcases mem k y here with ⟨notJ, was⟩ | ⟨first, was⟩ <;> rcases mem k' y there with ⟨notJ', was'⟩ | ⟨second, was'⟩
      · exact threads.apart k within k' within' y was was'
      · exact absurd (threads.apart k within j inside' y was was') notJ
      · exact absurd (threads.apart k' within' j inside' y was' was) notJ'
      · exact first.trans second.symm
    · intro y absent
      have off : ∀ k < 5, y ∉ lists k := by
        intro k within here
        rcases eq_or_ne k j with rfl | notJ
        · apply absent i inside
          rw [atI, ← split]
          exact mem_append_right _ here
        · apply absent k within
          rcases eq_or_ne k i with rfl | notI
          · rw [atI]
            exact mem_append_left _ here
          · rwa [rest k notI notJ]
      have away : ∀ k < 5, ∀ z ∈ ReadyHook.list k :: hookNodes (lists k), ReadyHook.step y ≠ z := by
        rintro k within z here rfl
        exact off k within (mem_nodes.mp here)
      rw [Links.next_join _ _ (away j inside' _ mem_cons_self),
        Links.next_join _ _ (away j inside' ((l.map ReadyHook.step).getLastD (ReadyHook.step x)) last),
        Links.next_join _ _ (away i inside _ (Links.getLastD_mem _ _))]
      exact threads.off y off

end Threads

/-! ## The loop -/

namespace ReadyLoop

variable [DecidableEq S]

/-- A loop with hooks, and what it says. -/
structure Alike (loop : ReadyLoop (Links (ReadyHook S))) (plain : ReadyLoop (Nat → List S)) : Prop where
  threads : Threads loop.lists plain.lists
  exit : loop.exit = plain.exit
  stepping : loop.stepping = plain.stepping
  cursor : loop.cursor = plain.cursor

variable {loop : ReadyLoop (Links (ReadyHook S))} {plain : ReadyLoop (Nat → List S)}

theorem Alike.call (alike : Alike loop plain) (c : ReadyCall S) :
    Alike (loop.call hookLists c) (plain.call plainLists c) := by
  obtain ⟨threads, exit, stepping, cursor⟩ := alike
  cases c with
  | ready s =>
    refine ⟨?_, exit, stepping, cursor⟩
    change Threads (hookLists.enqueue loop.lists (if loop.stepping then 1 else 0) s)
      (plainLists.enqueue plain.lists (if plain.stepping then 1 else 0) s)
    rw [stepping]
    apply threads.enqueue
    split <;> decide
  | readyBulk s => exact ⟨threads.enqueue (by decide) s, exit, stepping, cursor⟩
  | unready s => exact ⟨threads.unready s, exit, stepping, cursor⟩
  | exit => exact ⟨threads, rfl, stepping, cursor⟩

theorem Alike.calls (alike : Alike loop plain) (calls : List (ReadyCall S)) :
    Alike (loop.calls hookLists calls) (plain.calls plainLists calls) := by
  induction calls generalizing loop plain with
  | nil => exact alike
  | cons c calls ih => exact ih (alike.call c)

/-- The steps over hooks are those over plain lists. -/
theorem Alike.runSteps {did : Nat → StepDone S} {base n til fuel i empty t : Nat} {ran : List (StepRun S)}
    (alike : Alike loop plain) (few : n ≤ 2) (within : base + n ≤ 5) (inside : i < n)
    {result : ReadyLoop (Nat → List S) × Nat × List (StepRun S)}
    (ends : ReadyLoop.runSteps plainLists did base n til fuel plain i empty t ran = some result) :
    ∃ loop', ReadyLoop.runSteps hookLists did base n til fuel loop i empty t ran = some (loop', result.2) ∧
      Alike loop' result.1 := by
  induction fuel generalizing loop plain i empty t ran with
  | zero => exact nomatch ends
  | succ fuel ih =>
    have next : (i + 1) % n < n := Nat.mod_lt _ (by omega)
    have here := alike.threads.first (show 3 + i < 5 by omega)
    have batch := alike.threads.first (show 3 + (i + 1) % n < 5 by omega)
    have other := alike.threads.first (show base + (i + 1) % n < 5 by omega)
    rw [ReadyLoop.runSteps] at ends ⊢
    rw [alike.exit]
    split at ends
    · next goes =>
      rw [if_pos goes]
      dsimp only at ends ⊢
      rw [here]
      split at ends
      · next none_ =>
        exact ih alike next ends
      · next s some_ =>
        have same : begun hookLists did base n loop i ran.length s =
            begun plainLists did base n plain i ran.length s := by
          rw [begun, begun, batch, other]
        rw [same]
        exact ih ((alike.call (.unready s)).calls _) next ends
    · next stops =>
      rw [if_neg stops]
      obtain rfl := Option.some.inj ends
      exact ⟨loop, rfl, alike⟩

end ReadyLoop

end Askai
