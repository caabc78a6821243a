import Askai.Loop.Ready

/-!
# The steps of a turn

What the steps do to the ready lists, as plain lists: which entries run, which are left, in which order,
and which lists the steps come from.
-/

namespace Askai

open Library List

variable {S : Type*} [DecidableEq S]

/-- No entry is on two lists, or twice on one. -/
structure Tidy (lists : Nat → List S) : Prop where
  distinct : ∀ i < 5, (lists i).Nodup
  apart : ∀ i < 5, ∀ j < 5, ∀ s ∈ lists i, s ∈ lists j → i = j

/-- The entry is on a list. -/
def Queued (lists : Nat → List S) (s : S) : Prop :=
  ∃ i < 5, s ∈ lists i

/-- The entry that a call takes off its list. -/
def ReadyCall.taken : ReadyCall S → Option S
  | .unready s => some s
  | _ => none

/-- The entry that a call queues, unless it is queued already. -/
def ReadyCall.queued : ReadyCall S → Option S
  | .ready s => some s
  | .readyBulk s => some s
  | _ => none

/-- What is queued after a call, if `q` was queued before it. -/
def ReadyCall.after (q : S → Prop) (c : ReadyCall S) (x : S) : Prop :=
  (q x ∧ c.taken ≠ some x) ∨ c.queued = some x

/-- What is queued after a step. -/
def StepRun.after (q : S → Prop) (r : StepRun S) : S → Prop :=
  r.calls.foldl ReadyCall.after fun x => q x ∧ x ≠ r.step

/-- What a step took off the lists, itself first. -/
def StepRun.takes (r : StepRun S) : List S :=
  r.step :: r.calls.filterMap ReadyCall.taken

/-- What a step queued. -/
def StepRun.puts (r : StepRun S) : List S :=
  r.calls.filterMap ReadyCall.queued

/-- What is left of the lists without those that are gone, and what follows them, in lists that are not
batches. -/
def Left (lists₀ : Nat → List S) (gone fresh : List S) (lists : Nat → List S) : Prop :=
  ∀ i < 5, ∃ tail, lists i = (lists₀ i).filter (· ∉ gone) ++ tail ∧ (∀ x ∈ tail, x ∈ fresh) ∧
    (3 ≤ i → tail = [])

variable {lists lists₀ : Nat → List S} {gone fresh : List S} {s x : S} {i j : Nat}

theorem queued_enqueue (inside : i < 5) (s x : S) :
    Queued (plainLists.enqueue lists i s) x ↔ Queued lists x ∨ x = s := by
  change Queued (if ∃ j ∈ List.range 5, s ∈ lists j then lists else Function.update lists i (lists i ++ [s])) x ↔ _
  split
  · next held =>
    obtain ⟨j, within, held⟩ := held
    constructor
    · exact .inl
    · rintro (queued | rfl)
      · exact queued
      · exact ⟨j, mem_range.mp within, held⟩
  · constructor
    · rintro ⟨j, within, member⟩
      rcases eq_or_ne j i with rfl | other
      · rw [Function.update_self] at member
        rcases mem_append.mp member with old | new
        · exact .inl ⟨j, within, old⟩
        · exact .inr (mem_singleton.mp new)
      · rw [Function.update_of_ne other] at member
        exact .inl ⟨j, within, member⟩
    · rintro (⟨j, within, member⟩ | rfl)
      · refine ⟨j, within, ?_⟩
        rcases eq_or_ne j i with rfl | other
        · rw [Function.update_self]
          exact mem_append_left _ member
        · rwa [Function.update_of_ne other]
      · refine ⟨i, inside, ?_⟩
        rw [Function.update_self]
        exact mem_append_right _ mem_cons_self

namespace Tidy

theorem enqueue (tidy : Tidy lists) (inside : i < 5) (s : S) : Tidy (plainLists.enqueue lists i s) := by
  change Tidy (if ∃ j ∈ List.range 5, s ∈ lists j then lists else Function.update lists i (lists i ++ [s]))
  split
  · exact tidy
  · next free =>
    have off : ∀ j < 5, s ∉ lists j := fun j within held => free ⟨j, mem_range.mpr within, held⟩
    have mem : ∀ j x, x ∈ Function.update lists i (lists i ++ [s]) j → x ∈ lists j ∨ j = i ∧ x = s := by
      intro j x member
      rcases eq_or_ne j i with rfl | other
      · rw [Function.update_self] at member
        exact (mem_append.mp member).imp_right fun new => ⟨rfl, mem_singleton.mp new⟩
      · rw [Function.update_of_ne other] at member
        exact .inl member
    refine ⟨fun j within => ?_, ?_⟩
    · rcases eq_or_ne j i with rfl | other
      · rw [Function.update_self, nodup_append]
        refine ⟨tidy.distinct j within, nodup_singleton s, ?_⟩
        rintro x member y last rfl
        rw [mem_singleton.mp last] at member
        exact off j within member
      · rw [Function.update_of_ne other]
        exact tidy.distinct j within
    · intro j within k within' x here there
      rcases mem j x here with here | ⟨first, new⟩ <;> rcases mem k x there with there | ⟨second, new'⟩
      · exact tidy.apart j within k within' x here there
      · rw [new'] at here
        exact absurd here (off j within)
      · rw [new] at there
        exact absurd there (off k within')
      · exact first.trans second.symm

theorem unready (tidy : Tidy lists) (s : S) : Tidy (plainLists.unready lists s) where
  distinct i inside := (tidy.distinct i inside).erase s
  apart i inside j inside' x here there :=
    tidy.apart i inside j inside' x (mem_of_mem_erase here) (mem_of_mem_erase there)

theorem queued_unready (tidy : Tidy lists) (s x : S) :
    Queued (plainLists.unready lists s) x ↔ Queued lists x ∧ x ≠ s := by
  constructor
  · rintro ⟨i, inside, member⟩
    obtain ⟨other, member⟩ := (tidy.distinct i inside).mem_erase_iff.mp member
    exact ⟨⟨i, inside, member⟩, other⟩
  · rintro ⟨⟨i, inside, member⟩, other⟩
    exact ⟨i, inside, (mem_erase_of_ne other).mpr member⟩

end Tidy

namespace Left

theorem start (lists : Nat → List S) : Left lists [] [] lists := by
  intro i _
  refine ⟨[], ?_, fun _ inside => absurd inside not_mem_nil, fun _ => rfl⟩
  rw [append_nil, filter_eq_self.mpr]
  simp

theorem unready (left : Left lists₀ gone fresh lists) (tidy : Tidy lists) (s : S) :
    Left lists₀ (gone ++ [s]) fresh (plainLists.unready lists s) := by
  intro i within
  obtain ⟨tail, split, new, none_⟩ := left i within
  refine ⟨tail.filter (· ≠ s), ?_, fun x inside => new x (mem_of_mem_filter inside), fun batch => ?_⟩
  · change (lists i).erase s = _
    rw [(tidy.distinct i within).erase_eq_filter s, split, filter_append, filter_filter]
    congr 1
    · apply filter_congr
      intro x _
      rw [Bool.eq_iff_iff]
      simp [and_comm]
    · apply filter_congr
      intro x _
      rw [Bool.eq_iff_iff]
      simp
  · rw [none_ batch, filter_nil]

theorem enqueue (left : Left lists₀ gone fresh lists) (inside : i < 3) (s : S) :
    Left lists₀ gone (fresh ++ [s]) (plainLists.enqueue lists i s) := by
  have wider : Left lists₀ gone (fresh ++ [s]) lists := by
    intro j within
    obtain ⟨tail, split, new, none_⟩ := left j within
    exact ⟨tail, split, fun x member => mem_append_left _ (new x member), none_⟩
  change Left lists₀ gone (fresh ++ [s])
    (if ∃ j ∈ List.range 5, s ∈ lists j then lists else Function.update lists i (lists i ++ [s]))
  split
  · exact wider
  · intro j within
    rcases eq_or_ne j i with rfl | other
    · obtain ⟨tail, split, new, -⟩ := wider j within
      refine ⟨tail ++ [s], ?_, fun x member => ?_, fun batch => absurd inside (Nat.not_lt.mpr batch)⟩
      · rw [Function.update_self, split, append_assoc]
      · rcases mem_append.mp member with old | last
        · exact new x old
        · exact mem_append_right _ last
    · rw [Function.update_of_ne other]
      exact wider j within

end Left

/-! ## Calls -/

theorem filterMap_cons_toList {α β : Type*} (f : α → Option β) (x : α) (l : List α) :
    (x :: l).filterMap f = (f x).toList ++ l.filterMap f := by
  cases found : f x with
  | none => rw [filterMap_cons_none found, Option.toList_none, nil_append]
  | some y => rw [filterMap_cons_some found, Option.toList_some, singleton_append]

namespace ReadyLoop

/-- The lists of a loop, relative to what they were. -/
structure Called (lists₀ : Nat → List S) (gone fresh : List S) (loop : ReadyLoop (Nat → List S)) : Prop where
  tidy : Tidy loop.lists
  left : Left lists₀ gone fresh loop.lists

variable {loop : ReadyLoop (Nat → List S)}

theorem Called.start (tidy : Tidy loop.lists) : Called loop.lists [] [] loop :=
  ⟨tidy, Left.start loop.lists⟩

theorem Called.unready (called : Called lists₀ gone fresh loop) (s : S) :
    Called lists₀ (gone ++ [s]) fresh (loop.loopUnready plainLists s) :=
  ⟨called.tidy.unready s, called.left.unready called.tidy s⟩

theorem Called.call (called : Called lists₀ gone fresh loop) (c : ReadyCall S) :
    Called lists₀ (gone ++ c.taken.toList) (fresh ++ c.queued.toList) (loop.call plainLists c) := by
  have same := fun l : List S => append_nil l
  cases c with
  | ready s =>
    have inside : (if loop.stepping then 1 else 0) < 3 := by split <;> decide
    change Called lists₀ (gone ++ []) (fresh ++ [s]) _
    rw [same]
    exact ⟨called.tidy.enqueue (by omega) s, called.left.enqueue inside s⟩
  | readyBulk s =>
    change Called lists₀ (gone ++ []) (fresh ++ [s]) _
    rw [same]
    exact ⟨called.tidy.enqueue (by decide) s, called.left.enqueue (by decide) s⟩
  | unready s =>
    change Called lists₀ (gone ++ [s]) (fresh ++ []) _
    rw [same]
    exact called.unready s
  | exit =>
    change Called lists₀ (gone ++ []) (fresh ++ []) _
    rw [same, same]
    exact ⟨called.tidy, called.left⟩

theorem Called.calls (called : Called lists₀ gone fresh loop) (calls : List (ReadyCall S)) :
    Called lists₀ (gone ++ calls.filterMap ReadyCall.taken) (fresh ++ calls.filterMap ReadyCall.queued)
      (loop.calls plainLists calls) := by
  induction calls generalizing loop gone fresh with
  | nil =>
    rw [filterMap_nil, filterMap_nil, append_nil, append_nil]
    exact called
  | cons c calls ih =>
    rw [filterMap_cons_toList, filterMap_cons_toList, ← append_assoc, ← append_assoc]
    exact ih (called.call c)

theorem queued_call (tidy : Tidy loop.lists) (c : ReadyCall S) :
    Queued (loop.call plainLists c).lists = c.after (Queued loop.lists) := by
  funext x
  apply propext
  cases c with
  | ready s =>
    have inside : (if loop.stepping then 1 else 0) < 5 := by split <;> decide
    change Queued (plainLists.enqueue loop.lists _ s) x ↔
      (Queued loop.lists x ∧ (none : Option S) ≠ some x) ∨ some s = some x
    rw [queued_enqueue inside]
    simp [eq_comm]
  | readyBulk s =>
    have inside : 2 < 5 := by decide
    change Queued (plainLists.enqueue loop.lists 2 s) x ↔
      (Queued loop.lists x ∧ (none : Option S) ≠ some x) ∨ some s = some x
    rw [queued_enqueue inside]
    simp [eq_comm]
  | unready s =>
    change Queued (plainLists.unready loop.lists s) x ↔ (Queued loop.lists x ∧ some s ≠ some x) ∨ none = some x
    rw [tidy.queued_unready]
    simp [eq_comm]
  | exit =>
    change Queued loop.lists x ↔ (Queued loop.lists x ∧ (none : Option S) ≠ some x) ∨ none = some x
    simp

theorem tidy_call (tidy : Tidy loop.lists) (c : ReadyCall S) : Tidy (loop.call plainLists c).lists :=
  ((Called.start tidy).call c).tidy

theorem queued_calls (tidy : Tidy loop.lists) (calls : List (ReadyCall S)) :
    Queued (loop.calls plainLists calls).lists = calls.foldl ReadyCall.after (Queued loop.lists) := by
  induction calls generalizing loop with
  | nil => rfl
  | cons c calls ih =>
    change Queued ((loop.call plainLists c).calls plainLists calls).lists = _
    rw [ih (tidy_call tidy c), queued_call tidy c, foldl_cons]

/-- Calls change neither where the loop is nor, but for `loop_exit`, whether it goes on. -/
theorem calls_rest (loop : ReadyLoop (Nat → List S)) (calls : List (ReadyCall S)) :
    (loop.calls plainLists calls).stepping = loop.stepping ∧ (loop.calls plainLists calls).cursor = loop.cursor ∧
      ((loop.calls plainLists calls).exit = false ↔ loop.exit = false ∧ .exit ∉ calls) := by
  induction calls generalizing loop with
  | nil => simp [ReadyLoop.calls]
  | cons c calls ih =>
    obtain ⟨stepping, cursor, exit⟩ := ih (loop.call plainLists c)
    change ((loop.call plainLists c).calls plainLists calls).stepping = _ ∧
      ((loop.call plainLists c).calls plainLists calls).cursor = _ ∧
      (((loop.call plainLists c).calls plainLists calls).exit = false ↔ _)
    rw [stepping, cursor, exit]
    cases c <;> simp [call, loopReady, loopReadyBulk, loopUnready]

/-! ## Steps -/

/-- Whether the loop of `loop_run` goes on. -/
abbrev Goes (n til : Nat) (loop : ReadyLoop (Nat → List S)) (empty t : Nat) (ran : List (StepRun S)) : Prop :=
  empty < n ∧ loop.exit = false ∧ (ran = [] ∨ t < til)

variable {result : ReadyLoop (Nat → List S) × Nat × List (StepRun S)}

/-- What the loop of `loop_run` keeps holds when it ends. -/
theorem runSteps_invariant {did : Nat → StepDone S} {base n til fuel i empty t : Nat} {ran : List (StepRun S)}
    (inv : ReadyLoop (Nat → List S) → Nat → Nat → Nat → List (StepRun S) → Prop) (start : inv loop i empty t ran)
    (skip : ∀ loop i empty t ran, inv loop i empty t ran → Goes n til loop empty t ran →
      loop.lists (3 + i) = [] → inv loop ((i + 1) % n) (empty + 1) t ran)
    (run : ∀ loop i empty t ran s l, inv loop i empty t ran → Goes n til loop empty t ran →
      loop.lists (3 + i) = s :: l →
      inv ((loop.loopUnready plainLists s).calls plainLists (did ran.length).calls) ((i + 1) % n) 0
        (did ran.length).clock (ran ++ [begun plainLists did base n loop i ran.length s]))
    (ends : runSteps plainLists did base n til fuel loop i empty t ran = some result) :
    ∃ empty' t', inv result.1 result.2.1 empty' t' result.2.2 ∧ ¬ Goes n til result.1 empty' t' result.2.2 := by
  induction fuel generalizing loop i empty t ran with
  | zero => exact nomatch ends
  | succ fuel ih =>
    rw [runSteps] at ends
    split at ends
    · next goes =>
      dsimp only at ends
      split at ends
      · next none_ => exact ih (skip _ _ _ _ _ start goes (List.head?_eq_none_iff.mp none_)) ends
      · next s some_ =>
        obtain ⟨l, split⟩ := List.head?_eq_some_iff.mp some_
        exact ih (run _ _ _ _ _ _ _ start goes split) ends
    · next stops =>
      obtain rfl := Option.some.inj ends
      exact ⟨empty, t, start, stops⟩

/-- What the steps have done so far: the lists are `lists₀` without what was taken off and with what was
queued, and each entry that ran was in a batch, and ran once. -/
structure Progress (base n : Nat) (loop₀ loop : ReadyLoop (Nat → List S)) (ran : List (StepRun S)) : Prop where
  called : Called loop₀.lists (ran.flatMap StepRun.takes) (ran.flatMap StepRun.puts) loop
  queued : Queued loop.lists = ran.foldl StepRun.after (Queued loop₀.lists)
  once : (ran.map StepRun.step).Nodup
  sources : ∀ r ∈ ran, ∃ i < n, r.list = base + i ∧ r.step ∈ loop₀.lists (3 + i)
  exit : loop.exit = false ↔ loop₀.exit = false ∧ ∀ r ∈ ran, .exit ∉ r.calls
  stepping : loop.stepping = loop₀.stepping
  cursor : loop.cursor = loop₀.cursor

theorem Progress.start (base n : Nat) (tidy : Tidy loop.lists) : Progress base n loop loop [] where
  called := Called.start tidy
  queued := rfl
  once := nodup_nil
  sources _ inside := absurd inside not_mem_nil
  exit := by simp
  stepping := rfl
  cursor := rfl

/-- Another step. -/
theorem Progress.run {loop₀ : ReadyLoop (Nat → List S)} {base n i : Nat} {ran : List (StepRun S)} {l : List S}
    (progress : Progress base n loop₀ loop ran) (did : Nat → StepDone S) (few : n ≤ 2) (inside : i < n)
    (head : loop.lists (3 + i) = s :: l) :
    Progress base n loop₀ ((loop.loopUnready plainLists s).calls plainLists (did ran.length).calls)
      (ran ++ [begun plainLists did base n loop i ran.length s]) := by
  obtain ⟨called, queued, once, sources, exit, stepping, cursor⟩ := progress
  have member : s ∈ loop₀.lists (3 + i) ∧ s ∉ ran.flatMap StepRun.takes := by
    obtain ⟨tail, split, -, none_⟩ := called.left (3 + i) (by omega)
    rw [none_ (Nat.le_add_right 3 i), append_nil, head] at split
    have here : s ∈ (loop₀.lists (3 + i)).filter (· ∉ ran.flatMap StepRun.takes) := by
      rw [← split]
      exact mem_cons_self
    exact ⟨mem_of_mem_filter here, of_decide_eq_true (mem_filter.mp here).2⟩
  obtain ⟨stepping', cursor', exit'⟩ := calls_rest (loop.loopUnready plainLists s) (did ran.length).calls
  refine ⟨?_, ?_, ?_, ?_, ?_, stepping'.trans stepping, cursor'.trans cursor⟩
  · have later := (called.unready s).calls (did ran.length).calls
    simp only [flatMap_append, flatMap_singleton]
    rw [StepRun.takes, StepRun.puts, begun]
    rw [append_assoc] at later
    exact later
  · rw [queued_calls (called.tidy.unready s), foldl_append, foldl_cons, foldl_nil, ← queued, StepRun.after, begun]
    congr 1
    funext x
    exact propext (called.tidy.queued_unready s x)
  · rw [map_append, nodup_append]
    refine ⟨once, nodup_singleton _, ?_⟩
    rintro x here y last rfl
    obtain ⟨r, ranR, rfl⟩ := mem_map.mp here
    have same : r.step = s := mem_singleton.mp last
    apply member.2
    rw [mem_flatMap]
    exact ⟨r, ranR, same ▸ mem_cons_self⟩
  · intro r here
    rcases mem_append.mp here with old | last
    · exact sources r old
    · rw [mem_singleton.mp last]
      exact ⟨i, inside, rfl, member.1⟩
  · rw [exit']
    change (loop.exit = false ∧ _) ↔ _
    rw [exit, and_assoc]
    apply and_congr_right
    intro _
    simp [begun, or_imp, forall_and]

/-- All that the steps of a call do. -/
theorem runSteps_progress {did : Nat → StepDone S} {base n til fuel i t : Nat} (few : n ≤ 2) (inside : i < n)
    (tidy : Tidy loop.lists) (ends : runSteps plainLists did base n til fuel loop i 0 t [] = some result) :
    Progress base n loop result.1 result.2.2 := by
  have keeps := runSteps_invariant (fun loop' i _ _ ran => i < n ∧ Progress base n loop loop' ran)
    ⟨inside, Progress.start base n tidy⟩ ?_ ?_ ends
  · obtain ⟨-, -, ⟨-, progress⟩, -⟩ := keeps
    exact progress
  · rintro loop' i empty t ran ⟨inside, progress⟩ _ _
    exact ⟨Nat.mod_lt _ (by omega), progress⟩
  · rintro loop' i empty t ran s l ⟨inside, progress⟩ _ head
    exact ⟨Nat.mod_lt _ (by omega), progress.run did few inside head⟩

end ReadyLoop

end Askai
