import Mathlib.Data.List.Nodup
import Mathlib.Tactic

/-!
# Linked lists

A list in memory is an address to begin at, and the address that follows each of its elements.
-/

namespace Askai.Library

variable {α : Type*}

/-- `Chain next a l`: from `a` on, `next` goes through the elements of `l` and ends. -/
def Chain (next : α → Option α) : Option α → List α → Prop
  | a, [] => a = none
  | a, x :: l => a = some x ∧ Chain next (next x) l

namespace Chain

variable {next : α → Option α} {a b : Option α} {x y : α} {l m : List α}

@[simp] theorem nil_iff : Chain next a [] ↔ a = none := Iff.rfl

@[simp] theorem cons_iff : Chain next a (x :: l) ↔ a = some x ∧ Chain next (next x) l := Iff.rfl

theorem none_iff : Chain next none l ↔ l = [] := by
  cases l <;> simp

theorem some_iff : Chain next (some x) l ↔ ∃ m, l = x :: m ∧ Chain next (next x) m := by
  cases l with
  | nil => simp
  | cons y m =>
    constructor
    · rintro ⟨same, rest⟩
      obtain rfl := Option.some.inj same
      exact ⟨m, rfl, rest⟩
    · rintro ⟨m', same, rest⟩
      obtain ⟨rfl, rfl⟩ := List.cons_eq_cons.mp same
      exact ⟨rfl, rest⟩

/-- A chain begins where its list does. -/
theorem head (chain : Chain next a l) : a = l.head? := by
  cases l with
  | nil => exact chain
  | cons x l => exact chain.1

theorem eq_nil_iff (chain : Chain next a l) : l = [] ↔ a = none := by
  rw [chain.head, List.head?_eq_none_iff]

/-- An address begins one list at most. -/
theorem unique (first : Chain next a l) (second : Chain next a m) : l = m := by
  induction l generalizing a m with
  | nil =>
    obtain rfl : a = none := first
    exact (none_iff.mp second).symm
  | cons x l ih =>
    obtain ⟨rfl, first⟩ := first
    obtain ⟨m, rfl, behind⟩ := some_iff.mp second
    rw [ih first behind]

theorem congr {next' : α → Option α} (chain : Chain next a l) (same : ∀ x ∈ l, next' x = next x) : Chain next' a l := by
  induction l generalizing a with
  | nil => exact chain
  | cons x l ih =>
    refine ⟨chain.1, ?_⟩
    rw [same x List.mem_cons_self]
    exact ih chain.2 fun y mem => same y (List.mem_cons_of_mem _ mem)

/-- A chain goes through no element twice. -/
theorem nodup (chain : Chain next a l) : l.Nodup := by
  have behind : ∀ (front back : List α) {a : Option α}, Chain next a (front ++ back) → ∃ b, Chain next b back := by
    intro front
    induction front with
    | nil => exact fun back a chain => ⟨a, chain⟩
    | cons y front ih => exact fun back a chain => ih back chain.2
  induction l generalizing a with
  | nil => exact List.nodup_nil
  | cons x l ih =>
    refine List.nodup_cons.mpr ⟨fun again => ?_, ih chain.2⟩
    -- from `x` on there would be two lists, of different lengths
    obtain ⟨front, back, rfl⟩ := List.append_of_mem again
    obtain ⟨b, later⟩ := behind front (x :: back) chain.2
    have same := unique (chain.1 ▸ chain) (later.1 ▸ later)
    have lengths := congrArg List.length same
    simp only [List.length_cons, List.length_append] at lengths
    omega

/-- The first element that is stopped at, of the first so many from an address on. -/
def walk (next : α → Option α) (stop : α → Bool) : Nat → Option α → Option α
  | fuel + 1, some x => if stop x then some x else walk next stop fuel (next x)
  | _, _ => none

/-- A walk of as many steps as a chain is long finds what there is in it. -/
theorem walk_eq {stop : α → Bool} {fuel : Nat} (chain : Chain next a l) (enough : l.length ≤ fuel) :
    walk next stop fuel a = l.find? stop := by
  induction l generalizing a fuel with
  | nil =>
    obtain rfl : a = none := chain
    cases fuel <;> rfl
  | cons x l ih =>
    obtain ⟨rfl, behind⟩ := chain
    cases fuel with
    | zero => simp at enough
    | succ fuel =>
      rw [walk, List.find?_cons]
      cases stop x with
      | true => rfl
      | false => exact ih behind (Nat.le_of_succ_le_succ enough)

variable [DecidableEq α]

/-- What follows an element elsewhere may change. -/
theorem update (chain : Chain next a l) (outside : x ∉ l) : Chain (Function.update next x b) a l := by
  induction l generalizing a with
  | nil => exact chain
  | cons y l ih =>
    obtain ⟨outside_y, outside_l⟩ := List.ne_and_not_mem_of_not_mem_cons outside
    refine ⟨chain.1, ?_⟩
    rw [Function.update_of_ne (Ne.symm outside_y)]
    exact ih chain.2 outside_l

/-- An element in front. -/
theorem push (chain : Chain next a l) (outside : x ∉ l) : Chain (Function.update next x a) (some x) (x :: l) := by
  refine ⟨rfl, ?_⟩
  rw [Function.update_self]
  exact chain.update outside

/-- A chain behind another's last element. -/
theorem append (front : Chain next a (l ++ [x])) (back : Chain next b m) (distinct : (l ++ x :: m).Nodup) :
    Chain (Function.update next x b) a (l ++ x :: m) := by
  induction l generalizing a with
  | nil =>
    obtain ⟨outside, -⟩ := List.nodup_cons.mp distinct
    obtain ⟨rfl, -⟩ := front
    exact back.push outside
  | cons y l ih =>
    obtain ⟨outside, distinct⟩ := List.nodup_cons.mp distinct
    have other : y ≠ x := by
      rintro rfl
      exact outside (by simp)
    refine ⟨front.1, ?_⟩
    rw [Function.update_of_ne other]
    exact ih front.2 distinct

/-- The element in front is left out by beginning behind it. -/
theorem pop (chain : Chain next (some x) l) : Chain next (next x) (l.erase x) := by
  obtain ⟨m, rfl, behind⟩ := some_iff.mp chain
  rw [List.erase_cons_head]
  exact behind

/-- Any other is left out by making what follows it follow the one before it. -/
theorem skip (chain : Chain next a l) (member : x ∈ l) (later : a ≠ some x) :
    ∃ y ∈ l, l.find? (fun y => decide (next y = some x)) = some y ∧
      Chain (Function.update next y (next x)) a (l.erase x) := by
  have distinct := chain.nodup
  induction l generalizing a with
  | nil => cases member
  | cons y l ih =>
    obtain ⟨outside, distinct⟩ := List.nodup_cons.mp distinct
    obtain ⟨rfl, behind⟩ := chain
    have other : y ≠ x := fun same => later (congrArg some same)
    have inside : x ∈ l := (List.mem_cons.mp member).resolve_left (Ne.symm other)
    rw [List.erase_cons_tail (by simpa using other), List.find?_cons]
    rcases eq_or_ne (next y) (some x) with before | apart
    · refine ⟨y, List.mem_cons_self, by simp [before], rfl, ?_⟩
      rw [Function.update_self]
      rw [before] at behind
      exact behind.pop.update fun mem => outside (List.mem_of_mem_erase mem)
    · obtain ⟨z, mem, found, chain⟩ := ih behind inside apart distinct
      refine ⟨z, List.mem_cons_of_mem _ mem, by simp [apart, found], rfl, ?_⟩
      have differs : y ≠ z := fun same => outside (same ▸ mem)
      rw [Function.update_of_ne differs]
      exact chain

end Chain

end Askai.Library

/-!
# Stacks in one memory

Several linked lists whose elements are of one memory, which grow and shrink in front.
-/

namespace Askai.Library

variable {α ι : Type*}

/-- Each stack is a linked list of its own, from its top on. -/
structure Stacks (next : α → Option α) (top : ι → Option α) (items : ι → List α) : Prop where
  chain : ∀ i, Chain next (top i) (items i)
  apart : ∀ {i j x}, x ∈ items i → x ∈ items j → i = j

namespace Stacks

variable {next : α → Option α} {top : ι → Option α} {items : ι → List α} {i j : ι} {x : α}

theorem empty (next : α → Option α) : Stacks next (fun _ : ι => none) (fun _ => []) where
  chain _ := rfl
  apart mem := by cases mem

theorem top_eq_none (lists : Stacks next top items) : top i = none ↔ items i = [] :=
  (lists.chain i).eq_nil_iff.symm

/-- A stack with a top is the top and what follows it. -/
theorem eq_cons (lists : Stacks next top items) (first : top i = some x) : items i = x :: (items i).tail := by
  have chain := lists.chain i
  rw [first] at chain
  obtain ⟨m, same, -⟩ := Chain.some_iff.mp chain
  rw [same, List.tail_cons]

theorem top_mem (lists : Stacks next top items) (first : top i = some x) : x ∈ items i := by
  rw [lists.eq_cons first]
  exact List.mem_cons_self

/-- What follows an element of none of them may change. -/
theorem write [DecidableEq α] (lists : Stacks next top items) (outside : ∀ j, x ∉ items j)
    (b : Option α) : Stacks (Function.update next x b) top items :=
  ⟨fun j => (lists.chain j).update (outside j), lists.apart⟩

variable [DecidableEq ι]

theorem mem_tail (lists : Stacks next top items) (first : top i = some x) :
    x ∉ Function.update items i (items i).tail j := by
  intro mem
  rcases eq_or_ne j i with rfl | other
  · rw [Function.update_self] at mem
    have distinct := (lists.chain j).nodup
    rw [lists.eq_cons first] at distinct
    exact (List.nodup_cons.mp distinct).1 mem
  · rw [Function.update_of_ne other] at mem
    exact other (lists.apart mem (lists.top_mem first))

theorem mem_of_mem_tail {y : α} (mem : y ∈ Function.update items i (items i).tail j) : y ∈ items j := by
  rcases eq_or_ne j i with rfl | other
  · rw [Function.update_self] at mem
    exact List.mem_of_mem_tail mem
  · rwa [Function.update_of_ne other] at mem

/-- The top of a stack is taken off. -/
theorem pop (lists : Stacks next top items) (first : top i = some x) :
    Stacks next (Function.update top i (next x)) (Function.update items i (items i).tail) := by
  refine ⟨fun j => ?_, fun mem mem' => lists.apart (mem_of_mem_tail mem) (mem_of_mem_tail mem')⟩
  rcases eq_or_ne j i with rfl | other
  · have chain := lists.chain j
    rw [lists.eq_cons first] at chain
    rw [Function.update_self, Function.update_self]
    exact chain.2
  · rw [Function.update_of_ne other, Function.update_of_ne other]
    exact lists.chain j

theorem mem_push {y : α} (mem : y ∈ Function.update items i (x :: items i) j) : y = x ∧ j = i ∨ y ∈ items j := by
  rcases eq_or_ne j i with rfl | other
  · rw [Function.update_self] at mem
    exact (List.mem_cons.mp mem).imp_left fun same => ⟨same, rfl⟩
  · rw [Function.update_of_ne other] at mem
    exact .inr mem

/-- An element of none of them is put on one. -/
theorem push [DecidableEq α] (lists : Stacks next top items) (outside : ∀ j, x ∉ items j) :
    Stacks (Function.update next x (top i)) (Function.update top i (some x))
      (Function.update items i (x :: items i)) := by
  refine ⟨fun j => ?_, fun {k j y} mem mem' => ?_⟩
  · rcases eq_or_ne j i with rfl | other
    · rw [Function.update_self, Function.update_self]
      exact (lists.chain j).push (outside j)
    · rw [Function.update_of_ne other, Function.update_of_ne other]
      exact (lists.chain j).update (outside j)
  · rcases mem_push mem with ⟨rfl, rfl⟩ | inside
    · rcases mem_push mem' with ⟨-, rfl⟩ | inside'
      · rfl
      · exact absurd inside' (outside j)
    · rcases mem_push mem' with ⟨rfl, rfl⟩ | inside'
      · exact absurd inside (outside k)
      · exact lists.apart inside inside'

end Stacks

end Askai.Library
