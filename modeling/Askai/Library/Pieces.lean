import Askai.Library.Bytes
import Mathlib.Logic.Relation
import Mathlib.Order.WellFounded
import Mathlib.Tactic

/-!
# Pieces of a list

The parts of a list between the places of a separator, and what follows each place, as a loop of
cuts comes upon them.
-/

namespace Askai.Library

variable {α : Type*}

/-- A part of the list with a separator, or an end of the list, on either side. -/
def Part (c : α) (l part : List α) : Prop :=
  c ∉ part ∧ ∃ before after, l = before ++ (part ++ after) ∧
    (before = [] ∨ ∃ front, before = front ++ [c]) ∧ (after = [] ∨ ∃ back, after = c :: back)

/-- The whole list, or what follows a separator in it. -/
def Piece (c : α) (l piece : List α) : Prop :=
  piece = l ∨ ∃ front, l = front ++ c :: piece

theorem part_of_not_mem {c : α} {l : List α} (absent : c ∉ l) (part : List α) : Part c l part ↔ part = l := by
  constructor
  · rintro ⟨-, before, after, rfl, ends, begins⟩
    have before_nil : before = [] := by
      rcases ends with none | ⟨front, rfl⟩
      · exact none
      · exact absurd (by simp) absent
    have after_nil : after = [] := by
      rcases begins with none | ⟨back, rfl⟩
      · exact none
      · exact absurd (by simp) absent
    rw [before_nil, after_nil, List.nil_append, List.append_nil]
  · rintro rfl
    exact ⟨absent, [], [], by simp, .inl rfl, .inl rfl⟩

theorem part_of_cut [DecidableEq α] {c : α} {l front back : List α} (cut_l : cut c l = some (front, back))
    (part : List α) : Part c l part ↔ part = front ∨ Part c back part := by
  obtain ⟨whole, absent⟩ := cut_eq_some.mp cut_l
  constructor
  · rintro ⟨clear, before, after, rfl, ends, begins⟩
    rcases ends with rfl | ⟨before, rfl⟩
    · rcases begins with rfl | ⟨after, rfl⟩
      · rw [List.nil_append, List.append_nil] at whole
        exact absurd (by rw [whole]; simp) clear
      · have here := cut_append after clear
        rw [List.nil_append, here] at cut_l
        exact .inl (Prod.mk.inj (Option.some.inj cut_l)).1
    · right
      have shape : before ++ [c] ++ (part ++ after) = before ++ c :: (part ++ after) := by simp
      rw [shape] at cut_l
      cases cut_before : cut c before with
      | none =>
        rw [cut_append _ (cut_eq_none.mp cut_before)] at cut_l
        obtain ⟨-, rfl⟩ := Prod.mk.inj (Option.some.inj cut_l)
        exact ⟨clear, [], after, rfl, .inl rfl, begins⟩
      | some parts =>
        obtain ⟨first, rest⟩ := parts
        rw [cut_append_of_some cut_before] at cut_l
        obtain ⟨-, rfl⟩ := Prod.mk.inj (Option.some.inj cut_l)
        exact ⟨clear, rest ++ [c], after, by simp, .inr ⟨rest, rfl⟩, begins⟩
  · rintro (rfl | ⟨clear, before, after, rfl, ends, begins⟩)
    · exact ⟨absent, [], c :: back, whole, .inl rfl, .inr ⟨back, rfl⟩⟩
    · refine ⟨clear, front ++ c :: before, after, by rw [whole]; simp, .inr ?_, begins⟩
      rcases ends with rfl | ⟨before, rfl⟩
      · exact ⟨front, rfl⟩
      · exact ⟨front ++ c :: before, by simp⟩

theorem piece_of_not_mem {c : α} {l : List α} (absent : c ∉ l) (piece : List α) : Piece c l piece ↔ piece = l := by
  constructor
  · rintro (same | ⟨front, rfl⟩)
    · exact same
    · exact absurd (by simp) absent
  · exact .inl

theorem piece_of_cut [DecidableEq α] {c : α} {l front back : List α} (cut_l : cut c l = some (front, back))
    (piece : List α) : Piece c l piece ↔ piece = l ∨ Piece c back piece := by
  obtain ⟨whole, absent⟩ := cut_eq_some.mp cut_l
  constructor
  · rintro (same | ⟨before, rfl⟩)
    · exact .inl same
    · right
      cases cut_before : cut c before with
      | none =>
        rw [cut_append _ (cut_eq_none.mp cut_before)] at cut_l
        obtain ⟨-, rfl⟩ := Prod.mk.inj (Option.some.inj cut_l)
        exact .inl rfl
      | some parts =>
        obtain ⟨first, rest⟩ := parts
        rw [cut_append_of_some cut_before] at cut_l
        obtain ⟨-, rfl⟩ := Prod.mk.inj (Option.some.inj cut_l)
        exact .inr ⟨rest, rfl⟩
  · rintro (same | rfl | ⟨before, rfl⟩)
    · exact .inl same
    · exact .inr ⟨front, whole⟩
    · exact .inr ⟨front ++ c :: before, by rw [whole]; simp⟩

end Askai.Library

/-!
# Branches that only move forward

A branch names a commit, or is yet unborn.  Writers move it to commits that contain the one it names.
-/

namespace Askai.Library

variable {C : Type*} (parents : C → List C)

/-- The first commit is the second one or an ancestor of it. -/
def Ancestor : C → C → Prop :=
  Relation.ReflTransGen fun p c => p ∈ parents c

/-- A new tip contains the old one. -/
def Contains (old : Option C) (new : C) : Prop :=
  ∀ tip ∈ old, Ancestor parents tip new

/-- Writers moved a branch, each to a tip that contains the one before. -/
inductive Moved (start : Option C) : Option C → Prop
  | refl : Moved start start
  | step {mid : Option C} {new : C} (moved : Moved start mid) (contains : Contains parents mid new) :
      Moved start (some new)

variable {parents}

theorem Moved.ancestor {p : C} {now : Option C} (moved : Moved parents (some p) now) :
    ∃ tip, now = some tip ∧ Ancestor parents p tip := by
  induction moved with
  | refl => exact ⟨p, rfl, .refl⟩
  | step moved contains ih =>
    obtain ⟨tip, rfl, before⟩ := ih
    exact ⟨_, rfl, before.trans (contains tip rfl)⟩

/-- No commit is its own ancestor's ancestor. -/
theorem Ancestor.antisymm (acyclic : WellFounded fun p c => p ∈ parents c) {a b : C}
    (left : Ancestor parents a b) (right : Ancestor parents b a) : a = b := by
  rcases Relation.reflTransGen_iff_eq_or_transGen.mp left with same | before
  · exact same.symm
  · exact absurd (before.trans_left right) (acyclic.transGen.irrefl.irrefl a)

/-- A commit that a writer adds to the tip it read goes there only if the branch is still at that tip:
nothing that came between is lost. -/
theorem Moved.tip_of_child (acyclic : WellFounded fun p c => p ∈ parents c) {p new : C}
    {now : Option C} (moved : Moved parents (some p) now) (child : parents new = [p])
    (contains : Contains parents now new) : now = some p ∨ now = some new := by
  obtain ⟨tip, rfl, before⟩ := moved.ancestor
  rcases Relation.ReflTransGen.cases_tail (contains tip rfl) with same | ⟨q, after, parent⟩
  · exact .inr (by rw [same])
  · rw [child, List.mem_singleton] at parent
    subst parent
    exact .inl (by rw [Ancestor.antisymm acyclic before after])

/-- A commit without parents goes to an unborn branch only. -/
theorem Contains.unborn {new : C} {now : Option C} (root : parents new = [])
    (contains : Contains parents now new) : now = none ∨ now = some new := by
  cases now with
  | none => exact .inl rfl
  | some tip =>
    rcases Relation.ReflTransGen.cases_tail (contains tip rfl) with same | ⟨q, -, parent⟩
    · exact .inr (by rw [same])
    · rw [root] at parent
      exact absurd parent List.not_mem_nil

end Askai.Library
