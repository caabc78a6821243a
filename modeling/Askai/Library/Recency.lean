import Mathlib.Data.List.Dedup
import Mathlib.Tactic

/-!
# The most recent items within bounds

The longest end of a list that is within a number of items and a sum of their weights, and that it can be kept up as
items come, where an item that comes again is moved to the end.
-/

namespace Askai.Library

open List

variable {α : Type*}

section Fitting

variable (weight : α → Nat) (most weighs : Nat)

/-- The list is within the bounds. -/
def Within (l : List α) : Prop :=
  l.length ≤ most ∧ (l.map weight).sum ≤ weighs

instance (l : List α) : Decidable (Within weight most weighs l) :=
  inferInstanceAs (Decidable (_ ∧ _))

/-- The longest end of a list that is within the bounds. -/
def lastWithin : List α → List α
  | [] => []
  | a :: l => if Within weight most weighs (a :: l) then a :: l else lastWithin l

/-- The longest end of a list after which there is room for one more item. -/
def roomFor (x : α) : List α → List α
  | [] => []
  | a :: l => if Within weight most weighs (a :: l ++ [x]) then a :: l else roomFor x l

/-- An item that comes: it is moved to the end, or put there after items that make room for it. -/
def comes [DecidableEq α] (l : List α) (x : α) : List α :=
  if x ∈ l then l.erase x ++ [x] else roomFor weight most weighs x l ++ [x]

variable {weight most weighs} {l r : List α} {x : α}

theorem Within.nil : Within weight most weighs [] :=
  ⟨Nat.zero_le _, Nat.zero_le _⟩

theorem Within.sublist (within : Within weight most weighs l) (sub : r.Sublist l) : Within weight most weighs r :=
  ⟨sub.length_le.trans within.1, (sub.map weight).sum_le_sum (fun _ _ => Nat.zero_le _) |>.trans within.2⟩

theorem Within.perm (within : Within weight most weighs l) (perm : l.Perm r) : Within weight most weighs r :=
  ⟨perm.length_eq ▸ within.1, (perm.map weight).sum_eq ▸ within.2⟩

theorem lastWithin_self (within : Within weight most weighs l) : lastWithin weight most weighs l = l := by
  cases l with
  | nil => rfl
  | cons a l => rw [lastWithin, if_pos within]

theorem lastWithin_suffix (l : List α) : lastWithin weight most weighs l <:+ l := by
  induction l with
  | nil => exact suffix_refl _
  | cons a l ih =>
    rw [lastWithin]
    split
    · exact suffix_refl _
    · exact ih.trans (suffix_cons a l)

theorem within_lastWithin (l : List α) : Within weight most weighs (lastWithin weight most weighs l) := by
  induction l with
  | nil => exact .nil
  | cons a l ih =>
    rw [lastWithin]
    split
    · next within => exact within
    · exact ih

theorem roomFor_suffix (l : List α) : roomFor weight most weighs x l <:+ l := by
  induction l with
  | nil => exact suffix_refl _
  | cons a l ih =>
    rw [roomFor]
    split
    · exact suffix_refl _
    · exact ih.trans (suffix_cons a l)

/-- What is before an end that is past the bounds does not matter. -/
theorem lastWithin_append (past : ¬ Within weight most weighs r) (l : List α) :
    lastWithin weight most weighs (l ++ r) = lastWithin weight most weighs r := by
  induction l with
  | nil => rfl
  | cons a l ih =>
    rw [cons_append, lastWithin, if_neg, ih]
    intro within
    exact past (within.sublist ((sublist_append_right l r).cons a))

/-- Nothing longer than the longest end is within the bounds. -/
theorem not_within_of_lastWithin {a : α} (is : l ++ a :: lastWithin weight most weighs r = r) :
    ¬ Within weight most weighs (a :: lastWithin weight most weighs r) := by
  intro within
  induction r generalizing l with
  | nil => exact append_ne_nil_of_right_ne_nil _ (cons_ne_nil _ _) is
  | cons b r ih =>
    by_cases whole : Within weight most weighs (b :: r)
    · rw [lastWithin, if_pos whole] at is
      have length := congrArg List.length is
      rw [length_append, length_cons] at length
      omega
    · rw [lastWithin, if_neg whole] at is within
      cases l with
      | nil =>
        rw [nil_append] at is
        rw [is] at within
        exact whole within
      | cons c l => exact ih (List.cons.inj is).2 within

/-- Room for one more item is what there is of the list in the longest end. -/
theorem roomFor_append (alone : Within weight most weighs [x]) (l : List α) :
    roomFor weight most weighs x l ++ [x] = lastWithin weight most weighs (l ++ [x]) := by
  induction l with
  | nil => rw [roomFor, nil_append, lastWithin_self alone]
  | cons a l ih =>
    rw [roomFor, cons_append, lastWithin]
    split
    · rfl
    · exact ih

variable [DecidableEq α]

theorem dedup_concat (l : List α) (x : α) : (l ++ [x]).dedup = l.dedup.filter (· ≠ x) ++ [x] := by
  induction l with
  | nil => rfl
  | cons a l ih =>
    rw [cons_append, dedup_cons, ih, dedup_cons]
    by_cases among : a ∈ l
    · rw [if_pos (mem_append_left _ among), if_pos among]
    · rw [if_neg among]
      by_cases same : a = x
      · rw [if_pos (mem_append_right _ (mem_singleton.mpr same)), filter_cons_of_neg (by simpa using same)]
      · rw [if_neg, filter_cons_of_pos (by simpa using same)]
        · rfl
        · intro is
          obtain is | is := mem_append.mp is
          · exact among is
          · exact same (mem_singleton.mp is)

theorem comes_mem {a b : List α} (first : x ∉ a) : comes weight most weighs (a ++ x :: b) x = a ++ b ++ [x] := by
  rw [comes, if_pos (mem_append_right _ mem_cons_self), erase_append_right _ first, erase_cons_head]

theorem filter_ne_self (absent : x ∉ l) : l.filter (· ≠ x) = l := by
  rw [filter_eq_self]
  intro a among
  exact decide_eq_true fun same => absent (same ▸ among)

/-- The longest end within the bounds is kept up by what comes: an item that was dropped may come again. -/
theorem lastWithin_comes (alone : Within weight most weighs [x]) (l : List α) :
    comes weight most weighs (lastWithin weight most weighs l.dedup) x =
      lastWithin weight most weighs (l ++ [x]).dedup := by
  obtain ⟨d, dIs⟩ : ∃ d, d = l.dedup := ⟨_, rfl⟩
  have distinct : d.Nodup := dIs ▸ nodup_dedup l
  rw [dedup_concat, ← dIs]
  obtain ⟨r, rIs⟩ : ∃ r, r = lastWithin weight most weighs d := ⟨_, rfl⟩
  obtain ⟨a, aIs⟩ : r <:+ d := rIs ▸ lastWithin_suffix d
  have within : Within weight most weighs r := rIs ▸ within_lastWithin d
  rw [← aIs, nodup_append'] at distinct
  obtain ⟨-, rDistinct, disjoint⟩ := distinct
  have past : ∀ front b, a = front ++ [b] → ¬ Within weight most weighs (b :: r) := by
    rintro front b rfl
    rw [rIs]
    apply not_within_of_lastWithin (l := front)
    rw [← rIs, ← aIs, append_assoc]
    rfl
  rw [← rIs, comes]
  by_cases among : x ∈ r
  · have absent : x ∉ a := fun is => disjoint is among
    have erased : r.erase x = r.filter (· ≠ x) := by
      rw [rDistinct.erase_eq_filter]
      exact filter_congr fun b _ => by rw [Bool.eq_iff_iff, bne_iff_ne, decide_eq_true_iff]
    rw [if_pos among, ← aIs, filter_append, filter_ne_self absent, ← erased, append_assoc]
    have perm : (x :: r.erase x).Perm r := (perm_cons_erase among).symm
    have rotated : (r.erase x ++ [x]).Perm r := (perm_append_singleton x _).trans perm
    rcases eq_nil_or_concat' a with rfl | ⟨front, b, rfl⟩
    · rw [nil_append, lastWithin_self (within.perm rotated.symm)]
    · have longer : ¬ Within weight most weighs (b :: (r.erase x ++ [x])) :=
        fun is => past front b rfl (is.perm (rotated.cons b))
      rw [append_assoc, singleton_append, lastWithin_append longer, lastWithin, if_neg longer,
        lastWithin_self (within.perm rotated.symm)]
  · rw [if_neg among, ← aIs, filter_append, filter_ne_self among, roomFor_append alone, append_assoc]
    by_cases full : Within weight most weighs (r ++ [x])
    · rcases eq_nil_or_concat' a with rfl | ⟨front, b, rfl⟩
      · rw [filter_nil, nil_append]
      · have other : b ≠ x := by
          rintro rfl
          exact past front b rfl (full.perm (perm_append_singleton b r))
        have longer : ¬ Within weight most weighs (b :: (r ++ [x])) :=
          fun is => past front b rfl (is.sublist ((sublist_append_left r [x]).cons_cons b))
        rw [filter_append, filter_cons_of_pos (by simpa using other), filter_nil, append_assoc,
          singleton_append, lastWithin_append longer, lastWithin.eq_2 _ _ _ b, if_neg longer]
    · rw [lastWithin_append full]

end Fitting

end Askai.Library
