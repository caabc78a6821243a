import Mathlib.Tactic

/-!
# Machines that may refuse

A machine takes in the elements of a list one by one, up to the first that it refuses, which may
change its state too; what it takes in of a list does not depend on how the list is cut, and the
rules for what it takes in of a list that is put together.
-/

namespace Askai.Library

variable {σ α : Type*} {step : σ → α → Except σ σ} {s t : σ} {x : α} {l m : List α}

/-- How many elements the machine takes in, and its state then. -/
def feed (step : σ → α → Except σ σ) (s : σ) : List α → Nat × σ
  | [] => (0, s)
  | x :: l =>
    match step s x with
    | .error t => (0, t)
    | .ok t => ((feed step t l).1 + 1, (feed step t l).2)

@[simp] theorem feed_nil : feed step s [] = (0, s) := rfl

theorem feed_cons_error (refused : step s x = .error t) : feed step s (x :: l) = (0, t) := by
  rw [feed, refused]

theorem feed_cons_ok (taken : step s x = .ok t) :
    feed step s (x :: l) = ((feed step t l).1 + 1, (feed step t l).2) := by
  rw [feed, taken]

theorem feed_le (step : σ → α → Except σ σ) (s : σ) (l : List α) : (feed step s l).1 ≤ l.length := by
  induction l generalizing s with
  | nil => exact Nat.le_refl 0
  | cons x l ih =>
    cases taken : step s x with
    | error t =>
      rw [feed_cons_error taken]
      exact Nat.zero_le _
    | ok t =>
      rw [feed_cons_ok taken]
      exact Nat.succ_le_succ (ih t)

/-- A list taken in whole leads on to what follows it. -/
theorem feed_append (whole : (feed step s l).1 = l.length) : feed step s (l ++ m) =
      (l.length + (feed step (feed step s l).2 m).1, (feed step (feed step s l).2 m).2) := by
  induction l generalizing s with
  | nil => simp
  | cons x l ih =>
    cases taken : step s x with
    | error t =>
      rw [feed_cons_error taken] at whole
      cases whole
    | ok t =>
      rw [feed_cons_ok taken] at whole ⊢
      rw [List.cons_append, feed_cons_ok taken, ih (Nat.succ.inj whole), List.length_cons]
      exact Prod.ext (by dsimp only; omega) rfl

/-- What follows an element refused does not count. -/
theorem feed_append_of_lt (less : (feed step s l).1 < l.length) : feed step s (l ++ m) = feed step s l := by
  induction l generalizing s with
  | nil => exact absurd less (Nat.not_lt_zero _)
  | cons x l ih =>
    cases taken : step s x with
    | error t => rw [List.cons_append, feed_cons_error taken, feed_cons_error taken]
    | ok t =>
      rw [feed_cons_ok taken] at less
      rw [List.cons_append, feed_cons_ok taken, feed_cons_ok taken, ih (Nat.lt_of_succ_lt_succ less)]

/-! ## Pieces -/

/-- A reader takes in pieces in turn, up to the first that it does not take in whole. -/
def inTurn (read : σ → List α → Nat × σ) (s : σ) : List (List α) → Nat × σ
  | [] => (0, s)
  | l :: pieces =>
    if (read s l).1 < l.length then read s l
    else ((read s l).1 + (inTurn read (read s l).2 pieces).1, (inTurn read (read s l).2 pieces).2)

/-- However a list is cut, the machine takes in as much of it. -/
theorem inTurn_feed (step : σ → α → Except σ σ) (s : σ) (pieces : List (List α)) :
    inTurn (feed step) s pieces = feed step s pieces.flatten := by
  induction pieces generalizing s with
  | nil => rfl
  | cons l pieces ih =>
    rw [inTurn, List.flatten_cons]
    split
    · next less => rw [feed_append_of_lt less]
    · next whole =>
        have all : (feed step s l).1 = l.length :=
          Nat.le_antisymm (feed_le step s l) (Nat.le_of_not_lt whole)
        rw [feed_append all, ih, all]

/-! ## What is taken in whole -/

/-- From `s`, the machine takes in the whole list if and only if it `fits`, and ends up in `after`. -/
def Takes (step : σ → α → Except σ σ) (s : σ) (l : List α) (fits : Prop) (after : σ → Prop) : Prop :=
  ((feed step s l).1 = l.length ↔ fits) ∧ (fits → after (feed step s l).2)

namespace Takes

variable {fits fits' : Prop} {after after' : σ → Prop}

theorem nil (here : after s) : Takes step s [] True after :=
  ⟨iff_of_true rfl trivial, fun _ => here⟩

theorem of_feed (fed : feed step s l = (l.length, t)) (there : after t) : Takes step s l True after := by
  rw [Takes, fed]
  exact ⟨iff_of_true rfl trivial, fun _ => there⟩

theorem single (taken : step s x = .ok t) (there : after t) : Takes step s [x] True after :=
  of_feed (by rw [feed_cons_ok taken, feed_nil]; rfl) there

/-- One element, taken in if and only if it fits. -/
theorem guard (taken : fits → ∃ t, step s x = .ok t ∧ after t) (refused : ¬fits → ∃ t, step s x = .error t) :
    Takes step s [x] fits after := by
  constructor
  · constructor
    · intro whole
      by_contra unfit
      obtain ⟨t, refused⟩ := refused unfit
      rw [feed_cons_error refused] at whole
      cases whole
    · intro fit
      obtain ⟨t, taken, -⟩ := taken fit
      rw [feed_cons_ok taken, feed_nil]
      rfl
  · intro fit
    obtain ⟨t, taken, there⟩ := taken fit
    rw [feed_cons_ok taken]
    exact there

/-- One list behind another. -/
theorem append (front : Takes step s l fits after) (back : fits → ∀ t, after t → Takes step t m fits' after') :
    Takes step s (l ++ m) (fits ∧ fits') after' := by
  obtain ⟨whole, there⟩ := front
  by_cases fit : fits
  · have all := whole.mpr fit
    have rest := back fit _ (there fit)
    constructor
    · rw [feed_append all, List.length_append, Nat.add_left_cancel_iff, rest.1]
      exact ⟨fun fit' => ⟨fit, fit'⟩, And.right⟩
    · rintro ⟨-, fit'⟩
      rw [feed_append all]
      exact rest.2 fit'
  · have less : (feed step s l).1 < l.length :=
      Nat.lt_of_le_of_ne (feed_le step s l) fun all => fit (whole.mp all)
    constructor
    · rw [feed_append_of_lt less, List.length_append]
      exact ⟨fun all => by omega, fun both => absurd both.1 fit⟩
    · exact fun both => absurd both.1 fit

theorem cons (front : Takes step s [x] fits after) (back : fits → ∀ t, after t → Takes step t m fits' after') :
    Takes step s (x :: m) (fits ∧ fits') after' :=
  front.append back

/-- The same, said in other words. -/
theorem congr (takes : Takes step s l fits after) (same : fits ↔ fits')
    (weaker : fits → ∀ t, after t → after' t) : Takes step s l fits' after' :=
  ⟨takes.1.trans same, fun fit => weaker (same.mpr fit) _ (takes.2 (same.mpr fit))⟩

end Takes

end Askai.Library
