import Mathlib.Algebra.BigOperators.Group.Finset.Basic
import Mathlib.Tactic

/-!
# Sums over a table

What the entries of a table come to when one of them changes.
-/

namespace Askai.Library

variable {α : Type*} {n i : Nat} {f : Nat → α}

/-- The sum of `g` over the first `n` entries of the table `f`. -/
def tally (n : Nat) (g : α → Nat) (f : Nat → α) : Nat :=
  ∑ j ∈ Finset.range n, g (f j)

/-- A change of an entry changes the sum by as much. -/
theorem tally_update (inside : i < n) (g : α → Nat) (f : Nat → α) (x : α) :
    tally n g (Function.update f i x) + g (f i) = tally n g f + g x := by
  have mem : i ∈ Finset.range n := Finset.mem_range.mpr inside
  have rest : ∑ j ∈ (Finset.range n).erase i, g (Function.update f i x j) =
      ∑ j ∈ (Finset.range n).erase i, g (f j) := by
    apply Finset.sum_congr rfl
    intro j mem
    rw [Function.update_of_ne (Finset.ne_of_mem_erase mem)]
  have before := Finset.add_sum_erase (Finset.range n) (fun j => g (f j)) mem
  have after := Finset.add_sum_erase (Finset.range n) (fun j => g (Function.update f i x j)) mem
  simp only [Function.update_self] at after
  unfold tally
  omega

/-- What an entry keeps as it changes, every entry keeps. -/
theorem update_apply_eq {β : Type*} (g : α → β) {x : α} (same : g x = g (f i)) (j : Nat) :
    g (Function.update f i x j) = g (f j) := by
  rcases eq_or_ne j i with rfl | other
  · rw [Function.update_self, same]
  · rw [Function.update_of_ne other]

/-- An entry that changes in nothing that counts leaves the sum as it was. -/
theorem tally_update_eq {g : α → Nat} {x : α} (same : g x = g (f i)) :
    tally n g (Function.update f i x) = tally n g f := by
  unfold tally
  apply Finset.sum_congr rfl
  intro j _
  exact update_apply_eq g same j

/-- A change past the end leaves the sum as it was. -/
theorem tally_update_of_le (past : n ≤ i) {g : α → Nat} {x : α} : tally n g (Function.update f i x) = tally n g f := by
  unfold tally
  apply Finset.sum_congr rfl
  intro j mem
  have below := Finset.mem_range.mp mem
  rw [Function.update_of_ne (by omega)]

theorem tally_succ (n : Nat) (g : α → Nat) (f : Nat → α) : tally (n + 1) g f = tally n g f + g (f n) :=
  Finset.sum_range_succ ..

theorem le_tally (inside : i < n) (g : α → Nat) (f : Nat → α) : g (f i) ≤ tally n g f :=
  Finset.single_le_sum (f := fun j => g (f j)) (fun _ _ => Nat.zero_le _)
    (Finset.mem_range.mpr inside)

theorem tally_const (n : Nat) (g : α → Nat) (x : α) : tally n g (fun _ => x) = n * g x := by
  simp [tally]

theorem tally_eq_zero (g : α → Nat) (f : Nat → α) (none : ∀ j < n, g (f j) = 0) : tally n g f = 0 := by
  unfold tally
  apply Finset.sum_eq_zero
  intro j mem
  exact none j (Finset.mem_range.mp mem)

end Askai.Library
