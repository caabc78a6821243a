import Mathlib.Tactic

/-!
# Room in arrays and budgets

How arrays grow (`util_room` and `util_grow` of `util.h`), and tallies of items and of their bytes (`tally.h`).
-/

namespace Askai

/-- `util_grow` of an array with room for `cap` items of `size` bytes: its room for `n` items, none for
`ENOMEM`. -/
def utilGrow (memory : Bool) (size cap n : Nat) : Option Nat :=
  if n ≤ cap then some cap
  else
    let most := (2 ^ 64 - 1) / size
    let more := if cap = 0 then 4 else 2 * cap
    let more := if more < n ∨ most < more then n else more
    if n ≤ most ∧ memory then some more else none

theorem le_utilGrow {memory : Bool} {size cap n room : Nat}
    (grown : utilGrow memory size cap n = some room) : n ≤ room ∧ cap ≤ room := by
  rw [utilGrow] at grown
  dsimp only at grown
  split_ifs at grown with fits some_
  all_goals obtain rfl := Option.some.inj grown
  · exact ⟨fits, Nat.le_refl _⟩
  all_goals omega

/-- `struct tally`. -/
structure Tally where
  n : Nat := 0
  bytes : Nat := 0
  deriving DecidableEq

/-- `tally_fits`. -/
def Tally.fits (used most : Tally) (bytes : Nat) : Bool :=
  used.n < most.n ∧ used.bytes ≤ most.bytes ∧ bytes ≤ most.bytes - used.bytes

/-- `tally_add`. -/
def Tally.add (used : Tally) (bytes : Nat) : Tally where
  n := used.n + 1
  bytes := used.bytes + bytes

/-- `tally_sub`. -/
def Tally.sub (used : Tally) (bytes : Nat) : Tally where
  n := used.n - 1
  bytes := used.bytes - bytes

end Askai
