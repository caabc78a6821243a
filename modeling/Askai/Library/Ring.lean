import Mathlib.Data.List.Basic
import Mathlib.Tactic

/-!
# Ring buffers

The cells of a ring that a position and a length select, the two segments they lie in, and positions
that run freely and wrap at a multiple of the ring's size.
-/

namespace Askai.Library

variable {α : Type*} {data : Nat → α} {size p q k m n : Nat}

/-- `n` cells from cell `p` on. -/
def segment (data : Nat → α) (p n : Nat) : List α :=
  (List.range n).map fun k => data (p + k)

/-- The cells of `n` positions from position `p` on, in a ring of `size` cells. -/
def cyclic (size : Nat) (data : Nat → α) (p n : Nat) : List α :=
  (List.range n).map fun k => data ((p + k) % size)

@[simp] theorem length_segment : (segment data p n).length = n := by
  simp [segment]

@[simp] theorem length_cyclic : (cyclic size data p n).length = n := by
  simp [cyclic]

@[simp] theorem segment_zero : segment data p 0 = [] := rfl

@[simp] theorem cyclic_zero : cyclic size data p 0 = [] := rfl

theorem range_map_add (f : Nat → α) (m n : Nat) :
    (List.range (m + n)).map f = (List.range m).map f ++ (List.range n).map fun k => f (m + k) := by
  rw [List.range_add, List.map_append, List.map_map]
  rfl

theorem segment_add (data : Nat → α) (p m n : Nat) :
    segment data p (m + n) = segment data p m ++ segment data (p + m) n := by
  rw [segment, range_map_add]
  simp only [segment, Nat.add_assoc]

theorem cyclic_add (size : Nat) (data : Nat → α) (p m n : Nat) :
    cyclic size data p (m + n) = cyclic size data p m ++ cyclic size data (p + m) n := by
  rw [cyclic, range_map_add]
  simp only [cyclic, Nat.add_assoc]

theorem cyclic_succ (size : Nat) (data : Nat → α) (p n : Nat) :
    cyclic size data p (n + 1) = cyclic size data p n ++ [data ((p + n) % size)] := by
  rw [cyclic_add]
  rfl

theorem drop_segment (fits : m ≤ n) : (segment data p n).drop m = segment data (p + m) (n - m) := by
  obtain ⟨rest, rfl⟩ := Nat.exists_eq_add_of_le fits
  rw [segment_add, List.drop_left' length_segment, Nat.add_sub_cancel_left]

/-- Positions that are one cell apart differ by a multiple of the size. -/
theorem mod_ne (after : p < q) (near : q < p + size) : p % size ≠ q % size := by
  intro same
  have apart : (q - p) % size = 0 := Nat.sub_mod_eq_zero_of_mod_eq same.symm
  rw [Nat.mod_eq_of_lt (by omega)] at apart
  omega

/-- A cell that is written outside of a region leaves the region as it was. -/
theorem cyclic_update (outside : p + n ≤ q) (near : q < p + size) (data : Nat → α) (x : α) :
    cyclic size (Function.update data (q % size) x) p n = cyclic size data p n := by
  apply List.map_congr_left
  intro k inside
  rw [List.mem_range] at inside
  rw [Function.update_of_ne]
  exact mod_ne (by omega) (by omega)

/-- The cells of a region that fits in the ring lie in one segment up to its end, and in one from its
start. -/
theorem cyclic_eq_segments (data : Nat → α) (p : Nat) (fits : n ≤ size) : cyclic size data p n =
      segment data (p % size) (min n (size - p % size)) ++ segment data 0 (n - min n (size - p % size)) := by
  rcases Nat.eq_zero_or_pos size with rfl | positive
  · obtain rfl := Nat.le_zero.mp fits
    rfl
  have inside := Nat.mod_lt p positive
  set first := min n (size - p % size) with first_eq
  obtain ⟨rest, split⟩ := Nat.exists_eq_add_of_le (show first ≤ n from min_le_left _ _)
  rw [split, Nat.add_sub_cancel_left, cyclic_add]
  congr 1
  · apply List.map_congr_left
    intro k less
    rw [List.mem_range] at less
    rw [Nat.add_mod, Nat.mod_eq_of_lt (a := k) (by omega), Nat.mod_eq_of_lt (by omega)]
  · apply List.map_congr_left
    intro k less
    rw [List.mem_range] at less
    have whole : p + first + k = p / size * size + (p % size + first + k) := by
      have parts := Nat.div_add_mod' p size
      omega
    have wraps : p % size + first + k = size + k := by omega
    rw [whole, wraps, Nat.zero_add, ← Nat.add_assoc, Nat.add_mod, Nat.add_mod_right,
      Nat.mul_mod_left, Nat.zero_add, Nat.mod_mod, Nat.mod_eq_of_lt (by omega)]

/-- Positions with one cell start the same region. -/
theorem cyclic_congr (same : p % size = q % size) (data : Nat → α) (n : Nat) :
    cyclic size data p n = cyclic size data q n := by
  apply List.map_congr_left
  intro k _
  rw [Nat.add_mod, same, ← Nat.add_mod]

/-! ## Positions that wrap -/

variable {width : Nat}

/-- A position that wraps at a multiple of the size is in the same cell. -/
theorem mod_mod_of_wrap (wraps : size ∣ width) (p : Nat) : p % width % size = p % size :=
  Nat.mod_mod_of_dvd p wraps

/-- `q - p` of positions that wrap at `width`. -/
def apart (width q p : Nat) : Nat := (q + width - p) % width

/-- The distance of two positions is that of what is left of them when they wrap. -/
theorem apart_mod (before : p ≤ q) (near : q < p + width) : apart width (q % width) (p % width) = q - p := by
  obtain ⟨r, rfl⟩ := Nat.exists_eq_add_of_le before
  have low := Nat.mod_lt p (show 0 < width by omega)
  rw [apart, ← Nat.mod_add_mod, Nat.add_sub_cancel_left]
  rcases Nat.lt_or_ge (p % width + r) width with less | more
  · rw [Nat.mod_eq_of_lt less, show p % width + r + width - p % width = r + width by omega,
      Nat.add_mod_right, Nat.mod_eq_of_lt (by omega)]
  · have past : p % width + r - width < width := by omega
    rw [Nat.mod_eq_sub_mod more, Nat.mod_eq_of_lt past,
      show p % width + r - width + width - p % width = r by omega, Nat.mod_eq_of_lt (by omega)]

/-- Where byte `k` of a region goes that is written in two segments. -/
theorem cell_of_segments (fits : n ≤ size) (inside : k < n) (p : Nat) :
    (if k < min n (size - p % size) then p % size + k else k - min n (size - p % size)) = (p + k) % size := by
  have low := Nat.mod_lt p (show 0 < size by omega)
  rw [← Nat.mod_add_mod p size k]
  generalize p % size = base at low ⊢
  split
  · rw [Nat.mod_eq_of_lt (by omega)]
  · rw [Nat.mod_eq_sub_mod (by omega), Nat.mod_eq_of_lt (by omega)]
    omega

end Askai.Library
