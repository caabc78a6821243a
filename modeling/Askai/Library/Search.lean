import Askai.Library.Bytes
import Mathlib.Tactic

/-!
# Searches in bytes

The first of some bytes (`memmem`), and the last of a byte (`memrchr`).
-/

namespace Askai.Library

open List

/-- `memmem`: where the first `t` begins. -/
def memmem (t : Bytes) : Bytes → Option Nat
  | [] => if t = [] then some 0 else none
  | b :: s => if t.isPrefixOf (b :: s) then some 0 else (memmem t s).map (· + 1)

theorem memmem_eq_some {t s : Bytes} {k : Nat} (found : memmem t s = some k) :
    t <+: s.drop k ∧ ∀ j < k, ¬ t <+: s.drop j := by
  induction s generalizing k with
  | nil =>
    rw [memmem] at found
    split at found
    · rename_i empty
      obtain rfl := Option.some.inj found
      exact ⟨empty ▸ nil_prefix, nofun⟩
    · cases found
  | cons b s ih =>
    rw [memmem] at found
    split at found
    · rename_i here
      obtain rfl := Option.some.inj found
      exact ⟨ isPrefixOf_iff_prefix.mp here, nofun⟩
    · rename_i not
      obtain ⟨k, behind, rfl⟩ := Option.map_eq_some_iff.mp found
      obtain ⟨there, first⟩ := ih behind
      refine ⟨there, fun j less here => ?_⟩
      cases j with
      | zero => exact not ( isPrefixOf_iff_prefix.mpr here)
      | succ j => exact first j (Nat.lt_of_succ_lt_succ less) here

theorem memmem_eq_none {t s : Bytes} (absent : memmem t s = none) : ¬ t <:+: s := by
  induction s with
  | nil =>
    rw [memmem] at absent
    split at absent
    · cases absent
    · rename_i some_
      exact fun inside => some_ (infix_nil.mp inside)
  | cons b s ih =>
    rw [memmem] at absent
    split at absent
    · cases absent
    · rename_i not
      intro inside
      rcases infix_cons_iff.mp inside with here | behind
      · exact not ( isPrefixOf_iff_prefix.mpr here)
      · exact ih (Option.map_eq_none_iff.mp absent) behind

/-- Before the first there is none. -/
theorem memmem_take {t s : Bytes} {k : Nat} (found : memmem t s = some k) (some_ : t ≠ []) :
    s.take (k + t.length) = s.take k ++ t ∧ ¬ t <:+: s.take k := by
  obtain ⟨⟨back, here⟩, first⟩ := memmem_eq_some found
  constructor
  · rw [take_add, ← here, take_left]
  · rintro ⟨front, behind, whole⟩
    have length := congrArg List.length whole
    have positive := length_pos_iff.mpr some_
    simp only [length_append, length_take] at length
    apply first front.length (by omega)
    have rest := congrArg (List.drop front.length) whole
    rw [append_assoc, drop_left, drop_take] at rest
    exact (prefix_append t behind).trans (rest ▸ take_prefix _ _)

/-- `memrchr`: where the last `c` is. -/
def memrchr (c : UInt8) : Bytes → Option Nat
  | [] => none
  | b :: s =>
    match memrchr c s with
    | some k => some (k + 1)
    | none => if b = c then some 0 else none

theorem memrchr_eq_some {c : UInt8} {s : Bytes} {k : Nat} (found : memrchr c s = some k) : s[k]? = some c := by
  induction s generalizing k with
  | nil => cases found
  | cons b s ih =>
    rw [memrchr] at found
    split at found
    · rename_i j behind
      obtain rfl := Option.some.inj found
      rw [List.getElem?_cons_succ]
      exact ih behind
    · split at found
      · rename_i same
        obtain rfl := Option.some.inj found
        rw [same]
        rfl
      · cases found

theorem memrchr_eq_none {c : UInt8} {s : Bytes} : memrchr c s = none ↔ c ∉ s := by
  induction s with
  | nil => exact ⟨nofun, fun _ => rfl⟩
  | cons b s ih =>
    rw [memrchr, mem_cons, not_or]
    split
    · rename_i k found
      rw [found] at ih
      exact ⟨nofun, fun absent => nomatch ih.mpr absent.2⟩
    · rename_i found
      have absent := ih.mp found
      split
      · rename_i same
        exact ⟨nofun, fun both => (both.1 same.symm).elim⟩
      · rename_i other
        exact ⟨fun _ => ⟨fun same => other same.symm, absent⟩, fun _ => rfl⟩

/-- The last of a byte is before bytes without it. -/
theorem memrchr_append {c : UInt8} (s : Bytes) {t : Bytes} (absent : c ∉ t) :
    memrchr c (s ++ c :: t) = some s.length := by
  induction s with
  | nil => rw [nil_append, memrchr, memrchr_eq_none.mpr absent, if_pos rfl]; rfl
  | cons b s ih => rw [cons_append, memrchr, ih]; rfl

theorem memrchr_lt {c : UInt8} {s : Bytes} {k : Nat} (found : memrchr c s = some k) : k < s.length :=
  (List.getElem?_eq_some_iff.mp (memrchr_eq_some found)).1

end Askai.Library
