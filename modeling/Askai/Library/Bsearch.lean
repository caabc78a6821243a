import Mathlib.Data.List.Sort
import Mathlib.Data.List.TakeWhile
import Mathlib.Tactic

/-!
# Binary search

The search of C's `bsearch` in a list that is sorted by a key, and what it finds.
-/

namespace Askai.Library

open Std List

variable {α κ : Type*} [Ord κ]

/-- The loop of `bsearch` between two places. -/
def bsearchFrom (key : κ) (f : α → κ) (base : List α) (l u : Nat) : Option α :=
  if _inside : l < u then
    match base[(l + u) / 2]? with
    | none => none
    | some a =>
      match compare key (f a) with
      | .lt => bsearchFrom key f base l ((l + u) / 2)
      | .gt => bsearchFrom key f base ((l + u) / 2 + 1) u
      | .eq => some a
  else none
termination_by u - l

def bsearch (key : κ) (f : α → κ) (base : List α) : Option α :=
  bsearchFrom key f base 0 base.length

/-- The list is sorted by the key. -/
def SortedBy (f : α → κ) (base : List α) : Prop :=
  base.Pairwise fun a b => compare (f a) (f b) ≠ .gt

variable {base : List α} {f : α → κ}

theorem bsearchFrom_some {key : κ} [LawfulEqOrd κ] {l u : Nat} {a : α}
    (found : bsearchFrom key f base l u = some a) : a ∈ base ∧ f a = key := by
  induction l, u using bsearchFrom.induct key f base with
  | case1 l u inside none =>
    rw [bsearchFrom, dif_pos inside, none] at found
    cases found
  | case2 l u inside b here less ih =>
    rw [bsearchFrom, dif_pos inside, here] at found
    simp only [less] at found
    exact ih found
  | case3 l u inside b here greater ih =>
    rw [bsearchFrom, dif_pos inside, here] at found
    simp only [greater] at found
    exact ih found
  | case4 l u inside b here equal =>
    rw [bsearchFrom, dif_pos inside, here] at found
    simp only [equal] at found
    obtain rfl := Option.some.inj found
    exact ⟨mem_of_getElem? here, (LawfulEqOrd.eq_of_compare equal).symm⟩
  | case5 l u outside =>
    rw [bsearchFrom, dif_neg outside] at found
    cases found

/-- What lies between the two places is found. -/
theorem isSome_bsearchFrom [TransOrd κ] [LawfulEqOrd κ]
    (sorted : SortedBy f base) {l u k : Nat} (here : k < base.length) (low : l ≤ k) (high : k < u)
    (inside : u ≤ base.length) : (bsearchFrom (f base[k]) f base l u).isSome := by
  induction l, u using bsearchFrom.induct (f base[k]) f base with
  | case1 l u less none =>
    rw [List.getElem?_eq_none_iff] at none
    omega
  | case2 l u less b there below ih =>
    rw [bsearchFrom, dif_pos less, there]
    simp only [below]
    obtain ⟨bound, rfl⟩ := List.getElem?_eq_some_iff.mp there
    apply ih low _ (by omega)
    -- A place after the middle would hold no lesser key.
    by_contra after
    cases Nat.lt_or_eq_of_le (Nat.le_of_not_lt after) with
    | inl strict =>
      apply pairwise_iff_getElem.mp sorted _ _ bound here strict
      rw [OrientedOrd.eq_swap, below]
      rfl
    | inr same =>
      have self : compare (f base[k]) (f base[k]) = .eq := ReflOrd.compare_self
      simp only [same, self] at below
      cases below
  | case3 l u less b there above ih =>
    rw [bsearchFrom, dif_pos less, there]
    simp only [above]
    obtain ⟨bound, rfl⟩ := List.getElem?_eq_some_iff.mp there
    apply ih _ high inside
    by_contra before
    cases Nat.lt_or_eq_of_le (Nat.le_of_lt_succ (Nat.lt_of_not_le before)) with
    | inl strict => exact pairwise_iff_getElem.mp sorted _ _ here bound strict above
    | inr same =>
      have self : compare (f base[k]) (f base[k]) = .eq := ReflOrd.compare_self
      simp only [← same, self] at above
      cases above
  | case4 l u less b there equal =>
    rw [bsearchFrom, dif_pos less, there]
    simp only [equal, Option.isSome_some]
  | case5 l u outside => omega

/-- A search in a sorted list finds a key exactly when it is there. -/
theorem isSome_bsearch [TransOrd κ] [LawfulEqOrd κ] {key : κ}
    (sorted : SortedBy f base) : (bsearch key f base).isSome = true ↔ ∃ a ∈ base, f a = key := by
  constructor
  · intro found
    obtain ⟨a, found⟩ := Option.isSome_iff_exists.mp found
    obtain ⟨mem, same⟩ := bsearchFrom_some found
    exact ⟨a, mem, same⟩
  · rintro ⟨a, mem, rfl⟩
    obtain ⟨k, here, rfl⟩ := getElem_of_mem mem
    exact isSome_bsearchFrom sorted here (Nat.zero_le k) here (Nat.le_refl _)

theorem bsearch_some [LawfulEqOrd κ] {key : κ} {a : α} (found : bsearch key f base = some a) : a ∈ base ∧ f a = key :=
  bsearchFrom_some found

/-! ## Where a kind of elements ends -/

/-- The search, between two places, for the first element that is not of a kind. -/
def splitPoint (p : α → Bool) (base : List α) (l u : Nat) : Nat :=
  if _inside : l < u then
    match base[l + (u - l) / 2]? with
    | none => l
    | some a =>
      if p a then splitPoint p base (l + (u - l) / 2 + 1) u
      else splitPoint p base l (l + (u - l) / 2)
  else l
termination_by u - l

theorem splitPoint_eq {p : α → Bool} {front back : List α} (kind : ∀ a ∈ front, p a = true)
    (others : ∀ a ∈ back, p a = false) {l u : Nat} (low : l ≤ front.length) (high : front.length ≤ u)
    (inside : u ≤ (front ++ back).length) : splitPoint p (front ++ back) l u = front.length := by
  induction l, u using splitPoint.induct p (front ++ back) with
  | case1 l u less none_ =>
    rw [List.getElem?_eq_none_iff] at none_
    omega
  | case2 l u less a found is_ ih =>
    rw [splitPoint, dif_pos less, found]
    dsimp only
    rw [if_pos is_]
    refine ih ?_ high inside
    by_contra before
    rw [List.getElem?_append_right (by omega)] at found
    cases is_.symm.trans (others a (mem_of_getElem? found))
  | case3 l u less a found is_ ih =>
    rw [splitPoint, dif_pos less, found]
    dsimp only
    rw [if_neg is_]
    refine ih low ?_ (by omega)
    by_contra after
    rw [List.getElem?_append_left (by omega)] at found
    exact is_ (kind a (mem_of_getElem? found))
  | case4 l u outside =>
    rw [splitPoint, dif_neg outside]
    omega

/-- What does not begin with an element of a kind has none, where those behind an element that is not
are not either. -/
theorem dropWhile_all {α : Type*} {p : α → Bool} {l : List α}
    (stays : l.Pairwise fun a b => p a = false → p b = false) : ∀ a ∈ l.dropWhile p, p a = false := by
  induction l with
  | nil => simp
  | cons a l ih =>
    obtain ⟨behind, rest⟩ := pairwise_cons.mp stays
    rw [dropWhile_cons]
    split
    · exact ih rest
    · rename_i not
      intro b mem
      rcases mem_cons.mp mem with rfl | mem
      · simpa using not
      · exact behind b mem (by simpa using not)

/-- In a list that begins with all its elements of a kind, the search ends behind them. -/
theorem splitPoint_takeWhile {p : α → Bool} (stays : base.Pairwise fun a b => p a = false → p b = false) :
    splitPoint p base 0 base.length = (base.takeWhile p).length := by
  have whole : base.takeWhile p ++ base.dropWhile p = base := takeWhile_append_dropWhile
  have found := splitPoint_eq (fun a mem => mem_takeWhile_imp mem) (dropWhile_all stays)
    (Nat.zero_le _) (takeWhile_sublist p).length_le (by rw [whole])
  rwa [whole] at found

/-! ## Sorting -/

/-- The list sorted by the key, as `qsort` does with the comparison of the search. -/
def sortBy (f : α → κ) (base : List α) : List α :=
  base.mergeSort fun a b => (compare (f a) (f b)).isLE

@[simp]
theorem mem_sortBy {a : α} : a ∈ sortBy f base ↔ a ∈ base :=
  mem_mergeSort

theorem sortedBy_sortBy [TransOrd κ] (f : α → κ) (base : List α) : SortedBy f (sortBy f base) := by
  have sorted := @List.pairwise_mergeSort α (fun a b => (compare (f a) (f b)).isLE)
    (fun a b c first second => TransOrd.isLE_trans first second)
    (fun a b => by
      rw [OrientedOrd.eq_swap (a := f b)]
      cases compare (f a) (f b) <;> decide)
    base
  apply List.Pairwise.imp _ sorted
  intro a b le above
  rw [above] at le
  cases le

end Askai.Library
