import Askai.Library.Bsearch
import Mathlib.Data.List.Pairwise
import Mathlib.Data.List.TakeWhile
import Mathlib.Tactic

/-!
# Stretches of numbers

Sorted lists of stretches of natural numbers, each with a tag, as partial functions from numbers to
tags, and the list that one more stretch laid on top of them gives.
-/

namespace Askai.Library

open List

/-- The numbers from `first` to `last`, tagged. -/
structure Stretch (τ : Type*) where
  first : Nat
  last : Nat
  tag : τ
  deriving DecidableEq

namespace Stretch

variable {τ : Type*}

def Has (r : Stretch τ) (x : Nat) : Prop :=
  r.first ≤ x ∧ x ≤ r.last

instance (r : Stretch τ) (x : Nat) : Decidable (r.Has x) :=
  inferInstanceAs (Decidable (_ ∧ _))

/-- One ends before the other begins, and has another tag where the two adjoin. -/
def Apart (a b : Stretch τ) : Prop :=
  a.last < b.first ∧ (a.last + 1 = b.first → a.tag ≠ b.tag)

/-- Sorted, disjoint, none empty, and of different tags where two adjoin. -/
structure Neat (rs : List (Stretch τ)) : Prop where
  filled : ∀ r ∈ rs, r.first ≤ r.last
  apart : rs.Pairwise Apart

/-- The tag of a number. -/
def tagAt (rs : List (Stretch τ)) (x : Nat) : Option τ :=
  (rs.find? fun r => r.Has x).map tag

/-- A stretch laid on top of a partial function. -/
def lay (m : Nat → Option τ) (r : Stretch τ) (x : Nat) : Option τ :=
  if r.Has x then some r.tag else m x

variable {rs front mid back : List (Stretch τ)} {r : Stretch τ} {x : Nat} {t : τ}

theorem Neat.sublist {rs' : List (Stretch τ)} (neat : Neat rs) (sub : rs'.Sublist rs) : Neat rs' :=
  ⟨fun r mem => neat.filled r (sub.subset mem), neat.apart.sublist sub⟩

theorem tagAt_cons (r : Stretch τ) (rs : List (Stretch τ)) (x : Nat) :
    tagAt (r :: rs) x = if r.Has x then some r.tag else tagAt rs x := by
  rw [tagAt, List.find?_cons]
  split
  · rename_i has
    rw [if_pos (by simpa using has)]
    rfl
  · rename_i has
    rw [if_neg (by simpa using has)]
    rfl

/-- In a neat list there is one stretch at most that has a number. -/
theorem Neat.tagAt_iff (neat : Neat rs) : tagAt rs x = some t ↔ ∃ r ∈ rs, r.Has x ∧ r.tag = t := by
  induction rs with
  | nil => simp [tagAt]
  | cons r rs ih =>
    obtain ⟨behind, -⟩ := pairwise_cons.mp neat.apart
    have rest := ih (neat.sublist (sublist_cons_self ..))
    rw [tagAt_cons]
    split
    · rename_i has
      constructor
      · intro same
        exact ⟨r, mem_cons_self, has, Option.some.inj same⟩
      · rintro ⟨q, mem, has', rfl⟩
        rcases mem_cons.mp mem with rfl | mem
        · rfl
        · have less := (behind q mem).1
          have := has.2
          have := has'.1
          omega
    · rename_i other
      rw [rest]
      constructor
      · rintro ⟨q, mem, has, tag⟩
        exact ⟨q, mem_cons_of_mem _ mem, has, tag⟩
      · rintro ⟨q, mem, has, tag⟩
        rcases mem_cons.mp mem with rfl | mem
        · exact absurd has other
        · exact ⟨q, mem, has, tag⟩

/-- A stretch meets those in the middle of a list. -/
structure Meets (front mid back : List (Stretch τ)) (r : Stretch τ) : Prop where
  filled : r.first ≤ r.last
  front : ∀ a ∈ front, a.last + 1 < r.first
  mid : ∀ a ∈ mid, r.first ≤ a.last + 1 ∧ a.first ≤ r.last + 1
  back : ∀ a ∈ back, r.last + 1 < a.first

/-- The first and the last of the stretches met. -/
theorem mid_ends (neat : Neat (front ++ mid ++ back)) (meets : Meets front mid back r) (some_ : mid ≠ []) :
    ∃ lo ∈ mid, ∃ hi ∈ mid, mid.head?.getD r = lo ∧ mid.getLast?.getD r = hi ∧
      (∀ a ∈ mid, a = lo ∨ r.first ≤ a.first) ∧ (∀ a ∈ mid, a = hi ∨ a.last ≤ r.last) := by
  have filled : ∀ a ∈ mid, a.first ≤ a.last := fun a mem => neat.filled a (by simp [mem])
  have apart : mid.Pairwise Apart := neat.apart.sublist (by
    rw [append_assoc]
    exact (sublist_append_left ..).trans (sublist_append_right ..))
  refine ⟨mid.head some_, head_mem some_, mid.getLast some_, getLast_mem some_, ?_, ?_, ?_, ?_⟩
  · rw [List.head?_eq_some_head some_]
    rfl
  · rw [List.getLast?_eq_some_getLast some_]
    rfl
  · obtain ⟨lo, rest, rfl⟩ := exists_cons_of_ne_nil some_
    intro a mem
    rcases mem_cons.mp mem with rfl | mem
    · exact .inl rfl
    · have less := ((pairwise_cons.mp apart).1 a mem).1
      have first := (meets.mid lo mem_cons_self).1
      exact .inr (by omega)
  · obtain ⟨rest, hi, rfl⟩ := (eq_nil_or_concat' mid).resolve_left some_
    intro a mem
    rw [getLast_concat]
    rcases mem_append.mp mem with mem | mem
    · have less := ((pairwise_append.mp apart).2.2 a mem hi (by simp)).1
      have last := (meets.mid hi (by simp)).2
      exact .inr (by omega)
    · exact .inl (mem_singleton.mp mem)

/-- The stretches before the ones that one meets, those, and the rest. -/
def split (rs : List (Stretch τ)) (r : Stretch τ) : List (Stretch τ) × List (Stretch τ) × List (Stretch τ) :=
  let rest := rs.dropWhile fun a => a.last + 1 < r.first
  (rs.takeWhile fun a => a.last + 1 < r.first, rest.takeWhile fun a => a.first ≤ r.last + 1,
    rest.dropWhile fun a => a.first ≤ r.last + 1)

theorem split_append (rs : List (Stretch τ)) (r : Stretch τ) :
    (split rs r).1 ++ (split rs r).2.1 ++ (split rs r).2.2 = rs := by
  rw [split, append_assoc, takeWhile_append_dropWhile, takeWhile_append_dropWhile]

theorem meets_split (neat : Neat rs) (filled : r.first ≤ r.last) :
    Meets (split rs r).1 (split rs r).2.1 (split rs r).2.2 r := by
  have sub : (rs.dropWhile fun a => a.last + 1 < r.first).Sublist rs := dropWhile_sublist _
  have rest := neat.sublist sub
  have late : ∀ a ∈ rs.dropWhile fun a => decide (a.last + 1 < r.first), decide (a.last + 1 < r.first) = false := by
    apply dropWhile_all
    refine (List.Pairwise.and_mem.mp neat.apart).imp fun {a b} both => ?_
    obtain ⟨-, mem, apart⟩ := both
    have := apart.1
    have := neat.filled b mem
    simp only [decide_eq_false_iff_not]
    omega
  have behind : ∀ a ∈ (rs.dropWhile fun a => decide (a.last + 1 < r.first)).dropWhile
      fun a => decide (a.first ≤ r.last + 1), decide (a.first ≤ r.last + 1) = false := by
    apply dropWhile_all
    refine (List.Pairwise.and_mem.mp rest.apart).imp fun {a b} both => ?_
    obtain ⟨mem, -, apart⟩ := both
    have := apart.1
    have := rest.filled a mem
    simp only [decide_eq_false_iff_not]
    omega
  refine ⟨filled, fun a mem => ?_, fun a mem => ⟨?_, ?_⟩, fun a mem => ?_⟩
  · simpa using mem_takeWhile_imp mem
  · have := late a ((takeWhile_sublist _).subset mem)
    simpa using this
  · simpa using mem_takeWhile_imp mem
  · have := behind a mem
    simpa using this

variable [DecidableEq τ]

/-- What replaces the stretches that one overlaps or adjoins: it, with what of the first and of the
last of them is outside, of its own or joined to it where the tags are the same. -/
def merge (mid : List (Stretch τ)) (r : Stretch τ) : List (Stretch τ) :=
  let lo := mid.head?.getD r
  let hi := mid.getLast?.getD r
  let first := if lo.tag = r.tag ∧ lo.first < r.first then lo.first else r.first
  let last := if hi.tag = r.tag ∧ r.last < hi.last then hi.last else r.last
  (if lo.first < first then [{ lo with last := first - 1 }] else []) ++
    { r with first, last } ::
      (if last < hi.last then [{ hi with first := last + 1 }] else [])

theorem merge_nil (r : Stretch τ) : merge [] r = [r] := by
  simp [merge]

/-- The pieces that replace the stretches met: what of them is left before, the new one, and what is
left behind. -/
structure Pieces (front mid back : List (Stretch τ)) (r : Stretch τ) (left : List (Stretch τ))
    (new : Stretch τ) (right : List (Stretch τ)) : Prop where
  merged : merge mid r = left ++ new :: right
  tag : new.tag = r.tag
  first : new.first ≤ r.first
  last : r.last ≤ new.last
  /-- What of the middle the new one took in, before its own numbers and behind them. -/
  below : new.first = r.first ∨ ∃ a ∈ mid, a.first = new.first ∧ a.tag = r.tag
  above : new.last = r.last ∨ ∃ a ∈ mid, a.last = new.last ∧ a.tag = r.tag
  before : ∀ p ∈ left, p.first ≤ p.last ∧ p.last + 1 = new.first ∧ p.tag ≠ r.tag ∧
    ∃ a ∈ mid, a.first = p.first ∧ a.tag = p.tag
  behind : ∀ p ∈ right, p.first ≤ p.last ∧ new.last + 1 = p.first ∧ p.tag ≠ r.tag ∧
    ∃ a ∈ mid, a.last = p.last ∧ a.tag = p.tag
  few : left.Pairwise Apart ∧ right.Pairwise Apart
  /-- Outside the numbers of `r`, the pieces are what the middle was. -/
  outside : ∀ x, ¬ r.Has x → ∀ t,
    (∃ a ∈ mid, a.Has x ∧ a.tag = t) ↔ ∃ p ∈ left ++ new :: right, p.Has x ∧ p.tag = t

theorem exists_pieces (neat : Neat (front ++ mid ++ back)) (meets : Meets front mid back r) :
    ∃ left new right, Pieces front mid back r left new right := by
  by_cases none_ : mid = []
  · subst none_
    refine ⟨[], r, [], merge_nil r, rfl, Nat.le_refl _, Nat.le_refl _, .inl rfl, .inl rfl, by simp,
      by simp, by simp, ?_⟩
    intro x other t
    simp [other]
  · obtain ⟨lo, lo_mem, hi, hi_mem, head, last, lowest, highest⟩ := mid_ends neat meets none_
    have filled : ∀ a ∈ mid, a.first ≤ a.last := fun a mem => neat.filled a (by simp [mem])
    have lo_meets := (meets.mid lo lo_mem).1
    have hi_meets := (meets.mid hi hi_mem).2
    have own := meets.filled
    obtain ⟨first, first_eq⟩ : ∃ first, first =
      if lo.tag = r.tag ∧ lo.first < r.first then lo.first else r.first := ⟨_, rfl⟩
    obtain ⟨end_, end_eq⟩ : ∃ end_, end_ = if hi.tag = r.tag ∧ r.last < hi.last then hi.last else r.last := ⟨_, rfl⟩
    have first_cases : first = r.first ∧ (lo.tag = r.tag → r.first ≤ lo.first) ∨
        first = lo.first ∧ lo.tag = r.tag ∧ lo.first < r.first := by
      rw [first_eq]
      split
      · rename_i joins
        exact .inr ⟨rfl, joins⟩
      · rename_i apart
        exact .inl ⟨rfl, fun same => Nat.le_of_not_lt fun less => apart ⟨same, less⟩⟩
    have end_cases : end_ = r.last ∧ (hi.tag = r.tag → hi.last ≤ r.last) ∨
        end_ = hi.last ∧ hi.tag = r.tag ∧ r.last < hi.last := by
      rw [end_eq]
      split
      · rename_i joins
        exact .inr ⟨rfl, joins⟩
      · rename_i apart
        exact .inl ⟨rfl, fun same => Nat.le_of_not_lt fun less => apart ⟨same, less⟩⟩
    have first_le : first ≤ r.first := by
      rcases first_cases with ⟨same, -⟩ | ⟨same, -, less⟩ <;> omega
    have le_end : r.last ≤ end_ := by
      rcases end_cases with ⟨same, -⟩ | ⟨same, -, less⟩ <;> omega
    have lo_stays : lo.first < first → first = r.first ∧ lo.tag ≠ r.tag := by
      intro less
      rcases first_cases with ⟨same, outside⟩ | ⟨same, -, -⟩
      · refine ⟨same, fun tag => ?_⟩
        have := outside tag
        omega
      · omega
    have hi_stays : end_ < hi.last → end_ = r.last ∧ hi.tag ≠ r.tag := by
      intro less
      rcases end_cases with ⟨same, outside⟩ | ⟨same, -, -⟩
      · refine ⟨same, fun tag => ?_⟩
        have := outside tag
        omega
      · omega
    have left_mem : ∀ p, p ∈ (if lo.first < first then [{ lo with last := first - 1 }] else []) ↔
        lo.first < first ∧ p = { lo with last := first - 1 } := by
      intro p
      split <;> simp_all
    have right_mem : ∀ p, p ∈ (if end_ < hi.last then [{ hi with first := end_ + 1 }] else []) ↔
        end_ < hi.last ∧ p = { hi with first := end_ + 1 } := by
      intro p
      split <;> simp_all
    refine ⟨if lo.first < first then [{ lo with last := first - 1 }] else [],
      { r with first, last := end_ }, if end_ < hi.last then [{ hi with first := end_ + 1 }] else [],
      ?_, rfl, ?_, ?_, ?_, ?_, ?_, ?_, ?_, ?_⟩
    · rw [merge, head, last, first_eq, end_eq]
    · exact first_le
    · exact le_end
    · rcases first_cases with ⟨same, -⟩ | ⟨same, tag, -⟩
      · exact .inl same
      · exact .inr ⟨lo, lo_mem, same.symm, tag⟩
    · rcases end_cases with ⟨same, -⟩ | ⟨same, tag, -⟩
      · exact .inl same
      · exact .inr ⟨hi, hi_mem, same.symm, tag⟩
    · intro p mem
      obtain ⟨less, rfl⟩ := (left_mem p).mp mem
      obtain ⟨same, tag⟩ := lo_stays less
      exact ⟨Nat.le_sub_one_of_lt less, Nat.sub_add_cancel (Nat.one_le_of_lt less), tag, lo, lo_mem, rfl, rfl⟩
    · intro p mem
      obtain ⟨less, rfl⟩ := (right_mem p).mp mem
      obtain ⟨same, tag⟩ := hi_stays less
      exact ⟨less, rfl, tag, hi, hi_mem, rfl, rfl⟩
    · constructor
      · split <;> simp
      · split <;> simp
    · intro x other t
      have side : x < r.first ∨ r.last < x := by
        rw [Has] at other
        omega
      simp only [mem_append, mem_cons, left_mem, right_mem]
      constructor
      · rintro ⟨a, mem, ⟨low, high⟩, rfl⟩
        rcases side with below | above
        · obtain rfl : a = lo := (lowest a mem).resolve_right (by omega)
          rcases Nat.lt_or_ge a.first first with less | joined
          · obtain ⟨same, -⟩ := lo_stays less
            exact ⟨_, .inl ⟨less, rfl⟩, ⟨low, by dsimp only; omega⟩, rfl⟩
          · refine ⟨_, .inr (.inl rfl), ⟨by dsimp only; omega, by dsimp only; omega⟩, ?_⟩
            rcases first_cases with ⟨same, -⟩ | ⟨-, tag, -⟩
            · omega
            · exact tag.symm
        · obtain rfl : a = hi := (highest a mem).resolve_right (by omega)
          rcases Nat.lt_or_ge end_ a.last with less | joined
          · obtain ⟨same, -⟩ := hi_stays less
            exact ⟨_, .inr (.inr ⟨less, rfl⟩), ⟨by dsimp only; omega, high⟩, rfl⟩
          · refine ⟨_, .inr (.inl rfl), ⟨by dsimp only; omega, by dsimp only; omega⟩, ?_⟩
            rcases end_cases with ⟨same, -⟩ | ⟨-, tag, -⟩
            · omega
            · exact tag.symm
      · rintro ⟨p, ⟨less, rfl⟩ | rfl | ⟨less, rfl⟩, ⟨low, high⟩, rfl⟩
        · obtain ⟨same, -⟩ := lo_stays less
          dsimp only at low high
          exact ⟨lo, lo_mem, ⟨low, by omega⟩, rfl⟩
        · dsimp only at low high
          rcases side with below | above
          · rcases first_cases with ⟨same, -⟩ | ⟨same, tag, -⟩
            · omega
            · exact ⟨lo, lo_mem, ⟨by omega, by omega⟩, tag⟩
          · rcases end_cases with ⟨same, -⟩ | ⟨same, tag, -⟩
            · omega
            · exact ⟨hi, hi_mem, ⟨by omega, by omega⟩, tag⟩
        · obtain ⟨same, -⟩ := hi_stays less
          dsimp only at low high
          exact ⟨hi, hi_mem, ⟨by omega, high⟩, rfl⟩

/-- A stretch laid on neat ones leaves them neat. -/
theorem Neat.merge (neat : Neat (front ++ mid ++ back)) (meets : Meets front mid back r) :
    Neat (front ++ merge mid r ++ back) := by
  obtain ⟨left, new, right, pieces⟩ := exists_pieces neat meets
  have first := pieces.first
  have last := pieces.last
  have own := meets.filled
  obtain ⟨apart, -, behind⟩ := pairwise_append.mp neat.apart
  obtain ⟨fronts, mids, between⟩ := pairwise_append.mp apart
  have backs := (pairwise_append.mp neat.apart).2.1
  rw [pieces.merged]
  constructor
  · intro p mem
    simp only [mem_append, mem_cons] at mem
    rcases mem with (mem | mem | rfl | mem) | mem
    · exact neat.filled p (by simp [mem])
    · exact (pieces.before p mem).1
    · omega
    · exact (pieces.behind p mem).1
    · exact neat.filled p (by simp [mem])
  · have after : ∀ a ∈ front, a.last < new.first := by
      intro a mem
      rcases pieces.below with same | ⟨m, inside, same, -⟩
      · have := meets.front a mem
        omega
      · have := (between a mem m inside).1
        omega
    have until_ : ∀ b ∈ back, new.last < b.first := by
      intro b mem
      rcases pieces.above with same | ⟨m, inside, same, -⟩
      · have := meets.back b mem
        omega
      · have := (behind m (mem_append_right _ inside) b mem).1
        omega
    have own_pieces : (left ++ new :: right).Pairwise Apart := by
      apply pairwise_append.mpr
      refine ⟨pieces.few.1, pairwise_cons.mpr ⟨fun q mem => ?_, pieces.few.2⟩, fun p mem q mem' => ?_⟩
      · obtain ⟨-, same, tag, -⟩ := pieces.behind q mem
        exact ⟨by omega, fun _ => pieces.tag ▸ tag.symm⟩
      · obtain ⟨-, same, tag, -⟩ := pieces.before p mem
        rcases mem_cons.mp mem' with rfl | mem'
        · exact ⟨by omega, fun _ => pieces.tag ▸ tag⟩
        · obtain ⟨-, same', -, -⟩ := pieces.behind q mem'
          exact ⟨by omega, fun adjoin => by omega⟩
    refine pairwise_append.mpr ⟨pairwise_append.mpr ⟨fronts, own_pieces, ?_⟩, backs, ?_⟩
    · intro a mem p mem'
      rcases mem_append.mp mem' with mem' | mem'
      · obtain ⟨-, -, -, m, inside, same, tag⟩ := pieces.before p mem'
        have apart := between a mem m inside
        rwa [Apart, same, tag] at apart
      rcases mem_cons.mp mem' with rfl | mem'
      · rcases pieces.below with same | ⟨m, inside, same, tag⟩
        · have := meets.front a mem
          exact ⟨by omega, fun adjoin => by omega⟩
        · have apart := between a mem m inside
          rwa [Apart, same, tag, ← pieces.tag] at apart
      · have less := after a mem
        obtain ⟨-, same, -⟩ := pieces.behind p mem'
        exact ⟨by omega, fun adjoin => by omega⟩
    · intro p mem b mem'
      have less := until_ b mem'
      rcases mem_append.mp mem with mem | mem
      · exact behind p (mem_append_left _ mem) b mem'
      rcases mem_append.mp mem with mem | mem
      · obtain ⟨-, same, -⟩ := pieces.before p mem
        exact ⟨by omega, fun adjoin => by omega⟩
      rcases mem_cons.mp mem with rfl | mem
      · rcases pieces.above with same | ⟨m, inside, same, tag⟩
        · have := meets.back b mem'
          exact ⟨by omega, fun adjoin => by omega⟩
        · have apart := behind m (mem_append_right _ inside) b mem'
          rwa [Apart, same, tag, ← pieces.tag] at apart
      · obtain ⟨-, -, -, m, inside, same, tag⟩ := pieces.behind p mem
        have apart := behind m (mem_append_right _ inside) b mem'
        rwa [Apart, same, tag] at apart

/-- A stretch laid on neat ones is laid on what they stand for. -/
theorem Neat.tagAt_merge (neat : Neat (front ++ mid ++ back)) (meets : Meets front mid back r) :
    tagAt (front ++ Stretch.merge mid r ++ back) = lay (tagAt (front ++ mid ++ back)) r := by
  funext x
  obtain ⟨left, new, right, pieces⟩ := exists_pieces neat meets
  have after := neat.merge meets
  have first := pieces.first
  have last := pieces.last
  rw [pieces.merged] at after ⊢
  rw [lay]
  split
  · rename_i has
    refine after.tagAt_iff.mpr ⟨new, by simp, ⟨?_, ?_⟩, pieces.tag⟩
    · have := has.1
      omega
    · have := has.2
      omega
  · rename_i other
    apply Option.ext
    intro t
    rw [after.tagAt_iff, neat.tagAt_iff]
    have middle := pieces.outside x other t
    constructor
    · rintro ⟨p, mem, has, tag⟩
      simp only [mem_append] at mem
      rcases mem with (mem | mem) | mem
      · exact ⟨p, by simp [mem], has, tag⟩
      · obtain ⟨a, inside, has, tag⟩ := middle.mpr ⟨p, mem_append.mpr mem, has, tag⟩
        exact ⟨a, by simp [inside], has, tag⟩
      · exact ⟨p, by simp [mem], has, tag⟩
    · rintro ⟨p, mem, has, tag⟩
      simp only [mem_append] at mem
      rcases mem with (mem | mem) | mem
      · exact ⟨p, by simp [mem], has, tag⟩
      · obtain ⟨q, inside, has, tag⟩ := middle.mp ⟨p, mem, has, tag⟩
        exact ⟨q, mem_append_left _ (mem_append_right _ inside), has, tag⟩
      · exact ⟨p, by simp [mem], has, tag⟩

/-- One more stretch in a sorted list. -/
def insert (rs : List (Stretch τ)) (r : Stretch τ) : List (Stretch τ) :=
  (split rs r).1 ++ merge (split rs r).2.1 r ++ (split rs r).2.2

theorem Neat.insert (neat : Neat rs) (filled : r.first ≤ r.last) : Neat (insert rs r) := by
  have whole := split_append rs r
  exact (whole.symm ▸ neat).merge (meets_split neat filled)

theorem Neat.tagAt_insert (neat : Neat rs) (filled : r.first ≤ r.last) :
    tagAt (Stretch.insert rs r) = lay (tagAt rs) r := by
  have whole := split_append rs r
  have laid := (whole.symm ▸ neat).tagAt_merge (meets_split neat filled)
  rwa [whole] at laid

/-- A stretch behind all others is put there. -/
theorem Neat.insert_last (neat : Neat (rs ++ [r])) : Stretch.insert rs r = rs ++ [r] := by
  rcases eq_nil_or_concat' rs with rfl | ⟨front, lo, rfl⟩
  · simp [Stretch.insert, split, merge_nil]
  · obtain ⟨apart, -, between⟩ := pairwise_append.mp neat.apart
    have lo_filled := neat.filled lo (by simp)
    have r_filled := neat.filled r (by simp)
    obtain ⟨less, tags⟩ := between lo (by simp) r (by simp)
    have early : ∀ a ∈ front, decide (a.last + 1 < r.first) = true := by
      intro a mem
      have := ((pairwise_append.mp apart).2.2 a mem lo (by simp)).1
      simp only [decide_eq_true_eq]
      omega
    rw [Stretch.insert, split]
    dsimp only
    rw [takeWhile_append_of_pos early, dropWhile_append_of_pos early]
    rcases Nat.lt_or_ge (lo.last + 1) r.first with far | near
    · simp [far, merge_nil]
    · have other := tags (by omega)
      have low : lo.first < r.first := by omega
      have high : ¬ r.last < lo.last := by omega
      have last : r.first - 1 = lo.last := by omega
      have reach : lo.first ≤ r.last + 1 := by omega
      have merged : Stretch.merge [lo] r = [lo, r] := by
        simp [Stretch.merge, other, low, high, last]
      simp [Nat.not_lt.mpr near, reach, merged]

end Stretch

end Askai.Library
