import Mathlib.Data.List.Nodup
import Mathlib.Tactic

/-!
# Circular lists

A circular doubly-linked list in memory is a head, the node that follows each node, and the node before
it.
-/

namespace Askai.Library

open List

variable {α : Type*}

/-- Where nodes lead, either way. -/
structure Links (α : Type*) where
  next : α → Option α
  prev : α → Option α

namespace Links

/-- The two nodes are neighbours. -/
def Joined (m : Links α) (a b : α) : Prop :=
  m.next a = some b ∧ m.prev b = some a

/-- The nodes of the list are those between the two. -/
def Segment (m : Links α) (a : α) : List α → α → Prop
  | [], b => m.Joined a b
  | x :: l, b => m.Joined a x ∧ Segment m x l b

/-- The nodes of the list follow the head, and the last leads back to it. -/
structure Circle (m : Links α) (h : α) (l : List α) : Prop where
  segment : m.Segment h l h
  distinct : (h :: l).Nodup

variable {m m' : Links α} {a b c d x h : α} {l l' : List α}

theorem segment_append : m.Segment a (l ++ x :: l') b ↔ m.Segment a l x ∧ m.Segment x l' b := by
  induction l generalizing a with
  | nil => exact Iff.rfl
  | cons y l ih =>
    change m.Joined a y ∧ m.Segment y (l ++ x :: l') b ↔ (m.Joined a y ∧ m.Segment y l x) ∧ _
    rw [ih, and_assoc]

theorem Segment.congr (segment : m.Segment a l b) (next : ∀ y ∈ a :: l, m'.next y = m.next y)
    (prev : ∀ y ∈ l ++ [b], m'.prev y = m.prev y) : m'.Segment a l b := by
  induction l generalizing a with
  | nil => exact ⟨(next a mem_cons_self).trans segment.1, (prev b mem_cons_self).trans segment.2⟩
  | cons x l ih =>
    obtain ⟨joined, rest⟩ := segment
    refine ⟨⟨(next a mem_cons_self).trans joined.1, (prev x mem_cons_self).trans joined.2⟩, ?_⟩
    exact ih rest (fun y inside => next y (mem_cons_of_mem _ inside))
      fun y inside => prev y (mem_cons_of_mem _ inside)

theorem Circle.congr (circle : m.Circle h l) (next : ∀ y ∈ h :: l, m'.next y = m.next y)
    (prev : ∀ y ∈ h :: l, m'.prev y = m.prev y) : m'.Circle h l := by
  refine ⟨circle.segment.congr next fun y inside => prev y ?_, circle.distinct⟩
  rcases mem_append.mp inside with inside | last
  · exact mem_cons_of_mem _ inside
  · rw [mem_singleton.mp last]
    exact mem_cons_self

/-- What follows the head is the first node. -/
theorem Segment.first (segment : m.Segment a l b) : m.next a = some (l.headD b) := by
  cases l with
  | nil => exact segment.1
  | cons x l => exact segment.1.1

/-- What comes before the end is the last node. -/
theorem Segment.last (segment : m.Segment a l b) : m.prev b = some (l.getLastD a) := by
  rcases eq_nil_or_concat l with rfl | ⟨l, x, rfl⟩
  · exact segment.2
  · rw [concat_eq_append] at segment ⊢
    rw [getLastD_concat]
    exact (segment_append.mp segment).2.2

/-- Each node leads on. -/
theorem Segment.next_ne (segment : m.Segment a l b) (inside : x ∈ a :: l) : m.next x ≠ none := by
  induction l generalizing a with
  | nil =>
    rw [mem_singleton.mp inside, segment.1]
    exact Option.some_ne_none b
  | cons y l ih =>
    rcases mem_cons.mp inside with rfl | inside
    · rw [segment.1.1]
      exact Option.some_ne_none y
    · exact ih segment.2 inside

/-- The last node of a list is one of its nodes, or the one before them. -/
theorem getLastD_mem (a : α) (l : List α) : l.getLastD a ∈ a :: l := by
  rcases eq_nil_or_concat l with rfl | ⟨l, y, rfl⟩
  · exact mem_cons_self
  · rw [concat_eq_append, getLastD_concat]
    exact mem_cons_of_mem _ (mem_append_right _ mem_cons_self)

variable [DecidableEq α]

/-- Makes two nodes neighbours. -/
def join (m : Links α) (a b : α) : Links α :=
  { next := Function.update m.next a (some b), prev := Function.update m.prev b (some a) }

theorem joined_join (m : Links α) (a b : α) : (m.join a b).Joined a b :=
  ⟨Function.update_self _ _ _, Function.update_self _ _ _⟩

theorem next_join (m : Links α) (b : α) (other : x ≠ a) : (m.join a b).next x = m.next x :=
  Function.update_of_ne other _ _

theorem prev_join (m : Links α) (a : α) (other : x ≠ b) : (m.join a b).prev x = m.prev x :=
  Function.update_of_ne other _ _

/-- Neighbours made elsewhere. -/
theorem Segment.join (segment : m.Segment a l b) (front : c ∉ a :: l) (back : d ∉ l ++ [b]) :
    (m.join c d).Segment a l b := by
  apply segment.congr
  · exact fun y inside => next_join m d fun same => front (same ▸ inside)
  · exact fun y inside => prev_join m c fun same => back (same ▸ inside)

theorem Circle.join (circle : m.Circle h l) (front : c ∉ h :: l) (back : d ∉ h :: l) : (m.join c d).Circle h l := by
  refine ⟨circle.segment.join front fun inside => back ?_, circle.distinct⟩
  rcases mem_append.mp inside with inside | last
  · exact mem_cons_of_mem _ inside
  · rw [mem_singleton.mp last]
    exact mem_cons_self

/-- The last node gets another end. -/
theorem Segment.relast (segment : m.Segment a l b) (distinct : (a :: l).Nodup) (outside : x ∉ l) :
    (m.join (l.getLastD a) x).Segment a l x := by
  rcases eq_nil_or_concat l with rfl | ⟨l, y, rfl⟩
  · exact joined_join m a x
  · rw [concat_eq_append] at segment distinct outside ⊢
    rw [getLastD_concat]
    obtain ⟨front, -⟩ := segment_append.mp segment
    rw [← cons_append, nodup_append] at distinct
    refine segment_append.mpr ⟨front.join ?_ outside, joined_join m y x⟩
    exact fun inside => distinct.2.2 y inside y mem_cons_self rfl

/-- A node at the end. -/
theorem Circle.push (circle : m.Circle h l) (outside : x ∉ h :: l) :
    ((m.join (l.getLastD h) x).join x h).Circle h (l ++ [x]) := by
  have head : h ∉ l := (nodup_cons.mp circle.distinct).1
  have apart : x ∉ l := fun inside => outside (mem_cons_of_mem _ inside)
  have other : x ≠ h := fun same => outside (same ▸ mem_cons_self)
  have front := circle.segment.relast circle.distinct apart
  refine ⟨segment_append.mpr ⟨front.join outside ?_, joined_join _ x h⟩, ?_⟩
  · intro inside
    rcases mem_append.mp inside with inside | same
    · exact head inside
    · exact other (mem_singleton.mp same).symm
  · rw [← cons_append, nodup_append]
    refine ⟨circle.distinct, nodup_singleton x, ?_⟩
    intro y inside z last same
    exact outside (mem_singleton.mp last ▸ same ▸ inside)

/-- A circle without one of its nodes, whose neighbours are now each other's. -/
theorem Circle.skip (circle : m.Circle h (l ++ x :: l')) : (m.join (l.getLastD h) (l'.headD h)).Circle h (l ++ l') := by
  obtain ⟨segment, distinct⟩ := circle
  obtain ⟨front, back⟩ := segment_append.mp segment
  have whole : ((h :: l) ++ x :: l').Nodup := distinct
  obtain ⟨distinctFront, distinctBack, across⟩ := nodup_append.mp whole
  have rest : ((h :: l) ++ l').Nodup :=
    whole.sublist ((List.Sublist.refl _).append (sublist_cons_self x l'))
  have head : h ∉ l := (nodup_cons.mp distinctFront).1
  refine ⟨?_, rest⟩
  cases l' with
  | nil =>
    rw [append_nil]
    exact front.relast distinctFront head
  | cons y l' =>
    have apart : y ∉ l := fun inside =>
      across y (mem_cons_of_mem _ inside) y (mem_cons_of_mem _ mem_cons_self) rfl
    refine segment_append.mpr ⟨front.relast distinctFront apart, back.2.join ?_ ?_⟩
    · intro inside
      exact across _ (getLastD_mem h l) _ (mem_cons_of_mem _ inside) rfl
    · intro inside
      rcases mem_append.mp inside with inside | same
      · exact (nodup_cons.mp (nodup_cons.mp distinctBack).2).1 inside
      · rw [headD_cons] at same
        exact across h mem_cons_self y (mem_cons_of_mem _ mem_cons_self)
          (mem_singleton.mp same).symm

/-- The nodes of one circle at the end of another. -/
theorem Circle.splice {s : α} (circle : m.Circle h l) (source : m.Circle s (x :: l'))
    (apart : ∀ y ∈ h :: l, y ∉ s :: x :: l') :
    ((m.join (l.getLastD h) x).join (l'.getLastD x) h).Circle h (l ++ x :: l') := by
  obtain ⟨distinct, distinct'⟩ := And.intro circle.distinct source.distinct
  have head : h ∉ l := (nodup_cons.mp distinct).1
  have tail : (x :: l').Nodup := (nodup_cons.mp distinct').2
  have inside : ∀ y ∈ x :: l', y ∉ h :: l := fun y there here => apart y here (mem_cons_of_mem _ there)
  have outside : x ∉ l := fun here => inside x mem_cons_self (mem_cons_of_mem _ here)
  have headOff : h ∉ x :: l' := fun there => inside h there mem_cons_self
  -- the first node of the source follows the last of the circle, and then the head its last
  have front : (m.join (l.getLastD h) x).Segment h l x := circle.segment.relast distinct outside
  have back : (m.join (l.getLastD h) x).Segment x l' s := by
    apply source.segment.2.join
    · exact fun there => inside _ there (getLastD_mem h l)
    · intro there
      rcases mem_append.mp there with there | same
      · exact (nodup_cons.mp tail).1 there
      · exact (nodup_cons.mp distinct').1 (mem_singleton.mp same ▸ mem_cons_self)
  refine ⟨segment_append.mpr ⟨front.join ?_ ?_, back.relast tail fun there => headOff (mem_cons_of_mem _ there)⟩, ?_⟩
  · exact inside _ (getLastD_mem x l')
  · intro there
    rcases mem_append.mp there with there | same
    · exact head there
    · exact headOff (mem_singleton.mp same ▸ mem_cons_self)
  · rw [← cons_append, nodup_append]
    refine ⟨distinct, tail, ?_⟩
    rintro y here z there rfl
    exact inside y there here

/-- Makes a node lead nowhere. -/
def clear (m : Links α) (x : α) : Links α :=
  { next := Function.update m.next x none, prev := Function.update m.prev x none }

theorem Circle.clear (circle : m.Circle h l) (outside : x ∉ h :: l) : (m.clear x).Circle h l := by
  have other : ∀ y ∈ h :: l, y ≠ x := by
    rintro y inside rfl
    exact outside inside
  apply circle.congr
  · exact fun y inside => Function.update_of_ne (other y inside) _ _
  · exact fun y inside => Function.update_of_ne (other y inside) _ _

/-- A node alone. -/
theorem Circle.alone (m : Links α) (h : α) : (m.join h h).Circle h [] :=
  ⟨joined_join m h h, nodup_singleton h⟩

end Links

end Askai.Library
