import Mathlib.Data.List.DropRight
import Mathlib.Data.List.Nodup
import Mathlib.Algebra.BigOperators.Group.List.Basic
import Mathlib.Tactic

/-!
# Lists of addresses

Facts about the lists that intrusive structures walk: insertion from the back of an ordered list,
insertion at the front of a hash bucket, and counts that follow a change to one element.
-/

namespace Askai.Library

variable {α β : Type*}

/-- Insert `x` before the longest suffix of `l` whose elements all come after it. -/
def insertBack (after : α → Bool) (x : α) (l : List α) : List α :=
  l.rdropWhile after ++ x :: l.rtakeWhile after

theorem rdropWhile_append_rtakeWhile (after : α → Bool) (l : List α) :
    l.rdropWhile after ++ l.rtakeWhile after = l := by
  rw [List.rdropWhile, List.rtakeWhile, ← List.reverse_append, List.takeWhile_append_dropWhile, List.reverse_reverse]

theorem insertBack_perm (after : α → Bool) (x : α) (l : List α) : (insertBack after x l).Perm (x :: l) := by
  have split := rdropWhile_append_rtakeWhile after l
  calc
    (insertBack after x l).Perm (x :: (l.rdropWhile after ++ l.rtakeWhile after)) :=
      List.perm_middle
    _ = x :: l := by rw [split]

@[simp]
theorem mem_insertBack {after : α → Bool} {x y : α} {l : List α} : y ∈ insertBack after x l ↔ y = x ∨ y ∈ l := by
  rw [(insertBack_perm after x l).mem_iff, List.mem_cons]

@[simp]
theorem length_insertBack (after : α → Bool) (x : α) (l : List α) : (insertBack after x l).length = l.length + 1 := by
  rw [(insertBack_perm after x l).length_eq, List.length_cons]

theorem nodup_insertBack {after : α → Bool} {x : α} {l : List α} : (insertBack after x l).Nodup ↔ x ∉ l ∧ l.Nodup := by
  rw [(insertBack_perm after x l).nodup_iff, List.nodup_cons]

/-- Insertion from the back keeps an ordered list ordered, if what the scan passes over may follow
the new element and what it stops at may precede it. -/
theorem pairwise_insertBack {r : α → α → Prop} {after : α → Bool} {x : α} {l : List α}
    (trans : ∀ a b c, r a b → r b c → r a c) (passed : ∀ y, after y → r x y)
    (stopped : ∀ y, ¬after y → r y x) (ordered : l.Pairwise r) : (insertBack after x l).Pairwise r := by
  have split := rdropWhile_append_rtakeWhile after l
  rw [← split, List.pairwise_append] at ordered
  obtain ⟨front, back, across⟩ := ordered
  have front_le : ∀ y ∈ l.rdropWhile after, r y x := by
    intro y member
    have nonempty : l.rdropWhile after ≠ [] := List.ne_nil_of_mem member
    have last_le : r ((l.rdropWhile after).getLast nonempty) x :=
      stopped _ (List.rdropWhile_last_not after l nonempty)
    rcases eq_or_ne y ((l.rdropWhile after).getLast nonempty) with rfl | other
    · exact last_le
    · rw [← List.dropLast_append_getLast nonempty] at front member
      have inFront : y ∈ (l.rdropWhile after).dropLast := by simpa [other] using member
      have order := (List.pairwise_append.mp front).2.2 y inFront _ (List.mem_singleton_self _)
      exact trans _ _ _ order last_le
  refine List.pairwise_append.mpr ⟨front, List.pairwise_cons.mpr ⟨?_, back⟩, ?_⟩
  · exact fun y member => passed y (List.mem_rtakeWhile_imp member)
  · intro y member z later
    rcases List.mem_cons.mp later with rfl | tail
    · exact front_le y member
    · exact across y member z tail

/-- Insert `x` as the first element of its bucket, the list being walked bucket by bucket. -/
def bucketInsert (bucket : α → Nat) (x : α) (l : List α) : List α :=
  l.takeWhile (bucket · < bucket x) ++ x :: l.dropWhile (bucket · < bucket x)

theorem bucketInsert_perm (bucket : α → Nat) (x : α) (l : List α) : (bucketInsert bucket x l).Perm (x :: l) := by
  calc
    (bucketInsert bucket x l).Perm
        (x :: (l.takeWhile (bucket · < bucket x) ++ l.dropWhile (bucket · < bucket x))) :=
      List.perm_middle
    _ = x :: l := by rw [List.takeWhile_append_dropWhile]

/-- A count over distinct elements moves with the one element whose test changes. -/
theorem countP_update {p q : α → Bool} {x : α} {l : List α} (distinct : l.Nodup) (member : x ∈ l)
    (agree : ∀ y ∈ l, y ≠ x → p y = q y) : l.countP q + (p x).toNat = l.countP p + (q x).toNat := by
  induction l with
  | nil => simp at member
  | cons y l ih =>
    obtain ⟨fresh, distinct⟩ := List.nodup_cons.mp distinct
    by_cases same : y = x
    · subst same
      have rest : l.countP q = l.countP p := by
        refine List.countP_congr fun z inside => ?_
        rw [agree z (List.mem_cons_of_mem _ inside) (fun eq => fresh (eq ▸ inside))]
      simp only [List.countP_cons, rest]
      cases p y <;> cases q y <;> simp
    · have inside : x ∈ l := by simpa [Ne.symm same] using member
      have rest := ih distinct inside fun z member => agree z (List.mem_cons_of_mem _ member)
      simp only [List.countP_cons, agree y List.mem_cons_self same]
      omega

/-- Erasing a distinct element lowers a count by its own test. -/
theorem countP_erase_add [DecidableEq α] (p : α → Bool) {x : α} {l : List α} (member : x ∈ l) :
    (l.erase x).countP p + (p x).toNat = l.countP p := by
  have split := (List.perm_cons_erase member).countP_eq p
  rw [split, List.countP_cons]
  cases p x <;> simp

/-- What precedes an element in a list precedes it in every sublist that has both. -/
theorem exists_split_of_sublist {x y : α} {small front back : List α}
    (sub : small.Sublist (front ++ x :: back)) (distinct : (front ++ x :: back).Nodup)
    (before : y ∈ front) (hasBefore : y ∈ small) (hasIt : x ∈ small) :
    ∃ front' back', small = front' ++ x :: back' ∧ y ∈ front' := by
  obtain ⟨_, later, across⟩ := List.nodup_append.mp distinct
  obtain ⟨first, second, rfl, subFirst, subSecond⟩ := List.sublist_append_iff.mp sub
  have inSecond : x ∈ second := by
    rcases List.mem_append.mp hasIt with early | late
    · exact absurd rfl (across x (subFirst.subset early) x List.mem_cons_self)
    · exact late
  have inFirst : y ∈ first := by
    rcases List.mem_append.mp hasBefore with early | late
    · exact early
    · exact absurd rfl (across y before y (subSecond.subset late))
  cases subSecond with
  | cons _ rest => exact absurd (rest.subset inSecond) (List.nodup_cons.mp later).1
  | cons_cons _ rest => exact ⟨first, _, rfl, inFirst⟩

/-- The first of the least of `best` and the elements of a list. -/
def leastFrom (f : α → Nat) : α → List α → α
  | best, [] => best
  | best, x :: l => leastFrom f (if f x < f best then x else best) l

/-- The first least element of a list. -/
def leastBy (f : α → Nat) : List α → Option α
  | [] => none
  | x :: l => some (leastFrom f x l)

theorem leastFrom_mem (f : α → Nat) (best : α) (l : List α) : leastFrom f best l ∈ best :: l := by
  induction l generalizing best with
  | nil => exact List.mem_singleton_self best
  | cons x l ih =>
    rw [leastFrom]
    split
    · exact List.mem_cons_of_mem _ (ih x)
    · rcases List.mem_cons.mp (ih best) with same | later
      · rw [same]
        exact List.mem_cons_self
      · exact List.mem_cons_of_mem _ (List.mem_cons_of_mem _ later)

theorem leastFrom_le (f : α → Nat) (best : α) (l : List α) : ∀ y ∈ best :: l, f (leastFrom f best l) ≤ f y := by
  induction l generalizing best with
  | nil =>
    intro y member
    rw [List.mem_singleton.mp member]
    rfl
  | cons x l ih =>
    intro y member
    rw [leastFrom]
    split
    · rename_i less
      have first := ih x x List.mem_cons_self
      rcases List.mem_cons.mp member with rfl | later
      · omega
      · exact ih x y later
    · rename_i least
      have first := ih best best List.mem_cons_self
      rcases List.mem_cons.mp member with rfl | later
      · exact first
      · rcases List.mem_cons.mp later with rfl | later
        · omega
        · exact ih best y (List.mem_cons_of_mem _ later)

theorem leastBy_mem {f : α → Nat} {l : List α} {x : α} (found : leastBy f l = some x) : x ∈ l := by
  cases l with
  | nil => simp [leastBy] at found
  | cons y l =>
    rw [leastBy, Option.some.injEq] at found
    exact found ▸ leastFrom_mem f y l

theorem leastBy_le {f : α → Nat} {l : List α} {x : α} (found : leastBy f l = some x) : ∀ y ∈ l, f x ≤ f y := by
  cases l with
  | nil => simp [leastBy] at found
  | cons y l =>
    rw [leastBy, Option.some.injEq] at found
    exact found ▸ leastFrom_le f y l

theorem leastBy_eq_none {f : α → Nat} {l : List α} : leastBy f l = none ↔ l = [] := by
  cases l <;> simp [leastBy]

theorem findFinIdx_some {γ : Type} {n : Nat} {v : Vector γ n} {p : γ → Bool} {i : Fin n}
    (found : v.findFinIdx? p = some i) : p v[i] = true := by
  have first : v.find? p = some v[i] := by
    rw [Vector.find?_eq_map_findFinIdx?_getElem, found, Option.map_some]
  exact Vector.find?_some first

/-! ## Lists whose items are built one by one -/

section Built

universe u

variable {ε α β : Type u}

theorem bind_eq_ok {x : Except ε α} {f : α → Except ε β} {b : β} : x >>= f = .ok b ↔ ∃ a, x = .ok a ∧ f a = .ok b := by
  cases x with
  | error e => simp [bind, Except.bind]
  | ok a => simp [bind, Except.bind]

theorem except_map_eq_ok {x : Except ε α} {f : α → β} {b : β} (mapped : x.map f = .ok b) :
    ∃ a, x = .ok a ∧ f a = b := by
  cases x with
  | error e => cases mapped
  | ok a => exact ⟨a, rfl, Except.ok.inj mapped⟩

theorem forall₂_of_mapM {f : α → Except ε β} {l : List α} {m : List β} (built : l.mapM f = .ok m) :
    List.Forall₂ (fun a b => f a = .ok b) l m := by
  induction l generalizing m with
  | nil =>
    obtain rfl := Except.ok.inj built
    exact .nil
  | cons a l ih =>
    rw [List.mapM_cons, bind_eq_ok] at built
    obtain ⟨b, head, built⟩ := built
    obtain ⟨m', tail, built⟩ := bind_eq_ok.mp built
    obtain rfl := Except.ok.inj built
    exact .cons head (ih tail)

theorem exists_mem_of_forall₂ {r : α → β → Prop} {l : List α} {m : List β}
    (related : List.Forall₂ r l m) {a : α} (mem : a ∈ l) : ∃ b ∈ m, r a b := by
  induction related with
  | nil => cases mem
  | cons head _ ih =>
    cases mem with
    | head => exact ⟨_, List.mem_cons_self, head⟩
    | tail _ mem =>
      obtain ⟨b, mem, here⟩ := ih mem
      exact ⟨b, List.mem_cons_of_mem _ mem, here⟩

/-- What is built of the first item that is looked for is at that item's place. -/
theorem find?_bind_of_forall₂ {f : α → Option β} {l : List α} {m : List β}
    (built : List.Forall₂ (fun a b => f a = some b) l m) (p : α → Bool) :
    (l.find? p).bind f = (l.findIdx? p).bind fun i => m[i]? := by
  induction built with
  | nil => rfl
  | @cons a b l m head _ ih =>
    rw [List.find?_cons, List.findIdx?_cons]
    cases p a with
    | true => simpa using head
    | false =>
      rw [ih]
      cases l.findIdx? p with
      | none => rfl
      | some i => rfl

end Built

end Askai.Library
