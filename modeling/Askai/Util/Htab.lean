import Askai.Library.Chain
import Mathlib.Data.Finset.Card

/-!
# Hash tables

The intrusive hash table of `htab.h`: the nodes of each bucket form a chain, and the records that hold
the nodes are elsewhere.
-/

namespace Askai

open Library

variable {α : Type}

/-- `struct htab_node`. -/
structure HtabNode (α : Type) where
  hash : Nat := 0
  next : Option α := none

/-- `struct htab`. -/
structure Htab (α : Type) where
  buckets : Nat → Option α := fun _ => none
  mask : Nat
  n : Nat := 0

namespace Htab

/-- The index that `htab_bucket` takes. -/
def bucket (t : Htab α) (hash : Nat) : Nat :=
  hash &&& t.mask

/-- Where the nodes lead. -/
def links (node : α → HtabNode α) (x : α) : Option α :=
  (node x).next

/-- `htab_find`, as the node that is found. -/
def find (t : Htab α) (node : α → HtabNode α) (hash : Nat) (ok : α → Bool) : Option α :=
  Chain.walk (links node) (fun x => decide ((node x).hash = hash) && ok x) t.n
    (t.buckets (t.bucket hash))

/-- The nodes of the table are those of `s`, each in the chain of its bucket. -/
structure Stores (t : Htab α) (node : α → HtabNode α) (s : Finset α) : Prop where
  chains : ∀ b, ∃ l, Chain (links node) (t.buckets b) l ∧
    ∀ x, x ∈ l ↔ x ∈ s ∧ t.bucket (node x).hash = b
  n : t.n = s.card

variable {t : Htab α} {node node' : α → HtabNode α} {s : Finset α} {x : α}

namespace Stores

theorem empty (none_ : ∀ b, t.buckets b = none) (n : t.n = 0) : Stores t node ∅ where
  chains := fun b => ⟨[], none_ b, by simp⟩
  n := n

/-- The nodes outside may change. -/
theorem congr (stores : Stores t node s) (same : ∀ x ∈ s, node' x = node x) : Stores t node' s where
  chains := by
    intro b
    obtain ⟨l, chain, mem⟩ := stores.chains b
    refine ⟨l, chain.congr fun x inside => ?_, fun x => ?_⟩
    · rw [links, same x ((mem x).mp inside).1, links]
    · rw [mem]
      refine and_congr_right fun inside => ?_
      rw [same x inside]
  n := stores.n

/-- What can be reached from the buckets is what the table holds. -/
theorem reached_iff (stores : Stores t node s) :
    (∃ b ≤ t.mask, ∃ l, Chain (links node) (t.buckets b) l ∧ x ∈ l) ↔ x ∈ s := by
  constructor
  · rintro ⟨b, -, l, chain, inside⟩
    obtain ⟨m, chain', mem⟩ := stores.chains b
    rw [chain.unique chain', mem] at inside
    exact inside.1
  · intro inside
    obtain ⟨l, chain, mem⟩ := stores.chains (t.bucket (node x).hash)
    exact ⟨_, Nat.and_le_right, l, chain, (mem x).mpr ⟨inside, rfl⟩⟩

end Stores

variable [DecidableEq α]

/-- `htab_link`. -/
def link (t : Htab α) (node : α → HtabNode α) (x : α) : Htab α × (α → HtabNode α) :=
  let b := t.bucket (node x).hash
  ({ t with buckets := Function.update t.buckets b (some x), n := t.n + 1 },
    Function.update node x { node x with next := t.buckets b })

/-- `htab_unlink`. -/
def unlink (t : Htab α) (node : α → HtabNode α) (x : α) : Htab α × (α → HtabNode α) :=
  let b := t.bucket (node x).hash
  if t.buckets b = some x then
    ({ t with buckets := Function.update t.buckets b (node x).next, n := t.n - 1 }, node)
  else
    match Chain.walk (links node) (fun y => decide (links node y = some x)) t.n (t.buckets b) with
    | some y =>
      ({ t with n := t.n - 1 }, Function.update node y { node y with next := (node x).next })
    | none => (t, node)

theorem links_update (node : α → HtabNode α) (x : α) (next : Option α) :
    links (Function.update node x { node x with next }) = Function.update (links node) x next := by
  funext y
  rcases eq_or_ne y x with rfl | other
  · rw [links, Function.update_self, Function.update_self]
  · rw [links, Function.update_of_ne other, Function.update_of_ne other, links]

theorem hash_update (node : α → HtabNode α) (x y : α) (next : Option α) :
    (Function.update node x { node x with next } y).hash = (node y).hash := by
  rcases eq_or_ne y x with rfl | other
  · rw [Function.update_self]
  · rw [Function.update_of_ne other]

theorem link_hash (t : Htab α) (node : α → HtabNode α) (x y : α) : ((t.link node x).2 y).hash = (node y).hash :=
  hash_update node x y _

theorem unlink_hash (t : Htab α) (node : α → HtabNode α) (x y : α) : ((t.unlink node x).2 y).hash = (node y).hash := by
  rw [unlink]
  dsimp only
  split
  · rfl
  · split
    · exact hash_update node _ y _
    · rfl

namespace Stores

/-- No chain is longer than the count. -/
theorem length_le (stores : Stores t node s) {b : Nat} {l : List α} (chain : Chain (links node) (t.buckets b) l)
    (mem : ∀ x, x ∈ l ↔ x ∈ s ∧ t.bucket (node x).hash = b) : l.length ≤ t.n := by
  rw [stores.n, ← List.toFinset_card_of_nodup chain.nodup]
  apply Finset.card_le_card
  intro x inside
  exact ((mem x).mp (List.mem_toFinset.mp inside)).1

/-- What is found is in the table, with the hash and the key. -/
theorem find_some {hash : Nat} {ok : α → Bool} (stores : Stores t node s)
    (found : t.find node hash ok = some x) : x ∈ s ∧ (node x).hash = hash ∧ ok x = true := by
  obtain ⟨l, chain, mem⟩ := stores.chains (t.bucket hash)
  rw [find, chain.walk_eq (stores.length_le chain mem)] at found
  have match_ := List.find?_some found
  rw [Bool.and_eq_true, decide_eq_true_iff] at match_
  exact ⟨((mem x).mp (List.mem_of_find?_eq_some found)).1, match_⟩

/-- Whatever has the hash and the key would be found. -/
theorem find_none {hash : Nat} {ok : α → Bool} (stores : Stores t node s)
    (none_ : t.find node hash ok = none) (inside : x ∈ s) (same : (node x).hash = hash) : ok x = false := by
  obtain ⟨l, chain, mem⟩ := stores.chains (t.bucket hash)
  rw [find, chain.walk_eq (stores.length_le chain mem), List.find?_eq_none] at none_
  have here := none_ x ((mem x).mpr ⟨inside, by rw [same]⟩)
  rw [same, decide_eq_true rfl, Bool.true_and] at here
  exact Bool.eq_false_iff.mpr here

theorem link (stores : Stores t node s) (fresh : x ∉ s) : Stores (t.link node x).1 (t.link node x).2 (insert x s) where
  chains := by
    intro b
    obtain ⟨l, chain, mem⟩ := stores.chains b
    have outside : x ∉ l := fun inside => fresh ((mem x).mp inside).1
    rw [Htab.link]
    dsimp only
    rw [links_update]
    rcases eq_or_ne b (t.bucket (node x).hash) with rfl | other
    · refine ⟨x :: l, ?_, fun y => ?_⟩
      · rw [Function.update_self]
        exact chain.push outside
      · change _ ↔ y ∈ insert x s ∧ t.bucket _ = _
        rw [hash_update, List.mem_cons, mem, Finset.mem_insert]
        constructor
        · rintro (rfl | ⟨inside, same⟩)
          · exact ⟨.inl rfl, rfl⟩
          · exact ⟨.inr inside, same⟩
        · rintro ⟨rfl | inside, same⟩
          · exact .inl rfl
          · exact .inr ⟨inside, same⟩
    · refine ⟨l, ?_, fun y => ?_⟩
      · rw [Function.update_of_ne other]
        exact chain.update outside
      · change _ ↔ y ∈ insert x s ∧ t.bucket _ = _
        rw [hash_update, mem, Finset.mem_insert]
        constructor
        · rintro ⟨inside, same⟩
          exact ⟨.inr inside, same⟩
        · rintro ⟨rfl | inside, same⟩
          · exact absurd same.symm other
          · exact ⟨inside, same⟩
  n := by
    rw [Finset.card_insert_of_notMem fresh, ← stores.n]
    rfl

/-- What is left of a chain without one of its nodes. -/
theorem mem_erase {l : List α} {p : α → Prop} (distinct : l.Nodup) (mem : ∀ y, y ∈ l ↔ y ∈ s ∧ p y)
    (y : α) : y ∈ l.erase x ↔ y ∈ s.erase x ∧ p y := by
  rw [distinct.mem_erase_iff, mem, Finset.mem_erase, and_assoc]

theorem unlink (stores : Stores t node s) (inside : x ∈ s) :
    Stores (t.unlink node x).1 (t.unlink node x).2 (s.erase x) := by
  obtain ⟨l, chain, mem⟩ := stores.chains (t.bucket (node x).hash)
  have here : x ∈ l := (mem x).mpr ⟨inside, rfl⟩
  have count : t.n - 1 = (s.erase x).card := by rw [Finset.card_erase_of_mem inside, stores.n]
  -- the node is in no other chain
  have others : ∀ b ≠ t.bucket (node x).hash, ∀ m : List α, (∀ y, y ∈ m ↔ y ∈ s ∧ t.bucket (node y).hash = b) →
      ∀ y, y ∈ m ↔ y ∈ s.erase x ∧ t.bucket (node y).hash = b := by
    intro b other m mem y
    rw [mem, Finset.mem_erase]
    constructor
    · rintro ⟨inside, same⟩
      refine ⟨⟨?_, inside⟩, same⟩
      rintro rfl
      exact other same.symm
    · rintro ⟨⟨-, inside⟩, same⟩
      exact ⟨inside, same⟩
  rw [Htab.unlink]
  dsimp only
  split
  · next first =>
      refine ⟨fun b => ?_, count⟩
      dsimp only
      rcases eq_or_ne b (t.bucket (node x).hash) with rfl | other
      · refine ⟨l.erase x, ?_, mem_erase chain.nodup mem⟩
        rw [Function.update_self]
        rw [first] at chain
        exact chain.pop
      · obtain ⟨m, chain', mem'⟩ := stores.chains b
        refine ⟨m, ?_, others b other m mem'⟩
        rw [Function.update_of_ne other]
        exact chain'
  · next later =>
      obtain ⟨y, before, found, chain'⟩ := chain.skip here later
      rw [chain.walk_eq (stores.length_le chain mem), found]
      refine ⟨fun b => ?_, count⟩
      dsimp only
      rw [links_update]
      rcases eq_or_ne b (t.bucket (node x).hash) with rfl | other
      · refine ⟨l.erase x, chain', fun z => ?_⟩
        rw [hash_update]
        exact mem_erase chain.nodup mem z
      · obtain ⟨m, chain'', mem'⟩ := stores.chains b
        refine ⟨m, chain''.update fun outside => ?_, fun z => ?_⟩
        · exact other (((mem' y).mp outside).2.symm.trans ((mem y).mp before).2)
        · rw [hash_update]
          exact others b other m mem' z

end Stores

end Htab

end Askai
