import Mathlib.Logic.Equiv.Basic
import Mathlib.Order.Basic
import Mathlib.Tactic
import Mathlib.Data.List.Perm.Basic

/-!
# The order of a heap

A heap keeps its elements in an array, each behind its parent and not before it in their order. An
element that is out of place moves up while it is before its parent, then down while one of its children
is before it.
-/

namespace Askai.Library

/-- The shape of a heap: the parent of each place but the first is before it. -/
structure Levels where
  parent : Nat → Nat
  lower : ∀ {i}, 0 < i → parent i < i

namespace Levels

variable {κ : Type*} [LinearOrder κ] {shape : Levels} {n i j : Nat} {v : Nat → κ}

/-- No element is before its parent. -/
def Ordered (shape : Levels) (n : Nat) (v : Nat → κ) : Prop :=
  ∀ j, 0 < j → j < n → v (shape.parent j) ≤ v j

/-- The order but for one element, with its children behind its parent. -/
structure Rising (shape : Levels) (n : Nat) (v : Nat → κ) (i : Nat) : Prop where
  rest : ∀ j, 0 < j → j < n → j ≠ i → shape.parent j ≠ i → v (shape.parent j) ≤ v j
  grand : 0 < i → ∀ c, 0 < c → c < n → shape.parent c = i → v (shape.parent i) ≤ v c

/-- The order of the elements from `m` on and their children. -/
def OrderedFrom (shape : Levels) (n m : Nat) (v : Nat → κ) : Prop :=
  ∀ j, 0 < j → j < n → m ≤ shape.parent j → v (shape.parent j) ≤ v j

/-- That order but for one element's children. -/
structure Settling (shape : Levels) (n m : Nat) (v : Nat → κ) (i : Nat) : Prop where
  rest : ∀ j, 0 < j → j < n → m ≤ shape.parent j → shape.parent j ≠ i → v (shape.parent j) ≤ v j
  grand : 0 < i → m ≤ shape.parent i → ∀ c, 0 < c → c < n → shape.parent c = i → v (shape.parent i) ≤ v c

/-- The order but for one element's children. -/
structure Sinking (shape : Levels) (n : Nat) (v : Nat → κ) (i : Nat) : Prop extends
    Rising shape n v i where
  above : 0 < i → v (shape.parent i) ≤ v i

/-- The first element is the least. -/
theorem Ordered.least (ordered : shape.Ordered n v) (inside : j < n) : v 0 ≤ v j := by
  induction j using Nat.strong_induction_on with
  | h j ih =>
    rcases Nat.eq_zero_or_pos j with rfl | behind
    · exact le_refl _
    · have lower := shape.lower behind
      exact (ih _ lower (lower.trans inside)).trans (ordered j behind inside)

/-- An element of an ordered heap may be any other. -/
theorem Ordered.rising (ordered : shape.Ordered n v) (i : Nat) (k : κ) : shape.Rising n (Function.update v i k) i where
  rest j behind inside other apart := by
    rw [Function.update_of_ne other, Function.update_of_ne apart]
    exact ordered j behind inside
  grand hole c behind inside child := by
    have below : i < c := child ▸ shape.lower behind
    rw [Function.update_of_ne (shape.lower hole).ne, Function.update_of_ne below.ne']
    have first := ordered i hole (below.trans inside)
    have second := ordered c behind inside
    rw [child] at second
    exact first.trans second

/-- There is no order to keep of an element behind all others. -/
theorem Ordered.push (ordered : shape.Ordered n v) : shape.Rising (n + 1) v n where
  rest j behind inside other _ := ordered j behind (lt_of_le_of_ne (Nat.le_of_lt_succ inside) other)
  grand _ c behind inside child := by
    have below : n < c := child ▸ shape.lower behind
    omega

theorem Ordered.mono {m : Nat} (ordered : shape.Ordered n v) (less : m ≤ n) : shape.Ordered m v :=
  fun j behind inside => ordered j behind (inside.trans_le less)

theorem Ordered.congr {w : Nat → κ} (ordered : shape.Ordered n v) (same : ∀ j < n, w j = v j) : shape.Ordered n w := by
  intro j behind inside
  rw [same j inside, same _ ((shape.lower behind).trans inside)]
  exact ordered j behind inside

theorem Rising.congr {w : Nat → κ} (rising : shape.Rising n v i) (same : ∀ j < n, w j = v j) : shape.Rising n w i where
  rest j behind inside other apart := by
    rw [same j inside, same _ ((shape.lower behind).trans inside)]
    exact rising.rest j behind inside other apart
  grand hole c behind inside child := by
    have below : i < c := child ▸ shape.lower behind
    rw [same c inside, same _ ((shape.lower hole).trans (below.trans inside))]
    exact rising.grand hole c behind inside child

/-- An element out of place and its parent may change places. -/
theorem Rising.up (rising : shape.Rising n v i) (hole : 0 < i) (inside : i < n) :
    shape.Rising n (v ∘ Equiv.swap i (shape.parent i)) (shape.parent i) := by
  have lower := shape.lower hole
  constructor
  · intro j behind inside' other apart
    have own : j ≠ i := fun same => apart (congrArg shape.parent same)
    rw [Function.comp_apply, Function.comp_apply, Equiv.swap_apply_of_ne_of_ne own other]
    by_cases child : shape.parent j = i
    · rw [child, Equiv.swap_apply_left]
      exact rising.grand hole j behind inside' child
    · rw [Equiv.swap_apply_of_ne_of_ne child apart]
      exact rising.rest j behind inside' own child
  · intro top c behind inside' child
    have before := shape.lower top
    have edge : v (shape.parent (shape.parent i)) ≤ v (shape.parent i) :=
      rising.rest _ top (lower.trans inside) lower.ne (before.trans lower).ne
    rw [Function.comp_apply, Function.comp_apply, Equiv.swap_apply_of_ne_of_ne (before.trans lower).ne before.ne]
    by_cases own : c = i
    · rw [own, Equiv.swap_apply_left]
      exact edge
    · have below : shape.parent i < c := child ▸ shape.lower behind
      rw [Equiv.swap_apply_of_ne_of_ne own below.ne']
      have sibling := rising.rest c behind inside' own (child ▸ lower.ne)
      rw [child] at sibling
      exact edge.trans sibling

/-- One that is not before its parent stays there or moves down. -/
theorem Rising.stop (rising : shape.Rising n v i) (above : 0 < i → v (shape.parent i) ≤ v i) : shape.Sinking n v i :=
  ⟨rising, above⟩

/-- The least child of an element moves up in its place, if it is before it. -/
theorem Settling.down {m c : Nat} (settling : shape.Settling n m v i) (behind : 0 < c) (inside : c < n)
    (child : shape.parent c = i) (least : ∀ d, 0 < d → d < n → shape.parent d = i → v c ≤ v d) (less : v c < v i) :
    shape.Settling n m (v ∘ Equiv.swap i c) c := by
  have below : i < c := child ▸ shape.lower behind
  constructor
  · intro j first inside' level apart
    rw [Function.comp_apply, Function.comp_apply]
    by_cases own : j = i
    · rw [own] at first level ⊢
      have lower := shape.lower first
      rw [Equiv.swap_apply_left, Equiv.swap_apply_of_ne_of_ne lower.ne (lower.trans below).ne]
      exact settling.grand first level c behind inside child
    · by_cases sibling : shape.parent j = i
      · by_cases same : j = c
        · rw [same, child, Equiv.swap_apply_left, Equiv.swap_apply_right]
          exact less.le
        · rw [sibling, Equiv.swap_apply_left, Equiv.swap_apply_of_ne_of_ne own same]
          exact least j first inside' sibling
      · have other : j ≠ c := fun same => sibling (same ▸ child)
        rw [Equiv.swap_apply_of_ne_of_ne own other, Equiv.swap_apply_of_ne_of_ne sibling apart]
        exact settling.rest j first inside' level sibling
  · intro _ level d first inside' grandchild
    have later : c < d := grandchild ▸ shape.lower first
    rw [Function.comp_apply, Function.comp_apply, child, Equiv.swap_apply_left,
      Equiv.swap_apply_of_ne_of_ne (below.trans later).ne' later.ne']
    rw [child] at level
    have edge := settling.rest d first inside' (grandchild ▸ level.trans below.le) (grandchild ▸ below.ne')
    rwa [grandchild] at edge

/-- An element that is not behind any child of its own is in place. -/
theorem Settling.ordered {m : Nat} (settling : shape.Settling n m v i)
    (last : ∀ c, 0 < c → c < n → shape.parent c = i → v i ≤ v c) : shape.OrderedFrom n m v := by
  intro j behind inside level
  by_cases child : shape.parent j = i
  · rw [child]
    exact last j behind inside child
  · exact settling.rest j behind inside level child

/-- Above ordered elements there is only the order below one to settle. -/
theorem OrderedFrom.settling {m : Nat} (ordered : shape.OrderedFrom n (m + 1) v) : shape.Settling n m v m where
  rest j behind inside level apart := ordered j behind inside (lt_of_le_of_ne level apart.symm)
  grand hole level := absurd (shape.lower hole) (Nat.not_lt.mpr level)

theorem orderedFrom_zero : shape.OrderedFrom n 0 v ↔ shape.Ordered n v :=
  ⟨fun ordered j behind inside => ordered j behind inside (Nat.zero_le _),
    fun ordered j behind inside _ => ordered j behind inside⟩

theorem Sinking.settling (sinking : shape.Sinking n v i) : shape.Settling n 0 v i where
  rest j behind inside _ apart := by
    by_cases own : j = i
    · rw [own] at behind ⊢
      exact sinking.above behind
    · exact sinking.rest j behind inside own apart
  grand hole _ := sinking.grand hole

theorem Settling.sinking (settling : shape.Settling n 0 v i) (inside : i < n) : shape.Sinking n v i where
  rest j behind inside' _ apart := settling.rest j behind inside' (Nat.zero_le _) apart
  grand hole := settling.grand hole (Nat.zero_le _)
  above hole := settling.rest i hole inside (Nat.zero_le _) (shape.lower hole).ne

theorem Sinking.down {c : Nat} (sinking : shape.Sinking n v i) (behind : 0 < c) (inside : c < n)
    (child : shape.parent c = i) (least : ∀ d, 0 < d → d < n → shape.parent d = i → v c ≤ v d) (less : v c < v i) :
    shape.Sinking n (v ∘ Equiv.swap i c) c :=
  (sinking.settling.down behind inside child least less).sinking inside

theorem Sinking.ordered (sinking : shape.Sinking n v i)
    (last : ∀ c, 0 < c → c < n → shape.parent c = i → v i ≤ v c) : shape.Ordered n v :=
  orderedFrom_zero.mp (sinking.settling.ordered last)

end Levels

end Askai.Library

/-!
# Heap sort

An array is sorted in place: each element sinks below the greatest of its children, then the first of the
heap and its last change places, and the heap is one shorter.
-/

namespace Askai.Library

/-- The shape of a binary heap. -/
def binary : Levels where
  parent j := (j - 1) / 2
  lower some_ := by omega

namespace HeapSort

variable {α : Type*}

/-- The greatest child of `parent` in the first `n`, if it has one. -/
def child (cmp : α → α → Ordering) (v : Nat → α) (n parent : Nat) : Nat :=
  if parent * 2 + 2 < n ∧ cmp (v (parent * 2 + 1)) (v (parent * 2 + 2)) = .lt then parent * 2 + 2
  else parent * 2 + 1

theorem child_between (cmp : α → α → Ordering) (v : Nat → α) (n parent : Nat) :
    parent < child cmp v n parent ∧ (child cmp v n parent - 1) / 2 = parent ∧
      (parent * 2 + 1 < n → child cmp v n parent < n) := by
  rw [child]
  split <;> omega

/-- An element sinks in the first `n` while a child is greater. -/
def sink (cmp : α → α → Ordering) (v : Nat → α) (n parent : Nat) : Nat → α :=
  if n ≤ parent * 2 + 1 then v
  else if cmp (v parent) (v (child cmp v n parent)) ≠ .lt then v
  else sink cmp (v ∘ Equiv.swap parent (child cmp v n parent)) n (child cmp v n parent)
termination_by n - parent
decreasing_by
  have between := child_between cmp v n parent
  omega

/-- The heap is built from its last parent to the first element. -/
def build (cmp : α → α → Ordering) (n : Nat) : Nat → (Nat → α) → Nat → α
  | 0, v => v
  | i + 1, v => build cmp n i (sink cmp v n i)

/-- The first of the heap goes behind the others, from the last place to the second. -/
def drain (cmp : α → α → Ordering) : Nat → (Nat → α) → Nat → α
  | 0, v => v
  | 1, v => v
  | i + 2, v => drain cmp (i + 1) (sink cmp (v ∘ Equiv.swap 0 (i + 1)) (i + 1) 0)

/-- The first `n` elements sorted. -/
def sort (cmp : α → α → Ordering) (v : Nat → α) (n : Nat) : Nat → α :=
  drain cmp n (build cmp n (n / 2) v)

/-! ## Elements that change places -/

/-- The same elements, the first `n` in another order. -/
def Moved (n : Nat) (v w : Nat → α) : Prop :=
  ∃ σ : Equiv.Perm Nat, (∀ k, n ≤ k → σ k = k) ∧ w = v ∘ σ

theorem Moved.refl (n : Nat) (v : Nat → α) : Moved n v v :=
  ⟨1, fun _ _ => rfl, rfl⟩

theorem Moved.trans {n : Nat} {u v w : Nat → α} (first : Moved n u v) (second : Moved n v w) : Moved n u w := by
  obtain ⟨σ, fixed, rfl⟩ := first
  obtain ⟨τ, still, rfl⟩ := second
  refine ⟨τ.trans σ, fun k behind => ?_, rfl⟩
  rw [Equiv.trans_apply, still k behind, fixed k behind]

theorem Moved.swap {n i j : Nat} (v : Nat → α) (first : i < n) (second : j < n) : Moved n v (v ∘ Equiv.swap i j) :=
  ⟨Equiv.swap i j, fun _ behind => Equiv.swap_apply_of_ne_of_ne (first.trans_le behind).ne'
    (second.trans_le behind).ne', rfl⟩

theorem Moved.mono {m n : Nat} {v w : Nat → α} (moved : Moved m v w) (less : m ≤ n) : Moved n v w := by
  obtain ⟨σ, fixed, rfl⟩ := moved
  exact ⟨σ, fun k behind => fixed k (less.trans behind), rfl⟩

theorem Moved.stays {n k : Nat} {v w : Nat → α} (moved : Moved n v w) (behind : n ≤ k) : w k = v k := by
  obtain ⟨σ, fixed, rfl⟩ := moved
  rw [Function.comp_apply, fixed k behind]

/-- Each of the first elements is one of the first elements before. -/
theorem Moved.exists {n k : Nat} {v w : Nat → α} (moved : Moved n v w) (inside : k < n) : ∃ j < n, w k = v j := by
  obtain ⟨σ, fixed, rfl⟩ := moved
  refine ⟨σ k, ?_, rfl⟩
  by_contra behind
  have same := fixed (σ k) (Nat.le_of_not_lt behind)
  rw [σ.injective same] at behind
  exact behind inside

theorem Moved.symm {n : Nat} {v w : Nat → α} (moved : Moved n v w) : Moved n w v := by
  obtain ⟨σ, fixed, rfl⟩ := moved
  refine ⟨σ.symm, fun k behind => ?_, ?_⟩
  · rw [Equiv.symm_apply_eq, fixed k behind]
  · rw [Function.comp_assoc, Equiv.self_comp_symm, Function.comp_id]

theorem sink_moved (cmp : α → α → Ordering) (v : Nat → α) {n parent : Nat} (inside : parent < n) :
    Moved n v (sink cmp v n parent) := by
  induction v, parent using sink.induct cmp n with
  | case1 v parent short =>
    rw [sink, if_pos short]
    exact .refl n v
  | case2 v parent long stops =>
    rw [sink, if_neg long, if_pos stops]
    exact .refl n v
  | case3 v parent long goes ih =>
    obtain ⟨-, -, within⟩ := child_between cmp v n parent
    have last := within (Nat.lt_of_not_le long)
    rw [sink, if_neg long, if_neg goes]
    exact (Moved.swap v inside last).trans (ih last)

theorem build_moved (cmp : α → α → Ordering) {n i : Nat} (inside : i ≤ n) (v : Nat → α) :
    Moved n v (build cmp n i v) := by
  induction i generalizing v with
  | zero => exact .refl n v
  | succ i ih => exact (sink_moved cmp v inside).trans (ih (Nat.le_of_succ_le inside) _)

/-! ## Order -/

section Order

variable {κ : Type*} [LinearOrder κ] (key : α → κ) {cmp : α → α → Ordering} {n m : Nat}

/-- The elements by their keys, the greatest first. -/
def rank (v : Nat → α) (i : Nat) : κᵒᵈ :=
  OrderDual.toDual (key (v i))

/-- The elements from `i` on in order, behind the others. -/
structure Drained (n i : Nat) (v : Nat → α) : Prop where
  sorted : ∀ j k, i ≤ j → j < k → k < n → key (v j) ≤ key (v k)
  behind : ∀ j k, j < i → i ≤ k → k < n → key (v j) ≤ key (v k)

theorem Drained.all {i : Nat} {v : Nat → α} (drained : Drained key n i v) (one : i ≤ 1) :
    ∀ j k, j < k → k < n → key (v j) ≤ key (v k) := by
  intro j k less inside
  rcases Nat.lt_or_ge j i with first | behind
  · exact drained.behind j k first (by omega) inside
  · exact drained.sorted j k behind less inside

variable (agrees : ∀ a b, cmp a b = .lt ↔ key a < key b)
include agrees

theorem child_greatest (v : Nat → α) {parent c : Nat} (behind : 0 < c) (inside : c < n)
    (below : (c - 1) / 2 = parent) : key (v c) ≤ key (v (child cmp v n parent)) := by
  have which : c = parent * 2 + 1 ∨ c = parent * 2 + 2 := by omega
  rw [child]
  split
  · rename_i second
    have less := (agrees _ _).mp second.2
    rcases which with rfl | rfl
    · exact less.le
    · exact le_refl _
  · rename_i first
    rcases which with rfl | rfl
    · exact le_refl _
    · exact not_lt.mp fun less => first ⟨inside, (agrees _ _).mpr less⟩

/-- What sinks leaves the order of a heap. -/
theorem sink_ordered {v : Nat → α} {parent : Nat} (settling : binary.Settling n m (rank key v) parent) :
    binary.OrderedFrom n m (rank key (sink cmp v n parent)) := by
  induction v, parent using sink.induct cmp n with
  | case1 v parent short =>
    rw [sink, if_pos short]
    apply settling.ordered
    intro c behind inside below
    change (c - 1) / 2 = parent at below
    omega
  | case2 v parent long stops =>
    rw [sink, if_neg long, if_pos stops]
    apply settling.ordered
    intro c behind inside below
    have least := child_greatest key agrees v behind inside below
    exact least.trans (not_lt.mp fun less => stops ((agrees _ _).mpr less))
  | case3 v parent long goes ih =>
    obtain ⟨later, above, within⟩ := child_between cmp v n parent
    have less := (agrees _ _).mp (not_not.mp goes)
    rw [sink, if_neg long, if_neg goes]
    exact ih (settling.down (by omega) (within (Nat.lt_of_not_le long)) above
      (fun d behind inside below => child_greatest key agrees v behind inside below) less)

theorem build_ordered {i : Nat} {v : Nat → α} (ordered : binary.OrderedFrom n i (rank key v)) :
    binary.Ordered n (rank key (build cmp n i v)) := by
  induction i generalizing v with
  | zero => exact Levels.orderedFrom_zero.mp ordered
  | succ i ih => exact ih (sink_ordered key agrees ordered.settling)

/-- One element more is behind the heap. -/
theorem Drained.step {i : Nat} {v : Nat → α} (ordered : binary.Ordered (i + 2) (rank key v))
    (drained : Drained key n (i + 2) v) :
    binary.Ordered (i + 1) (rank key (sink cmp (v ∘ Equiv.swap 0 (i + 1)) (i + 1) 0)) ∧
      Drained key n (i + 1) (sink cmp (v ∘ Equiv.swap 0 (i + 1)) (i + 1) 0) := by
  have settling : binary.Settling (i + 1) 0 (rank key (v ∘ Equiv.swap 0 (i + 1))) 0 := by
    constructor
    · intro j behind less _ apart
      have lower := binary.lower behind
      rw [rank, rank, Function.comp_apply, Function.comp_apply,
        Equiv.swap_apply_of_ne_of_ne behind.ne' less.ne, Equiv.swap_apply_of_ne_of_ne apart (lower.trans less).ne]
      exact ordered j behind (by omega)
    · exact fun hole => absurd hole (Nat.lt_irrefl 0)
  have moved := sink_moved cmp (v ∘ Equiv.swap 0 (i + 1)) (Nat.succ_pos i)
  have last : sink cmp (v ∘ Equiv.swap 0 (i + 1)) (i + 1) 0 (i + 1) = v 0 := by
    rw [moved.stays (Nat.le_refl _), Function.comp_apply, Equiv.swap_apply_right]
  have others : ∀ k, i + 2 ≤ k → sink cmp (v ∘ Equiv.swap 0 (i + 1)) (i + 1) 0 k = v k := by
    intro k behind
    rw [moved.stays (by omega), Function.comp_apply, Equiv.swap_apply_of_ne_of_ne (by omega) (by omega)]
  have firsts : ∀ j < i + 1, ∃ j' < i + 2, sink cmp (v ∘ Equiv.swap 0 (i + 1)) (i + 1) 0 j = v j' := by
    intro j less
    obtain ⟨j', less', same⟩ := moved.exists less
    obtain ⟨j'', less'', same'⟩ := (Moved.swap v (Nat.succ_pos (i + 1)) (Nat.lt_succ_self (i + 1))).exists
      (Nat.lt_succ_of_lt less')
    exact ⟨j'', less'', same.trans same'⟩
  refine ⟨Levels.orderedFrom_zero.mp (sink_ordered key agrees settling), ⟨?_, ?_⟩⟩
  · intro j k behind less inside'
    rw [others k (by omega)]
    rcases Nat.eq_or_lt_of_le behind with rfl | later
    · rw [last]
      exact drained.behind 0 k (Nat.succ_pos _) (by omega) inside'
    · rw [others j later]
      exact drained.sorted j k later less inside'
  · intro j k less behind inside'
    obtain ⟨j', less', same⟩ := firsts j less
    rw [same]
    rcases Nat.eq_or_lt_of_le behind with rfl | later
    · rw [last]
      exact ordered.least less'
    · rw [others k later]
      exact drained.behind j' k less' later inside'

theorem drain_sorted {i : Nat} {v : Nat → α} (inside : i ≤ n) (ordered : binary.Ordered i (rank key v))
    (drained : Drained key n i v) :
    (∀ j k, j < k → k < n → key (drain cmp i v j) ≤ key (drain cmp i v k)) ∧ Moved n v (drain cmp i v) := by
  induction i, v using drain.induct cmp with
  | case1 v => exact ⟨drained.all key (Nat.zero_le 1), .refl n v⟩
  | case2 v => exact ⟨drained.all key (Nat.le_refl 1), .refl n v⟩
  | case3 i v ih =>
    obtain ⟨ordered', drained'⟩ := drained.step key agrees ordered
    obtain ⟨sorted, moved⟩ := ih (by omega) ordered' drained'
    have exchanged := Moved.swap v (i := 0) (j := i + 1) (n := n) (by omega) (by omega)
    have sunk := (sink_moved cmp (v ∘ Equiv.swap 0 (i + 1)) (Nat.succ_pos i)).mono (n := n) (by omega)
    rw [drain]
    exact ⟨sorted, exchanged.trans (sunk.trans moved)⟩

/-- The first elements are sorted, and are the same. -/
theorem sort_sorted (v : Nat → α) (n : Nat) :
    (∀ j k, j < k → k < n → key (sort cmp v n j) ≤ key (sort cmp v n k)) ∧ Moved n v (sort cmp v n) := by
  have none_ : binary.OrderedFrom n (n / 2) (rank key v) := by
    intro j behind inside above
    change n / 2 ≤ (j - 1) / 2 at above
    omega
  have built := build_ordered key agrees none_
  have apart : Drained key n n (build cmp n (n / 2) v) :=
    ⟨fun j k first less inside => by omega, fun j k _ first inside => by omega⟩
  obtain ⟨sorted, moved⟩ := drain_sorted key agrees (Nat.le_refl n) built apart
  exact ⟨sorted, (build_moved cmp (Nat.div_le_self n 2) v).trans moved⟩

end Order

end HeapSort

end Askai.Library
