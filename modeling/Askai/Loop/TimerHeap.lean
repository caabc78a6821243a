import Askai.Library.HeapOrder
import Askai.Util.Room

/-!
# The timers of a loop

The heap of a loop's timers by their deadlines (`loop_heap_fix`, `loop_timer_set`, `loop_timer_stop` and
`loop_fire` of `loop.c`).
-/

namespace Askai.Timers

open Library

/-- `struct loop_timer`, with whether it has a function. -/
structure LoopTimer where
  due : UInt64 := 0
  fn : Bool := true
  /-- Its place in the heap plus 1, or 0. -/
  slot : Nat := 0
  deriving DecidableEq, Repr

/-- What a loop has of its timers. A timer is named by its address. -/
structure TimerHeap where
  timer : Nat → LoopTimer := fun _ => {}
  /-- The entries before `timers`; no other is read. -/
  heap : Nat → Nat := fun _ => 0
  timers : Nat := 0
  heapCap : Nat := 0
  /-- When the turn began. -/
  now : UInt64 := 0
  /-- `LOOP_EXIT`. -/
  exit : Bool := false

inductive TimerError where
  | efault
  | einval
  | enomem
  deriving DecidableEq, Repr

/-- `HEAP_MIN`. -/
abbrev heapMin : Nat := 64

/-- `UINT64_MAX`. -/
abbrev never : UInt64 := 0xffffffffffffffff

/-- `loop_heap_put`. -/
def loopHeapPut (l : TimerHeap) (t i : Nat) : TimerHeap :=
  { l with
    heap := Function.update l.heap i t
    timer := Function.update l.timer t { l.timer t with slot := i + 1 } }

/-- The first loop of `loop_heap_fix`, with the place it ends at. -/
def loopHeapUp (l : TimerHeap) (t i : Nat) : TimerHeap × Nat :=
  if 0 < i ∧ (l.timer t).due < (l.timer (l.heap ((i - 1) / 4))).due then
    loopHeapUp (loopHeapPut l (l.heap ((i - 1) / 4)) i) t ((i - 1) / 4)
  else (l, i)
termination_by i
decreasing_by omega

/-- The inner loop of the second: the first of the entries that is due first. -/
def loopHeapLeast (l : TimerHeap) (c k end_ : Nat) : Nat :=
  if k < end_ then
    loopHeapLeast l (if (l.timer (l.heap k)).due < (l.timer (l.heap c)).due then k else c) (k + 1) end_
  else c
termination_by end_ - k

/-- Of the entries up to `k`, `loopHeapLeast` goes to no earlier one than where it begins. -/
theorem loopHeapLeast_between {l : TimerHeap} {c k end_ : Nat} (before : c < k) (inside : k ≤ end_) :
    c ≤ loopHeapLeast l c k end_ ∧ loopHeapLeast l c k end_ < end_ := by
  induction h : end_ - k generalizing c k with
  | zero =>
    rw [loopHeapLeast, if_neg (by omega)]
    omega
  | succ d ih =>
    rw [loopHeapLeast, if_pos (by omega)]
    split
    · obtain ⟨first, last⟩ := ih (show k < k + 1 by omega) (by omega) (by omega)
      exact ⟨by omega, last⟩
    · exact ih (by omega) (by omega) (by omega)

/-- The end of the children of an entry. -/
def loopHeapEnd (timers i : Nat) : Nat :=
  if 4 * i + 1 + 4 < timers then 4 * i + 1 + 4 else timers

/-- The child of an entry that is due first. -/
def loopHeapChild (l : TimerHeap) (i : Nat) : Nat :=
  loopHeapLeast l (4 * i + 1) (4 * i + 2) (loopHeapEnd l.timers i)

theorem loopHeapChild_between {l : TimerHeap} {i : Nat} (inside : 4 * i + 1 < l.timers) :
    4 * i + 1 ≤ loopHeapChild l i ∧ loopHeapChild l i < loopHeapEnd l.timers i := by
  apply loopHeapLeast_between (Nat.lt_succ_self _)
  rw [loopHeapEnd]
  split <;> omega

theorem loopHeapEnd_le (timers i : Nat) : loopHeapEnd timers i ≤ timers := by
  rw [loopHeapEnd]
  split <;> omega

/-- The second loop of `loop_heap_fix`. -/
def loopHeapDown (l : TimerHeap) (t i : Nat) : TimerHeap × Nat :=
  if _inside : 4 * i + 1 < l.timers then
    let c := loopHeapChild l i
    if (l.timer t).due ≤ (l.timer (l.heap c)).due then (l, i)
    else loopHeapDown (loopHeapPut l (l.heap c) i) t c
  else (l, i)
termination_by l.timers - i
decreasing_by
  have between := loopHeapChild_between _inside
  simp only [loopHeapPut]
  omega

/-- `loop_heap_fix`. -/
def loopHeapFix (l : TimerHeap) (t : Nat) : TimerHeap :=
  let (l, i) := loopHeapUp l t ((l.timer t).slot - 1)
  let (l, i) := loopHeapDown l t i
  loopHeapPut l t i

/-- The last lines of `loop_timer_set`. -/
def loopTimerDue (l : TimerHeap) (t : Nat) (due : UInt64) : TimerHeap :=
  loopHeapFix { l with timer := Function.update l.timer t { l.timer t with due } } t

/-- `loop_timer_set`; `memory` says whether the heap's array can grow. -/
def loopTimerSet (memory : Bool) (l : TimerHeap) (t : Nat) (due : UInt64) : TimerHeap × Option TimerError :=
  if !(l.timer t).fn then (l, some .efault)
  else if l.timers < (l.timer t).slot then (l, some .einval)
  else if (l.timer t).slot = 0 then
    match utilGrow memory 8 l.heapCap (if l.timers < heapMin then heapMin else l.timers + 1) with
    | none => (l, some .enomem)
    | some heapCap =>
      (loopTimerDue (loopHeapPut { l with heapCap, timers := l.timers + 1 } t l.timers) t due, none)
  else if l.heap ((l.timer t).slot - 1) ≠ t then (l, some .einval)
  else (loopTimerDue l t due, none)

/-- `loop_timer_stop`. -/
def loopTimerStop (l : TimerHeap) (t : Nat) : TimerHeap × Option TimerError :=
  if (l.timer t).slot = 0 then (l, none)
  else if l.timers < (l.timer t).slot ∨ l.heap ((l.timer t).slot - 1) ≠ t then (l, some .einval)
  else
    let i := (l.timer t).slot - 1
    let l := { l with
      timer := Function.update l.timer t { l.timer t with slot := 0 }
      timers := l.timers - 1 }
    let last := l.heap l.timers
    if i < l.timers then (loopHeapFix (loopHeapPut l last i) last, none) else (l, none)

/-- What a timer's function may do with the loop. -/
inductive TimerOp where
  | set (memory : Bool) (t : Nat) (due : UInt64)
  | stop (t : Nat)
  /-- `loop_exit`. -/
  | exit
  deriving DecidableEq, Repr

def TimerOp.run (l : TimerHeap) : TimerOp → TimerHeap
  | .set memory t due => (loopTimerSet memory l t due).1
  | .stop t => (loopTimerStop l t).1
  | .exit => { l with exit := true }

end Askai.Timers

/-!
# The order of the timers

Every change of a loop's timers leaves a heap of four children an entry, by due time, in which each timer
has its place.
-/

namespace Askai.Timers

open Library

/-! ## Entries -/

section Put

variable (l : TimerHeap) (t i u : Nat)

@[simp] theorem put_timers : (loopHeapPut l t i).timers = l.timers := rfl

@[simp] theorem put_due : ((loopHeapPut l t i).timer u).due = (l.timer u).due := by
  rw [loopHeapPut]
  dsimp only
  by_cases same : u = t
  · rw [same, Function.update_self]
  · rw [Function.update_of_ne same]

@[simp] theorem put_fn : ((loopHeapPut l t i).timer u).fn = (l.timer u).fn := by
  rw [loopHeapPut]
  dsimp only
  by_cases same : u = t
  · rw [same, Function.update_self]
  · rw [Function.update_of_ne same]

theorem put_slot : ((loopHeapPut l t i).timer t).slot = i + 1 := by
  simp [loopHeapPut]

theorem put_slot_of_ne {u : Nat} (other : u ≠ t) : ((loopHeapPut l t i).timer u).slot = (l.timer u).slot := by
  simp [loopHeapPut, other]

end Put

/-- The shape of the heap. -/
def quad : Levels where
  parent i := (i - 1) / 4
  lower := by
    intro i behind
    omega

/-- When the entries are due, with a timer in the place of one. -/
def dueAt (l : TimerHeap) (t i j : Nat) : Nat :=
  (l.timer (Function.update l.heap i t j)).due.toNat

variable {l : TimerHeap} {t i : Nat}

theorem dueAt_self : dueAt l t i i = (l.timer t).due.toNat := by
  rw [dueAt, Function.update_self]

theorem dueAt_of_ne {j : Nat} (other : j ≠ i) : dueAt l t i j = (l.timer (l.heap j)).due.toNat := by
  rw [dueAt, Function.update_of_ne other]

/-- All entries have their places but one, in which there is to be `t`. -/
structure Hole (l : TimerHeap) (t i : Nat) : Prop where
  inside : i < l.timers
  slots : ∀ j < l.timers, j ≠ i → (l.timer (l.heap j)).slot = j + 1
  others : ∀ j < l.timers, j ≠ i → l.heap j ≠ t
  out : ∀ u, u ≠ t → (l.timer u).slot ≠ 0 →
    (l.timer u).slot ≤ l.timers ∧ (l.timer u).slot ≠ i + 1 ∧ l.heap ((l.timer u).slot - 1) = u

/-- What moving entries leaves as it is. -/
structure Kept (t : Nat) (l l' : TimerHeap) : Prop where
  due : ∀ u, (l'.timer u).due = (l.timer u).due
  fn : ∀ u, (l'.timer u).fn = (l.timer u).fn
  timers : l'.timers = l.timers
  heapCap : l'.heapCap = l.heapCap
  now : l'.now = l.now
  exit : l'.exit = l.exit
  out : ∀ u, u ≠ t → ((l'.timer u).slot = 0 ↔ (l.timer u).slot = 0)

theorem Kept.refl (t : Nat) (l : TimerHeap) : Kept t l l :=
  ⟨fun _ => rfl, fun _ => rfl, rfl, rfl, rfl, rfl, fun _ _ => Iff.rfl⟩

theorem Kept.trans {l' l'' : TimerHeap} (first : Kept t l l') (second : Kept t l' l'') : Kept t l l'' where
  due u := (second.due u).trans (first.due u)
  fn u := (second.fn u).trans (first.fn u)
  timers := second.timers.trans first.timers
  heapCap := second.heapCap.trans first.heapCap
  now := second.now.trans first.now
  exit := second.exit.trans first.exit
  out u other := (second.out u other).trans (first.out u other)

namespace Hole

/-- The entry at another place goes to the free one, and leaves its own free. -/
theorem move (hole : Hole l t i) {k : Nat} (inside : k < l.timers) (other : k ≠ i) :
    Hole (loopHeapPut l (l.heap k) i) t k ∧ Kept t l (loopHeapPut l (l.heap k) i) ∧
      dueAt (loopHeapPut l (l.heap k) i) t k = dueAt l t i ∘ Equiv.swap i k := by
  have slot := hole.slots k inside other
  have apart := hole.others k inside other
  have distinct : ∀ j < l.timers, j ≠ i → j ≠ k → l.heap j ≠ l.heap k := by
    intro j less away away' same
    have := hole.slots j less away
    rw [same, slot] at this
    omega
  have heap : (loopHeapPut l (l.heap k) i).heap = Function.update l.heap i (l.heap k) := rfl
  refine ⟨⟨inside, fun j less away => ?_, fun j less away => ?_, fun u away some_ => ?_⟩,
    ⟨fun u => put_due .., fun u => put_fn .., rfl, rfl, rfl, rfl, fun u _ => ?_⟩, ?_⟩
  · rw [heap]
    by_cases own : j = i
    · rw [own, Function.update_self, put_slot]
    · rw [Function.update_of_ne own, put_slot_of_ne _ _ _ (distinct j less own away)]
      exact hole.slots j less own
  · rw [heap]
    by_cases own : j = i
    · rw [own, Function.update_self]
      exact apart
    · rw [Function.update_of_ne own]
      exact hole.others j less own
  · rw [heap]
    by_cases moved : u = l.heap k
    · have here := hole.inside
      rw [moved, put_slot, Nat.add_sub_cancel, Function.update_self, put_timers]
      exact ⟨here, by omega, rfl⟩
    · rw [put_slot_of_ne _ _ _ moved] at some_ ⊢
      obtain ⟨bound, free_, named⟩ := hole.out u away some_
      refine ⟨bound, ?_, ?_⟩
      · intro same
        rw [same, Nat.add_sub_cancel] at named
        exact moved named.symm
      · rw [Function.update_of_ne (by omega)]
        exact named
  · by_cases moved : u = l.heap k
    · rw [moved, put_slot, slot]
      omega
    · rw [put_slot_of_ne _ _ _ moved]
  · funext j
    rw [Function.comp_apply, dueAt, dueAt, heap, put_due]
    congr 3
    by_cases last : j = k
    · rw [last, Function.update_self, Equiv.swap_apply_right, Function.update_self]
    · rw [Function.update_of_ne last]
      by_cases first : j = i
      · rw [first, Function.update_self, Equiv.swap_apply_left, Function.update_of_ne other]
      · rw [Function.update_of_ne first, Equiv.swap_apply_of_ne_of_ne first last, Function.update_of_ne first]

/-- Moving up while the entry above is due later. -/
theorem up (hole : Hole l t i) (rising : quad.Rising l.timers (dueAt l t i) i) :
    Hole (loopHeapUp l t i).1 t (loopHeapUp l t i).2 ∧ Kept t l (loopHeapUp l t i).1 ∧
      quad.Sinking (loopHeapUp l t i).1.timers (dueAt (loopHeapUp l t i).1 t (loopHeapUp l t i).2)
        (loopHeapUp l t i).2 := by
  induction i using Nat.strong_induction_on generalizing l with
  | h i ih =>
    rw [loopHeapUp]
    split
    · rename_i above
      have inside := hole.inside
      have less : (i - 1) / 4 < i := by omega
      obtain ⟨hole', kept, dues⟩ := hole.move (less.trans inside) less.ne
      have rising' := rising.up above.1 inside
      change quad.Rising _ (dueAt l t i ∘ Equiv.swap i ((i - 1) / 4)) ((i - 1) / 4) at rising'
      rw [← dues] at rising'
      obtain ⟨hole'', kept', sinking⟩ := ih _ less hole' rising'
      exact ⟨hole'', kept.trans kept', sinking⟩
    · rename_i stop
      refine ⟨hole, .refl t l, rising.stop fun top => ?_⟩
      have less : (i - 1) / 4 < i := by omega
      change dueAt l t i ((i - 1) / 4) ≤ dueAt l t i i
      rw [dueAt_self, dueAt_of_ne less.ne]
      have late : ¬ (l.timer t).due < (l.timer (l.heap ((i - 1) / 4))).due := fun early => stop ⟨top, early⟩
      rwa [UInt64.lt_iff_toNat_lt, Nat.not_lt] at late

end Hole

/-- No entry of those looked at is due before the one found. -/
theorem loopHeapLeast_le (l : TimerHeap) (c k end_ : Nat) :
    (l.timer (l.heap (loopHeapLeast l c k end_))).due.toNat ≤ (l.timer (l.heap c)).due.toNat ∧ ∀ j, k ≤ j → j < end_ →
        (l.timer (l.heap (loopHeapLeast l c k end_))).due.toNat ≤ (l.timer (l.heap j)).due.toNat := by
  induction h : end_ - k generalizing c k with
  | zero =>
    rw [loopHeapLeast, if_neg (by omega)]
    exact ⟨Nat.le_refl _, fun j first last => absurd last (by omega)⟩
  | succ d ih =>
    rw [loopHeapLeast, if_pos (by omega)]
    split
    · rename_i early
      rw [UInt64.lt_iff_toNat_lt] at early
      obtain ⟨own, rest⟩ := ih k (k + 1) (by omega)
      refine ⟨own.trans early.le, fun j first last => ?_⟩
      rcases Nat.eq_or_lt_of_le first with rfl | later
      · exact own
      · exact rest j later last
    · rename_i late
      rw [UInt64.lt_iff_toNat_lt, Nat.not_lt] at late
      obtain ⟨own, rest⟩ := ih c (k + 1) (by omega)
      refine ⟨own, fun j first last => ?_⟩
      rcases Nat.eq_or_lt_of_le first with rfl | later
      · exact own.trans late
      · exact rest j later last

/-- The child found is due first of all children. -/
theorem loopHeapChild_least {c : Nat} (behind : 0 < c) (inside : c < l.timers) (child : quad.parent c = i) :
    (l.timer (l.heap (loopHeapChild l i))).due.toNat ≤ (l.timer (l.heap c)).due.toNat := by
  change (c - 1) / 4 = i at child
  obtain ⟨own, rest⟩ := loopHeapLeast_le l (4 * i + 1) (4 * i + 2) (loopHeapEnd l.timers i)
  by_cases first : c = 4 * i + 1
  · rw [first]
    exact own
  · apply rest c (by omega)
    rw [loopHeapEnd]
    split <;> omega

theorem loopHeapChild_parent (inside : 4 * i + 1 < l.timers) :
    quad.parent (loopHeapChild l i) = i ∧ loopHeapChild l i < l.timers := by
  obtain ⟨first, last⟩ := loopHeapChild_between inside
  have within : loopHeapChild l i < 4 * i + 5 := by
    apply last.trans_le
    rw [loopHeapEnd]
    split <;> omega
  refine ⟨?_, last.trans_le (loopHeapEnd_le ..)⟩
  change (loopHeapChild l i - 1) / 4 = i
  omega

/-- Moving down while the first entry below is due earlier. -/
theorem Hole.down (hole : Hole l t i) (sinking : quad.Sinking l.timers (dueAt l t i) i) :
    Hole (loopHeapDown l t i).1 t (loopHeapDown l t i).2 ∧ Kept t l (loopHeapDown l t i).1 ∧
      quad.Ordered (loopHeapDown l t i).1.timers (dueAt (loopHeapDown l t i).1 t (loopHeapDown l t i).2) := by
  induction h : l.timers - i using Nat.strong_induction_on generalizing l i with
  | h d ih =>
    rw [loopHeapDown]
    split
    · rename_i inside
      obtain ⟨child, within⟩ := loopHeapChild_parent inside
      have first := (loopHeapChild_between inside).1
      have least : ∀ c, 0 < c → c < l.timers → quad.parent c = i → dueAt l t i (loopHeapChild l i) ≤ dueAt l t i c := by
        intro c behind small same
        have below : i < c := same ▸ quad.lower behind
        rw [dueAt_of_ne (by omega), dueAt_of_ne below.ne']
        exact loopHeapChild_least behind small same
      dsimp only
      split
      · rename_i late
        refine ⟨hole, .refl t l, sinking.ordered fun c behind small same => ?_⟩
        apply Nat.le_trans _ (least c behind small same)
        rw [dueAt_self, dueAt_of_ne (by omega)]
        exact UInt64.le_iff_toNat_le.mp late
      · rename_i early
        obtain ⟨hole', kept, dues⟩ := hole.move within (by omega)
        have sinking' := sinking.down (by omega) within child least (by
          rw [dueAt_self, dueAt_of_ne (by omega)]
          exact Nat.not_le.mp fun late => early (UInt64.le_iff_toNat_le.mpr late))
        rw [← dues] at sinking'
        obtain ⟨hole'', kept', ordered⟩ := ih _ (by simp only [put_timers]; omega) hole' sinking' rfl
        exact ⟨hole'', kept.trans kept', ordered⟩
    · rename_i last
      refine ⟨hole, .refl t l, sinking.ordered fun c behind small same => ?_⟩
      change (c - 1) / 4 = i at same
      omega

/-! ## Sound heaps -/

/-- When the entries are due. -/
def dues (l : TimerHeap) (j : Nat) : Nat :=
  (l.timer (l.heap j)).due.toNat

/-- Each entry is a timer that has its place, no other timer has one, and no entry is due before its
parent. -/
structure Arranged (l : TimerHeap) : Prop where
  slots : ∀ j < l.timers, (l.timer (l.heap j)).slot = j + 1
  out : ∀ u, (l.timer u).slot ≠ 0 → (l.timer u).slot ≤ l.timers ∧ l.heap ((l.timer u).slot - 1) = u
  ordered : quad.Ordered l.timers (dues l)

/-- The timer goes to the free place. -/
theorem Hole.fill (hole : Hole l t i) (ordered : quad.Ordered l.timers (dueAt l t i)) :
    Arranged (loopHeapPut l t i) ∧ Kept t l (loopHeapPut l t i) := by
  have heap : (loopHeapPut l t i).heap = Function.update l.heap i t := rfl
  refine ⟨⟨fun j less => ?_, fun u some_ => ?_, ?_⟩, ⟨fun u => put_due .., fun u => put_fn .., rfl, rfl, rfl, rfl,
    fun u other => by rw [put_slot_of_ne _ _ _ other]⟩⟩
  · rw [heap]
    by_cases own : j = i
    · rw [own, Function.update_self, put_slot]
    · rw [Function.update_of_ne own, put_slot_of_ne _ _ _ (hole.others j less own)]
      exact hole.slots j less own
  · by_cases own : u = t
    · rw [own, put_slot, Nat.add_sub_cancel, heap, Function.update_self]
      exact ⟨hole.inside, rfl⟩
    · rw [put_slot_of_ne _ _ _ own] at some_ ⊢
      obtain ⟨bound, free_, named⟩ := hole.out u own some_
      rw [heap, Function.update_of_ne (by omega)]
      exact ⟨bound, named⟩
  · apply ordered.congr
    intro j less
    rw [dues, heap, put_due, dueAt]

/-- `loop_heap_fix` puts a timer in order that is out of it. -/
theorem Hole.fix (hole : Hole l t i) (slot : (l.timer t).slot = i + 1) (rising : quad.Rising l.timers (dueAt l t i) i) :
    Arranged (loopHeapFix l t) ∧ Kept t l (loopHeapFix l t) ∧ ((loopHeapFix l t).timer t).slot ≠ 0 := by
  obtain ⟨hole', kept, sinking⟩ := hole.up rising
  obtain ⟨hole'', kept', ordered⟩ := hole'.down sinking
  obtain ⟨arranged, kept''⟩ := hole''.fill ordered
  rw [loopHeapFix, slot, Nat.add_sub_cancel]
  refine ⟨arranged, (kept.trans kept').trans kept'', ?_⟩
  dsimp only
  rw [put_slot]
  exact Nat.succ_ne_zero _

/-- What holds of the timers of a loop between calls. -/
structure Sound (l : TimerHeap) : Prop extends Arranged l where
  room : l.timers ≤ l.heapCap
  fn : ∀ u, (l.timer u).slot ≠ 0 → (l.timer u).fn = true

/-- The deadlines of the timers that are set. -/
def armed (l : TimerHeap) (u : Nat) : Option UInt64 :=
  if (l.timer u).slot = 0 then none else some (l.timer u).due

/-! ## Calls -/

/-- What a call leaves: a sound heap of the deadlines `ref`, in the same turn. -/
structure Leaves (l l' : TimerHeap) (ref : Nat → Option UInt64) : Prop where
  sound : Sound l'
  armed : armed l' = ref
  now : l'.now = l.now
  exit : l'.exit = l.exit

/-- A timer with a place is out of place there at most. -/
theorem Arranged.hole (arranged : Arranged l) (inside : i < l.timers) (named : l.heap i = t) : Hole l t i := by
  have slot := arranged.slots i inside
  refine ⟨inside, fun j less _ => arranged.slots j less, fun j less other same => ?_, fun u other some_ => ?_⟩
  · have here := arranged.slots j less
    rw [same, ← named, slot] at here
    omega
  · obtain ⟨bound, heap⟩ := arranged.out u some_
    refine ⟨bound, fun same => ?_, heap⟩
    rw [same, Nat.add_sub_cancel, named] at heap
    exact other heap.symm

theorem dueAt_eq_dues (named : l.heap i = t) : dueAt l t i = dues l := by
  funext j
  rw [dueAt, dues, ← named, Function.update_eq_self]

/-- A timer at the free place gets a deadline. -/
theorem Hole.due {due : UInt64} (hole : Hole l t i) (slot : (l.timer t).slot = i + 1)
    (rising : quad.Rising l.timers (Function.update (dueAt l t i) i due.toNat) i)
    (room : l.timers ≤ l.heapCap) (fn : ∀ u, (l.timer u).slot ≠ 0 → (l.timer u).fn = true) :
    Leaves l (loopTimerDue l t due) (Function.update (armed l) t (some due)) := by
  obtain ⟨l', l'_eq⟩ : ∃ l' : TimerHeap, l' =
    { l with timer := Function.update l.timer t { l.timer t with due } } := ⟨_, rfl⟩
  have own : l'.timer t = { l.timer t with due } := by rw [l'_eq]; exact Function.update_self ..
  have rest : ∀ u, u ≠ t → l'.timer u = l.timer u := fun u other => by
    rw [l'_eq]
    exact Function.update_of_ne other ..
  have slots : ∀ u, (l'.timer u).slot = (l.timer u).slot := by
    intro u
    by_cases same : u = t
    · rw [same, own]
    · rw [rest u same]
  have fns : ∀ u, (l'.timer u).fn = (l.timer u).fn := by
    intro u
    by_cases same : u = t
    · rw [same, own]
    · rw [rest u same]
  have heap : l'.heap = l.heap := by rw [l'_eq]
  have timers : l'.timers = l.timers := by rw [l'_eq]
  have hole' : Hole l' t i := by
    refine ⟨by rw [timers]; exact hole.inside, ?_, ?_, ?_⟩
    · rw [timers, heap]
      exact fun j less other => (slots _).trans (hole.slots j less other)
    · rw [timers, heap]
      exact hole.others
    · intro u other some_
      rw [slots] at some_ ⊢
      rw [timers, heap]
      exact hole.out u other some_
  have rising' : quad.Rising l'.timers (dueAt l' t i) i := by
    rw [timers]
    apply rising.congr
    intro j less
    by_cases same : j = i
    · rw [same, Function.update_self, dueAt_self, own]
    · rw [Function.update_of_ne same, dueAt_of_ne same, dueAt_of_ne same, heap, rest _ (hole.others j less same)]
  obtain ⟨arranged, kept, placed⟩ := hole'.fix (by rw [slots, slot]) rising'
  rw [loopTimerDue, ← l'_eq]
  refine ⟨⟨arranged, ?_, fun u some_ => ?_⟩, ?_, by rw [kept.now, l'_eq], by rw [kept.exit, l'_eq]⟩
  · rw [kept.timers, kept.heapCap, l'_eq]
    exact room
  · rw [kept.fn, fns]
    apply fn
    by_cases same : u = t
    · rw [same, slot]
      exact Nat.succ_ne_zero _
    · rwa [ne_eq, kept.out u same, slots] at some_
  · funext u
    rw [armed]
    by_cases same : u = t
    · rw [same, Function.update_self, if_neg placed, kept.due, own]
    · rw [Function.update_of_ne same, armed, kept.due, rest u same]
      by_cases out : (l.timer u).slot = 0
      · rw [if_pos out, if_pos ((kept.out u same).mpr ((slots u).trans out))]
      · rw [if_neg out, if_neg fun zero => out ((slots u).symm.trans ((kept.out u same).mp zero))]

/-- A timer that is set again. -/
theorem Sound.again (sound : Sound l) (some_ : (l.timer t).slot ≠ 0) (due : UInt64) :
    Leaves l (loopTimerDue l t due) (Function.update (armed l) t (some due)) := by
  obtain ⟨bound, named⟩ := sound.out t some_
  have inside : (l.timer t).slot - 1 < l.timers := by omega
  refine (sound.toArranged.hole inside named).due (by omega) ?_ sound.room sound.fn
  rw [dueAt_eq_dues named]
  exact sound.ordered.rising _ _

/-- A timer that was not set. -/
theorem Sound.push (sound : Sound l) {heapCap : Nat} (none_ : (l.timer t).slot = 0)
    (fn : (l.timer t).fn = true) (room : l.timers + 1 ≤ heapCap) (due : UInt64) :
    Leaves l (loopTimerDue (loopHeapPut { l with heapCap, timers := l.timers + 1 } t l.timers) t due)
      (Function.update (armed l) t (some due)) := by
  obtain ⟨l', l'_eq⟩ : ∃ l', l' = loopHeapPut { l with heapCap, timers := l.timers + 1 } t l.timers :=
    ⟨_, rfl⟩
  have own : (l'.timer t).slot = l.timers + 1 := by rw [l'_eq, put_slot]
  have rest : ∀ u, u ≠ t → (l'.timer u).slot = (l.timer u).slot := fun u other => by
    rw [l'_eq, put_slot_of_ne _ _ _ other]
  have heap : l'.heap = Function.update l.heap l.timers t := by rw [l'_eq]; rfl
  have timers : l'.timers = l.timers + 1 := by rw [l'_eq]; rfl
  have dues_ : ∀ u, (l'.timer u).due = (l.timer u).due := fun u => by rw [l'_eq, put_due]
  have fns : ∀ u, (l'.timer u).fn = (l.timer u).fn := fun u => by rw [l'_eq, put_fn]
  have apart : ∀ j < l.timers, l.heap j ≠ t := by
    intro j less same
    have := sound.slots j less
    rw [same, none_] at this
    omega
  have hole : Hole l' t l.timers := by
    refine ⟨by omega, fun j less other => ?_, fun j less other => ?_, fun u other some_ => ?_⟩
    · rw [heap, Function.update_of_ne other, rest _ (apart j (by omega))]
      exact sound.slots j (by omega)
    · rw [heap, Function.update_of_ne other]
      exact apart j (by omega)
    · rw [rest u other] at some_ ⊢
      obtain ⟨bound, named⟩ := sound.out u some_
      rw [heap, Function.update_of_ne (by omega)]
      exact ⟨by omega, by omega, named⟩
  have rising : quad.Rising l'.timers (Function.update (dueAt l' t l.timers) l.timers due.toNat) l.timers := by
    rw [timers]
    apply Levels.Ordered.push
    apply sound.ordered.congr
    intro j less
    rw [Function.update_of_ne less.ne, dueAt_of_ne less.ne, heap, Function.update_of_ne less.ne, dues_, dues]
  have leaves := hole.due own rising (by rw [l'_eq]; exact room) (fun u some_ => by
    rw [fns]
    by_cases same : u = t
    · rw [same, fn]
    · exact sound.fn u (by rwa [← rest u same]))
  rw [← l'_eq]
  refine ⟨leaves.sound, ?_, leaves.now.trans (by rw [l'_eq]; rfl), leaves.exit.trans (by rw [l'_eq]; rfl)⟩
  rw [leaves.armed]
  funext u
  by_cases same : u = t
  · rw [same, Function.update_self, Function.update_self]
  · rw [Function.update_of_ne same, Function.update_of_ne same, armed, armed, rest u same, dues_]

/-- The deadlines after a call of `loop_timer_set`, which changes one or fails. -/
theorem Sound.set (sound : Sound l) (memory : Bool) (t : Nat) (due : UInt64) : Leaves l (loopTimerSet memory l t due).1
      (if (loopTimerSet memory l t due).2 = none then Function.update (armed l) t (some due) else armed l) := by
  have same : Leaves l l (armed l) := ⟨sound, rfl, rfl, rfl⟩
  rw [loopTimerSet]
  by_cases fn : (l.timer t).fn = true
  · rw [if_neg (by simp [fn])]
    by_cases stale : l.timers < (l.timer t).slot
    · rw [if_pos stale]
      exact same
    rw [if_neg stale]
    by_cases none_ : (l.timer t).slot = 0
    · rw [if_pos none_]
      cases grown : utilGrow memory 8 l.heapCap (if l.timers < heapMin then heapMin else l.timers + 1) with
      | none => exact same
      | some heapCap =>
        have room : l.timers + 1 ≤ heapCap := by
          have enough := (le_utilGrow grown).1
          split at enough <;> omega
        exact sound.push none_ fn room due
    · rw [if_neg none_]
      by_cases other : l.heap ((l.timer t).slot - 1) ≠ t
      · rw [if_pos other]
        exact same
      · rw [if_neg other]
        exact sound.again none_ due
  · rw [if_pos (by simpa using fn)]
    exact same

/-- A refused call changes nothing, of any timers. -/
theorem loopTimerSet_refused (memory : Bool) (l : TimerHeap) (t : Nat) (due : UInt64)
    (refused : (loopTimerSet memory l t due).2 ≠ none) : (loopTimerSet memory l t due).1 = l := by
  revert refused
  rw [loopTimerSet]
  split
  · exact fun _ => rfl
  · split
    · exact fun _ => rfl
    · split
      · split
        · exact fun _ => rfl
        · exact fun refused => absurd rfl refused
      · split
        · exact fun _ => rfl
        · exact fun refused => absurd rfl refused

theorem loopTimerStop_refused (l : TimerHeap) (t : Nat) (refused : (loopTimerStop l t).2 ≠ none) :
    (loopTimerStop l t).1 = l := by
  revert refused
  rw [loopTimerStop]
  split
  · exact fun _ => rfl
  · split
    · exact fun _ => rfl
    · dsimp only
      split
      · exact fun refused => absurd rfl refused
      · exact fun refused => absurd rfl refused

/-- The last entry takes the place of another. -/
theorem Sound.replace (sound : Sound l) (some_ : (l.timer t).slot ≠ 0) (inside : (l.timer t).slot - 1 < l.timers - 1) :
    let l' := loopHeapPut { l with
      timer := Function.update l.timer t { l.timer t with slot := 0 }
      timers := l.timers - 1 } (l.heap (l.timers - 1)) ((l.timer t).slot - 1)
    Leaves l (loopHeapFix l' (l.heap (l.timers - 1))) (Function.update (armed l) t none) := by
  intro l'
  obtain ⟨bound, named⟩ := sound.out t some_
  obtain ⟨i, i_eq⟩ : ∃ i, (l.timer t).slot = i + 1 := ⟨_, (Nat.succ_pred some_).symm⟩
  obtain ⟨last, last_eq⟩ : ∃ last, last = l.heap (l.timers - 1) := ⟨_, rfl⟩
  have last_slot := sound.slots (l.timers - 1) (by omega)
  rw [i_eq, Nat.add_sub_cancel] at named inside
  rw [← last_eq] at last_slot
  have distinct : last ≠ t := by
    rintro rfl
    omega
  have l'_eq : l' = loopHeapPut { l with
      timer := Function.update l.timer t { l.timer t with slot := 0 }
      timers := l.timers - 1 } last i := by
    rw [last_eq, ← Nat.add_sub_cancel (n := i) (m := 1), ← i_eq]
  have slot_t : (l'.timer t).slot = 0 := by
    rw [l'_eq, put_slot_of_ne _ _ _ distinct.symm]
    dsimp only
    rw [Function.update_self]
  have slot_last : (l'.timer last).slot = i + 1 := by rw [l'_eq, put_slot]
  have rest : ∀ u, u ≠ t → u ≠ last → (l'.timer u).slot = (l.timer u).slot := fun u other away => by
    rw [l'_eq, put_slot_of_ne _ _ _ away]
    dsimp only
    rw [Function.update_of_ne other]
  have dues_ : ∀ u, u ≠ t → (l'.timer u).due = (l.timer u).due := fun u other => by
    rw [l'_eq, put_due]
    dsimp only
    rw [Function.update_of_ne other]
  have fns : ∀ u, u ≠ t → (l'.timer u).fn = (l.timer u).fn := fun u other => by
    rw [l'_eq, put_fn]
    dsimp only
    rw [Function.update_of_ne other]
  have heap : l'.heap = Function.update l.heap i last := by rw [l'_eq]; rfl
  have timers : l'.timers = l.timers - 1 := rfl
  have apart : ∀ j < l.timers - 1, j ≠ i → l.heap j ≠ t ∧ l.heap j ≠ last := by
    intro j less away
    have slot := sound.slots j (by omega)
    refine ⟨fun same => ?_, fun same => ?_⟩
    · rw [same, i_eq] at slot
      omega
    · rw [same, last_slot] at slot
      omega
  have hole : Hole l' last i := by
    refine ⟨inside, fun j less away => ?_, fun j less away => ?_, fun u away placed => ?_⟩
    · obtain ⟨first, second⟩ := apart j less away
      rw [heap, Function.update_of_ne away, rest _ first second]
      exact sound.slots j (by omega)
    · rw [heap, Function.update_of_ne away]
      exact (apart j less away).2
    · have other : u ≠ t := by
        rintro rfl
        exact placed slot_t
      rw [rest u other away] at placed ⊢
      obtain ⟨within, here⟩ := sound.out u placed
      have not_last : (l.timer u).slot ≠ l.timers := by
        intro same
        rw [same, ← last_eq] at here
        exact away here.symm
      have not_here : (l.timer u).slot ≠ i + 1 := by
        intro same
        rw [same, Nat.add_sub_cancel, named] at here
        exact other here.symm
      rw [heap, Function.update_of_ne (by omega)]
      exact ⟨by omega, not_here, here⟩
  have rising : quad.Rising l'.timers (dueAt l' last i) i := by
    have before := (sound.ordered.mono (Nat.sub_le l.timers 1)).rising i (l'.timer last).due.toNat
    apply before.congr
    intro j less
    by_cases own : j = i
    · rw [own, Function.update_self, dueAt_self]
    · rw [Function.update_of_ne own, dueAt_of_ne own, heap, Function.update_of_ne own,
        dues_ _ (apart j less own).1, dues]
  obtain ⟨arranged, kept, placed⟩ := hole.fix slot_last rising
  rw [← last_eq]
  refine ⟨⟨arranged, ?_, fun u in_ => ?_⟩, ?_, kept.now, kept.exit⟩
  · rw [kept.timers, kept.heapCap]
    exact (Nat.sub_le ..).trans sound.room
  · rw [kept.fn]
    by_cases other : u = t
    · rw [other, ne_eq, kept.out t distinct.symm, slot_t] at in_
      exact absurd rfl in_
    · rw [fns u other]
      apply sound.fn
      by_cases own : u = last
      · rw [own, last_slot]
        exact Nat.succ_ne_zero _
      · rwa [ne_eq, kept.out u own, rest u other own] at in_
  · funext u
    by_cases other : u = t
    · rw [other, Function.update_self, armed, if_pos ((kept.out t distinct.symm).mpr slot_t)]
    · rw [Function.update_of_ne other, armed, armed, kept.due, dues_ u other]
      by_cases own : u = last
      · rw [own, if_neg placed, last_slot, if_neg (Nat.succ_ne_zero _)]
      · have slot := rest u other own
        by_cases out : (l.timer u).slot = 0
        · rw [if_pos out, if_pos ((kept.out u own).mpr (slot.trans out))]
        · rw [if_neg out, if_neg fun zero => out (slot.symm.trans ((kept.out u own).mp zero))]

/-- The last entry goes. -/
theorem Sound.pop (sound : Sound l) (some_ : (l.timer t).slot ≠ 0) (last : ¬ (l.timer t).slot - 1 < l.timers - 1) :
    Leaves l { l with
      timer := Function.update l.timer t { l.timer t with slot := 0 }
      timers := l.timers - 1 } (Function.update (armed l) t none) := by
  obtain ⟨bound, named⟩ := sound.out t some_
  obtain ⟨l', l'_eq⟩ : ∃ l' : TimerHeap, l' = { l with
      timer := Function.update l.timer t { l.timer t with slot := 0 }
      timers := l.timers - 1 } := ⟨_, rfl⟩
  have own : l'.timer t = { l.timer t with slot := 0 } := by rw [l'_eq]; exact Function.update_self ..
  have rest : ∀ u, u ≠ t → l'.timer u = l.timer u := fun u other => by
    rw [l'_eq]
    exact Function.update_of_ne other ..
  have heap : l'.heap = l.heap := by rw [l'_eq]
  have timers : l'.timers = l.timers - 1 := by rw [l'_eq]
  have apart : ∀ j < l.timers - 1, l.heap j ≠ t := by
    intro j less same
    have slot := sound.slots j (by omega)
    rw [same] at slot
    omega
  have other : ∀ u, (l'.timer u).slot ≠ 0 → u ≠ t := by
    rintro u placed rfl
    rw [own] at placed
    exact placed rfl
  rw [← l'_eq]
  refine ⟨⟨⟨fun j less => ?_, fun u placed => ?_, ?_⟩, ?_, fun u placed => ?_⟩, ?_, by rw [l'_eq], by rw [l'_eq]⟩
  · rw [timers] at less
    rw [heap, rest _ (apart j less)]
    exact sound.slots j (by omega)
  · have away := other u placed
    rw [rest u away] at placed ⊢
    obtain ⟨within, here⟩ := sound.out u placed
    have not_last : (l.timer u).slot ≠ (l.timer t).slot := by
      intro same
      rw [same, named] at here
      exact away here.symm
    rw [timers, heap]
    exact ⟨by omega, here⟩
  · rw [timers]
    apply (sound.ordered.mono (Nat.sub_le l.timers 1)).congr
    intro j less
    rw [dues, heap, rest _ (apart j less), dues]
  · rw [timers, l'_eq]
    exact (Nat.sub_le ..).trans sound.room
  · have away := other u placed
    rw [rest u away] at placed ⊢
    exact sound.fn u placed
  · funext u
    by_cases same : u = t
    · rw [same, Function.update_self, armed, own, if_pos rfl]
    · rw [Function.update_of_ne same, armed, armed, rest u same]

/-- The deadlines after a call of `loop_timer_stop`, which removes one or fails. -/
theorem Sound.stop (sound : Sound l) (t : Nat) : Leaves l (loopTimerStop l t).1
      (if (loopTimerStop l t).2 = none then Function.update (armed l) t none else armed l) := by
  rw [loopTimerStop]
  by_cases out : (l.timer t).slot = 0
  · rw [if_pos out]
    refine ⟨sound, ?_, rfl, rfl⟩
    have none_ : armed l t = none := if_pos out
    rw [if_pos rfl, ← none_, Function.update_eq_self]
  · rw [if_neg out]
    by_cases stale : l.timers < (l.timer t).slot ∨ l.heap ((l.timer t).slot - 1) ≠ t
    · rw [if_pos stale]
      exact ⟨sound, rfl, rfl, rfl⟩
    · rw [if_neg stale]
      dsimp only
      split
      · rename_i inside
        exact sound.replace out inside
      · rename_i last
        exact sound.pop out last

end Askai.Timers
