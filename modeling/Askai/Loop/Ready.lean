import Askai.Library.Circle

/-!
# Lists of hooks

The intrusive lists of `list.h`: what their functions write, and what that does to the lists.
-/

namespace Askai

open Library List

variable {α : Type*} [DecidableEq α]

namespace Links

/-- `a->next = b`. -/
def setNext (m : Links α) (a b : Option α) : Links α :=
  match a with
  | some a => { m with next := Function.update m.next a b }
  | none => m

/-- `a->prev = b`. -/
def setPrev (m : Links α) (a b : Option α) : Links α :=
  match a with
  | some a => { m with prev := Function.update m.prev a b }
  | none => m

end Links

open Links

/-- `list_init`. -/
def listInit (m : Links α) (dest : α) : Links α :=
  { next := Function.update m.next dest (some dest), prev := Function.update m.prev dest (some dest) }

/-- `list_is_empty`. -/
def listIsEmpty (m : Links α) (list : α) : Bool :=
  m.next list = some list

/-- `list_append`. -/
def listAppend (m : Links α) (dest node : α) : Links α :=
  let m := setPrev m (some node) (m.prev dest)
  let m := setNext m (some node) (some dest)
  let m := setNext m (m.prev dest) (some node)
  setPrev m (some dest) (some node)

/-- `list_del`. -/
def listDel (m : Links α) (node : α) : Links α :=
  let m := setNext m (m.prev node) (m.next node)
  let m := setPrev m (m.next node) (m.prev node)
  listInit m node

/-- `list_transplant`. -/
def listTransplant (m : Links α) (dest src : α) : Links α :=
  if listIsEmpty m src then m
  else
    let m := setPrev m (m.next src) (m.prev dest)
    let m := setNext m (m.prev dest) (m.next src)
    let m := setNext m (m.prev src) (some dest)
    let m := setPrev m (some dest) (m.prev src)
    listInit m src

variable {m : Links α} {h x s : α} {l l' : List α}

theorem listIsEmpty_iff (circle : m.Circle h l) : listIsEmpty m h = true ↔ l = [] := by
  rw [listIsEmpty, decide_eq_true_eq, circle.segment.first, Option.some.injEq]
  cases l with
  | nil => simp
  | cons y l =>
    have outside := (nodup_cons.mp circle.distinct).1
    constructor
    · intro same
      exact absurd (same ▸ mem_cons_self) outside
    · exact fun none_ => absurd none_ (cons_ne_nil y l)

theorem listAppend_eq (circle : m.Circle h l) (outside : x ∉ h :: l) :
    listAppend m h x = (m.join (l.getLastD h) x).join x h := by
  have last := circle.segment.last
  have other : l.getLastD h ≠ x := fun same => outside (same ▸ getLastD_mem h l)
  have apart : h ≠ x := fun same => outside (same ▸ mem_cons_self)
  simp only [listAppend, setPrev, setNext, last, Function.update_of_ne apart, Links.join]
  rw [Function.update_comm other]

theorem listDel_eq (circle : m.Circle h (l ++ x :: l')) :
    listDel m x = (m.join (l.getLastD h) (l'.headD h)).join x x := by
  obtain ⟨front, back⟩ := segment_append.mp circle.segment
  have whole : ((h :: l) ++ x :: l').Nodup := circle.distinct
  obtain ⟨-, distinct, across⟩ := nodup_append.mp whole
  have before : l.getLastD h ≠ x := across _ (getLastD_mem h l) x mem_cons_self
  simp only [listDel, setPrev, setNext, front.last, back.first, Function.update_of_ne before.symm, listInit, Links.join]

theorem listTransplant_eq (circle : m.Circle h l) (source : m.Circle s (x :: l'))
    (apart : ∀ y ∈ h :: l, y ∉ s :: x :: l') :
    listTransplant m h s = ((m.join (l.getLastD h) x).join (l'.getLastD x) h).join s s := by
  have filled : listIsEmpty m s ≠ true := fun empty =>
    cons_ne_nil x l' ((listIsEmpty_iff source).mp empty)
  have last := circle.segment.last
  have last' : m.prev s = some (l'.getLastD x) := source.segment.2.last
  have first : m.next s = some x := source.segment.first
  have distinct := source.distinct
  have h1 : h ≠ x := fun same => apart h mem_cons_self (same ▸ mem_cons_of_mem _ mem_cons_self)
  have h2 : s ≠ x := fun same => (nodup_cons.mp distinct).1 (same ▸ mem_cons_self)
  have h3 : s ≠ l.getLastD h := fun same => apart _ (getLastD_mem h l) (same ▸ mem_cons_self)
  have h4 : s ≠ h := fun same => apart h mem_cons_self (same ▸ mem_cons_self)
  rw [listTransplant, if_neg filled]
  simp only [setPrev, setNext, first, last, Function.update_of_ne h1, Function.update_of_ne h2, last', listInit,
    Links.join]

end Askai

/-!
# The ready lists of a loop

How entries are queued for a step, and how a turn runs the steps (`loop.c`): over lists of hooks, and over
plain lists.
-/

namespace Askai

open Library

/-- `INTERACTIVE_NS`. -/
abbrev interactiveNs : Nat := 500000

/-- `BULK_NS`. -/
abbrev bulkNs : Nat := 650000

/-- What the loop does with its lists: the three of `loop->ready`, fresh, ongoing and bulk, and behind them
the two of `batch`. -/
structure ReadyLists (σ S : Type*) where
  /-- The entry at the head of a list, unless `list_is_empty`. -/
  first : σ → Nat → Option S
  /-- `list_append`, unless the entry is on a list. -/
  enqueue : σ → Nat → S → σ
  /-- `loop_unready`. -/
  unready : σ → S → σ
  /-- `list_init`. -/
  init : σ → Nat → σ
  /-- `list_transplant`. -/
  transplant : σ → Nat → Nat → σ

/-! ## Two ways to have lists -/

section Lists

variable {S : Type*} [DecidableEq S]

/-- A node: the head of a list, or the hook of an entry. -/
inductive ReadyHook (S : Type*) where
  | list (i : Nat)
  | step (s : S)
  deriving DecidableEq

/-- Lists of hooks, of which one that is on no list is zeroed. -/
def hookLists : ReadyLists (Links (ReadyHook S)) S where
  first m i :=
    match m.next (.list i) with
    | some (.step s) => some s
    | _ => none
  enqueue m i s := if (m.next (.step s)).isNone then listAppend m (.list i) (.step s) else m
  unready m s := if (m.next (.step s)).isSome then (listDel m (.step s)).clear (.step s) else m
  init m i := listInit m (.list i)
  transplant m i j := listTransplant m (.list i) (.list j)

/-- What they say: entries in order, each at most once. -/
def plainLists : ReadyLists (Nat → List S) S where
  first lists i := (lists i).head?
  enqueue lists i s :=
    if ∃ j ∈ List.range 5, s ∈ lists j then lists else Function.update lists i (lists i ++ [s])
  unready lists s i := (lists i).erase s
  init lists i := Function.update lists i []
  transplant lists i j := Function.update (Function.update lists i (lists i ++ lists j)) j []

end Lists

/-! ## The loop -/

/-- The part of `struct loop` that the steps use. -/
structure ReadyLoop (σ : Type*) where
  lists : σ
  /-- `LOOP_EXIT`. -/
  exit : Bool := false
  /-- `LOOP_STEPPING`. -/
  stepping : Bool := false
  cursor : Nat := 0

/-- What a callback or a step does with the loop. -/
inductive ReadyCall (S : Type*) where
  | ready (s : S)
  | readyBulk (s : S)
  | unready (s : S)
  | exit
  deriving DecidableEq

/-- What a step does, and the clock after it. -/
structure StepDone (S : Type*) where
  calls : List (ReadyCall S)
  clock : Nat

/-- A step that was run, from the list at an index of `loop->ready`. -/
structure StepRun (S : Type*) where
  list : Nat
  step : S
  calls : List (ReadyCall S)
  /-- The first entry of the other batch, and of the other list, as the step begins. -/
  batch : Option S
  other : Option S
  deriving DecidableEq

namespace ReadyLoop

variable {σ S : Type*} (R : ReadyLists σ S)

/-- `loop_ready`. -/
def loopReady (loop : ReadyLoop σ) (s : S) : ReadyLoop σ :=
  { loop with lists := R.enqueue loop.lists (if loop.stepping then 1 else 0) s }

/-- `loop_ready_bulk`. -/
def loopReadyBulk (loop : ReadyLoop σ) (s : S) : ReadyLoop σ :=
  { loop with lists := R.enqueue loop.lists 2 s }

/-- `loop_unready`. -/
def loopUnready (loop : ReadyLoop σ) (s : S) : ReadyLoop σ :=
  { loop with lists := R.unready loop.lists s }

def call (loop : ReadyLoop σ) : ReadyCall S → ReadyLoop σ
  | .ready s => loop.loopReady R s
  | .readyBulk s => loop.loopReadyBulk R s
  | .unready s => loop.loopUnready R s
  | .exit => { loop with exit := true }

def calls (loop : ReadyLoop σ) (calls : List (ReadyCall S)) : ReadyLoop σ :=
  calls.foldl (call R) loop

/-- The step of an entry at the head of a batch, as it begins: the `k`-th of the call. -/
def begun (did : Nat → StepDone S) (base n : Nat) (loop : ReadyLoop σ) (i k : Nat) (s : S) : StepRun S :=
  let next := (i + 1) % n
  { list := base + i
    step := s
    calls := (did k).calls
    batch := R.first loop.lists (3 + next)
    other := R.first loop.lists (base + next) }

/-- The loop of `loop_run`, where the `k`-th step does `did k`: none once the fuel is gone. The lists are
those from `base` on, `n` of them. -/
def runSteps (did : Nat → StepDone S) (base n til : Nat) :
    Nat → ReadyLoop σ → Nat → Nat → Nat → List (StepRun S) → Option (ReadyLoop σ × Nat × List (StepRun S))
  | 0, _, _, _, _, _ => none
  | fuel + 1, loop, i, empty, t, ran =>
    if empty < n ∧ loop.exit = false ∧ (ran = [] ∨ t < til) then
      let next := (i + 1) % n
      match R.first loop.lists (3 + i) with
      | none => runSteps did base n til fuel loop next (empty + 1) t ran
      | some s =>
        let done := did ran.length
        runSteps did base n til fuel ((loop.loopUnready R s).calls R done.calls) next 0 done.clock
          (ran ++ [begun R did base n loop i ran.length s])
    else some (loop, i, ran)

/-- The lists at the start of `loop_run`. -/
def takeLists (lists : σ) (base n : Nat) : σ :=
  (List.range n).foldl (fun lists i => R.transplant (R.init lists (3 + i)) (3 + i) (base + i)) lists

/-- The lists at the end of `loop_run`. -/
def putLists (lists : σ) (base n : Nat) : σ :=
  (List.range n).foldl
    (fun lists i => R.transplant (R.transplant lists (3 + i) (base + i)) (base + i) (3 + i)) lists

/-- `loop_run`, with the cursor after it and the steps that it ran. -/
def loopRun (did : Nat → StepDone S) (base n til clock fuel cursor : Nat) (loop : ReadyLoop σ) :
    Option (ReadyLoop σ × Nat × List (StepRun S)) :=
  (runSteps R did base n til fuel { loop with lists := takeLists R loop.lists base n } cursor 0 clock []).map
    fun (loop, i, ran) => ({ loop with lists := putLists R loop.lists base n }, i, ran)

end ReadyLoop

/-- What happens in a turn: the calls of the callbacks before the steps, the clock, and the steps. -/
structure ReadyTurn (S : Type*) where
  calls : List (ReadyCall S)
  start : Nat
  clock : Nat
  did : Nat → StepDone S
  bulkClock : Nat
  bulkDid : Nat → StepDone S

namespace ReadyLoop

variable {σ S : Type*} (R : ReadyLists σ S)

/-- `loop_turn`, as far as the steps go: the interactive steps and the bulk steps that it ran. -/
def loopTurn (fuel : Nat) (turn : ReadyTurn S) (loop : ReadyLoop σ) :
    Option (ReadyLoop σ × List (StepRun S) × List (StepRun S)) :=
  let loop := { loop.calls R turn.calls with stepping := true }
  (loopRun R turn.did 0 2 (turn.start + interactiveNs) turn.clock fuel loop.cursor loop).bind
    fun (loop, cursor, ran) =>
      (loopRun R turn.bulkDid 2 1 (turn.start + bulkNs) turn.bulkClock fuel 0 { loop with cursor }).map
        fun (loop, _, bulk) => ({ loop with stepping := false }, ran, bulk)

/-- Turns one after the other, with the interactive steps and the bulk steps of each. -/
def turns (fuel : Nat) :
    List (ReadyTurn S) → ReadyLoop σ → Option (ReadyLoop σ × List (List (StepRun S) × List (StepRun S)))
  | [], loop => some (loop, [])
  | turn :: rest, loop =>
    (loopTurn R fuel turn loop).bind fun (loop, ran, bulk) =>
      (turns fuel rest loop).map fun (loop, later) => (loop, (ran, bulk) :: later)

end ReadyLoop

end Askai
