import Askai.Library.Chain
import Askai.Library.Sums
import Askai.Library.Trace

/-!
# Relief of memory pressure

The brainstem samples the memory pressure and orders its loops to relieve it (`brainstem.c`); each
loop frees its share in steps and leaves a block, and the last to end its share trims the allocator
(`askai.c`), in the atomic steps of each, in any order.
-/

namespace Askai.Relief

open Library

/-! ## The levels -/

/-- The inputs to the level, as `BRAINSTEM_INPUTS` lists them. -/
inductive Input where
  | resident
  | system
  | cgroup
  | psi
  | test
  deriving DecidableEq, Repr

/-- `marks[i].up`. -/
def Input.up : Input → Nat → Nat
  | .resident, l => if l = 0 then 10000 else 20000
  | .system, l => if l = 0 then 9000 else 9500
  | .cgroup, l => if l = 0 then 9000 else 9500
  | .psi, l => if l = 0 then 1000 else 4000
  | .test, l => if l = 0 then 1 else 2

/-- `marks[i].down`. -/
def Input.down : Input → Nat → Nat
  | .resident, l => if l = 0 then 7500 else 15000
  | .system, l => if l = 0 then 8500 else 9000
  | .cgroup, l => if l = 0 then 8500 else 9000
  | .psi, l => if l = 0 then 500 else 2000
  | .test, l => if l = 0 then 1 else 2

/-- `BUF_CRITICAL`. -/
def bufCritical : Nat := 2

/-- The first loop of `brainstem_inputs`. -/
def rise (i : Input) (full l : Nat) : Nat :=
  if l < bufCritical ∧ i.up l ≤ full then rise i full (l + 1) else l
termination_by bufCritical - l

/-- Its second loop. -/
def fall (i : Input) (full : Nat) : Nat → Nat
  | 0 => 0
  | l + 1 => if full < i.down l then fall i full l else l + 1

/-- `brainstem_inputs`, of one input. -/
def brainstemInput (i : Input) (full l : Nat) : Nat :=
  fall i full (rise i full l)

/-- The level that `brainstem_inputs` returns. -/
def brainstemInputs (levels : Input → Nat) : Nat :=
  max (levels .resident) (max (levels .system) (max (levels .cgroup) (max (levels .psi) (levels .test))))

/-! ## The threads -/

/-- The address of a block. -/
abbrev Block := Nat

/-- Where a loop's relief is. -/
inductive Phase where
  | kept
  | stash
  | atEnd
  | relieved
  deriving DecidableEq, Repr

/-- `++phase`. -/
def Phase.succ : Phase → Phase
  | .kept => .stash
  | .stash => .atEnd
  | _ => .relieved

/-- Where a loop's thread is in the handler that it runs. -/
inductive Handler where
  | away
  /-- `brainstem_thread_obey`, about to exchange its orders. -/
  | obeys
  /-- `askai_top_push`, about to load `tops`. -/
  | pushes (block : Block)
  /-- About to have the block lead on to `head`. -/
  | links (block : Block) (head : Option Block)
  /-- About to compare `tops` with `head`, and to swap the block in. -/
  | swaps (block : Block) (head : Option Block)
  /-- `brainstem_relieved`, about to add to `relieved`. -/
  | adds
  /-- About to subtract from `relieving`. -/
  | subtracts
  /-- `askai_keep_relieved` of the last loop, about to exchange `tops`. -/
  | takes
  /-- `askai_keep_walk`, about to submit the walk. -/
  | submits
  /-- `brainstem_trimmed`, about to exchange `relieved`. -/
  | exchanges
  /-- About to store 0 to `relieving`. -/
  | clears
  deriving DecidableEq, Repr

/-- `struct brainstem_thread` of a running loop, and its keep. -/
structure Thread where
  /-- `RELIEVE` in `t->orders`, and any other bit. -/
  relieve : Bool := false
  other : Bool := false
  /-- How often `t->order` is posted and its handler has not begun. -/
  posts : Nat := 0
  handler : Handler := .away
  phase : Phase := .relieved
  /-- The steps `keep->relief` and `keep->trim` are ready. -/
  relief : Bool := false
  trim : Bool := false
  /-- `keep->tops`, and the blocks that it leads to. -/
  tops : Option Block := none
  taken : List Block := []
  /-- The shares begun and ended. -/
  starts : Nat := 0
  ends : Nat := 0

/-- Where the brainstem is. -/
inductive Brain where
  | rests
  /-- `brainstem_relieve`, about to load `relieving`. -/
  | checks
  /-- About to store `n + 1` to it. -/
  | stores
  /-- `brainstem_order_all`, about to order a loop. -/
  | orders (i : Nat)
  /-- About to post a loop its order. -/
  | posts (i : Nat)
  /-- About to post a loop another order. -/
  | postsOther (i : Nat)
  deriving DecidableEq, Repr

/-- Where the walk of the arenas is (`walker.job`), and for which loop. -/
inductive Walk where
  | idle
  | queued (i : Nat)
  | runs (i : Nat)
  /-- Its message is posted to the loop. -/
  | posted (i : Nat)
  deriving DecidableEq, Repr

/-- The brainstem, its running loops and what they share. -/
structure State where
  brain : Brain := .rests
  /-- `bs->levels`. -/
  levels : Input → Nat := fun _ => 0
  /-- `buf_pressure`. -/
  pressure : Nat := 0
  threads : Nat → Thread := fun _ => {}
  relieving : Nat := 0
  relieved : Nat := 0
  /-- `tops`, and the blocks that it leads to. -/
  tops : Option Block := none
  stack : List Block := []
  /-- What the first bytes of a block hold. -/
  next : Block → Option Block := fun _ => none
  /-- The block is allocated. -/
  alloc : Block → Bool := fun _ => false
  walk : Walk := .idle
  /-- The reliefs begun, the trims begun, and the calls of `brainstem_trimmed` done. -/
  reliefs : Nat := 0
  trims : Nat := 0
  trimmed : Nat := 0
  /-- How often a block was pushed, and freed. -/
  pushed : Block → Nat := fun _ => 0
  freed : Block → Nat := fun _ => 0

/-- A loop's thread becomes another. -/
def State.setThread (s : State) (i : Nat) (thread : Thread) : State :=
  { s with threads := Function.update s.threads i thread }

/-- The thread goes on. -/
def State.goOn (s : State) (i : Nat) (handler : Handler) : State :=
  s.setThread i { s.threads i with handler }

/-- `malloc` returns a block. -/
def State.malloc (s : State) (b : Block) : State :=
  { s with alloc := Function.update s.alloc b true }

/-- `free`, or `askai_top_trim`. -/
def State.free (s : State) (b : Block) : State :=
  { s with
    alloc := Function.update s.alloc b false
    freed := Function.update s.freed b (s.freed b + 1) }

/-- The exchange of `brainstem_thread_obey`, and `askai_keep_relieve` if it was ordered. -/
def Thread.obey (t : Thread) : Thread :=
  if t.relieve = true then
    { t with
      relieve := false, other := false, handler := .away
      phase := .kept, relief := true, starts := t.starts + 1 }
  else { t with other := false, handler := .away }

/-- A step of `askai_keep_relief` that released something, or nothing. -/
def Thread.release (t : Thread) (some_ : Bool) : Thread :=
  { t with phase := if some_ then t.phase else t.phase.succ }

/-- The last step of `askai_keep_relief`. -/
def Thread.finish (t : Thread) (handler : Handler) : Thread :=
  { t with phase := .relieved, relief := false, handler }

/-- The subtraction of `brainstem_relieved`, which returns whether it was the last. -/
def Thread.subtract (t : Thread) (last : Bool) : Thread :=
  { t with ends := t.ends + 1, handler := if last then .takes else .away }

/-- `askai_keep_relieved` of the last loop takes the blocks, and readies the trim. -/
def Thread.take (t : Thread) (tops : Option Block) (taken : List Block) : Thread :=
  { t with tops, taken, trim := true, handler := .away }

/-- What a step is of: a sample of the inputs' fullness, or of anything else. -/
inductive Event where
  | sample (full : Input → Nat)
  | other

/-- The atomic steps of the brainstem, of `n` running loops and of the blocker. -/
inductive Step (n : Nat) (s : State) : Event → State → Prop
  /-- `brainstem_pressure`; the loops are to relieve it if the level says so, and it is due. -/
  | sample (full : Input → Nat) (due : Bool) (rests : s.brain = .rests) :
      Step n s (.sample full)
        { s with
          levels := fun i => brainstemInput i (full i) (s.levels i)
          pressure := brainstemInputs fun i => brainstemInput i (full i) (s.levels i)
          brain :=
            if (brainstemInputs fun i => brainstemInput i (full i) (s.levels i)) ≠ 0 ∧ due = true
            then .checks else .rests }
  | check (at_ : s.brain = .checks) :
      Step n s .other { s with brain := if n = 0 ∨ s.relieving ≠ 0 then .rests else .stores }
  | store (at_ : s.brain = .stores) :
      Step n s .other { s with brain := .orders 0, relieving := n + 1, reliefs := s.reliefs + 1 }
  | order {i : Nat} (at_ : s.brain = .orders i) (inside : i < n) :
      Step n s .other
        { s.setThread i { s.threads i with relieve := true } with
          brain :=
            if (s.threads i).relieve = true ∨ (s.threads i).other = true then .orders (i + 1)
            else .posts i }
  | post {i : Nat} (at_ : s.brain = .posts i) :
      Step n s .other
        { s.setThread i { s.threads i with posts := (s.threads i).posts + 1 } with
          brain := .orders (i + 1) }
  | ordered (at_ : s.brain = .orders n) : Step n s .other { s with brain := .rests }
  /-- Another order, of the statistics or of a reload. -/
  | orderOther {i : Nat} (rests : s.brain = .rests) (inside : i < n) :
      Step n s .other
        { s.setThread i { s.threads i with other := true } with
          brain :=
            if (s.threads i).relieve = true ∨ (s.threads i).other = true then .rests
            else .postsOther i }
  | postOther {i : Nat} (at_ : s.brain = .postsOther i) :
      Step n s .other
        { s.setThread i { s.threads i with posts := (s.threads i).posts + 1 } with brain := .rests }
  | deliver {i : Nat} (inside : i < n) (away : (s.threads i).handler = .away)
      (posted : 0 < (s.threads i).posts) :
      Step n s .other (s.setThread i { s.threads i with posts := (s.threads i).posts - 1, handler := .obeys })
  | obey {i : Nat} (inside : i < n) (at_ : (s.threads i).handler = .obeys) :
      Step n s .other (s.setThread i (s.threads i).obey)
  /-- `askai_keep_relief`: a part of the share, while the pressure lasts. -/
  | release {i : Nat} (some_ : Bool) (inside : i < n) (away : (s.threads i).handler = .away)
      (ready : (s.threads i).relief = true) (pressure : s.pressure ≠ 0)
      (phase : (s.threads i).phase = .kept ∨ (s.threads i).phase = .stash) :
      Step n s .other (s.setThread i ((s.threads i).release some_))
  /-- `askai_keep_relief`: the share's end, or the pressure cleared; with a block for the trim. -/
  | finish {i : Nat} {b : Block} (inside : i < n) (away : (s.threads i).handler = .away)
      (ready : (s.threads i).relief = true)
      (phase : (s.threads i).phase = .atEnd ∨ s.pressure = 0 ∧ (s.threads i).phase ≠ .relieved)
      (fresh : s.alloc b = false) :
      Step n s .other ((s.setThread i ((s.threads i).finish (.pushes b))).malloc b)
  /-- Out of memory, it leaves no block. -/
  | finishBare {i : Nat} (inside : i < n) (away : (s.threads i).handler = .away)
      (ready : (s.threads i).relief = true)
      (phase : (s.threads i).phase = .atEnd ∨ s.pressure = 0 ∧ (s.threads i).phase ≠ .relieved) :
      Step n s .other (s.setThread i ((s.threads i).finish .adds))
  | reliefIdle {i : Nat} (inside : i < n) (away : (s.threads i).handler = .away)
      (ready : (s.threads i).relief = true) (phase : (s.threads i).phase = .relieved) :
      Step n s .other (s.setThread i { s.threads i with relief := false })
  | load {i : Nat} {b : Block} (inside : i < n) (at_ : (s.threads i).handler = .pushes b) :
      Step n s .other (s.goOn i (.links b s.tops))
  | link {i : Nat} {b : Block} {head : Option Block} (inside : i < n)
      (at_ : (s.threads i).handler = .links b head) :
      Step n s .other { s.goOn i (.swaps b head) with next := Function.update s.next b head }
  | swap {i : Nat} {b : Block} {head : Option Block} (inside : i < n)
      (at_ : (s.threads i).handler = .swaps b head) (same : s.tops = head) :
      Step n s .other
        { s.goOn i .adds with
          tops := some b
          stack := b :: s.stack
          pushed := Function.update s.pushed b (s.pushed b + 1) }
  /-- The compare-and-swap may also fail for no reason. -/
  | miss {i : Nat} {b : Block} {head : Option Block} (inside : i < n)
      (at_ : (s.threads i).handler = .swaps b head) : Step n s .other (s.goOn i (.links b s.tops))
  | add {i : Nat} (bytes : Nat) (inside : i < n) (at_ : (s.threads i).handler = .adds) :
      Step n s .other { s.goOn i .subtracts with relieved := (s.relieved + bytes) % 2 ^ 64 }
  | subtract {i : Nat} (inside : i < n) (at_ : (s.threads i).handler = .subtracts) :
      Step n s .other
        { s.setThread i ((s.threads i).subtract (s.relieving = 2)) with
          relieving := s.relieving - 1
          trims := if s.relieving = 2 then s.trims + 1 else s.trims }
  | take {i : Nat} (inside : i < n) (at_ : (s.threads i).handler = .takes) :
      Step n s .other
        { s.setThread i ((s.threads i).take s.tops s.stack) with tops := none, stack := [] }
  /-- `askai_keep_trim` frees a block. -/
  | pop {i : Nat} {b : Block} (inside : i < n) (away : (s.threads i).handler = .away)
      (ready : (s.threads i).trim = true) (block : (s.threads i).tops = some b) :
      Step n s .other
        ((s.setThread i { s.threads i with tops := s.next b, taken := (s.threads i).taken.tail }).free b)
  /-- `askai_keep_trim`, its blocks freed: it walks the arenas, unless the pressure cleared. -/
  | trim {i : Nat} (inside : i < n) (away : (s.threads i).handler = .away)
      (ready : (s.threads i).trim = true) (none_ : (s.threads i).tops = none) :
      Step n s .other (s.setThread i
        { s.threads i with
          trim := false
          handler := if s.pressure = 0 then .exchanges else .submits })
  | submit {i : Nat} (inside : i < n) (at_ : (s.threads i).handler = .submits) :
      Step n s .other { s.goOn i .away with walk := .queued i }
  /-- No blocker takes the walk: the loop walks. -/
  | walkHere {i : Nat} (inside : i < n) (at_ : (s.threads i).handler = .submits) :
      Step n s .other (s.goOn i .exchanges)
  | walkBegin {i : Nat} (at_ : s.walk = .queued i) : Step n s .other { s with walk := .runs i }
  | walkEnd {i : Nat} (at_ : s.walk = .runs i) : Step n s .other { s with walk := .posted i }
  /-- The blockers stop: the walk comes back undone. -/
  | walkCancel {i : Nat} (at_ : s.walk = .queued i) : Step n s .other { s with walk := .posted i }
  | walkDone {i : Nat} (inside : i < n) (away : (s.threads i).handler = .away)
      (at_ : s.walk = .posted i) : Step n s .other { s.goOn i .exchanges with walk := .idle }
  | exchange {i : Nat} (inside : i < n) (at_ : (s.threads i).handler = .exchanges) :
      Step n s .other { s.goOn i .clears with relieved := 0 }
  | clear {i : Nat} (inside : i < n) (at_ : (s.threads i).handler = .clears) :
      Step n s .other { s.goOn i .away with relieving := 0, trimmed := s.trimmed + 1 }

end Askai.Relief
