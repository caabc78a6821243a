import Askai.Library.Chain
import Askai.Library.Sums
import Askai.Util.Buf

/-!
# The stash of buffer storage

What a thread keeps of the storage that its buffers gave up (`buf_stash_*` of `buf.c`), with the memory
that its lists are threaded through.
-/

namespace Askai

open Library

/-! ## Counts of what is kept -/

/-- `struct buf_kept`. -/
structure BufKept where
  n : Nat := 0
  /-- The fewest kept in this window. -/
  low : Nat := 0
  /-- The fewest kept in the window before. -/
  idle : Nat := 0
  deriving DecidableEq, Repr

/-- `buf_kept_take`. -/
def bufKeptTake (kept : BufKept) : BufKept :=
  { kept with n := kept.n - 1, low := if kept.n - 1 < kept.low then kept.n - 1 else kept.low }

/-- `buf_kept_drop`. -/
def bufKeptDrop (kept : BufKept) : BufKept where
  n := kept.n - 1
  low := kept.low - if 0 < kept.low then 1 else 0
  idle := kept.idle - if 0 < kept.idle then 1 else 0

/-- `buf_kept_unused`. -/
def bufKeptUnused (kept : BufKept) (level : BufPressure) : Nat :=
  if level = .critical then kept.n else if kept.low < kept.idle then kept.low else kept.idle

/-- `buf_kept_age`. -/
def bufKeptAge (kept : BufKept) : BufKept :=
  { kept with idle := kept.low, low := kept.n }

/-! ## The stash -/

/-- `BUF_CLASSES`. -/
abbrev bufClasses : Nat := 14

/-- The size of a class's blocks. -/
def bufClassSize (c : Nat) : Nat :=
  2 ^ (12 + c)

/-- `buf_units`. -/
def bufUnits (bytes : Nat) : Nat :=
  if bytes >>> 17 ≠ 0 then bytes >>> 17 else 1

/-- The address of a block. -/
abbrev Block := Nat

/-- `struct buf_stash`. -/
structure BufStash where
  retained : Nat := 0
  top : Nat → Option Block := fun _ => none
  kept : Nat → BufKept := fun _ => {}
  held : Nat := 0
  peak : Nat := 0

/-- A stash, the first word of each block of the memory, and which blocks are allocated. -/
structure StashMemory where
  stash : BufStash := {}
  word : Block → Option Block
  live : Block → Bool

/-- `free`. -/
def StashMemory.free (m : StashMemory) (data : Block) : StashMemory :=
  { m with live := Function.update m.live data false }

/-- `malloc`: any block that is not allocated, or none. -/
structure Malloc where
  get : StashMemory → Nat → Option Block
  fresh : ∀ m size data, get m size = some data → m.live data = false

/-- What `malloc` leaves. -/
def StashMemory.malloc (m : StashMemory) (data : Option Block) : StashMemory :=
  match data with
  | none => m
  | some data => { m with live := Function.update m.live data true }

/-- `buf_stash_drop`, which reads the block at the top: there is no result without one. -/
def bufStashDrop (m : StashMemory) (c : Nat) : Option StashMemory :=
  match m.stash.top c with
  | none => none
  | some data =>
    if m.live data then
      some { m.free data with
        stash := { m.stash with
          top := Function.update m.stash.top c (m.word data)
          kept := Function.update m.stash.kept c (bufKeptDrop (m.stash.kept c))
          retained := m.stash.retained - bufClassSize c } }
    else none

/-- The inner loop of a miss of `buf_stash_take`, which ends when the class has no blocks left. -/
def bufStashShrink (room d : Nat) : Nat → StashMemory → Option StashMemory
  | 0, m => some m
  | n + 1, m =>
    if (m.stash.kept d).n ≠ 0 ∧ room < m.stash.retained then
      (bufStashDrop m d).bind (bufStashShrink room d n)
    else some m

/-- The outer loop, from the largest class on. -/
def bufStashMakeRoom (room : Nat) : Nat → StashMemory → Option StashMemory
  | 0, m => some m
  | d + 1, m =>
    (bufStashShrink room d (m.stash.kept d).n m).bind (bufStashMakeRoom room d)

/-- The last lines of `buf_stash_take`. -/
def StashMemory.hold (m : StashMemory) (cap : Nat) : StashMemory :=
  let held := m.stash.held + cap
  { m with stash := { m.stash with held, peak := if m.stash.peak < held then held else m.stash.peak } }

/-- `buf_stash_take`, with the block it returns and its size. -/
def bufStashTake (malloc : Malloc) (m : StashMemory) (size : Nat) : Option (StashMemory × Option Block × Nat) :=
  let c := bufClass size
  let cap := bufBlock size
  if bufClasses ≤ c then
    let data := malloc.get m cap
    some (m.malloc data, data, cap)
  else if (m.stash.kept c).n ≠ 0 then
    match m.stash.top c with
    | none => none
    | some data =>
      if m.live data then
        let m := { m with
          stash := { m.stash with
            top := Function.update m.stash.top c (m.word data)
            kept := Function.update m.stash.kept c (bufKeptTake (m.stash.kept c))
            retained := m.stash.retained - cap } }
        some (m.hold cap, some data, cap)
      else none
  else
    let held := m.stash.held + cap
    let room := 2 * (if m.stash.peak < held then held else m.stash.peak) - held
    (bufStashMakeRoom room bufClasses m).map fun m =>
      match malloc.get m cap with
      | none => (m, none, cap)
      | some data => ((m.malloc data).hold cap, some data, cap)

/-- `buf_stash_give`. -/
def bufStashGive (pressure : BufPressure) (m : StashMemory) (data : Option Block) (cap : Nat) : StashMemory :=
  let c := bufClass cap
  match data with
  | none => m
  | some data =>
    if bufClasses ≤ c then m.free data
    else
      let m := { m with
        stash := { m.stash with
          held := m.stash.held - if m.stash.held < cap then m.stash.held else cap } }
      if pressure = .critical then m.free data
      else
        { m with
          word := Function.update m.word data (m.stash.top c)
          stash := { m.stash with
            top := Function.update m.stash.top c (some data)
            kept := Function.update m.stash.kept c
              { m.stash.kept c with n := (m.stash.kept c).n + 1 }
            retained := m.stash.retained + cap } }

/-- `buf_stash_age`. -/
def bufStashAge (m : StashMemory) : StashMemory :=
  { m with
    stash := { m.stash with kept := fun c =>
      if c < bufClasses then bufKeptAge (m.stash.kept c) else m.stash.kept c } }

/-- The inner loop of `buf_stash_release`, with the units released and the blocks it leaves. -/
def bufStashReleaseClass (max c : Nat) : Nat → Nat → StashMemory → Option (StashMemory × Nat × Nat)
  | 0, done, m => some (m, done, 0)
  | n + 1, done, m =>
    let units := bufUnits (bufClassSize c)
    if done = 0 ∨ done + units ≤ max then
      (bufStashDrop m c).bind (bufStashReleaseClass max c n (done + units))
    else some (m, done, n + 1)

/-- The outer loop, from the largest class on, and what follows it. -/
def bufStashReleaseClasses (level : BufPressure) (max : Nat) : Nat → Nat → StashMemory → Option (StashMemory × Nat)
  | 0, done, m =>
    some (if level = .critical then { m with stash := { m.stash with peak := m.stash.held } } else m, done)
  | c + 1, done, m =>
    (bufStashReleaseClass max c (bufKeptUnused (m.stash.kept c) level) done m).bind
      fun (m, done, n) => if n ≠ 0 then some (m, done) else bufStashReleaseClasses level max c done m

/-- `buf_stash_release`. -/
def bufStashRelease (level : BufPressure) (max : Nat) (m : StashMemory) : Option (StashMemory × Nat) :=
  bufStashReleaseClasses level max bufClasses 0 m

end Askai
