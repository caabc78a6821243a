import Askai.Library.Ring
import Askai.Library.Sums
import Askai.Library.Trace
import Askai.Util.Text

/-!
# The rings of the log

`log_emit`, by any number of threads, each with a ring of its own, `log_stop`, and the logger's
thread (`log.c`), in the atomic steps of each: sequentially consistent, in any order.
-/

namespace Askai.Log

open Library

/-- `RING`. -/
@[irreducible] def logRing : Nat := 256 <<< 10

/-- A `size_t` wraps here, and so does a `uint64_t`. -/
@[irreducible] def sizeMax : Nat := 2 ^ 64

/-- Where a thread is in `log_emit`. -/
inductive Emitter where
  | away
  /-- It is about to load its ring's head. -/
  | begins (line : Bytes)
  /-- It is about to load the tail, to see whether the line fits. -/
  | measures (line : Bytes) (head : Nat)
  /-- The line does not fit; the thread is about to count it. -/
  | drops (line : Bytes)
  /-- It copies the line, of which `k` bytes are in the ring; then it stores the head. -/
  | copies (line : Bytes) (head k : Nat)
  /-- The head is stored; the thread is about to load `asleep`. -/
  | peeks
  /-- It found `asleep` set, and is about to exchange it. -/
  | swaps
  /-- It is about to write the eventfd. -/
  | signals
  deriving DecidableEq, Repr

/-- The line that a thread has in hand, not yet in the ring and not yet counted. -/
def Emitter.line : Emitter → List Bytes
  | .begins line | .measures line _ | .drops line | .copies line _ _ => [line]
  | _ => []

/-- How many lines the thread has put into its ring without having returned since. -/
def Emitter.fresh : Emitter → Nat
  | .peeks | .swaps | .signals => 1
  | _ => 0

/-- `struct log_ring`, and the thread that uses it. -/
structure Ring where
  head : Nat := 0
  data : Nat → UInt8
  tail : Nat := 0
  seen : Nat := 0
  emitter : Emitter := .away
  /-- The lines put in that the logger is done with, that are in its batch, and that it has not seen. -/
  written : List Bytes := []
  batch : List Bytes := []
  rest : List Bytes := []
  /-- What the thread gave to `log_emit`. -/
  given : List Bytes := []
  /-- What became of it: put into the ring, or dropped. -/
  fates : List (Bytes × Bool) := []

/-- The lines that the logger has not written. -/
def Ring.held (r : Ring) : List Bytes :=
  r.batch ++ r.rest

/-- All the lines put into the ring. -/
def Ring.puts (r : Ring) : List Bytes :=
  r.written ++ r.held

/-- How many of the lines put in have their `log_emit` returned. -/
def Ring.returned (r : Ring) : Nat :=
  r.puts.length - r.emitter.fresh

/-- The lines dropped. -/
def Ring.drops (r : Ring) : Nat :=
  r.fates.countP fun fate => !fate.2

/-- A `struct iovec`: what is left of the note, or bytes of a ring's data. -/
inductive Piece where
  | note (text : Bytes)
  | ring (i base len : Nat)
  deriving DecidableEq, Repr

/-- `iov_len`. -/
def Piece.len : Piece → Nat
  | .note text => text.length
  | .ring _ _ len => len

/-- The piece without its first `left` bytes. -/
def Piece.drop (left : Nat) : Piece → Piece
  | .note text => .note (text.drop left)
  | .ring i base len => .ring i (base + left) (len - left)

/-- The loop of `log_write_all` over what a write of `left` bytes has done with. -/
def logAdvance : List Piece → Nat → List Piece
  | [], _ => []
  | piece :: iov, left =>
    if piece.len ≤ left then logAdvance iov (left - piece.len) else piece.drop left :: iov

/-- The iovecs of ring `i`, from `tail` to `head`. -/
def logPieces (i tail head : Nat) : List Piece :=
  let len := apart sizeMax head tail
  let base := tail % logRing
  let first := min len (logRing - base)
  (if first = 0 then [] else [.ring i base first]) ++
    if first < len then [.ring i 0 (len - first)] else []

/-- The note of the lines dropped. -/
def logNote (dropped : Nat) : Bytes :=
  ascii "log: " ++ utilDecimal dropped ++ ascii " lines dropped so far\n"

/-- Where the logger's thread is. -/
inductive Stage where
  /-- It is about to load the count of dropped lines. -/
  | begins
  /-- It is about to load the head of ring `i`, with the iovecs that it has so far. -/
  | scans (i : Nat) (iov : List Piece)
  /-- In `log_write_all`. -/
  | writes (iov : List Piece)
  /-- It is about to store the tail of ring `i`. -/
  | stores (i : Nat)
  /-- There was nothing to write; it is about to load the state. -/
  | checks
  /-- It is about to set `asleep`. -/
  | sleeps
  /-- In `log_pending`, about to load the state. -/
  | pendingState
  /-- In `log_pending`, about to load the head of ring `i`. -/
  | pendingRing (i : Nat)
  /-- In `poll`. -/
  | polls
  /-- It is about to read the eventfd. -/
  | drains
  /-- It is about to clear `asleep`. -/
  | wakes
  /-- It is about to set the state to `DONE`. -/
  | ends
  | finished
  deriving DecidableEq, Repr

/-- The iovecs still to be written. -/
def Stage.iov : Stage → List Piece
  | .scans _ iov | .writes iov => iov
  | _ => []

/-- `lg.state`. -/
inductive Life where
  | running
  | stopping
  | done
  deriving DecidableEq, Repr

/-- Where the thread is that calls `log_stop`. A later call finds the state changed, and returns. -/
inductive Stopper where
  | away
  /-- `log_stop` is called. -/
  | called
  /-- The state is changed; the thread is about to exchange `asleep`. -/
  | swaps
  /-- It is about to write the eventfd. -/
  | signals
  | returned
  deriving DecidableEq, Repr

/-- The log: its rings with their threads, the logger, and what it wrote. -/
structure State where
  rings : Nat → Ring
  stage : Stage := .begins
  asleep : Bool := false
  life : Life := .running
  stopper : Stopper := .away
  /-- The eventfd's count is not 0. -/
  readable : Bool := false
  dropped : Nat := 0
  reported : Nat := 0
  /-- The bytes written to stderr. -/
  out : Bytes := []
  /-- What the logger took to write: the notes, and the lines with the rings they were in. -/
  entries : List (Option Nat × Bytes) := []
  /-- How many lines of each ring had their `log_emit` returned when `log_stop` was called. -/
  promised : Nat → Nat := fun _ => 0

/-- The bytes of a piece, as they are now. -/
def State.bytes (s : State) : Piece → Bytes
  | .note text => text
  | .ring i base len => segment (s.rings i).data base len

/-- A ring, or its thread, becomes another. -/
def State.setRing (s : State) (i : Nat) (r : Ring) : State :=
  { s with rings := Function.update s.rings i r }

/-- The thread of ring `i` goes on. -/
def State.goOn (s : State) (i : Nat) (emitter : Emitter) : State :=
  s.setRing i { s.rings i with emitter }

/-- `log_emit` is given a line. -/
def Ring.give (r : Ring) (line : Bytes) : Ring :=
  { r with emitter := .begins line, given := r.given ++ [line] }

/-- What `log_emit` finds free when it has loaded the tail. -/
def Ring.free (r : Ring) (head : Nat) : Nat :=
  apart sizeMax logRing (apart sizeMax head r.tail)

/-- A dropped line is counted. -/
def Ring.drop (r : Ring) (line : Bytes) : Ring :=
  { r with emitter := .away, fates := r.fates ++ [(line, false)] }

/-- The two `memcpy` of `log_emit`, as they copy byte `k`. -/
def Ring.copy (r : Ring) (line : Bytes) (head k : Nat) : Ring :=
  let base := head % logRing
  let first := min line.length (logRing - base)
  { r with
    data := Function.update r.data (if k < first then base + k else k - first) (line.getD k 0)
    emitter := .copies line head (k + 1) }

/-- `log_emit` stores the head. -/
def Ring.publish (r : Ring) (line : Bytes) (head : Nat) : Ring :=
  { r with
    head := (head + line.length) % sizeMax
    emitter := .peeks
    rest := r.rest ++ [line]
    fates := r.fates ++ [(line, true)] }

/-- The logger loads the head. -/
def Ring.look (r : Ring) : Ring :=
  { r with seen := r.head, batch := r.batch ++ r.rest, rest := [] }

/-- The logger stores the tail. -/
def Ring.store (r : Ring) : Ring :=
  { r with tail := r.seen, written := r.written ++ r.batch, batch := [] }

/-- `log_start`, with `n` rings whose memory is as it was. -/
def start (memory : Nat → Nat → UInt8) : State where
  rings := fun i => { data := memory i }

/-- Who takes a step. -/
inductive Event where
  | emitter
  /-- `log_stop` changes the state. -/
  | stop
  | stopper
  | logger
  deriving DecidableEq, Repr

/-- The atomic steps of the threads with their `n` rings, of `log_stop` and of the logger. -/
inductive Step (n : Nat) (s : State) : Event → State → Prop
  /-- `log_emit` begins; a line ends with its line break, so it is not empty. -/
  | give {i : Nat} (line : Bytes) (inside : i < n) (away : (s.rings i).emitter = .away)
      (some_ : line ≠ []) :
      Step n s .emitter (s.setRing i ((s.rings i).give line))
  | begin {i : Nat} {line : Bytes} (inside : i < n) (at_ : (s.rings i).emitter = .begins line) :
      Step n s .emitter (s.goOn i (.measures line (s.rings i).head))
  | lack {i head : Nat} {line : Bytes} (inside : i < n)
      (at_ : (s.rings i).emitter = .measures line head)
      (large : (s.rings i).free head < line.length) : Step n s .emitter (s.goOn i (.drops line))
  | fit {i head : Nat} {line : Bytes} (inside : i < n)
      (at_ : (s.rings i).emitter = .measures line head)
      (small : line.length ≤ (s.rings i).free head) :
      Step n s .emitter (s.goOn i (.copies line head 0))
  | drop {i : Nat} {line : Bytes} (inside : i < n) (at_ : (s.rings i).emitter = .drops line) :
      Step n s .emitter
        { s.setRing i ((s.rings i).drop line) with dropped := (s.dropped + 1) % sizeMax }
  | copy {i head k : Nat} {line : Bytes} (inside : i < n)
      (at_ : (s.rings i).emitter = .copies line head k) (more : k < line.length) :
      Step n s .emitter (s.setRing i ((s.rings i).copy line head k))
  | publish {i head : Nat} {line : Bytes} (inside : i < n)
      (at_ : (s.rings i).emitter = .copies line head line.length) :
      Step n s .emitter (s.setRing i ((s.rings i).publish line head))
  | peek {i : Nat} (inside : i < n) (at_ : (s.rings i).emitter = .peeks) :
      Step n s .emitter (s.goOn i (if s.asleep then .swaps else .away))
  | swap {i : Nat} (inside : i < n) (at_ : (s.rings i).emitter = .swaps) :
      Step n s .emitter
        { s.goOn i (if s.asleep then .signals else .away) with asleep := false }
  | signal {i : Nat} (inside : i < n) (at_ : (s.rings i).emitter = .signals) :
      Step n s .emitter { s.goOn i .away with readable := true }
  /-- `log_stop` is called. -/
  | call (at_ : s.stopper = .away) :
      Step n s .stopper
        { s with stopper := .called, promised := fun i => (s.rings i).returned }
  | stop (at_ : s.stopper = .called) (running : s.life = .running) :
      Step n s .stop { s with stopper := .swaps, life := .stopping }
  | stopSwap (at_ : s.stopper = .swaps) :
      Step n s .stopper
        { s with stopper := if s.asleep then .signals else .returned, asleep := false }
  | stopSignal (at_ : s.stopper = .signals) :
      Step n s .stopper { s with stopper := .returned, readable := true }
  /-- The logger loads the count of dropped lines, and makes a note of it if it is new. -/
  | note (at_ : s.stage = .begins) (more : s.dropped ≠ s.reported) :
      Step n s .logger
        { s with
          stage := .scans 0 [.note (logNote s.dropped)]
          reported := s.dropped
          entries := s.entries ++ [(none, logNote s.dropped)] }
  | noNote (at_ : s.stage = .begins) (same : s.dropped = s.reported) :
      Step n s .logger { s with stage := .scans 0 [] }
  | scan {i : Nat} {iov : List Piece} (at_ : s.stage = .scans i iov) (inside : i < n) :
      Step n s .logger
        { s.setRing i (s.rings i).look with
          stage := .scans (i + 1) (iov ++ logPieces i (s.rings i).tail (s.rings i).head)
          entries := s.entries ++ (s.rings i).rest.map fun line => (some i, line) }
  | scanned {iov : List Piece} (at_ : s.stage = .scans n iov) :
      Step n s .logger { s with stage := if iov = [] then .checks else .writes iov }
  /-- `writev` writes `w` bytes, perhaps fewer than it was given. -/
  | write {iov : List Piece} {w : Nat} (at_ : s.stage = .writes iov)
      (fits : w ≤ (iov.flatMap s.bytes).length) :
      Step n s .logger
        { s with
          stage := if logAdvance iov w = [] then .stores 0 else .writes (logAdvance iov w)
          out := s.out ++ (iov.flatMap s.bytes).take w }
  | store {i : Nat} (at_ : s.stage = .stores i) (inside : i < n) :
      Step n s .logger { s.setRing i (s.rings i).store with stage := .stores (i + 1) }
  | stored (at_ : s.stage = .stores n) : Step n s .logger { s with stage := .begins }
  | check (at_ : s.stage = .checks) :
      Step n s .logger { s with stage := if s.life = .running then .sleeps else .ends }
  | sleep (at_ : s.stage = .sleeps) :
      Step n s .logger { s with stage := .pendingState, asleep := true }
  | pendingState (at_ : s.stage = .pendingState) :
      Step n s .logger { s with stage := if s.life = .running then .pendingRing 0 else .wakes }
  | pendingRing {i : Nat} (at_ : s.stage = .pendingRing i) (inside : i < n) :
      Step n s .logger
        { s with
          stage := if (s.rings i).head = (s.rings i).tail then .pendingRing (i + 1) else .wakes }
  | pended (at_ : s.stage = .pendingRing n) : Step n s .logger { s with stage := .polls }
  /-- `poll` returns: the eventfd is readable, or a signal came. -/
  | poll (at_ : s.stage = .polls) : Step n s .logger { s with stage := .drains }
  | drain (at_ : s.stage = .drains) :
      Step n s .logger { s with stage := .wakes, readable := false }
  | wake (at_ : s.stage = .wakes) :
      Step n s .logger { s with stage := .begins, asleep := false }
  | finish (at_ : s.stage = .ends) :
      Step n s .logger { s with stage := .finished, life := .done }

end Askai.Log
