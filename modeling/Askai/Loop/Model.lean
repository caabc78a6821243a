import Askai.Library.Chain
import Askai.Library.Trace

/-!
# The inbox of a loop

`loop_post`, by any number of posters, and the turns of the one loop that takes what they post
(`loop.c`), in the atomic steps of each: sequentially consistent, in any order.
-/

namespace Askai

/-- The address of a message. -/
abbrev Msg := Nat

/-- Where a poster is in `loop_post`. -/
inductive Poster where
  | away
  /-- It found `head` in the inbox, and is about to have the message lead on to it. -/
  | links (msg : Msg) (head : Option Msg)
  /-- It is about to compare the inbox with `head`, and to swap the message in. -/
  | swaps (msg : Msg) (head : Option Msg)
  /-- The message is in the inbox; the poster is about to exchange `asleep`. -/
  | rouses (msg : Msg)
  /-- It found the loop asleep, and is about to write the eventfd. -/
  | signals (msg : Msg)
  deriving DecidableEq, Repr

/-- The message that a poster is about to post, which is its own until then. -/
def Poster.own : Poster → Option Msg
  | .links msg _ => some msg
  | .swaps msg _ => some msg
  | _ => none

/-- Where the loop is. -/
inductive Stage where
  /-- Before a turn. -/
  | turn
  /-- It said that it sleeps, and is about to look at the inbox again. -/
  | looks
  /-- In `epoll_pwait2`, which returns at once unless it `sleeps`. -/
  | waits (sleeps : Bool)
  /-- The wait is over, with the eventfd among its events or not. -/
  | returned (woken : Bool)
  /-- It is about to read the eventfd. -/
  | reads
  /-- It is about to look at the inbox, to collect what is there. -/
  | collects
  /-- It saw something there, and is about to take it all. -/
  | takes
  /-- It reverses what it took: what is left of it, what it reversed, and the newest of it. -/
  | reverses (msg fifo last : Option Msg)
  /-- It has handed `n` messages to their handlers in this turn. -/
  | delivers (n : Nat)
  /-- The timers and the steps of a turn. -/
  | runs
  | finished
  deriving DecidableEq, Repr

/-- The inbox handlers per turn (`MAIL`). -/
abbrev loopMail : Nat := 256

/-- A loop and its posters. -/
structure Loop (P : Type*) where
  next : Msg → Option Msg
  /-- Posted, newest first. -/
  inbox : Option Msg
  asleep : Bool
  /-- What the eventfd counts. -/
  wake : Nat
  /-- Taken from the inbox, oldest first. -/
  mail : Option Msg
  mailLast : Option Msg
  exit : Bool
  /-- In `loop_fini`. -/
  closing : Bool
  stage : Stage
  posters : P → Poster
  /-- The messages posted, in the order of their compare-and-swaps. -/
  accepted : List Msg
  /-- The messages handed to their handlers, in order. -/
  delivered : List Msg

namespace Loop

variable {P : Type*} [DecidableEq P]

/-- A loop before its first turn. -/
def start (next : Msg → Option Msg) : Loop P :=
  { next
    inbox := none
    asleep := false
    wake := 0
    mail := none
    mailLast := none
    exit := false
    closing := false
    stage := .turn
    posters := fun _ => .away
    accepted := []
    delivered := [] }

def poster (s : Loop P) (p : P) (at_ : Poster) : Loop P :=
  { s with posters := Function.update s.posters p at_ }

/-- A message may be posted once its handler had it, and while no one else posts it. -/
def Free (s : Loop P) (msg : Msg) : Prop :=
  s.accepted.count msg = s.delivered.count msg ∧ ∀ p, (s.posters p).own ≠ some msg

/-- `loop_post`, with what it found in the inbox: posted already, or to be linked. -/
def loopPost (msg : Msg) (head : Option Msg) : Poster :=
  if head = some msg then .away else .links msg head

/-- `loop_deliver`, of the message `msg`. -/
def loopDeliver (s : Loop P) (msg : Msg) : Loop P :=
  { s with
    mail := s.next msg
    mailLast := if s.next msg = none then none else s.mailLast
    delivered := s.delivered ++ [msg] }

/-- The end of `loop_collect`: what it reversed, behind what earlier turns left. -/
def loopAppend (s : Loop P) (fifo last : Option Msg) : Loop P :=
  match s.mailLast with
  | some m => { s with next := Function.update s.next m fifo, mailLast := last }
  | none => { s with mail := fifo, mailLast := last }

end Loop

/-- Who takes a step. -/
inductive LoopEvent (P : Type*) where
  | post (p : P) (msg : Msg)
  | poster (p : P)
  | loop
  /-- What a step takes from elsewhere: a timer, another event, an error. -/
  | other

open Loop in
/-- The atomic steps of the posters and the loop. -/
inductive LoopStep {P : Type*} [DecidableEq P] (s : Loop P) : LoopEvent P → Loop P → Prop
  -- `loop_post`; a message queued already is the newest of the inbox, if any is posted again
  | post {p msg} (away : s.posters p = .away) (may : s.Free msg ∨ s.inbox = some msg) :
      LoopStep s (.post p msg) (s.poster p (Loop.loopPost msg s.inbox))
  | link {p msg head} (at_ : s.posters p = .links msg head) :
      LoopStep s (.poster p)
        ({ s with next := Function.update s.next msg head }.poster p (.swaps msg head))
  | swap {p msg head} (at_ : s.posters p = .swaps msg head) (same : s.inbox = head) :
      LoopStep s (.poster p)
        ({ s with inbox := some msg, accepted := s.accepted ++ [msg] }.poster p (.rouses msg))
  -- the compare-and-swap may also fail for no reason
  | miss {p msg head} (at_ : s.posters p = .swaps msg head) :
      LoopStep s .other (s.poster p (Loop.loopPost msg s.inbox))
  | rouse {p msg} (at_ : s.posters p = .rouses msg) :
      LoopStep s (.poster p)
        ({ s with asleep := false }.poster p (if s.asleep then .signals msg else .away))
  | signal {p msg} (at_ : s.posters p = .signals msg) :
      LoopStep s (.poster p) ({ s with wake := s.wake + 1 }.poster p .away)
  -- `loop_turn`, up to its wait
  | stay (at_ : s.stage = .turn) (goes : s.exit = false) (filled : s.mail ≠ none) :
      LoopStep s .loop { s with stage := .waits false }
  -- steps are queued, or a timer is due
  | busy (at_ : s.stage = .turn) (goes : s.exit = false) :
      LoopStep s .other { s with stage := .waits false }
  | doze (at_ : s.stage = .turn) (goes : s.exit = false) (empty : s.mail = none) :
      LoopStep s .loop { s with asleep := true, stage := .looks }
  | look (at_ : s.stage = .looks) :
      LoopStep s .loop { s with stage := .waits (s.inbox = none) }
  | wake {sleeps} (at_ : s.stage = .waits sleeps) (readable : 0 < s.wake) :
      LoopStep s .loop { s with stage := .returned true }
  | elapse (at_ : s.stage = .waits false) : LoopStep s .loop { s with stage := .returned false }
  | stir (at_ : s.stage = .waits true) : LoopStep s .other { s with stage := .returned false }
  | interrupt (at_ : s.stage = .returned false) :
      LoopStep s .other { s with asleep := false, stage := .turn }
  | fail (at_ : s.stage = .returned false) :
      LoopStep s .other
        { s with asleep := false, exit := true, closing := true, stage := .collects }
  -- its events
  | rise {woken} (at_ : s.stage = .returned woken) :
      LoopStep s .loop
        { s with asleep := false, stage := if woken then .reads else .collects }
  | read (at_ : s.stage = .reads) : LoopStep s .loop { s with wake := 0, stage := .collects }
  | skip (at_ : s.stage = .reads) (exits : s.exit = true) :
      LoopStep s .loop { s with stage := .collects }
  -- `loop_exit`, by a handler
  | exits : LoopStep s .other { s with exit := true }
  -- `loop_collect`
  | collect (at_ : s.stage = .collects) :
      LoopStep s .loop { s with stage := if s.inbox = none then .delivers 0 else .takes }
  | take (at_ : s.stage = .takes) :
      LoopStep s .loop { s with inbox := none, stage := .reverses s.inbox none s.inbox }
  | reverse {msg fifo last} (at_ : s.stage = .reverses (some msg) fifo last) :
      LoopStep s .loop
        { s with
          next := Function.update s.next msg fifo
          stage := .reverses (s.next msg) (some msg) last }
  | append {fifo last} (at_ : s.stage = .reverses none fifo last) :
      LoopStep s .loop { s.loopAppend fifo last with stage := .delivers 0 }
  -- the mail of a turn, or of `loop_fini`
  | deliver {n msg} (at_ : s.stage = .delivers n) (first : s.mail = some msg)
      (goes : s.closing = true ∨ n < loopMail ∧ s.exit = false) :
      LoopStep s .loop
        { s.loopDeliver msg with stage := if s.closing then .collects else .delivers (n + 1) }
  | rest {n} (at_ : s.stage = .delivers n) (turns : s.closing = false)
      (stops : s.mail = none ∨ loopMail ≤ n ∨ s.exit = true) :
      LoopStep s .loop { s with stage := .runs }
  | run (at_ : s.stage = .runs) : LoopStep s .loop { s with stage := .turn }
  -- `loop_exec` ends, and `loop_fini` follows
  | close (at_ : s.stage = .turn) (exits : s.exit = true) :
      LoopStep s .loop { s with closing := true, stage := .collects }
  | finish {n} (at_ : s.stage = .delivers n) (closes : s.closing = true) (empty : s.mail = none) :
      LoopStep s .loop { s with stage := .finished }

end Askai
