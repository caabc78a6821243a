import Askai.Library.Trace
import Mathlib.Algebra.BigOperators.Group.Finset.Basic

/-!
# Home's words to the client loops

The model of what home tells each client loop (`httpd.c`): the policy of a reload, in
`httpd_home_policy` and `httpd_lane_policy`, and the idle connections to close, in `httpd_home_evict`
and `httpd_lane_evict`, in the atomic steps of home and of the loops, in any order.
-/

namespace Askai.Lanes

/-- The address of a policy. -/
abbrev Policy := Nat

/-- Where a client loop is. -/
inductive Life where
  | running
  /-- `LOOP_EXIT` is set. -/
  | exiting
  /-- `httpd_destroy` has freed the loop's server. -/
  | stopped
  /-- `loop_fini` hands the messages left to their handlers. -/
  | draining
  | ended
  deriving DecidableEq, Repr

/-- The handler of a lane's message that its loop is in. -/
inductive Handler where
  | away
  /-- `httpd_lane_policy`, about to exchange `lane->policy`. -/
  | policyBegun
  /-- `httpd_lane_policy`, with what it found there. -/
  | policyTaken (policy : Option Policy)
  /-- `httpd_lane_evict`, about to exchange `lane->evicts`. -/
  | evictBegun
  deriving DecidableEq, Repr

/-- What the handler holds a reference of. -/
def Handler.policy : Handler → Option Policy
  | .policyTaken policy => policy
  | _ => none

/-- `struct httpd_lane`, and the parts of its loop and its server that matter here. -/
structure Lane where
  life : Life := .running
  /-- `lane->policy`. -/
  policy : Option Policy := none
  /-- `lane->srv->policy`. -/
  server : Option Policy
  /-- How often `lane->handover` is posted and its handler has not begun. -/
  handovers : Nat := 0
  /-- `lane->evicts`, a `uint32_t`. -/
  evicts : Nat := 0
  /-- How often `lane->evict` is posted and its handler has not begun. -/
  evictPosts : Nat := 0
  handler : Handler := .away
  /-- The evictions that home asked of the lane, that its server was told, and that its loop dropped as
  it exited. -/
  asked : Nat := 0
  told : Nat := 0
  dropped : Nat := 0
  /-- The policies that home stored for the lane, and those that its server took. -/
  stored : List Policy := []
  taken : List Policy := []

/-- The exchange of `lane->policy` in `httpd_home_policy`. -/
def Lane.store (lane : Lane) (p : Policy) : Lane :=
  { lane with policy := some p, stored := lane.stored ++ [p] }

/-- Where home is. -/
inductive Phase where
  | away
  /-- `httpd_home_policy`, about to store the policy for a lane. -/
  | stores (policy : Policy) (lane : Nat)
  /-- `httpd_home_policy`, about to post a lane's handover. -/
  | posts (policy : Policy) (lane : Nat)
  /-- `httpd_home_evict`, about to add to the evictions of a lane, which it found to be `asked`. -/
  | adds (lane asked : Nat)
  /-- `httpd_home_evict`, about to post a lane's evict message. -/
  | postsEvict (lane : Nat)
  /-- `httpd_home_destroy` has returned. -/
  | closed
  deriving DecidableEq, Repr

/-- The policy that home is storing for the lanes. -/
def Phase.policy : Phase → Option Policy
  | .stores policy _ => some policy
  | .posts policy _ => some policy
  | _ => none

/-- The lane whose handover home is about to post. -/
def Phase.handover : Phase → Option Nat
  | .posts _ i => some i
  | _ => none

/-- The lane whose evict message home is about to post. -/
def Phase.evict : Phase → Option Nat
  | .postsEvict i => some i
  | _ => none

/-- Home has stored the policy of the last reload for the lane. -/
def Phase.reached (i : Nat) : Phase → Bool
  | .stores _ k => i < k
  | .posts _ k => i ≤ k
  | _ => true

/-- Home, its client loops, and the policies. -/
structure State where
  phase : Phase := .away
  /-- `HOME_OPEN`. -/
  isOpen : Bool := false
  /-- `home->policy`. -/
  policy : Option Policy
  lanes : Nat → Lane
  /-- `policy->refs`. -/
  refs : Policy → Nat
  /-- How often the policy was freed. -/
  frees : Policy → Nat := fun _ => 0
  /-- The policy was made. -/
  made : Policy → Bool
  /-- The references that others hold of the policy. -/
  others : Policy → Nat
  /-- The policies of the reloads, the first first. -/
  reloads : List Policy := []

/-- `policy_get`. -/
def State.get (s : State) (policy : Policy) : State :=
  { s with refs := Function.update s.refs policy (s.refs policy + 1) }

/-- `policy_put`. -/
def State.put (s : State) : Option Policy → State
  | none => s
  | some policy =>
    { s with
      refs := Function.update s.refs policy (s.refs policy - 1)
      frees :=
        if s.refs policy = 1 then Function.update s.frees policy (s.frees policy + 1)
        else s.frees }

/-- A lane becomes another. -/
def State.setLane (s : State) (i : Nat) (lane : Lane) : State :=
  { s with lanes := Function.update s.lanes i lane }

/-- The start: the configuration, home and each of `n` servers have the first policy. -/
def start (n : Nat) (first : Policy) : State where
  policy := some first
  lanes := fun _ => { server := some first }
  refs := fun p => if p = first then n + 2 else 0
  made := fun p => p = first
  others := fun p => if p = first then 1 else 0

/-- A step of home, of a loop or of another holder of a policy. -/
inductive Step (n : Nat) : State → Unit → State → Prop
  /-- The configuration is read: `policy_create`. -/
  | make {s : State} (p : Policy) (fresh : s.made p = false) :
      Step n s () { s with
        made := Function.update s.made p true
        refs := Function.update s.refs p 1
        others := Function.update s.others p 1 }
  /-- Another holder takes one more reference. -/
  | keep {s : State} (p : Policy) (held : 1 ≤ s.others p) :
      Step n s () { s.get p with others := Function.update s.others p (s.others p + 1) }
  /-- Another holder lets go of a reference; whoever has home reload a policy keeps one meanwhile. -/
  | drop {s : State} (p : Policy)
      (held : (if s.phase.policy = some p then 2 else 1) ≤ s.others p) :
      Step n s () { s.put (some p) with others := Function.update s.others p (s.others p - 1) }
  /-- `httpd_home_open`. -/
  | opens {s : State} (away : s.phase = .away) : Step n s () { s with isOpen := true }
  /-- `httpd_home_drain`. -/
  | drains {s : State} (away : s.phase = .away) : Step n s () { s with isOpen := false }
  /-- `httpd_home_policy` begins. -/
  | reload {s : State} (p : Policy) (away : s.phase = .away) (isOpen : s.isOpen = true)
      (held : 1 ≤ s.others p) :
      Step n s () { (s.put s.policy).get p with
        phase := .stores p 0
        policy := some p
        reloads := s.reloads ++ [p] }
  /-- `httpd_home_policy` exchanges `lane->policy`, and finds none there. -/
  | stores {s : State} {p : Policy} {i : Nat} (phase : s.phase = .stores p i) (inside : i < n)
      (none_ : (s.lanes i).policy = none) :
      Step n s () { (s.get p).setLane i ((s.lanes i).store p) with phase := .posts p i }
  /-- `httpd_home_policy` exchanges `lane->policy`, and lets go of the one it finds there. -/
  | replaces {s : State} {p old : Policy} {i : Nat} (phase : s.phase = .stores p i) (inside : i < n)
      (some_ : (s.lanes i).policy = some old) :
      Step n s () { ((s.get p).put (some old)).setLane i ((s.lanes i).store p) with
        phase := .stores p (i + 1) }
  /-- `httpd_home_policy` posts the handover. -/
  | posts {s : State} {p : Policy} {i : Nat} (phase : s.phase = .posts p i) :
      Step n s () { s.setLane i { s.lanes i with handovers := (s.lanes i).handovers + 1 } with
        phase := .stores p (i + 1) }
  /-- `httpd_home_policy` returns. -/
  | reloaded {s : State} {p : Policy} (phase : s.phase = .stores p n) :
      Step n s () { s with phase := .away }
  /-- `httpd_home_evict` finds a lane with more idle connections than it is asked to close. -/
  | finds {s : State} (i idles : Nat) (away : s.phase = .away) (inside : i < n)
      (spare : (s.lanes i).evicts < idles) (fits : idles < 2 ^ 32) :
      Step n s () { s with phase := .adds i (s.lanes i).evicts }
  /-- `httpd_home_evict` adds to the evictions of the lane. -/
  | adds {s : State} {i asked : Nat} (phase : s.phase = .adds i asked) :
      Step n s () { s.setLane i
          { s.lanes i with
            evicts := ((s.lanes i).evicts + 1) % 2 ^ 32
            asked := (s.lanes i).asked + 1 } with
        phase := if (s.lanes i).evicts = 0 then .postsEvict i else .away }
  /-- `httpd_home_evict` posts the evict message. -/
  | postsEvict {s : State} {i : Nat} (phase : s.phase = .postsEvict i) :
      Step n s () { s.setLane i { s.lanes i with evictPosts := (s.lanes i).evictPosts + 1 } with
        phase := .away }
  /-- `httpd_home_destroy`, once the threads of all client loops have exited. -/
  | close {s : State} (away : s.phase = .away)
      (exited : ∀ i < n, (s.lanes i).life = .stopped) :
      Step n s () { s.put s.policy with phase := .closed, isOpen := false, policy := none }
  /-- The loop hands the handover to its handler. -/
  | beginPolicy {s : State} {i : Nat} (inside : i < n) (away : (s.lanes i).handler = .away)
      (posted : 0 < (s.lanes i).handovers)
      (life : (s.lanes i).life = .running ∨ (s.lanes i).life = .draining) :
      Step n s () (s.setLane i { s.lanes i with handovers := (s.lanes i).handovers - 1, handler := .policyBegun })
  /-- `httpd_lane_policy` exchanges `lane->policy`. -/
  | takePolicy {s : State} {i : Nat} (inside : i < n)
      (handler : (s.lanes i).handler = .policyBegun) :
      Step n s () (s.setLane i { s.lanes i with policy := none, handler := .policyTaken (s.lanes i).policy })
  /-- `httpd_lane_policy` has the server take the policy, and lets go of the one before. -/
  | applyPolicy {s : State} {i : Nat} {p : Policy} (inside : i < n)
      (handler : (s.lanes i).handler = .policyTaken (some p)) (life : (s.lanes i).life = .running) :
      Step n s () ((s.put (s.lanes i).server).setLane i
        { s.lanes i with server := some p, taken := (s.lanes i).taken ++ [p], handler := .away })
  /-- `httpd_lane_policy` lets go of the policy as the loop has stopped, or found none. -/
  | dropPolicy {s : State} {i : Nat} {p : Option Policy} (inside : i < n)
      (handler : (s.lanes i).handler = .policyTaken p)
      (life : p = none ∨ (s.lanes i).life ≠ .running) :
      Step n s () ((s.put p).setLane i { s.lanes i with handler := .away })
  /-- The loop hands the evict message to its handler. -/
  | beginEvict {s : State} {i : Nat} (inside : i < n) (away : (s.lanes i).handler = .away)
      (posted : 0 < (s.lanes i).evictPosts)
      (life : (s.lanes i).life = .running ∨ (s.lanes i).life = .draining) :
      Step n s () (s.setLane i { s.lanes i with evictPosts := (s.lanes i).evictPosts - 1, handler := .evictBegun })
  /-- `httpd_lane_evict` exchanges `lane->evicts`, and tells the server. -/
  | takeEvict {s : State} {i : Nat} (inside : i < n)
      (handler : (s.lanes i).handler = .evictBegun) :
      Step n s () (s.setLane i
        { s.lanes i with
          evicts := 0
          told := (s.lanes i).told + if (s.lanes i).life = .running then (s.lanes i).evicts else 0
          dropped :=
            (s.lanes i).dropped + if (s.lanes i).life = .running then 0 else (s.lanes i).evicts
          handler := .away })
  /-- `loop_exit`, in a step of the loop that is not of these handlers. -/
  | exits {s : State} {i : Nat} (inside : i < n) (away : (s.lanes i).handler = .away)
      (life : (s.lanes i).life = .running) :
      Step n s () (s.setLane i { s.lanes i with life := .exiting })
  /-- `httpd_destroy`, once the loop has exited. -/
  | stops {s : State} {i : Nat} (inside : i < n) (life : (s.lanes i).life = .exiting) :
      Step n s () ((s.put (s.lanes i).server).setLane i { s.lanes i with server := none, life := .stopped })
  /-- `loop_fini` begins, after home's loop has ended. -/
  | finis {s : State} {i : Nat} (inside : i < n) (life : (s.lanes i).life = .stopped)
      (closed : s.phase = .closed) :
      Step n s () (s.setLane i { s.lanes i with life := .draining })
  /-- `loop_fini` has handed out every message. -/
  | ends {s : State} {i : Nat} (inside : i < n) (life : (s.lanes i).life = .draining)
      (away : (s.lanes i).handler = .away) (policies : (s.lanes i).handovers = 0)
      (evicts : (s.lanes i).evictPosts = 0) :
      Step n s () (s.setLane i { s.lanes i with life := .ended })

end Askai.Lanes
