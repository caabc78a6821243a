import Askai.Library.Trace
import Mathlib.Algebra.BigOperators.Group.Finset.Basic

/-!
# Budgets of request bodies

The bytes of bodies that the connections hold, counted for all of them and for each client's
(`httpd_budget_take`, `httpd_conn_hold` and `httpd_conn_unhold` of `httpd.c`), by connections on
any loops: the atomic steps of all, in any order.
-/

namespace Askai

open Library

/-- `size_t` has as many values. -/
abbrev sizeWrap : Nat := 2 ^ 64

def sizeAdd (x n : Nat) : Nat :=
  if x + n < sizeWrap then x + n else x + n - sizeWrap

def sizeSub (x n : Nat) : Nat :=
  if n ≤ x then x - n else x + sizeWrap - n

theorem sizeSub_of_le {x n : Nat} (le : n ≤ x) : sizeSub x n = x - n :=
  if_pos le

theorem sizeAdd_of_lt {x n : Nat} (fits : x + n < sizeWrap) : sizeAdd x n = x + n :=
  if_pos fits

/-- Where a connection is in `httpd_conn_hold` or `httpd_conn_unhold`. -/
inductive Holding where
  | idle
  /-- About to load the count of all. -/
  | loads (n : Nat)
  /-- In `httpd_budget_take`, from the count of all, which was `used`. -/
  | takes (n used : Nat)
  /-- It has taken from the count of all, and is about to load its client's. -/
  | loadsClient (n : Nat)
  | takesClient (n used : Nat)
  /-- It has taken from both. -/
  | records (n : Nat)
  /-- Its client's count refused what it has taken from the count of all. -/
  | givesBack (n : Nat)
  /-- About to return `ENOBUFS`. -/
  | refused
  /-- In `httpd_conn_unhold`, to close the connection then or not. -/
  | unholds (closes : Bool)
  | unholdsClient (closes : Bool)
  | clears (closes : Bool)
  deriving DecidableEq, Repr

/-- What a connection has of the budgets. -/
structure Holder (C : Type*) where
  client : C
  held : Nat
  at_ : Holding

/-- What a connection holds of the count of all, with what a hold under way has taken from it. -/
def Holder.ofAll {C : Type*} (c : Holder C) : Nat :=
  match c.at_ with
  | .loadsClient n | .takesClient n _ | .records n | .givesBack n => c.held + n
  | .unholdsClient _ | .clears _ => 0
  | _ => c.held

/-- What a connection holds of its client's count, with what a hold under way has taken from it. -/
def Holder.ofClient {C : Type*} (c : Holder C) : Nat :=
  match c.at_ with
  | .records n => c.held + n
  | .clears _ => 0
  | _ => c.held

/-- `bodies` and `client_bodies` of `struct httpd_limits`. -/
structure BodyLimits where
  bodies : Nat
  clientBodies : Nat
  bodies_lt : bodies < sizeWrap
  clientBodies_lt : clientBodies < sizeWrap

/-- The connections `K` of the clients `C`, and the two counts. -/
structure Budgets (K C : Type*) where
  /-- `hub->bodies`. -/
  bodies : Nat
  /-- `held` of each client. -/
  held : C → Nat
  connected : Finset K
  conn : K → Holder C

namespace Budgets

variable {K C : Type*} [DecidableEq K] [DecidableEq C]

/-- No connection yet. -/
def start (conn : K → Holder C) : Budgets K C :=
  { bodies := 0, held := fun _ => 0, connected := ∅, conn }

def at_ (s : Budgets K C) (k : K) (holding : Holding) : Budgets K C :=
  { s with conn := Function.update s.conn k { s.conn k with at_ := holding } }

/-- The connection `k` closes, or is idle again. -/
def rest (s : Budgets K C) (k : K) (closes : Bool) : Budgets K C :=
  { s.at_ k .idle with connected := if closes then s.connected.erase k else s.connected }

end Budgets

/-- What a step does, for whom. -/
inductive BudgetEvent (K C : Type*) where
  | connect (k : K) (client : C)
  | hold (k : K) (n : Nat)
  | unhold (k : K) (closes : Bool)
  /-- A step of a hold or an unhold under way. -/
  | goOn (k : K)
  /-- A hold returns 0. -/
  | held (k : K)
  /-- A hold returns `ENOBUFS`. -/
  | refuse (k : K)

/-- The connection that takes a step. -/
def BudgetEvent.who {K C : Type*} : BudgetEvent K C → K
  | .connect k _ | .hold k _ | .unhold k _ | .goOn k | .held k | .refuse k => k

open Budgets in
/-- The atomic steps of the connections. -/
inductive BudgetStep {K C : Type*} [DecidableEq K] [DecidableEq C] (lim : BodyLimits)
    (s : Budgets K C) : BudgetEvent K C → Budgets K C → Prop
  | connect {k client} (fresh : k ∉ s.connected) :
      BudgetStep lim s (.connect k client)
        { s with
          connected := insert k s.connected
          conn := Function.update s.conn k { client, held := 0, at_ := .idle } }
  -- `httpd_conn_hold`
  | hold {k n} (here : k ∈ s.connected) (idle : (s.conn k).at_ = .idle) (fits : n < sizeWrap) :
      BudgetStep lim s (.hold k n) (s.at_ k (if n = 0 then .idle else .loads n))
  | load {k n} (here : k ∈ s.connected) (at_ : (s.conn k).at_ = .loads n) :
      BudgetStep lim s (.goOn k) (s.at_ k (.takes n s.bodies))
  | take {k n used} (here : k ∈ s.connected) (at_ : (s.conn k).at_ = .takes n used)
      (room : n ≤ sizeSub lim.bodies used) (same : s.bodies = used) :
      BudgetStep lim s (.goOn k) ({ s with bodies := sizeAdd used n }.at_ k (.loadsClient n))
  -- the compare-and-swap may also fail for no reason
  | retry {k n used} (here : k ∈ s.connected) (at_ : (s.conn k).at_ = .takes n used)
      (room : n ≤ sizeSub lim.bodies used) :
      BudgetStep lim s (.goOn k) (s.at_ k (.takes n s.bodies))
  | full {k n used} (here : k ∈ s.connected) (at_ : (s.conn k).at_ = .takes n used)
      (room : ¬n ≤ sizeSub lim.bodies used) :
      BudgetStep lim s (.goOn k) (s.at_ k .refused)
  | loadClient {k n} (here : k ∈ s.connected) (at_ : (s.conn k).at_ = .loadsClient n) :
      BudgetStep lim s (.goOn k) (s.at_ k (.takesClient n (s.held (s.conn k).client)))
  | takeClient {k n used} (here : k ∈ s.connected) (at_ : (s.conn k).at_ = .takesClient n used)
      (room : n ≤ sizeSub lim.clientBodies used) (same : s.held (s.conn k).client = used) :
      BudgetStep lim s (.goOn k)
        ({ s with held := Function.update s.held (s.conn k).client (sizeAdd used n) }.at_ k (.records n))
  | retryClient {k n used} (here : k ∈ s.connected) (at_ : (s.conn k).at_ = .takesClient n used)
      (room : n ≤ sizeSub lim.clientBodies used) :
      BudgetStep lim s (.goOn k) (s.at_ k (.takesClient n (s.held (s.conn k).client)))
  | fullClient {k n used} (here : k ∈ s.connected) (at_ : (s.conn k).at_ = .takesClient n used)
      (room : ¬n ≤ sizeSub lim.clientBodies used) :
      BudgetStep lim s (.goOn k) (s.at_ k (.givesBack n))
  | giveBack {k n} (here : k ∈ s.connected) (at_ : (s.conn k).at_ = .givesBack n) :
      BudgetStep lim s (.goOn k) ({ s with bodies := sizeSub s.bodies n }.at_ k .refused)
  | refuse {k} (here : k ∈ s.connected) (at_ : (s.conn k).at_ = .refused) :
      BudgetStep lim s (.refuse k) (s.at_ k .idle)
  | record {k n} (here : k ∈ s.connected) (at_ : (s.conn k).at_ = .records n) :
      BudgetStep lim s (.held k)
        { s with
          conn := Function.update s.conn k
            { s.conn k with held := sizeAdd (s.conn k).held n, at_ := .idle } }
  -- `httpd_conn_unhold`, of a request done, a linger or a close
  | unhold {k closes} (here : k ∈ s.connected) (idle : (s.conn k).at_ = .idle)
      (holds : (s.conn k).held ≠ 0) :
      BudgetStep lim s (.unhold k closes) (s.at_ k (.unholds closes))
  | unheld {k closes} (here : k ∈ s.connected) (idle : (s.conn k).at_ = .idle)
      (empty : (s.conn k).held = 0) :
      BudgetStep lim s (.unhold k closes) (s.rest k closes)
  | release {k closes} (here : k ∈ s.connected) (at_ : (s.conn k).at_ = .unholds closes) :
      BudgetStep lim s (.goOn k)
        ({ s with bodies := sizeSub s.bodies (s.conn k).held }.at_ k (.unholdsClient closes))
  | releaseClient {k closes} (here : k ∈ s.connected)
      (at_ : (s.conn k).at_ = .unholdsClient closes) :
      BudgetStep lim s (.goOn k)
        ({ s with
          held := Function.update s.held (s.conn k).client
            (sizeSub (s.held (s.conn k).client) (s.conn k).held) }.at_ k (.clears closes))
  | clear {k closes} (here : k ∈ s.connected) (at_ : (s.conn k).at_ = .clears closes) :
      BudgetStep lim s (.goOn k)
        (Budgets.rest { s with conn := Function.update s.conn k { s.conn k with held := 0 } } k closes)

end Askai
