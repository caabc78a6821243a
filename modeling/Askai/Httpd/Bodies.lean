import Askai.Httpd.Budget
import Mathlib.Algebra.Order.BigOperators.Group.Finset
import Mathlib.Tactic

/-!
# The budgets balance

Each count is the sum of what the connections hold of it, whatever the order of their steps, and
neither count goes beyond its limit.
-/

namespace Askai

open Library

namespace Holder

variable {C : Type*} [DecidableEq C]

/-- What a connection holds of the count of the client `c`. -/
def ofClientOf (c : C) (h : Holder C) : Nat :=
  if h.client = c then h.ofClient else 0

/-- What a take loaded was within the limit. -/
def Loaded (lim : BodyLimits) (h : Holder C) : Prop :=
  match h.at_ with
  | .takes _ used => used ≤ lim.bodies
  | .takesClient _ used => used ≤ lim.clientBodies
  | _ => True

end Holder

namespace Budgets

variable {K C : Type*} [DecidableEq C] {lim : BodyLimits} {s t : Budgets K C}

/-- The counts are what the connections hold, within the limits. -/
structure Balanced (lim : BodyLimits) (s : Budgets K C) : Prop where
  all : ∑ k ∈ s.connected, (s.conn k).ofAll = s.bodies
  clients : ∀ c, ∑ k ∈ s.connected, (s.conn k).ofClientOf c = s.held c
  bodies_le : s.bodies ≤ lim.bodies
  held_le : ∀ c, s.held c ≤ lim.clientBodies
  loaded : ∀ k ∈ s.connected, (s.conn k).Loaded lim

theorem start_balanced (conn : K → Holder C) : (start conn).Balanced lim :=
  { all := rfl
    clients := fun _ => rfl
    bodies_le := Nat.zero_le _
    held_le := fun _ => Nat.zero_le _
    loaded := nofun }

/-- What a connection holds is part of each count. -/
theorem Balanced.ofAll_le (balanced : s.Balanced lim) {k : K} (here : k ∈ s.connected) :
    (s.conn k).ofAll ≤ s.bodies := by
  rw [← balanced.all]
  exact Finset.single_le_sum (f := fun k => (s.conn k).ofAll) (fun _ _ => Nat.zero_le _) here

theorem Balanced.ofClient_le (balanced : s.Balanced lim) {k : K} (here : k ∈ s.connected) :
    (s.conn k).ofClient ≤ s.held (s.conn k).client := by
  have part : (s.conn k).ofClientOf (s.conn k).client = (s.conn k).ofClient := if_pos rfl
  rw [← balanced.clients, ← part]
  exact Finset.single_le_sum (f := fun j => (s.conn j).ofClientOf (s.conn k).client) (fun _ _ => Nat.zero_le _) here

variable [DecidableEq K]

omit [DecidableEq C] in
/-- A sum over the connections follows the change of one. -/
theorem sum_update {f : Holder C → Nat} {S : Finset K} {conn : K → Holder C} {k : K} (here : k ∈ S) (h : Holder C) :
    ∑ j ∈ S, f (Function.update conn k h j) + f (conn k) = ∑ j ∈ S, f (conn j) + f h := by
  rw [← Finset.add_sum_erase S _ here, ← Finset.add_sum_erase S (fun j => f (conn j)) here, Function.update_self]
  have rest : ∑ j ∈ S.erase k, f (Function.update conn k h j) = ∑ j ∈ S.erase k, f (conn j) :=
    Finset.sum_congr rfl fun j member => by
      rw [Function.update_of_ne (Finset.ne_of_mem_erase member)]
  rw [rest]
  omega

/-- One connection changes, and the counts with what it holds of them. -/
theorem Balanced.change (balanced : s.Balanced lim) {k : K} (here : k ∈ s.connected)
    (h : Holder C) {bodies : Nat} {held : C → Nat} (all : bodies + (s.conn k).ofAll = s.bodies + h.ofAll)
    (clients : ∀ c, held c + (s.conn k).ofClientOf c = s.held c + h.ofClientOf c)
    (bodies_le : bodies ≤ lim.bodies) (held_le : ∀ c, held c ≤ lim.clientBodies) (loaded : h.Loaded lim) :
    Balanced lim { s with bodies, held, conn := Function.update s.conn k h } := by
  refine
    { all := ?_
      clients := fun c => ?_
      bodies_le
      held_le
      loaded := ?_ }
  · have changed := @sum_update _ _ _ Holder.ofAll _ s.conn _ here h
    rw [balanced.all] at changed
    simp only
    omega
  · have changed := @sum_update _ _ _ (Holder.ofClientOf c) _ s.conn _ here h
    rw [balanced.clients c] at changed
    have := clients c
    simp only
    omega
  · intro j member
    by_cases same : j = k
    · subst same
      simpa using loaded
    · simpa [Function.update_of_ne same] using balanced.loaded j member

variable {holding : Holding} {es : List (BudgetEvent K C)}

/-- A connection goes on, and holds what it held. -/
theorem Balanced.goOn (balanced : s.Balanced lim) {k : K} (here : k ∈ s.connected)
    (all : Holder.ofAll { s.conn k with at_ := holding } = (s.conn k).ofAll)
    (client : Holder.ofClient { s.conn k with at_ := holding } = (s.conn k).ofClient)
    (loaded : Holder.Loaded lim { s.conn k with at_ := holding }) : (s.at_ k holding).Balanced lim := by
  refine balanced.change here _ (by rw [all]) (fun c => ?_) balanced.bodies_le balanced.held_le loaded
  simp only [Holder.ofClientOf, client]

/-- The count of all changes, with what a connection holds of it. -/
theorem Balanced.all_change (balanced : s.Balanced lim) {k : K} (here : k ∈ s.connected)
    {bodies : Nat} (all : bodies + (s.conn k).ofAll = s.bodies + Holder.ofAll { s.conn k with at_ := holding })
    (client : Holder.ofClient { s.conn k with at_ := holding } = (s.conn k).ofClient)
    (bodies_le : bodies ≤ lim.bodies) (loaded : Holder.Loaded lim { s.conn k with at_ := holding }) :
    (Budgets.at_ { s with bodies := bodies } k holding).Balanced lim := by
  refine balanced.change here _ all (fun c => ?_) bodies_le balanced.held_le loaded
  simp only [Holder.ofClientOf, client]

/-- A client's count changes, with what a connection of its holds of it. -/
theorem Balanced.client_change (balanced : s.Balanced lim) {k : K} (here : k ∈ s.connected)
    {n : Nat} (all : Holder.ofAll { s.conn k with at_ := holding } = (s.conn k).ofAll)
    (client : n + (s.conn k).ofClient = s.held (s.conn k).client + Holder.ofClient { s.conn k with at_ := holding })
    (le : n ≤ lim.clientBodies) (loaded : Holder.Loaded lim { s.conn k with at_ := holding }) :
    (Budgets.at_ { s with held := Function.update s.held (s.conn k).client n } k holding).Balanced lim := by
  refine balanced.change here _ (by rw [all]) (fun c => ?_) balanced.bodies_le (fun c => ?_) loaded
  · by_cases same : (s.conn k).client = c
    · subst same
      simpa [Holder.ofClientOf] using client
    · simp [Holder.ofClientOf, same, Function.update_of_ne (Ne.symm same)]
  · by_cases same : c = (s.conn k).client
    · subst same
      simpa using le
    · simpa [Function.update_of_ne same] using balanced.held_le c

omit [DecidableEq C] in
@[simp] theorem at_connected (k : K) (holding : Holding) : (s.at_ k holding).connected = s.connected := rfl

/-- A connection that holds nothing leaves. -/
theorem Balanced.rest (balanced : s.Balanced lim) {k : K} {closes : Bool} (here : k ∈ s.connected)
    (empty : (s.conn k).held = 0) (all : (s.conn k).ofAll = 0) (client : (s.conn k).ofClient = 0) :
    (s.rest k closes).Balanced lim := by
  have idle : (s.at_ k .idle).Balanced lim :=
    balanced.goOn here (by rw [all]; simp [Holder.ofAll, empty])
      (by rw [client]; simp [Holder.ofClient, empty]) trivial
  cases closes with
  | false => exact { idle with }
  | true =>
    have nothing {f : Holder C → Nat} (zero : f ((s.at_ k .idle).conn k) = 0) :
        ∑ j ∈ s.connected.erase k, f ((s.at_ k .idle).conn j) =
          ∑ j ∈ s.connected, f ((s.at_ k .idle).conn j) := by
      rw [← Finset.add_sum_erase s.connected _ here, zero, Nat.zero_add]
    have self : (s.at_ k .idle).conn k = { s.conn k with at_ := .idle } :=
      Function.update_self ..
    refine
      { all := (nothing (f := Holder.ofAll) ?_).trans idle.all
        clients := fun c => (nothing (f := Holder.ofClientOf c) ?_).trans (idle.clients c)
        bodies_le := idle.bodies_le
        held_le := idle.held_le
        loaded := fun j member => idle.loaded j (Finset.mem_of_mem_erase member) }
    · simp [self, Holder.ofAll, empty]
    · simp [self, Holder.ofClientOf, Holder.ofClient, empty]

theorem Balanced.connect (balanced : s.Balanced lim) {k : K} {client : C} (fresh : k ∉ s.connected) : Balanced lim
      { s with
        connected := insert k s.connected
        conn := Function.update s.conn k { client, held := 0, at_ := .idle } } := by
  have others {f : Holder C → Nat} :
      ∑ j ∈ s.connected, f (Function.update s.conn k { client, held := 0, at_ := .idle } j) =
        ∑ j ∈ s.connected, f (s.conn j) :=
    Finset.sum_congr rfl fun j member => by
      rw [Function.update_of_ne (ne_of_mem_of_not_mem member fresh)]
  refine
    { all := ?_
      clients := fun c => ?_
      bodies_le := balanced.bodies_le
      held_le := balanced.held_le
      loaded := ?_ }
  · rw [Finset.sum_insert fresh, others, balanced.all]
    simp [Holder.ofAll]
  · rw [Finset.sum_insert fresh, others, balanced.clients]
    simp [Holder.ofClientOf, Holder.ofClient]
  · intro j member
    by_cases same : j = k
    · subst same
      simp [Holder.Loaded]
    · have before := (Finset.mem_insert.mp member).resolve_left same
      simpa [Function.update_of_ne same] using balanced.loaded j before

/-- Every step keeps the counts what the connections hold. -/
theorem Balanced.step (balanced : s.Balanced lim) {e : BudgetEvent K C}
    (step : BudgetStep lim s e t) : t.Balanced lim := by
  cases step with
  | connect fresh => exact balanced.connect fresh
  | @hold k n here idle fits =>
    refine balanced.goOn here ?_ ?_ ?_
    all_goals split <;> simp [Holder.ofAll, Holder.ofClient, Holder.Loaded, idle]
  | load here at_ =>
    exact balanced.goOn here (by simp [Holder.ofAll, at_]) (by simp [Holder.ofClient, at_]) balanced.bodies_le
  | @take k n used here at_ room same =>
    subst same
    have fits := lim.bodies_lt
    have le := balanced.bodies_le
    rw [sizeSub_of_le le] at room
    rw [sizeAdd_of_lt (by omega)]
    exact balanced.all_change here (by simp [Holder.ofAll, at_]; omega)
      (by simp [Holder.ofClient, at_]) (by omega) trivial
  | retry here at_ room =>
    exact balanced.goOn here (by simp [Holder.ofAll, at_]) (by simp [Holder.ofClient, at_]) balanced.bodies_le
  | full here at_ room =>
    exact balanced.goOn here (by simp [Holder.ofAll, at_]) (by simp [Holder.ofClient, at_]) trivial
  | loadClient here at_ =>
    exact balanced.goOn here (by simp [Holder.ofAll, at_]) (by simp [Holder.ofClient, at_]) (balanced.held_le _)
  | @takeClient k n used here at_ room same =>
    subst same
    have fits := lim.clientBodies_lt
    have le := balanced.held_le (s.conn k).client
    rw [sizeSub_of_le le] at room
    rw [sizeAdd_of_lt (by omega)]
    exact balanced.client_change here (by simp [Holder.ofAll, at_])
      (by simp [Holder.ofClient, at_]; omega) (by omega) trivial
  | retryClient here at_ room =>
    exact balanced.goOn here (by simp [Holder.ofAll, at_]) (by simp [Holder.ofClient, at_]) (balanced.held_le _)
  | fullClient here at_ room =>
    exact balanced.goOn here (by simp [Holder.ofAll, at_]) (by simp [Holder.ofClient, at_]) trivial
  | @giveBack k n here at_ =>
    have fits := lim.bodies_lt
    have le := balanced.bodies_le
    have part := balanced.ofAll_le here
    simp only [Holder.ofAll, at_] at part
    rw [sizeSub_of_le (by omega)]
    exact balanced.all_change here (by simp [Holder.ofAll, at_]; omega)
      (by simp [Holder.ofClient, at_]) (by omega) trivial
  | refuse here at_ =>
    exact balanced.goOn here (by simp [Holder.ofAll, at_]) (by simp [Holder.ofClient, at_]) trivial
  | @record k n here at_ =>
    have fits := lim.bodies_lt
    have le := balanced.bodies_le
    have part := balanced.ofAll_le here
    simp only [Holder.ofAll, at_] at part
    rw [sizeAdd_of_lt (by omega)]
    refine balanced.change here _ ?_ (fun c => ?_) balanced.bodies_le balanced.held_le trivial
    · simp [Holder.ofAll, at_]
    · simp [Holder.ofClientOf, Holder.ofClient, at_]
  | unhold here idle holds =>
    exact balanced.goOn here (by simp [Holder.ofAll, idle]) (by simp [Holder.ofClient, idle]) trivial
  | unheld here idle empty =>
    exact balanced.rest here empty (by simp [Holder.ofAll, idle, empty]) (by simp [Holder.ofClient, idle, empty])
  | @release k closes here at_ =>
    have fits := lim.bodies_lt
    have le := balanced.bodies_le
    have part := balanced.ofAll_le here
    simp only [Holder.ofAll, at_] at part
    rw [sizeSub_of_le (by omega)]
    exact balanced.all_change here (by simp [Holder.ofAll, at_]; omega)
      (by simp [Holder.ofClient, at_]) (by omega) trivial
  | @releaseClient k closes here at_ =>
    have fits := lim.clientBodies_lt
    have le := balanced.held_le (s.conn k).client
    have part := balanced.ofClient_le here
    simp only [Holder.ofClient, at_] at part
    rw [sizeSub_of_le (by omega)]
    exact balanced.client_change here (by simp [Holder.ofAll, at_])
      (by simp [Holder.ofClient, at_]; omega) (by omega) trivial
  | @clear k closes here at_ =>
    have emptied : Balanced lim { s with conn := Function.update s.conn k { s.conn k with held := 0 } } := by
      refine balanced.change here _ ?_ (fun c => ?_) balanced.bodies_le balanced.held_le ?_
      · simp [Holder.ofAll, at_]
      · simp [Holder.ofClientOf, Holder.ofClient, at_]
      · simp [Holder.Loaded, at_]
    refine emptied.rest here ?_ ?_ ?_
    · simp
    · simp [Holder.ofAll, at_]
    · simp [Holder.ofClient, at_]

/-- In every state that a run reaches, the counts are what the connections hold. -/
theorem balanced_of_trace {conn : K → Holder C} (run : Trace (BudgetStep lim) (start conn) es s) : s.Balanced lim :=
  run.invariant (start_balanced conn) fun _ _ _ balanced step => balanced.step step

/-! ## A hold refused -/

/-- What a hold under way leaves of a connection, which unholds nothing meanwhile. -/
structure Steady (k : K) (s t : Budgets K C) : Prop where
  held : (t.conn k).held = (s.conn k).held
  client : (t.conn k).client = (s.conn k).client
  holding : ∀ closes, (t.conn k).at_ ≠ .unholds closes ∧ (t.conn k).at_ ≠ .unholdsClient closes ∧
    (t.conn k).at_ ≠ .clears closes

omit [DecidableEq C] in
/-- The connection `k` goes on in its hold. -/
theorem Steady.goOn {k : K} {bodies : Nat} {held : C → Nat}
    (holds : ∀ closes, holding ≠ .unholds closes ∧ holding ≠ .unholdsClient closes ∧ holding ≠ .clears closes) :
    Steady k s (Budgets.at_ { s with bodies, held } k holding) := by
  have self : (Budgets.at_ { s with bodies, held } k holding).conn k =
      { s.conn k with at_ := holding } := Function.update_self ..
  exact ⟨by rw [self], by rw [self], by rwa [self]⟩

omit [DecidableEq C] in
/-- What one connection does leaves the others. -/
theorem conn_of_ne {j k : K} (other : k ≠ j) : (s.at_ j holding).conn k = s.conn k :=
  Function.update_of_ne other ..

/-- A step of one connection leaves the others. -/
theorem others_of_step {k : K} {e : BudgetEvent K C} (here : k ∈ s.connected) (other : k ≠ e.who)
    (step : BudgetStep lim s e t) : k ∈ t.connected ∧ t.conn k = s.conn k := by
  have stays {j : K} (differs : k ≠ j) (closes : Bool) : k ∈ if closes then s.connected.erase j else s.connected := by
    cases closes with
    | false => exact here
    | true => exact Finset.mem_erase.mpr ⟨differs, here⟩
  cases step with
  | connect fresh => exact ⟨Finset.mem_insert_of_mem here, Function.update_of_ne other ..⟩
  | hold | load | take | retry | full | loadClient | takeClient | retryClient | fullClient | giveBack | refuse | unhold | release | releaseClient =>
    exact ⟨here, conn_of_ne other⟩
  | record here' at_ => exact ⟨here, Function.update_of_ne other ..⟩
  | unheld here' idle empty => exact ⟨stays other _, conn_of_ne other⟩
  | clear here' at_ =>
    exact ⟨stays other _, (conn_of_ne other).trans (Function.update_of_ne other ..)⟩

theorem steady_of_step {k : K} {e : BudgetEvent K C} (here : k ∈ s.connected)
    (holding : ∀ closes, (s.conn k).at_ ≠ .unholds closes ∧
      (s.conn k).at_ ≠ .unholdsClient closes ∧ (s.conn k).at_ ≠ .clears closes)
    (own : e.who = k → e = .goOn k) (step : BudgetStep lim s e t) : k ∈ t.connected ∧ Steady k s t := by
  by_cases mine : e.who = k
  · obtain rfl := own mine
    cases step with
    | load here' at_ => exact ⟨here, Steady.goOn fun _ => by simp⟩
    | take here' at_ room same => exact ⟨here, Steady.goOn fun _ => by simp⟩
    | retry here' at_ room => exact ⟨here, Steady.goOn fun _ => by simp⟩
    | full here' at_ room => exact ⟨here, Steady.goOn fun _ => by simp⟩
    | loadClient here' at_ => exact ⟨here, Steady.goOn fun _ => by simp⟩
    | takeClient here' at_ room same => exact ⟨here, Steady.goOn fun _ => by simp⟩
    | retryClient here' at_ room => exact ⟨here, Steady.goOn fun _ => by simp⟩
    | fullClient here' at_ room => exact ⟨here, Steady.goOn fun _ => by simp⟩
    | giveBack here' at_ => exact ⟨here, Steady.goOn fun _ => by simp⟩
    | release here' at_ => exact absurd at_ (holding _).1
    | releaseClient here' at_ => exact absurd at_ (holding _).2.1
    | clear here' at_ => exact absurd at_ (holding _).2.2
  · obtain ⟨stays, same⟩ := others_of_step here (Ne.symm mine) step
    refine ⟨stays, ?_, ?_, ?_⟩
    · rw [same]
    · rw [same]
    · rwa [same]

/-- A hold under way, whatever the other connections do, leaves what its connection holds. -/
theorem steady_of_trace {k : K} (run : Trace (BudgetStep lim) s es t) (here : k ∈ s.connected)
    (holding : ∀ closes, (s.conn k).at_ ≠ .unholds closes ∧
      (s.conn k).at_ ≠ .unholdsClient closes ∧ (s.conn k).at_ ≠ .clears closes)
    (own : ∀ e ∈ es, e.who = k → e = .goOn k) : k ∈ t.connected ∧ Steady k s t := by
  induction run with
  | nil => exact ⟨here, rfl, rfl, holding⟩
  | @snoc es t u e _ step ih =>
    have before := ih fun e member => own e (List.mem_append_left _ member)
    have after := steady_of_step before.1 before.2.holding
      (own e (List.mem_append_right _ (List.mem_singleton_self e))) step
    exact ⟨after.1, after.2.held.trans before.2.held, after.2.client.trans before.2.client, after.2.holding⟩

/-- A hold that is refused leaves its connection as it was. -/
theorem refused_eq {k : K} {n : Nat} (run : Trace (BudgetStep lim) s ([.hold k n] ++ es ++ [.refuse k]) t)
    (own : ∀ e ∈ es, e.who = k → e = .goOn k) : t.conn k = s.conn k := by
  obtain ⟨v, front, last⟩ := run.split
  obtain ⟨u, first, middle⟩ := front.split
  have hold := first.of_single
  have refuse := last.of_single
  cases hold with
  | hold here idle fits =>
    have start : Steady k s (s.at_ k (if n = 0 then .idle else .loads n)) :=
      Steady.goOn fun _ => by split <;> simp
    obtain ⟨-, steady⟩ := steady_of_trace middle here start.holding own
    cases refuse with
    | refuse here' at_ =>
      calc
        (v.at_ k .idle).conn k = ⟨(v.conn k).client, (v.conn k).held, .idle⟩ :=
          Function.update_self ..
        _ = ⟨(s.conn k).client, (s.conn k).held, (s.conn k).at_⟩ := by
          rw [steady.held, steady.client, start.held, start.client, idle]

/-- In every run, the counts stay within their limits and are what the connections hold, a hold
refused leaves both as they were, and both are 0 once no connection is left. -/
theorem body_budgets {conn : K → Holder C} {es : List (BudgetEvent K C)}
    (run : Trace (BudgetStep lim) (start conn) es s) : s.bodies ≤ lim.bodies ∧ (∀ c, s.held c ≤ lim.clientBodies) ∧
      s.bodies = ∑ k ∈ s.connected, (s.conn k).ofAll ∧
      (∀ c, s.held c = ∑ k ∈ s.connected with (s.conn k).client = c, (s.conn k).ofClient) ∧
      (∀ k n fs t, Trace (BudgetStep lim) s ([.hold k n] ++ fs ++ [.refuse k]) t → (∀ e ∈ fs, e.who = k → e = .goOn k) →
        t.conn k = s.conn k ∧ (t.connected = s.connected → (∀ j ≠ k, t.conn j = s.conn j) →
            t.bodies = s.bodies ∧ t.held = s.held)) ∧ (s.connected = ∅ → s.bodies = 0) ∧
      (∀ c, (∀ k ∈ s.connected, (s.conn k).client ≠ c) → s.held c = 0) := by
  have balanced : s.Balanced lim := balanced_of_trace run
  have clients (c : C) : s.held c = ∑ k ∈ s.connected with (s.conn k).client = c, (s.conn k).ofClient := by
    rw [← balanced.clients c, Finset.sum_filter]
    rfl
  refine ⟨balanced.bodies_le, balanced.held_le, balanced.all.symm, clients, ?_, ?_, ?_⟩
  · intro k n fs t refused own
    have same := refused_eq refused own
    refine ⟨same, fun connected others => ?_⟩
    have after : t.Balanced lim := balanced_of_trace (run.append refused)
    have conns : t.conn = s.conn := by
      funext j
      by_cases at_k : j = k
      · rw [at_k, same]
      · exact others j at_k
    constructor
    · rw [← after.all, ← balanced.all, connected, conns]
    · funext c
      rw [← after.clients c, ← balanced.clients c, connected, conns]
  · intro none_left
    rw [← balanced.all, none_left, Finset.sum_empty]
  · intro c none_left
    rw [clients c, Finset.filter_eq_empty_iff.mpr fun k member => none_left k member, Finset.sum_empty]

/-- A connection has taken 3 bytes from the count of all, and is about to take them from its
client's. -/
def threeTaken : Budgets Unit Unit :=
  { bodies := 3
    held := fun _ => 0
    connected := {()}
    conn := fun _ => { client := (), held := 0, at_ := .loadsClient 3 } }

theorem body_budgets_threeTaken : threeTaken.bodies ≤ 8 ∧
      threeTaken.bodies = ∑ k ∈ threeTaken.connected, (threeTaken.conn k).ofAll := by
  let lim : BodyLimits :=
    { bodies := 8, clientBodies := 4, bodies_lt := by decide, clientBodies_lt := by decide }
  let s : Budgets Unit Unit := start fun _ => { client := (), held := 0, at_ := .idle }
  have connect := Trace.nil.snoc (@BudgetStep.connect _ _ _ _ lim s () () (by decide))
  have hold := connect.snoc (@BudgetStep.hold _ _ _ _ lim _ () 3 (by decide) rfl (by decide))
  have load := hold.snoc (@BudgetStep.load _ _ _ _ lim _ () 3 (by decide) rfl)
  have take := load.snoc (@BudgetStep.take _ _ _ _ lim _ () 3 0 (by decide) rfl (by decide) rfl)
  have balanced := body_budgets (s := threeTaken) take
  exact ⟨balanced.1, balanced.2.2.1⟩

end Budgets

end Askai
