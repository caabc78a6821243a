import Askai.Door.Steps

/-!
# The door's accounts in every run

The counts of home and of the loops, the entries of the clients, the places of the storages and the
descriptors agree in every state that the door comes to.
-/

namespace Askai.Door

open Library

variable {n x k i fd : Nat} {peer : Peer} {s t : State} {conn : Conn} {client : Client}

namespace Entries

/-- A connection is placed, and counted in its client's entry. -/
theorem place (entries : Entries s) (books : Books n s)
    (below : ∀ j, (s.clients j).inTable = true → (s.clients j).addr = peer → s.cap ≠ 0 → (s.clients j).conns < s.cap)
    (entry : ClientGet s peer k client) (clients : t.clients = Function.update s.clients k client)
    (made : t.clientsMade = max s.clientsMade (k + 1)) (cap : t.cap = s.cap)
    (conns : t.conns = Function.update s.conns x (conn.place i k fd peer)) : Entries t := by
  have counted := entries.counted entry
  have own : t.clients k = client := by
    rw [clients, Function.update_self]
  have others : ∀ j, j ≠ k → t.clients j = s.clients j := by
    intro j other
    rw [clients, Function.update_of_ne other]
  -- an entry in the table by that address is the one that was found
  have same : ∀ j, (s.clients j).inTable = true → (s.clients j).addr = peer → j = k := by
    intro j inTable addr
    rcases counted.before with ⟨inTable_, addr_⟩ | ⟨-, absent⟩
    · exact entries.unique j k inTable inTable_ (addr.trans addr_.symm)
    · exact absurd addr (absent j inTable)
  constructor
  · intro j
    rcases eq_or_ne j k with rfl | other
    · rw [own]
      constructor
      · rw [counted.inTable, counted.conns]
        simp
      · rw [counted.gone]
        nofun
    · rw [others j other]
      exact entries.fair j
  · intro j past
    rw [made] at past
    rw [others j (by omega)]
    exact entries.blank j (by omega)
  · intro j l inTable inTable_ addr
    rcases eq_or_ne j k with rfl | other <;> rcases eq_or_ne l j with rfl | apart
    · rfl
    · rw [others l apart] at inTable_ addr
      rw [own, counted.addr] at addr
      exact (same l inTable_ addr.symm).symm
    · rfl
    · rw [others j other] at inTable addr
      rcases eq_or_ne l k with rfl | away
      · rw [own, counted.addr] at addr
        exact same j inTable addr
      · rw [others l away] at inTable_ addr
        exact entries.unique j l inTable inTable_ addr
  · intro j some_
    rw [cap] at some_ ⊢
    rcases eq_or_ne j k with rfl | other
    · rw [own, counted.conns]
      rcases counted.before with ⟨inTable, addr⟩ | ⟨none_, -⟩
      · exact below j inTable addr some_
      · omega
    · rw [others j other]
      exact entries.below j some_
  · intro y j client_eq
    rw [conns] at client_eq ⊢
    rcases eq_or_ne y x with rfl | other
    · rw [Function.update_self] at client_eq ⊢
      obtain rfl := Option.some.inj client_eq
      rw [own, counted.addr]
      rfl
    · rw [Function.update_of_ne other] at client_eq ⊢
      have peer_eq := entries.peers y j client_eq
      rcases eq_or_ne j k with rfl | away
      · have some_ : s.conns y ≠ {} := ne_of_apply_ne Conn.client (by rw [client_eq]; nofun)
        have named := books.named (books.known some_) client_eq
        rcases counted.before with ⟨-, addr⟩ | ⟨none_, -⟩
        · rw [own, counted.addr, peer_eq, addr]
        · omega
      · rw [others j away]
        exact peer_eq

/-- An entry counts one connection less; its last takes it from the table. -/
theorem put (entries : Entries s) (counts : 1 ≤ (s.clients k).conns)
    (clients : t.clients = Function.update s.clients k (s.clients k).put)
    (made : t.clientsMade = max s.clientsMade (k + 1)) (cap : t.cap = s.cap)
    (conns : t.conns = Function.update s.conns x (s.conns x).back) : Entries t := by
  have fair := entries.fair k
  have inTable : (s.clients k).inTable = true := fair.inTable.mpr (by omega)
  have put_fair : (s.clients k).put.Fair := by
    unfold Client.put
    split
    · next last => exact ⟨by simp, fun _ => rfl⟩
    · next more =>
        constructor
        · exact ⟨fun _ => more, fun _ => inTable⟩
        · exact fair.gone
  have put_conns : (s.clients k).put.conns ≤ (s.clients k).conns := by
    unfold Client.put
    split
    · exact Nat.zero_le _
    · exact Nat.sub_le _ _
  have put_addr : (s.clients k).put.addr = (s.clients k).addr := by
    unfold Client.put
    split <;> rfl
  have own : t.clients k = (s.clients k).put := by
    rw [clients, Function.update_self]
  have others : ∀ j, j ≠ k → t.clients j = s.clients j := by
    intro j other
    rw [clients, Function.update_of_ne other]
  have addr : ∀ j, (t.clients j).addr = (s.clients j).addr := by
    intro j
    rw [clients]
    exact update_apply_eq Client.addr put_addr j
  have was : ∀ j, (t.clients j).inTable = true → (s.clients j).inTable = true := by
    intro j here
    rcases eq_or_ne j k with rfl | other
    · exact inTable
    · rw [others j other] at here
      exact here
  constructor
  · intro j
    rcases eq_or_ne j k with rfl | other
    · rw [own]
      exact put_fair
    · rw [others j other]
      exact entries.fair j
  · intro j past
    rw [made] at past
    rw [others j (by omega)]
    exact entries.blank j (by omega)
  · intro j l here there same
    rw [addr, addr] at same
    exact entries.unique j l (was j here) (was l there) same
  · intro j some_
    rw [cap] at some_ ⊢
    have before := entries.below j some_
    rcases eq_or_ne j k with rfl | other
    · rw [own]
      omega
    · rw [others j other]
      exact before
  · intro y j client_eq
    rw [conns] at client_eq ⊢
    rw [addr]
    rcases eq_or_ne y x with rfl | other
    · rw [Function.update_self] at client_eq
      cases client_eq
    · rw [Function.update_of_ne other] at client_eq ⊢
      exact entries.peers y j client_eq

/-- A gone entry is freed. -/
theorem freeClient (entries : Entries s) (books : Books n s) (gone : (s.clients k).gone = true) :
    Entries (s.setClient k {}) := by
  have none_ := (entries.fair k).conns_eq_zero gone
  have own : (s.setClient k {}).clients k = {} := Function.update_self ..
  have others : ∀ j, j ≠ k → (s.setClient k {}).clients j = s.clients j :=
    fun j other => Function.update_of_ne other ..
  have here : ∀ j, ((s.setClient k {}).clients j).inTable = true → j ≠ k := by
    rintro j inTable rfl
    rw [own] at inTable
    cases inTable
  constructor
  · intro j
    rcases eq_or_ne j k with rfl | other
    · rw [own]
      exact ⟨by simp, nofun⟩
    · rw [others j other]
      exact entries.fair j
  · intro j past
    have past : max s.clientsMade (k + 1) ≤ j := past
    rw [others j (by omega)]
    exact entries.blank j (by omega)
  · intro j l inTable inTable_ addr
    have apart := here j inTable
    have apart_ := here l inTable_
    rw [others j apart] at inTable addr
    rw [others l apart_] at inTable_ addr
    exact entries.unique j l inTable inTable_ addr
  · intro j some_
    rcases eq_or_ne j k with rfl | other
    · rw [own]
      exact Nat.zero_le _
    · rw [others j other]
      exact entries.below j some_
  · intro y j client_eq
    change (s.conns y).client = some j at client_eq
    rcases eq_or_ne j k with rfl | other
    · have some_ : s.conns y ≠ {} := ne_of_apply_ne Conn.client (by rw [client_eq]; nofun)
      have named := books.named (books.known some_) client_eq
      omega
    · rw [others j other]
      exact entries.peers y j client_eq

end Entries

/-- What the entries do not depend on. -/
theorem Entries.other (entries : Entries s) (clients : t.clients = s.clients)
    (made : t.clientsMade = s.clientsMade) (cap : t.cap = s.cap) (conns : t.conns = s.conns) : Entries t := by
  apply entries.keep cap
  · intro k
    rw [clients]
    exact ⟨rfl, rfl, rfl, rfl⟩
  · rw [clients, made]
    exact entries.blank
  · intro x k client
    rw [conns] at client ⊢
    exact ⟨client, rfl⟩

/-- Every step of the door keeps its accounts. -/
theorem Step.keeps (books : Books n s) (entries : Entries s) {e : Unit} (step : Step n s e t) :
    Books n t ∧ Entries t := by
  have same : ∀ {x conn}, conn.client = (s.conns x).client → conn.peer = (s.conns x).peer →
      Entries (s.setConn x conn) := by
    intro x conn client peer
    apply entries.setConn
    intro k some_
    rw [client] at some_
    exact ⟨some_, peer⟩
  cases step with
  | turnAway fd fresh => exact ⟨books.turnAway fresh, entries.other rfl rfl rfl rfl⟩
  | @placeFails x conn fd fresh storage =>
    have client := (books.inHand storage).2.2.2.2.2.2.1
    have kept : Entries (s.setConn x { conn with hook := some .spare }) := by
      apply entries.setConn
      intro k some_
      cases client.symm.trans some_
    exact ⟨(books.placeFails storage).turnAway fresh, kept.other rfl rfl rfl rfl⟩
  | place fd peer fresh below storage entry inside =>
    exact ⟨books.place entries fresh storage entry inside, entries.place books below entry rfl rfl rfl rfl⟩
  | back mail fn client =>
    have known := (books.home mail).1
    exact ⟨books.back mail client, entries.put (books.named known client) rfl rfl rfl rfl⟩
  | freeConn kept => exact ⟨books.freeConn kept, entries.setConn nofun⟩
  | freeClient gone => exact ⟨books.freeClient entries gone, entries.freeClient books gone⟩
  | take mail fn runs => exact ⟨books.take mail, same rfl rfl⟩
  | @setup x i taken open_ =>
    have kept : Entries (s.setConn x ((s.conns x).setup i)) := same rfl rfl
    exact ⟨books.setup taken, kept.other rfl rfl rfl rfl⟩
  | @refuse x i fd taken fd_eq =>
    have kept : Entries (s.setConn x (s.conns x).refuse) := same rfl rfl
    exact ⟨books.refuse taken fd_eq, kept.other rfl rfl rfl rfl⟩
  | @park x i idle listed =>
    have kept : Entries (s.setConn x ((s.conns x).park i idle)) := same rfl rfl
    exact ⟨books.park idle listed, kept.other rfl rfl rfl rfl⟩
  | @hold x i k m listed client =>
    have counts := books.named (books.onList listed).1 client
    have kept : Entries (s.setConn x { s.conns x with held := (s.conns x).held + m }) :=
      same rfl rfl
    exact ⟨books.setHeld listed client (by omega), kept.setHeld counts _⟩
  | @unhold x i k listed client =>
    have known := (books.onList listed).1
    have counts := books.named known client
    have held := books.held_le known client
    have kept : Entries (s.setConn x { s.conns x with held := 0 }) := same rfl rfl
    exact ⟨books.setHeld listed client (by omega), kept.setHeld counts _⟩
  | @close x i k fd listed client fd_eq =>
    have counts := books.named (books.onList listed).1 client
    have kept : Entries (s.setConn x (s.conns x).close) := same rfl rfl
    have held := kept.setHeld counts ((s.clients k).held - (s.conns x).held)
    exact ⟨books.close listed client fd_eq, held.other rfl rfl rfl rfl⟩
  | release released => exact ⟨books.release released, same rfl rfl⟩
  | drain inside => exact ⟨books.drain _, entries.other rfl rfl rfl rfl⟩

/-! ## Runs -/

/-- A run of home and of `n` client loops. -/
abbrev Run (n cap : Nat) (events : List Unit) (s : State) : Prop :=
  Trace (Step n) (start cap) events s

theorem start_books (n cap : Nat) : Books n (start cap) where
  conns := fun _ => .inl rfl
  blank := fun _ _ => rfl
  total := rfl
  lanes := fun _ => rfl
  clients := fun _ => rfl
  held := fun _ => rfl
  listed := fun _ => rfl
  idles := fun _ => rfl
  fds := fun _ => rfl

theorem start_entries (cap : Nat) : Entries (start cap) where
  fair := fun _ => ⟨by simp [start], nofun⟩
  blank := fun _ _ => rfl
  unique := nofun
  below := fun _ _ => Nat.zero_le _
  peers := nofun

theorem run_keeps {cap : Nat} {events : List Unit} (run : Run n cap events s) : Books n s ∧ Entries s := by
  change (fun s => Books n s ∧ Entries s) s
  apply run.invariant
  · exact ⟨start_books n cap, start_entries cap⟩
  · exact fun _ _ _ kept step => step.keeps kept.1 kept.2

/-- What is placed on the lanes is what is placed. -/
theorem Books.total_eq (books : Books n s) : s.total = tally n Server.placed s.servers := by
  have split : ∀ x, (s.conns x).placed = ∑ i ∈ Finset.range n, (s.conns x).placedOn i := by
    intro x
    rcases books.conns x with none_ | ⟨p, here, inside⟩
    · rw [none_]
      exact (Finset.sum_const_zero (s := Finset.range n)).symm
    · rw [here.placed_eq]
      simp only [here.placedOn_eq]
      cases lane : p.lane with
      | none => simp
      | some i => simp [inside i lane]
  rw [books.total]
  unfold State.weigh tally
  simp only [split, books.lanes]
  rw [Finset.sum_comm]
  rfl

/-- Those from an address are those of its entry, if it has one. -/
theorem Books.ofPeer (books : Books n s) (entries : Entries s) (inTable : (s.clients k).inTable = true) :
    s.weigh (Conn.ofPeer (s.clients k).addr) = (s.clients k).conns := by
  rw [books.clients k]
  unfold State.weigh tally
  apply Finset.sum_congr rfl
  intro x mem
  have known := Finset.mem_range.mp mem
  unfold Conn.ofPeer Conn.ofClient
  cases client : (s.conns x).client with
  | none => simp
  | some j =>
    have counts := books.named known client
    have peer := entries.peers x j client
    have here := (entries.fair j).inTable.mpr (by omega)
    rw [peer]
    rcases eq_or_ne j k with rfl | other
    · simp
    · have apart : (s.clients j).addr ≠ (s.clients k).addr :=
        fun same => other (entries.unique j k here inTable same)
      simp [apart, other]

theorem Books.ofPeer_absent (books : Books n s) (entries : Entries s) (peer : Peer)
    (absent : ∀ k, (s.clients k).inTable = true → (s.clients k).addr ≠ peer) : s.weigh (Conn.ofPeer peer) = 0 := by
  apply tally_eq_zero
  intro x known
  unfold Conn.ofPeer
  cases client : (s.conns x).client with
  | none => simp
  | some k =>
    have counts := books.named known client
    have here := (entries.fair k).inTable.mpr (by omega)
    rw [entries.peers x k client]
    simp [absent k here]

/-- In every state that the door comes to, home's count is that of the lanes, and that of the
connections placed and not given back; a client's entry counts those from its address, is the only one
by it, is in the table while it counts any, and keeps to the cap; each storage is in one place, with
a message only for the handler that its function names; a descriptor is closed once, unless its
connection still has it; a server counts its two lists and those flagged idle; and an entry holds
what its connections hold, and nothing on the shelf. -/
theorem accounts_balance {cap : Nat} {events : List Unit} (run : Run n cap events s) :
    s.total = tally n Server.placed s.servers ∧ s.total = s.weigh Conn.placed ∧ (∀ k, (s.clients k).inTable = true →
      (s.clients k).conns = s.weigh (Conn.ofPeer (s.clients k).addr)) ∧
    (∀ peer, (∀ k, (s.clients k).inTable = true → (s.clients k).addr ≠ peer) → s.weigh (Conn.ofPeer peer) = 0) ∧
    (∀ k, ((s.clients k).inTable = true ↔ (s.clients k).conns ≠ 0) ∧ (s.cap ≠ 0 → (s.clients k).conns ≤ s.cap)) ∧
    (∀ k j, (s.clients k).inTable = true → (s.clients j).inTable = true →
      (s.clients k).addr = (s.clients j).addr → k = j) ∧
    (∀ x, (s.conns x).alive = true → ∃! p : Place, (s.conns x).At p) ∧
    (∀ fd, s.accepted fd = true → s.closes fd + s.weigh (Conn.holds fd) = 1) ∧
    (∀ i, (s.servers i).conns = s.weigh (Conn.listedOn i) ∧ (s.servers i).idles = s.weigh (Conn.idleOn i)) ∧
    (∀ k, (s.clients k).held = s.weigh (Conn.heldOf k) ∧ ((s.clients k).gone = true → (s.clients k).held = 0)) := by
  obtain ⟨books, entries⟩ := run_keeps run
  refine ⟨books.total_eq, books.total, fun k inTable => (books.ofPeer entries inTable).symm,
    books.ofPeer_absent entries, fun k => ⟨(entries.fair k).inTable, entries.below k⟩,
    entries.unique, ?_, ?_, fun i => ⟨books.listed i, books.idles i⟩, fun k => ⟨books.held k, fun gone => ?_⟩⟩
  · intro x alive
    have some_ : s.conns x ≠ {} := ne_of_apply_ne Conn.alive (by rw [alive]; nofun)
    obtain ⟨p, here, -⟩ := books.at_ some_
    exact ⟨p, here, fun q there => there.unique here⟩
  · intro fd accepted
    have balance := books.fds fd
    rw [accepted] at balance
    exact balance
  · exact books.held_eq_zero ((entries.fair k).conns_eq_zero gone)

/-- A client that is placed and set up. -/
theorem accounts_balance_placed : ∃ events s, Run 1 2 events s ∧ s.total = 1 ∧
    (s.servers 0).conns = 1 ∧ s.weigh (Conn.ofPeer 7) = 1 := by
  have placed : Run 1 2 _ _ :=
    .snoc .nil (.place (i := 0) 5 7 rfl nofun (.malloc nofun) (.malloc nofun fun _ => rfl) Nat.one_pos)
  have taken : Run 1 2 _ _ := .snoc placed (.take (x := 0) (i := 0) rfl rfl rfl)
  have ready : Run 1 2 _ _ := .snoc taken (.setup (x := 0) (i := 0) rfl rfl)
  exact ⟨_, _, ready, rfl, rfl, ((accounts_balance ready).2.2.1 0 rfl).symm⟩

end Askai.Door
