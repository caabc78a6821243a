import Askai.Door.Accounts

/-!
# The door's steps

Each handler of home and of the loops keeps the accounts.
-/

namespace Askai.Door

open Library

variable {n x k i fd : Nat} {peer : Peer} {s t : State} {conn : Conn} {client : Client}

/-- What home counts a client in: an entry that is in the table by then, by the client's address. -/
structure Counted (s : State) (peer : Peer) (k : Nat) (client : Client) : Prop where
  inTable : client.inTable = true
  gone : client.gone = false
  addr : client.addr = peer
  conns : client.conns = (s.clients k).conns + 1
  held : client.held = (s.clients k).held
  known : k ≤ s.clientsMade
  before : (s.clients k).inTable = true ∧ (s.clients k).addr = peer ∨
    (s.clients k).conns = 0 ∧ ∀ j, (s.clients j).inTable = true → (s.clients j).addr ≠ peer

theorem Entries.counted (entries : Entries s) (entry : ClientGet s peer k client) : Counted s peer k client := by
  cases entry with
  | found inTable addr =>
    have gone : (s.clients k).gone = false := by
      cases gone : (s.clients k).gone with
      | false => rfl
      | true => exact nomatch ((entries.fair k).gone gone).symm.trans inTable
    have known : k ≤ s.clientsMade := by
      apply Nat.le_of_not_lt
      intro past
      rw [entries.blank k (Nat.le_of_lt past)] at inTable
      cases inTable
    exact ⟨inTable, gone, addr, rfl, rfl, known, .inl ⟨inTable, addr⟩⟩
  | reuse absent gone =>
    have none_ := (entries.fair k).conns_eq_zero gone
    have known : k ≤ s.clientsMade := by
      apply Nat.le_of_not_lt
      intro past
      rw [entries.blank k (Nat.le_of_lt past)] at gone
      cases gone
    exact ⟨rfl, rfl, rfl, by rw [none_], rfl, known, .inr ⟨none_, absent⟩⟩
  | malloc absent none_ =>
    have blank := entries.blank _ (Nat.le_refl _)
    refine ⟨rfl, rfl, rfl, ?_, ?_, Nat.le_refl _, .inr ⟨?_, absent⟩⟩ <;> rw [blank]

namespace Books

/-- A storage goes from a place to another, and no count changes. -/
theorem quiet (books : Books n s) (known : x ≤ s.made) (placed : conn.Placed n)
    (same : conn.Weighs (s.conns x)) : Books n (s.setConn x conn) := by
  refine books.move rfl rfl known placed ?_ ?_ ?_ ?_ ?_ ?_ ?_
  · rw [same.placed]
    rfl
  · intro i
    rw [same.placedOn]
    rfl
  · intro k
    rw [same.ofClient]
    rfl
  · intro k
    rw [same.heldOf]
    rfl
  · intro i
    rw [same.listedOn]
    rfl
  · intro i
    rw [same.idleOn]
    rfl
  · intro f
    rw [same.holds]
    rfl

theorem take (books : Books n s) (mail : (s.conns x).mail = some (.lane i)) :
    Books n (s.setConn x (s.conns x).take) := by
  obtain ⟨known, inside, here⟩ := books.lane mail
  refine books.quiet (Nat.le_of_lt known) (.inr ⟨_, here.take, ?_⟩) ?_
  · rintro j ⟨⟩
    exact inside
  · exact here.take.weighs here rfl (fun _ => rfl) (fun _ => rfl) rfl rfl rfl

theorem release (books : Books n s) (released : (s.conns x).released = true) :
    Books n (s.setConn x (s.conns x).release) := by
  obtain ⟨known, i, inside, here⟩ := books.released released
  refine books.quiet (Nat.le_of_lt known) (.inr ⟨_, here.release, ?_⟩) ?_
  · rintro j ⟨⟩
    exact inside
  · exact here.release.weighs here rfl (fun _ => rfl) (fun _ => rfl) rfl rfl rfl

theorem freeConn (books : Books n s) (kept : (s.conns x).hook = some .spare) : Books n (s.setConn x {}) := by
  obtain ⟨known, here⟩ := books.spare kept
  exact books.quiet (Nat.le_of_lt known) (.inl rfl) (weightless_blank.weighs here.weightless)

/-- A descriptor is closed, and its connection holds it no more. -/
theorem closed (fd_eq : (s.conns x).fd = some fd) (none_ : conn.fd = none) (f : Nat) :
    Function.update s.closes fd (s.closes fd + 1) f + conn.holds f + (s.accepted f).toNat =
      s.closes f + (s.conns x).holds f + (s.accepted f).toNat := by
  rw [Conn.holds, Conn.holds, fd_eq, none_]
  rcases eq_or_ne f fd with rfl | other
  · rw [Function.update_self, if_pos rfl, if_neg (by simp)]
  · rw [Function.update_of_ne other, if_neg fun same => other (Option.some.inj same).symm, if_neg (by simp)]

/-- A descriptor that is closed as it is accepted. -/
theorem turnAway (books : Books n s) (fresh : s.accepted fd = false) : Books n ((s.accept fd).close fd) := by
  refine ⟨books.conns, books.blank, books.total, books.lanes, books.clients, books.held, books.listed, books.idles, ?_⟩
  intro f
  have before := books.fds f
  change Function.update s.closes fd (s.closes fd + 1) f + s.weigh (Conn.holds f) =
    (Function.update s.accepted fd true f).toNat
  rcases eq_or_ne f fd with rfl | other
  · rw [fresh] at before
    rw [Function.update_self, Function.update_self]
    change _ = 1
    change _ = 0 at before
    omega
  · rw [Function.update_of_ne other, Function.update_of_ne other]
    exact before

/-- The storage that no client was placed in goes to the shelf. -/
theorem placeFails (books : Books n s) (storage : HomeConn s x conn) :
    Books n (s.setConn x { conn with hook := some .spare }) := by
  obtain ⟨known, none_, alive, mail, -, released, client, fd, held⟩ := books.inHand storage
  have there : Conn.At { conn with hook := some .spare } .shelf := by
    constructor
    · exact alive
    · exact mail
    · rfl
    · exact released
    · nofun
    · nofun
    · exact congrArg Option.isSome client
    · exact congrArg Option.isSome fd
    · exact fun _ => held
    · nofun
  exact books.quiet known (.inr ⟨_, there, nofun⟩) (there.weightless.weighs none_)

theorem place (books : Books n s) (entries : Entries s) (fresh : s.accepted fd = false)
    (storage : HomeConn s x conn) (entry : ClientGet s peer k client) (inside : i < n) : Books n
      { (((s.setConn x (conn.place i k fd peer)).setClient k client).setServer i
          { s.servers i with placed := (s.servers i).placed + 1 }).accept fd with
        total := s.total + 1 } := by
  obtain ⟨known, none_, alive, -, hook, released, -, -, held⟩ := books.inHand storage
  have there : (conn.place i k fd peer).At (.toLane i) := .place alive hook released held
  have conns_eq := (entries.counted entry).conns
  have held_eq := (entries.counted entry).held
  refine books.move rfl rfl known (.inr ⟨_, there, ?_⟩) ?_ ?_ ?_ ?_ ?_ ?_ ?_
  · rintro j ⟨⟩
    exact inside
  · rw [none_.placed, there.placed_eq]
    rfl
  · intro j
    rw [none_.placedOn, there.placedOn_eq]
    change (Function.update s.servers i _ j).placed + 0 = _ + if some i = some j then 1 else 0
    rcases eq_or_ne j i with rfl | other
    · rw [Function.update_self, if_pos rfl]
    · rw [Function.update_of_ne other, if_neg fun same => other (Option.some.inj same).symm]
  · intro j
    rw [none_.ofClient]
    change (Function.update s.clients k client j).conns + 0 = _ + if some k = some j then 1 else 0
    rcases eq_or_ne j k with rfl | other
    · rw [Function.update_self, if_pos rfl, conns_eq]
    · rw [Function.update_of_ne other, if_neg fun same => other (Option.some.inj same).symm]
  · intro j
    rw [none_.heldOf]
    have weight : (conn.place i k fd peer).heldOf j = 0 := by
      rw [Conn.heldOf]
      split
      · exact held
      · rfl
    rw [weight]
    exact congrArg (· + 0) (update_apply_eq Client.held held_eq j)
  · intro j
    rw [none_.listedOn, there.listedOn_eq]
    exact congrArg (· + _) (update_apply_eq Server.conns (by rfl) j)
  · intro j
    rw [none_.idleOn, there.idleOn_eq]
    exact congrArg (· + _) (update_apply_eq Server.idles (by rfl) j)
  · intro f
    rw [none_.holds]
    change s.closes f + (if some fd = some f then 1 else 0) + _ =
      _ + (Function.update s.accepted fd true f).toNat
    rcases eq_or_ne f fd with rfl | other
    · rw [Function.update_self, if_pos rfl, fresh]
      rfl
    · rw [Function.update_of_ne other, if_neg fun same => other (Option.some.inj same).symm]

theorem back (books : Books n s) (mail : (s.conns x).mail = some .home) (client_eq : (s.conns x).client = some k) :
    Books n
      { ((s.setConn x (s.conns x).back).setClient k (s.clients k).put).setServer (s.conns x).lane
          { s.servers (s.conns x).lane with placed := (s.servers (s.conns x).lane).placed - 1 } with
        total := s.total - 1 } := by
  obtain ⟨known, i, inside, here⟩ := books.home mail
  have none_ := here.back.weightless
  have conns_eq := books.named known client_eq
  have put_conns : (s.clients k).put.conns = (s.clients k).conns - 1 := by
    rw [Client.put]
    split
    · next last => exact last.symm
    · rfl
  have put_held : (s.clients k).put.held = (s.clients k).held := by
    rw [Client.put]
    split <;> rfl
  have one := le_weigh known Conn.placed
  rw [← books.total, here.placed_eq] at one
  have lane := here.lane i rfl
  have lane_one := le_weigh known (Conn.placedOn i)
  rw [← books.lanes i, here.placedOn_eq] at lane_one
  change (if some i = some i then 1 else 0) ≤ _ at lane_one
  rw [if_pos rfl] at lane_one
  have held : (s.conns x).held = 0 := here.held fun _ => rfl
  rw [lane]
  refine books.move rfl rfl (Nat.le_of_lt known) (.inr ⟨_, here.back, nofun⟩) ?_ ?_ ?_ ?_ ?_ ?_ ?_
  · rw [here.placed_eq, none_.placed]
    exact Nat.sub_add_cancel one
  · intro j
    rw [here.placedOn_eq, none_.placedOn]
    change (Function.update s.servers i _ j).placed + (if some i = some j then 1 else 0) = _
    rcases eq_or_ne j i with rfl | other
    · rw [Function.update_self, if_pos rfl]
      exact Nat.sub_add_cancel lane_one
    · rw [Function.update_of_ne other, if_neg fun same => other (Option.some.inj same).symm]
  · intro j
    rw [none_.ofClient, Conn.ofClient, client_eq]
    change (Function.update s.clients k _ j).conns + _ = _
    rcases eq_or_ne j k with rfl | other
    · rw [Function.update_self, if_pos rfl, put_conns]
      omega
    · rw [Function.update_of_ne other, if_neg fun same => other (Option.some.inj same).symm]
  · intro j
    rw [none_.heldOf, Conn.heldOf, held, ite_self]
    exact congrArg (· + _) (update_apply_eq Client.held put_held j)
  · intro j
    rw [here.listedOn_eq, none_.listedOn]
    exact congrArg (· + _) (update_apply_eq Server.conns (by rfl) j)
  · intro j
    rw [here.idleOn_eq, none_.idleOn]
    exact congrArg (· + _) (update_apply_eq Server.idles (by rfl) j)
  · intro f
    have fd : (s.conns x).fd = none := by simpa [Place.connected] using here.fd
    rw [none_.holds, Conn.holds, fd]
    rfl

theorem setup (books : Books n s) (taken : (s.conns x).hook = some (.taken i)) :
    Books n ((s.setConn x ((s.conns x).setup i)).setServer i (s.servers i).setup) := by
  obtain ⟨known, inside, here⟩ := books.taken taken
  have there := here.setup
  have held : (s.conns x).held = 0 := here.held fun _ => rfl
  refine books.move rfl rfl (Nat.le_of_lt known) (.inr ⟨_, there, ?_⟩) ?_ ?_ ?_ ?_ ?_ ?_ ?_
  · rintro j ⟨⟩
    exact inside
  · rw [here.placed_eq, there.placed_eq]
    rfl
  · intro j
    rw [here.placedOn_eq, there.placedOn_eq]
    exact congrArg (· + _) (update_apply_eq Server.placed (by rfl) j)
  · exact fun _ => rfl
  · intro j
    rw [Conn.heldOf, Conn.heldOf, held]
    rfl
  · intro j
    rw [here.listedOn_eq, there.listedOn_eq]
    change (Function.update s.servers i _ j).conns + 0 = _ + (decide (i = j)).toNat
    rcases eq_or_ne j i with rfl | other
    · rw [Function.update_self, decide_eq_true rfl]
      rfl
    · rw [Function.update_of_ne other, decide_eq_false other.symm]
      rfl
  · intro j
    rw [here.idleOn_eq, there.idleOn_eq]
    change (Function.update s.servers i _ j).idles + 0 = _ + (decide (i = j) && true).toNat
    rcases eq_or_ne j i with rfl | other
    · rw [Function.update_self, decide_eq_true rfl]
      rfl
    · rw [Function.update_of_ne other, decide_eq_false other.symm]
      rfl
  · exact fun _ => rfl

theorem refuse (books : Books n s) (taken : (s.conns x).hook = some (.taken i)) (fd_eq : (s.conns x).fd = some fd) :
    Books n ((s.setConn x (s.conns x).refuse).close fd) := by
  obtain ⟨known, inside, here⟩ := books.taken taken
  have there := here.refuse
  have held : (s.conns x).held = 0 := here.held fun _ => rfl
  refine books.move rfl rfl (Nat.le_of_lt known) (.inr ⟨_, there, ?_⟩) ?_ ?_ ?_ ?_ ?_ ?_ ?_
  · rintro j ⟨⟩
    exact inside
  · rw [here.placed_eq, there.placed_eq]
    rfl
  · intro j
    rw [here.placedOn_eq, there.placedOn_eq]
    rfl
  · exact fun _ => rfl
  · intro j
    rw [Conn.heldOf, Conn.heldOf, held]
    rfl
  · intro j
    rw [here.listedOn_eq, there.listedOn_eq]
    rfl
  · intro j
    rw [here.idleOn_eq, there.idleOn_eq]
    rfl
  · exact closed fd_eq rfl

theorem park (books : Books n s) (idle : Bool) (listed : (s.conns x).Listed i) : Books n
      ((s.setConn x ((s.conns x).park i idle)).setServer i ((s.servers i).park (s.conns x).idle idle)) := by
  obtain ⟨known, inside, here⟩ := books.onList listed
  have there := here.park idle
  have part := le_weigh known (Conn.idleOn i)
  rw [← books.idles i, here.idleOn_eq] at part
  change (decide (i = i) && (s.conns x).idle).toNat ≤ _ at part
  rw [decide_eq_true rfl, Bool.true_and] at part
  refine books.move rfl rfl (Nat.le_of_lt known) (.inr ⟨_, there, ?_⟩) ?_ ?_ ?_ ?_ ?_ ?_ ?_
  · rintro j ⟨⟩
    exact inside
  · rw [here.placed_eq, there.placed_eq]
    rfl
  · intro j
    rw [here.placedOn_eq, there.placedOn_eq]
    exact congrArg (· + _) (update_apply_eq Server.placed (by rfl) j)
  · exact fun _ => rfl
  · exact fun _ => rfl
  · intro j
    rw [here.listedOn_eq, there.listedOn_eq]
    exact congrArg (· + _) (update_apply_eq Server.conns (by rfl) j)
  · intro j
    rw [here.idleOn_eq, there.idleOn_eq]
    change (Function.update s.servers i _ j).idles + (decide (i = j) && (s.conns x).idle).toNat =
      _ + (decide (i = j) && idle).toNat
    rcases eq_or_ne j i with rfl | other
    · rw [Function.update_self, decide_eq_true rfl, Bool.true_and, Bool.true_and]
      change (s.servers j).idles + idle.toNat - (s.conns x).idle.toNat + _ = _
      omega
    · rw [Function.update_of_ne other, decide_eq_false other.symm]
      rfl
  · exact fun _ => rfl

/-- The bytes that a connection holds change, and with them its client's. -/
theorem setHeld (books : Books n s) (listed : (s.conns x).Listed i)
    (client_eq : (s.conns x).client = some k) {held count : Nat}
    (balance : count + (s.conns x).held = (s.clients k).held + held) :
    Books n ((s.setConn x { s.conns x with held }).setClient k { s.clients k with held := count }) := by
  obtain ⟨known, inside, here⟩ := books.onList listed
  have there := here.hold held
  refine books.move rfl rfl (Nat.le_of_lt known) (.inr ⟨_, there, ?_⟩) ?_ ?_ ?_ ?_ ?_ ?_ ?_
  · rintro j ⟨⟩
    exact inside
  · rw [here.placed_eq, there.placed_eq]
    rfl
  · exact fun _ => rfl
  · intro j
    exact congrArg (· + _) (update_apply_eq Client.conns (by rfl) j)
  · intro j
    rw [Conn.heldOf, Conn.heldOf, client_eq]
    change (Function.update s.clients k _ j).held + _ = _
    rcases eq_or_ne j k with rfl | other
    · rw [Function.update_self, if_pos rfl, if_pos rfl]
      exact balance
    · rw [Function.update_of_ne other, if_neg fun same => other (Option.some.inj same).symm,
        if_neg fun same => other (Option.some.inj same).symm]
  · exact fun _ => rfl
  · exact fun _ => rfl
  · exact fun _ => rfl

theorem close (books : Books n s) (listed : (s.conns x).Listed i)
    (client_eq : (s.conns x).client = some k) (fd_eq : (s.conns x).fd = some fd) :
    Books n ((((s.setConn x (s.conns x).close).setClient k
      { s.clients k with held := (s.clients k).held - (s.conns x).held }).setServer i
        ((s.servers i).close (s.conns x).idle)).close fd) := by
  obtain ⟨known, inside, here⟩ := books.onList listed
  have there := here.close
  have held_le := books.held_le known client_eq
  have part := le_weigh known (Conn.idleOn i)
  rw [← books.idles i, here.idleOn_eq] at part
  change (decide (i = i) && (s.conns x).idle).toNat ≤ _ at part
  rw [decide_eq_true rfl, Bool.true_and] at part
  have one := le_weigh known (Conn.listedOn i)
  rw [← books.listed i, here.listedOn_eq] at one
  change (decide (i = i)).toNat ≤ _ at one
  rw [decide_eq_true rfl] at one
  refine books.move rfl rfl (Nat.le_of_lt known) (.inr ⟨_, there, ?_⟩) ?_ ?_ ?_ ?_ ?_ ?_ ?_
  · rintro j ⟨⟩
    exact inside
  · rw [here.placed_eq, there.placed_eq]
    rfl
  · intro j
    rw [here.placedOn_eq, there.placedOn_eq]
    exact congrArg (· + _) (update_apply_eq Server.placed (by rfl) j)
  · intro j
    exact congrArg (· + _) (update_apply_eq Client.conns (by rfl) j)
  · intro j
    rw [Conn.heldOf, Conn.heldOf, client_eq]
    change (Function.update s.clients k _ j).held + _ = _ + ite ((s.conns x).client = some j) 0 0
    rw [ite_self]
    rcases eq_or_ne j k with rfl | other
    · rw [Function.update_self, if_pos rfl]
      exact Nat.sub_add_cancel held_le
    · rw [Function.update_of_ne other, if_neg fun same => other (Option.some.inj same).symm]
  · intro j
    rw [here.listedOn_eq, there.listedOn_eq]
    change (Function.update s.servers i _ j).conns + (decide (i = j)).toNat = _
    rcases eq_or_ne j i with rfl | other
    · rw [Function.update_self, decide_eq_true rfl]
      exact Nat.sub_add_cancel one
    · rw [Function.update_of_ne other, decide_eq_false other.symm]
      rfl
  · intro j
    rw [here.idleOn_eq, there.idleOn_eq]
    change (Function.update s.servers i _ j).idles + (decide (i = j) && (s.conns x).idle).toNat = _
    rcases eq_or_ne j i with rfl | other
    · rw [Function.update_self, decide_eq_true rfl, Bool.true_and]
      exact Nat.sub_add_cancel part
    · rw [Function.update_of_ne other, decide_eq_false other.symm]
      rfl
  · exact closed fd_eq rfl

theorem drain (books : Books n s) (exits : Bool) :
    Books n (s.setServer i { s.servers i with draining := true, exits }) := by
  refine ⟨books.conns, books.blank, books.total, fun j => ?_, books.clients, books.held,
    fun j => ?_, fun j => ?_, books.fds⟩
  · exact (update_apply_eq Server.placed (by rfl) j).trans (books.lanes j)
  · exact (update_apply_eq Server.conns (by rfl) j).trans (books.listed j)
  · exact (update_apply_eq Server.idles (by rfl) j).trans (books.idles j)

theorem freeClient (books : Books n s) (entries : Entries s)
    (gone : (s.clients k).gone = true) : Books n (s.setClient k {}) := by
  have none_ := (entries.fair k).conns_eq_zero gone
  have nothing := books.held_eq_zero none_
  refine ⟨books.conns, books.blank, books.total, books.lanes, fun j => ?_, fun j => ?_,
    books.listed, books.idles, books.fds⟩
  · exact (update_apply_eq Client.conns none_.symm j).trans (books.clients j)
  · exact (update_apply_eq Client.held nothing.symm j).trans (books.held j)

end Books

end Askai.Door
