import Askai.Door.Places

/-!
# The door's accounts balance

What home and the loops count is what the storages weigh, after every step.
-/

namespace Askai.Door

open Library

variable {n x k i fd : Nat} {peer : Peer} {s t : State} {conn : Conn} {client : Client} {p : Place}

/-- A client's entry is in the table while it counts a connection. -/
structure Client.Fair (client : Client) : Prop where
  inTable : client.inTable = true ↔ client.conns ≠ 0
  gone : client.gone = true → client.inTable = false

/-- What holds of the entries of the clients. -/
structure Entries (s : State) : Prop where
  fair : ∀ k, (s.clients k).Fair
  blank : ∀ k, s.clientsMade ≤ k → s.clients k = {}
  unique : ∀ k j, (s.clients k).inTable = true → (s.clients j).inTable = true →
    (s.clients k).addr = (s.clients j).addr → k = j
  below : ∀ k, s.cap ≠ 0 → (s.clients k).conns ≤ s.cap
  peers : ∀ x k, (s.conns x).client = some k → (s.conns x).peer = some (s.clients k).addr

/-- The record of a storage that is not allocated, or is in its place. -/
def Conn.Placed (n : Nat) (conn : Conn) : Prop :=
  conn = {} ∨ ∃ p : Place, conn.At p ∧ ∀ i, p.lane = some i → i < n

/-- What is counted is what there is. -/
structure Books (n : Nat) (s : State) : Prop where
  conns : ∀ x, (s.conns x).Placed n
  blank : ∀ x, s.made ≤ x → s.conns x = {}
  total : s.total = s.weigh Conn.placed
  lanes : ∀ i, (s.servers i).placed = s.weigh (Conn.placedOn i)
  clients : ∀ k, (s.clients k).conns = s.weigh (Conn.ofClient k)
  held : ∀ k, (s.clients k).held = s.weigh (Conn.heldOf k)
  listed : ∀ i, (s.servers i).conns = s.weigh (Conn.listedOn i)
  idles : ∀ i, (s.servers i).idles = s.weigh (Conn.idleOn i)
  fds : ∀ fd, s.closes fd + s.weigh (Conn.holds fd) = (s.accepted fd).toNat

/-- A record that counts for nothing. -/
structure Conn.Weightless (conn : Conn) : Prop where
  placed : conn.placed = 0
  placedOn : ∀ i, conn.placedOn i = 0
  ofClient : ∀ k, conn.ofClient k = 0
  heldOf : ∀ k, conn.heldOf k = 0
  listedOn : ∀ i, conn.listedOn i = 0
  idleOn : ∀ i, conn.idleOn i = 0
  holds : ∀ fd, conn.holds fd = 0

theorem weightless_blank : Conn.Weightless {} := by
  constructor <;> first | rfl | (intro _; rfl)

theorem Conn.At.weightless (here : conn.At .shelf) : conn.Weightless := by
  have client : conn.client = none := by simpa [Place.lane] using here.client
  have none_ : conn.fd = none := by simpa [Place.connected] using here.fd
  constructor
  · exact here.placed_eq
  · intro i
    rw [here.placedOn_eq]
    exact if_neg (by rintro ⟨⟩)
  · intro k
    simp [Conn.ofClient, client]
  · intro k
    simp [Conn.heldOf, client]
  · exact here.listedOn_eq
  · exact here.idleOn_eq
  · intro fd
    simp [Conn.holds, none_]

/-- A record counts for as much as another. -/
structure Conn.Weighs (conn old : Conn) : Prop where
  placed : conn.placed = old.placed
  placedOn : ∀ i, conn.placedOn i = old.placedOn i
  ofClient : ∀ k, conn.ofClient k = old.ofClient k
  heldOf : ∀ k, conn.heldOf k = old.heldOf k
  listedOn : ∀ i, conn.listedOn i = old.listedOn i
  idleOn : ∀ i, conn.idleOn i = old.idleOn i
  holds : ∀ fd, conn.holds fd = old.holds fd

theorem Conn.Weightless.weighs {old : Conn} (none_ : conn.Weightless) (before : old.Weightless) : conn.Weighs old where
  placed := none_.placed.trans before.placed.symm
  placedOn := fun i => (none_.placedOn i).trans (before.placedOn i).symm
  ofClient := fun k => (none_.ofClient k).trans (before.ofClient k).symm
  heldOf := fun k => (none_.heldOf k).trans (before.heldOf k).symm
  listedOn := fun i => (none_.listedOn i).trans (before.listedOn i).symm
  idleOn := fun i => (none_.idleOn i).trans (before.idleOn i).symm
  holds := fun fd => (none_.holds fd).trans (before.holds fd).symm

/-- A record that goes to a place of the same lane, and not to or from its lists. -/
theorem Conn.At.weighs {old : Conn} {q : Place} (there : conn.At q) (here : old.At p)
    (lane : q.lane = p.lane) (listed : ∀ i, q.isListed i = p.isListed i)
    (idle : ∀ i, q.isIdle i = p.isIdle i) (client : conn.client = old.client)
    (held : conn.held = old.held) (fd : conn.fd = old.fd) : conn.Weighs old where
  placed := by rw [there.placed_eq, here.placed_eq, lane]
  placedOn := fun i => by rw [there.placedOn_eq, here.placedOn_eq, lane]
  ofClient := fun k => by rw [Conn.ofClient, Conn.ofClient, client]
  heldOf := fun k => by rw [Conn.heldOf, Conn.heldOf, client, held]
  listedOn := fun i => by rw [there.listedOn_eq, here.listedOn_eq, listed]
  idleOn := fun i => by rw [there.idleOn_eq, here.idleOn_eq, idle]
  holds := fun f => by rw [Conn.holds, Conn.holds, fd]

/-- An entry on the shelf counts no connection. -/
theorem Client.Fair.conns_eq_zero (fair : client.Fair) (gone : client.gone = true) : client.conns = 0 := by
  apply Decidable.byContradiction
  intro some_
  have inTable := fair.inTable.mpr some_
  rw [fair.gone gone] at inTable
  cases inTable

namespace Books

theorem at_ (books : Books n s) (some_ : s.conns x ≠ {}) :
    ∃ p : Place, (s.conns x).At p ∧ ∀ i, p.lane = some i → i < n :=
  (books.conns x).resolve_left some_

theorem known (books : Books n s) (some_ : s.conns x ≠ {}) : x < s.made := by
  rcases Nat.lt_or_ge x s.made with less | past
  · exact less
  · exact absurd (books.blank x past) some_

/-- A storage on the shelf. -/
theorem spare (books : Books n s) (kept : (s.conns x).hook = some .spare) : x < s.made ∧ (s.conns x).At .shelf := by
  have some_ : s.conns x ≠ {} := ne_of_apply_ne Conn.hook (by rw [kept]; nofun)
  obtain ⟨p, here, -⟩ := books.at_ some_
  obtain rfl := here.of_spare kept
  exact ⟨books.known some_, here⟩

theorem home (books : Books n s) (mail : (s.conns x).mail = some .home) :
    x < s.made ∧ ∃ i < n, (s.conns x).At (.toHome i) := by
  have some_ : s.conns x ≠ {} := ne_of_apply_ne Conn.mail (by rw [mail]; nofun)
  obtain ⟨p, here, inside⟩ := books.at_ some_
  obtain ⟨i, rfl⟩ := here.of_home mail
  exact ⟨books.known some_, i, inside i rfl, here⟩

theorem lane (books : Books n s) (mail : (s.conns x).mail = some (.lane i)) :
    x < s.made ∧ i < n ∧ (s.conns x).At (.toLane i) := by
  have some_ : s.conns x ≠ {} := ne_of_apply_ne Conn.mail (by rw [mail]; nofun)
  obtain ⟨p, here, inside⟩ := books.at_ some_
  obtain rfl := here.of_lane mail
  exact ⟨books.known some_, inside i rfl, here⟩

theorem taken (books : Books n s) (hook : (s.conns x).hook = some (.taken i)) :
    x < s.made ∧ i < n ∧ (s.conns x).At (.taken i) := by
  have some_ : s.conns x ≠ {} := ne_of_apply_ne Conn.hook (by rw [hook]; nofun)
  obtain ⟨p, here, inside⟩ := books.at_ some_
  obtain rfl := here.of_taken hook
  exact ⟨books.known some_, inside i rfl, here⟩

theorem onList (books : Books n s) (listed : (s.conns x).Listed i) :
    x < s.made ∧ i < n ∧ (s.conns x).At (.listed i (s.conns x).idle) := by
  have some_ : s.conns x ≠ {} := by
    rcases listed with here | here <;> exact ne_of_apply_ne Conn.hook (by rw [here]; nofun)
  obtain ⟨p, here, inside⟩ := books.at_ some_
  obtain ⟨idle, rfl⟩ := here.of_listed listed
  rw [here.idle i idle rfl]
  exact ⟨books.known some_, inside i rfl, here⟩

theorem released (books : Books n s) (released : (s.conns x).released = true) :
    x < s.made ∧ ∃ i < n, (s.conns x).At (.closed i) := by
  have some_ : s.conns x ≠ {} := ne_of_apply_ne Conn.released (by rw [released]; nofun)
  obtain ⟨p, here, inside⟩ := books.at_ some_
  obtain ⟨i, rfl⟩ := here.of_released released
  exact ⟨books.known some_, i, inside i rfl, here⟩

/-- The storage that home places a client in weighs nothing. -/
theorem inHand (books : Books n s) (storage : HomeConn s x conn) :
    x ≤ s.made ∧ (s.conns x).Weightless ∧ conn.alive = true ∧ conn.mail = none ∧ conn.hook = none ∧
      conn.released = false ∧ conn.client = none ∧ conn.fd = none ∧ conn.held = 0 := by
  cases storage with
  | spare kept =>
    obtain ⟨known, here⟩ := books.spare kept
    refine ⟨Nat.le_of_lt known, here.weightless, here.alive, here.mail, rfl, here.released, ?_, ?_,
      here.held fun _ => rfl⟩
    · simpa [Place.lane] using here.client
    · simpa [Place.connected] using here.fd
  | malloc none_ =>
    refine ⟨Nat.le_refl _, ?_, rfl, rfl, rfl, rfl, rfl, rfl, rfl⟩
    rw [books.blank _ (Nat.le_refl _)]
    exact weightless_blank

/-- A storage becomes another, and the counts with what it weighs. -/
theorem move (books : Books n s) (conns : t.conns = Function.update s.conns x conn)
    (made : t.made = max s.made (x + 1)) (known : x ≤ s.made) (placed : conn.Placed n)
    (total : t.total + (s.conns x).placed = s.total + conn.placed)
    (lanes : ∀ i, (t.servers i).placed + (s.conns x).placedOn i = (s.servers i).placed + conn.placedOn i)
    (clients : ∀ k, (t.clients k).conns + (s.conns x).ofClient k = (s.clients k).conns + conn.ofClient k)
    (held : ∀ k, (t.clients k).held + (s.conns x).heldOf k = (s.clients k).held + conn.heldOf k)
    (listed : ∀ i, (t.servers i).conns + (s.conns x).listedOn i = (s.servers i).conns + conn.listedOn i)
    (idles : ∀ i, (t.servers i).idles + (s.conns x).idleOn i = (s.servers i).idles + conn.idleOn i)
    (fds : ∀ fd, t.closes fd + conn.holds fd + (s.accepted fd).toNat =
      s.closes fd + (s.conns x).holds fd + (t.accepted fd).toNat) : Books n t := by
  have weigh : ∀ g : Conn → Nat, g {} = 0 → t.weigh g + g (s.conns x) = s.weigh g + g conn := by
    intro g none_
    have same : t.weigh g = (s.setConn x conn).weigh g := by
      unfold State.weigh
      rw [conns, made]
      rfl
    rw [same]
    apply State.weigh_setConn known
    rintro rfl
    rw [books.blank _ (Nat.le_refl _), none_]
  constructor
  · intro y
    rw [conns]
    rcases eq_or_ne y x with rfl | other
    · rw [Function.update_self]
      exact placed
    · rw [Function.update_of_ne other]
      exact books.conns y
  · intro y past
    rw [conns, Function.update_of_ne (by omega)]
    exact books.blank y (by omega)
  · have sum := weigh Conn.placed rfl
    have before := books.total
    omega
  · intro i
    have sum := weigh (Conn.placedOn i) rfl
    have before := books.lanes i
    have change_ := lanes i
    omega
  · intro k
    have sum := weigh (Conn.ofClient k) rfl
    have before := books.clients k
    have change_ := clients k
    omega
  · intro k
    have sum := weigh (Conn.heldOf k) rfl
    have before := books.held k
    have change_ := held k
    omega
  · intro i
    have sum := weigh (Conn.listedOn i) rfl
    have before := books.listed i
    have change_ := listed i
    omega
  · intro i
    have sum := weigh (Conn.idleOn i) rfl
    have before := books.idles i
    have change_ := idles i
    omega
  · intro fd
    have sum := weigh (Conn.holds fd) rfl
    have before := books.fds fd
    have change_ := fds fd
    omega

/-- What a storage weighs is in the sum. -/
theorem le_weigh (known : x < s.made) (g : Conn → Nat) : g (s.conns x) ≤ s.weigh g :=
  le_tally known g s.conns

/-- An entry that a storage names counts it. -/
theorem named (books : Books n s) (known : x < s.made) (client : (s.conns x).client = some k) :
    1 ≤ (s.clients k).conns := by
  have part := le_weigh known (Conn.ofClient k)
  have one : (s.conns x).ofClient k = 1 := if_pos client
  rw [books.clients k]
  omega

/-- What a storage holds is in its client's count. -/
theorem held_le (books : Books n s) (known : x < s.made) (client : (s.conns x).client = some k) :
    (s.conns x).held ≤ (s.clients k).held := by
  have part := le_weigh known (Conn.heldOf k)
  have same : (s.conns x).heldOf k = (s.conns x).held := if_pos client
  rw [books.held k]
  omega

/-- No storage holds bytes for an entry that counts none. -/
theorem held_eq_zero (books : Books n s) (none_ : (s.clients k).conns = 0) : (s.clients k).held = 0 := by
  rw [books.held k]
  apply tally_eq_zero
  intro x known
  have part := le_weigh known (Conn.ofClient k)
  rw [← books.clients k, none_, Conn.ofClient] at part
  rw [Conn.heldOf]
  split at part
  · omega
  · next other => exact if_neg other

end Books

namespace Entries

/-- The entries keep what they are known by. -/
theorem keep (entries : Entries s) (cap : t.cap = s.cap) (same : ∀ k, (t.clients k).inTable = (s.clients k).inTable ∧
      (t.clients k).gone = (s.clients k).gone ∧ (t.clients k).addr = (s.clients k).addr ∧
      (t.clients k).conns = (s.clients k).conns) (blank : ∀ k, t.clientsMade ≤ k → t.clients k = {})
    (peers : ∀ x k, (t.conns x).client = some k → (s.conns x).client = some k ∧
      (t.conns x).peer = (s.conns x).peer) : Entries t := by
  constructor
  · intro k
    obtain ⟨inTable, gone, -, conns⟩ := same k
    constructor
    · rw [inTable, conns]
      exact (entries.fair k).inTable
    · rw [inTable, gone]
      exact (entries.fair k).gone
  · exact blank
  · intro k j
    rw [(same k).1, (same j).1, (same k).2.2.1, (same j).2.2.1]
    exact entries.unique k j
  · intro k
    rw [cap, (same k).2.2.2]
    exact entries.below k
  · intro x k client
    obtain ⟨before, peer⟩ := peers x k client
    rw [peer, (same k).2.2.1]
    exact entries.peers x k before

/-- A storage that becomes another, of the same client or of none. -/
theorem setConn (entries : Entries s) (peers : ∀ k, conn.client = some k → (s.conns x).client = some k ∧
      conn.peer = (s.conns x).peer) : Entries (s.setConn x conn) := by
  refine entries.keep rfl (fun _ => ⟨rfl, rfl, rfl, rfl⟩) entries.blank ?_
  intro y k client
  change (Function.update s.conns x conn y).client = some k at client
  change _ ∧ (Function.update s.conns x conn y).peer = _
  rcases eq_or_ne y x with rfl | other
  · rw [Function.update_self] at client ⊢
    exact peers k client
  · rw [Function.update_of_ne other] at client ⊢
    exact ⟨client, rfl⟩

/-- An entry that counts other bytes. -/
theorem setHeld (entries : Entries s) (counts : 1 ≤ (s.clients k).conns) (held : Nat) :
    Entries (s.setClient k { s.clients k with held }) := by
  refine entries.keep rfl ?_ ?_ ?_
  · intro j
    change (Function.update s.clients k { s.clients k with held } j).inTable = _ ∧
      (Function.update s.clients k { s.clients k with held } j).gone = _ ∧
      (Function.update s.clients k { s.clients k with held } j).addr = _ ∧
      (Function.update s.clients k { s.clients k with held } j).conns = _
    rcases eq_or_ne j k with rfl | other
    · rw [Function.update_self]
      exact ⟨rfl, rfl, rfl, rfl⟩
    · rw [Function.update_of_ne other]
      exact ⟨rfl, rfl, rfl, rfl⟩
  · intro j past
    have past : max s.clientsMade (k + 1) ≤ j := past
    change Function.update s.clients k { s.clients k with held } j = {}
    rw [Function.update_of_ne (by omega)]
    exact entries.blank j (by omega)
  · exact fun _ _ client => ⟨client, rfl⟩

end Entries

end Askai.Door
