import Askai.Door.Model

/-!
# Where a connection's storage is

Each storage is in one place at a time, and the place says what the record holds. What home and the
loops count is a weight of the records, summed over all of them.
-/

namespace Askai.Door

open Library

/-- Where a connection's storage is. -/
inductive Place where
  /-- On home's shelf. -/
  | shelf
  /-- A message on its way to lane `i`. -/
  | toLane (i : Nat)
  | taken (i : Nat)
  /-- On one of the two lists of lane `i`. -/
  | listed (i : Nat) (idle : Bool)
  /-- Closed, and awaiting its release. -/
  | closed (i : Nat)
  /-- A message on its way home. -/
  | toHome (i : Nat)
  deriving DecidableEq, Repr

namespace Place

/-- The inbox that the record's message is in. -/
def mail : Place → Option Inbox
  | .toLane i => some (.lane i)
  | .toHome _ => some .home
  | _ => none

/-- The list that the record is on. -/
def hook : Place → Option Hook
  | .shelf => some .spare
  | .taken i => some (.taken i)
  | .listed i true => some (.idle i)
  | .listed i false => some (.busy i)
  | _ => none

/-- The record awaits its release. -/
def released : Place → Bool
  | .closed _ => true
  | _ => false

/-- What the message's function is to be. -/
def fn : Place → Option Handler
  | .toLane _ => some .take
  | .listed _ _ | .closed _ | .toHome _ => some .back
  | _ => none

/-- The lane of a placed connection. -/
def lane : Place → Option Nat
  | .shelf => none
  | .toLane i | .taken i | .listed i _ | .closed i | .toHome i => some i

/-- The connection has its descriptor. -/
def connected : Place → Bool
  | .toLane _ | .taken _ | .listed _ _ => true
  | _ => false

/-- The place is one of the two lists of lane `i`. -/
def isListed (i : Nat) : Place → Bool
  | .listed j _ => j = i
  | _ => false

/-- The place is the idle list of lane `i`. -/
def isIdle (i : Nat) : Place → Bool
  | .listed j idle => j = i && idle
  | _ => false

end Place

/-- The record of a storage in a place. -/
structure Conn.At (conn : Conn) (p : Place) : Prop where
  alive : conn.alive = true
  mail : conn.mail = p.mail
  hook : conn.hook = p.hook
  released : conn.released = p.released
  fn : ∀ handler, p.fn = some handler → conn.fn = handler
  lane : ∀ i, p.lane = some i → conn.lane = i
  client : conn.client.isSome = p.lane.isSome
  fd : conn.fd.isSome = p.connected
  held : (∀ i, p.isListed i = false) → conn.held = 0
  idle : ∀ i idle, p = .listed i idle → conn.idle = idle

/-! ## What is counted -/

/-- The connection was placed, and is not given back. -/
def Conn.placed (conn : Conn) : Nat :=
  if conn.alive = true ∧ conn.hook ≠ some .spare then 1 else 0

def Conn.placedOn (i : Nat) (conn : Conn) : Nat :=
  if conn.alive = true ∧ conn.hook ≠ some .spare ∧ conn.lane = i then 1 else 0

def Conn.ofClient (k : Nat) (conn : Conn) : Nat :=
  if conn.client = some k then 1 else 0

def Conn.heldOf (k : Nat) (conn : Conn) : Nat :=
  if conn.client = some k then conn.held else 0

def Conn.ofPeer (peer : Peer) (conn : Conn) : Nat :=
  if conn.client.isSome ∧ conn.peer = some peer then 1 else 0

def Conn.holds (fd : Nat) (conn : Conn) : Nat :=
  if conn.fd = some fd then 1 else 0

instance (conn : Conn) (i : Nat) : Decidable (conn.Listed i) :=
  inferInstanceAs (Decidable (_ ∨ _))

def Conn.listedOn (i : Nat) (conn : Conn) : Nat :=
  if conn.Listed i then 1 else 0

def Conn.idleOn (i : Nat) (conn : Conn) : Nat :=
  if conn.Listed i ∧ conn.idle = true then 1 else 0

namespace Conn.At

variable {conn : Conn} {p q : Place}

/-- A storage is in one place. -/
theorem unique (here : conn.At p) (there : conn.At q) : p = q := by
  have mail := here.mail.symm.trans there.mail
  have hook := here.hook.symm.trans there.hook
  have released := here.released.symm.trans there.released
  have lane := here.lane
  have lane_ := there.lane
  rcases p with _ | i | i | ⟨i, _ | _⟩ | i | i <;> rcases q with _ | j | j | ⟨j, _ | _⟩ | j | j <;>
    simp_all [Place.mail, Place.hook, Place.released, Place.lane]

theorem placed_eq (here : conn.At p) : conn.placed = p.lane.isSome.toNat := by
  rw [Conn.placed, here.alive, here.hook]
  cases p with
  | listed i idle => cases idle <;> rfl
  | _ => rfl

theorem placedOn_eq (here : conn.At p) (i : Nat) : conn.placedOn i = if p.lane = some i then 1 else 0 := by
  have lane := here.lane
  rw [Conn.placedOn, here.alive, here.hook]
  cases p with
  | listed j idle => cases idle <;> simp [Place.hook, Place.lane, lane j rfl]
  | shelf => simp [Place.hook, Place.lane]
  | _ j => simp [Place.hook, Place.lane, lane j rfl]

theorem listed_iff (here : conn.At p) (i : Nat) : conn.Listed i ↔ p.isListed i = true := by
  rw [Conn.Listed, here.hook]
  cases p with
  | listed j idle => cases idle <;> simp [Place.hook, Place.isListed]
  | _ => simp [Place.hook, Place.isListed]

theorem listedOn_eq (here : conn.At p) (i : Nat) : conn.listedOn i = (p.isListed i).toNat := by
  rw [Conn.listedOn]
  cases listed : p.isListed i with
  | true => exact if_pos ((here.listed_iff i).mpr listed)
  | false =>
    apply if_neg
    rw [here.listed_iff i, listed]
    exact Bool.false_ne_true

theorem idleOn_eq (here : conn.At p) (i : Nat) : conn.idleOn i = (p.isIdle i).toNat := by
  have idle := here.idle
  simp only [Conn.idleOn, here.listed_iff i]
  cases p with
  | listed j other =>
    rw [idle j other rfl]
    rcases eq_or_ne j i with rfl | apart
    · cases other <;> simp [Place.isListed, Place.isIdle]
    · simp [Place.isListed, Place.isIdle, apart]
  | _ => simp [Place.isListed, Place.isIdle]

/-! From the links to the place -/

theorem of_home (here : conn.At p) (mail : conn.mail = some .home) : ∃ i, p = .toHome i := by
  have same := here.mail.symm.trans mail
  cases p <;> simp_all [Place.mail]

theorem of_lane {i : Nat} (here : conn.At p) (mail : conn.mail = some (.lane i)) : p = .toLane i := by
  have same := here.mail.symm.trans mail
  cases p <;> simp_all [Place.mail]

theorem of_spare (here : conn.At p) (hook : conn.hook = some .spare) : p = .shelf := by
  have same := here.hook.symm.trans hook
  rcases p with _ | i | i | ⟨i, _ | _⟩ | i | i <;> simp_all [Place.hook]

theorem of_taken {i : Nat} (here : conn.At p) (hook : conn.hook = some (.taken i)) : p = .taken i := by
  have same := here.hook.symm.trans hook
  rcases p with _ | i | i | ⟨i, _ | _⟩ | i | i <;> simp_all [Place.hook]

theorem of_listed {i : Nat} (here : conn.At p) (listed : conn.Listed i) : ∃ idle, p = .listed i idle := by
  have same := (here.listed_iff i).mp listed
  cases p <;> simp_all [Place.isListed]

theorem of_released (here : conn.At p) (released : conn.released = true) : ∃ i, p = .closed i := by
  have same := here.released.symm.trans released
  cases p <;> simp_all [Place.released]

/-! From a place to the next -/

variable {i k fd : Nat} {peer : Peer} {was : Bool}

theorem place (alive : conn.alive = true) (hook : conn.hook = none) (released : conn.released = false)
    (held : conn.held = 0) : (conn.place i k fd peer).At (.toLane i) where
  alive := alive
  mail := rfl
  hook := hook
  released := released
  fn := fun _ same => Option.some.inj same
  lane := fun _ same => Option.some.inj same
  client := rfl
  fd := rfl
  held := fun _ => held
  idle := nofun

theorem back (here : conn.At (.toHome i)) : conn.back.At .shelf where
  alive := here.alive
  mail := rfl
  hook := rfl
  released := here.released
  fn := nofun
  lane := nofun
  client := rfl
  fd := here.fd
  held := fun _ => here.held fun _ => rfl
  idle := nofun

theorem take (here : conn.At (.toLane i)) : conn.take.At (.taken i) where
  alive := here.alive
  mail := rfl
  hook := by
    have lane := here.lane i rfl
    rw [Conn.take, lane]
    rfl
  released := here.released
  fn := nofun
  lane := here.lane
  client := here.client
  fd := here.fd
  held := fun _ => here.held fun _ => rfl
  idle := nofun

theorem setup (here : conn.At (.taken i)) : (conn.setup i).At (.listed i true) where
  alive := here.alive
  mail := rfl
  hook := rfl
  released := rfl
  fn := fun _ same => Option.some.inj same
  lane := here.lane
  client := here.client
  fd := here.fd
  held := fun _ => rfl
  idle := by
    rintro j idle ⟨⟩
    rfl

theorem refuse (here : conn.At (.taken i)) : conn.refuse.At (.toHome i) where
  alive := here.alive
  mail := rfl
  hook := rfl
  released := rfl
  fn := fun _ same => Option.some.inj same
  lane := here.lane
  client := here.client
  fd := rfl
  held := fun _ => rfl
  idle := nofun

theorem park (here : conn.At (.listed i was)) (idle : Bool) : (conn.park i idle).At (.listed i idle) where
  alive := here.alive
  mail := here.mail
  hook := by
    cases idle <;> rfl
  released := here.released
  fn := here.fn
  lane := here.lane
  client := here.client
  fd := here.fd
  held := fun other => by simp [Place.isListed] at other
  idle := by
    rintro j other ⟨⟩
    rfl

theorem hold (here : conn.At (.listed i was)) (held : Nat) : Conn.At { conn with held } (.listed i was) where
  alive := here.alive
  mail := here.mail
  hook := here.hook
  released := here.released
  fn := here.fn
  lane := here.lane
  client := here.client
  fd := here.fd
  held := fun other => by simp [Place.isListed] at other
  idle := here.idle

theorem close (here : conn.At (.listed i was)) : conn.close.At (.closed i) where
  alive := here.alive
  mail := here.mail
  hook := rfl
  released := rfl
  fn := here.fn
  lane := here.lane
  client := here.client
  fd := rfl
  held := fun _ => rfl
  idle := nofun

theorem release (here : conn.At (.closed i)) : conn.release.At (.toHome i) where
  alive := here.alive
  mail := rfl
  hook := here.hook
  released := rfl
  fn := here.fn
  lane := here.lane
  client := here.client
  fd := here.fd
  held := fun _ => here.held fun _ => rfl
  idle := nofun

end Conn.At

/-! ## Sums over the storages -/

/-- The sum of a weight over all storages. -/
def State.weigh (s : State) (g : Conn → Nat) : Nat :=
  tally s.made g s.conns

/-- A storage that becomes another changes the sum by as much. -/
theorem State.weigh_setConn {s : State} {x : Nat} {conn : Conn} {g : Conn → Nat}
    (known : x ≤ s.made) (new : x = s.made → g (s.conns x) = 0) :
    (s.setConn x conn).weigh g + g (s.conns x) = s.weigh g + g conn := by
  rcases Nat.lt_or_eq_of_le known with old | rfl
  · have made : max s.made (x + 1) = s.made := by omega
    change tally (max s.made (x + 1)) g (Function.update s.conns x conn) + _ = _
    rw [made]
    exact tally_update old g s.conns conn
  · have made : max s.made (s.made + 1) = s.made + 1 := by omega
    change tally (max s.made (s.made + 1)) g (Function.update s.conns s.made conn) + _ = _
    rw [made, tally_succ, tally_update_of_le (Nat.le_refl _), Function.update_self, new rfl]
    rfl

end Askai.Door
