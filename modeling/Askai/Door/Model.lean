import Askai.Library.Sums
import Askai.Library.Trace

/-!
# The door

Home accepts clients, places each on a client loop in a connection's storage, and has the storage
back once the loop has closed the connection (`httpd.c`). The steps are the handlers of home and of
the loops, in any order, with messages on their way between them.
-/

namespace Askai.Door

open Library

/-- `struct stream_peer`: what a client is known by. -/
abbrev Peer := Nat

/-- The loop that has a message in its inbox. -/
inductive Inbox where
  | home
  | lane (i : Nat)
  deriving DecidableEq, Repr

/-- The handler of a connection's message. -/
inductive Handler where
  /-- `httpd_conn_take`. -/
  | take
  /-- `httpd_conn_back`. -/
  | back
  deriving DecidableEq, Repr

/-- The list that `conn->hook` is on. -/
inductive Hook where
  /-- `home->spare`. -/
  | spare
  /-- `srv->taken`, `srv->idle` and `srv->busy` of a lane. -/
  | taken (i : Nat)
  | idle (i : Nat)
  | busy (i : Nat)
  deriving DecidableEq, Repr

/-- `struct httpd_conn`. -/
structure Conn where
  /-- The storage is allocated. -/
  alive : Bool := false
  /-- `conn->msg`: its function, and where it is queued. -/
  fn : Handler := .take
  mail : Option Inbox := none
  hook : Option Hook := none
  /-- `loop_release` was called, and `httpd_conn_release` was not. -/
  released : Bool := false
  lane : Nat := 0
  /-- `conn->client`, the entry's address. -/
  client : Option Nat := none
  fd : Option Nat := none
  /-- `CONN_IDLE`. -/
  idle : Bool := false
  held : Nat := 0
  /-- The address that the client came from. -/
  peer : Option Peer := none
  deriving DecidableEq, Repr

/-- `struct httpd_client`. -/
structure Client where
  alive : Bool := false
  /-- In home's table. -/
  inTable : Bool := false
  /-- On the shelf of gone clients. -/
  gone : Bool := false
  addr : Peer := 0
  conns : Nat := 0
  held : Nat := 0
  deriving DecidableEq, Repr

/-- `struct httpd`, a client loop's server, and what home counts of its lane. -/
structure Server where
  /-- `lane->conns`, home's. -/
  placed : Nat := 0
  conns : Nat := 0
  idles : Nat := 0
  draining : Bool := false
  /-- `LOOP_EXIT` of its loop. -/
  exits : Bool := false
  deriving DecidableEq, Repr

/-- Home, its client loops, and the descriptors of the clients. -/
structure State where
  conns : Nat → Conn := fun _ => {}
  /-- The storages allocated so far; a number is not used again. -/
  made : Nat := 0
  clients : Nat → Client := fun _ => {}
  clientsMade : Nat := 0
  servers : Nat → Server := fun _ => {}
  /-- `home->conns`. -/
  total : Nat := 0
  /-- `home->cap`. -/
  cap : Nat
  /-- The descriptors that `accept4` returned, and how often each was closed. -/
  accepted : Nat → Bool := fun _ => false
  closes : Nat → Nat := fun _ => 0

namespace State

/-- A connection's storage becomes another. -/
def setConn (s : State) (x : Nat) (conn : Conn) : State :=
  { s with conns := Function.update s.conns x conn, made := max s.made (x + 1) }

def setClient (s : State) (k : Nat) (client : Client) : State :=
  { s with
    clients := Function.update s.clients k client
    clientsMade := max s.clientsMade (k + 1) }

def setServer (s : State) (i : Nat) (server : Server) : State :=
  { s with servers := Function.update s.servers i server }

/-- `accept4` returns a descriptor. -/
def accept (s : State) (fd : Nat) : State :=
  { s with accepted := Function.update s.accepted fd true }

/-- `close`. -/
def close (s : State) (fd : Nat) : State :=
  { s with closes := Function.update s.closes fd (s.closes fd + 1) }

end State

/-- `httpd_home_conn`: the storage it returns, and what is in it. -/
inductive HomeConn (s : State) : Nat → Conn → Prop
  | spare {x : Nat} (kept : (s.conns x).hook = some .spare) :
      HomeConn s x { s.conns x with hook := none }
  | malloc (none_ : ∀ x, (s.conns x).hook ≠ some .spare) : HomeConn s s.made { alive := true }

/-- `httpd_home_client_get`: the entry it returns, and what is in it then. -/
inductive ClientGet (s : State) (peer : Peer) : Nat → Client → Prop
  | found {k : Nat} (inTable : (s.clients k).inTable = true) (addr : (s.clients k).addr = peer) :
      ClientGet s peer k { s.clients k with conns := (s.clients k).conns + 1 }
  | reuse {k : Nat} (absent : ∀ j, (s.clients j).inTable = true → (s.clients j).addr ≠ peer)
      (gone : (s.clients k).gone = true) :
      ClientGet s peer k { s.clients k with gone := false, inTable := true, addr := peer, conns := 1 }
  | malloc (absent : ∀ j, (s.clients j).inTable = true → (s.clients j).addr ≠ peer)
      (none_ : ∀ j, (s.clients j).gone = false) :
      ClientGet s peer s.clientsMade { alive := true, inTable := true, addr := peer, conns := 1 }

/-- `httpd_home_client_put`. -/
def Client.put (client : Client) : Client :=
  if client.conns - 1 = 0 then { client with conns := 0, inTable := false, gone := true }
  else { client with conns := client.conns - 1 }

/-- What `httpd_home_place` makes of the storage. -/
def Conn.place (conn : Conn) (i client fd : Nat) (peer : Peer) : Conn :=
  { conn with
    fn := .take
    mail := some (.lane i)
    lane := i
    client := some client
    fd := some fd
    idle := false
    peer := some peer }

/-- What `httpd_conn_back` makes of it. -/
def Conn.back (conn : Conn) : Conn :=
  { conn with mail := none, client := none, hook := some .spare }

/-- `httpd_conn_take`. -/
def Conn.take (conn : Conn) : Conn :=
  { conn with mail := none, hook := some (.taken conn.lane) }

/-- `httpd_conn_setup`, which makes the record anew, and parks the connection. -/
def Conn.setup (conn : Conn) (i : Nat) : Conn :=
  { conn with
    fn := .back
    mail := none
    hook := some (.idle i)
    released := false
    idle := true
    held := 0 }

/-- `httpd_conn_setup` of a connection that it gives back at once. -/
def Conn.refuse (conn : Conn) : Conn :=
  { conn with
    fn := .back
    mail := some .home
    hook := none
    released := false
    fd := none
    idle := false
    held := 0 }

/-- `httpd_conn_park`. -/
def Conn.park (conn : Conn) (i : Nat) (idle : Bool) : Conn :=
  { conn with hook := some (if idle then .idle i else .busy i), idle }

/-- `httpd_conn_close`. -/
def Conn.close (conn : Conn) : Conn :=
  { conn with fd := none, held := 0, hook := none, released := true }

/-- `httpd_conn_release`. -/
def Conn.release (conn : Conn) : Conn :=
  { conn with released := false, mail := some .home }

/-- The connection is on one of the two lists of lane `i`. -/
def Conn.Listed (conn : Conn) (i : Nat) : Prop :=
  conn.hook = some (.idle i) ∨ conn.hook = some (.busy i)

/-- `httpd_conn_setup` and `httpd_conn_park`, in the server's counts. -/
def Server.setup (server : Server) : Server :=
  { server with conns := server.conns + 1, idles := server.idles + 1 }

/-- `httpd_conn_park`, in the server's counts. -/
def Server.park (server : Server) (was idle : Bool) : Server :=
  { server with idles := server.idles + idle.toNat - was.toNat }

/-- `httpd_conn_close`, in the server's counts. -/
def Server.close (server : Server) (was : Bool) : Server :=
  { server with
    conns := server.conns - 1
    idles := server.idles - was.toNat
    exits := server.exits || (server.conns - 1 = 0 && server.draining) }

/-- The steps of home and of the loops of `n` lanes. -/
inductive Step (n : Nat) (s : State) : Unit → State → Prop
  /-- `httpd_home_take`, or `httpd_home_place` without storage, closes the client's descriptor. -/
  | turnAway (fd : Nat) (fresh : s.accepted fd = false) : Step n s () ((s.accept fd).close fd)
  /-- `httpd_home_place` without the client's user or its entry. -/
  | placeFails {x : Nat} {conn : Conn} (fd : Nat) (fresh : s.accepted fd = false)
      (storage : HomeConn s x conn) :
      Step n s () (((s.setConn x { conn with hook := some .spare }).accept fd).close fd)
  /-- `httpd_home_place`, of a client that is not at the cap. -/
  | place {x k i : Nat} {conn : Conn} {client : Client} (fd : Nat) (peer : Peer)
      (fresh : s.accepted fd = false)
      (below : ∀ j, (s.clients j).inTable = true → (s.clients j).addr = peer → s.cap ≠ 0 → (s.clients j).conns < s.cap)
      (storage : HomeConn s x conn) (entry : ClientGet s peer k client) (inside : i < n) :
      Step n s ()
        { (((s.setConn x (conn.place i k fd peer)).setClient k client).setServer i
            { s.servers i with placed := (s.servers i).placed + 1 }).accept fd with
          total := s.total + 1 }
  /-- `httpd_conn_back`. -/
  | back {x k : Nat} (mail : (s.conns x).mail = some .home) (fn : (s.conns x).fn = .back)
      (client : (s.conns x).client = some k) :
      Step n s ()
        { ((s.setConn x (s.conns x).back).setClient k (s.clients k).put).setServer (s.conns x).lane
            { s.servers (s.conns x).lane with placed := (s.servers (s.conns x).lane).placed - 1 } with
          total := s.total - 1 }
  /-- `httpd_home_relieve` frees a spare connection, or a gone client. -/
  | freeConn {x : Nat} (kept : (s.conns x).hook = some .spare) : Step n s () (s.setConn x {})
  | freeClient {k : Nat} (gone : (s.clients k).gone = true) : Step n s () (s.setClient k {})
  /-- `httpd_conn_take`; no loop is exiting. -/
  | take {x i : Nat} (mail : (s.conns x).mail = some (.lane i)) (fn : (s.conns x).fn = .take)
      (runs : (s.servers i).exits = false) : Step n s () (s.setConn x (s.conns x).take)
  /-- `httpd_take_step` sets a connection up. -/
  | setup {x i : Nat} (taken : (s.conns x).hook = some (.taken i))
      (open_ : (s.servers i).draining = false) :
      Step n s () ((s.setConn x ((s.conns x).setup i)).setServer i (s.servers i).setup)
  /-- It cannot, and gives the connection back: out of memory, or the server drains. -/
  | refuse {x i fd : Nat} (taken : (s.conns x).hook = some (.taken i))
      (fd_eq : (s.conns x).fd = some fd) :
      Step n s () ((s.setConn x (s.conns x).refuse).close fd)
  | park {x i : Nat} (idle : Bool) (listed : (s.conns x).Listed i) :
      Step n s ()
        ((s.setConn x ((s.conns x).park i idle)).setServer i ((s.servers i).park (s.conns x).idle idle))
  /-- `httpd_conn_hold`, of `m` bytes that fit. -/
  | hold {x i k : Nat} (m : Nat) (listed : (s.conns x).Listed i)
      (client : (s.conns x).client = some k) :
      Step n s ()
        ((s.setConn x { s.conns x with held := (s.conns x).held + m }).setClient k
          { s.clients k with held := (s.clients k).held + m })
  | unhold {x i k : Nat} (listed : (s.conns x).Listed i) (client : (s.conns x).client = some k) :
      Step n s ()
        ((s.setConn x { s.conns x with held := 0 }).setClient k
          { s.clients k with held := (s.clients k).held - (s.conns x).held })
  | close {x i k fd : Nat} (listed : (s.conns x).Listed i) (client : (s.conns x).client = some k)
      (fd_eq : (s.conns x).fd = some fd) :
      Step n s ()
        ((((s.setConn x (s.conns x).close).setClient k
          { s.clients k with held := (s.clients k).held - (s.conns x).held }).setServer i
            ((s.servers i).close (s.conns x).idle)).close fd)
  | release {x : Nat} (released : (s.conns x).released = true) :
      Step n s () (s.setConn x (s.conns x).release)
  /-- `httpd_drain`. -/
  | drain {i : Nat} (inside : i < n) :
      Step n s () (s.setServer i
        { s.servers i with
          draining := true
          exits := (s.servers i).exits || (s.servers i).conns = 0 })

/-- The door before its first client. -/
def start (cap : Nat) : State := { cap }

end Askai.Door
