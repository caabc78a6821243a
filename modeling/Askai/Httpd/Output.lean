import Askai.Httpd.Budget
import Askai.Httpd.Head

/-!
# A connection's output

What the application's calls and the server itself queue on a connection as responses, of one request
after another (`httpd_stream_head`, `httpd_stream_data` and `httpd_stream_end` of `httpd.c`, and what
they share with the server's own responses).
-/

namespace Askai

open Library

/-- `httpd_hex`. -/
def httpdHex (n : Nat) : Bytes :=
  if n < 16 then [(ascii "0123456789abcdef").getD n 0]
  else httpdHex (n / 16) ++ [(ascii "0123456789abcdef").getD (n % 16) 0]

/-- `out_pause` and `out_max` of `struct httpd_limits`. -/
structure OutLimits where
  outPause : Nat
  outMax : Nat

/-- The output of a connection, with the request under way. -/
structure HttpdOutput where
  req : HttpdReq := {}
  /-- The bytes of the request's head. -/
  head : Bytes := []
  /-- Every byte ever queued. -/
  queued : Bytes := []
  /-- How many of them have been sent. -/
  sent : Nat := 0
  /-- `conn->earlier`. -/
  earlier : Nat := 0
  /-- `REQ_WRITABLE`. -/
  writable : Bool := false
  /-- `CONN_CLOSING`. -/
  closing : Bool := false
  /-- `CONN_DOOMED`. -/
  doomed : Bool := false
  /-- The connection's step is queued. -/
  ready : Bool := false
  closed : Bool := false

/-- What a downcall returns. -/
inductive StreamResult where
  | ok
  | eagain
  | epipe
  deriving DecidableEq, Repr

/-- What decides beside the calls: whether there is memory, and whether the server drains. -/
structure OutShare where
  memory : Bool := true
  draining : Bool := false

namespace HttpdOutput

/-- What `buf_peek` gives of the output. -/
def pending (s : HttpdOutput) : Nat :=
  s.queued.length - s.sent

/-- `httpd_conn_doom`. -/
def doom (s : HttpdOutput) : HttpdOutput :=
  { s with doomed := true, ready := true }

/-- `httpd_conn_put`: whether the bytes are queued. -/
def put (s : HttpdOutput) (share : OutShare) (bytes : Bytes) : HttpdOutput × Bool :=
  if s.doomed then (s, false)
  else if bytes = [] then (s, true)
  else if share.memory then ({ s with queued := s.queued ++ bytes }, true)
  else (s.doom, false)

/-- The flags that `httpd_conn_head` sets, before it queues the head. -/
def heads (s : HttpdOutput) (share : OutShare) (length : Option Nat) : HttpdOutput :=
  { s with
    req := { s.req with
      chunks := s.req.chunks || (length.isNone && !s.req.http10)
      replied := true }
    closing := s.closing || httpdHeadCloses s.req length share.draining
    earlier := s.pending }

/-- `httpd_conn_head`. -/
def connHead (s : HttpdOutput) (share : OutShare) (status : Nat) (field : Bytes) (extra : List Bytes)
    (length : Option Nat) : HttpdOutput × Bool :=
  (s.heads share length).put share
    (httpdConnHead s.req s.head (s.heads share length).closing status field extra length)

/-- `httpd_conn_respond`. -/
def respond (s : HttpdOutput) (share : OutShare) (status : Nat) (extra : List Bytes)
    (body : Option Bytes) : HttpdOutput :=
  let field := if body.isSome then ascii "Content-Type: application/json\r\n" else []
  let after :=
    match s.connHead share status field extra (some (body.getD []).length) with
    | (s, true) => (s.put share (body.getD [])).1
    | (s, false) => s
  { after with req := { after.req with done := true } }

/-- `httpd_conn_error`, with the message or, if it is empty, the reason. -/
def error (s : HttpdOutput) (share : OutShare) (status : Nat) (message : Bytes) (extra : List Bytes) : HttpdOutput :=
  s.respond share status extra
    (some (ascii "\x7b\"jsonrpc\":\"2.0\",\"error\":\x7b\"code\":-32600,\"message\":\"" ++
      (if message = [] then httpdReason status else message) ++ ascii "\"\x7d\x7d"))

/-- `httpd_stream_head`. -/
def streamHead (s : HttpdOutput) (share : OutShare) (status : Nat) (fields : Bytes)
    (length : Option Nat) : HttpdOutput × StreamResult :=
  if s.req.isOpen = false ∨ s.req.replied = true then (s, .epipe)
  else
    match s.connHead share status fields [] length with
    | (s, true) => ({ s with ready := true }, .ok)
    | (s, false) => (s, .epipe)

/-- The bytes that `httpd_stream_data` queues for some data: in chunks, with their size and its CRLF
before them and a CRLF behind. -/
def dataBytes (chunks : Bool) (bytes : Bytes) : Bytes :=
  if chunks then httpdHex bytes.length ++ ascii "\r\n" ++ bytes ++ ascii "\r\n" else bytes

/-- `httpd_stream_data`. -/
def streamData (s : HttpdOutput) (share : OutShare) (lim : OutLimits) (bytes : Bytes) : HttpdOutput × StreamResult :=
  if s.req.isOpen = false ∨ s.req.replied = false then (s, .epipe)
  else if bytes = [] then (s, .ok)
  else if (s.earlier ≠ 0 ∨ s.writable = true) ∧ lim.outMax < s.pending + bytes.length then
    (s.doom, .epipe)
  else
    match s.put share (dataBytes s.req.chunks bytes) with
    | (s, false) => (s, .epipe)
    | (s, true) =>
      if s.pending < lim.outPause then ({ s with ready := true }, .ok)
      else ({ s with writable := true, ready := true }, .eagain)

/-- What is queued at the end of a response. -/
def endBytes (chunks : Bool) : Bytes :=
  if chunks then ascii "0\r\n\r\n" else []

/-- `httpd_stream_end`. -/
def streamEnd (s : HttpdOutput) (share : OutShare) (failed : Bool) : HttpdOutput :=
  if s.req.isOpen = false then s
  else
    let shut := { s with req := { s.req with isOpen := false }, writable := false }
    let after :=
      if s.req.replied = false then shut.error share 500 [] []
      else if failed then { shut with closing := true }.doom
      else (shut.put share (endBytes s.req.chunks)).1
    { after with req := { after.req with done := true }, ready := true }

/-- `httpd_conn_fail`. -/
def fail (s : HttpdOutput) (share : OutShare) (status : Nat) : HttpdOutput :=
  let shut :=
    { s with req := { s.req with isOpen := false }, writable := s.writable && !s.req.isOpen,
             closing := true }
  if s.req.replied then shut.doom else shut.error share status [] []

/-- `httpd_conn_refuse`, of a head that came to nothing. -/
def refuse (s : HttpdOutput) (share : OutShare) (req : HttpdReq) (status : Nat) (message : Bytes) : HttpdOutput :=
  let extra := if status = 401 then [ascii "WWW-Authenticate: Bearer\r\n"]
    else if status = 503 then [ascii "Retry-After: 1\r\n"] else []
  { s with closing := true, req := if status = 401 then req else {} }.error share status message extra

/-- The 100 Continue that `httpd_conn_body` sends before it waits for input. -/
def continue_ (s : HttpdOutput) (share : OutShare) : HttpdOutput :=
  let after := (s.put share (ascii "HTTP/1.1 100 Continue\r\n\r\n")).1
  { after with req := { after.req with expect := false } }

/-- `httpd_conn_step`, as far as the output goes: a connection that is doomed is closed, and any other
waits or is stepped again. -/
def connStep (s : HttpdOutput) (waits : Bool) : HttpdOutput :=
  if s.doomed then { s with closed := true } else { s with ready := !waits }

end HttpdOutput

/-! ## What is said -/

/-- What a step says on the connection. -/
inductive OutEvent where
  /-- The interim response. -/
  | interim
  /-- The head of an application's response, whose data goes in chunks or not. -/
  | began (head : Bytes) (chunks : Bool)
  /-- Data that `httpd_stream_data` took. -/
  | data (bytes : Bytes)
  /-- An application's response has ended. -/
  | ended
  /-- A response of the server's own. -/
  | own (bytes : Bytes)
  /-- The response under way is cut off. -/
  | cut
  deriving DecidableEq

namespace HttpdOutput

/-- What has been queued since `s`. -/
def more (s s' : HttpdOutput) : Bytes :=
  s'.queued.drop s.queued.length

/-- Whether a response is cut off. -/
def cuts (s' : HttpdOutput) : List OutEvent :=
  if s'.doomed then [.cut] else []

/-- What a response of the server's own says. -/
def owns (s s' : HttpdOutput) : List OutEvent :=
  .own (s.more s') :: s'.cuts

end HttpdOutput

open HttpdOutput in
/-- The steps of a connection that has not been closed, and what they say. -/
inductive OutStep (lim : OutLimits) (s : HttpdOutput) : List OutEvent → HttpdOutput → Prop
  /-- A request is let in, which is the application's. -/
  | begins {req : HttpdReq} {head : Bytes} (here : s.closed = false) (sound : s.doomed = false)
      (quiet : s.closing = false) (idle : s.req.replied = false) (fresh : req.replied = false)
      (undone : req.done = false) (plain : req.chunks = false) :
      OutStep lim s []
        { s with req := { req with isOpen := true }, head, closing := req.isHead }
  /-- A preflight is answered. -/
  | preflight {req : HttpdReq} {head : Bytes} {share : OutShare} (here : s.closed = false)
      (sound : s.doomed = false) (idle : s.req.replied = false) (fresh : req.replied = false)
      (shut : req.isOpen = false) :
      OutStep lim s
        (s.owns (({ s with req, head } : HttpdOutput).respond share 204 (httpdPreflightExtra req head) none))
        (({ s with req, head } : HttpdOutput).respond share 204 (httpdPreflightExtra req head) none)
  /-- A head comes to nothing. -/
  | refuse {req : HttpdReq} {head message : Bytes} {status : Nat} {share : OutShare}
      (here : s.closed = false) (sound : s.doomed = false) (idle : s.req.replied = false)
      (fresh : req.replied = false) (shut : req.isOpen = false) :
      OutStep lim s
        (s.owns (HttpdOutput.refuse { s with head } share req status message))
        (HttpdOutput.refuse { s with head } share req status message)
  /-- `httpd_conn_reset`. -/
  | reset (here : s.closed = false) (sound : s.doomed = false) (done : s.req.done = true)
      (bodyIn : s.req.bodyIn = true) : OutStep lim s [] { s with req := {} }
  /-- The request's body is all in. -/
  | bodyIn (here : s.closed = false) :
      OutStep lim s [] { s with req := { s.req with bodyIn := true } }
  /-- The request's body is not all in. -/
  | continues {share : OutShare} (here : s.closed = false) (expect : s.req.expect = true)
      (more : s.req.bodyIn = false) (undone : s.req.done = false) :
      OutStep lim s
        (if (s.put share (ascii "HTTP/1.1 100 Continue\r\n\r\n")).2 then [.interim]
          else (s.continue_ share).cuts)
        (s.continue_ share)
  | head {share : OutShare} {status : Nat} {fields : Bytes} {length : Option Nat}
      (here : s.closed = false) :
      OutStep lim s
        (if (s.streamHead share status fields length).2 = .ok then
          [.began (s.more (s.streamHead share status fields length).1)
            (s.streamHead share status fields length).1.req.chunks]
        else (s.streamHead share status fields length).1.cuts)
        (s.streamHead share status fields length).1
  | data {share : OutShare} {bytes : Bytes} (here : s.closed = false) :
      OutStep lim s
        (if (s.streamData share lim bytes).2 = .epipe then (s.streamData share lim bytes).1.cuts
        else [.data bytes])
        (s.streamData share lim bytes).1
  | end_ {share : OutShare} {failed : Bool} (here : s.closed = false) :
      OutStep lim s
        (if s.req.isOpen = false then []
        else if s.req.replied = false then s.owns (s.streamEnd share failed)
        else if (s.streamEnd share failed).doomed then [.cut]
        else [.ended])
        (s.streamEnd share failed)
  /-- The server fails the request, or a deadline runs out. -/
  | fail {share : OutShare} {status : Nat} (here : s.closed = false) :
      OutStep lim s (if s.req.replied then [.cut] else s.owns (s.fail share status))
        (s.fail share status)
  /-- Some of the output is sent. -/
  | sends {n : Nat} (here : s.closed = false) (sound : s.doomed = false) (some_ : n ≤ s.pending) :
      OutStep lim s [] { s with sent := s.sent + n, earlier := s.earlier - n }
  /-- The application may write again. -/
  | writable (here : s.closed = false) (drained : s.pending ≤ lim.outPause / 2) :
      OutStep lim s [] { s with writable := false }
  | turn {waits : Bool} (here : s.closed = false) (ready : s.ready = true) :
      OutStep lim s [] (s.connStep waits)
  /-- The client is gone, or the last response is sent. -/
  | closes (here : s.closed = false) : OutStep lim s [] { s with closed := true }

end Askai
