import Askai.Httpd.Chunked
import Askai.Httpd.Framing
import Askai.Util.Buf

/-!
# A connection's input

The buffered input of a connection, as `httpd_conn_read` reads it and `httpd_conn_next` takes requests
and bodies from it, in whatever pieces the bytes come and whatever share of a turn there is.
-/

namespace Askai

open Library

/-- `READ_MIN`. -/
def readMin : Nat := 4096

/-- `in_max` of `struct httpd`. -/
def HttpdLimits.inMax (lim : HttpdLimits) : Nat :=
  lim.head + lim.body + readMin

/-- `enum httpd_next`. -/
inductive HttpdNext where
  | more
  | input
  | yield_
  | wait
  | end_
  deriving DecidableEq, Repr

/-- The input of a connection, and what its last step came to. -/
structure HttpdInput where
  buf : Buf := {}
  req : HttpdReq := {}
  /-- `CONN_CLOSING`. -/
  closing : Bool := false
  next : HttpdNext := .input
  /-- The loop watches for input. -/
  reads : Bool := true

/-- What decides beside the input, in one turn of `httpd_conn_pump`. -/
structure HttpdShare where
  /-- The server drains. -/
  drains : Bool := false
  /-- The step has no share left to begin a request. -/
  yields : Bool := false
  /-- The origin, the policy and the budgets let a request in. -/
  admits : Bool := true
  /-- `loop_room()` for body bytes. -/
  room : Nat
  hold : Nat → Bool := fun _ => true
  /-- The application has ended the stream before the turn is over. -/
  answers : Bool := false
  /-- The connection ends with a response begun in the turn. -/
  closes : Bool := false

/-- `httpd_conn_refuse`. -/
def httpdConnRefuse (s : HttpdInput) : HttpdInput :=
  { s with req := { done := true }, closing := true, next := .end_ }

/-- `httpd_conn_begin`, of the request parsed. -/
def httpdConnBegin (share : HttpdShare) (req : HttpdReq) : HttpdReq :=
  { req with
    parsed := true
    bodyIn := req.bodyIn || (!req.chunked && req.body = 0)
    isOpen := !req.options
    done := req.options || share.answers }

/-- `httpd_conn_parse`. -/
def httpdConnParse (app : StreamApp) (lim : HttpdLimits) (share : HttpdShare) (s : HttpdInput) : HttpdInput :=
  if s.closing || share.drains then { s with next := .end_ }
  else if share.yields then { s with next := .yield_ }
  else
    match httpdConnHeadLength lim s.req.scan s.buf.bytes with
    | (0, scan) =>
      if s.buf.bytes.length < lim.head then
        { s with req := { s.req with scan }, next := .input }
      else httpdConnRefuse s
    | (n, _) =>
      match httpdReqParse s.buf.bytes n app lim with
      | some (.ok (req, bytes)) =>
        if share.admits then
          { s with
            buf := { s.buf with bytes }
            req := httpdConnBegin share req
            closing := share.closes || req.isHead
            next := .more }
        else httpdConnRefuse s
      | _ => httpdConnRefuse s

/-- `httpd_conn_body`. -/
def httpdConnBody (lim : HttpdLimits) (share : HttpdShare) (s : HttpdInput) : HttpdInput :=
  let avail := s.buf.bytes.drop s.req.head
  let len := min avail.length share.room
  let after (req : HttpdReq) (rest : Bytes) : HttpdInput :=
    let req := { req with done := req.done || share.answers }
    { s with
      buf := { s.buf with bytes := s.buf.bytes.take s.req.head ++ rest }
      req := req
      closing := s.closing || share.closes
      next := if req.bodyIn || req.done then .more
        else if len < avail.length then .yield_
        else .input }
  if s.req.chunked then
    match httpdConnSlice lim { req := s.req, rest := avail } len share.hold with
    | .error _ => { s with req := { s.req with done := true }, closing := true, next := .end_ }
    | .ok b => after b.req b.rest
  else
    let left := s.req.body - s.req.got
    let out := min len left
    after
      { s.req with got := sizeAdd s.req.got out, bodyIn := s.req.bodyIn || out = left }
      (avail.drop out)

/-- `httpd_conn_next`. -/
def httpdConnNext (app : StreamApp) (lim : HttpdLimits) (share : HttpdShare) (s : HttpdInput) : HttpdInput :=
  match s.req.done, s.req.bodyIn, s.req.parsed with
  | true, false, _ => { s with next := .end_ }
  | true, true, _ =>
    httpdConnParse app lim share { s with buf := s.buf.consume s.req.head, req := {} }
  | false, _, false => httpdConnParse app lim share s
  | false, true, true => { s with next := .wait }
  | false, false, true => httpdConnBody lim share s

/-- What happens to a connection's input. -/
inductive InputStep (app : StreamApp) (lim : HttpdLimits) (s : HttpdInput) : HttpdInput → Prop
  /-- `httpd_conn_read`: some bytes, or none yet. -/
  | read {memory : Bool} {buf : Buf} {room : Nat} {bytes : Bytes} (reads : s.reads = true)
      (reserved : bufReserve memory s.buf readMin lim.inMax = .ok (buf, room))
      (fits : bytes.length ≤ room) :
      InputStep app lim s { s with buf := buf.commit bytes, next := .more, reads := false }
  /-- A step that does not read. -/
  | pump : InputStep app lim s { s with next := .more, reads := false }
  | turn {share : HttpdShare} (more : s.next = .more) (busy : s.reads = false) :
      InputStep app lim s (httpdConnNext app lim share s)
  /-- `httpd_conn_wait`, of a step that ended for want of input. -/
  | wait (input : s.next = .input) (open_ : s.closing = false) :
      InputStep app lim s { s with reads := true }
  /-- The application ends its stream. -/
  | answer (parsed : s.req.parsed = true) :
      InputStep app lim s { s with req := { s.req with done := true } }
  | close : InputStep app lim s { s with closing := true }
  /-- Storage is given back, or exchanged for less. -/
  | trim {buf : Buf} (same : buf.bytes = s.buf.bytes) : InputStep app lim s { s with buf := buf }

/-- The inputs that a connection may have. -/
def InputReached (app : StreamApp) (lim : HttpdLimits) : HttpdInput → Prop :=
  Relation.ReflTransGen (InputStep app lim) {}

end Askai

/-!
# Room for a connection's input

A connection that waits for input has a head that is not all in buffered, or the head of its request
and what is in of a line of its chunked body: whether there is always room to read more depends on the
longest line that may wait.
-/

namespace Askai

open Library

variable {app : StreamApp} {lim : HttpdLimits}

/-! ## A request as it is parsed -/

/-- What a request says of its progress, which parsing leaves alone. -/
def HttpdReq.progress (req : HttpdReq) :=
  (req.head, req.got, req.chunk, req.bodyIn, req.done, req.parsed, req.chunking, req.trailer, req.trailers)

theorem httpdReqHeader_progress {req req' : HttpdReq} {name value : Bytes} {f : HttpdField}
    {maxBody : Nat} (ok : httpdReqHeader req app name value f maxBody = .ok req') : req'.progress = req.progress := by
  rw [httpdReqHeader] at ok
  cases named : httpdHeader name with
  | none =>
    simp only [named, httpdReqApp] at ok
    cases asked : app.asked name with
    | none =>
      simp only [asked] at ok
      obtain rfl := Except.ok.inj ok
      rfl
    | some i =>
      simp only [asked] at ok
      obtain ⟨out, -, rfl⟩ := map_ok ok
      rfl
  | some header =>
    simp only [named] at ok
    cases header with
    | host | origin | authorization | acrh =>
      obtain ⟨out, -, rfl⟩ := map_ok ok
      rfl
    | contentLength =>
      obtain ⟨-, -, -, -, rfl⟩ := httpdReqLength_ok ok
      rfl
    | transferEncoding =>
      simp only at ok
      split at ok
      · cases ok
      split at ok
      · cases ok
      obtain rfl := Except.ok.inj ok
      rfl
    | connection =>
      simp only at ok
      split at ok
      · obtain rfl := Except.ok.inj ok
        rfl
      split at ok
      · obtain rfl := Except.ok.inj ok
        rfl
      · obtain rfl := Except.ok.inj ok
        rfl
    | expect =>
      simp only at ok
      split at ok
      · cases ok
      obtain rfl := Except.ok.inj ok
      rfl
    | pna =>
      obtain rfl := Except.ok.inj ok
      rfl

theorem httpdReqField_progress {req req' : HttpdReq} {off maxBody : Nat} {line left : Bytes}
    (ok : httpdReqField req app off line maxBody = .ok (req', left)) : req'.progress = req.progress := by
  rw [httpdReqField] at ok
  cases cut_line : cut 58 line with
  | none =>
    rw [cut_line] at ok
    cases ok
  | some parts =>
    obtain ⟨name, after⟩ := parts
    simp only [cut_line] at ok
    split at ok
    · cases ok
    split at ok
    · cases ok
    obtain ⟨out, header, same⟩ := map_ok ok
    obtain ⟨rfl, -⟩ := Prod.mk.inj same
    exact httpdReqHeader_progress header

theorem parseLines_progress {lines : List HeadLine} {front out : Bytes} {fields : Nat}
    {req req' : HttpdReq} (ok : parseLines app lim front fields req lines = .ok (req', out)) :
    req'.progress = req.progress := by
  induction lines generalizing front fields req with
  | nil =>
    obtain ⟨rfl, -⟩ := Prod.mk.inj (Except.ok.inj ok)
    rfl
  | cons l lines ih =>
    rw [parseLines] at ok
    split at ok
    · cases ok
    cases field : httpdReqField req app front.length l.text lim.body with
    | error status =>
      rw [field] at ok
      cases ok
    | ok after =>
      obtain ⟨req₁, left⟩ := after
      rw [field] at ok
      exact (ih ok).trans (httpdReqField_progress field)

theorem httpdReqLine_progress {req req' : HttpdReq} {line left : Bytes}
    (ok : httpdReqLine req line = .ok (req', left)) : req'.progress = req.progress := by
  rw [httpdReqLine] at ok
  split at ok
  · cases ok
  split at ok
  · cases ok
  split at ok
  · cases ok
  split at ok
  · cases ok
  split at ok
  · cases ok
  simp only at ok
  split at ok
  · obtain ⟨rfl, -⟩ := Prod.mk.inj (Except.ok.inj ok)
    rfl
  split at ok
  · obtain ⟨rfl, -⟩ := Prod.mk.inj (Except.ok.inj ok)
    rfl
  split at ok
  · cases ok
  · cases ok

variable {req : HttpdReq}

theorem parseHead_progress {head : HeadLines} {left : Bytes} (ok : parseHead app lim head = .ok (req, left)) :
    req.progress = ({ head := wrap16 head.bytes.length } : HttpdReq).progress := by
  rw [parseHead] at ok
  split at ok
  · cases ok
  cases first : httpdReqLine { head := wrap16 head.bytes.length } head.first.text with
  | error status =>
    rw [first] at ok
    cases ok
  | ok out =>
    obtain ⟨req₁, left₁⟩ := out
    simp only [first] at ok
    cases lines : parseLines app lim (left₁ ++ head.first.nuls) 0 req₁ head.lines with
    | error status =>
      rw [lines] at ok
      cases ok
    | ok after =>
      obtain ⟨req₂, front⟩ := after
      simp only [lines] at ok
      split at ok
      · cases ok
      obtain ⟨rfl, -⟩ := Prod.mk.inj (Except.ok.inj ok)
      exact (parseLines_progress lines).trans (httpdReqLine_progress first)

/-! ## Heads of requests with a chunked body -/

/-- The bytes of a head that is accepted, of a request with a chunked body that is read: a preflight
is answered at once, and the connection ends with the response to a HEAD request. -/
def ChunkedHead (app : StreamApp) (lim : HttpdLimits) (head : Bytes) : Prop :=
  httpdConnHeadLength lim 0 head = (head.length, 0) ∧
    ∃ req left, httpdReqParse head head.length app lim = some (.ok (req, left)) ∧
      req.chunked = true ∧ req.options = false ∧ req.isHead = false

theorem HeadLines.headLength (head : HeadLines) (short : head.bytes.length ≤ lim.head)
    (rest : Bytes) : httpdConnHeadLength lim 0 (head.bytes ++ rest) = (head.bytes.length, 0) := by
  rw [httpdConnHeadLength, List.drop_zero, List.take_append, List.take_of_length_le short,
    httpdHeadScan_bytes, Nat.zero_add]

/-- A head that is found and accepted: the request it begins, and what stands behind it. -/
structure ParsedHead (app : StreamApp) (lim : HttpdLimits) (data bytes : Bytes) (n : Nat)
    (req : HttpdReq) : Prop where
  short : n ≤ lim.head
  inside : n ≤ bytes.length
  behind : bytes.drop n = data.drop n
  progress : req.progress = ({ head := n } : HttpdReq).progress
  chunked : req.chunked = true → req.options = false → req.isHead = false →
    ∃ head, ChunkedHead app lim head ∧ head.length = n

theorem parsed_head {scan n next : Nat} {data bytes : Bytes}
    (searched : Searched lim scan data) (found : httpdConnHeadLength lim scan data = (n, next))
    (some_ : n ≠ 0) (parsed : httpdReqParse data n app lim = some (.ok (req, bytes))) :
    ParsedHead app lim data bytes n req := by
  obtain ⟨head, rest, rfl, rfl, short⟩ := searched.headLength found some_
  have limit := lim.head_le
  rw [httpdReqParse_head] at parsed
  cases accepted : parseHead app lim head with
  | error status =>
    rw [accepted] at parsed
    cases parsed
  | ok out =>
    obtain ⟨req₁, left⟩ := out
    rw [accepted] at parsed
    obtain ⟨rfl, rfl⟩ := Prod.mk.inj (Except.ok.inj (Option.some.inj parsed))
    obtain ⟨line, fields, told⟩ := parseHead_ok short accepted
    have length := told.length
    refine ⟨short, ?_, ?_, ?_, ?_⟩
    · rw [List.length_append, length]
      exact Nat.le_add_right ..
    · rw [← length, List.drop_left, length, List.drop_left]
    · rw [parseHead_progress accepted]
      rw [show wrap16 head.bytes.length = head.bytes.length from Nat.mod_eq_of_lt (by omega)]
    · intro chunked options isHead
      refine ⟨head.bytes, ⟨?_, req₁, left ++ [], ?_, chunked, options, isHead⟩, rfl⟩
      · have alone := head.headLength short []
        rw [List.append_nil] at alone
        exact alone
      · have alone := httpdReqParse_head app lim head []
        rw [List.append_nil, accepted] at alone
        exact alone

theorem Searched.append {scan : Nat} {data : Bytes} (searched : Searched lim scan data)
    (more : Bytes) : Searched lim scan (data ++ more) := by
  cases searched with
  | start => exact .start _
  | again searched partial_ behind =>
    rw [List.append_assoc]
    exact .again searched partial_ _

/-! ## A body under way -/

/-- What has been handed on makes no difference to a call. -/
theorem httpdConnSlice_handed (lim : HttpdLimits) (b : HttpdBody) (handed : Bytes) (len : Nat) (hold : Nat → Bool) :
    httpdConnSlice lim { b with handed := handed ++ b.handed } len hold =
      (httpdConnSlice lim b len hold).map fun b' => { b' with handed := handed ++ b'.handed } := by
  rw [httpdConnSlice, httpdConnSlice]
  cases httpdConnDechunk lim hold b.req (b.rest.take len) with
  | error status => rfl
  | ok out =>
    obtain ⟨req, raw, used, out⟩ := out
    dsimp only [bind, Except.bind, Except.map]
    rw [List.append_assoc]

/-- What a request says of its head, which decoding its body leaves alone. -/
def HttpdReq.fixed (req : HttpdReq) :=
  (req.head, req.parsed, req.chunked, req.done, req.options, req.isHead)

theorem httpdDechunkTurn_fixed {req req' : HttpdReq} {d d' : HttpdDechunk}
    (taken : httpdDechunkTurn lim req d = .ok (req', d')) : req'.fixed = req.fixed := by
  rw [httpdDechunkTurn] at taken
  split at taken
  · obtain ⟨-, -, rfl, -⟩ | ⟨l, rest, -, -, -, -, rfl, -⟩ := chunkSize_ok taken <;> rfl
  · obtain ⟨rfl, -⟩ := Prod.mk.inj (Except.ok.inj taken)
    rfl
  · obtain ⟨-, rfl, -⟩ | ⟨rest, -, rfl, -⟩ := chunkEnd_ok taken <;> rfl
  · obtain ⟨-, -, rfl, -⟩ | ⟨rest, -, -, -, rfl, -⟩ | ⟨l, rest, -, -, -, rfl, -⟩ :=
      trailer_ok taken <;> rfl

theorem httpdDechunkLoop_fixed {len : Nat} {req req' : HttpdReq} {d d' : HttpdDechunk}
    (done : httpdDechunkLoop lim len req d = .ok (req', d')) : req'.fixed = req.fixed := by
  induction req, d using httpdDechunkLoop.induct lim len with
  | case1 req d more status taken =>
    rw [httpdDechunkLoop, if_pos more, taken] at done
    cases done
  | case2 req d more req₁ d₁ taken same =>
    rw [httpdDechunkLoop, if_pos more, taken] at done
    dsimp only at done
    rw [if_pos same] at done
    obtain ⟨rfl, -⟩ := Prod.mk.inj (Except.ok.inj done)
    exact httpdDechunkTurn_fixed taken
  | case3 req d more req₁ d₁ taken moved ih =>
    rw [httpdDechunkLoop, if_pos more, taken] at done
    dsimp only at done
    rw [if_neg moved] at done
    exact (ih done).trans (httpdDechunkTurn_fixed taken)
  | case4 req d ended =>
    rw [httpdDechunkLoop, if_neg ended] at done
    obtain ⟨rfl, -⟩ := Prod.mk.inj (Except.ok.inj done)
    rfl

theorem httpdConnSlice_fixed {b b' : HttpdBody} {len : Nat} {hold : Nat → Bool}
    (called : httpdConnSlice lim b len hold = .ok b') : b'.req.fixed = b.req.fixed := by
  obtain ⟨req, d, loop, rfl⟩ := Going.call_ok called
  have kept := httpdDechunkLoop_fixed loop
  exact kept

/-- A chunked body is under way, of the request `req` and with the bytes `rest` in. -/
def UnderWay (lim : HttpdLimits) (req : HttpdReq) (rest : Bytes) : Prop :=
  ∃ stream front handed, Going lim stream { req, rest, handed } front

theorem UnderWay.append {rest : Bytes} (way : UnderWay lim req rest)
    (more : Bytes) : UnderWay lim req (rest ++ more) := by
  obtain ⟨stream, front, handed, going⟩ := way
  refine ⟨stream ++ more, front, handed, ⟨?_, going.got, going.body, going.trailer, going.took⟩⟩
  rw [going.whole, List.append_assoc]

theorem UnderWay.done {rest : Bytes} (way : UnderWay lim req rest) (done : Bool) :
    UnderWay lim { req with done } rest := by
  obtain ⟨stream, front, handed, going⟩ := way
  exact ⟨stream, front, handed, ⟨going.whole, going.got, going.body, going.trailer,
    going.took.alike rfl rfl rfl ⟨rfl, rfl⟩⟩⟩

/-- A call brings a body on. -/
theorem UnderWay.slice {rest : Bytes} {len : Nat} {hold : Nat → Bool}
    {b : HttpdBody} (way : UnderWay lim req rest) (small : lim.body < sizeWrap)
    (called : httpdConnSlice lim { req, rest } len hold = .ok b) : UnderWay lim b.req b.rest ∧
      ∃ used, b.rest = rest.drop used ∧ (used = (rest.take len).length ∨ b.req.bodyIn = true ∨
        Inside.Waits lim b.req ((rest.take len).drop used)) := by
  obtain ⟨stream, front, handed, going⟩ := way
  have handed_eq : httpdConnSlice lim { req, rest, handed } len hold = .ok { b with handed := handed ++ b.handed } := by
    have same := httpdConnSlice_handed lim { req, rest } handed len hold
    rw [called, List.append_nil] at same
    exact same
  obtain ⟨used, goes⟩ := going.call small handed_eq
  exact ⟨⟨stream, _, _, goes.going⟩, used, goes.rest, goes.stops⟩

/-! ## What waits -/

/-- What a connection that waits for input has buffered. -/
structure Waiting (lim : HttpdLimits) (s : HttpdInput) : Prop where
  head : s.req.parsed = false → s.buf.bytes.length ≤ lim.head
  open_ : s.req.parsed = true → s.req.bodyIn = false ∧ s.req.options = false
  plain : s.req.parsed = true → s.req.chunked = false → s.buf.bytes.drop s.req.head = []
  chunked : s.req.parsed = true → s.req.chunked = true →
    s.buf.bytes.drop s.req.head = [] ∨ Inside.Waits lim s.req (s.buf.bytes.drop s.req.head)

/-- What holds of a connection's input whatever comes and when. -/
structure InputInv (app : StreamApp) (lim : HttpdLimits) (s : HttpdInput) : Prop where
  searched : s.req.parsed = false → Searched lim s.req.scan s.buf.bytes
  head : s.req.parsed = true → s.req.head ≤ s.buf.bytes.length ∧ s.req.head ≤ lim.head
  chunked : s.req.parsed = true → s.req.bodyIn = false → s.req.chunked = true →
    (s.req.options = false → s.req.isHead = false → ∃ head, ChunkedHead app lim head ∧ head.length = s.req.head) ∧
      UnderWay lim s.req (s.buf.bytes.drop s.req.head)
  options : s.req.parsed = true → s.req.options = true → s.req.done = true
  closing : s.req.parsed = true → s.req.isHead = true → s.closing = true
  waiting : s.next = .input → Waiting lim s
  reads : s.reads = true → s.next = .input ∧ (s.req.parsed = true → s.req.isHead = false)

namespace InputInv

variable {s : HttpdInput} {share : HttpdShare}

/-- Before a head is parsed, only its search counts. -/
theorem of_unparsed (unparsed : s.req.parsed = false) (searched : Searched lim s.req.scan s.buf.bytes)
    (waits : s.next = .input → s.buf.bytes.length ≤ lim.head)
    (reads : s.reads = true → s.next = .input) : InputInv app lim s := by
  have absurd_ {p : Prop} (parsed : s.req.parsed = true) : p := by
    rw [unparsed] at parsed
    cases parsed
  exact ⟨fun _ => searched, absurd_, absurd_, absurd_, absurd_,
    fun input => ⟨fun _ => waits input, absurd_, absurd_, absurd_⟩, fun on => ⟨reads on, absurd_⟩⟩

theorem start : InputInv app lim {} :=
  of_unparsed rfl (.start _) (fun _ => Nat.zero_le _) fun _ => rfl

theorem refuse (busy : s.reads = false) : InputInv app lim (httpdConnRefuse s) :=
  of_unparsed rfl (.start _) nofun fun on => by cases busy.symm.trans on

/-- A request that is let in begins. -/
theorem take_in {data bytes : Bytes} {n : Nat} (busy : s.reads = false)
    (head : ParsedHead app lim data bytes n req) : InputInv app lim
      { s with
        buf := { s.buf with bytes }
        req := httpdConnBegin share req
        closing := share.closes || req.isHead
        next := .more } := by
  obtain ⟨head_eq, got, chunk, open_, -, -, state, trailer, trailers⟩ :
      req.head = n ∧ req.got = 0 ∧ req.chunk = 0 ∧ req.bodyIn = false ∧ req.done = false ∧
        req.parsed = false ∧ req.chunking = .size ∧ req.trailer = 0 ∧ req.trailers = 0 := by
    simpa only [HttpdReq.progress, Prod.mk.injEq] using head.progress
  refine ⟨nofun, fun _ => ?_, fun _ open_ chunked => ⟨?_, bytes.drop req.head, [], [], ?_⟩,
    fun _ options => ?_, fun _ isHead => ?_, nofun, fun on => by cases busy.symm.trans on⟩
  · change req.head ≤ bytes.length ∧ req.head ≤ lim.head
    rw [head_eq]
    exact ⟨head.inside, head.short⟩
  · change req.options = false → req.isHead = false → ∃ h, ChunkedHead app lim h ∧ h.length = req.head
    rw [head_eq]
    exact head.chunked chunked
  · have begins : ChunkedBegins (httpdConnBegin share req) :=
      ⟨open_, state, got, chunk, trailer, trailers⟩
    exact begins.going (bytes.drop req.head)
  · change (req.options || share.answers) = true
    rw [show req.options = true from options, Bool.true_or]
  · change (share.closes || req.isHead) = true
    rw [show req.isHead = true from isHead, Bool.or_true]

theorem parse (unparsed : s.req.parsed = false) (searched : Searched lim s.req.scan s.buf.bytes)
    (busy : s.reads = false) : InputInv app lim (httpdConnParse app lim share s) := by
  have quiet {p : Prop} (on : s.reads = true) : p := by cases busy.symm.trans on
  rw [httpdConnParse]
  split
  · exact of_unparsed unparsed searched nofun quiet
  split
  · exact of_unparsed unparsed searched nofun quiet
  split
  · next scan found =>
      split
      · next short =>
          have again := searched.again found []
          rw [List.append_nil] at again
          exact of_unparsed unparsed again (fun _ => Nat.le_of_lt short) quiet
      · exact refuse busy
  · next n next some_ found =>
      split
      · next req bytes parsed =>
          split
          · exact take_in busy (parsed_head searched found (fun none_ => some_ none_) parsed)
          · exact refuse busy
      · exact refuse busy

/-- The head stays while the body is cut out behind it. -/
theorem head_kept {bytes rest : Bytes} {n : Nat} (inside : n ≤ bytes.length) :
    (bytes.take n ++ rest).drop n = rest ∧ n ≤ (bytes.take n ++ rest).length := by
  have length : (bytes.take n).length = n := List.length_take_of_le inside
  constructor
  · exact List.drop_left' length
  · rw [List.length_append, length]
    exact Nat.le_add_right ..

/-- A turn that comes to wait for input has had all that is in. -/
theorem input_inv {bodyIn done : Bool} {len avail : Nat}
    (input : (if bodyIn || done then HttpdNext.more else if len < avail then .yield_ else .input) =
      .input) : bodyIn = false ∧ avail ≤ len := by
  split at input
  · cases input
  · next open_ =>
      split at input
      · cases input
      · next all =>
          rw [Bool.or_eq_true, not_or] at open_
          exact ⟨Bool.eq_false_iff.mpr open_.1, Nat.le_of_not_lt all⟩

theorem body (inv : InputInv app lim s) (small : lim.body < sizeWrap) (parsed : s.req.parsed = true)
    (open_ : s.req.bodyIn = false) (undone : s.req.done = false) (busy : s.reads = false) :
    InputInv app lim (httpdConnBody lim share s) := by
  obtain ⟨inside, short⟩ := inv.head parsed
  have quiet {p : Prop} (on : s.reads = true) : p := by cases busy.symm.trans on
  have plain_ : s.req.options = false := by
    rw [Bool.eq_false_iff]
    intro options
    cases undone.symm.trans (inv.options parsed options)
  rw [httpdConnBody]
  dsimp only
  split
  · next chunked =>
      obtain ⟨head, way⟩ := inv.chunked parsed open_ chunked
      cases called : httpdConnSlice lim { req := s.req, rest := s.buf.bytes.drop s.req.head }
          (min (s.buf.bytes.drop s.req.head).length share.room) share.hold with
      | error status =>
        refine ⟨?_, fun _ => ⟨inside, short⟩, fun _ _ _ => ⟨head, way.done true⟩, fun _ _ => rfl,
          fun _ _ => rfl, nofun, quiet⟩
        intro unparsed
        cases parsed.symm.trans unparsed
      | ok b =>
        obtain ⟨way', used, rest, stops⟩ := way.slice small called
        obtain ⟨head_eq, parsed_eq, chunked_eq, done_eq, options_eq, isHead_eq⟩ :
            b.req.head = s.req.head ∧ b.req.parsed = s.req.parsed ∧
              b.req.chunked = s.req.chunked ∧ b.req.done = s.req.done ∧
              b.req.options = s.req.options ∧ b.req.isHead = s.req.isHead := by
          simpa only [HttpdReq.fixed, Prod.mk.injEq] using httpdConnSlice_fixed called
        obtain ⟨behind, longer⟩ := head_kept inside
        rw [← head_eq] at behind longer short rest stops
        rw [← head_eq, ← options_eq, ← isHead_eq] at head
        have parsed' := parsed_eq.trans parsed
        have chunked' := chunked_eq.trans chunked
        dsimp only
        rw [← head_eq]
        refine ⟨?_, fun _ => ⟨longer, short⟩, fun _ _ _ => ⟨head, ?_⟩, fun _ options => ?_,
          fun _ isHead => ?_, fun input => ?_, quiet⟩
        · intro unparsed
          cases parsed'.symm.trans unparsed
        · change UnderWay lim _ ((s.buf.bytes.take b.req.head ++ b.rest).drop b.req.head)
          rw [behind]
          exact way'.done _
        · cases (options_eq.trans plain_).symm.trans options
        · change (s.closing || share.closes) = true
          rw [inv.closing parsed (isHead_eq.symm.trans isHead), Bool.true_or]
        · obtain ⟨more, all⟩ := input_inv input
          refine ⟨fun unparsed => ?_, fun _ => ⟨more, options_eq.trans plain_⟩, fun _ plain => ?_, fun _ _ => ?_⟩
          · cases parsed'.symm.trans unparsed
          · cases chunked'.symm.trans plain
          · rw [List.take_of_length_le all] at stops
            rw [behind, rest]
            rcases stops with all | in_ | waits
            · left
              exact List.drop_of_length_le (Nat.le_of_eq all.symm)
            · cases more.symm.trans in_
            · right
              exact waits
  · next plain =>
      obtain ⟨behind, longer⟩ := head_kept inside
      refine ⟨fun unparsed => ?_, fun _ => ⟨longer, short⟩, fun _ _ chunked => ?_,
        fun _ options => ?_, fun _ isHead => ?_, fun input => ?_, quiet⟩
      · cases parsed.symm.trans unparsed
      · exact absurd chunked plain
      · cases plain_.symm.trans options
      · change (s.closing || share.closes) = true
        rw [inv.closing parsed isHead, Bool.true_or]
      · obtain ⟨more, all⟩ := input_inv input
        refine ⟨fun unparsed => ?_, fun _ => ⟨more, plain_⟩, fun _ _ => ?_, fun _ chunked => ?_⟩
        · cases parsed.symm.trans unparsed
        · rw [behind]
          apply List.drop_of_length_le
          rw [Bool.or_eq_false_iff, decide_eq_false_iff_not] at more
          omega
        · exact absurd chunked plain

/-- What comes next makes no difference, but that a connection waits for input. -/
theorem goOn (inv : InputInv app lim s) {next : HttpdNext} (other : next ≠ .input) :
    InputInv app lim { s with next, reads := false } :=
  ⟨inv.searched, inv.head, inv.chunked, inv.options, inv.closing, fun input => absurd input other, nofun⟩

theorem next (inv : InputInv app lim s) (small : lim.body < sizeWrap) (busy : s.reads = false) :
    InputInv app lim (httpdConnNext app lim share s) := by
  have quiet (next : HttpdNext) (other : next ≠ .input) : InputInv app lim { s with next } := by
    have gone := inv.goOn other
    rw [← busy] at gone
    exact gone
  rw [httpdConnNext]
  split
  · exact quiet _ nofun
  · exact parse rfl (.start _) busy
  · next unparsed => exact parse unparsed (inv.searched unparsed) busy
  · exact quiet _ nofun
  · next undone open_ parsed => exact inv.body small parsed open_ undone busy

theorem step (inv : InputInv app lim s) (small : lim.body < sizeWrap) {t : HttpdInput}
    (step : InputStep app lim s t) : InputInv app lim t := by
  cases step with
  | @read memory buf room bytes reads reserved fits =>
    obtain ⟨same, -, -⟩ := bufReserve_ok reserved
    have grown : (buf.commit bytes).bytes = s.buf.bytes ++ bytes := by rw [Buf.commit, same]
    refine ⟨fun unparsed => ?_, fun parsed => ?_, fun parsed open_ chunked => ?_, inv.options,
      inv.closing, nofun, nofun⟩
    · rw [grown]
      exact (inv.searched unparsed).append bytes
    · obtain ⟨inside, short⟩ := inv.head parsed
      rw [grown, List.length_append]
      exact ⟨Nat.le_add_right_of_le inside, short⟩
    · obtain ⟨head, way⟩ := inv.chunked parsed open_ chunked
      rw [grown, List.drop_append_of_le_length (inv.head parsed).1]
      exact ⟨head, way.append bytes⟩
  | pump => exact inv.goOn nofun
  | turn more busy => exact inv.next small busy
  | wait input open_ =>
    refine ⟨inv.searched, inv.head, inv.chunked, inv.options, inv.closing, fun input => ?_,
      fun _ => ⟨input, fun parsed => ?_⟩⟩
    · have waiting := inv.waiting input
      exact ⟨waiting.head, waiting.open_, waiting.plain, waiting.chunked⟩
    · rw [Bool.eq_false_iff]
      intro isHead
      cases open_.symm.trans (inv.closing parsed isHead)
  | answer parsed =>
    refine ⟨inv.searched, inv.head, fun parsed open_ chunked => ?_, fun _ _ => rfl, inv.closing,
      fun input => ?_, inv.reads⟩
    · obtain ⟨head, way⟩ := inv.chunked parsed open_ chunked
      exact ⟨head, way.done true⟩
    · have waiting := inv.waiting input
      exact ⟨waiting.head, waiting.open_, waiting.plain, waiting.chunked⟩
  | close =>
    refine ⟨inv.searched, inv.head, inv.chunked, inv.options, fun _ _ => rfl, fun input => ?_, inv.reads⟩
    have waiting := inv.waiting input
    exact ⟨waiting.head, waiting.open_, waiting.plain, waiting.chunked⟩
  | @trim buf same =>
    refine ⟨?_, ?_, ?_, inv.options, inv.closing, fun input => ?_, inv.reads⟩
    · rw [same]
      exact inv.searched
    · rw [same]
      exact inv.head
    · rw [same]
      exact inv.chunked
    · have waiting := inv.waiting input
      refine ⟨?_, waiting.open_, ?_, ?_⟩
      · rw [same]
        exact waiting.head
      · rw [same]
        exact waiting.plain
      · rw [same]
        exact waiting.chunked

theorem reached (small : lim.body < sizeWrap) (reached : InputReached app lim s) : InputInv app lim s := by
  induction reached with
  | refl => exact start
  | tail _ last ih => exact ih.step small last

end InputInv

/-- The most that may be in of a line, or of a CRLF, that a turn waits for. -/
theorem Inside.Waits.length_le {left : Bytes} (waits : Inside.Waits lim req left) :
    left.length ≤ max (chunkLine - 1) (lim.head - 1) := by
  rw [Inside.Waits] at waits
  have line : chunkLine = 1024 := rfl
  split at waits
  · have short := waits.2
    omega
  · exact waits.elim
  · omega
  · have short := waits.2
    omega

/-- There is room for the longest line that may wait behind any head of a request with a chunked
body. -/
def RoomForLines (app : StreamApp) (lim : HttpdLimits) : Prop :=
  ∀ head, ChunkedHead app lim head →
    head.length + max (chunkLine - 1) (lim.head - 1) ≤ lim.head + lim.body

/-- If so, there is room for more whenever a connection reads. -/
theorem input_fits (small : lim.body < sizeWrap) (lines : RoomForLines app lim) {s : HttpdInput}
    (reached : InputReached app lim s) (reads : s.reads = true) : s.buf.bytes.length + readMin ≤ lim.inMax := by
  have inv := InputInv.reached small reached
  obtain ⟨input, served⟩ := inv.reads reads
  have waiting := inv.waiting input
  rw [HttpdLimits.inMax]
  cases parsed : s.req.parsed with
  | false =>
    have head := waiting.head parsed
    omega
  | true =>
    obtain ⟨inside, short⟩ := inv.head parsed
    have behind : (s.buf.bytes.drop s.req.head).length = s.buf.bytes.length - s.req.head :=
      List.length_drop
    cases chunked : s.req.chunked with
    | false =>
      rw [waiting.plain parsed chunked, List.length_nil] at behind
      omega
    | true =>
      obtain ⟨open_, options⟩ := waiting.open_ parsed
      obtain ⟨known, -⟩ := inv.chunked parsed open_ chunked
      obtain ⟨head, is, length⟩ := known options (served parsed)
      have room := lines head is
      rcases waiting.chunked parsed chunked with none_ | waits
      · rw [none_, List.length_nil] at behind
        omega
      · have most := waits.length_le
        omega

end Askai
