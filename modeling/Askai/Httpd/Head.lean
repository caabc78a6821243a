import Askai.Util.Text

/-!
# The head of a request

How a client loop finds the end of a request's head and parses it in place, and the head of the
response that answers it (`httpd.c`).  The buffer is kept as what lies before the cursor, as the
parse left it, and what follows.  No read goes beyond the bytes: where one would, there is no result.
-/

namespace Askai

open Library

/-- What the parsing of requests reads of `struct httpd_limits`. -/
structure HttpdLimits where
  body : Nat
  head : Nat
  fields : Nat
  /-- Offsets into a head take 16 bits. -/
  head_le : head ≤ 65535

/-- The header fields that the application asks for (`struct stream_app`). -/
structure StreamApp where
  fields : List Bytes
  /-- Bit `i`: field `i` may come in several lines. -/
  lists : Nat
  few : fields.length ≤ 8

/-- `struct httpd_field`; an offset of 0 is of no field. -/
structure HttpdField where
  off : Nat := 0
  len : Nat := 0
  deriving DecidableEq, Repr

/-- `enum httpd_chunk`. -/
inductive HttpdChunk where
  | size | data | crlf | trailer
  deriving DecidableEq, Repr

/-- `struct httpd_req`, with its flags one by one. -/
structure HttpdReq where
  body : Nat := 0
  got : Nat := 0
  chunk : Nat := 0
  /-- `REQ_LENGTH`. -/
  length : Bool := false
  /-- `REQ_CHUNKED`. -/
  chunked : Bool := false
  /-- `REQ_HTTP10`. -/
  http10 : Bool := false
  /-- `REQ_CLOSE`. -/
  close : Bool := false
  /-- `REQ_EXPECT`. -/
  expect : Bool := false
  /-- `REQ_PNA`. -/
  pna : Bool := false
  /-- `REQ_OPTIONS`. -/
  options : Bool := false
  /-- `REQ_HEAD`. -/
  isHead : Bool := false
  /-- `REQ_PARSED`. -/
  parsed : Bool := false
  /-- `REQ_BODY_IN`. -/
  bodyIn : Bool := false
  /-- `REQ_OPEN`. -/
  isOpen : Bool := false
  /-- `REQ_REPLIED`. -/
  replied : Bool := false
  /-- `REQ_DONE`. -/
  done : Bool := false
  /-- `REQ_CHUNKS`. -/
  chunks : Bool := false
  chunking : HttpdChunk := .size
  head : Nat := 0
  scan : Nat := 0
  trailer : Nat := 0
  trailers : Nat := 0
  target : HttpdField := {}
  host : HttpdField := {}
  origin : HttpdField := {}
  auth : HttpdField := {}
  acrh : HttpdField := {}
  app : Nat → HttpdField := fun _ => {}

/-- A `uint16_t`. -/
def wrap16 (n : Nat) : Nat :=
  n % 65536

/-! ## Bytes of a head -/

/-- `httpd_tchar`. -/
def httpdTchar (c : UInt8) : Bool :=
  (48 ≤ c && c ≤ 57) || (97 ≤ c && c ≤ 122) || (65 ≤ c && c ≤ 90) ||
    (ascii "!#$%&'*+-.^_`|~").contains c

/-- `httpd_token`. -/
def httpdToken (s : Bytes) : Bool :=
  s.all httpdTchar

/-- A control character other than a tab (`httpd_ctl`). -/
def httpdCtl (c : UInt8) : Bool :=
  (c < 32 && c ≠ 9) || c = 127

/-- `cstr_view_list_has`. -/
def cstrViewListHas (list token : Bytes) : Bool :=
  (list.splitOn 44).any fun item =>
    cstrViewEqualCase (cstrViewTrim (((cut 59 item).map Prod.fst).getD item)) token

/-! ## Finding the head's end -/

/-- The loop of `httpd_conn_head_length`, with the bytes from `i` on: the head's length, or where to
go on. -/
def httpdHeadScan (i : Nat) (rest : Bytes) : Except Nat Nat :=
  match _found : cut lf rest with
  | none => .error (i + rest.length)
  | some (line, rest) =>
    let i := i + line.length + 1
    let crs := if rest.head? = some cr then 1 else 0
    match rest.drop crs with
    | [] => .error (i - 1)
    | c :: _ => if c = lf then .ok (i + crs + 1) else httpdHeadScan i rest
termination_by rest.length
decreasing_by
  have less := cut_length _found
  omega

/-- `httpd_conn_head_length`: the head's length, 0 while it is partial, and `req.scan`. -/
def httpdConnHeadLength (lim : HttpdLimits) (scan : Nat) (input : Bytes) : Nat × Nat :=
  match httpdHeadScan scan ((input.take lim.head).drop scan) with
  | .ok n => (n, scan)
  | .error i => (0, wrap16 i)

/-! ## Parsing it -/

/-- `httpd_next_line`: the line, the bytes that its end took, and what follows; none if no LF comes
before a NUL. -/
def httpdNextLine (cursor : Bytes) : Option (Bytes × Nat × Bytes) :=
  match cut lf cursor with
  | none => none
  | some (line, rest) =>
    if nul ∈ line then none
    else if line.getLast? = some cr then some (line.dropLast, 2, rest)
    else some (line, 1, rest)

/-- `httpd_field_keep`. -/
def httpdFieldKeep (kept f : HttpdField) (list : Bool) : Except Nat HttpdField :=
  if kept.off = 0 then .ok f else if list then .ok kept else .error 400

/-- The first of the application's fields with the name. -/
def StreamApp.asked (app : StreamApp) (name : Bytes) : Option Nat :=
  app.fields.findIdx? fun field => cstrViewEqualCase name field

/-- `httpd_req_app`. -/
def httpdReqApp (req : HttpdReq) (app : StreamApp) (name : Bytes) (f : HttpdField) : Except Nat HttpdReq :=
  match app.asked name with
  | none => .ok req
  | some i =>
    (httpdFieldKeep (req.app i) f (app.lists.testBit i)).map fun kept =>
      { req with app := Function.update req.app i kept }

/-- `httpd_req_length`. -/
def httpdReqLength (req : HttpdReq) (value : Bytes) (maxBody : Nat) : Except Nat HttpdReq :=
  let n := (value.takeWhile digit).length
  if n = 0 || n < value.length || req.length then .error 400
  else
    let (digits, body) := utilDigits value maxBody 0 0
    if digits ≠ n then .error 413 else .ok { req with body, length := true }

/-- `enum httpd_header`. -/
inductive HttpdHeader where
  | host | origin | authorization | acrh | contentLength | transferEncoding | connection | expect
  | pna
  deriving DecidableEq, Repr

def httpdHeaders : List (HttpdHeader × Bytes) :=
  [(.host, ascii "host"), (.origin, ascii "origin"), (.authorization, ascii "authorization"),
    (.acrh, ascii "access-control-request-headers"), (.contentLength, ascii "content-length"),
    (.transferEncoding, ascii "transfer-encoding"), (.connection, ascii "connection"),
    (.expect, ascii "expect"), (.pna, ascii "access-control-request-private-network")]

/-- `httpd_header`. -/
def httpdHeader (name : Bytes) : Option HttpdHeader :=
  (httpdHeaders.find? fun header => cstrViewEqualCase name header.2).map Prod.fst

/-- `httpd_req_header`. -/
def httpdReqHeader (req : HttpdReq) (app : StreamApp) (name value : Bytes) (f : HttpdField)
    (maxBody : Nat) : Except Nat HttpdReq :=
  match httpdHeader name with
  | some .host => (httpdFieldKeep req.host f false).map fun host => { req with host }
  | some .origin => (httpdFieldKeep req.origin f false).map fun origin => { req with origin }
  | some .authorization => (httpdFieldKeep req.auth f false).map fun auth => { req with auth }
  | some .acrh => (httpdFieldKeep req.acrh f false).map fun acrh => { req with acrh }
  | some .contentLength => httpdReqLength req value maxBody
  | some .transferEncoding =>
    if req.chunked then .error 400
    else if !equalCase value (ascii "chunked") then .error 501
    else .ok { req with chunked := true }
  | some .connection =>
    if cstrViewListHas value (ascii "close") then .ok { req with close := true }
    else if req.http10 && cstrViewListHas value (ascii "keep-alive") then
      .ok { req with close := false }
    else .ok req
  | some .expect =>
    if !equalCase value (ascii "100-continue") then .error 417
    else .ok { req with expect := req.expect || !req.http10 }
  | some .pna => .ok { req with pna := equalCase value (ascii "true") }
  | none => httpdReqApp req app name f

/-- `httpd_req_field`, of a line at `off`: also the line as it is left. -/
def httpdReqField (req : HttpdReq) (app : StreamApp) (off : Nat) (line : Bytes) (maxBody : Nat) :
    Except Nat (HttpdReq × Bytes) :=
  match cut 58 line with
  | none => .error 400
  | some (name, after) =>
    if name = [] || !httpdToken name then .error 400
    else
      let blanks := after.takeWhile blank
      let text := after.dropWhile blank
      if text.any httpdCtl then .error 400
      else
        let value := text.rdropWhile blank
        let f : HttpdField :=
          { off := wrap16 (off + name.length + 1 + blanks.length), len := wrap16 value.length }
        let left := name ++ nul :: blanks ++ value ++
          List.replicate (text.length - value.length) nul
        (httpdReqHeader req app name value f maxBody).map fun req => (req, left)

/-- `httpd_req_line`: also the line as it is left. -/
def httpdReqLine (req : HttpdReq) (line : Bytes) : Except Nat (HttpdReq × Bytes) :=
  if line.any fun c => c < 32 || c = 127 then .error 400
  else
    match cut space line with
    | none => .error 400
    | some (method, rest) =>
      if method = [] then .error 400
      else
        match cut space rest with
        | none => .error 400
        | some (target, version) =>
          if target = [] || version.contains space || !httpdToken method then .error 400
          else
            let field : HttpdField :=
              { off := wrap16 (method.length + 1), len := wrap16 target.length }
            let left := method ++ nul :: target ++ nul :: version
            let flagged (http10 : Bool) : HttpdReq :=
              { req with
                target := field
                http10 := req.http10 || http10
                close := req.close || http10
                options := req.options || method = ascii "OPTIONS"
                isHead := req.isHead || method = ascii "HEAD" }
            if version = ascii "HTTP/1.0" then .ok (flagged true, left)
            else if version = ascii "HTTP/1.1" then .ok (flagged false, left)
            else if ascii "HTTP/" <+: version then .error 505
            else .error 400

theorem httpdNextLine_eq_some {cursor line rest : Bytes} {eol : Nat}
    (next : httpdNextLine cursor = some (line, eol, rest)) : nul ∉ line ∧ lf ∉ line ∧
      (eol = 2 ∧ cursor = line ++ cr :: lf :: rest ∨
        eol = 1 ∧ cursor = line ++ lf :: rest ∧ line.getLast? ≠ some cr) := by
  rw [httpdNextLine] at next
  cases found : cut lf cursor with
  | none => simp [found] at next
  | some parts =>
    obtain ⟨whole, back⟩ := parts
    obtain ⟨rfl, absent⟩ := cut_eq_some.mp found
    simp only [found] at next
    split at next
    · cases next
    rename_i clear
    split at next
    · rename_i last
      obtain ⟨rfl, rfl, rfl⟩ : whole.dropLast = line ∧ 2 = eol ∧ back = rest := by
        simpa using next
      obtain ⟨front, rfl⟩ := List.getLast?_eq_some_iff.mp last
      rw [List.dropLast_concat]
      refine ⟨fun inside => clear ?_, fun inside => absent ?_, .inl ⟨rfl, ?_⟩⟩
      · exact List.mem_append_left _ inside
      · exact List.mem_append_left _ inside
      · simp
    · rename_i last
      obtain ⟨rfl, rfl, rfl⟩ : whole = line ∧ 1 = eol ∧ back = rest := by
        simpa using next
      exact ⟨clear, absent, .inr ⟨rfl, rfl, last⟩⟩

theorem httpdNextLine_length {cursor line rest : Bytes} {eol : Nat}
    (next : httpdNextLine cursor = some (line, eol, rest)) : rest.length < cursor.length := by
  obtain ⟨-, -, ⟨-, rfl⟩ | ⟨-, rfl, -⟩⟩ := httpdNextLine_eq_some next
  · simp only [List.length_append, List.length_cons]
    omega
  · simp only [List.length_append, List.length_cons]
    omega

/-- The loop of `httpd_req_parse` over the header lines, after `front`: its error, or the request and
the buffer as it is left. -/
def httpdReqFields (app : StreamApp) (lim : HttpdLimits) (front rest : Bytes) (fields : Nat)
    (req : HttpdReq) : Option (Except Nat (HttpdReq × Bytes)) :=
  match _next : httpdNextLine rest with
  | none => none
  | some (line, eol, rest) =>
    if line = [] then some (.ok (req, front ++ List.replicate eol nul ++ rest))
    else if lim.fields < fields + 1 then some (.error 431)
    else
      match httpdReqField req app front.length line lim.body with
      | .error status => some (.error status)
      | .ok (req, left) =>
        httpdReqFields app lim (front ++ left ++ List.replicate eol nul) rest (fields + 1) req
termination_by rest.length
decreasing_by exact httpdNextLine_length _next

/-- `httpd_req_parse`, of the head of `len` bytes that begins `data`. -/
def httpdReqParse (data : Bytes) (len : Nat) (app : StreamApp) (lim : HttpdLimits) :
    Option (Except Nat (HttpdReq × Bytes)) :=
  if nul ∈ data.take len then some (.error 400)
  else
    match httpdNextLine data with
    | none => none
    | some (line, eol, rest) =>
      match httpdReqLine { head := wrap16 len } line with
      | .error status => some (.error status)
      | .ok (req, left) =>
        match httpdReqFields app lim (left ++ List.replicate eol nul) rest 0 req with
        | some (.ok (req, data)) =>
          if req.chunked && (req.length || req.http10) then some (.error 400)
          else some (.ok (req, data))
        | other => other

/-! ## The response's head -/

/-- `httpd_conn_field`: the bytes of a field, none if it is absent. -/
def httpdConnField (head : Bytes) (f : HttpdField) : Option Bytes :=
  if f.off = 0 then none else some ((head.drop f.off).take f.len)

/-- `httpd_reason`. -/
def httpdReason : Nat → Bytes
  | 200 => ascii "OK"
  | 202 => ascii "Accepted"
  | 204 => ascii "No Content"
  | 400 => ascii "Bad Request"
  | 401 => ascii "Unauthorized"
  | 403 => ascii "Forbidden"
  | 404 => ascii "Not Found"
  | 405 => ascii "Method Not Allowed"
  | 408 => ascii "Request Timeout"
  | 413 => ascii "Content Too Large"
  | 415 => ascii "Unsupported Media Type"
  | 417 => ascii "Expectation Failed"
  | 431 => ascii "Request Header Fields Too Large"
  | 500 => ascii "Internal Server Error"
  | 501 => ascii "Not Implemented"
  | 503 => ascii "Service Unavailable"
  | 505 => ascii "HTTP Version Not Supported"
  | _ => ascii "Unknown"

/-- The framing lines of `httpd_conn_head`; a length of none is `STREAM_OPEN`. -/
def httpdFraming (status : Nat) (length : Option Nat) (http10 : Bool) : Bytes :=
  match length with
  | some n =>
    if status = 204 then [] else ascii "Content-Length: " ++ utilDecimal n ++ ascii "\r\n"
  | none => if http10 then [] else ascii "Transfer-Encoding: chunked\r\n"

/-- Whether `httpd_conn_head` has the connection end once the response is sent. -/
def httpdHeadCloses (req : HttpdReq) (length : Option Nat) (draining : Bool) : Bool :=
  (length.isNone && req.http10) || req.close || !req.bodyIn || draining

/-- The bytes that `httpd_conn_head` queues, for a connection that ends with the response or not. -/
def httpdConnHead (req : HttpdReq) (head : Bytes) (closing : Bool) (status : Nat) (field : Bytes)
    (extra : List Bytes) (length : Option Nat) : Bytes :=
  ascii "HTTP/1.1 " ++ utilDecimal status ++ [space] ++ httpdReason status ++ ascii "\r\n" ++
    (if closing then ascii "Connection: close\r\n" else []) ++
    httpdFraming status length req.http10 ++
    (match httpdConnField head req.origin with
      | none => []
      | some origin =>
        ascii "Access-Control-Allow-Origin: " ++ origin ++
          ascii "\r\nAccess-Control-Allow-Credentials: true\r\n" ++
          ascii "Access-Control-Expose-Headers: Mcp-Session-Id, WWW-Authenticate\r\n" ++
          ascii "Vary: Origin\r\n") ++
    field ++ extra.flatten ++ ascii "\r\n"

/-- The lines that `httpd_conn_preflight` adds to the head of its response. -/
def httpdPreflightExtra (req : HttpdReq) (head : Bytes) : List Bytes :=
  if req.origin.off = 0 then [ascii "Allow: POST, OPTIONS\r\n"]
  else
    [ascii "Access-Control-Allow-Methods: POST, GET, DELETE, OPTIONS\r\n" ++ ascii "Access-Control-Allow-Headers: ",
      (httpdConnField head req.acrh).getD (ascii "Content-Type, Authorization"),
      ascii "\r\nAccess-Control-Max-Age: 600\r\n",
      if req.pna then ascii "Access-Control-Allow-Private-Network: true\r\n" else [],
      ascii "Vary: Access-Control-Request-Headers\r\n"]

/-- The head of the response of `httpd_conn_preflight`. -/
def httpdConnPreflight (req : HttpdReq) (head : Bytes) (closing : Bool) : Bytes :=
  httpdConnHead req head closing 204 [] (httpdPreflightExtra req head) (some 0)

end Askai
