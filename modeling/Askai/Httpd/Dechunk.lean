import Askai.Httpd.Budget
import Askai.Httpd.Head

/-!
# Decoding a chunked body

How a client loop decodes the chunks of a request's body in place (`httpd_conn_dechunk` of
`httpd.c`), from bytes that come in any slices.
-/

namespace Askai

open Library List

/-- `CHUNK_LINE`. -/
def chunkLine : Nat := 1024

/-- `struct httpd_dechunk`: the bytes are read from `rd` on, and their data is moved down to `wr`. -/
structure HttpdDechunk where
  raw : Bytes
  rd : Nat := 0
  wr : Nat := 0
  deriving DecidableEq, Repr

/-- The bytes to be read. -/
def HttpdDechunk.left (d : HttpdDechunk) : Bytes :=
  d.raw.drop d.rd

/-- `httpd_dechunk_line`: the line less its CRLF, none while it is not all in, or an HTTP error. -/
def httpdDechunkLine (d : HttpdDechunk) (max tooLong : Nat) : Except Nat (Option Bytes × HttpdDechunk) :=
  match cut lf (d.left.take max) with
  | none => if d.left.length < max then .ok (none, d) else .error tooLong
  | some (line, _) =>
    if line.getLast? = some cr then
      .ok (some line.dropLast, { d with rd := d.rd + line.length + 1 })
    else .error 400

/-- The first loop of `httpd_conn_chunk_size`: the size, whether it is over, and what follows it. -/
def httpdChunkDigits (size : Nat) (over_ : Bool) : Bytes → Nat × Bool × Bytes
  | [] => (size, over_, [])
  | c :: line =>
    if utilHexDigit c < 16 then
      httpdChunkDigits (size * 16 % 2 ^ 64 + (utilHexDigit c).toNat)
        (over_ || decide ((2 ^ 64 - 1) / 16 < size)) line
    else (size, over_, c :: line)

/-- `httpd_conn_chunk_size`. -/
def httpdConnChunkSize (lim : HttpdLimits) (req : HttpdReq) (d : HttpdDechunk) :
    Except Nat (HttpdReq × HttpdDechunk) := do
  let (line, d) ← httpdDechunkLine d chunkLine 400
  match line with
  | none => .ok (req, d)
  | some line =>
    let (size, over_, rest) := httpdChunkDigits 0 false line
    let ext := rest.dropWhile blank
    if rest.length = line.length ∨ over_ = true ∨ (ext ≠ [] ∧ ext.head? ≠ some 59) then .error 400
    else if ext.any httpdCtl then .error 400
    else if sizeSub (sizeSub lim.body req.got) d.wr < size then .error 413
    else
      .ok ({ req with chunk := size, chunking := if size ≠ 0 then .data else .trailer }, d)

/-- `httpd_req_chunk_data`. -/
def httpdReqChunkData (req : HttpdReq) (d : HttpdDechunk) : HttpdReq × HttpdDechunk :=
  let n := min d.left.length req.chunk
  ({ req with
      chunk := req.chunk - n
      chunking := if req.chunk - n = 0 then .crlf else req.chunking },
    { d with
      raw := d.raw.take d.wr ++ (d.left.take n ++ d.raw.drop (d.wr + n))
      rd := d.rd + n
      wr := d.wr + n })

/-- `httpd_req_chunk_end`. -/
def httpdReqChunkEnd (req : HttpdReq) (d : HttpdDechunk) : Except Nat (HttpdReq × HttpdDechunk) :=
  if d.left.length < 2 then .ok (req, d)
  else if d.left.take 2 = [cr, lf] then
    .ok ({ req with chunking := .size }, { d with rd := d.rd + 2 })
  else .error 400

/-- `httpd_conn_trailer`. -/
def httpdConnTrailer (lim : HttpdLimits) (req : HttpdReq) (d : HttpdDechunk) :
    Except Nat (HttpdReq × HttpdDechunk) := do
  let (line, d) ← httpdDechunkLine d lim.head 431
  match line with
  | none => .ok (req, d)
  | some line =>
    if sizeSub lim.head req.trailer < line.length + 2 then .error 431
    else
      let req := { req with trailer := wrap16 (req.trailer + wrap16 (line.length + 2)) }
      let name := line.takeWhile httpdTchar
      if line = [] then
        if lim.fields < req.trailers then .error 431 else .ok ({ req with bodyIn := true }, d)
      else if name = [] ∨ (line.drop name.length).head? ≠ some colon then .error 400
      else
        let req := { req with trailers := wrap16 (req.trailers + 1) }
        if lim.fields < req.trailers then .error 431 else .ok (req, d)

/-- A turn of the loop of `httpd_conn_dechunk`. -/
def httpdDechunkTurn (lim : HttpdLimits) (req : HttpdReq) (d : HttpdDechunk) : Except Nat (HttpdReq × HttpdDechunk) :=
  match req.chunking with
  | .size => httpdConnChunkSize lim req d
  | .data => .ok (httpdReqChunkData req d)
  | .crlf => httpdReqChunkEnd req d
  | .trailer => httpdConnTrailer lim req d

/-! ## What a turn takes -/

variable {lim : HttpdLimits} {req req' : HttpdReq} {d d' : HttpdDechunk} {max tooLong : Nat}

theorem length_left (d : HttpdDechunk) : d.left.length = d.raw.length - d.rd := length_drop

/-- A line that is taken is all in, and ends in CRLF. -/
theorem httpdDechunkLine_some {line : Bytes} (taken : httpdDechunkLine d max tooLong = .ok (some line, d')) :
    lf ∉ line ∧ line.length + 2 ≤ max ∧ (∃ rest, d.left = line ++ cr :: lf :: rest) ∧
      d' = { d with rd := d.rd + (line.length + 2) } := by
  rw [httpdDechunkLine] at taken
  split at taken
  · split at taken <;> cases taken
  · next front back found =>
      obtain ⟨whole, absent⟩ := cut_eq_some.mp found
      split at taken
      · next last =>
          obtain ⟨same, rfl⟩ := Prod.mk.inj (Except.ok.inj taken)
          obtain ⟨init, rfl⟩ := List.getLast?_eq_some_iff.mp last
          rw [dropLast_concat] at same
          obtain rfl := Option.some.inj same
          have most := congrArg List.length whole
          simp only [length_take, length_append, length_cons, length_nil] at most
          refine ⟨fun mem => absent (mem_append_left _ mem), by omega, ?_, ?_⟩
          · refine ⟨back ++ d.left.drop max, ?_⟩
            calc
              d.left = d.left.take max ++ d.left.drop max := (take_append_drop ..).symm
              _ = _ := by
                rw [whole]
                simp
          · simp only [length_append, length_cons, length_nil]
            congr 1
      · cases taken

/-- While a line is not all in, no LF has come. -/
theorem httpdDechunkLine_none (taken : httpdDechunkLine d max tooLong = .ok (none, d')) :
    lf ∉ d.left ∧ d.left.length < max ∧ d' = d := by
  rw [httpdDechunkLine] at taken
  split at taken
  · next absent =>
      split at taken
      · next short =>
          obtain ⟨-, rfl⟩ := Prod.mk.inj (Except.ok.inj taken)
          have clear := cut_eq_none.mp absent
          rw [take_of_length_le (Nat.le_of_lt short)] at clear
          exact ⟨clear, short, rfl⟩
      · cases taken
  · split at taken
    · obtain ⟨same, -⟩ := Prod.mk.inj (Except.ok.inj taken)
      cases same
    · cases taken

/-- A line in CRLF, all in, is taken. -/
theorem httpdDechunkLine_eq {line rest : Bytes} (clear : lf ∉ line) (short : line.length + 2 ≤ max)
    (left : d.left = line ++ cr :: lf :: rest) : httpdDechunkLine d max tooLong =
      .ok (some line, { d with rd := d.rd + (line.length + 2) }) := by
  have shape : d.left.take max = (line ++ [cr]) ++ lf :: rest.take (max - (line.length + 2)) := by
    rw [left, show line ++ cr :: lf :: rest = (line ++ [cr] ++ [lf]) ++ rest by simp,
      take_append, take_of_length_le (by simpa using short)]
    simp
  have absent : lf ∉ line ++ [cr] := by
    intro mem
    rcases mem_append.mp mem with mem | mem
    · exact clear mem
    · exact absurd (mem_singleton.mp mem) (by decide)
  rw [httpdDechunkLine, shape, cut_append _ absent]
  simp only [List.getLast?_concat, if_true, dropLast_concat, length_append, length_cons, length_nil]
  rfl

/-- While a line is not all in, the next turn waits for it. -/
theorem httpdDechunkLine_wait (clear : lf ∉ d.left) (short : d.left.length < max) :
    httpdDechunkLine d max tooLong = .ok (none, d) := by
  have absent : lf ∉ d.left.take max := fun mem => clear (mem_of_mem_take mem)
  rw [httpdDechunkLine, cut_eq_none.mpr absent]
  exact if_pos short

/-- From `d` to `d'`, the bytes `piece` are read, and `out` is moved down behind the data. -/
structure Shifts (d d' : HttpdDechunk) (piece out : Bytes) : Prop where
  length : d'.raw.length = d.raw.length
  left : d.left = piece ++ d'.left
  rd : d'.rd = d.rd + piece.length
  wr : d'.wr = d.wr + out.length
  data : d'.raw.take d'.wr = d.raw.take d.wr ++ out
  shorter : out.length ≤ piece.length

/-- Bytes that are no data are read past. -/
theorem Shifts.skip {piece rest : Bytes} (left : d.left = piece ++ rest) :
    Shifts d { d with rd := d.rd + piece.length } piece [] where
  length := rfl
  left := by
    have behind : d.raw.drop (d.rd + piece.length) = rest := by
      rw [← drop_drop]
      change d.left.drop piece.length = rest
      rw [left, drop_left]
    rw [left, ← behind]
    rfl
  rd := rfl
  wr := rfl
  data := (append_nil _).symm
  shorter := Nat.zero_le _

/-- What is in of a chunk's data is moved down behind the rest, over bytes that have been read. -/
theorem Shifts.chunkData (wr : d.wr ≤ d.rd) (rd : d.rd ≤ d.raw.length) :
    Shifts d (httpdReqChunkData req d).2 (d.left.take req.chunk) (d.left.take req.chunk) := by
  have count : (d.left.take req.chunk).length = min d.left.length req.chunk := by
    rw [length_take, Nat.min_comm]
  have same : d.left.take (min d.left.length req.chunk) = d.left.take req.chunk := by
    rw [← take_take]
    exact take_of_length_le (length_take_le' ..)
  set n := min d.left.length req.chunk with n_def
  have room : d.rd + n ≤ d.raw.length := by
    have left := length_left d
    omega
  have front : (d.raw.take d.wr).length = d.wr := length_take_of_le (by omega)
  have raw : (httpdReqChunkData req d).2.raw = d.raw.take d.wr ++ (d.left.take req.chunk ++ d.raw.drop (d.wr + n)) := by
    rw [← same]
    rfl
  constructor
  · rw [raw]
    simp only [length_append, front, count, length_drop]
    omega
  · change d.left = _ ++ (httpdReqChunkData req d).2.raw.drop (d.rd + n)
    have behind : (httpdReqChunkData req d).2.raw.drop (d.rd + n) = d.left.drop n := by
      rw [raw, ← append_assoc, drop_append, length_append, front, count,
        drop_of_length_le (by rw [length_append, front, count]; omega), nil_append,
        drop_drop, HttpdDechunk.left, drop_drop]
      congr 1
      omega
    rw [behind, ← same, take_append_drop]
  · rw [count]
    rfl
  · rw [count]
    rfl
  · change (httpdReqChunkData req d).2.raw.take (d.wr + n) = _
    rw [raw, ← append_assoc, take_left' (by rw [length_append, front, count])]
  · exact Nat.le_refl _

end Askai
