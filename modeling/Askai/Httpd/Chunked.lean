import Askai.Httpd.Turns

/-!
# Chunked bodies in slices

A chunked body is taken in slices, as its bytes come and a step has room for them: what is accepted
is a chunked body whose data is what was handed on, and every chunked body within the limits is
accepted, however it comes.
-/

namespace Askai

open Library List

variable {lim : HttpdLimits} {req req' : HttpdReq} {d d' : HttpdDechunk}

/-- No turn reads back. -/
theorem httpdDechunkTurn_rd (taken : httpdDechunkTurn lim req d = .ok (req', d')) : d.rd ≤ d'.rd := by
  cases state : req.chunking with
  | size =>
    rw [httpdDechunkTurn, state] at taken
    obtain ⟨-, -, -, rfl⟩ | ⟨l, rest, -, -, -, -, -, rfl⟩ := chunkSize_ok taken
    · exact Nat.le_refl _
    · exact Nat.le_add_right ..
  | data =>
    rw [httpdDechunkTurn, state] at taken
    obtain ⟨-, rfl⟩ := Prod.mk.inj (Except.ok.inj taken)
    exact Nat.le_add_right ..
  | crlf =>
    rw [httpdDechunkTurn, state] at taken
    obtain ⟨-, -, rfl⟩ | ⟨rest, -, -, rfl⟩ := chunkEnd_ok taken
    · exact Nat.le_refl _
    · exact Nat.le_add_right ..
  | trailer =>
    rw [httpdDechunkTurn, state] at taken
    obtain ⟨-, -, -, rfl⟩ | ⟨rest, -, -, -, -, rfl⟩ | ⟨l, rest, -, -, -, -, rfl⟩ :=
      trailer_ok taken
    · exact Nat.le_refl _
    · exact Nat.le_add_right ..
    · exact Nat.le_add_right ..

/-- The loop of `httpd_conn_dechunk`, over `len` bytes. -/
def httpdDechunkLoop (lim : HttpdLimits) (len : Nat) (req : HttpdReq) (d : HttpdDechunk) :
    Except Nat (HttpdReq × HttpdDechunk) :=
  if d.rd < len ∧ req.bodyIn = false then
    match _ : httpdDechunkTurn lim req d with
    | .error status => .error status
    | .ok (req', d') =>
      if d'.rd = d.rd then .ok (req', d') else httpdDechunkLoop lim len req' d'
  else .ok (req, d)
termination_by len - d.rd
decreasing_by
  next unread taken moved =>
    have grows := httpdDechunkTurn_rd taken
    omega

/-- `httpd_conn_dechunk`: the bytes at `raw` after it, how many are taken, and how many of them are
data. `hold` says whether the budgets have room for so many more. -/
def httpdConnDechunk (lim : HttpdLimits) (hold : Nat → Bool) (req : HttpdReq) (raw : Bytes) :
    Except Nat (HttpdReq × Bytes × Nat × Nat) := do
  let (req, d) ← httpdDechunkLoop lim raw.length req { raw }
  if hold d.wr = true then .ok (req, d.raw, d.rd, d.wr) else .error 503

/-- A body under way: the request, what has yet to be taken, and what was handed on. -/
structure HttpdBody where
  req : HttpdReq
  rest : Bytes
  handed : Bytes := []

/-- What `httpd_conn_body` does for a chunked body when there is room for `len` bytes. -/
def httpdConnSlice (lim : HttpdLimits) (b : HttpdBody) (len : Nat) (hold : Nat → Bool) : Except Nat HttpdBody := do
  let (req, raw, used, out) ← httpdConnDechunk lim hold b.req (b.rest.take len)
  .ok
    { req := { req with got := sizeAdd req.got out }
      rest := raw.drop used ++ b.rest.drop len
      handed := b.handed ++ raw.take out }

/-- One call after another. -/
def httpdConnSlices (lim : HttpdLimits) (b : HttpdBody) (calls : List (Nat × (Nat → Bool))) : Except Nat HttpdBody :=
  calls.foldlM (fun b call => httpdConnSlice lim b call.1 call.2) b

/-! ## What has been taken -/

/-- Of a request's body, the bytes `front` have been taken, which have the data `data`. -/
inductive Took (req : HttpdReq) : Bytes → Bytes → Prop
  | size (chunks : List Chunk) (state : req.chunking = .size) (open_ : req.bodyIn = false)
      (chunk : req.chunk = 0) (trailer : req.trailer = 0) (trailers : req.trailers = 0) :
      Took req (chunksBytes chunks) (chunksData chunks)
  | data (chunks : List Chunk) (line : SizeLine) (part : Bytes) (state : req.chunking = .data)
      (open_ : req.bodyIn = false) (chunk : part.length + req.chunk = line.size)
      (more : req.chunk ≠ 0) (trailer : req.trailer = 0) (trailers : req.trailers = 0) :
      Took req (chunksBytes chunks ++ (line.bytes ++ (crlf ++ part))) (chunksData chunks ++ part)
  | filled (chunks : List Chunk) (c : Chunk) (state : req.chunking = .crlf)
      (open_ : req.bodyIn = false) (chunk : req.chunk = 0) (trailer : req.trailer = 0)
      (trailers : req.trailers = 0) :
      Took req (chunksBytes chunks ++ (c.line.bytes ++ (crlf ++ c.data)))
        (chunksData chunks ++ c.data)
  | trailer (chunks : List Chunk) (line : SizeLine) (lines : List TrailerLine)
      (zero : line.size = 0) (state : req.chunking = .trailer) (open_ : req.bodyIn = false)
      (chunk : req.chunk = 0) (trailer : req.trailer = (trailerBytes lines).length)
      (trailers : req.trailers = lines.length) :
      Took req (chunksBytes chunks ++ (line.bytes ++ (crlf ++ trailerBytes lines)))
        (chunksData chunks)
  | whole (b : ChunkedBody) (in_ : req.bodyIn = true) (chunk : req.chunk = 0) :
      Took req b.bytes b.data

/-- A call that has read some of `raw`, when earlier ones have taken `front` and handed on `data`. -/
structure Inside (lim : HttpdLimits) (front data raw : Bytes) (req : HttpdReq) (d : HttpdDechunk) :
    Prop where
  length : d.raw.length = raw.length
  rd : d.rd ≤ raw.length
  wr : d.wr ≤ d.rd
  left : d.left = raw.drop d.rd
  got : req.got = data.length
  body : req.got + d.wr + req.chunk ≤ lim.body
  trailer : req.trailer ≤ lim.head
  took : Took req (front ++ raw.take d.rd) (data ++ d.raw.take d.wr)

namespace Took

variable {front data : Bytes}

theorem size_inv (took : Took req front data) (state : req.chunking = .size) (open_ : req.bodyIn = false) :
    ∃ chunks, front = chunksBytes chunks ∧ data = chunksData chunks ∧ req.chunk = 0 ∧
      req.trailer = 0 ∧ req.trailers = 0 := by
  cases took with
  | size chunks _ _ chunk trailer trailers => exact ⟨chunks, rfl, rfl, chunk, trailer, trailers⟩
  | data _ _ _ other => cases state.symm.trans other
  | filled _ _ other => cases state.symm.trans other
  | trailer _ _ _ _ other => cases state.symm.trans other
  | whole _ in_ => cases open_.symm.trans in_

theorem data_inv (took : Took req front data) (state : req.chunking = .data) (open_ : req.bodyIn = false) :
    ∃ chunks, ∃ line : SizeLine, ∃ part, front = chunksBytes chunks ++ (line.bytes ++ (crlf ++ part)) ∧
      data = chunksData chunks ++ part ∧ part.length + req.chunk = line.size ∧ req.chunk ≠ 0 ∧
      req.trailer = 0 ∧ req.trailers = 0 := by
  cases took with
  | size _ other => cases state.symm.trans other
  | data chunks line part _ _ chunk more trailer trailers =>
    exact ⟨chunks, line, part, rfl, rfl, chunk, more, trailer, trailers⟩
  | filled _ _ other => cases state.symm.trans other
  | trailer _ _ _ _ other => cases state.symm.trans other
  | whole _ in_ => cases open_.symm.trans in_

theorem filled_inv (took : Took req front data) (state : req.chunking = .crlf) (open_ : req.bodyIn = false) :
    ∃ chunks, ∃ c : Chunk, front = chunksBytes chunks ++ (c.line.bytes ++ (crlf ++ c.data)) ∧
      data = chunksData chunks ++ c.data ∧ req.chunk = 0 ∧ req.trailer = 0 ∧ req.trailers = 0 := by
  cases took with
  | size _ other => cases state.symm.trans other
  | data _ _ _ other => cases state.symm.trans other
  | filled chunks c _ _ chunk trailer trailers =>
    exact ⟨chunks, c, rfl, rfl, chunk, trailer, trailers⟩
  | trailer _ _ _ _ other => cases state.symm.trans other
  | whole _ in_ => cases open_.symm.trans in_

theorem trailer_inv (took : Took req front data) (state : req.chunking = .trailer) (open_ : req.bodyIn = false) :
    ∃ chunks, ∃ line : SizeLine, ∃ lines : List TrailerLine, line.size = 0 ∧
      front = chunksBytes chunks ++ (line.bytes ++ (crlf ++ trailerBytes lines)) ∧
      data = chunksData chunks ∧ req.chunk = 0 ∧ req.trailer = (trailerBytes lines).length ∧
      req.trailers = lines.length := by
  cases took with
  | size _ other => cases state.symm.trans other
  | data _ _ _ other => cases state.symm.trans other
  | filled _ _ other => cases state.symm.trans other
  | trailer chunks line lines zero _ _ chunk trailer trailers =>
    exact ⟨chunks, line, lines, zero, rfl, rfl, chunk, trailer, trailers⟩
  | whole _ in_ => cases open_.symm.trans in_

theorem whole_inv (took : Took req front data) (in_ : req.bodyIn = true) :
    ∃ b : ChunkedBody, front = b.bytes ∧ data = b.data := by
  cases took with
  | size _ _ open_ => cases in_.symm.trans open_
  | data _ _ _ _ open_ => cases in_.symm.trans open_
  | filled _ _ _ open_ => cases in_.symm.trans open_
  | trailer _ _ _ _ _ open_ => cases in_.symm.trans open_
  | whole b => exact ⟨b, rfl, rfl⟩

theorem of_eq {front' data' : Bytes} (took : Took req front data) (front_eq : front' = front)
    (data_eq : data' = data) : Took req front' data' := by
  rw [front_eq, data_eq]
  exact took

/-- Only how far the decoding is counts. -/
theorem alike (took : Took req front data) (chunking : req'.chunking = req.chunking)
    (bodyIn : req'.bodyIn = req.bodyIn) (chunks : req'.chunk = req.chunk)
    (trailers : req'.trailer = req.trailer ∧ req'.trailers = req.trailers) : Took req' front data := by
  cases took with
  | size all state open_ chunk trailer few =>
    exact .size all (chunking.trans state) (bodyIn.trans open_) (chunks.trans chunk)
      (trailers.1.trans trailer) (trailers.2.trans few)
  | data all line part state open_ chunk more trailer few =>
    exact .data all line part (chunking.trans state) (bodyIn.trans open_) (by rw [chunks, chunk])
      (by rw [chunks]; exact more) (trailers.1.trans trailer) (trailers.2.trans few)
  | filled all c state open_ chunk trailer few =>
    exact .filled all c (chunking.trans state) (bodyIn.trans open_) (chunks.trans chunk)
      (trailers.1.trans trailer) (trailers.2.trans few)
  | trailer all line lines zero state open_ chunk trailer few =>
    exact .trailer all line lines zero (chunking.trans state) (bodyIn.trans open_)
      (chunks.trans chunk) (trailers.1.trans trailer) (trailers.2.trans few)
  | whole b in_ chunk => exact .whole b (bodyIn.trans in_) (chunks.trans chunk)

end Took

theorem chunksBytes_concat (chunks : List Chunk) (c : Chunk) :
    chunksBytes (chunks ++ [c]) = chunksBytes chunks ++ c.bytes := by
  rw [chunksBytes, flatMap_append, flatMap_singleton, chunksBytes]

theorem chunksData_concat (chunks : List Chunk) (c : Chunk) :
    chunksData (chunks ++ [c]) = chunksData chunks ++ c.data := by
  rw [chunksData, flatMap_append, flatMap_singleton, chunksData]

theorem trailerBytes_concat (lines : List TrailerLine) (l : TrailerLine) :
    trailerBytes (lines ++ [l]) = trailerBytes lines ++ (l.bytes ++ crlf) := by
  rw [trailerBytes, flatMap_append, flatMap_singleton, trailerBytes]

/-- A field takes four bytes at least: a byte of its name, its colon and its CRLF. -/
theorem length_trailerBytes (lines : List TrailerLine) : 4 * lines.length ≤ (trailerBytes lines).length := by
  induction lines with
  | nil => exact Nat.le_refl 0
  | cons l lines ih =>
    have some_ := length_pos_iff.mpr l.some_
    have bytes : (trailerBytes (l :: lines)).length =
        l.name.length + (l.value.length + 1) + 2 + (trailerBytes lines).length := by
      rw [trailerBytes, flatMap_cons, length_append, length_append, TrailerLine.bytes, length_append, length_cons]
      rfl
    rw [length_cons, bytes]
    omega

/-! ## A turn within a call -/

namespace Inside

variable {front data raw : Bytes}

/-- A turn that reads on is still inside the call, if it takes what a body has next. -/
theorem shift {piece out : Bytes} (inside : Inside lim front data raw req d)
    (shifts : Shifts d d' piece out) (got : req'.got = req.got)
    (body : req.got + (d.wr + out.length) + req'.chunk ≤ lim.body) (trailer : req'.trailer ≤ lim.head)
    (took : Took req' (front ++ raw.take d.rd ++ piece) (data ++ d.raw.take d.wr ++ out)) :
    Inside lim front data raw req' d' := by
  have behind : raw.drop d.rd = piece ++ d'.left := by rw [← inside.left, shifts.left]
  have total := congrArg List.length behind
  simp only [length_drop, length_append] at total
  have read := inside.rd
  have moved := shifts.rd
  have taken : raw.take d'.rd = raw.take d.rd ++ piece := by
    rw [moved, take_add, behind, take_left]
  constructor
  · rw [shifts.length, inside.length]
  · omega
  · have wr := shifts.wr
    have shorter := shifts.shorter
    have less := inside.wr
    omega
  · rw [moved, ← drop_drop, behind, drop_left]
  · rw [got, inside.got]
  · rw [got, shifts.wr]
    exact body
  · exact trailer
  · rw [taken, shifts.data, ← append_assoc, ← append_assoc]
    exact took

/-- A turn that takes nothing leaves the request as it is. -/
def Waits (lim : HttpdLimits) (req : HttpdReq) (left : Bytes) : Prop :=
  match req.chunking with
  | .size => lf ∉ left ∧ left.length < chunkLine
  | .data => False
  | .crlf => left.length < 2
  | .trailer => lf ∉ left ∧ left.length < lim.head

/-- What a turn comes to. -/
def Turned (lim : HttpdLimits) (front data raw : Bytes) (req req' : HttpdReq) (d d' : HttpdDechunk) : Prop :=
  Inside lim front data raw req' d' ∧
    (d.rd < d'.rd ∨ Waits lim req d.left ∧ req' = req ∧ d' = d)

/-- What is left of the budget of the body is as much. -/
theorem body_sub (inside : Inside lim front data raw req d) :
    sizeSub (sizeSub lim.body req.got) d.wr = lim.body - (req.got + d.wr) := by
  have body := inside.body
  rw [sizeSub_of_le (x := lim.body) (by omega), sizeSub_of_le (by omega), Nat.sub_sub]

theorem trailer_sub (inside : Inside lim front data raw req d) :
    sizeSub lim.head req.trailer = lim.head - req.trailer :=
  sizeSub_of_le inside.trailer

theorem turn_size (inside : Inside lim front data raw req d) (open_ : req.bodyIn = false)
    (state : req.chunking = .size) (taken : httpdConnChunkSize lim req d = .ok (req', d')) :
    Turned lim front data raw req req' d d' := by
  obtain ⟨clear, short, rfl, rfl⟩ | ⟨l, rest, left, -, -, fits, rfl, rfl⟩ := chunkSize_ok taken
  · exact ⟨inside, .inr ⟨by rw [Waits, state]; exact ⟨clear, short⟩, rfl, rfl⟩⟩
  · obtain ⟨chunks, front_eq, data_eq, none_, trailer, trailers⟩ :=
      inside.took.size_inv state open_
    have skipped : d.left = (l.bytes ++ crlf) ++ rest := by
      rw [left, append_assoc]
      rfl
    have shifts : Shifts d { d with rd := d.rd + (l.bytes ++ crlf).length } (l.bytes ++ crlf) [] :=
      Shifts.skip skipped
    rw [length_append] at shifts
    rw [inside.body_sub] at fits
    have body := inside.body
    refine ⟨inside.shift shifts rfl ?_ inside.trailer ?_, .inl (Nat.lt_add_of_pos_right ?_)⟩
    · change req.got + (d.wr + 0) + l.size ≤ lim.body
      omega
    · rw [front_eq, data_eq]
      cases size : l.size with
      | zero =>
        apply Took.of_eq
        · exact .trailer chunks l [] size rfl open_ rfl trailer trailers
        · rw [trailerBytes, flatMap_nil, append_nil]
        · rw [append_nil]
      | succ n =>
        have sized : ([] : Bytes).length + (n + 1) = l.size := by
          rw [size]
          exact Nat.zero_add _
        apply Took.of_eq
        · exact .data chunks l [] rfl open_ sized (Nat.succ_ne_zero n) trailer trailers
        · rw [append_nil]
        · rfl
    · exact Nat.succ_pos _

theorem turn_data (inside : Inside lim front data raw req d) (open_ : req.bodyIn = false)
    (state : req.chunking = .data) (unread : d.rd < raw.length) :
    Turned lim front data raw req (httpdReqChunkData req d).1 d (httpdReqChunkData req d).2 := by
  obtain ⟨chunks, line, part, front_eq, data_eq, sized, more, trailer, trailers⟩ :=
    inside.took.data_inv state open_
  have shifts : Shifts d (httpdReqChunkData req d).2 (d.left.take req.chunk) (d.left.take req.chunk) :=
    Shifts.chunkData inside.wr (by rw [inside.length]; exact inside.rd)
  have count : (d.left.take req.chunk).length = min d.left.length req.chunk := by
    rw [length_take, Nat.min_comm]
  have left := length_left d
  rw [inside.length] at left
  have body := inside.body
  set piece := d.left.take req.chunk
  have chunk : (httpdReqChunkData req d).1.chunk = req.chunk - piece.length := by
    rw [count]
    rfl
  have total : (part ++ piece).length + (req.chunk - piece.length) = line.size := by
    rw [length_append]
    omega
  refine ⟨inside.shift shifts rfl ?_ inside.trailer ?_, .inl ?_⟩
  · rw [chunk]
    omega
  · rw [front_eq, data_eq]
    rcases Nat.eq_zero_or_pos (req.chunk - piece.length) with done | rest
    · have some_ : part ++ piece ≠ [] := by
        intro none_
        rw [none_, length_nil] at total
        have piece_nil := (append_eq_nil_iff.mp none_).2
        rw [piece_nil, length_nil] at done
        exact more done
      have state' : (httpdReqChunkData req d).1.chunking = .crlf := by
        rw [count] at done
        exact if_pos done
      rw [done] at total chunk
      apply Took.of_eq
      · exact .filled chunks ⟨line, part ++ piece, some_, total.symm⟩ state' open_ chunk trailer trailers
      · simp only [append_assoc]
      · rw [append_assoc]
    · have state' : (httpdReqChunkData req d).1.chunking = .data := by
        rw [← state]
        rw [count] at rest
        exact if_neg (Nat.ne_of_gt rest)
      apply Took.of_eq
      · exact .data chunks line (part ++ piece) state' open_ (by rw [chunk]; exact total)
          (by rw [chunk]; exact Nat.ne_of_gt rest) trailer trailers
      · simp only [append_assoc]
      · rw [append_assoc]
  · have moved := shifts.rd
    omega

theorem turn_crlf (inside : Inside lim front data raw req d) (open_ : req.bodyIn = false)
    (state : req.chunking = .crlf) (taken : httpdReqChunkEnd req d = .ok (req', d')) :
    Turned lim front data raw req req' d d' := by
  obtain ⟨short, rfl, rfl⟩ | ⟨rest, left, rfl, rfl⟩ := chunkEnd_ok taken
  · exact ⟨inside, .inr ⟨by rw [Waits, state]; exact short, rfl, rfl⟩⟩
  · obtain ⟨chunks, c, front_eq, data_eq, none_, trailer, trailers⟩ :=
      inside.took.filled_inv state open_
    have shifts : Shifts d { d with rd := d.rd + crlf.length } crlf [] := Shifts.skip left
    refine ⟨inside.shift shifts rfl inside.body inside.trailer ?_, .inl (Nat.lt_add_of_pos_right ?_)⟩
    · apply Took.of_eq
      · exact .size (chunks ++ [c]) rfl open_ none_ trailer trailers
      · rw [front_eq, chunksBytes_concat, Chunk.bytes]
        simp only [append_assoc]
      · rw [data_eq, chunksData_concat, append_nil]
    · decide

/-- A field's line, or the empty one, is counted in 16 bits. -/
theorem trailed (inside : Inside lim front data raw req d) {n : Nat} (room : n ≤ sizeSub lim.head req.trailer) :
    req.trailer + n ≤ lim.head ∧ (req.trailed n).trailer = req.trailer + n := by
  rw [inside.trailer_sub] at room
  have trailer := inside.trailer
  have most := lim.head_le
  constructor
  · omega
  · change (req.trailer + n % 65536) % 65536 = req.trailer + n
    omega

theorem turn_trailer (inside : Inside lim front data raw req d) (open_ : req.bodyIn = false)
    (state : req.chunking = .trailer) (taken : httpdConnTrailer lim req d = .ok (req', d')) :
    Turned lim front data raw req req' d d' := by
  obtain ⟨clear, short, rfl, rfl⟩ | ⟨rest, left, room, -, rfl, rfl⟩ |
    ⟨l, rest, left, room, -, rfl, rfl⟩ := trailer_ok taken
  · exact ⟨inside, .inr ⟨by rw [Waits, state]; exact ⟨clear, short⟩, rfl, rfl⟩⟩
  · obtain ⟨chunks, line, lines, zero, front_eq, data_eq, none_, trailer, trailers⟩ :=
      inside.took.trailer_inv state open_
    have shifts : Shifts d { d with rd := d.rd + crlf.length } crlf [] := Shifts.skip left
    obtain ⟨most, counted⟩ := inside.trailed room
    refine ⟨inside.shift shifts rfl inside.body ?_ ?_, .inl (Nat.lt_add_of_pos_right ?_)⟩
    · change (req.trailed 2).trailer ≤ lim.head
      rw [counted]
      exact most
    · apply Took.of_eq
      · exact .whole ⟨chunks, line, lines, zero⟩ rfl none_
      · rw [front_eq, ChunkedBody.bytes]
        simp only [append_assoc]
      · rw [data_eq, ChunkedBody.data, append_nil]
    · decide
  · obtain ⟨chunks, line, lines, zero, front_eq, data_eq, none_, trailer, trailers⟩ :=
      inside.took.trailer_inv state open_
    have skipped : d.left = (l.bytes ++ crlf) ++ rest := by
      rw [left, append_assoc]
      rfl
    have shifts : Shifts d { d with rd := d.rd + (l.bytes ++ crlf).length } (l.bytes ++ crlf) [] :=
      Shifts.skip skipped
    rw [length_append] at shifts
    obtain ⟨most, counted⟩ := inside.trailed room
    have longer : (trailerBytes (lines ++ [l])).length = req.trailer + (l.bytes.length + 2) := by
      rw [trailerBytes_concat, length_append, length_append, trailer]
      rfl
    have few := length_trailerBytes (lines ++ [l])
    rw [length_append, length_singleton] at few
    have least := lim.head_le
    refine ⟨inside.shift shifts rfl inside.body ?_ ?_, .inl (Nat.lt_add_of_pos_right ?_)⟩
    · change (req.trailed _).trailer ≤ lim.head
      rw [counted]
      exact most
    · apply Took.of_eq
      · refine .trailer chunks line (lines ++ [l]) zero state open_ none_ ?_ ?_
        · rw [longer]
          exact counted
        · change (req.trailers + 1) % 65536 = _
          rw [length_append, length_singleton, trailers]
          exact Nat.mod_eq_of_lt (by omega)
      · rw [front_eq, trailerBytes_concat]
        simp only [append_assoc]
      · rw [data_eq, append_nil]
    · exact Nat.succ_pos _

/-- Every turn stays inside its call, and reads on or waits for more. -/
theorem turn (inside : Inside lim front data raw req d) (open_ : req.bodyIn = false)
    (unread : d.rd < raw.length) (taken : httpdDechunkTurn lim req d = .ok (req', d')) :
    Turned lim front data raw req req' d d' := by
  cases state : req.chunking with
  | size =>
    rw [httpdDechunkTurn, state] at taken
    exact inside.turn_size open_ state taken
  | data =>
    rw [httpdDechunkTurn, state] at taken
    obtain ⟨rfl, rfl⟩ := Prod.mk.inj (Except.ok.inj taken)
    exact inside.turn_data open_ state unread
  | crlf =>
    rw [httpdDechunkTurn, state] at taken
    exact inside.turn_crlf open_ state taken
  | trailer =>
    rw [httpdDechunkTurn, state] at taken
    exact inside.turn_trailer open_ state taken

end Inside

/-! ## A call -/

/-- Where the loop of a call over `len` bytes may be. -/
inductive DechunkPoint (lim : HttpdLimits) (len : Nat) (req₀ : HttpdReq) (d₀ : HttpdDechunk) :
    HttpdReq → HttpdDechunk → Prop
  | start : DechunkPoint lim len req₀ d₀ req₀ d₀
  | turn {req req' : HttpdReq} {d d' : HttpdDechunk} (point : DechunkPoint lim len req₀ d₀ req d)
      (unread : d.rd < len) (open_ : req.bodyIn = false)
      (taken : httpdDechunkTurn lim req d = .ok (req', d')) : DechunkPoint lim len req₀ d₀ req' d'

namespace Inside

variable {front data raw : Bytes}

theorem point (inside : Inside lim front data raw req d)
    (point : DechunkPoint lim raw.length req d req' d') : Inside lim front data raw req' d' := by
  induction point with
  | start => exact inside
  | turn _ unread open_ taken ih => exact (ih.turn open_ unread taken).1

/-- A call ends when it has read all, when the body is in, or when what is left waits for more. -/
def Stops (lim : HttpdLimits) (raw : Bytes) (req : HttpdReq) (d : HttpdDechunk) : Prop :=
  d.rd = raw.length ∨ req.bodyIn = true ∨ Waits lim req d.left

/-- What the loop of a call comes to. -/
theorem loop (inside : Inside lim front data raw req d)
    (done : httpdDechunkLoop lim raw.length req d = .ok (req', d')) :
    Inside lim front data raw req' d' ∧ Stops lim raw req' d' ∧ d.rd ≤ d'.rd := by
  induction req, d using httpdDechunkLoop.induct lim raw.length with
  | case1 req d more status taken =>
    rw [httpdDechunkLoop, if_pos more, taken] at done
    cases done
  | case2 req d more req₁ d₁ taken same =>
    rw [httpdDechunkLoop, if_pos more, taken] at done
    dsimp only at done
    rw [if_pos same] at done
    obtain ⟨rfl, rfl⟩ := Prod.mk.inj (Except.ok.inj done)
    obtain ⟨inside', moved | ⟨waits, rfl, rfl⟩⟩ := inside.turn more.2 more.1 taken
    · exact absurd same (Nat.ne_of_gt moved)
    · exact ⟨inside', .inr (.inr waits), Nat.le_refl _⟩
  | case3 req d more req₁ d₁ taken moved ih =>
    rw [httpdDechunkLoop, if_pos more, taken] at done
    dsimp only at done
    rw [if_neg moved] at done
    obtain ⟨inside', stops, further⟩ := ih (inside.turn more.2 more.1 taken).1 done
    exact ⟨inside', stops, Nat.le_trans (httpdDechunkTurn_rd taken) further⟩
  | case4 req d ended =>
    rw [httpdDechunkLoop, if_neg ended] at done
    obtain ⟨rfl, rfl⟩ := Prod.mk.inj (Except.ok.inj done)
    refine ⟨inside, ?_, Nat.le_refl _⟩
    rcases Nat.lt_or_ge d.rd raw.length with unread | read
    · right
      left
      exact Bool.eq_true_of_not_eq_false fun open_ => ended ⟨unread, open_⟩
    · exact .inl (Nat.le_antisymm inside.rd read)

/-- What does not wait for more is read on. -/
theorem loop_reads (inside : Inside lim front data raw req d) (open_ : req.bodyIn = false)
    (unread : d.rd < raw.length) (ready : ¬Waits lim req d.left)
    (done : httpdDechunkLoop lim raw.length req d = .ok (req', d')) : d.rd < d'.rd := by
  cases taken : httpdDechunkTurn lim req d with
  | error status =>
    rw [httpdDechunkLoop, if_pos ⟨unread, open_⟩, taken] at done
    cases done
  | ok after =>
    obtain ⟨inside', moved | ⟨waits, -, -⟩⟩ := inside.turn open_ unread taken
    · rw [httpdDechunkLoop, if_pos ⟨unread, open_⟩, taken] at done
      dsimp only at done
      rw [if_neg (Nat.ne_of_gt moved)] at done
      exact Nat.lt_of_lt_of_le moved (inside'.loop done).2.2
    · exact absurd waits ready

end Inside

/-! ## Any calls -/

/-- A body under way, of the bytes `stream`. -/
structure Going (lim : HttpdLimits) (stream : Bytes) (b : HttpdBody) (front : Bytes) : Prop where
  whole : stream = front ++ b.rest
  got : b.req.got = b.handed.length
  body : b.req.got + b.req.chunk ≤ lim.body
  trailer : b.req.trailer ≤ lim.head
  took : Took b.req front b.handed

namespace Going

variable {stream front : Bytes} {b b' : HttpdBody} {len : Nat} {hold : Nat → Bool}

theorem inside (going : Going lim stream b front) (len : Nat) :
    Inside lim front b.handed (b.rest.take len) b.req { raw := b.rest.take len } where
  length := rfl
  rd := Nat.zero_le _
  wr := Nat.le_refl 0
  left := rfl
  got := going.got
  body := going.body
  trailer := going.trailer
  took := by
    rw [take_zero, append_nil]
    rw [append_nil]
    exact going.took

/-- How a call of `httpd_conn_body` that refuses nothing goes. -/
theorem call_ok (done : httpdConnSlice lim b len hold = .ok b') :
    ∃ req d, httpdDechunkLoop lim (b.rest.take len).length b.req { raw := b.rest.take len } = .ok (req, d) ∧
      b' = { req := { req with got := sizeAdd req.got d.wr }
             rest := d.left ++ b.rest.drop len
             handed := b.handed ++ d.raw.take d.wr } := by
  cases loop : httpdDechunkLoop lim (b.rest.take len).length b.req { raw := b.rest.take len } with
  | error status =>
    rw [httpdConnSlice, httpdConnDechunk, loop] at done
    cases done
  | ok after =>
    obtain ⟨req, d⟩ := after
    rw [httpdConnSlice, httpdConnDechunk, loop] at done
    dsimp only [bind, Except.bind] at done
    split at done
    · cases done
    · next held =>
        split at held
        · cases held
          exact ⟨req, d, rfl, (Except.ok.inj done).symm⟩
        · cases held

/-- A call goes on with the body: it takes some of its slice, and ends the body, leaves nothing of
the slice or leaves what waits for more; a slice that does not wait is not left whole. -/
structure Called (lim : HttpdLimits) (stream : Bytes) (b b' : HttpdBody) (front slice : Bytes)
    (used : Nat) : Prop where
  used_le : used ≤ slice.length
  rest : b'.rest = b.rest.drop used
  going : Going lim stream b' (front ++ b.rest.take used)
  stops : used = slice.length ∨ b'.req.bodyIn = true ∨ Inside.Waits lim b'.req (slice.drop used)
  reads : b.req.bodyIn = false → slice ≠ [] → ¬Inside.Waits lim b.req slice → 0 < used

theorem call (going : Going lim stream b front) (small : lim.body < sizeWrap)
    (done : httpdConnSlice lim b len hold = .ok b') : ∃ used, Called lim stream b b' front (b.rest.take len) used := by
  obtain ⟨req, d, loop, rfl⟩ := call_ok done
  obtain ⟨inside, stops, -⟩ := (going.inside len).loop loop
  have got_eq := inside.got
  have body := inside.body
  have got : sizeAdd req.got d.wr = req.got + d.wr := sizeAdd_of_lt (by omega)
  have slice : (b.rest.take len).length ≤ len := length_take_le ..
  have used_le := inside.rd
  have behind : d.left ++ b.rest.drop len = b.rest.drop d.rd := by
    calc
      _ = ((b.rest.take len).drop d.rd) ++ b.rest.drop len := by rw [inside.left]
      _ = (b.rest.take len ++ b.rest.drop len).drop d.rd :=
        (drop_append_of_le_length used_le).symm
      _ = b.rest.drop d.rd := by rw [take_append_drop]
  have front_eq : (b.rest.take len).take d.rd = b.rest.take d.rd := by
    rw [take_take, Nat.min_eq_left (by omega)]
  have data : (d.raw.take d.wr).length = d.wr := by
    have wr := inside.wr
    have length := inside.length
    exact length_take_of_le (by omega)
  refine ⟨d.rd, used_le, behind, ⟨?_, ?_, ?_, inside.trailer, ?_⟩, ?_, ?_⟩
  · rw [behind, append_assoc, take_append_drop]
    exact going.whole
  · change sizeAdd req.got d.wr = (b.handed ++ d.raw.take d.wr).length
    rw [got, got_eq, length_append, data]
  · change sizeAdd req.got d.wr + req.chunk ≤ lim.body
    rw [got]
    exact body
  · have took := inside.took
    rw [front_eq] at took
    exact took.alike rfl rfl rfl ⟨rfl, rfl⟩
  · rw [← inside.left]
    exact stops
  · intro open_ some_ ready
    exact (going.inside len).loop_reads open_ (length_pos_iff.mpr some_) ready loop

/-- However a body has been sliced, it goes on. -/
theorem calls (going : Going lim stream b front) (small : lim.body < sizeWrap)
    (slices : List (Nat × (Nat → Bool))) (done : httpdConnSlices lim b slices = .ok b') :
    ∃ front', Going lim stream b' front' := by
  induction slices generalizing b front with
  | nil =>
    obtain rfl : b = b' := Except.ok.inj done
    exact ⟨front, going⟩
  | cons slice slices ih =>
    cases called : httpdConnSlice lim b slice.1 slice.2 with
    | error status =>
      rw [httpdConnSlices, foldlM_cons, called] at done
      cases done
    | ok b₁ =>
      rw [httpdConnSlices, foldlM_cons, called] at done
      obtain ⟨used, called⟩ := going.call small called
      exact ih called.going done

end Going

/-- A request whose chunked body begins. -/
structure ChunkedBegins (req : HttpdReq) : Prop where
  open_ : req.bodyIn = false
  state : req.chunking = .size
  got : req.got = 0
  chunk : req.chunk = 0
  trailer : req.trailer = 0
  trailers : req.trailers = 0

theorem ChunkedBegins.going (begins : ChunkedBegins req) (stream : Bytes) :
    Going lim stream { req, rest := stream } [] where
  whole := rfl
  got := begins.got
  body := by
    change req.got + req.chunk ≤ lim.body
    rw [begins.got, begins.chunk]
    exact Nat.zero_le _
  trailer := by
    change req.trailer ≤ lim.head
    rw [begins.trailer]
    exact Nat.zero_le _
  took := .size [] begins.state begins.open_ begins.chunk begins.trailer begins.trailers

end Askai
