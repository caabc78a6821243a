import Askai.Httpd.Chunked

/-!
# Chunked bodies, accepted

What a client loop accepts of a chunked body, however its bytes are sliced: whatever is accepted is
a chunked body, and every one within the limits is.
-/

namespace Askai

open Library List

variable {lim : HttpdLimits} {req req' : HttpdReq} {d d' : HttpdDechunk}

/-! ## What is still to come -/

/-- Of a request's body within the limits, the bytes `rest` are still to come, then `more`, and have
the data `data`. -/
inductive Remains (lim : HttpdLimits) (more : Bytes) (req : HttpdReq) : Bytes → Bytes → Prop
  | size (b : ChunkedBody) (within : b.Within lim) (state : req.chunking = .size)
      (open_ : req.bodyIn = false) (trailer : req.trailer = 0) (trailers : req.trailers = 0) :
      Remains lim more req (b.bytes ++ more) b.data
  | data (part : Bytes) (b : ChunkedBody) (within : b.Within lim) (state : req.chunking = .data)
      (open_ : req.bodyIn = false) (chunk : part.length = req.chunk) (trailer : req.trailer = 0)
      (trailers : req.trailers = 0) :
      Remains lim more req (part ++ (crlf ++ (b.bytes ++ more))) (part ++ b.data)
  | filled (b : ChunkedBody) (within : b.Within lim) (state : req.chunking = .crlf)
      (open_ : req.bodyIn = false) (trailer : req.trailer = 0) (trailers : req.trailers = 0) :
      Remains lim more req (crlf ++ (b.bytes ++ more)) b.data
  | trailer (lines : List TrailerLine) (state : req.chunking = .trailer) (open_ : req.bodyIn = false)
      (head : req.trailer + (trailerBytes lines).length + 2 ≤ lim.head)
      (fields : req.trailers + lines.length ≤ lim.fields)
      (few : 4 * req.trailers ≤ req.trailer) :
      Remains lim more req (trailerBytes lines ++ (crlf ++ more)) []
  | whole (in_ : req.bodyIn = true) : Remains lim more req more []

namespace Remains

variable {more rest data : Bytes}

theorem of_eq {rest' data' : Bytes} (remains : Remains lim more req rest data)
    (rest_eq : rest' = rest) (data_eq : data' = data) : Remains lim more req rest' data' := by
  rw [rest_eq, data_eq]
  exact remains

/-- How much data has been counted is of no account. -/
theorem counted (remains : Remains lim more req rest data) (n : Nat) :
    Remains lim more { req with got := n } rest data := by
  cases remains with
  | size b within state open_ trailer trailers =>
    exact .size b within state open_ trailer trailers
  | data part b within state open_ chunk trailer trailers =>
    exact .data part b within state open_ chunk trailer trailers
  | filled b within state open_ trailer trailers =>
    exact .filled b within state open_ trailer trailers
  | trailer lines state open_ head fields few => exact .trailer lines state open_ head fields few
  | whole in_ => exact .whole in_

/-- Whatever follows the body, as much of it is still to come. -/
theorem front (remains : Remains lim more req rest data) :
    ∃ front, rest = front ++ more ∧ ∀ more', Remains lim more' req (front ++ more') data := by
  cases remains with
  | size b within state open_ trailer trailers =>
    exact ⟨b.bytes, rfl, fun _ => .size b within state open_ trailer trailers⟩
  | data part b within state open_ chunk trailer trailers =>
    refine ⟨part ++ (crlf ++ b.bytes), by simp only [append_assoc], fun more' => ?_⟩
    rw [append_assoc, append_assoc]
    exact .data part b within state open_ chunk trailer trailers
  | filled b within state open_ trailer trailers =>
    refine ⟨crlf ++ b.bytes, by rw [append_assoc], fun more' => ?_⟩
    rw [append_assoc]
    exact .filled b within state open_ trailer trailers
  | trailer lines state open_ head fields few =>
    refine ⟨trailerBytes lines ++ crlf, by rw [append_assoc], fun more' => ?_⟩
    rw [append_assoc]
    exact .trailer lines state open_ head fields few
  | whole in_ => exact ⟨[], rfl, fun _ => .whole in_⟩

/-- Until the body is in, there is more to come. -/
theorem ne_nil (remains : Remains lim more req rest data) (open_ : req.bodyIn = false) : rest ≠ [] := by
  cases remains with
  | size b =>
    rw [ChunkedBody.bytes]
    simp [crlf]
  | data => simp [crlf]
  | filled => simp [crlf]
  | trailer => simp [crlf]
  | whole in_ => cases open_.symm.trans in_

end Remains

/-- A line that comes in two parts is in the first of them, or is not all in. -/
theorem line_split {left beyond line rest : Bytes}
    (whole : left ++ beyond = line ++ cr :: lf :: rest) (clear : lf ∉ line) :
    (∃ tail, left = line ++ cr :: lf :: tail ∧ rest = tail ++ beyond) ∨
      lf ∉ left ∧ left.length < line.length + 2 ∧ beyond ≠ [] := by
  have shape : left ++ beyond = (line ++ [cr, lf]) ++ rest := by
    rw [whole, append_assoc]
    rfl
  obtain ⟨behind, ended, rfl⟩ | ⟨tail, rfl, same⟩ := append_eq_append_iff.mp shape
  · rcases eq_nil_or_concat behind with rfl | ⟨init, c, rfl⟩
    · rw [append_nil] at ended
      rw [← ended]
      exact .inl ⟨[], rfl, rfl⟩
    · right
      have cut : (line ++ [cr]) ++ [lf] = (left ++ init) ++ [c] := by
        simpa using ended
      obtain ⟨front, -⟩ := append_inj' cut rfl
      refine ⟨?_, ?_, by simp⟩
      · intro mem
        have in_ : lf ∈ line ++ [cr] := by
          rw [front]
          exact mem_append_left _ mem
        rcases mem_append.mp in_ with mem | mem
        · exact clear mem
        · exact absurd (mem_singleton.mp mem) (by decide)
      · have total := congrArg List.length front
        simp only [length_append, length_singleton] at total
        omega
  · left
    exact ⟨tail, by simp, same⟩

theorem left_skip {piece rest : Bytes} (left : d.left = piece ++ rest) :
    ({ d with rd := d.rd + piece.length } : HttpdDechunk).left = rest := by
  apply append_cancel_left
  rw [← left]
  exact (Shifts.skip left).left.symm

theorem left_crlf {tail : Bytes} (left : d.left = crlf ++ tail) :
    ({ d with rd := d.rd + 2 } : HttpdDechunk).left = tail :=
  left_skip left

theorem left_line {line tail : Bytes} (left : d.left = line ++ cr :: lf :: tail) :
    ({ d with rd := d.rd + (line.length + 2) } : HttpdDechunk).left = tail := by
  have skipped : d.left = (line ++ crlf) ++ tail := by
    rw [left, append_assoc]
    rfl
  have behind := left_skip skipped
  rw [length_append] at behind
  exact behind

/-- The body after its first chunk. -/
def ChunkedBody.behind (b : ChunkedBody) : ChunkedBody :=
  { b with chunks := b.chunks.tail }

variable {b : ChunkedBody}

theorem ChunkedBody.bytes_nil (none_ : b.chunks = []) :
    b.bytes = b.last.bytes ++ (crlf ++ (trailerBytes b.trailer ++ crlf)) := by
  rw [ChunkedBody.bytes, none_]
  rfl

theorem ChunkedBody.bytes_cons {c : Chunk} {chunks : List Chunk} (first : b.chunks = c :: chunks) :
    b.bytes = c.line.bytes ++ (crlf ++ (c.data ++ (crlf ++ b.behind.bytes))) := by
  rw [ChunkedBody.bytes, ChunkedBody.bytes, ChunkedBody.behind, first, chunksBytes, flatMap_cons, Chunk.bytes]
  simp only [append_assoc]
  rfl

theorem ChunkedBody.data_nil (none_ : b.chunks = []) : b.data = [] := by
  rw [ChunkedBody.data, none_]
  rfl

theorem ChunkedBody.data_cons {c : Chunk} {chunks : List Chunk}
    (first : b.chunks = c :: chunks) : b.data = c.data ++ b.behind.data := by
  rw [ChunkedBody.data, ChunkedBody.data, ChunkedBody.behind, first, chunksData, flatMap_cons]
  rfl

theorem ChunkedBody.Within.behind {c : Chunk} {chunks : List Chunk}
    (within : b.Within lim) (first : b.chunks = c :: chunks) : b.behind.Within lim where
  lines := fun c mem => within.lines c (mem_of_mem_tail mem)
  last := within.last
  head := within.head
  fields := within.fields
  body := by
    have body := within.body
    rw [b.data_cons first, length_append] at body
    omega

/-- A turn brings a body on that is still to come. -/
structure Brings (lim : HttpdLimits) (more beyond data : Bytes) (req req' : HttpdReq)
    (d d' : HttpdDechunk) (data' : Bytes) : Prop where
  remains : Remains lim more req' (d'.left ++ beyond) data'
  data : d.raw.take d.wr ++ data = d'.raw.take d'.wr ++ data'
  waits : Inside.Waits lim req d.left → beyond ≠ []

namespace Remains

variable {more beyond data front handed raw : Bytes}

theorem turn_size (inside : Inside lim front handed raw req d) (small : lim.body < sizeWrap)
    (b : ChunkedBody) (within : b.Within lim) (state : req.chunking = .size)
    (open_ : req.bodyIn = false) (trailer : req.trailer = 0) (trailers : req.trailers = 0)
    (fits : req.got + d.wr + b.data.length ≤ lim.body) (come : d.left ++ beyond = b.bytes ++ more) :
    ∃ req' d' data', httpdConnChunkSize lim req d = .ok (req', d') ∧
      Brings lim more beyond b.data req req' d d' data' := by
  have stay (clear : lf ∉ d.left) (short : d.left.length < chunkLine) (later : beyond ≠ []) :
      ∃ req' d' data', httpdConnChunkSize lim req d = .ok (req', d') ∧
        Brings lim more beyond b.data req req' d d' data' :=
    ⟨req, d, b.data, chunkSize_wait clear short,
      ⟨come ▸ .size b within state open_ trailer trailers, rfl, fun _ => later⟩⟩
  have ready {l : Bytes} {tail : Bytes} (left : d.left = l ++ cr :: lf :: tail) :
      Inside.Waits lim req d.left → beyond ≠ [] := by
    rw [Inside.Waits, state, left]
    exact fun waits => absurd (by simp) waits.1
  cases chunks : b.chunks with
  | nil =>
    rw [b.bytes_nil chunks] at come
    have shape : d.left ++ beyond = b.last.bytes ++ cr :: lf :: (trailerBytes b.trailer ++ (crlf ++ more)) := by
      rw [come]
      simp [crlf]
    obtain ⟨tail, left, rest⟩ | ⟨clear, short, later⟩ := line_split shape b.last.not_mem
    · have line : httpdConnChunkSize lim req d = _ := chunkSize_line b.last within.last left
      rw [b.zero, if_neg (by decide), if_neg (Nat.not_lt_zero _)] at line
      refine ⟨_, _, [], line, ⟨?_, ?_, ready left⟩⟩
      · rw [left_line left, ← rest]
        refine .trailer b.trailer rfl open_ ?_ ?_ ?_
        · have head := within.head
          change req.trailer + _ + 2 ≤ lim.head
          omega
        · have fields := within.fields
          change req.trailers + _ ≤ lim.fields
          omega
        · change 4 * req.trailers ≤ req.trailer
          omega
      · rw [b.data_nil chunks]
    · exact stay clear (Nat.lt_of_lt_of_le short within.last) later
  | cons c rest_chunks =>
    have in_ : c ∈ b.chunks := by
      rw [chunks]
      exact mem_cons_self
    rw [b.bytes_cons chunks] at come
    have shape : d.left ++ beyond = c.line.bytes ++ cr :: lf :: (c.data ++ (crlf ++ (b.behind.bytes ++ more))) := by
      rw [come]
      simp [crlf]
    obtain ⟨tail, left, rest⟩ | ⟨clear, short, later⟩ := line_split shape c.line.not_mem
    · have total : c.data.length ≤ b.data.length := by
        rw [b.data_cons chunks, length_append]
        exact Nat.le_add_right ..
      have some_ : c.data.length ≠ 0 := fun none_ => c.some_ (length_eq_zero_iff.mp none_)
      have line : httpdConnChunkSize lim req d = _ :=
        chunkSize_line c.line (within.lines c in_) left
      change lim.body < 2 ^ 64 at small
      rw [c.sized, inside.body_sub, if_neg (by omega), if_neg (by omega), if_pos some_] at line
      refine ⟨_, _, b.data, line, ⟨?_, rfl, ready left⟩⟩
      rw [left_line left, ← rest]
      apply Remains.of_eq
      · exact .data c.data b.behind (within.behind chunks) rfl open_ rfl trailer trailers
      · rfl
      · exact b.data_cons chunks
    · exact stay clear (Nat.lt_of_lt_of_le short (within.lines c in_)) later

theorem turn_data (inside : Inside lim front handed raw req d)
    (part : Bytes) (b : ChunkedBody) (within : b.Within lim) (state : req.chunking = .data)
    (open_ : req.bodyIn = false) (chunk : part.length = req.chunk) (trailer : req.trailer = 0)
    (trailers : req.trailers = 0) (come : d.left ++ beyond = part ++ (crlf ++ (b.bytes ++ more))) :
    ∃ data', Brings lim more beyond (part ++ b.data) req (httpdReqChunkData req d).1 d
      (httpdReqChunkData req d).2 data' := by
  have shifts : Shifts d (httpdReqChunkData req d).2 (d.left.take req.chunk) (d.left.take req.chunk) :=
    Shifts.chunkData inside.wr (by rw [inside.length]; exact inside.rd)
  have ready : Inside.Waits lim req d.left → beyond ≠ [] := by
    rw [Inside.Waits, state]
    simp
  -- what is in of the chunk's data, and what of it is not
  have split : ∃ rest tail, part = d.left.take req.chunk ++ rest ∧
      d.left = d.left.take req.chunk ++ tail ∧ tail ++ beyond = rest ++ (crlf ++ (b.bytes ++ more)) ∧
      (rest ≠ [] → tail = []) := by
    obtain ⟨rest, part_eq, beyond_eq⟩ | ⟨tail, left_eq, rest_eq⟩ :=
      append_eq_append_iff.mp come
    · have all : d.left.take req.chunk = d.left := by
        apply take_of_length_le
        rw [← chunk, part_eq, length_append]
        exact Nat.le_add_right ..
      exact ⟨rest, [], by rw [all]; exact part_eq, by rw [all, append_nil], beyond_eq, fun _ => rfl⟩
    · have all : d.left.take req.chunk = part := by
        rw [left_eq, ← chunk, take_left]
      exact ⟨[], tail, by rw [all, append_nil], by rw [all]; exact left_eq, rest_eq.symm,
        fun some_ => absurd rfl some_⟩
  obtain ⟨rest, tail, part_eq, left_eq, come', none_⟩ := split
  have after : (httpdReqChunkData req d).2.left = tail := by
    apply append_cancel_left
    rw [← shifts.left]
    exact left_eq
  have count : (d.left.take req.chunk).length = min d.left.length req.chunk := by
    rw [length_take, Nat.min_comm]
  have total := congrArg List.length part_eq
  rw [length_append, chunk, count] at total
  cases rest with
  | nil =>
    have done : req.chunk - min d.left.length req.chunk = 0 := by
      rw [length_nil] at total
      omega
    refine ⟨b.data, ⟨?_, ?_, ready⟩⟩
    · rw [after, come']
      exact .filled b within (if_pos done) open_ trailer trailers
    · rw [shifts.data, part_eq, append_nil, append_assoc]
  | cons c rest =>
    have more_ : req.chunk - min d.left.length req.chunk = (c :: rest).length := by omega
    have state' : (httpdReqChunkData req d).1.chunking = .data := by
      rw [← state]
      apply if_neg
      rw [more_]
      exact Nat.succ_ne_zero _
    refine ⟨c :: rest ++ b.data, ⟨?_, ?_, ready⟩⟩
    · rw [after, come']
      exact .data (c :: rest) b within state' open_ more_.symm trailer trailers
    · rw [shifts.data, append_assoc, ← append_assoc _ (c :: rest), ← part_eq]

theorem turn_filled (b : ChunkedBody) (within : b.Within lim) (state : req.chunking = .crlf)
    (open_ : req.bodyIn = false) (trailer : req.trailer = 0) (trailers : req.trailers = 0)
    (come : d.left ++ beyond = crlf ++ (b.bytes ++ more)) : ∃ req' d' data', httpdReqChunkEnd req d = .ok (req', d') ∧
      Brings lim more beyond b.data req req' d d' data' := by
  have shape : d.left ++ beyond = [] ++ cr :: lf :: (b.bytes ++ more) := come
  obtain ⟨tail, left, rest⟩ | ⟨-, short, later⟩ := line_split shape not_mem_nil
  · have ready : Inside.Waits lim req d.left → beyond ≠ [] := by
      rw [Inside.Waits, state, left]
      exact fun short => absurd short (by simp)
    refine ⟨_, _, b.data, chunkEnd_crlf left, ⟨?_, rfl, ready⟩⟩
    rw [left_crlf left, ← rest]
    exact .size b within rfl open_ trailer trailers
  · exact ⟨req, d, b.data, chunkEnd_wait short,
      ⟨come ▸ .filled b within state open_ trailer trailers, rfl, fun _ => later⟩⟩

theorem turn_trailer (inside : Inside lim front handed raw req d) (lines : List TrailerLine)
    (state : req.chunking = .trailer) (open_ : req.bodyIn = false)
    (head : req.trailer + (trailerBytes lines).length + 2 ≤ lim.head)
    (fields : req.trailers + lines.length ≤ lim.fields) (few : 4 * req.trailers ≤ req.trailer)
    (come : d.left ++ beyond = trailerBytes lines ++ (crlf ++ more)) :
    ∃ req' d' data', httpdConnTrailer lim req d = .ok (req', d') ∧ Brings lim more beyond [] req req' d d' data' := by
  have stay (clear : lf ∉ d.left) (short : d.left.length < lim.head) (later : beyond ≠ []) :
      ∃ req' d' data', httpdConnTrailer lim req d = .ok (req', d') ∧
        Brings lim more beyond [] req req' d d' data' :=
    ⟨req, d, [], trailer_wait clear short, ⟨come ▸ .trailer lines state open_ head fields few, rfl, fun _ => later⟩⟩
  have ready {l : Bytes} {tail : Bytes} (left : d.left = l ++ cr :: lf :: tail) :
      Inside.Waits lim req d.left → beyond ≠ [] := by
    rw [Inside.Waits, state, left]
    exact fun waits => absurd (by simp) waits.1
  have room := inside.trailer_sub
  cases lines with
  | nil =>
    rw [trailerBytes, flatMap_nil, length_nil] at head
    have shape : d.left ++ beyond = [] ++ cr :: lf :: more := come
    obtain ⟨tail, left, rest⟩ | ⟨clear, short, later⟩ := line_split shape not_mem_nil
    · have end_ : httpdConnTrailer lim req d = _ := trailer_end (by omega) left
      rw [room, if_neg (by omega), if_neg (by rw [length_nil] at fields; omega)] at end_
      refine ⟨_, _, [], end_, ⟨?_, rfl, ready left⟩⟩
      rw [left_crlf left, ← rest]
      exact .whole rfl
    · exact stay clear (Nat.lt_of_lt_of_le short (by rw [length_nil]; omega)) later
  | cons l lines =>
    have bytes : trailerBytes (l :: lines) = l.bytes ++ crlf ++ trailerBytes lines := rfl
    have some_ := length_pos_iff.mpr l.some_
    have least : 2 ≤ l.bytes.length := by
      rw [TrailerLine.bytes, length_append, length_cons]
      omega
    rw [bytes, length_append, length_append] at head
    change req.trailer + (l.bytes.length + 2 + (trailerBytes lines).length) + 2 ≤ lim.head at head
    rw [length_cons] at fields
    have most := lim.head_le
    have shape : d.left ++ beyond = l.bytes ++ cr :: lf :: (trailerBytes lines ++ (crlf ++ more)) := by
      rw [come, bytes]
      simp [crlf]
    obtain ⟨tail, left, rest⟩ | ⟨clear, short, later⟩ := line_split shape l.not_mem
    · have line : httpdConnTrailer lim req d = _ := trailer_line l (by omega) left
      have counted : wrap16 (req.trailers + 1) = req.trailers + 1 := Nat.mod_eq_of_lt (by omega)
      have less : l.bytes.length + 2 ≤ sizeSub lim.head req.trailer := by omega
      obtain ⟨-, trailed⟩ := inside.trailed less
      rw [room, if_neg (by omega), counted, if_neg (by omega)] at line
      refine ⟨_, _, [], line, ⟨?_, rfl, ready left⟩⟩
      rw [left_line left, ← rest]
      refine .trailer lines state open_ ?_ ?_ ?_
      · change (req.trailed (l.bytes.length + 2)).trailer + _ + 2 ≤ lim.head
        rw [trailed]
        omega
      · change req.trailers + 1 + _ ≤ lim.fields
        omega
      · change 4 * (req.trailers + 1) ≤ (req.trailed (l.bytes.length + 2)).trailer
        rw [trailed]
        omega
    · exact stay clear (by omega) later

/-- A body that is still to come is refused by no turn. -/
theorem turn (inside : Inside lim front handed raw req d) (small : lim.body < sizeWrap)
    (remains : Remains lim more req (d.left ++ beyond) data) (open_ : req.bodyIn = false)
    (fits : handed.length + (d.raw.take d.wr ++ data).length ≤ lim.body) :
    ∃ req' d' data', httpdDechunkTurn lim req d = .ok (req', d') ∧ Brings lim more beyond data req req' d d' data' := by
  have fits' : req.got + d.wr + data.length ≤ lim.body := by
    have wr := inside.wr
    have rd := inside.rd
    have length := inside.length
    rw [inside.got, Nat.add_assoc]
    rw [length_append, length_take_of_le (by omega)] at fits
    exact fits
  generalize come : d.left ++ beyond = rest at remains
  cases remains with
  | size b within state _ trailer trailers =>
    rw [httpdDechunkTurn, state]
    exact turn_size inside small b within state open_ trailer trailers fits' come
  | data part b within state _ chunk trailer trailers =>
    obtain ⟨data', brings⟩ := turn_data inside part b within state open_ chunk trailer trailers come
    rw [httpdDechunkTurn, state]
    exact ⟨_, _, data', rfl, brings⟩
  | filled b within state _ trailer trailers =>
    rw [httpdDechunkTurn, state]
    exact turn_filled b within state open_ trailer trailers come
  | trailer lines state _ head fields few =>
    rw [httpdDechunkTurn, state]
    exact turn_trailer inside lines state open_ head fields few come
  | whole in_ => cases open_.symm.trans in_

/-- Nor is it by a call, which has it whole once all of it is in. -/
theorem loop (inside : Inside lim front handed raw req d) (small : lim.body < sizeWrap)
    (remains : Remains lim more req (d.left ++ beyond) data)
    (fits : handed.length + (d.raw.take d.wr ++ data).length ≤ lim.body) :
    ∃ req' d' data', httpdDechunkLoop lim raw.length req d = .ok (req', d') ∧
      Remains lim more req' (d'.left ++ beyond) data' ∧
      d.raw.take d.wr ++ data = d'.raw.take d'.wr ++ data' ∧ (beyond = [] → req'.bodyIn = true) := by
  induction req, d using httpdDechunkLoop.induct lim raw.length generalizing data with
  | case1 req d unread status taken =>
    obtain ⟨req', d', data', ok, -⟩ := turn inside small remains unread.2 fits
    cases taken.symm.trans ok
  | case2 req d unread req₁ d₁ taken same =>
    obtain ⟨req', d', data', ok, brings⟩ := turn inside small remains unread.2 fits
    obtain ⟨rfl, rfl⟩ := Prod.mk.inj (Except.ok.inj (taken.symm.trans ok))
    refine ⟨req₁, d₁, data', ?_, brings.remains, brings.data, ?_⟩
    · rw [httpdDechunkLoop, if_pos unread, taken]
      exact if_pos same
    · obtain ⟨-, moved | ⟨waits, -, -⟩⟩ := inside.turn unread.2 unread.1 taken
      · exact absurd same (Nat.ne_of_gt moved)
      · exact fun none_ => absurd none_ (brings.waits waits)
  | case3 req d unread req₁ d₁ taken moved ih =>
    obtain ⟨req', d', data', ok, brings⟩ := turn inside small remains unread.2 fits
    obtain ⟨rfl, rfl⟩ := Prod.mk.inj (Except.ok.inj (taken.symm.trans ok))
    rw [brings.data] at fits
    obtain ⟨req₂, d₂, data₂, done, remains₂, same, whole⟩ :=
      ih (inside.turn unread.2 unread.1 taken).1 brings.remains fits
    refine ⟨req₂, d₂, data₂, ?_, remains₂, brings.data.trans same, whole⟩
    rw [httpdDechunkLoop, if_pos unread, taken]
    exact (if_neg moved).trans done
  | case4 req d ended =>
    refine ⟨req, d, data, by rw [httpdDechunkLoop, if_neg ended], remains, rfl, ?_⟩
    rintro rfl
    cases in_ : req.bodyIn with
    | true => rfl
    | false =>
      have read : ¬d.rd < raw.length := fun unread => ended ⟨unread, in_⟩
      have none_ : d.left = [] := by
        rw [inside.left]
        exact drop_of_length_le (Nat.le_of_not_lt read)
      rw [none_] at remains
      exact absurd rfl (remains.ne_nil in_)

/-- A body under way within the limits is brought on by every call, and is in once a call has all
of it. -/
theorem call {stream : Bytes} {b : HttpdBody} (going : Going lim stream b front)
    (small : lim.body < sizeWrap) (remains : Remains lim more b.req b.rest data)
    (fits : (b.handed ++ data).length ≤ lim.body) (len : Nat) :
    ∃ b' data', httpdConnSlice lim b len (fun _ => true) = .ok b' ∧
      Remains lim more b'.req b'.rest data' ∧ b.handed ++ data = b'.handed ++ data' ∧
      (b.rest.length ≤ len + more.length → b'.req.bodyIn = true) := by
  have start : Remains lim more b.req (({ raw := b.rest.take len } : HttpdDechunk).left ++ b.rest.drop len) data := by
    change Remains lim more b.req (b.rest.take len ++ b.rest.drop len) data
    rw [take_append_drop]
    exact remains
  rw [length_append] at fits
  obtain ⟨req, d, data', done, remains', same, -⟩ := loop (going.inside len) small start fits
  have called : httpdConnSlice lim b len (fun _ => true) =
      .ok { req := { req with got := sizeAdd req.got d.wr }
            rest := d.left ++ b.rest.drop len
            handed := b.handed ++ d.raw.take d.wr } := by
    rw [httpdConnSlice, httpdConnDechunk, done]
    rfl
  refine ⟨_, data', called, remains'.counted _, ?_, ?_⟩
  · change b.handed ++ data = b.handed ++ d.raw.take d.wr ++ data'
    rw [append_assoc, ← same]
    rfl
  · intro all
    obtain ⟨front', rest, other⟩ := remains.front
    -- what follows the body makes no difference to it
    have cut : b.rest.take len = front' ++ more.take (len - front'.length) := by
      rw [rest, length_append] at all
      rw [rest, take_append, take_of_length_le (by omega)]
    have alone : Remains lim (more.take (len - front'.length)) b.req
        (({ raw := b.rest.take len } : HttpdDechunk).left ++ []) data := by
      change Remains lim _ b.req (b.rest.take len ++ []) data
      rw [append_nil, cut]
      exact other _
    obtain ⟨req₁, d₁, -, done₁, -, -, whole₁⟩ := loop (going.inside len) small alone fits
    obtain ⟨rfl, rfl⟩ := Prod.mk.inj (Except.ok.inj (done.symm.trans done₁))
    exact whole₁ rfl

theorem whole_inv (remains : Remains lim more req rest data) (in_ : req.bodyIn = true) : rest = more ∧ data = [] := by
  cases remains with
  | size _ _ _ open_ => cases open_.symm.trans in_
  | data _ _ _ _ open_ => cases open_.symm.trans in_
  | filled _ _ _ open_ => cases open_.symm.trans in_
  | trailer _ _ open_ => cases open_.symm.trans in_
  | whole => exact ⟨rfl, rfl⟩

end Remains

/-- A body within the limits is brought on by any calls. -/
theorem Remains.calls {stream front data more : Bytes} {b : HttpdBody}
    (going : Going lim stream b front) (small : lim.body < sizeWrap)
    (remains : Remains lim more b.req b.rest data) (fits : (b.handed ++ data).length ≤ lim.body) (lens : List Nat) :
    ∃ b' front' data', httpdConnSlices lim b (lens.map fun len => (len, fun _ => true)) = .ok b' ∧
      Going lim stream b' front' ∧ Remains lim more b'.req b'.rest data' ∧ b.handed ++ data = b'.handed ++ data' := by
  induction lens generalizing b front data with
  | nil => exact ⟨b, front, data, rfl, going, remains, rfl⟩
  | cons len lens ih =>
    obtain ⟨b₁, data₁, called, remains₁, same₁, -⟩ := remains.call going small fits len
    obtain ⟨used, goes⟩ := going.call small called
    rw [same₁] at fits
    obtain ⟨b', front', data', done, going', remains', same'⟩ := ih goes.going remains₁ fits
    refine ⟨b', front', data', ?_, going', remains', same₁.trans same'⟩
    rw [httpdConnSlices, map_cons, foldlM_cons, called]
    exact done

/-- A size line whose size is not in a `size_t` is refused, however long the line. -/
theorem chunkSize_refused (l : SizeLine) (large : 2 ^ 64 ≤ l.size) {rest : Bytes}
    (left : d.left = l.bytes ++ cr :: lf :: rest) : httpdConnChunkSize lim req d = .error 400 := by
  rcases Nat.lt_or_ge chunkLine (l.bytes.length + 2) with long | short
  · have absent : lf ∉ d.left.take chunkLine := by
      have shape : d.left = (l.bytes ++ [cr]) ++ lf :: rest := by
        rw [left, append_assoc]
        rfl
      rw [shape, take_append_of_le_length (by rw [length_append, length_singleton]; omega)]
      intro mem
      rcases mem_append.mp (mem_of_mem_take mem) with mem | mem
      · exact l.not_mem mem
      · exact absurd (mem_singleton.mp mem) (by decide)
    have total := congrArg List.length left
    simp only [length_append, length_cons] at total
    rw [httpdConnChunkSize, httpdDechunkLine, cut_eq_none.mpr absent]
    dsimp only
    rw [if_neg (by omega)]
    rfl
  · rw [chunkSize_line l short left, if_pos large]

/-- A body within the limits is accepted, in whatever slices it comes. -/
theorem body_accepted (small : lim.body < sizeWrap) (begins : ChunkedBegins req)
    {body : ChunkedBody} (within : body.Within lim) (more : Bytes) (lens : List Nat) :
    ∃ b, httpdConnSlices lim { req, rest := body.bytes ++ more } (lens.map fun len => (len, fun _ => true)) = .ok b ∧
      ∀ len, b.rest.length ≤ len + more.length →
        ∃ b', httpdConnSlice lim b len (fun _ => true) = .ok b' ∧ b'.req.bodyIn = true ∧
          b'.rest = more ∧ b'.handed = body.data := by
  have start : Remains lim more req (body.bytes ++ more) body.data :=
    .size body within begins.state begins.open_ begins.trailer begins.trailers
  obtain ⟨b, front, data, done, going, remains, same⟩ :=
    start.calls (begins.going _) small within.body lens
  refine ⟨b, done, fun len all => ?_⟩
  have fits : (b.handed ++ data).length ≤ lim.body := by
    rw [← same]
    exact within.body
  obtain ⟨b', data', called, remains', same', whole'⟩ := remains.call going small fits len
  obtain ⟨rest, none_⟩ := remains'.whole_inv (whole' all)
  refine ⟨b', called, whole' all, rest, ?_⟩
  rw [none_, append_nil] at same'
  exact (same.trans same').symm

/-- Whatever is accepted is a chunked body. -/
theorem accepted_body (small : lim.body < sizeWrap) (begins : ChunkedBegins req) {stream : Bytes}
    {calls : List (Nat × (Nat → Bool))} {b : HttpdBody}
    (done : httpdConnSlices lim { req, rest := stream } calls = .ok b) (in_ : b.req.bodyIn = true) :
    ∃ body : ChunkedBody, stream = body.bytes ++ b.rest ∧ b.handed = body.data := by
  obtain ⟨front, going⟩ := (begins.going stream).calls small calls done
  obtain ⟨body, rfl, data⟩ := going.took.whole_inv in_
  exact ⟨body, going.whole, data⟩

theorem chunked_bodies (lim : HttpdLimits) (small : lim.body < sizeWrap) (req : HttpdReq)
    (begins : ChunkedBegins req) (stream : Bytes) :
    (∀ calls b, httpdConnSlices lim { req, rest := stream } calls = .ok b → (b.req.bodyIn = true →
        ∃ body : ChunkedBody, stream = body.bytes ++ b.rest ∧ b.handed = body.data) ∧ (∀ len req' d,
        DechunkPoint lim (b.rest.take len).length b.req { raw := b.rest.take len } req' d →
        req'.got + d.wr + req'.chunk ≤ lim.body ∧ req'.trailer ≤ lim.head ∧
        (req'.chunking = .size → ∀ (l : SizeLine) (rest : Bytes), d.left = l.bytes ++ (crlf ++ rest) → 2 ^ 64 ≤ l.size →
          httpdDechunkTurn lim req' d = .error 400)) ∧ ∀ len hold b', httpdConnSlice lim b len hold = .ok b' →
        ∃ used, used ≤ (b.rest.take len).length ∧ b'.rest = b.rest.drop used ∧
          (used = (b.rest.take len).length ∨ b'.req.bodyIn = true ∨
            Inside.Waits lim b'.req ((b.rest.take len).drop used)) ∧ (b.req.bodyIn = false → b.rest.take len ≠ [] →
            ¬Inside.Waits lim b.req (b.rest.take len) → 0 < used)) ∧
    ∀ body : ChunkedBody, body.Within lim → ∀ more, stream = body.bytes ++ more → ∀ lens : List Nat, ∃ b,
        httpdConnSlices lim { req, rest := stream } (lens.map fun len => (len, fun _ => true)) = .ok b ∧
        ∀ len, b.rest.length ≤ len + more.length →
          ∃ b', httpdConnSlice lim b len (fun _ => true) = .ok b' ∧ b'.req.bodyIn = true ∧
            b'.rest = more ∧ b'.handed = body.data := by
  constructor
  · intro calls b done
    obtain ⟨front, going⟩ := (begins.going stream).calls small calls done
    refine ⟨?_, ?_, ?_⟩
    · exact accepted_body small begins done
    · intro len req' d point
      have inside := (going.inside len).point point
      refine ⟨inside.body, inside.trailer, fun state l rest left large => ?_⟩
      rw [httpdDechunkTurn, state]
      exact chunkSize_refused l large left
    · intro len hold b' called
      obtain ⟨used, called⟩ := going.call small called
      exact ⟨used, called.used_le, called.rest, called.stops, called.reads⟩
  · intro body within more whole lens
    rw [whole]
    exact body_accepted small begins within more lens

/-- Small limits. -/
def someLimits : HttpdLimits :=
  { body := 16, head := 64, fields := 4, head_le := by decide }

theorem chunked_bodies_hello : ∃ body : ChunkedBody, ascii "5\r\nhello\r\n0\r\n\r\n" = body.bytes ++ [] ∧
      ascii "hello" = body.data := by
  have read : (httpdConnSlices someLimits { req := {}, rest := ascii "5\r\nhello\r\n0\r\n\r\n" }
      [(6, fun _ => true), (20, fun _ => true)]).toOption.map
        (fun b => (b.req.bodyIn, b.rest, b.handed)) = some (true, [], ascii "hello") := by
    decide +kernel
  obtain ⟨b, taken, same⟩ := Option.map_eq_some_iff.mp read
  obtain ⟨in_, rest, handed⟩ : b.req.bodyIn = true ∧ b.rest = [] ∧ b.handed = ascii "hello" := by
    simpa using same
  cases done : httpdConnSlices someLimits { req := {}, rest := ascii "5\r\nhello\r\n0\r\n\r\n" }
      [(6, fun _ => true), (20, fun _ => true)] with
  | error status =>
    rw [done] at taken
    cases taken
  | ok b' =>
    rw [done] at taken
    obtain rfl : b' = b := Option.some.inj taken
    rw [← rest, ← handed]
    exact ((chunked_bodies someLimits (by decide) {} ⟨rfl, rfl, rfl, rfl, rfl, rfl⟩ _).1 _ b' done).1 in_

/-- The first line of a body. -/
theorem ChunkedBody.first (b : ChunkedBody) : ∃ (l : SizeLine) (rest : Bytes), b.bytes = l.bytes ++ cr :: lf :: rest ∧
      (b.Strict → l.Strict) := by
  cases chunks : b.chunks with
  | nil =>
    refine ⟨b.last, trailerBytes b.trailer ++ crlf, ?_, fun strict => strict.2⟩
    rw [b.bytes_nil chunks]
    rfl
  | cons c rest =>
    refine ⟨c.line, c.data ++ (crlf ++ b.behind.bytes), ?_, fun strict => strict.1 c ?_⟩
    · rw [b.bytes_cons chunks]
      rfl
    · rw [chunks]
      exact mem_cons_self

/-- Lines that begin the same bytes are the same line. -/
theorem line_unique {line line' rest rest' : Bytes} (clear : lf ∉ line) (clear' : lf ∉ line')
    (same : line ++ cr :: lf :: rest = line' ++ cr :: lf :: rest') : line = line' ∧ rest = rest' := by
  have absent {l : Bytes} (clear : lf ∉ l) : lf ∉ l ++ [cr] := by
    intro mem
    rcases mem_append.mp mem with mem | mem
    · exact clear mem
    · exact absurd (mem_singleton.mp mem) (by decide)
  have whole : (line ++ [cr]) ++ lf :: rest = (line' ++ [cr]) ++ lf :: rest' := by
    simpa using same
  have cuts := (cut_append rest (absent clear)).symm.trans
    ((congrArg (cut lf) whole).trans (cut_append rest' (absent clear')))
  obtain ⟨front, back⟩ := Prod.mk.inj (Option.some.inj cuts)
  exact ⟨(append_inj' front rfl).1, back⟩

/-- A size and white space behind it, with no extension, are a size line all the same. -/
theorem spaced_size_accepted : (httpdConnSlices someLimits { req := {}, rest := ascii "0 \r\n\r\n" }
        [(6, fun _ => true)]).toOption.map (fun b => (b.req.bodyIn, b.rest)) = some (true, []) ∧
      ¬∃ body : ChunkedBody, body.Strict ∧ body.bytes = ascii "0 \r\n\r\n" := by
  constructor
  · decide +kernel
  · rintro ⟨body, strict, bytes⟩
    obtain ⟨l, rest, first, strictly⟩ := body.first
    have line : l.bytes = ascii "0 " := by
      have whole : l.bytes ++ cr :: lf :: rest = ascii "0 " ++ cr :: lf :: ascii "\r\n" :=
        first.symm.trans bytes
      exact (line_unique l.not_mem (by decide) whole).1
    cases ext : l.ext with
    | none =>
      have shape : l.digits = ascii "0 " := by
        rw [← line, SizeLine.bytes, SizeLine.after, ext, strictly strict ext]
        exact (append_nil _).symm
      exact absurd (l.hex 32 (by rw [shape]; decide)) (by decide)
    | some text =>
      have mem : (59 : UInt8) ∈ l.bytes := by
        rw [SizeLine.bytes, SizeLine.after, ext]
        simp
      rw [line] at mem
      exact absurd mem (by decide)

end Askai
