import Askai.Httpd.Room

/-!
# Input that finds no room

Behind a head of a request with a chunked body, a line of the body that does not end goes on until it
has no room, unless there is room for the longest that may wait.
-/

namespace Askai

open Library List

variable {app : StreamApp} {lim : HttpdLimits}

/-- Whenever a connection reads, there is room for more. -/
def AlwaysFits (app : StreamApp) (lim : HttpdLimits) : Prop :=
  ∀ s, InputReached app lim s → s.reads = true → s.buf.bytes.length + readMin ≤ lim.inMax

/-- One byte is read, and the connection has a turn. -/
theorem feed_byte (fits : AlwaysFits app lim) {s : HttpdInput} (reached : InputReached app lim s)
    (reads : s.reads = true) (c : UInt8) (share : HttpdShare) : ∃ buf : Buf, buf.bytes = s.buf.bytes ++ [c] ∧
      InputReached app lim (httpdConnNext app lim share { s with buf, next := .more, reads := false }) := by
  obtain ⟨buf, room, reserved⟩ := bufReserve_some (fits s reached reads)
  obtain ⟨same, least, -⟩ := bufReserve_ok reserved
  have one : [c].length ≤ room := Nat.le_trans (show 1 ≤ readMin by decide) least
  refine ⟨buf.commit [c], by rw [Buf.commit, same], ?_⟩
  exact (reached.tail (.read reads reserved one)).tail (.turn rfl rfl)

/-! ## The head -/

/-- The bytes of a head but not all of them are no head. -/
theorem headLength_part {head : Bytes} {scan k : Nat}
    (whole : httpdConnHeadLength lim 0 head = (head.length, 0)) (less : k < head.length)
    (searched : Searched lim scan (head.take k)) : ∃ next, httpdConnHeadLength lim scan (head.take k) = (0, next) := by
  cases found : httpdConnHeadLength lim scan (head.take k) with
  | mk n next =>
    cases n with
    | zero => exact ⟨next, rfl⟩
    | succ n =>
      obtain ⟨first, rest, split, length, short⟩ :=
        searched.headLength found (Nat.succ_ne_zero n)
      have again : head = first.bytes ++ (rest ++ head.drop k) := by
        rw [← append_assoc, ← split, take_append_drop]
      rw [again, first.headLength (by omega), ← again] at whole
      have same := (Prod.mk.inj whole).1
      have fewer := congrArg List.length split
      rw [length_take, length_append] at fewer
      omega

/-- A search that goes on finds the whole head. -/
theorem headLength_whole {head : Bytes} {scan : Nat} (some_ : head ≠ [])
    (whole : httpdConnHeadLength lim 0 head = (head.length, 0)) (searched : Searched lim scan head) :
    httpdConnHeadLength lim scan head = (head.length, scan) := by
  rw [httpdConnHeadLength, drop_zero] at whole
  rw [httpdConnHeadLength, searched.scan_eq]
  cases scanned : httpdHeadScan 0 (head.take lim.head) with
  | error i =>
    rw [scanned] at whole
    exact absurd (Prod.mk.inj whole).1.symm (length_pos_iff.mpr some_).ne'
  | ok n =>
    rw [scanned] at whole
    rw [← (Prod.mk.inj whole).1]

/-- Some of a head has been read. -/
structure HeadFed (app : StreamApp) (lim : HttpdLimits) (bytes : Bytes) (s : HttpdInput) : Prop where
  reached : InputReached app lim s
  reads : s.reads = true
  open_ : s.closing = false
  req : ∃ scan, s.req = { scan } ∧ Searched lim scan bytes
  bytes : s.buf.bytes = bytes

theorem head_fed (fits : AlwaysFits app lim) {head : Bytes} (short : head.length ≤ lim.head)
    (whole : httpdConnHeadLength lim 0 head = (head.length, 0)) {k : Nat} (less : k < head.length) :
    ∃ s, HeadFed app lim (head.take k) s := by
  induction k with
  | zero => exact ⟨{}, .refl, rfl, rfl, ⟨0, rfl, .start _⟩, rfl⟩
  | succ k ih =>
    obtain ⟨s, fed⟩ := ih (Nat.lt_of_succ_lt less)
    obtain ⟨scan, req, searched⟩ := fed.req
    have grown : head.take (k + 1) = head.take k ++ [head[k]] :=
      take_succ_eq_append_getElem (by omega)
    obtain ⟨buf, bytes, reached⟩ := feed_byte fits fed.reached fed.reads head[k] { room := 0 }
    rw [fed.bytes, ← grown] at bytes
    have searched' : Searched lim scan (head.take (k + 1)) := by
      rw [grown]
      exact searched.append _
    obtain ⟨next, part⟩ := headLength_part whole less searched'
    have room : buf.bytes.length < lim.head := by
      rw [bytes, length_take_of_le (Nat.le_of_lt less)]
      omega
    have turned : httpdConnNext app lim { room := 0 } { s with buf, next := .more, reads := false } =
        { s with buf, req := { scan := next }, next := .input, reads := false } := by
      rw [httpdConnNext]
      dsimp only
      rw [req]
      dsimp only
      rw [httpdConnParse]
      dsimp only
      rw [fed.open_, if_neg (by simp), if_neg (by simp)]
      simp only [bytes, part]
      rw [← bytes, if_pos room]
    rw [turned] at reached
    have again := searched'.again part []
    rw [append_nil] at again
    exact ⟨_, reached.tail (.wait rfl fed.open_), rfl, fed.open_, ⟨next, rfl, again⟩, bytes⟩

/-! ## The body -/

theorem Inside.Waits.turn {req : HttpdReq} {d : HttpdDechunk} (waits : Inside.Waits lim req d.left) :
    httpdDechunkTurn lim req d = .ok (req, d) := by
  rw [Inside.Waits] at waits
  rw [httpdDechunkTurn]
  cases state : req.chunking with
  | size =>
    rw [state] at waits
    exact chunkSize_wait waits.1 waits.2
  | data =>
    rw [state] at waits
    exact waits.elim
  | crlf =>
    rw [state] at waits
    exact chunkEnd_wait waits
  | trailer =>
    rw [state] at waits
    exact trailer_wait waits.1 waits.2

/-- What a call comes to whose loop takes nothing of the data. -/
theorem slice_loop {req req' : HttpdReq} {rest : Bytes} {d : HttpdDechunk}
    (loop : httpdDechunkLoop lim rest.length req { raw := rest } = .ok (req', d)) (data : d.wr = 0)
    (got : req'.got = 0) : httpdConnSlice lim { req, rest } rest.length (fun _ => true) =
      .ok { req := req', rest := d.raw.drop d.rd } := by
  have count : sizeAdd req'.got d.wr = req'.got := by
    rw [got, data]
    rfl
  rw [httpdConnSlice, httpdConnDechunk]
  dsimp only
  rw [take_length, loop]
  dsimp only [bind, Except.bind]
  rw [if_pos rfl]
  dsimp only
  rw [count, data, drop_length, append_nil]
  rfl

/-- What waits for more stays as it is. -/
theorem slice_stay {req : HttpdReq} {rest : Bytes} (open_ : req.bodyIn = false) (got : req.got = 0)
    (waits : rest = [] ∨ Inside.Waits lim req rest) :
    httpdConnSlice lim { req, rest } rest.length (fun _ => true) = .ok { req, rest } := by
  have loop : httpdDechunkLoop lim rest.length req { raw := rest } = .ok (req, { raw := rest }) := by
    rw [httpdDechunkLoop]
    rcases Nat.eq_zero_or_pos rest.length with none_ | some_
    · rw [if_neg (by rw [none_]; exact fun less => Nat.not_lt_zero _ less.1)]
    · have waits : Inside.Waits lim req ({ raw := rest } : HttpdDechunk).left := by
        rcases waits with rfl | waits
        · exact absurd some_ (Nat.lt_irrefl 0)
        · exact waits
      rw [if_pos ⟨some_, open_⟩, waits.turn]
      exact if_pos rfl
  exact slice_loop loop rfl got

/-- Behind a head of `n` bytes, some of a body has been read, of which `rest` is left. -/
structure BodyFed (app : StreamApp) (lim : HttpdLimits) (n : Nat) (state : HttpdChunk) (rest : Bytes)
    (s : HttpdInput) : Prop where
  reached : InputReached app lim s
  reads : s.reads = true
  quiet : s.closing = false
  parsed : s.req.parsed = true
  undone : s.req.done = false
  open_ : s.req.bodyIn = false
  chunked : s.req.chunked = true
  got : s.req.got = 0
  state : s.req.chunking = state
  head : s.req.head = n
  length : s.buf.bytes.length = n + rest.length
  behind : s.buf.bytes.drop n = rest

namespace BodyFed

variable {n : Nat} {state : HttpdChunk} {rest : Bytes} {s : HttpdInput}

/-- A turn with nothing else to do takes what is in of the body. -/
theorem turn {t : HttpdInput} {b : HttpdBody} (reached : InputReached app lim t)
    (more : t.next = .more) (busy : t.reads = false) (quiet : t.closing = false)
    (parsed : t.req.parsed = true) (undone : t.req.done = false) (open_ : t.req.bodyIn = false)
    (chunked : t.req.chunked = true) (head : t.req.head = n) (length : t.buf.bytes.length = n + rest.length)
    (behind : t.buf.bytes.drop n = rest)
    (called : httpdConnSlice lim { req := t.req, rest } rest.length (fun _ => true) = .ok b)
    (open' : b.req.bodyIn = false) (got : b.req.got = 0) : ∃ s', BodyFed app lim n b.req.chunking b.rest s' := by
  obtain ⟨head_eq, parsed_eq, chunked_eq, done_eq, -, -⟩ :
      b.req.head = t.req.head ∧ b.req.parsed = t.req.parsed ∧ b.req.chunked = t.req.chunked ∧
        b.req.done = t.req.done ∧ b.req.options = t.req.options ∧ b.req.isHead = t.req.isHead := by
    simpa only [HttpdReq.fixed, Prod.mk.injEq] using httpdConnSlice_fixed called
  have undone' := done_eq.trans undone
  have turned : httpdConnNext app lim { room := rest.length } t =
      { t with
        buf := { t.buf with bytes := t.buf.bytes.take n ++ b.rest }
        req := b.req
        next := .input } := by
    rw [httpdConnNext, undone, open_, parsed]
    dsimp only
    rw [httpdConnBody]
    dsimp only
    rw [if_pos chunked, head, behind, Nat.min_self, called]
    dsimp only
    simp only [Bool.or_false]
    rw [if_neg (by rw [open', undone']; simp), if_neg (Nat.lt_irrefl _)]
  have inside : n ≤ t.buf.bytes.length := by omega
  obtain ⟨behind', -⟩ := InputInv.head_kept inside
  have turn : InputReached app lim (httpdConnNext app lim { room := rest.length } t) :=
    reached.tail (.turn more busy)
  rw [turned] at turn
  refine ⟨_, turn.tail (.wait rfl quiet), rfl, quiet, parsed_eq.trans parsed, undone', open',
    chunked_eq.trans chunked, got, rfl, head_eq.trans head, ?_, behind'⟩
  change (t.buf.bytes.take n ++ b.rest).length = n + b.rest.length
  rw [length_append, length_take_of_le inside]

/-- Another byte is read. -/
theorem feed (fits : AlwaysFits app lim) (fed : BodyFed app lim n state rest s) (c : UInt8) {b : HttpdBody}
    (called : httpdConnSlice lim { req := s.req, rest := rest ++ [c] } (rest ++ [c]).length
      (fun _ => true) = .ok b) (open_ : b.req.bodyIn = false) (got : b.req.got = 0) :
    ∃ s', BodyFed app lim n b.req.chunking b.rest s' := by
  obtain ⟨buf, room, reserved⟩ := bufReserve_some (fits s fed.reached fed.reads)
  obtain ⟨same, least, -⟩ := bufReserve_ok reserved
  have one : [c].length ≤ room := Nat.le_trans (show 1 ≤ readMin by decide) least
  have bytes : (buf.commit [c]).bytes = s.buf.bytes ++ [c] := by rw [Buf.commit, same]
  have inside : n ≤ s.buf.bytes.length := by
    rw [fed.length]
    exact Nat.le_add_right ..
  refine turn (fed.reached.tail (.read fed.reads reserved one)) rfl rfl fed.quiet fed.parsed
    fed.undone fed.open_ fed.chunked fed.head ?_ ?_ called open_ got
  · change (buf.commit [c]).bytes.length = n + (rest ++ [c]).length
    rw [bytes, length_append, length_append, fed.length, Nat.add_assoc]
  · change (buf.commit [c]).bytes.drop n = rest ++ [c]
    rw [bytes, drop_append_of_le_length inside, fed.behind]

/-- A byte that a line waits with is buffered. -/
theorem wait (fits : AlwaysFits app lim) (fed : BodyFed app lim n state rest s) (c : UInt8)
    (waits : Inside.Waits lim s.req (rest ++ [c])) : ∃ s', BodyFed app lim n state (rest ++ [c]) s' := by
  have fed' := fed.feed fits c (slice_stay fed.open_ fed.got (.inr waits)) fed.open_ fed.got
  rw [← fed.state]
  exact fed'

/-- A line that does not end is buffered, as long as it may be. -/
theorem line (fits : AlwaysFits app lim) (fed : BodyFed app lim n state [] s) {c : UInt8} {k : Nat}
    (waits : ∀ (req : HttpdReq), req.chunking = state → ∀ i ≤ k, Inside.Waits lim req (List.replicate i c)) :
    ∃ s', BodyFed app lim n state (List.replicate k c) s' := by
  induction k with
  | zero => exact ⟨s, fed⟩
  | succ k ih =>
    obtain ⟨s₁, fed₁⟩ := ih fun req same i less => waits req same i (Nat.le_succ_of_le less)
    have more := waits s₁.req fed₁.state (k + 1) (Nat.le_refl _)
    rw [replicate_succ'] at more ⊢
    exact fed₁.wait fits c more

theorem zeroLine_some : ([48] : Bytes) ≠ [] :=
  cons_ne_nil _ _

theorem zeroLine_white : ∀ c ∈ ([] : Bytes), blank c = true :=
  forall_mem_nil _

theorem zeroLine_hex : ∀ c ∈ ([48] : Bytes), Hex c := by
  intro c mem
  obtain rfl := mem_singleton.mp mem
  decide

theorem zeroLine_clear (text : Bytes) (ext : none = some text) : ∀ c ∈ text, httpdCtl c = false := by
  cases ext

/-- The size line of a last chunk. -/
def zeroLine : SizeLine where
  digits := [48]
  blanks := []
  ext := none
  some_ := zeroLine_some
  hex := zeroLine_hex
  white := zeroLine_white
  clear := zeroLine_clear

/-- A last chunk brings the trailer section. -/
theorem trailer (fits : AlwaysFits app lim) (fed : BodyFed app lim n .size [] s) :
    ∃ s', BodyFed app lim n .trailer [] s' := by
  obtain ⟨s₁, fed₁⟩ := fed.wait fits 48 (by
    rw [Inside.Waits, fed.state]
    exact ⟨by decide, by decide⟩)
  obtain ⟨s₂, fed₂⟩ := fed₁.wait fits cr (by
    rw [Inside.Waits, fed₁.state]
    exact ⟨by decide, by decide⟩)
  have left : ({ raw := [48, cr, lf] } : HttpdDechunk).left = zeroLine.bytes ++ cr :: lf :: [] := rfl
  have line : httpdDechunkTurn lim s₂.req { raw := [48, cr, lf] } =
      .ok ({ s₂.req with chunk := 0, chunking := .trailer }, { raw := [48, cr, lf], rd := 3 }) := by
    rw [httpdDechunkTurn, fed₂.state]
    dsimp only
    rw [chunkSize_line zeroLine (by decide) left, show zeroLine.size = 0 by decide,
      if_neg (by decide), if_neg (Nat.not_lt_zero _)]
    rfl
  have loop : httpdDechunkLoop lim ([48, cr, lf] : Bytes).length s₂.req { raw := [48, cr, lf] } =
      .ok ({ s₂.req with chunk := 0, chunking := .trailer }, { raw := [48, cr, lf], rd := 3 }) := by
    rw [httpdDechunkLoop, if_pos ⟨by decide, fed₂.open_⟩, line]
    dsimp only
    rw [if_neg (by decide), httpdDechunkLoop, if_neg (fun more => absurd more.1 (by decide))]
  exact fed₂.feed fits lf (slice_loop loop rfl fed₂.got) fed₂.open_ fed₂.got

end BodyFed

theorem httpdConnParse_admits {s : HttpdInput} {share : HttpdShare} {n next : Nat} {req : HttpdReq}
    {bytes : Bytes} (open_ : s.closing = false)
    (found : httpdConnHeadLength lim s.req.scan s.buf.bytes = (n, next)) (some_ : n ≠ 0)
    (parsed : httpdReqParse s.buf.bytes n app lim = some (.ok (req, bytes)))
    (drains : share.drains = false) (yields : share.yields = false) (admits : share.admits = true) :
    httpdConnParse app lim share s =
      { s with
        buf := { s.buf with bytes }
        req := httpdConnBegin share req
        closing := share.closes || req.isHead
        next := .more } := by
  cases n with
  | zero => exact absurd rfl some_
  | succ n =>
    rw [httpdConnParse, open_, drains, yields, if_neg (by simp), if_neg (by simp)]
    simp only [found, parsed]
    rw [if_pos admits]

/-- Once a head of a request with a chunked body is in, its body begins. -/
theorem body_fed (fits : AlwaysFits app lim) {head : Bytes} (chunked : ChunkedHead app lim head) :
    head.length ≤ lim.head ∧ ∃ s, BodyFed app lim head.length .size [] s := by
  obtain ⟨whole, req, left, parsed, is, options, isHead⟩ := chunked
  have some_ : head ≠ [] := by
    rintro rfl
    cases parsed
  have found := parsed_head (.start head) whole (length_pos_iff.mpr some_).ne' parsed
  obtain ⟨head_eq, got, chunk, open_, undone, -, state, trailer, trailers⟩ :
      req.head = head.length ∧ req.got = 0 ∧ req.chunk = 0 ∧ req.bodyIn = false ∧
        req.done = false ∧ req.parsed = false ∧ req.chunking = .size ∧ req.trailer = 0 ∧
        req.trailers = 0 := by
    simpa only [HttpdReq.progress, Prod.mk.injEq] using found.progress
  refine ⟨found.short, ?_⟩
  obtain ⟨init, c, last⟩ := (eq_nil_or_concat head).resolve_left some_
  rw [concat_eq_append] at last
  have less : init.length < head.length := by
    rw [last, length_append]
    exact Nat.lt_succ_self _
  obtain ⟨s, fed⟩ := head_fed fits found.short whole less
  obtain ⟨scan, request, searched⟩ := fed.req
  have part : head.take init.length = init := by
    rw [last, take_left]
  rw [part] at searched
  obtain ⟨buf, bytes, reached⟩ := feed_byte fits fed.reached fed.reads c { room := 0 }
  rw [fed.bytes, part, ← last] at bytes
  have search : Searched lim scan head := by
    rw [last]
    exact searched.append [c]
  have turned : httpdConnNext app lim { room := 0 } { s with buf, next := .more, reads := false } =
      { s with
        buf := { buf with bytes := left }
        req := httpdConnBegin { room := 0 } req
        closing := false
        next := .more
        reads := false } := by
    rw [httpdConnNext]
    dsimp only
    rw [request]
    dsimp only
    rw [httpdConnParse_admits (s := { s with buf, req := { scan }, next := .more, reads := false })
      fed.open_ (by rw [bytes]; exact headLength_whole some_ whole search)
      (length_pos_iff.mpr some_).ne' (by rw [bytes]; exact parsed) rfl rfl rfl]
    rw [isHead]
    rfl
  rw [turned] at reached
  have length : left.length = head.length := by
    have behind := congrArg List.length found.behind
    rw [drop_length, length_nil, length_drop] at behind
    have inside := found.inside
    omega
  have undone' : (httpdConnBegin { room := 0 } req).done = false := by
    change (req.options || false) = false
    rw [options]
    rfl
  have open' : (httpdConnBegin { room := 0 } req).bodyIn = false := by
    change (req.bodyIn || (!req.chunked && req.body = 0)) = false
    rw [open_, is]
    rfl
  have called : httpdConnSlice lim { req := httpdConnBegin { room := 0 } req, rest := [] }
      ([] : Bytes).length (fun _ => true) =
        .ok { req := httpdConnBegin { room := 0 } req, rest := [] } := by
    exact slice_stay open' got (.inl rfl)
  have empty : left.length = head.length + ([] : Bytes).length := length
  obtain ⟨s', begun⟩ := BodyFed.turn reached rfl rfl rfl rfl undone' open' is
    head_eq empty (drop_of_length_le (Nat.le_of_eq length)) called open' got
  have size : (httpdConnBegin { room := 0 } req).chunking = .size := state
  rw [size] at begun
  exact ⟨s', begun⟩

/-- If there is always room, there is room for the longest lines that may wait. -/
theorem AlwaysFits.roomForLines (fits : AlwaysFits app lim) : RoomForLines app lim := by
  intro head chunked
  obtain ⟨short, s, fed⟩ := body_fed fits chunked
  have size : head.length + (chunkLine - 1) ≤ lim.head + lim.body := by
    obtain ⟨s', whole⟩ := fed.line fits (c := 48) (k := chunkLine - 1) (by
      intro req state i less
      rw [Inside.Waits, state]
      refine ⟨fun mem => absurd (eq_of_mem_replicate mem) (by decide), ?_⟩
      rw [length_replicate]
      exact Nat.lt_of_le_of_lt less (by decide))
    have room := fits s' whole.reached whole.reads
    rw [whole.length, length_replicate, HttpdLimits.inMax] at room
    omega
  have trailer : head.length + (lim.head - 1) ≤ lim.head + lim.body := by
    obtain ⟨s₁, last⟩ := fed.trailer fits
    have some_ : 0 < head.length := by
      obtain ⟨-, req, left, parsed, -⟩ := chunked
      apply length_pos_iff.mpr
      rintro rfl
      cases parsed
    obtain ⟨s', whole⟩ := last.line fits (c := 48) (k := lim.head - 1) (by
      intro req state i less
      rw [Inside.Waits, state]
      refine ⟨fun mem => absurd (eq_of_mem_replicate mem) (by decide), ?_⟩
      rw [length_replicate]
      omega)
    have room := fits s' whole.reached whole.reads
    rw [whole.length, length_replicate, HttpdLimits.inMax] at room
    omega
  omega

/-- A connection that reads always has room to, if and only if there is room for the longest line that
may wait behind any head of a request with a chunked body. -/
theorem input_room (app : StreamApp) (lim : HttpdLimits) (legal : lim.body ≤ (2 ^ 64 - 1) / 2) :
    (∀ s, InputReached app lim s → s.reads = true → s.buf.bytes.length + readMin ≤ lim.inMax ∧
        ∀ memory, bufReserve memory s.buf readMin lim.inMax ≠ .error .enobufs) ↔ RoomForLines app lim := by
  have small : lim.body < sizeWrap := by
    change lim.body < 2 ^ 64
    omega
  constructor
  · intro holds
    exact AlwaysFits.roomForLines fun s reached reads => (holds s reached reads).1
  · intro lines s reached reads
    have fits := input_fits small lines reached reads
    refine ⟨fits, fun memory full => ?_⟩
    have over_ := bufReserve_enobufs.mp full
    omega

theorem tightLimits_head : 64 ≤ 65535 := by decide

/-- No request with a body of more than a byte. -/
def tightLimits : HttpdLimits :=
  { body := 1, head := 64, fields := 4, head_le := tightLimits_head }

theorem input_room_some : (∀ s, InputReached ⟨[], 0, by decide⟩ { tightLimits with body := 4096 } s → s.reads = true →
      s.buf.bytes.length + readMin ≤ HttpdLimits.inMax { tightLimits with body := 4096 } ∧
        ∀ memory, bufReserve memory s.buf readMin
          (HttpdLimits.inMax { tightLimits with body := 4096 }) ≠ .error .enobufs) ↔
      RoomForLines ⟨[], 0, by decide⟩ { tightLimits with body := 4096 } :=
  input_room _ _ (by decide)

/-- The head of a request with a chunked body. -/
def chunkedPost : Bytes :=
  ascii "POST / HTTP/1.1\r\nTransfer-Encoding: chunked\r\n\r\n"

theorem chunkedPost_head : ChunkedHead ⟨[], 0, by decide⟩ tightLimits chunkedPost := by
  refine ⟨by decide +kernel, ?_⟩
  have read : (httpdReqParse chunkedPost chunkedPost.length ⟨[], 0, by decide⟩ tightLimits).bind
      (fun parsed => parsed.toOption.map fun out => (out.1.chunked, out.1.options, out.1.isHead)) =
        some (true, false, false) := by
    decide +kernel
  obtain ⟨parsed, some_, read⟩ := Option.bind_eq_some_iff.mp read
  cases parsed with
  | error status => cases read
  | ok out =>
    obtain ⟨req, left⟩ := out
    have flags : (req.chunked, req.options, req.isHead) = (true, false, false) :=
      Option.some.inj read
    obtain ⟨chunked, rest⟩ := Prod.mk.inj flags
    obtain ⟨options, isHead⟩ := Prod.mk.inj rest
    exact ⟨req, left, some_, chunked, options, isHead⟩

theorem long_line_refused : ∃ s, InputReached ⟨[], 0, by decide⟩ tightLimits s ∧ s.reads = true ∧
      ∀ memory, bufReserve memory s.buf readMin tightLimits.inMax = .error .enobufs := by
  by_contra none_
  have fits : AlwaysFits ⟨[], 0, by decide⟩ tightLimits := by
    intro s reached reads
    by_contra full
    exact none_ ⟨s, reached, reads, fun memory => bufReserve_enobufs.mpr (Nat.lt_of_not_le full)⟩
  exact absurd (fits.roomForLines chunkedPost chunkedPost_head) (by decide)

end Askai
