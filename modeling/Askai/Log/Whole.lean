import Askai.Log.Rings

/-!
# Lines whole and in order

What the logger wrote and is about to write is the lines that it took, whole, each ring's in order.
-/

namespace Askai.Log

open Library List

/-- The lines of ring `i` among what the logger took. -/
def linesOf (i : Nat) (entries : List (Option Nat × Bytes)) : List Bytes :=
  entries.filterMap fun entry => if entry.1 = some i then some entry.2 else none

@[simp] theorem linesOf_append (i : Nat) (front back : List (Option Nat × Bytes)) :
    linesOf i (front ++ back) = linesOf i front ++ linesOf i back :=
  filterMap_append

@[simp] theorem linesOf_note (i : Nat) (text : Bytes) : linesOf i [(none, text)] = [] := rfl

theorem linesOf_own (i : Nat) (lines : List Bytes) : linesOf i (lines.map fun line => (some i, line)) = lines := by
  simp [linesOf]

theorem linesOf_other {i j : Nat} (other : j ≠ i) (lines : List Bytes) :
    linesOf i (lines.map fun line => (some j, line)) = [] := by
  simp [linesOf, other]

/-- The logger is done with what it took of ring `i`, or took nothing of it. -/
def Stage.settled (i : Nat) : Stage → Prop
  | .scans j iov => j ≤ i ∨ iov = []
  | .writes _ => False
  | .stores j => i < j
  | _ => True

/-- The piece is text, or lies within the logger's batch of its ring. -/
def Piece.Within (n : Nat) (s : State) : Piece → Prop
  | .note _ => True
  | .ring i cell len => i < n ∧ (s.rings i).Covers cell len

/-- What holds of the rings, of what the logger is writing, and of what it wrote. -/
structure Whole (n : Nat) (s : State) : Prop where
  rings : ∀ i < n, (s.rings i).Intact
  within : ∀ piece ∈ s.stage.iov, piece.Within n s
  out : s.out ++ s.stage.iov.flatMap s.bytes = s.entries.flatMap Prod.snd
  lines : ∀ i < n, linesOf i s.entries = (s.rings i).written ++ (s.rings i).batch
  settled : ∀ i < n, s.stage.settled i → (s.rings i).batch = []
  dropped : s.dropped = tally n Ring.drops s.rings % sizeMax

variable {n i : Nat} {s t : State} {r : Ring} {piece : Piece} {iov : List Piece}

/-! ## The pieces of a write -/

theorem State.bytes_congr (same : ∀ i, (t.rings i).data = (s.rings i).data) : t.bytes = s.bytes := by
  funext piece
  cases piece with
  | note text => rfl
  | ring i base len =>
    change segment (t.rings i).data base len = segment (s.rings i).data base len
    rw [same]

theorem State.setRing_self (s : State) (i : Nat) (r : Ring) : (s.setRing i r).rings i = r :=
  Function.update_self ..

theorem State.setRing_of_ne (s : State) (r : Ring) {j : Nat} (other : j ≠ i) : (s.setRing i r).rings j = s.rings j :=
  Function.update_of_ne other ..

theorem length_bytes (s : State) (piece : Piece) : (s.bytes piece).length = piece.len := by
  cases piece with
  | note text => rfl
  | ring i base len => exact length_segment

theorem bytes_drop {left : Nat} (part : left ≤ piece.len) : s.bytes (piece.drop left) = (s.bytes piece).drop left := by
  cases piece with
  | note text => rfl
  | ring i base len => exact (drop_segment part).symm

/-- What a write leaves is what comes after the bytes that it wrote. -/
theorem bytes_logAdvance (iov : List Piece) (w : Nat) :
    (logAdvance iov w).flatMap s.bytes = (iov.flatMap s.bytes).drop w := by
  induction iov generalizing w with
  | nil => simp [logAdvance]
  | cons piece iov ih =>
    have whole := length_bytes s piece
    rw [logAdvance, flatMap_cons, drop_append, whole]
    rcases Nat.lt_or_ge w piece.len with part | past
    · rw [if_neg (by omega), flatMap_cons, bytes_drop (by omega), show w - piece.len = 0 by omega, drop_zero]
    · have front : (s.bytes piece).drop w = [] := drop_eq_nil_of_le (by omega)
      rw [if_pos past, ih, front, nil_append]

theorem Piece.Within.drop {left : Nat} (within : piece.Within n s) (part : left ≤ piece.len) :
    (piece.drop left).Within n s := by
  cases piece with
  | note text => trivial
  | ring i base len =>
    obtain ⟨inside, covers⟩ := within
    refine ⟨inside, fun k less => ?_⟩
    have part : left ≤ len := part
    obtain ⟨m, below, place⟩ := covers (left + k) (by omega)
    exact ⟨m, below, by rw [← place, Nat.add_assoc]⟩

theorem within_logAdvance (iov : List Piece) (w : Nat) (within : ∀ piece ∈ iov, piece.Within n s) :
    ∀ piece ∈ logAdvance iov w, piece.Within n s := by
  induction iov generalizing w with
  | nil => simp [logAdvance]
  | cons piece iov ih =>
    obtain ⟨here, later⟩ := forall_mem_cons.mp within
    rw [logAdvance]
    rcases Nat.lt_or_ge w piece.len with part | past
    · rw [if_neg (by omega)]
      exact forall_mem_cons.mpr ⟨here.drop (by omega), later⟩
    · rw [if_pos past]
      exact ih _ later

/-! ## The iovecs of a ring -/

namespace Ring.Intact

/-- The iovecs of a ring, by the bytes that it holds. -/
theorem pieces_eq (intact : r.Intact) (i : Nat) : logPieces i r.tail r.head =
    (if min r.used (logRing - r.base % logRing) = 0 then []
      else [.ring i (r.base % logRing) (min r.used (logRing - r.base % logRing))]) ++
    if min r.used (logRing - r.base % logRing) < r.used then
      [.ring i 0 (r.used - min r.used (logRing - r.base % logRing))] else [] := by
  have room := intact.room
  have below := logRing_lt
  rw [logPieces, intact.head, intact.tail, apart_mod (Nat.le_add_right _ _) (by omega),
    Nat.add_sub_cancel_left, mod_mod_of_wrap logRing_dvd]

/-- The iovecs of a ring have the bytes of the lines that it holds. -/
theorem pieces_bytes (intact : (s.rings i).Intact) (none_ : (s.rings i).batch = []) :
    (logPieces i (s.rings i).tail (s.rings i).head).flatMap s.bytes = (s.rings i).rest.flatten := by
  have room := intact.room
  have cells := intact.cells
  rw [cyclic_eq_segments _ _ room] at cells
  have held : (s.rings i).held = (s.rings i).rest := by
    rw [Ring.held, none_, nil_append]
  rw [held] at cells
  rw [← cells, intact.pieces_eq]
  generalize min (s.rings i).used (logRing - (s.rings i).base % logRing) = first
  rw [flatMap_append]
  congr 1
  · cases first with
    | zero => rfl
    | succ first =>
      rw [if_neg (Nat.succ_ne_zero first), flatMap_singleton]
      rfl
  · rcases Nat.lt_or_ge first (s.rings i).used with more | done
    · rw [if_pos more, flatMap_singleton]
      rfl
    · rw [if_neg (by omega), Nat.sub_eq_zero_of_le done]
      rfl

/-- The iovecs of a ring cover nothing but its lines. -/
theorem pieces_within (intact : r.Intact) (cover : r.look = t.rings i) (inside : i < n) :
    ∀ piece ∈ logPieces i r.tail r.head, piece.Within n t := by
  have room := intact.room
  have seen : (t.rings i).batch.flatten.length = r.used := by
    rw [← cover]
    rfl
  have base : (t.rings i).base = r.base := by
    rw [← cover]
    rfl
  rw [intact.pieces_eq]
  generalize first_eq : min r.used (logRing - r.base % logRing) = first
  have short : first ≤ r.used := by omega
  intro piece mem
  rcases mem_append.mp mem with front | back
  · split at front
    · cases front
    · rw [mem_singleton.mp front]
      refine ⟨inside, fun k less => ⟨k, by omega, ?_⟩⟩
      have place := cell_of_segments room (show k < r.used by omega) r.base
      rw [first_eq, if_pos less] at place
      rw [base]
      exact place
  · split at back
    · rw [mem_singleton.mp back]
      refine ⟨inside, fun k less => ⟨first + k, by omega, ?_⟩⟩
      have place := cell_of_segments room (show first + k < r.used by omega) r.base
      rw [first_eq, if_neg (by omega), Nat.add_sub_cancel_left] at place
      rw [base, Nat.zero_add]
      exact place
    · cases back

theorem pieces_eq_nil (intact : r.Intact) (none_ : logPieces i r.tail r.head = []) : r.held = [] := by
  rw [intact.pieces_eq] at none_
  obtain ⟨front, back⟩ := append_eq_nil_iff.mp none_
  have empty : r.used = 0 := by
    split at front
    · split at back
      · cases back
      · omega
    · cases front
  cases held : r.held with
  | nil => rfl
  | cons line lines =>
    have some_ := intact.filled line (by simp [held])
    rw [Ring.used, held] at empty
    simp [some_] at empty

end Ring.Intact

/-! ## The steps -/

namespace Whole

/-- A step of the thread of ring `i`, which neither the logger nor another ring takes part in. -/
theorem emit (whole : Whole n s) (rings : t.rings = Function.update s.rings i r)
    (stage : t.stage = s.stage) (out : t.out = s.out) (entries : t.entries = s.entries)
    (intact : r.Intact) (written : r.written = (s.rings i).written) (batch : r.batch = (s.rings i).batch)
    (segments : ∀ cell len, (s.rings i).Covers cell len → i < n →
      segment r.data cell len = segment (s.rings i).data cell len)
    (dropped : t.dropped = tally n Ring.drops t.rings % sizeMax) : Whole n t := by
  have own : t.rings i = r := by
    rw [rings, Function.update_self]
  have others : ∀ j, j ≠ i → t.rings j = s.rings j := by
    intro j other
    rw [rings, Function.update_of_ne other]
  have covers : ∀ j cell len, (s.rings j).Covers cell len → (t.rings j).Covers cell len := by
    intro j cell len covered
    rcases eq_or_ne j i with rfl | other
    · rw [own]
      intro k less
      rw [batch, Ring.base, written]
      exact covered k less
    · rw [others j other]
      exact covered
  have bytes : ∀ piece ∈ s.stage.iov, t.bytes piece = s.bytes piece := by
    intro piece mem
    have within := whole.within piece mem
    cases piece with
    | note text => rfl
    | ring j cell len =>
      change segment (t.rings j).data cell len = segment (s.rings j).data cell len
      rcases eq_or_ne j i with rfl | other
      · rw [own]
        exact segments cell len within.2 within.1
      · rw [others j other]
  constructor
  · intro j inside
    rcases eq_or_ne j i with rfl | other
    · rw [own]
      exact intact
    · rw [others j other]
      exact whole.rings j inside
  · rw [stage]
    intro piece mem
    have within := whole.within piece mem
    cases piece with
    | note text => trivial
    | ring j cell len => exact ⟨within.1, covers j cell len within.2⟩
  · rw [stage, out, entries, flatMap_congr bytes]
    exact whole.out
  · intro j inside
    rw [entries, whole.lines j inside]
    rcases eq_or_ne j i with rfl | other
    · rw [own, written, batch]
    · rw [others j other]
  · rw [stage]
    intro j inside settled
    rcases eq_or_ne j i with rfl | other
    · rw [own, batch]
      exact whole.settled j inside settled
    · rw [others j other]
      exact whole.settled j inside settled
  · exact dropped

/-- A step of the thread that leaves the data of its ring alone. -/
theorem emit_quiet (whole : Whole n s) (rings : t.rings = Function.update s.rings i r)
    (stage : t.stage = s.stage) (out : t.out = s.out) (entries : t.entries = s.entries)
    (dropped : t.dropped = s.dropped) (intact : r.Intact) (written : r.written = (s.rings i).written)
    (batch : r.batch = (s.rings i).batch) (data : r.data = (s.rings i).data)
    (drops : r.drops = (s.rings i).drops) : Whole n t := by
  apply whole.emit rings stage out entries intact written batch
  · intro cell len _ _
    rw [data]
  · rw [dropped, rings, tally_update_eq drops]
    exact whole.dropped

/-- A step of the logger, or of `log_stop`, that leaves the rings alone. -/
theorem pass (whole : Whole n s) (rings : t.rings = s.rings) (dropped : t.dropped = s.dropped)
    (within : ∀ piece ∈ t.stage.iov, piece.Within n s)
    (out : t.out ++ t.stage.iov.flatMap s.bytes = t.entries.flatMap Prod.snd)
    (entries : ∀ i < n, linesOf i t.entries = linesOf i s.entries)
    (settled : ∀ i < n, t.stage.settled i → (s.rings i).batch = []) : Whole n t := by
  have bytes : t.bytes = s.bytes := State.bytes_congr fun i => by rw [rings]
  constructor
  · rw [rings]
    exact whole.rings
  · intro piece mem
    have inside := within piece mem
    cases piece with
    | note text => trivial
    | ring j cell len =>
      refine ⟨inside.1, ?_⟩
      rw [rings]
      exact inside.2
  · rw [bytes]
    exact out
  · intro j inside
    rw [rings, entries j inside]
    exact whole.lines j inside
  · rw [rings]
    exact settled
  · rw [dropped, rings]
    exact whole.dropped

/-- A step between two stages in which nothing is being written. -/
theorem idle (whole : Whole n s) (rings : t.rings = s.rings) (dropped : t.dropped = s.dropped)
    (out : t.out = s.out) (entries : t.entries = s.entries) (before : s.stage.iov = [])
    (after : t.stage.iov = []) (settled : ∀ i < n, s.stage.settled i) : Whole n t := by
  apply whole.pass rings dropped
  · rw [after]
    nofun
  · have same := whole.out
    rw [before] at same
    rw [after, out, entries, ← same]
  · intro i _
    rw [entries]
  · intro i inside _
    exact whole.settled i inside (settled i inside)

/-- The logger takes a ring's lines. -/
theorem scan (whole : Whole n s) (at_ : s.stage = .scans i iov) (inside : i < n) :
    Whole n { s.setRing i (s.rings i).look with
      stage := .scans (i + 1) (iov ++ logPieces i (s.rings i).tail (s.rings i).head)
      entries := s.entries ++ (s.rings i).rest.map fun line => (some i, line) } := by
  have intact := whole.rings i inside
  have none_ : (s.rings i).batch = [] := by
    apply whole.settled i inside
    rw [at_]
    exact .inl (Nat.le_refl _)
  set r := (s.rings i).look with r_eq
  have own := s.setRing_self i r
  have bytes : (s.setRing i r).bytes = s.bytes := by
    apply State.bytes_congr
    intro j
    rcases eq_or_ne j i with rfl | other
    · rw [own]
      rfl
    · rw [s.setRing_of_ne r other]
  constructor
  · intro j below
    change ((s.setRing i r).rings j).Intact
    rcases eq_or_ne j i with rfl | other
    · rw [own]
      exact intact.look
    · rw [s.setRing_of_ne r other]
      exact whole.rings j below
  · intro piece mem
    change piece.Within n (s.setRing i r)
    rcases mem_append.mp mem with old | new
    · have within := whole.within piece (by rw [at_]; exact old)
      cases piece with
      | note text => trivial
      | ring j cell len =>
        refine ⟨within.1, ?_⟩
        rcases eq_or_ne j i with rfl | other
        · intro k less
          obtain ⟨m, small, -⟩ := within.2 k less
          rw [none_] at small
          cases small
        · rw [s.setRing_of_ne r other]
          exact within.2
    · exact intact.pieces_within own.symm inside piece new
  · change s.out ++ (iov ++ logPieces i _ _).flatMap (s.setRing i r).bytes = (s.entries ++ _).flatMap Prod.snd
    have before := whole.out
    rw [at_] at before
    have lines : ((s.rings i).rest.map fun line => (some i, line)).flatMap Prod.snd = (s.rings i).rest.flatten := by
      rw [flatMap_map]
      exact flatMap_id' ..
    rw [bytes, flatMap_append, ← append_assoc, intact.pieces_bytes none_, flatMap_append, lines, ← before]
    rfl
  · intro j below
    change linesOf j (s.entries ++ _) = ((s.setRing i r).rings j).written ++ ((s.setRing i r).rings j).batch
    rw [linesOf_append, whole.lines j below]
    rcases eq_or_ne j i with rfl | other
    · rw [linesOf_own, own, append_assoc]
      rfl
    · rw [linesOf_other other.symm, s.setRing_of_ne r other, append_nil]
  · intro j below settled
    change ((s.setRing i r).rings j).batch = []
    rcases settled with later | empty
    · rw [s.setRing_of_ne r (by omega)]
      apply whole.settled j below
      rw [at_]
      exact .inl (by omega)
    · obtain ⟨front, back⟩ := append_eq_nil_iff.mp empty
      rcases eq_or_ne j i with rfl | other
      · rw [own]
        exact intact.pieces_eq_nil back
      · rw [s.setRing_of_ne r other]
        apply whole.settled j below
        rw [at_]
        exact .inr front
  · change s.dropped = tally n Ring.drops (Function.update s.rings i r) % sizeMax
    rw [tally_update_eq (show r.drops = (s.rings i).drops from rfl)]
    exact whole.dropped

/-- The logger is done with a ring's batch. -/
theorem store (whole : Whole n s) (at_ : s.stage = .stores i) (inside : i < n) :
    Whole n { s.setRing i (s.rings i).store with stage := .stores (i + 1) } := by
  set r := (s.rings i).store with r_eq
  have own := s.setRing_self i r
  constructor
  · intro j below
    change ((s.setRing i r).rings j).Intact
    rcases eq_or_ne j i with rfl | other
    · rw [own]
      exact (whole.rings j below).store
    · rw [s.setRing_of_ne r other]
      exact whole.rings j below
  · nofun
  · have before := whole.out
    rw [at_] at before
    exact before
  · intro j below
    change linesOf j s.entries = ((s.setRing i r).rings j).written ++ ((s.setRing i r).rings j).batch
    rw [whole.lines j below]
    rcases eq_or_ne j i with rfl | other
    · rw [own]
      exact (append_nil _).symm
    · rw [s.setRing_of_ne r other]
  · intro j below settled
    change ((s.setRing i r).rings j).batch = []
    rcases eq_or_ne j i with rfl | other
    · rw [own]
      rfl
    · rw [s.setRing_of_ne r other]
      apply whole.settled j below
      rw [at_]
      exact Nat.lt_of_le_of_ne (Nat.le_of_lt_succ settled) other
  · change s.dropped = tally n Ring.drops (Function.update s.rings i r) % sizeMax
    rw [tally_update_eq (show r.drops = (s.rings i).drops from rfl)]
    exact whole.dropped

theorem drop (whole : Whole n s) {line : Bytes} (inside : i < n) (at_ : (s.rings i).emitter = .drops line) :
    Whole n { s.setRing i ((s.rings i).drop line) with dropped := (s.dropped + 1) % sizeMax } := by
  refine whole.emit rfl rfl rfl rfl ((whole.rings i inside).drop at_) rfl rfl ?_ ?_
  · intro _ _ _ _
    rfl
  · change (s.dropped + 1) % sizeMax = tally n Ring.drops (Function.update s.rings i ((s.rings i).drop line)) % sizeMax
    have change_ := tally_update inside Ring.drops s.rings ((s.rings i).drop line)
    have one : ((s.rings i).drop line).drops = (s.rings i).drops + 1 := by
      simp [Ring.drops, Ring.drop, countP_append]
    rw [whole.dropped, Nat.mod_add_mod]
    congr 1
    omega

theorem step (whole : Whole n s) {e : Event} (step : Step n s e t) : Whole n t := by
  cases step with
  | @give i line inside away some_ =>
    exact whole.emit_quiet rfl rfl rfl rfl rfl ((whole.rings i inside).give away some_) rfl rfl rfl rfl
  | @begin i line inside at_ =>
    have intact := whole.rings i inside
    have fits := intact.fits
    rw [Ring.Fits, at_] at fits
    refine whole.emit_quiet rfl rfl rfl rfl rfl (intact.goOn ?_ ⟨fits, rfl⟩) rfl rfl rfl rfl
    rw [at_]
    rfl
  | @lack i head line inside at_ large =>
    exact whole.emit_quiet rfl rfl rfl rfl rfl ((whole.rings i inside).lack at_) rfl rfl rfl rfl
  | @fit i head line inside at_ small =>
    exact whole.emit_quiet rfl rfl rfl rfl rfl ((whole.rings i inside).fit at_ small) rfl rfl rfl rfl
  | drop inside at_ => exact whole.drop inside at_
  | @copy i head k line inside at_ more =>
    have intact := whole.rings i inside
    refine whole.emit rfl rfl rfl rfl (intact.copy at_ more) rfl rfl ?_ ?_
    · intro cell len covers _
      exact intact.copy_segment at_ more covers
    · change s.dropped = tally n Ring.drops (Function.update s.rings i _) % sizeMax
      rw [tally_update_eq (show ((s.rings i).copy line head k).drops = (s.rings i).drops from rfl)]
      exact whole.dropped
  | @publish i head line inside at_ =>
    refine whole.emit_quiet rfl rfl rfl rfl rfl ((whole.rings i inside).publish at_) rfl rfl rfl ?_
    change List.countP _ ((s.rings i).fates ++ [(line, true)]) = _
    simp [Ring.drops, countP_append]
  | @peek i inside at_ =>
    refine whole.emit_quiet rfl rfl rfl rfl rfl ((whole.rings i inside).goOn ?_ ?_) rfl rfl rfl rfl
    · rw [at_]
      split <;> rfl
    · cases s.asleep <;> trivial
  | @swap i inside at_ =>
    refine whole.emit_quiet rfl rfl rfl rfl rfl ((whole.rings i inside).goOn ?_ ?_) rfl rfl rfl rfl
    · rw [at_]
      split <;> rfl
    · cases s.asleep <;> trivial
  | @signal i inside at_ =>
    refine whole.emit_quiet rfl rfl rfl rfl rfl ((whole.rings i inside).goOn ?_ trivial) rfl rfl rfl rfl
    rw [at_]
    rfl
  | call | stop | stopSwap | stopSignal =>
    exact whole.pass rfl rfl whole.within whole.out (fun _ _ => rfl) whole.settled
  | note at_ more =>
    have before := whole.out
    rw [at_] at before
    refine whole.pass rfl rfl ?_ ?_ ?_ ?_
    · intro piece mem
      rw [mem_singleton.mp mem]
      trivial
    · change s.out ++ (logNote s.dropped ++ []) = (s.entries ++ _).flatMap Prod.snd
      rw [flatMap_append, ← before]
      simp [Stage.iov]
    · intro i _
      change linesOf i (s.entries ++ _) = _
      rw [linesOf_append, linesOf_note, append_nil]
    · intro i inside _
      exact whole.settled i inside (by rw [at_]; trivial)
  | noNote at_ same =>
    refine whole.idle rfl rfl rfl rfl ?_ rfl fun i _ => ?_ <;> rw [at_] <;> trivial
  | scan at_ inside => exact whole.scan at_ inside
  | @scanned iov at_ =>
    have before := whole.out
    rw [at_] at before
    have within := whole.within
    rw [at_] at within
    cases iov with
    | nil =>
      refine whole.pass rfl rfl (by rintro _ ⟨⟩) before (fun _ _ => rfl) ?_
      intro i inside _
      apply whole.settled i inside
      rw [at_]
      exact .inr rfl
    | cons piece iov => exact whole.pass rfl rfl within before (fun _ _ => rfl) (by intros; contradiction)
  | @write iov w at_ fits =>
    have before := whole.out
    rw [at_] at before
    have within := within_logAdvance iov w (by simpa [at_, Stage.iov] using whole.within)
    have rest := bytes_logAdvance (s := s) iov w
    have done : s.out ++ (iov.flatMap s.bytes).take w ++ (logAdvance iov w).flatMap s.bytes =
        s.entries.flatMap Prod.snd := by
      rw [rest, append_assoc, take_append_drop]
      exact before
    generalize logAdvance iov w = left at within done ⊢
    cases left with
    | nil => exact whole.pass rfl rfl (by intros; contradiction) done (fun _ _ => rfl) (by intros; contradiction)
    | cons piece left => exact whole.pass rfl rfl within done (fun _ _ => rfl) (by intros; contradiction)
  | store at_ inside => exact whole.store at_ inside
  | stored at_ =>
    refine whole.idle rfl rfl rfl rfl ?_ rfl fun i inside => ?_
    · rw [at_]
      rfl
    · rw [at_]
      exact inside
  | check at_ =>
    refine whole.idle rfl rfl rfl rfl ?_ ?_ fun i _ => ?_
    · rw [at_]
      rfl
    · change (if _ then Stage.sleeps else .ends).iov = []
      split <;> rfl
    · rw [at_]
      trivial
  | sleep at_ =>
    refine whole.idle rfl rfl rfl rfl ?_ rfl fun i _ => ?_ <;> rw [at_] <;> trivial
  | pendingState at_ =>
    refine whole.idle rfl rfl rfl rfl ?_ ?_ fun i _ => ?_
    · rw [at_]
      rfl
    · change (if _ then Stage.pendingRing 0 else .wakes).iov = []
      split <;> rfl
    · rw [at_]
      trivial
  | pendingRing at_ inside =>
    refine whole.idle rfl rfl rfl rfl ?_ ?_ fun i _ => ?_
    · rw [at_]
      rfl
    · change (if _ then Stage.pendingRing _ else .wakes).iov = []
      split <;> rfl
    · rw [at_]
      trivial
  | pended at_ =>
    refine whole.idle rfl rfl rfl rfl ?_ rfl fun i _ => ?_ <;> rw [at_] <;> trivial
  | poll at_ =>
    refine whole.idle rfl rfl rfl rfl ?_ rfl fun i _ => ?_ <;> rw [at_] <;> trivial
  | drain at_ =>
    refine whole.idle rfl rfl rfl rfl ?_ rfl fun i _ => ?_ <;> rw [at_] <;> trivial
  | wake at_ =>
    refine whole.idle rfl rfl rfl rfl ?_ rfl fun i _ => ?_ <;> rw [at_] <;> trivial
  | finish at_ =>
    refine whole.idle rfl rfl rfl rfl ?_ rfl fun i _ => ?_ <;> rw [at_] <;> trivial

end Whole

theorem start_whole (n : Nat) (memory : Nat → Nat → UInt8) : Whole n (start memory) where
  rings := fun i _ => start_intact (memory i)
  within := nofun
  out := rfl
  lines := fun _ _ => rfl
  settled := fun _ _ _ => rfl
  dropped := by
    change 0 = tally n Ring.drops (fun i => { data := memory i }) % sizeMax
    rw [tally_eq_zero Ring.drops _ fun _ _ => rfl]
    rfl

end Askai.Log
