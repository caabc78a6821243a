import Askai.Log.Model

/-!
# What a ring holds

The lines of a ring that the logger has not written are in its cells, whole and in order, while its
thread copies the next one behind them.
-/

namespace Askai.Log

open Library List

/-- The size of a ring divides what its positions wrap at. -/
theorem logRing_dvd : logRing ∣ sizeMax := by
  unfold logRing sizeMax
  decide

theorem logRing_lt : logRing < sizeMax := by
  unfold logRing sizeMax
  decide

/-- The bytes that the logger is done with. -/
def Ring.base (r : Ring) : Nat :=
  r.written.flatten.length

/-- The bytes that it is not done with. -/
def Ring.used (r : Ring) : Nat :=
  r.held.flatten.length

/-- What holds of the line that the ring's thread has in hand. -/
def Ring.Fits (r : Ring) : Prop :=
  match r.emitter with
  | .begins line => line ≠ []
  | .measures line head => line ≠ [] ∧ head = r.head
  | .copies line head k =>
    line ≠ [] ∧ head = r.head ∧ k ≤ line.length ∧ r.used + line.length ≤ logRing ∧
      cyclic logRing r.data (r.base + r.used) k = line.take k
  | _ => True

/-- The ring is as its lines say. -/
structure Ring.Intact (r : Ring) : Prop where
  head : r.head = (r.base + r.used) % sizeMax
  tail : r.tail = r.base % sizeMax
  seen : r.seen = (r.base + r.batch.flatten.length) % sizeMax
  room : r.used ≤ logRing
  cells : cyclic logRing r.data r.base r.used = r.held.flatten
  filled : ∀ line ∈ r.held, line ≠ []
  fates : (r.fates.filter fun fate => fate.2).map Prod.fst = r.puts
  given : r.given = r.fates.map Prod.fst ++ r.emitter.line
  fits : r.Fits

/-- The cells of the segment belong to lines of the logger's batch. -/
def Ring.Covers (r : Ring) (cell len : Nat) : Prop :=
  ∀ k < len, ∃ m < r.batch.flatten.length, cell + k = (r.base + m) % logRing

variable {r : Ring} {line : Bytes} {head k : Nat}

theorem Ring.batch_le_used (r : Ring) : r.batch.flatten.length ≤ r.used := by
  simp [used, held]

namespace Ring.Intact

/-- A step of the ring's thread that leaves the ring alone. -/
theorem goOn {emitter : Emitter} (intact : r.Intact) (same : emitter.line = r.emitter.line)
    (fits : Ring.Fits { r with emitter }) : Ring.Intact { r with emitter } where
  head := intact.head
  tail := intact.tail
  seen := intact.seen
  room := intact.room
  cells := intact.cells
  filled := intact.filled
  fates := intact.fates
  given := by
    change r.given = r.fates.map Prod.fst ++ emitter.line
    rw [same]
    exact intact.given
  fits := fits

theorem give (intact : r.Intact) (away : r.emitter = .away) (some_ : line ≠ []) : (r.give line).Intact where
  head := intact.head
  tail := intact.tail
  seen := intact.seen
  room := intact.room
  cells := intact.cells
  filled := intact.filled
  fates := intact.fates
  given := by
    have given := intact.given
    rw [away] at given
    change r.given ++ [line] = r.fates.map Prod.fst ++ [line]
    rw [given]
    simp [Emitter.line]
  fits := some_

/-- The room that the thread finds is there: the logger only makes more of it. -/
theorem free_eq (intact : r.Intact) : r.free r.head = logRing - r.used := by
  have room := intact.room
  have below := logRing_lt
  rw [Ring.free, intact.head, intact.tail, apart_mod (Nat.le_add_right _ _) (by omega),
    Nat.add_sub_cancel_left, apart, show logRing + sizeMax - r.used = logRing - r.used + sizeMax by omega,
    Nat.add_mod_right, Nat.mod_eq_of_lt (by omega)]

theorem lack (intact : r.Intact) (at_ : r.emitter = .measures line head) :
    Ring.Intact { r with emitter := .drops line } := by
  apply intact.goOn
  · rw [at_]
    rfl
  · trivial

theorem fit (intact : r.Intact) (at_ : r.emitter = .measures line head)
    (small : line.length ≤ r.free head) : Ring.Intact { r with emitter := .copies line head 0 } := by
  have fits := intact.fits
  rw [Ring.Fits, at_] at fits
  obtain ⟨some_, rfl⟩ := fits
  have room := intact.room
  rw [intact.free_eq] at small
  apply intact.goOn
  · rw [at_]
    rfl
  · exact ⟨some_, rfl, Nat.zero_le _, show r.used + line.length ≤ logRing by omega, rfl⟩

theorem drop (intact : r.Intact) (at_ : r.emitter = .drops line) : (r.drop line).Intact where
  head := intact.head
  tail := intact.tail
  seen := intact.seen
  room := intact.room
  cells := intact.cells
  filled := intact.filled
  fates := by
    change ((r.fates ++ [(line, false)]).filter fun fate => fate.2).map Prod.fst = r.puts
    rw [filter_append]
    simpa using intact.fates
  given := by
    have given := intact.given
    rw [at_] at given
    change r.given = (r.fates ++ [(line, false)]).map Prod.fst ++ []
    rw [given]
    simp [Emitter.line]
  fits := trivial

/-- The cell that byte `k` of the line goes to. -/
theorem cell (intact : r.Intact) (at_ : r.emitter = .copies line head k) (more : k < line.length) :
    (if k < min line.length (logRing - head % logRing) then head % logRing + k
      else k - min line.length (logRing - head % logRing)) = (r.base + r.used + k) % logRing := by
  have fits := intact.fits
  rw [Ring.Fits, at_] at fits
  obtain ⟨-, rfl, -, room, -⟩ := fits
  rw [cell_of_segments (by omega) more, intact.head, ← Nat.mod_add_mod, mod_mod_of_wrap logRing_dvd, Nat.mod_add_mod]

/-- No byte of a line in the ring is overwritten. -/
theorem copy (intact : r.Intact) (at_ : r.emitter = .copies line head k) (more : k < line.length) :
    (r.copy line head k).Intact := by
  have cell := intact.cell at_ more
  have fits := intact.fits
  rw [Ring.Fits, at_] at fits
  obtain ⟨some_, same, below, room, copied⟩ := fits
  have data : (r.copy line head k).data = Function.update r.data ((r.base + r.used + k) % logRing) (line.getD k 0) := by
    rw [← cell]
    rfl
  constructor
  · exact intact.head
  · exact intact.tail
  · exact intact.seen
  · exact intact.room
  · change cyclic logRing (r.copy line head k).data r.base r.used = r.held.flatten
    rw [data, cyclic_update (by omega) (by omega)]
    exact intact.cells
  · exact intact.filled
  · exact intact.fates
  · have given := intact.given
    rw [at_] at given
    exact given
  · refine ⟨some_, same, more, room, ?_⟩
    change cyclic logRing (r.copy line head k).data (r.base + r.used) (k + 1) = line.take (k + 1)
    rw [cyclic_succ, data, cyclic_update (Nat.le_refl _) (by omega), copied, Function.update_self,
      take_add_one, getD_eq_getElem?_getD, List.getElem?_eq_getElem more]
    rfl

/-- The thread copies past the segments that the logger writes from. -/
theorem copy_segment {cell len : Nat} (intact : r.Intact) (at_ : r.emitter = .copies line head k)
    (more : k < line.length) (covers : r.Covers cell len) :
    segment (r.copy line head k).data cell len = segment r.data cell len := by
  have goes := intact.cell at_ more
  have fits := intact.fits
  rw [Ring.Fits, at_] at fits
  obtain ⟨-, -, -, room, -⟩ := fits
  have batch := r.batch_le_used
  apply map_congr_left
  intro j inside
  obtain ⟨m, less, place⟩ := covers j (mem_range.mp inside)
  change Function.update r.data (if _ then _ else _) _ _ = _
  rw [goes, Function.update_of_ne]
  rw [place]
  exact mod_ne (by omega) (by omega)

theorem publish (intact : r.Intact) (at_ : r.emitter = .copies line head line.length) :
    (r.publish line head).Intact := by
  have fits := intact.fits
  rw [Ring.Fits, at_] at fits
  obtain ⟨some_, rfl, -, room, copied⟩ := fits
  rw [take_length] at copied
  have held : (r.publish line r.head).held = r.held ++ [line] :=
    (append_assoc _ _ _).symm
  have flat : (r.publish line r.head).held.flatten = r.held.flatten ++ line := by
    rw [held]
    simp
  have used : (r.publish line r.head).used = r.used + line.length := by
    rw [Ring.used, flat, length_append]
    rfl
  constructor
  · change (r.head + line.length) % sizeMax = (r.base + (r.publish line r.head).used) % sizeMax
    rw [used, intact.head, Nat.mod_add_mod, Nat.add_assoc]
  · exact intact.tail
  · exact intact.seen
  · rw [used]
    exact room
  · rw [flat, used, cyclic_add]
    change cyclic logRing r.data r.base r.used ++ cyclic logRing r.data (r.base + r.used) _ = _
    rw [intact.cells, copied]
  · intro other mem
    rw [held] at mem
    rcases mem_append.mp mem with old | new
    · exact intact.filled other old
    · rw [mem_singleton.mp new]
      exact some_
  · change ((r.fates ++ [(line, true)]).filter fun fate => fate.2).map Prod.fst =
      r.written ++ (r.publish line r.head).held
    rw [held, filter_append, map_append, intact.fates, Ring.puts]
    simp
  · have given := intact.given
    rw [at_] at given
    change r.given = (r.fates ++ [(line, true)]).map Prod.fst ++ []
    rw [given]
    simp [Emitter.line]
  · trivial

/-- The logger takes what it sees into its batch. -/
theorem look (intact : r.Intact) : r.look.Intact := by
  have held : r.look.held = r.held := by
    simp [Ring.look, Ring.held]
  have used : r.look.used = r.used := by
    rw [Ring.used, held]
    rfl
  constructor
  · rw [used]
    exact intact.head
  · exact intact.tail
  · rw [show r.look.batch = r.held from rfl]
    exact intact.head
  · rw [used]
    exact intact.room
  · rw [used, held]
    exact intact.cells
  · rw [held]
    exact intact.filled
  · rw [Ring.puts, held]
    exact intact.fates
  · exact intact.given
  · have fits := intact.fits
    unfold Ring.Fits at fits ⊢
    rw [used]
    exact fits

/-- The logger lets go of its batch. -/
theorem store (intact : r.Intact) : r.store.Intact := by
  have base : r.store.base = r.base + r.batch.flatten.length := by
    simp [Ring.base, Ring.store]
  have split : r.used = r.batch.flatten.length + r.store.used := by
    simp [Ring.used, Ring.held, Ring.store]
  have held : r.held.flatten = r.batch.flatten ++ r.store.held.flatten := by
    simp [Ring.held, Ring.store]
  have whole : r.store.base + r.store.used = r.base + r.used := by
    omega
  have room := intact.room
  constructor
  · rw [whole]
    exact intact.head
  · rw [base]
    exact intact.seen
  · rw [base]
    exact intact.seen
  · omega
  · have cells := intact.cells
    rw [split, held, cyclic_add] at cells
    have parts := append_inj cells length_cyclic
    rw [base]
    exact parts.2
  · intro line mem
    exact intact.filled line (mem_append.mpr (.inr mem))
  · apply intact.fates.trans
    simp [Ring.puts, Ring.held, Ring.store]
  · exact intact.given
  · have fits := intact.fits
    unfold Ring.Fits at fits ⊢
    change match r.emitter with
      | .begins line => line ≠ []
      | .measures line head => line ≠ [] ∧ head = r.head
      | .copies line head k =>
        line ≠ [] ∧ head = r.head ∧ k ≤ line.length ∧ r.store.used + line.length ≤ logRing ∧
          cyclic logRing r.data (r.store.base + r.store.used) k = line.take k
      | _ => True
    rw [whole]
    split at fits <;> first | exact fits | trivial | skip
    obtain ⟨some_, same, below, room, copied⟩ := fits
    exact ⟨some_, same, below, by omega, copied⟩

/-- Nothing is left between the positions when no line is held. -/
theorem head_eq_tail (intact : r.Intact) : r.head = r.tail ↔ r.held = [] := by
  have room := intact.room
  have below := logRing_lt
  have distance : apart sizeMax r.head r.tail = r.used := by
    rw [intact.head, intact.tail, apart_mod (Nat.le_add_right _ _) (by omega), Nat.add_sub_cancel_left]
  constructor
  · intro same
    have none_ : r.used = 0 := by
      rw [← distance, same, apart, Nat.add_sub_cancel_left, Nat.mod_self]
    cases held : r.held with
    | nil => rfl
    | cons line lines =>
      have some_ := intact.filled line (by simp [held])
      rw [Ring.used, held] at none_
      simp [some_] at none_
  · intro none_
    rw [intact.head, intact.tail, Ring.used, none_]
    rfl

end Ring.Intact

theorem start_intact (memory : Nat → UInt8) : Ring.Intact { data := memory } where
  head := rfl
  tail := rfl
  seen := rfl
  room := Nat.zero_le _
  cells := rfl
  filled := nofun
  fates := rfl
  given := rfl
  fits := trivial

end Askai.Log
