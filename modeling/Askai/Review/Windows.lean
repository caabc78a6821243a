import Askai.Library.Bytes
import Askai.Review.Log

/-!
# The lines that windows show

`review_pending_add` (`review.c`): which numbered lines of a read lie whole in a window of its output.
-/

namespace Askai

open Library

/-- The bytes that `review_pending_add` compares, those of the lines before the window or in it. -/
structure WindowLines where
  /-- The number of the first line that begins in the window. -/
  line : Nat
  /-- How many lines end there. -/
  n : Nat
  deriving DecidableEq

/-- The count of `review_pending_add`: the lines from the byte `lo` on, which is of the line `line`, that
end before `hi`, or none. -/
def reviewWindowLines (out : Bytes) (src : ReviewSource) (lo hi line : Nat) : Option WindowLines :=
  let end_ := src.start + src.len
  let starts : Option (Nat × Nat) :=
    if src.start < lo ∧ out[lo - 1]? ≠ some lf then
      -- a line whose start is before the window
      match (between out lo hi).findIdx? (· = lf) with
      | none => none
      | some nl => some (lo + nl + 1, line + 1)
    else some (lo, line)
  match starts with
  | none => none
  | some (lo, line) =>
    let n := reviewNewlines (between out lo hi) +
      if hi = end_ ∧ lo < hi ∧ out[hi - 1]? ≠ some lf then 1 else 0
    if n = 0 then none else some { line, n }

/-- `review_pending_add`. -/
def reviewPendingAdd (memory : Allocations) (r : Review) (read : ReviewRead) (out : Bytes)
    (skip window : Nat) (turn : UInt32) : Review × ReviewRead × Option ReviewError :=
  let src := read.src
  if !reviewSourceWithin src out then (r, read, some .einval)
  else
    let end_ := src.start + src.len
    if end_ ≤ skip then (r, read, none)
    else
      let lo := if src.start < skip then skip else src.start
      let hi := if window < end_ - skip then skip + window else end_
      if hi ≤ lo then (r, read, none)
      else
        let read :=
          if lo < read.mark then { read with mark := src.start, markLine := src.first } else read
        let read := { read with
          mark := lo
          markLine := read.markLine + reviewNewlines (between out read.mark lo) }
        match reviewWindowLines out src lo hi read.markLine with
        | none => (r, read, none)
        | some lines =>
          if src.last < lines.line + lines.n - 1 then (r, read, some .einval)
          else
            let (r, e) := reviewFilesAdd memory r .pending src
              { first := UInt32.ofNat lines.line, last := UInt32.ofNat (lines.line + lines.n - 1), turn }
            (r, read, e)

/-! ## The lines of bytes -/

/-- The number of the line that a byte is of. -/
def lineOf (src : ReviewSource) (out : Bytes) (p : Nat) : Nat :=
  src.first + reviewNewlines (between out src.start p)

/-- A byte of the numbered lines. -/
def ReviewSource.Within (src : ReviewSource) (p : Nat) : Prop :=
  src.start ≤ p ∧ p < src.start + src.len

/-- The line is one of the source, and every byte of it, its end included, lies in the window. -/
def ShownWhole (src : ReviewSource) (out : Bytes) (skip window line : Nat) : Prop :=
  (∃ p, src.Within p ∧ lineOf src out p = line) ∧
    ∀ p, src.Within p → lineOf src out p = line → skip ≤ p ∧ p < skip + window

variable {src : ReviewSource} {out : Bytes}

theorem reviewNewlines_append (s t : Bytes) : reviewNewlines (s ++ t) = reviewNewlines s + reviewNewlines t :=
  List.count_append

/-- From one byte to a later one, the number grows by the line feeds between them. -/
theorem lineOf_add (src : ReviewSource) (out : Bytes) {p q : Nat} (low : src.start ≤ p) (high : p ≤ q) :
    lineOf src out q = lineOf src out p + reviewNewlines (between out p q) := by
  rw [lineOf, lineOf, between_append low high, reviewNewlines_append, Nat.add_assoc]

theorem lineOf_mono (src : ReviewSource) (out : Bytes) {p q : Nat} (low : src.start ≤ p) (high : p ≤ q) :
    lineOf src out p ≤ lineOf src out q := by
  rw [lineOf_add src out low high]
  exact Nat.le_add_right ..

theorem lineOf_succ (src : ReviewSource) (out : Bytes) {p : Nat} (low : src.start ≤ p) (inside : p < out.length) :
    lineOf src out (p + 1) = lineOf src out p + if out[p]? = some lf then 1 else 0 := by
  have one : between out p (p + 1) = [out[p]] := by
    rw [between, Nat.add_sub_cancel_left, List.drop_eq_getElem_cons inside, List.take_succ_cons, List.take_zero]
  rw [lineOf_add src out low (Nat.le_succ p), one, reviewNewlines, List.getElem?_eq_getElem inside,
    List.count_singleton]
  simp

/-- Every number between those of two bytes is one of a byte between them. -/
theorem exists_lineOf {p q line : Nat} (low : src.start ≤ p) (inside : q ≤ out.length) (high : p ≤ q)
    (least : lineOf src out p ≤ line) (less : line < lineOf src out q) :
    ∃ k, p ≤ k ∧ k < q ∧ lineOf src out k = line := by
  induction q, high using Nat.le_induction with
  | base => omega
  | succ q high ih =>
    rcases Nat.lt_or_ge line (lineOf src out q) with before | here
    · obtain ⟨k, first, last, same⟩ := ih (by omega) before
      exact ⟨k, first, by omega, same⟩
    · have step := lineOf_succ src out (Nat.le_trans low high) inside
      refine ⟨q, high, Nat.lt_succ_self q, ?_⟩
      split at step <;> omega

/-- A byte behind a line feed is of a later line than all before it. -/
theorem lineOf_lt (src : ReviewSource) (out : Bytes) {p q : Nat} (low : src.start ≤ p) (less : p < q)
    (inside : q ≤ out.length) (ends : out[q - 1]? = some lf) : lineOf src out p < lineOf src out q := by
  obtain ⟨k, rfl⟩ : ∃ k, q = k + 1 := ⟨q - 1, by omega⟩
  have step := lineOf_succ src out (show src.start ≤ k by omega) inside
  have mono := lineOf_mono src out low (show p ≤ k by omega)
  rw [Nat.add_sub_cancel] at ends
  rw [if_pos ends] at step
  omega

/-- Where the lines of a window are counted from: the start of a line, before which all bytes of the
window are of a line that began before it. -/
structure Starts (src : ReviewSource) (out : Bytes) (lo hi start : Nat) : Prop where
  low : lo ≤ start
  high : start ≤ hi
  begins : start = src.start ∨ src.start < start ∧ out[start - 1]? = some lf
  before : ∀ p, lo ≤ p → p < start → ∃ q, src.Within q ∧ q < lo ∧ lineOf src out q = lineOf src out p

/-- A part of the output that is of the source, and is where its bytes are in the window. -/
structure WindowIn (src : ReviewSource) (out : Bytes) (skip window lo hi : Nat) : Prop where
  inside : src.start + src.len ≤ out.length
  low : src.start ≤ lo
  some_ : lo < hi
  high : hi ≤ src.start + src.len
  window : ∀ p, src.Within p → (skip ≤ p ∧ p < skip + window ↔ lo ≤ p ∧ p < hi)

variable {skip window lo hi start : Nat}

/-- The lines shown whole are those that end between the start of the first and the end of the
window. -/
theorem Starts.shown_iff (starts : Starts src out lo hi start) (shows : WindowIn src out skip window lo hi)
    (line : Nat) : ShownWhole src out skip window line ↔ lineOf src out start ≤ line ∧
      line < lineOf src out start + (reviewNewlines (between out start hi) +
        if hi = src.start + src.len ∧ start < hi ∧ out[hi - 1]? ≠ some lf then 1 else 0) := by
  obtain ⟨inside, low, some_, high, window⟩ := shows
  obtain ⟨from_, to_, begins, before⟩ := starts
  have own : src.start ≤ start := Nat.le_trans low from_
  have ends := lineOf_add src out own to_
  constructor
  · rintro ⟨⟨p, within, rfl⟩, all⟩
    obtain ⟨first, last⟩ := (window p within).mp (all p within rfl)
    have later : start ≤ p := by
      by_contra earlier
      obtain ⟨q, within', out_, same⟩ := before p first (Nat.not_le.mp earlier)
      have := (window q within').mp (all q within' same)
      omega
    refine ⟨lineOf_mono src out own later, ?_⟩
    have upper := lineOf_mono src out within.1 (show p ≤ hi by omega)
    by_cases same : lineOf src out p = lineOf src out hi
    · -- the line goes on to the end of the window, which is then the end of the source
      have whole : hi = src.start + src.len := by
        by_contra short
        have within' : src.Within hi := ⟨by omega, by omega⟩
        have := (window hi within').mp (all hi within' same.symm)
        omega
      have unended : out[hi - 1]? ≠ some lf := by
        intro feed
        have := lineOf_lt src out within.1 last (by omega) feed
        omega
      rw [if_pos ⟨whole, by omega, unended⟩]
      omega
    · split <;> omega
  · rintro ⟨least, less⟩
    have later : ∀ q, src.Within q → lineOf src out q = line → start ≤ q := by
      intro q within same
      by_contra earlier
      rcases begins with here | ⟨_, feed⟩
      · have := within.1
        omega
      · have := lineOf_lt src out within.1 (Nat.not_le.mp earlier) (by omega) feed
        omega
    rcases Nat.lt_or_ge line (lineOf src out hi) with short | long
    · obtain ⟨k, first, last, same⟩ := exists_lineOf own (by omega) to_ least short
      refine ⟨⟨k, ⟨by omega, by omega⟩, same⟩, fun q within here => (window q within).mpr ⟨?_, ?_⟩⟩
      · exact Nat.le_trans from_ (later q within here)
      · by_contra beyond
        have := lineOf_mono src out (show src.start ≤ hi by omega) (Nat.not_lt.mp beyond)
        omega
    · split at less
      · rename_i tail
        obtain ⟨whole, filled, unended⟩ := tail
        have step := lineOf_succ src out (show src.start ≤ hi - 1 by omega) (show hi - 1 < out.length by omega)
        rw [if_neg unended, Nat.sub_add_cancel (by omega)] at step
        refine ⟨⟨hi - 1, ⟨by omega, by omega⟩, by omega⟩, fun q within here => (window q within).mpr ⟨?_, ?_⟩⟩
        · exact Nat.le_trans from_ (later q within here)
        · have := within.2
          omega
      · omega

/-- The line feeds from one byte to another, and the end of the source's last line where it has none. -/
def lineEnds (src : ReviewSource) (out : Bytes) (start hi : Nat) : Nat :=
  reviewNewlines (between out start hi) +
    if hi = src.start + src.len ∧ start < hi ∧ out[hi - 1]? ≠ some lf then 1 else 0

/-- The lines found are those that the window shows whole. -/
def Counts (src : ReviewSource) (out : Bytes) (skip window hi : Nat) : Option WindowLines → Prop
  | none => ∀ line, ¬ ShownWhole src out skip window line
  | some w => 0 < w.n ∧
      (∃ start, src.start ≤ start ∧ start ≤ hi ∧ w.line = lineOf src out start ∧ w.n = lineEnds src out start hi) ∧
      ∀ line, ShownWhole src out skip window line ↔ w.line ≤ line ∧ line < w.line + w.n

theorem WindowIn.counts (shows : WindowIn src out skip window lo hi) (starts : Starts src out lo hi start) :
    Counts src out skip window hi (if lineEnds src out start hi = 0 then none
      else some { line := lineOf src out start, n := lineEnds src out start hi }) := by
  have low := shows.low
  have shown : ∀ line, ShownWhole src out skip window line ↔ lineOf src out start ≤ line ∧
      line < lineOf src out start + lineEnds src out start hi := starts.shown_iff shows
  split
  · rename_i zero
    intro line whole
    have := (shown line).mp whole
    omega
  · rename_i more
    exact ⟨Nat.pos_of_ne_zero more, ⟨start, Nat.le_trans low starts.low, starts.high, rfl, rfl⟩, shown⟩

/-- What `review_read_create` checked. -/
structure ReadMade (src : ReviewSource) (out : Bytes) : Prop where
  commit : oidValid src.commit = true
  first : 0 < src.first
  order : src.first ≤ src.last
  within : reviewSourceWithin src out = true
  lines : lineEnds src out src.start (src.start + src.len) = src.last - src.first + 1

/-- A read after any windows of its output, of any record. -/
inductive Windows (out : Bytes) (read : ReviewRead) : ReviewRead → Prop
  | fresh : Windows out read read
  | window {now : ReviewRead} (before : Windows out read now) (memory : Allocations) (r : Review)
      (skip window : Nat) (turn : UInt32) :
      Windows out read (reviewPendingAdd memory r now out skip window turn).2.1

/-- The mark is in the lines, with the number of its line. -/
structure Marked (src : ReviewSource) (out : Bytes) (read : ReviewRead) : Prop where
  own : read.src = src
  low : src.start ≤ read.mark
  line : read.markLine = lineOf src out read.mark

theorem Marked.fresh (src : ReviewSource) (out : Bytes) :
    Marked src out { src, mark := src.start, markLine := src.first } := by
  refine ⟨rfl, Nat.le_refl _, ?_⟩
  rw [lineOf, between_self]
  rfl

/-- What a window from the byte `lo` to before `hi` adds to a record. -/
def reviewShown (memory : Allocations) (r : Review) (src : ReviewSource) (out : Bytes) (lo hi : Nat)
    (turn : UInt32) : Review × Option ReviewError :=
  match reviewWindowLines out src lo hi (lineOf src out lo) with
  | none => (r, none)
  | some lines =>
    if src.last < lines.line + lines.n - 1 then (r, some .einval)
    else
      reviewFilesAdd memory r .pending src
        { first := UInt32.ofNat lines.line, last := UInt32.ofNat (lines.line + lines.n - 1), turn }

/-- Where the window begins and ends in the source. -/
def windowStart (src : ReviewSource) (skip : Nat) : Nat :=
  if src.start < skip then skip else src.start

def windowEnd (src : ReviewSource) (skip window : Nat) : Nat :=
  if window < src.start + src.len - skip then skip + window else src.start + src.len

/-- A window counts from the mark as it would from the start of the source. -/
theorem Marked.pendingAdd {read : ReviewRead} (marked : Marked src out read)
    (within : reviewSourceWithin src out = true) (memory : Allocations) (r : Review) (skip window : Nat)
    (turn : UInt32) :
    let after := reviewPendingAdd memory r read out skip window turn
    Marked src out after.2.1 ∧ (after.1, after.2.2) =
      if src.start + src.len ≤ skip ∨ windowEnd src skip window ≤ windowStart src skip then (r, none)
      else reviewShown memory r src out (windowStart src skip) (windowEnd src skip window) turn := by
  obtain ⟨own, mark, markLine⟩ := read
  obtain ⟨rfl, low, line⟩ := marked
  dsimp only at low line
  have low_eq : (if own.start < skip then skip else own.start) = windowStart own skip := rfl
  have high_eq : (if window < own.start + own.len - skip then skip + window else own.start + own.len) =
    windowEnd own skip window := rfl
  rw [reviewPendingAdd, within]
  dsimp only
  rw [if_neg (by decide)]
  by_cases beyond : own.start + own.len ≤ skip
  · rw [if_pos beyond, if_pos (.inl beyond)]
    exact ⟨⟨rfl, low, line⟩, rfl⟩
  rw [if_neg beyond, low_eq, high_eq]
  by_cases none_ : windowEnd own skip window ≤ windowStart own skip
  · rw [if_pos none_, if_pos (.inr none_)]
    exact ⟨⟨rfl, low, line⟩, rfl⟩
  rw [if_neg none_, if_neg (not_or.mpr ⟨beyond, none_⟩)]
  have start_le : own.start ≤ windowStart own skip := by
    rw [windowStart]
    split <;> omega
  obtain ⟨counting, counting_eq⟩ : ∃ counting : ReviewRead, counting =
    if windowStart own skip < mark then { src := own, mark := own.start, markLine := own.first }
    else { src := own, mark, markLine } := ⟨_, rfl⟩
  -- the count from the mark, or from the start of the source where the mark is behind the window
  have counted : counting.src = own ∧
      counting.markLine + reviewNewlines (between out counting.mark (windowStart own skip)) =
        lineOf own out (windowStart own skip) := by
    rw [counting_eq]
    split
    · exact ⟨rfl, rfl⟩
    · rename_i behind
      exact ⟨rfl, by rw [line, ← lineOf_add own out low (Nat.not_lt.mp behind)]⟩
  rw [← counting_eq, counted.1, counted.2, reviewShown]
  have marks : Marked own out { src := own, mark := windowStart own skip, markLine := lineOf own out (windowStart own skip) } :=
    ⟨rfl, start_le, rfl⟩
  cases reviewWindowLines out own (windowStart own skip) (windowEnd own skip window)
    (lineOf own out (windowStart own skip)) with
  | none => exact ⟨marks, rfl⟩
  | some lines =>
    dsimp only
    split
    · exact ⟨marks, rfl⟩
    · exact ⟨marks, rfl⟩

theorem Windows.marked {read now : ReviewRead} (windows : Windows out read now)
    (marked : Marked src out read) (within : reviewSourceWithin src out = true) : Marked src out now := by
  induction windows with
  | fresh => exact marked
  | window before memory r skip window turn ih => exact (ih.pendingAdd within memory r skip window turn).1

/-- No window counts lines past the last of the source. -/
theorem ReadMade.last_le (created : ReadMade src out) {start hi n : Nat} (low : src.start ≤ start)
    (high : start ≤ hi) (inside : hi ≤ src.start + src.len) (ends : n = lineEnds src out start hi)
    (some_ : 0 < n) : lineOf src out start + n - 1 ≤ src.last := by
  have order := created.order
  have lines := created.lines
  have whole : lineOf src out (src.start + src.len) =
      src.first + reviewNewlines (between out src.start (src.start + src.len)) := rfl
  have to_ := lineOf_add src out low high
  have rest := lineOf_mono src out (show src.start ≤ hi by omega) inside
  rw [lineEnds] at ends lines
  split at ends
  · rename_i tail
    obtain ⟨rfl, filled, unended⟩ := tail
    rw [if_pos ⟨rfl, by omega, unended⟩] at lines
    omega
  · split at lines <;> omega

end Askai
