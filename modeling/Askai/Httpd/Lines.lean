import Askai.Httpd.Head

/-!
# The lines of a head

The loop that finds a head's end, and the one that splits it into lines, take the same bytes for line
ends: the lines are those between the LFs, and the first empty one ends the head.
-/

namespace Askai

open Library List

/-! ## Going on with the search -/

/-- Whether the bytes after an LF begin with a CR. -/
def crs (back : Bytes) : Nat :=
  if back.head? = some cr then 1 else 0

theorem httpdHeadScan_none {i : Nat} {rest : Bytes} (absent : lf ∉ rest) :
    httpdHeadScan i rest = .error (i + rest.length) := by
  rw [httpdHeadScan]
  split
  · rfl
  · rename_i found
    rw [cut_eq_none.mpr absent] at found
    cases found

theorem httpdHeadScan_line {i : Nat} {line : Bytes} (back : Bytes) (absent : lf ∉ line) :
    httpdHeadScan i (line ++ lf :: back) =
      match back.drop (crs back) with
      | [] => .error (i + line.length)
      | c :: _ =>
        if c = lf then .ok (i + line.length + 1 + crs back + 1)
        else httpdHeadScan (i + line.length + 1) back := by
  rw [httpdHeadScan]
  split
  · rename_i found
    rw [cut_append back absent] at found
    cases found
  · rename_i found
    rw [cut_append back absent] at found
    obtain ⟨rfl, rfl⟩ := Prod.mk.inj (Option.some.inj found)
    rfl

/-- Bytes without an LF are passed over. -/
theorem httpdHeadScan_skip {i : Nat} {front : Bytes} (rest : Bytes) (absent : lf ∉ front) :
    httpdHeadScan i (front ++ rest) = httpdHeadScan (i + front.length) rest := by
  cases cut_rest : cut lf rest with
  | none =>
    have none_left := cut_eq_none.mp cut_rest
    have neither : lf ∉ front ++ rest := by simp [absent, none_left]
    rw [httpdHeadScan_none none_left, httpdHeadScan_none neither, length_append, Nat.add_assoc]
  | some parts =>
    obtain ⟨line, back⟩ := parts
    obtain ⟨rfl, clear⟩ := cut_eq_some.mp cut_rest
    have neither : lf ∉ front ++ line := by simp [absent, clear]
    rw [← append_assoc, httpdHeadScan_line back neither, httpdHeadScan_line back clear]
    simp only [length_append, Nat.add_assoc]

/-- What follows an LF, if it does not stop the search there. -/
theorem drop_crs_append {back : Bytes} (some_ : back.drop (crs back) ≠ []) (more : Bytes) :
    (back ++ more).drop (crs (back ++ more)) = back.drop (crs back) ++ more ∧ crs (back ++ more) = crs back := by
  cases back with
  | nil => exact absurd (by simp) some_
  | cons c back =>
    have same : crs (c :: back ++ more) = crs (c :: back) := by simp [crs]
    refine ⟨?_, same⟩
    rw [same, drop_append_of_le_length]
    by_contra long
    apply some_
    exact drop_eq_nil_iff.mpr (by omega)

/-- The search goes on from where it stopped as it would have begun, and never goes back. -/
theorem httpdHeadScan_append {i : Nat} (rest more : Bytes) :
    match httpdHeadScan i rest with
    | .ok n => httpdHeadScan i (rest ++ more) = .ok n ∧ i ≤ n ∧ n ≤ i + rest.length
    | .error s => i ≤ s ∧ s ≤ i + rest.length ∧
        httpdHeadScan i (rest ++ more) = httpdHeadScan s ((rest ++ more).drop (s - i)) := by
  induction size : rest.length using Nat.strong_induction_on generalizing i rest with
  | _ size ih =>
    cases cut_rest : cut lf rest with
    | none =>
      have absent := cut_eq_none.mp cut_rest
      rw [httpdHeadScan_none absent]
      refine ⟨Nat.le_add_right .., by omega, ?_⟩
      rw [Nat.add_sub_cancel_left, drop_left]
      exact httpdHeadScan_skip more absent
    | some parts =>
      obtain ⟨line, back⟩ := parts
      obtain ⟨rfl, absent⟩ := cut_eq_some.mp cut_rest
      rw [length_append, length_cons] at size
      have whole : line ++ lf :: back ++ more = line ++ lf :: (back ++ more) := by simp
      rw [httpdHeadScan_line back absent, whole]
      cases next : back.drop (crs back) with
      | nil =>
        refine ⟨Nat.le_add_right .., by omega, ?_⟩
        rw [Nat.add_sub_cancel_left, drop_left]
        exact httpdHeadScan_skip _ absent
      | cons c tail =>
        obtain ⟨after, same⟩ := drop_crs_append (next ▸ cons_ne_nil c tail) more
        have room : crs back + 1 ≤ back.length := by
          have counted := congrArg List.length next
          rw [length_drop, length_cons] at counted
          omega
        rw [httpdHeadScan_line _ absent, after, next, same]
        simp only [cons_append]
        rcases eq_or_ne c lf with rfl | other
        · simp only [if_true]
          exact ⟨trivial, by omega, by omega⟩
        · simp only [other, if_false]
          have rest := @ih back.length (by omega) (i + line.length + 1) back rfl
          cases scan : httpdHeadScan (i + line.length + 1) back with
          | ok n =>
            rw [scan] at rest
            obtain ⟨found, low, high⟩ := rest
            exact ⟨found, by omega, by omega⟩
          | error s =>
            rw [scan] at rest
            obtain ⟨low, high, goes_on⟩ := rest
            refine ⟨by omega, by omega, ?_⟩
            have shift : s - i = line.length + 1 + (s - (i + line.length + 1)) := by omega
            rw [goes_on, shift, ← drop_drop]
            congr 2
            simp

/-! ## Lines -/

/-- A line, without the LF or CRLF that ends it. -/
structure HeadLine where
  text : Bytes
  crlf : Bool
  deriving DecidableEq, Repr

namespace HeadLine

/-- The bytes of its end. -/
def eol (l : HeadLine) : Nat :=
  if l.crlf then 2 else 1

def bytes (l : HeadLine) : Bytes :=
  l.text ++ if l.crlf then [cr, lf] else [lf]

/-- No line ends within it. -/
structure Whole (l : HeadLine) : Prop where
  single : lf ∉ l.text
  ends : l.crlf = false → l.text.getLast? ≠ some cr

@[simp]
theorem length_bytes (l : HeadLine) : l.bytes.length = l.text.length + l.eol := by
  cases crlf : l.crlf <;> simp [bytes, eol, crlf]

/-- The line is what `httpd_next_line` cuts. -/
theorem httpdNextLine_bytes {l : HeadLine} (whole : l.Whole) (clear : nul ∉ l.text) (rest : Bytes) :
    httpdNextLine (l.bytes ++ rest) = some (l.text, l.eol, rest) := by
  cases crlf : l.crlf with
  | true =>
    have inside : lf ∉ l.text ++ [cr] := by
      simp only [mem_append, whole.single, mem_singleton, false_or]
      decide
    have bytes : l.bytes ++ rest = (l.text ++ [cr]) ++ lf :: rest := by
      simp [HeadLine.bytes, crlf]
    have cr_ne_nul : nul ≠ cr := by decide
    rw [bytes, httpdNextLine, cut_append rest inside]
    simp [clear, eol, crlf, cr_ne_nul]
  | false =>
    have bytes : l.bytes ++ rest = l.text ++ lf :: rest := by
      simp [HeadLine.bytes, crlf]
    rw [bytes, httpdNextLine, cut_append rest whole.single]
    simp [clear, eol, crlf, whole.ends crlf]

/-- Bytes up to an LF are a line. -/
theorem exists_bytes {line : Bytes} (absent : lf ∉ line) (rest : Bytes) :
    ∃ l : HeadLine, l.Whole ∧ line ++ lf :: rest = l.bytes ++ rest ∧
      l.bytes.length = line.length + 1 ∧ (l.text = [] → line = [] ∨ line = [cr]) := by
  cases last : line.getLast? with
  | none =>
    obtain rfl := List.getLast?_eq_none_iff.mp last
    exact ⟨⟨[], false⟩, ⟨not_mem_nil, nofun⟩, rfl, rfl, fun _ => .inl rfl⟩
  | some c =>
    obtain ⟨front, rfl⟩ := List.getLast?_eq_some_iff.mp last
    rcases eq_or_ne c cr with rfl | other
    · refine ⟨⟨front, true⟩, ⟨fun inside => absent (mem_append_left _ inside), nofun⟩, ?_, ?_, ?_⟩
      · simp [bytes]
      · simp [eol]
      · rintro rfl
        exact .inr rfl
    · refine ⟨⟨front ++ [c], false⟩, ⟨absent, fun _ => by simpa using other⟩, ?_, ?_, ?_⟩
      · simp [bytes]
      · simp [eol]
      · intro empty
        exact absurd empty (by simp)

end HeadLine

/-- The bytes of lines. -/
def linesBytes (lines : List HeadLine) : Bytes :=
  (lines.map HeadLine.bytes).flatten

/-- A head: a first line, others that are not empty, and an empty one. -/
structure HeadLines where
  first : HeadLine
  lines : List HeadLine
  last : HeadLine
  whole : ∀ l ∈ first :: lines, l.Whole
  filled : ∀ l ∈ lines, l.text ≠ []
  empty : last.text = []

def HeadLines.bytes (head : HeadLines) : Bytes :=
  linesBytes (head.first :: head.lines) ++ head.last.bytes

theorem HeadLines.bytes_eq (head : HeadLines) :
    head.bytes = head.first.bytes ++ (linesBytes head.lines ++ head.last.bytes) := by
  simp [HeadLines.bytes, linesBytes]

/-- A line before a head that it does not end. -/
def HeadLines.cons (l : HeadLine) (whole : l.Whole) (head : HeadLines) (filled : head.first.text ≠ []) : HeadLines where
  first := l
  lines := head.first :: head.lines
  last := head.last
  whole := forall_mem_cons.mpr ⟨whole, head.whole⟩
  filled := forall_mem_cons.mpr ⟨filled, head.filled⟩
  empty := head.empty

theorem HeadLines.bytes_cons {l : HeadLine} {whole : l.Whole} {head : HeadLines}
    {filled : head.first.text ≠ []} : (head.cons l whole filled).bytes = l.bytes ++ head.bytes := by
  simp [HeadLines.bytes, HeadLines.cons, linesBytes]

/-- After an LF, an empty line is an LF, or a CR and an LF. -/
theorem drop_crs_empty {l : HeadLine} (empty : l.text = []) (rest : Bytes) :
    (l.bytes ++ rest).drop (crs (l.bytes ++ rest)) = lf :: rest ∧ crs (l.bytes ++ rest) + 1 = l.bytes.length := by
  cases crlf : l.crlf with
  | true => simp [HeadLine.bytes, empty, crlf, crs]
  | false =>
    have apart : lf ≠ cr := by decide
    simp [HeadLine.bytes, empty, crlf, crs, apart]

/-- After an LF, any other line is neither. -/
theorem drop_crs_filled {l : HeadLine} (whole : l.Whole) (filled : l.text ≠ []) (rest : Bytes) :
    ∃ c tail, (l.bytes ++ rest).drop (crs (l.bytes ++ rest)) = c :: tail ∧ c ≠ lf := by
  obtain ⟨c, text, split⟩ := exists_cons_of_ne_nil filled
  have single : lf ∉ c :: text := split ▸ whole.single
  have bytes : l.bytes ++ rest = c :: (text ++ ((if l.crlf then [cr, lf] else [lf]) ++ rest)) := by
    simp [HeadLine.bytes, split]
  rw [bytes]
  rcases eq_or_ne c cr with rfl | other
  · have one : crs (cr :: (text ++ ((if l.crlf then [cr, lf] else [lf]) ++ rest))) = 1 := by
      simp [crs]
    rw [one, drop_succ_cons, drop_zero]
    cases text with
    | cons d text =>
      refine ⟨d, _, rfl, ?_⟩
      rintro rfl
      exact single (by simp)
    | nil =>
      cases crlf : l.crlf with
      | true => exact ⟨cr, lf :: rest, by simp, by decide⟩
      | false => exact absurd (by simp [split]) (whole.ends crlf)
  · have zero : crs (c :: (text ++ ((if l.crlf then [cr, lf] else [lf]) ++ rest))) = 0 := by
      simp [crs, other]
    rw [zero, drop_zero]
    refine ⟨c, _, rfl, ?_⟩
    rintro rfl
    exact single mem_cons_self

/-- The empty line after an LF. -/
theorem emptyLine {back tail : Bytes} (next : back.drop (crs back) = lf :: tail) :
    ∃ last : HeadLine, last.text = [] ∧ back = last.bytes ++ tail ∧ last.bytes.length = crs back + 1 := by
  cases back with
  | nil => simp at next
  | cons c back =>
    rcases eq_or_ne c cr with rfl | other
    · have one : crs (cr :: back) = 1 := by simp [crs]
      rw [one] at next ⊢
      obtain rfl : back = lf :: tail := by simpa using next
      exact ⟨⟨[], true⟩, rfl, rfl, rfl⟩
    · have zero : crs (c :: back) = 0 := by simp [crs, other]
      rw [zero] at next ⊢
      obtain ⟨rfl, rfl⟩ := List.cons.inj next
      exact ⟨⟨[], false⟩, rfl, rfl, rfl⟩

/-- Where the search for the head's end succeeds, the lines up to there are a head. -/
theorem httpdHeadScan_head {i n : Nat} {data : Bytes} (found : httpdHeadScan i data = .ok n) :
    ∃ (head : HeadLines) (rest : Bytes), data = head.bytes ++ rest ∧ n = i + head.bytes.length := by
  induction size : data.length using Nat.strong_induction_on generalizing i data with
  | _ size ih =>
    cases cut_data : cut lf data with
    | none =>
      rw [httpdHeadScan_none (cut_eq_none.mp cut_data)] at found
      cases found
    | some parts =>
      obtain ⟨line, back⟩ := parts
      obtain ⟨rfl, absent⟩ := cut_eq_some.mp cut_data
      rw [length_append, length_cons] at size
      obtain ⟨first, whole, same, length, -⟩ := HeadLine.exists_bytes absent back
      rw [httpdHeadScan_line back absent] at found
      cases next : back.drop (crs back) with
      | nil =>
        rw [next] at found
        cases found
      | cons c tail =>
        rw [next] at found
        simp only at found
        rcases eq_or_ne c lf with rfl | other
        · -- the line after this one is the empty one
          simp only [if_true, Except.ok.injEq] at found
          obtain ⟨last, empty, ends, width⟩ := emptyLine next
          have whole : ∀ l ∈ [first], l.Whole := by simpa using whole
          refine ⟨⟨first, [], last, whole, nofun, empty⟩, tail, ?_, ?_⟩
          · rw [same, ends]
            simp [HeadLines.bytes, linesBytes]
          · simp only [HeadLines.bytes, linesBytes, map_cons, map_nil,
              flatten_cons, flatten_nil, append_nil, length_append, length, width]
            omega
        · simp only [other, if_false] at found
          obtain ⟨head, rest, rfl, rfl⟩ := @ih back.length (by omega) _ back found rfl
          have filled : head.first.text ≠ [] := by
            intro empty
            rw [HeadLines.bytes_eq, append_assoc, (drop_crs_empty empty _).1] at next
            exact other (List.cons.inj next).1.symm
          refine ⟨head.cons first whole filled, rest, ?_, ?_⟩
          · rw [same, HeadLines.bytes_cons, append_assoc]
          · rw [HeadLines.bytes_cons, length_append, length]
            omega

/-- A line as the search for the head's end sees it. -/
theorem HeadLine.Whole.split {l : HeadLine} (whole : l.Whole) : ∃ line, lf ∉ line ∧ l.bytes = line ++ [lf] := by
  cases crlf : l.crlf with
  | true =>
    refine ⟨l.text ++ [cr], ?_, by simp [HeadLine.bytes, crlf]⟩
    simp only [mem_append, whole.single, mem_singleton, false_or]
    decide
  | false => exact ⟨l.text, whole.single, by simp [HeadLine.bytes, crlf]⟩

theorem httpdHeadScan_lines (lines : List HeadLine) :
    ∀ (i : Nat) (first last : HeadLine), (∀ l ∈ first :: lines, l.Whole) →
      (∀ l ∈ lines, l.text ≠ []) → last.text = [] → ∀ rest,
        httpdHeadScan i (linesBytes (first :: lines) ++ last.bytes ++ rest) =
          .ok (i + (linesBytes (first :: lines) ++ last.bytes).length) := by
  induction lines with
  | nil =>
    intro i first last whole _ empty rest
    obtain ⟨line, absent, bytes⟩ := (whole first mem_cons_self).split
    obtain ⟨next, width⟩ := drop_crs_empty empty rest
    have parts : linesBytes [first] ++ last.bytes ++ rest = line ++ lf :: (last.bytes ++ rest) := by
      simp [linesBytes, bytes]
    rw [parts, httpdHeadScan_line _ absent, next]
    simp only [if_true, Except.ok.injEq]
    simp [linesBytes, bytes, ← width]
    omega
  | cons second lines ih =>
    intro i first last whole filled empty rest
    obtain ⟨line, absent, bytes⟩ := (whole first mem_cons_self).split
    have later : ∀ l ∈ second :: lines, l.Whole := fun l member =>
      whole l (mem_cons_of_mem _ member)
    have scan := ih (i + line.length + 1) second last later
      (fun l member => filled l (mem_cons_of_mem _ member)) empty rest
    obtain ⟨c, tail, next, other⟩ := drop_crs_filled (later second mem_cons_self)
      (filled second mem_cons_self) (linesBytes lines ++ last.bytes ++ rest)
    have back : linesBytes (second :: lines) ++ last.bytes ++ rest =
        second.bytes ++ (linesBytes lines ++ last.bytes ++ rest) := by simp [linesBytes]
    have parts : linesBytes (first :: second :: lines) ++ last.bytes ++ rest =
        line ++ lf :: (linesBytes (second :: lines) ++ last.bytes ++ rest) := by
      simp [linesBytes, bytes]
    rw [parts, httpdHeadScan_line _ absent]
    rw [back] at scan ⊢
    rw [next]
    simp only [other, if_false, scan, Except.ok.injEq]
    simp [linesBytes, bytes]
    omega

/-- The search stops at the end of a head, whatever follows. -/
theorem httpdHeadScan_bytes (head : HeadLines) (i : Nat) (rest : Bytes) :
    httpdHeadScan i (head.bytes ++ rest) = .ok (i + head.bytes.length) :=
  httpdHeadScan_lines head.lines i head.first head.last head.whole head.filled head.empty rest

/-! ## As the bytes come in -/

/-- Searches for a head's end came to nothing as the bytes came in; the next one begins at the
place. -/
inductive Searched (lim : HttpdLimits) : Nat → Bytes → Prop
  | start (data : Bytes) : Searched lim 0 data
  | again {scan next : Nat} {data : Bytes} (searched : Searched lim scan data)
      (partial_ : httpdConnHeadLength lim scan data = (0, next)) (more : Bytes) :
      Searched lim next (data ++ more)

/-- A search that goes on finds what one from the start does. -/
theorem Searched.scan_eq {lim : HttpdLimits} {scan : Nat} {data : Bytes} (searched : Searched lim scan data) :
    httpdHeadScan scan ((data.take lim.head).drop scan) = httpdHeadScan 0 (data.take lim.head) := by
  induction searched with
  | start data => rw [drop_zero]
  | @again scan next data searched partial_ more ih =>
    have limit := lim.head_le
    have width : (data.take lim.head).length ≤ lim.head := length_take_le ..
    have grown : ∃ more', (data ++ more).take lim.head = data.take lim.head ++ more' :=
      ⟨_, take_append⟩
    obtain ⟨more', grown⟩ := grown
    rw [httpdConnHeadLength, ih] at partial_
    have goes_on := @httpdHeadScan_append 0 (data.take lim.head) more'
    cases scan_data : httpdHeadScan 0 (data.take lim.head) with
    | ok n =>
      rw [scan_data] at partial_
      obtain ⟨head, rest, -, rfl⟩ := httpdHeadScan_head scan_data
      have filled : 0 < head.bytes.length := by
        have ends : 0 < head.last.eol := by
          rw [HeadLine.eol]
          split <;> omega
        rw [HeadLines.bytes, length_append, HeadLine.length_bytes]
        omega
      have zero := (Prod.mk.inj partial_).1
      omega
    | error s =>
      rw [scan_data] at partial_ goes_on
      obtain ⟨-, high, same⟩ := goes_on
      obtain rfl : wrap16 s = next := (Prod.mk.inj partial_).2
      have exact_ : wrap16 s = s := Nat.mod_eq_of_lt (by omega)
      rw [grown, exact_, same, Nat.sub_zero]

/-- The head that the search finds is the first within the limit, whatever came before. -/
theorem Searched.headLength {lim : HttpdLimits} {scan n next : Nat} {data : Bytes}
    (searched : Searched lim scan data) (found : httpdConnHeadLength lim scan data = (n, next)) (some_ : n ≠ 0) :
    ∃ (head : HeadLines) (rest : Bytes), data = head.bytes ++ rest ∧ n = head.bytes.length ∧ n ≤ lim.head := by
  rw [httpdConnHeadLength, searched.scan_eq] at found
  cases scan_data : httpdHeadScan 0 (data.take lim.head) with
  | error s =>
    rw [scan_data] at found
    exact absurd (Prod.mk.inj found).1.symm some_
  | ok m =>
    rw [scan_data] at found
    obtain rfl := (Prod.mk.inj found).1
    obtain ⟨head, rest, split, rfl⟩ := httpdHeadScan_head scan_data
    have whole : data = head.bytes ++ (rest ++ data.drop lim.head) := by
      rw [← append_assoc, ← split, take_append_drop]
    refine ⟨head, _, whole, by omega, ?_⟩
    have counted := congrArg List.length split
    have width : (data.take lim.head).length ≤ lim.head := length_take_le ..
    rw [length_append] at counted
    omega

end Askai
