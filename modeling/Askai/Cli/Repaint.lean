import Askai.Cli.Render

/-!
# Repainting a row

What a terminal shows once the bytes that `cli_render_row` leaves for one row after another have been sent to it: the
row that was passed last, as if all of it had been sent.
-/

namespace Askai

open Library List

variable {lib : Utf8proc}

/-! ## What is left for a row -/

theorem rowBytes_inj {l m : List (Ink Char Bytes)} (safe : ∀ i ∈ l, lib.Safe i) (safe' : ∀ i ∈ m, lib.Safe i)
    (same : rowBytes l = rowBytes m) : l = m := by
  induction l generalizing m with
  | nil =>
    by_contra other
    have some_ := rowBytes_pos (Ne.symm other)
    rw [← same] at some_
    exact Nat.lt_irrefl _ some_
  | cons i l ih =>
    cases m with
    | nil =>
      have some_ := rowBytes_pos (cons_ne_nil i l)
      rw [same] at some_
      exact absurd some_ (Nat.lt_irrefl _)
    | cons j m =>
      rw [rowBytes_cons, rowBytes_cons] at same
      obtain ⟨rfl, rest⟩ := inkBytes_append (safe i mem_cons_self) (safe' j mem_cons_self) same
      rw [ih (fun k among => safe k (mem_cons_of_mem _ among)) (fun k among => safe' k (mem_cons_of_mem _ among)) rest]

theorem nul_not_mem_inkBytes {i : Ink Char Bytes} (safe : lib.Safe i) : nul ∉ inkBytes i := by
  intro among
  cases i with
  | style s =>
    obtain front | last := mem_append.mp among
    · obtain is | front := mem_cons.mp front
      · exact absurd is (by decide)
      · obtain is | front := mem_cons.mp front
        · exact absurd is (by decide)
        · exact absurd (safe _ front).1 (by decide)
    · exact absurd (mem_singleton.mp last) (by decide)
  | glyph c => exact absurd (Utf8proc.bytes_shown safe nul among).1 (by decide)

/-- A row holds no NUL. -/
theorem cstr_rowBytes {l : List (Ink Char Bytes)} (safe : ∀ i ∈ l, lib.Safe i) : cstr (rowBytes l) = rowBytes l := by
  rw [cstr, takeWhile_eq_self_iff]
  intro b among
  obtain ⟨i, here, inside⟩ := mem_flatMap.mp among
  rw [decide_eq_true_iff]
  rintro rfl
  exact nul_not_mem_inkBytes (safe i here) inside

/-- The first byte tells whether a text begins with a style. -/
theorem headD_rowBytes {l : List (Ink Char Bytes)} (safe : ∀ i ∈ l, lib.Safe i) (some_ : l ≠ []) (tail : Bytes) :
    (rowBytes l ++ tail).headD 0 = 0x1b ↔ StyledInks l := by
  obtain ⟨i, l, rfl⟩ := exists_cons_of_ne_nil some_
  rw [rowBytes_cons, append_assoc, headD_inkBytes (safe i mem_cons_self)]
  constructor
  · rintro ⟨s, rfl⟩
    exact ⟨s, l, rfl⟩
  · rintro ⟨s, rest, is⟩
    exact ⟨s, (List.cons.inj is).1⟩

/-- The sequence that is said again before the middle of a row is the one in force there, unless the middle begins with
a sequence itself. -/
theorem tells_style {front new more : List (Ink Char Bytes)} {style : Nat × Nat} (styles : Styles front style)
    (safe : ∀ i ∈ front ++ (new ++ more), lib.Safe i)
    (begins : PlainInks (front ++ (new ++ more)) ∨ StyledInks (front ++ (new ++ more))) (some_ : new ≠ []) :
    ∃ extra, Tells front new more extra ∧ (∀ i ∈ extra, lib.Safe i) ∧
      rowBytes extra = if (rowBytes (front ++ (new ++ more))).getD (rowBytes front).length 0 = 0x1b then []
        else ((rowBytes (front ++ (new ++ more))).drop style.1).take style.2 := by
  have newSafe : ∀ i ∈ new, lib.Safe i := fun i among => safe i (mem_append_right _ (mem_append_left _ among))
  have head : (rowBytes (front ++ (new ++ more))).getD (rowBytes front).length 0 = 0x1b ↔ StyledInks new := by
    rw [← headD_rowBytes newSafe some_ (rowBytes more), rowBytes_append, rowBytes_append, getD_eq_getElem?_getD,
      List.getElem?_append_right (Nat.le_refl _), Nat.sub_self, headD_eq_head?_getD, List.head?_eq_getElem?]
  by_cases styled : StyledInks new
  · rw [if_pos (head.mpr styled)]
    exact ⟨[], .inr (.inr (.inl ⟨styled, rfl⟩)), (fun _ among => nomatch among), rfl⟩
  · rw [if_neg (mt head.mp styled)]
    obtain ⟨plain, rfl⟩ | ⟨before, s, rest, rfl, plain, rfl⟩ := styles
    · refine ⟨[], ?_, (fun _ among => nomatch among), rfl⟩
      obtain all | first := begins
      · exact .inr (.inl ⟨all, rfl⟩)
      · exfalso
        obtain rfl | rest := eq_or_ne front []
        · rw [nil_append] at first
          exact styled (first.front some_)
        · obtain ⟨s, rest, rfl⟩ := first.front rest
          exact plain s mem_cons_self
    · refine ⟨[.style s], .inr (.inr (.inr ⟨s, rfl, ?_⟩)), ?_, ?_⟩
      · intro other
        rw [inkStyle_append]
        exact inkStyle_plain plain s
      · intro i among
        rw [mem_singleton.mp among]
        exact safe _ (mem_append_left _ (mem_append_right _ mem_cons_self))
      · have whole : rowBytes (before ++ .style s :: rest ++ (new ++ more)) =
            rowBytes before ++ (inkBytes (.style s) ++ rowBytes (rest ++ (new ++ more))) := by
          rw [append_assoc, rowBytes_append, cons_append, rowBytes_cons]
        dsimp only
        rw [whole, drop_left, take_left, rowBytes_cons]
        exact append_nil _

/-- What a call does to a row whose predecessor is in the cache. -/
structure RenderChange (lib : Utf8proc) (row column : Nat) (old text : List (Ink Char Bytes)) (bytes : Bytes) : Type where
  front : List (Ink Char Bytes)
  gone : List (Ink Char Bytes)
  new : List (Ink Char Bytes)
  extra : List (Ink Char Bytes)
  ends : Nat
  text_eq : text = front ++ (new ++ spaces ' ' ends)
  old_eq : old = front ++ (gone ++ spaces ' ' ends)
  tells : Tells front new (spaces ' ' ends) extra
  apart : front = [] ∨ ¬ MarksFirst lib.width (gone ++ spaces ' ' ends) ∧ ¬ MarksFirst lib.width (new ++ spaces ' ' ends)
  safe : ∀ i ∈ extra ++ new, lib.Safe i
  bytes_eq : bytes = [] ∧ extra ++ new = [] ∨
    bytes = cursorTo row (column + inkWidth lib.width front) ++ rowBytes (extra ++ new)

/-- A call for a row either fails, and then the cache is as it was or empty, or it leaves the row's change. -/
theorem cliRenderRow_spec (law : lib.Lawful) {cells : Nat} {old text : List (Ink Char Bytes)} (safe : ∀ i ∈ old, lib.Safe i)
    (valid : RowText lib cells text) (stored printed : Bool) (before : Bytes) (row column : Nat) :
    let result := cliRenderRow lib stored printed (some (rowBytes old)) (before ++ rowBytes text) before.length row column
    (result.1 ≠ none ∧ (result.2.1 = some (rowBytes old) ∨ result.2.1 = some [])) ∨
      result.1 = none ∧ result.2.1 = some (rowBytes text) ∧
        ∃ bytes, result.2.2 = before ++ bytes ∧ Nonempty (RenderChange lib row column old text bytes) := by
  intro result
  have is : result =
    cliRenderRow lib stored printed (some (rowBytes old)) (before ++ rowBytes text) before.length row column := rfl
  rw [cliRenderRow] at is
  by_cases wrong : row = 0 ∨ column = 0 ∨ (before ++ rowBytes text).length < before.length ∨
      intMax < (before ++ rowBytes text).length - before.length
  · rw [if_pos wrong] at is
    rw [is]
    exact .inl ⟨(fun none_ => nomatch none_), .inl rfl⟩
  rw [if_neg wrong, drop_left, take_left] at is
  dsimp only [Option.getD_some] at is
  by_cases same : some (rowBytes old) = some (rowBytes text)
  · obtain rfl := rowBytes_inj safe valid.safe (Option.some.inj same)
    rw [if_pos rfl] at is
    rw [is]
    refine .inr ⟨rfl, rfl, [], (append_nil _).symm, ⟨⟨old, [], [], [], 0, ?_, ?_, ?_, ?_, ?_, ?_⟩⟩⟩
    · exact (append_nil _).symm
    · exact (append_nil _).symm
    · exact .inl ⟨rfl, rfl⟩
    · exact .inr ⟨id, id⟩
    · exact fun _ among => nomatch among
    · exact .inl ⟨rfl, rfl⟩
  rw [if_neg same] at is
  obtain ⟨front, xs, os, at_, rfl, rfl, change, start, cells_, styles, apart⟩ :=
    Utf8proc.renderChange_spec law valid.safe safe
  obtain ⟨new, gone, k, rfl, rfl, ends⟩ := renderEnds_spec front
    (fun i among => valid.safe i (mem_append_right _ among)) [] []
    (fun i among => safe i (mem_append_right _ among))
  rw [append_nil, append_nil] at ends
  rw [change] at is
  dsimp only at is
  rw [start, ends] at is
  dsimp only at is
  by_cases large : 2 ^ 64 - 1 - column < at_.cells
  · rw [if_pos large] at is
    rw [is]
    exact .inl ⟨(fun none_ => nomatch none_), .inl rfl⟩
  rw [if_neg large] at is
  cases stored with
  | false =>
    rw [if_pos (by decide)] at is
    rw [is]
    exact .inl ⟨(fun none_ => nomatch none_), .inl rfl⟩
  | true =>
    rw [if_neg (by decide)] at is
    by_cases nothing : new = []
    · subst nothing
      rw [append_nil, if_pos (Nat.le_refl _)] at is
      rw [is]
      refine .inr ⟨rfl, rfl, [], (append_nil _).symm, ⟨⟨front, gone, [], [], k, rfl, rfl, ?_, apart.imp_right And.symm, ?_, ?_⟩⟩⟩
      · exact .inl ⟨rfl, rfl⟩
      · exact fun _ among => nomatch among
      · exact .inl ⟨rfl, rfl⟩
    · have further : ¬ (rowBytes (front ++ new)).length ≤ (rowBytes front).length := by
        have some_ := rowBytes_pos nothing
        rw [rowBytes_append, length_append]
        omega
      rw [if_neg further] at is
      cases printed with
      | false =>
        rw [if_pos (by decide)] at is
        rw [is]
        exact .inl ⟨(fun none_ => nomatch none_), .inr rfl⟩
      | true =>
        obtain ⟨extra, tells, extraSafe, extraBytes⟩ := tells_style styles valid.safe valid.begins nothing
        have newSafe : ∀ i ∈ new, lib.Safe i := fun i among =>
          valid.safe i (mem_append_right _ (mem_append_left _ among))
        have middle : ((rowBytes (front ++ (new ++ spaces ' ' k))).drop (rowBytes front).length).take
            ((rowBytes (front ++ new)).length - (rowBytes front).length) = rowBytes new := by
          rw [rowBytes_append front (new ++ _), drop_left, rowBytes_append, rowBytes_append, length_append,
            Nat.add_sub_cancel_left, take_left]
        rw [if_neg (by decide), ← extraBytes, middle, cstr_rowBytes extraSafe, cstr_rowBytes newSafe, cells_] at is
        rw [is]
        refine .inr ⟨rfl, rfl, _, rfl, ⟨⟨front, gone, new, extra, k, rfl, rfl, tells, apart.imp_right And.symm, ?_, ?_⟩⟩⟩
        · intro i among
          exact (mem_append.mp among).elim (extraSafe i) (newSafe i)
        · right
          rw [rowBytes_append, append_assoc]

/-! ## The terminal -/

/-- A terminal: the cells of its rows, and where and in which style the next character is written. The style is the
parameters of the last sequence, since each sequence resets the style before it. -/
structure Screen where
  rows : Nat → Nat → InkCell Char Bytes
  row : Nat
  column : Nat
  style : Bytes

namespace Screen

/-- The row that is written. -/
def pen (s : Screen) : Pen Char Bytes :=
  ⟨s.rows s.row, s.column, s.style⟩

def write (lib : Utf8proc) (s : Screen) (ink : Ink Char Bytes) : Screen :=
  let pen := s.pen.write lib.width ink
  { s with rows := Function.update s.rows s.row pen.cells, column := pen.column, style := pen.style }

/-- A byte of the parameters of a sequence. -/
def parameter (b : UInt8) : Bool :=
  48 ≤ b ∧ b ≤ 59

/-- A sequence, by its last byte: `m` is a style, `H` moves to a row and a column, and nothing else is known. -/
def obey (lib : Utf8proc) (s : Screen) (parameters : Bytes) (final : UInt8) : Screen :=
  if final = 0x6d then s.write lib (.style parameters)
  else if final = 0x48 then
    { s with
      row := decimal (parameters.takeWhile (· ≠ 59))
      column := decimal ((parameters.dropWhile (· ≠ 59)).drop 1) }
  else s

/-- The sequence or the character that a text begins with, done, and how many bytes of it follow the first. -/
def token (lib : Utf8proc) (s : Screen) (text : Bytes) : Screen × Nat :=
  if text.headD 0 = 0x1b ∧ text.getD 1 0 = 0x5b then
    let parameters := (text.drop 2).takeWhile parameter
    match text[parameters.length + 2]? with
    | some final => (s.obey lib parameters final, parameters.length + 2)
    | none => (s, 0)
  else
    match text.toByteArray.utf8DecodeChar? 0 with
    | some c => (s.write lib (.glyph c), c.utf8Size - 1)
    | none => (s, 0)

/-- What the terminal does with bytes. -/
def draw (lib : Utf8proc) (s : Screen) (text : Bytes) : Screen :=
  if _done : text = [] then s else (s.token lib text).1.draw lib (text.drop ((s.token lib text).2 + 1))
termination_by text.length
decreasing_by
  have some_ := length_pos_iff.mpr _done
  rw [length_drop]
  omega

def writeAll (lib : Utf8proc) (s : Screen) (inks : List (Ink Char Bytes)) : Screen :=
  inks.foldl (write lib) s

variable {s : Screen}

theorem pen_writeAll (s : Screen) (inks : List (Ink Char Bytes)) :
    (s.writeAll lib inks).pen = s.pen.writeAll lib.width inks ∧ (s.writeAll lib inks).row = s.row := by
  induction inks generalizing s with
  | nil => exact ⟨rfl, rfl⟩
  | cons ink inks ih =>
    have pen : (s.write lib ink).pen = s.pen.write lib.width ink := by
      rw [Screen.pen, write]
      dsimp only
      rw [Function.update_self]
    obtain ⟨rest, row⟩ := ih (s.write lib ink)
    rw [pen] at rest
    exact ⟨rest, row⟩

theorem draw_nil : s.draw lib [] = s := by
  rw [draw, dif_pos rfl]

theorem draw_token {text : Bytes} (some_ : text ≠ []) :
    s.draw lib text = (s.token lib text).1.draw lib (text.drop ((s.token lib text).2 + 1)) := by
  rw [draw, dif_neg some_]

/-- A whole sequence is obeyed. -/
theorem draw_sequence {parameters : Bytes} (inside : ∀ b ∈ parameters, 48 ≤ b ∧ b ≤ 59) {final : UInt8}
    (ends : ¬ (48 ≤ final ∧ final ≤ 59)) (rest : Bytes) :
    s.draw lib (0x1b :: 0x5b :: parameters ++ final :: rest) = (s.obey lib parameters final).draw lib rest := by
  have run : (parameters ++ final :: rest).takeWhile parameter = parameters := by
    have all : ∀ b ∈ parameters, parameter b = true := fun b among => decide_eq_true (inside b among)
    rw [takeWhile_append_of_pos all, takeWhile_cons_of_neg, append_nil]
    exact fun more => ends (of_decide_eq_true more)
  have last : (0x1b :: 0x5b :: parameters ++ final :: rest)[parameters.length + 2]? = some final := by
    change (parameters ++ final :: rest)[parameters.length]? = _
    rw [List.getElem?_append_right (Nat.le_refl _), Nat.sub_self]
    rfl
  have first : s.token lib (0x1b :: 0x5b :: parameters ++ final :: rest) =
      (s.obey lib parameters final, parameters.length + 2) := by
    rw [token, if_pos ⟨rfl, rfl⟩]
    dsimp only
    rw [show (0x1b :: 0x5b :: parameters ++ final :: rest).drop 2 = parameters ++ final :: rest from rfl, run, last]
  have some_ : 0x1b :: 0x5b :: parameters ++ final :: rest ≠ [] := cons_ne_nil _ _
  rw [draw_token some_, first]
  congr 1
  change (parameters ++ final :: rest).drop (parameters.length + 1) = rest
  rw [drop_append, Nat.add_sub_cancel_left, drop_eq_nil_of_le (Nat.le_succ _)]
  rfl

theorem draw_ink {i : Ink Char Bytes} (safe : lib.Safe i) (rest : Bytes) :
    s.draw lib (inkBytes i ++ rest) = (s.write lib i).draw lib rest := by
  cases i with
  | style parameters =>
    have bytes : inkBytes (.style parameters) ++ rest = 0x1b :: 0x5b :: parameters ++ 0x6d :: rest :=
      (append_assoc _ _ _).trans rfl
    rw [bytes, draw_sequence safe (by decide), obey, if_pos rfl]
  | glyph c =>
    have some_ : inkBytes (.glyph c) ++ rest ≠ [] := by
      apply ne_nil_of_length_pos
      rw [length_append]
      exact Nat.add_pos_left (inkBytes_pos _) _
    have other : ¬ ((inkBytes (.glyph c) ++ rest).headD 0 = 0x1b ∧ (inkBytes (.glyph c) ++ rest).getD 1 0 = 0x5b) := by
      rw [headD_inkBytes safe]
      rintro ⟨⟨s, is⟩, -⟩
      exact nomatch is
    have decoded : (inkBytes (.glyph c) ++ rest).toByteArray.utf8DecodeChar? 0 = some c := by
      rw [inkBytes, toByteArray_append]
      exact ByteArray.utf8DecodeChar?_utf8EncodeChar_append
    have size : c.utf8Size - 1 + 1 = (String.utf8EncodeChar c).length := by
      rw [String.length_utf8EncodeChar]
      exact Nat.sub_add_cancel (Char.utf8Size_pos c)
    have first : s.token lib (inkBytes (.glyph c) ++ rest) = (s.write lib (.glyph c), c.utf8Size - 1) := by
      rw [token, if_neg other, decoded]
    rw [draw_token some_, first]
    dsimp only
    rw [size, inkBytes, drop_left]

/-- A row is written token by token. -/
theorem draw_row {inks : List (Ink Char Bytes)} (safe : ∀ i ∈ inks, lib.Safe i) (s : Screen) :
    s.draw lib (rowBytes inks) = s.writeAll lib inks := by
  induction inks generalizing s with
  | nil => exact draw_nil
  | cons i inks ih =>
    rw [rowBytes_cons, draw_ink (safe i mem_cons_self), ih fun j among => safe j (mem_cons_of_mem _ among)]
    rfl

theorem draw_cursorTo (row column : Nat) (rest : Bytes) :
    s.draw lib (cursorTo row column ++ rest) = { s with row, column : Screen }.draw lib rest := by
  have digits : ∀ n, ∀ b ∈ utilDecimal n, 48 ≤ b ∧ b ≤ 57 := by
    intro n b among
    have is := digits_utilDecimal n b among
    rw [digit, Bool.and_eq_true, decide_eq_true_iff, decide_eq_true_iff] at is
    exact is
  have inside : ∀ b ∈ utilDecimal row ++ 59 :: utilDecimal column, 48 ≤ b ∧ b ≤ 59 := by
    have low : ∀ n, ∀ b ∈ utilDecimal n, 48 ≤ b ∧ b ≤ 59 := fun n b among =>
      ⟨(digits n b among).1, UInt8.le_trans (digits n b among).2 (by decide)⟩
    intro b among
    obtain first | rest := mem_append.mp among
    · exact low row b first
    · obtain rfl | second := mem_cons.mp rest
      · decide
      · exact low column b second
  have apart : ∀ b ∈ utilDecimal row, decide (b ≠ 59) = true := by
    intro b among
    rw [decide_eq_true_iff]
    rintro rfl
    exact absurd (digits row 59 among).2 (by decide)
  have bytes : cursorTo row column ++ rest =
      0x1b :: 0x5b :: (utilDecimal row ++ 59 :: utilDecimal column) ++ 0x48 :: rest := by
    simp only [cursorTo, append_assoc, cons_append, nil_append]
  rw [bytes, draw_sequence inside (by decide), obey, if_neg (by decide), if_pos rfl]
  congr 1
  rw [takeWhile_append_of_pos apart, dropWhile_append_of_pos apart]
  have before : (utilDecimal row ++ (59 :: utilDecimal column).takeWhile (· ≠ 59)) = utilDecimal row := by
    exact append_nil _
  have after : ((59 :: utilDecimal column).dropWhile (· ≠ 59)).drop 1 = utilDecimal column := rfl
  rw [before, after, decimal, decimal, foldl_utilDecimal, foldl_utilDecimal]

end Screen

/-! ## One row after another -/

/-- A call: what the output holds before the row, the row, and whether there is memory. -/
structure RenderCall where
  before : Bytes
  inks : List (Ink Char Bytes)
  stored : Bool
  printed : Bool

/-- What `cli_render_row` does in a call. -/
def RenderCall.result (call : RenderCall) (lib : Utf8proc) (row column : Nat) (cache : Bytes) :
    Option CliRenderErrno × Option Bytes × Bytes :=
  cliRenderRow lib call.stored call.printed (some cache) (call.before ++ rowBytes call.inks) call.before.length row column

/-- A call and what a terminal then does with the bytes that it leaves, if it succeeds. -/
def repaint (lib : Utf8proc) (row column : Nat) (now : Bytes × Screen) (call : RenderCall) : Bytes × Screen :=
  let result := call.result lib row column now.1
  (result.2.1.getD [], if result.1 = none then now.2.draw lib (result.2.2.drop call.before.length) else now.2)

/-- The row that is shown is the one in the cache, unless there is none. -/
def Repainted (lib : Utf8proc) (cells row column : Nat) (now : Bytes × Screen) : Prop :=
  ∃ inks, now.1 = rowBytes inks ∧ (∀ i ∈ inks, lib.Safe i) ∧
    (inks = [] ∨ inkWidth lib.width inks = cells ∧
      (⟨now.2.rows row, 0, now.2.style⟩ : Pen Char Bytes).Shows lib.width ' ' column inks)

section Calls

variable {cells row column : Nat} {old text : List (Ink Char Bytes)} {bytes : Bytes} {s : Screen}

theorem spaces_eq_nil {k : Nat} (none_ : (spaces ' ' k : List (Ink Char Bytes)) = []) : k = 0 := by
  have length := congrArg List.length none_
  rwa [spaces, length_replicate] at length

/-- A text drawn at the start of a row. -/
theorem draw_cursorTo_row (s : Screen) (safe : ∀ i ∈ text, lib.Safe i) (row column : Nat) :
    (s.draw lib (cursorTo row column ++ rowBytes text)).pen =
      (⟨s.rows row, column, s.style⟩ : Pen Char Bytes).writeAll lib.width text ∧
    (s.draw lib (cursorTo row column ++ rowBytes text)).row = row := by
  rw [Screen.draw_cursorTo, Screen.draw_row safe]
  exact Screen.pen_writeAll _ _

/-- A row that is in the cache and is shown gives way to the next. -/
theorem RenderChange.shows (change : RenderChange lib row column old text bytes) (valid : RowText lib cells text)
    (shown : old = [] ∨ inkWidth lib.width old = cells ∧
      (⟨s.rows row, 0, s.style⟩ : Pen Char Bytes).Shows lib.width ' ' column old) :
    (⟨(s.draw lib bytes).rows row, 0, (s.draw lib bytes).style⟩ : Pen Char Bytes).Shows lib.width ' ' column text ∧
      (PlainInks text → (s.draw lib bytes).style = s.style) := by
  obtain ⟨front, gone, new, extra, k, rfl, rfl, tells, apart, safe, bytesIs⟩ := change
  obtain ⟨t, tIs⟩ : ∃ t, t = (⟨s.rows row, 0, s.style⟩ : Pen Char Bytes) := ⟨_, rfl⟩
  have one : lib.width ' ' = 1 := Utf8proc.width_space
  have shows_ : t.Shows lib.width ' ' column (front ++ (gone ++ spaces ' ' k)) ∨ front = [] ∧ k = 0 := by
    obtain none_ | ⟨-, shown⟩ := shown
    · obtain ⟨noFront, rest⟩ := append_eq_nil_iff.mp none_
      exact .inr ⟨noFront, spaces_eq_nil (append_eq_nil_iff.mp rest).2⟩
    · rw [tIs]
      exact .inl shown
  have same : k ≠ 0 → inkWidth lib.width gone = inkWidth lib.width new := by
    intro ends
    have width := valid.cells
    obtain none_ | ⟨width', -⟩ := shown
    · have rest := (append_eq_nil_iff.mp none_).2
      exact absurd (spaces_eq_nil (append_eq_nil_iff.mp rest).2) ends
    · rw [inkWidth_append, inkWidth_append] at width width'
      omega
  have painted := Pen.Shows.repaint one shows_ same apart valid.begins tells
  have styled : PlainInks (front ++ (new ++ spaces ' ' k)) → inkStyle s.style (extra ++ new) = s.style :=
    fun plain => tells.style plain s.style
  obtain ⟨rfl, nothing⟩ | rfl := bytesIs
  · rw [Screen.draw_nil]
    refine ⟨?_, fun _ => rfl⟩
    rw [nothing, tIs] at painted
    exact painted
  · obtain ⟨pen, rowIs⟩ := draw_cursorTo_row s safe row (column + inkWidth lib.width front)
    have again : ({ t with column := column + inkWidth lib.width front } : Pen Char Bytes) =
        ⟨s.rows row, column + inkWidth lib.width front, s.style⟩ := by rw [tIs]
    rw [again, ← pen] at painted
    have cells_ : (s.draw lib (cursorTo row (column + inkWidth lib.width front) ++ rowBytes (extra ++ new))).rows row =
        (s.draw lib (cursorTo row (column + inkWidth lib.width front) ++ rowBytes (extra ++ new))).pen.cells := by
      rw [Screen.pen, rowIs]
    refine ⟨?_, ?_⟩
    · rw [cells_]
      exact painted
    · intro plain
      change (s.draw lib _).pen.style = _
      rw [pen, Pen.style_writeAll]
      exact styled plain

/-- A call keeps the row in the cache the one that is shown. -/
theorem Repainted.step (law : lib.Lawful) {now : Bytes × Screen} (shown : Repainted lib cells row column now)
    {call : RenderCall} (valid : RowText lib cells call.inks) :
    Repainted lib cells row column (repaint lib row column now call) := by
  obtain ⟨old, cache, safe, shown⟩ := shown
  have spec := cliRenderRow_spec law safe valid call.stored call.printed call.before row column
  rw [← cache] at spec
  rw [repaint, RenderCall.result]
  obtain ⟨failed, kept | cleared⟩ | ⟨done, cached, bytes, output, ⟨change⟩⟩ := spec
  · rw [if_neg failed, kept]
    exact ⟨old, cache, safe, shown⟩
  · rw [if_neg failed, cleared]
    exact ⟨[], rfl, (fun _ among => nomatch among), .inl rfl⟩
  · rw [if_pos done, cached, output, drop_left]
    exact ⟨call.inks, rfl, valid.safe, .inr ⟨valid.cells, (change.shows valid shown).1⟩⟩

theorem Repainted.run (law : lib.Lawful) {calls : List RenderCall} (valid : ∀ call ∈ calls, RowText lib cells call.inks) :
    ∀ {now : Bytes × Screen}, Repainted lib cells row column now →
      Repainted lib cells row column (calls.foldl (repaint lib row column) now) := by
  induction calls with
  | nil => exact fun shown => shown
  | cons call calls ih =>
    intro now shown
    apply ih fun other among => valid other (mem_cons_of_mem _ among)
    exact shown.step law (valid call mem_cons_self)

/-- A row that is in the cache leaves no bytes. -/
theorem cliRenderRow_again {before text : Bytes} {begin_ : Nat} {stored printed stored' printed' : Bool}
    {cache cache' : Option Bytes} {output output' : Bytes} (length : output.length - begin_ = text.length)
    (done : cliRenderRow lib stored printed cache output begin_ row column = (none, cache', output')) :
    cliRenderRow lib stored' printed' (some text) (before ++ text) before.length row column = (none, some text, before) := by
  have right : ¬ (row = 0 ∨ column = 0 ∨ output.length < begin_ ∨ intMax < output.length - begin_) := by
    intro wrong
    rw [cliRenderRow, if_pos wrong] at done
    exact nomatch (Prod.mk.inj done).1
  have same : ¬ (row = 0 ∨ column = 0 ∨ (before ++ text).length < before.length ∨
      intMax < (before ++ text).length - before.length) := by
    rw [length_append]
    omega
  rw [cliRenderRow, if_neg same, drop_left, take_left]
  exact if_pos rfl

/-- An error other than that there is no memory leaves cache and output as they were. -/
theorem cliRenderRow_error {stored printed : Bool} {cache : Option Bytes} {output : Bytes} {begin_ : Nat}
    {e : CliRenderErrno} (failed : (cliRenderRow lib stored printed cache output begin_ row column).1 = some e)
    (memory : e ≠ .enomem) : (cliRenderRow lib stored printed cache output begin_ row column).2 = (cache, output) := by
  obtain ⟨result, is⟩ : ∃ result, result = cliRenderRow lib stored printed cache output begin_ row column := ⟨_, rfl⟩
  rw [← is] at failed ⊢
  rw [cliRenderRow] at is
  split at is
  · rw [is]
  · dsimp only at is
    split at is
    · rw [is] at failed
      exact nomatch failed
    · split at is
      · rw [is]
      · split at is
        · rw [is]
        · split at is
          · rw [is]
          · split at is
            · rw [is] at failed
              exact nomatch failed
            · split at is
              · rw [is] at failed
                exact absurd (Option.some.inj failed).symm memory
              · rw [is] at failed
                exact nomatch failed

/-- For one row of as many cells after another, with one cache: once the bytes that each call leaves have been sent, the
row shows what it would show if the whole of it had been sent, its style included in each cell that is not a space, and
the same row again leaves no bytes. And whatever a call is passed, an error other than that there is no memory leaves
cache and output as they were. -/
theorem cli_render_row_repaints (law : lib.Lawful) {calls : List RenderCall}
    (valid : ∀ call ∈ calls, RowText lib cells call.inks) {call : RenderCall} (next : RowText lib cells call.inks)
    (screen : Screen) :
    let now := calls.foldl (repaint lib row column) ([], screen)
    let result := call.result lib row column now.1
    (result.1 = none → ∃ bytes, result.2 = (some (rowBytes call.inks), call.before ++ bytes) ∧
        (∀ x, column ≤ x → x < column + cells → ((now.2.draw lib bytes).rows row x).Like ' '
          ((now.2.draw lib (cursorTo row column ++ rowBytes call.inks)).rows row x)) ∧
        (now.1 = rowBytes call.inks → bytes = []) ∧ ∀ again : RenderCall, again.inks = call.inks →
          again.result lib row column (rowBytes call.inks) = (none, some (rowBytes call.inks), again.before)) ∧
    ∀ (stored printed : Bool) (cache : Option Bytes) (output : Bytes) (begin_ row column : Nat) (e : CliRenderErrno),
      e ≠ .enomem → (cliRenderRow lib stored printed cache output begin_ row column).1 = some e →
        (cliRenderRow lib stored printed cache output begin_ row column).2 = (cache, output) := by
  intro now result
  refine ⟨fun done => ?_, fun _ _ _ _ _ _ _ _ memory failed => cliRenderRow_error failed memory⟩
  have none_ : Repainted lib cells row column ([], screen) := ⟨[], rfl, (fun _ among => nomatch among), .inl rfl⟩
  obtain ⟨old, cache, safe, shown⟩ := none_.run law valid
  have spec := cliRenderRow_spec law safe next call.stored call.printed call.before row column
  rw [← cache] at spec
  obtain ⟨failed, -⟩ | ⟨-, cached, bytes, output, ⟨change⟩⟩ := spec
  · exact absurd done failed
  have again : ∀ again : RenderCall, again.inks = call.inks →
      again.result lib row column (rowBytes call.inks) = (none, some (rowBytes call.inks), again.before) := by
    intro again same
    have run : cliRenderRow lib call.stored call.printed (some now.1) (call.before ++ rowBytes call.inks)
        call.before.length row column = (none, result.2.1, result.2.2) := Prod.ext done rfl
    rw [RenderCall.result, same]
    apply cliRenderRow_again _ run
    rw [length_append, Nat.add_sub_cancel_left]
  refine ⟨bytes, Prod.ext cached output, ?_, ?_, again⟩
  · intro x behind before
    obtain ⟨shows_, plain⟩ := change.shows next shown
    obtain ⟨pen, rowIs⟩ := draw_cursorTo_row now.2 next.safe row column
    have whole : (now.2.draw lib (cursorTo row column ++ rowBytes call.inks)).rows row =
        ((⟨now.2.rows row, column, now.2.style⟩ : Pen Char Bytes).writeAll lib.width call.inks).cells := by
      rw [← pen, Screen.pen, rowIs]
    rw [whole]
    apply shows_ ⟨now.2.rows row, column, now.2.style⟩ rfl (fun all => (plain all).symm) x behind
    rwa [next.cells]
  · intro same
    have result_ := again call rfl
    rw [← same] at result_
    have outputs := (congrArg (fun r => r.2.2) result_).symm.trans output
    exact append_cancel_left ((append_nil _).trans outputs).symm

end Calls

/-- A mark that comes after the `b` of a row changes its cell, and the row then shows it. -/
theorem cli_render_row_repaints_mark :
    let first : RenderCall := ⟨[], [.style [48], .glyph 'a', .glyph 'b', .glyph ' '], true, true⟩
    let second : RenderCall :=
      ⟨[33], [.style [48], .glyph 'a', .glyph 'b', .glyph (Char.ofNat 0x301), .glyph ' '], true, true⟩
    let now := [first].foldl (repaint .latin 2 5) ([], ⟨fun _ _ => ⟨' ', 0, [], []⟩, 1, 1, []⟩)
    ∃ bytes, (second.result .latin 2 5 now.1).2 = (some (rowBytes second.inks), [33] ++ bytes) ∧
      ∀ x, 5 ≤ x → x < 5 + 3 → ((now.2.draw .latin bytes).rows 2 x).Like ' '
        ((now.2.draw .latin (cursorTo 2 5 ++ rowBytes second.inks)).rows 2 x) := by
  intro first second now
  have firstRow : RowText .latin 3 first.inks := by
    refine ⟨?_, .inr ⟨_, _, rfl⟩, by decide⟩
    simp only [first, forall_mem_cons, not_mem_nil, false_implies, implies_true, and_true, Utf8proc.Safe]
    decide
  have secondRow : RowText .latin 3 second.inks := by
    refine ⟨?_, .inr ⟨_, _, rfl⟩, by decide⟩
    simp only [second, forall_mem_cons, not_mem_nil, false_implies, implies_true, and_true, Utf8proc.Safe]
    decide
  have done : (second.result .latin 2 5 now.1).1 = none := by decide +kernel
  obtain ⟨bytes, output, same, -⟩ := (@cli_render_row_repaints .latin 3 2 5 Utf8proc.latin_lawful [first]
    (forall_mem_singleton.mpr firstRow) second secondRow ⟨fun _ _ => ⟨' ', 0, [], []⟩, 1, 1, []⟩).1 done
  exact ⟨bytes, output, same⟩

end Askai
