import Askai.Cli.Layout
import Askai.Library.Painting
import Askai.Notes.History
import Askai.Util.Json

/-!
# Rendering a row

What of a row `cli_render_row` leaves in the output: the sequences and characters after those that the row in the
cache begins with, without the spaces that both end in.
-/

namespace Askai

open Library List

/-- The errors of `cli_render_row`. -/
inductive CliRenderErrno where
  | einval
  | eilseq
  | eoverflow
  | enomem
  deriving DecidableEq

/-- `cli_render_token`: the bytes of the sequence or the character that a text begins with, and its cells. A sequence
has a negative number of them, and what is neither has no bytes. -/
def Utf8proc.renderToken (lib : Utf8proc) (text : Bytes) : Nat × Int :=
  if text.headD 0 = 0x1b then (if 0x6d ∈ text then text.idxOf 0x6d + 1 else 0, -1)
  else
    let (length, width) := lib.renderCharacter text
    (if width < 0 then 0 else length, width)

/-- `cli_render_combining`: whether the first character is a mark, or none for `EILSEQ`. -/
def Utf8proc.renderCombining (lib : Utf8proc) (tail : Bytes) : Option Bool :=
  if _done : tail = [] then some false
  else
    let token := lib.renderToken tail
    if _bad : token.1 = 0 then none
    else if 0 ≤ token.2 then some (token.2 = 0)
    else lib.renderCombining (tail.drop token.1)
termination_by tail.length
decreasing_by
  have some_ := length_pos_iff.mpr _done
  have bytes : (lib.renderToken tail).1 ≠ 0 := _bad
  rw [length_drop]
  change _ - (lib.renderToken tail).1 < _
  omega

/-- The variables of the first loop of `cli_render_row`. A style is its place in the text and its length. -/
structure CliRenderAt where
  start : Nat
  cells : Nat
  base : Nat
  baseCells : Nat
  style : Nat × Nat
  baseStyle : Nat × Nat

/-- Past a token. -/
def CliRenderAt.past (at_ : CliRenderAt) (length : Nat) (width : Int) : CliRenderAt :=
  if width < 0 then { at_ with start := at_.start + length, style := (at_.start, length) }
  else if width ≠ 0 then
    { at_ with
      start := at_.start + length
      cells := at_.cells + width.toNat
      base := at_.start
      baseCells := at_.cells
      baseStyle := at_.style }
  else { at_ with start := at_.start + length }

/-- The first loop of `cli_render_row`, over the tokens that both rows begin with. -/
def Utf8proc.renderCommon (lib : Utf8proc) (text old : Bytes) (at_ : CliRenderAt) : Option CliRenderAt :=
  if _inside : at_.start < text.length ∧ at_.start < old.length then
    let token := lib.renderToken (text.drop at_.start)
    if _bad : token.1 = 0 then none
    else if token.1 ≤ old.length - at_.start ∧
        (text.drop at_.start).take token.1 = (old.drop at_.start).take token.1 then
      lib.renderCommon text old (at_.past token.1 token.2)
    else some at_
  else some at_
termination_by text.length - at_.start
decreasing_by
  have further : (at_.past token.1 token.2).start = at_.start + token.1 := by
    rw [CliRenderAt.past]
    split
    · rfl
    · split
      · rfl
      · rfl
  have bytes : (lib.renderToken (text.drop at_.start)).1 ≠ 0 := _bad
  rw [further]
  change text.length - (at_.start + (lib.renderToken (text.drop at_.start)).1) < _
  omega

/-- Where the change of a row begins: a changed mark also changes the character before it. None for `EILSEQ`. -/
def Utf8proc.renderChange (lib : Utf8proc) (text old : Bytes) : Option CliRenderAt := do
  let at_ ← lib.renderCommon text old ⟨0, 0, 0, 0, (0, 0), (0, 0)⟩
  let combining ← lib.renderCombining (text.drop at_.start)
  let oldCombining ← lib.renderCombining (old.drop at_.start)
  if combining ∨ oldCombining then
    some { at_ with start := at_.base, cells := at_.baseCells, style := at_.baseStyle }
  else some at_

/-- The last loop of `cli_render_row`, over the spaces that both rows end in. -/
def renderEnds (text old : Bytes) (start stop oldStop : Nat) : Nat × Nat :=
  if start < stop ∧ start < oldStop ∧ text.getD (stop - 1) 0 = 32 ∧ old.getD (oldStop - 1) 0 = 32 then
    renderEnds text old start (stop - 1) (oldStop - 1)
  else (stop, oldStop)
termination_by stop

/-- What moves the cursor: `ESC [ row ; column H`. -/
def cursorTo (row column : Nat) : Bytes :=
  [0x1b, 0x5b] ++ utilDecimal row ++ [59] ++ utilDecimal column ++ [0x48]

/-- `INT_MAX`. -/
def intMax : Nat := 2 ^ 31 - 1

/-- `cli_render_row`, where there is memory for the row in the cache and for the output or not: the error, the cache
and the output. What is printed of a text ends at its first NUL. -/
def cliRenderRow (lib : Utf8proc) (stored printed : Bool) (cache : Option Bytes) (output : Bytes) (begin row column : Nat) :
    Option CliRenderErrno × Option Bytes × Bytes :=
  if row = 0 ∨ column = 0 ∨ output.length < begin ∨ intMax < output.length - begin then (some .einval, cache, output)
  else
    let text := output.drop begin
    let old := cache.getD []
    if cache = some text then (none, cache, output.take begin)
    else
      match lib.renderChange text old with
      | none => (some .eilseq, cache, output)
      | some at_ =>
        let stop := (renderEnds text old at_.start text.length old.length).1
        if 2 ^ 64 - 1 - column < at_.cells then (some .eoverflow, cache, output)
        else if !stored then (some .enomem, cache, output)
        else if stop ≤ at_.start then (none, cache.map fun _ => text, output.take begin)
        else if !printed then (some .enomem, cache.map fun _ => [], output.take begin)
        else
          let style := if text.getD at_.start 0 = 0x1b then [] else (text.drop at_.style.1).take at_.style.2
          (none, cache.map fun _ => text, output.take begin ++ (cursorTo row (column + at_.cells) ++ cstr style ++
              cstr ((text.drop at_.start).take (stop - at_.start))))

/-! ## The tokens of a row -/

/-- The bytes of a sequence, `ESC [ parameters m`, or of a character. -/
def inkBytes : Ink Char Bytes → Bytes
  | .style s => 0x1b :: 0x5b :: s ++ [0x6d]
  | .glyph c => String.utf8EncodeChar c

/-- The text of a row. -/
def rowBytes (inks : List (Ink Char Bytes)) : Bytes :=
  inks.flatMap inkBytes

/-- The cells of a character on a terminal. -/
def Utf8proc.width (lib : Utf8proc) (c : Char) : Nat :=
  (lib.charCells c).getD 0

/-- A sequence with nothing but digits, colons and semicolons between its ends, or a character for which there are
cells. -/
def Utf8proc.Safe (lib : Utf8proc) : Ink Char Bytes → Prop
  | .style s => ∀ b ∈ s, 48 ≤ b ∧ b ≤ 59
  | .glyph c => lib.charCells c ≠ none

/-- What `cli_render_row` is passed: terminal-safe characters and complete sequences, none of these or one before all
else, of a number of cells. -/
structure RowText (lib : Utf8proc) (cells : Nat) (inks : List (Ink Char Bytes)) : Prop where
  safe : ∀ ink ∈ inks, lib.Safe ink
  begins : PlainInks inks ∨ StyledInks inks
  cells : inkWidth lib.width inks = cells

/-- The cells that `cli_render_token` finds. -/
def Utf8proc.tokenCells (lib : Utf8proc) : Ink Char Bytes → Int
  | .style _ => -1
  | .glyph c => lib.rawCells c

variable {lib : Utf8proc} {i j : Ink Char Bytes} {c : Char}

theorem rowBytes_append (l m : List (Ink Char Bytes)) : rowBytes (l ++ m) = rowBytes l ++ rowBytes m :=
  flatMap_append

theorem rowBytes_cons (i : Ink Char Bytes) (l : List (Ink Char Bytes)) : rowBytes (i :: l) = inkBytes i ++ rowBytes l :=
  flatMap_cons

theorem rowBytes_concat (l : List (Ink Char Bytes)) (i : Ink Char Bytes) : rowBytes (l ++ [i]) = rowBytes l ++ inkBytes i := by
  rw [rowBytes_append, rowBytes_cons]
  exact congrArg _ (append_nil _)

theorem inkBytes_pos (i : Ink Char Bytes) : 0 < (inkBytes i).length := by
  cases i with
  | style s => exact Nat.succ_pos _
  | glyph c => exact length_encode_pos c

theorem rowBytes_pos {l : List (Ink Char Bytes)} (some_ : l ≠ []) : 0 < (rowBytes l).length := by
  obtain ⟨i, l, rfl⟩ := exists_cons_of_ne_nil some_
  rw [rowBytes_cons, length_append]
  exact Nat.add_pos_left (inkBytes_pos i) _

namespace Utf8proc

theorem rawCells_nonneg (shown : lib.charCells c ≠ none) : 0 ≤ lib.rawCells c := by
  rw [charCells_eq] at shown
  by_contra negative
  exact shown (if_pos (Int.not_le.mp negative))

theorem width_eq (shown : lib.charCells c ≠ none) : lib.width c = (lib.rawCells c).toNat := by
  have some_ := rawCells_nonneg shown
  rw [width, charCells_eq, if_neg (Int.not_lt.mpr some_)]
  rfl

theorem width_space : lib.width ' ' = 1 := rfl

/-- No control character is shown. -/
theorem printable (shown : lib.charCells c ≠ none) : 0x20 ≤ c.toNat ∧ c.toNat ≠ 0x7f := by
  by_contra control
  apply shown
  rw [charCells]
  exact if_pos (by omega)

/-- The bytes of a character that is shown are no control characters. -/
theorem bytes_shown (shown : lib.charCells c ≠ none) : ∀ b ∈ String.utf8EncodeChar c, 0x20 ≤ b ∧ b ≠ 0x7f := by
  intro b among
  obtain ⟨low, del⟩ := printable shown
  by_cases high : 0x80 ≤ c.toNat
  · have large := utf8EncodeChar_high high b among
    constructor
    · exact UInt8.le_trans (show (0x20 : UInt8) ≤ 0x80 by decide) large
    · rintro rfl
      exact absurd large (by decide)
  · have ascii : c.toNat < 0x80 := Nat.not_le.mp high
    obtain ⟨first, length⟩ := headD_ascii ascii []
    obtain ⟨d, single⟩ := length_eq_one_iff.mp length
    rw [single] at among first
    rw [mem_singleton.mp among, show d = UInt8.ofNat c.toNat from first]
    constructor
    · exact UInt8.not_lt.mp fun less => absurd ((ofNat_lt_iff (n := 0x20) (by omega) (by omega)).mp less) (by omega)
    · exact fun is => del ((ofNat_inj (n := 0x7f) (by omega) (by omega)).mp is)

end Utf8proc

/-- The first byte tells a sequence from a character. -/
theorem headD_inkBytes (safe : lib.Safe i) (rest : Bytes) :
    (inkBytes i ++ rest).headD 0 = 0x1b ↔ ∃ s, i = .style s := by
  cases i with
  | style s => exact ⟨fun _ => ⟨s, rfl⟩, fun _ => rfl⟩
  | glyph c =>
    constructor
    · intro escape
      obtain ⟨b, tail, bytes⟩ := exists_cons_of_length_pos (length_encode_pos c)
      rw [inkBytes, bytes] at escape
      have first := (Utf8proc.bytes_shown safe b (by rw [bytes]; exact mem_cons_self)).1
      rw [show b = 0x1b from escape] at first
      exact absurd first (by decide)
    · rintro ⟨s, is⟩
      exact nomatch is

/-- The last byte tells a space. -/
theorem getLast_inkBytes (safe : lib.Safe i) : (inkBytes i).getLast? = some 32 ↔ i = .glyph ' ' := by
  cases i with
  | style s =>
    rw [inkBytes, List.getLast?_append]
    exact ⟨fun is => absurd (Option.some.inj is) (by decide), fun is => nomatch is⟩
  | glyph c =>
    constructor
    · intro space
      have among : 32 ∈ String.utf8EncodeChar c := mem_of_getLast? space
      have ascii : c.toNat < 0x80 := by
        by_contra high
        have large := utf8EncodeChar_high (Nat.not_lt.mp high) 32 among
        exact absurd large (by decide)
      obtain ⟨first, length⟩ := Utf8proc.headD_ascii ascii []
      obtain ⟨d, single⟩ := length_eq_one_iff.mp length
      rw [single] at among first
      have value : UInt8.ofNat c.toNat = UInt8.ofNat 32 := by
        rw [← show d = UInt8.ofNat c.toNat from first, ← mem_singleton.mp among]
        rfl
      have is : c = ' ' := by
        apply Char.ext
        apply UInt32.toNat_inj.mp
        exact (Utf8proc.ofNat_inj (Nat.lt_trans ascii (by decide)) (by decide)).mp value
      rw [is]
    · intro is
      rw [(Ink.glyph.injEq c ' ').mp is]
      rfl

theorem style_inside {s : Bytes} (safe : lib.Safe (.style s)) : (0x6d : UInt8) ∉ 0x1b :: 0x5b :: s := by
  intro among
  obtain is | among := mem_cons.mp among
  · exact absurd is (by decide)
  · obtain is | among := mem_cons.mp among
    · exact absurd is (by decide)
    · exact absurd (safe _ among).2 (by decide)

theorem Utf8proc.renderToken_ink (law : lib.Lawful) (safe : lib.Safe i) (rest : Bytes) :
    lib.renderToken (inkBytes i ++ rest) = ((inkBytes i).length, lib.tokenCells i) := by
  rw [renderToken]
  cases i with
  | style s =>
    have ends : inkBytes (.style s) ++ rest = (0x1b :: 0x5b :: s) ++ 0x6d :: rest :=
      (append_assoc _ _ _).trans rfl
    have found : (0x6d : UInt8) ∈ inkBytes (.style s) ++ rest := by
      rw [ends]
      exact mem_append_right _ mem_cons_self
    have first : (inkBytes (.style s) ++ rest).headD 0 = 0x1b := rfl
    rw [if_pos first, if_pos found, ends, idxOf_append_of_notMem (style_inside safe), idxOf_cons_self, inkBytes,
      length_append]
    rfl
  | glyph c =>
    have other : ¬ (inkBytes (.glyph c) ++ rest).headD 0 = 0x1b := by
      rw [headD_inkBytes safe]
      rintro ⟨s, is⟩
      exact nomatch is
    have some_ : ¬ lib.rawCells c < 0 := Int.not_lt.mpr (rawCells_nonneg safe)
    rw [if_neg other, inkBytes, renderCharacter_eq law, tokenCells]
    dsimp only
    rw [if_neg some_]

/-- No token is the beginning of another. -/
theorem inkBytes_append (safe : lib.Safe i) (safe' : lib.Safe j) {s t : Bytes}
    (same : inkBytes i ++ s = inkBytes j ++ t) : i = j ∧ s = t := by
  have kind : (∃ s, i = .style s) ↔ ∃ s, j = .style s := by
    rw [← headD_inkBytes safe s, same, headD_inkBytes safe' t]
  cases i with
  | style a =>
    obtain ⟨b, rfl⟩ := kind.mp ⟨a, rfl⟩
    have left : inkBytes (.style a) ++ s = (0x1b :: 0x5b :: a) ++ 0x6d :: s := (append_assoc _ _ _).trans rfl
    have right : inkBytes (.style b) ++ t = (0x1b :: 0x5b :: b) ++ 0x6d :: t := (append_assoc _ _ _).trans rfl
    rw [left, right] at same
    have length : (0x1b :: 0x5b :: a).length = (0x1b :: 0x5b :: b).length := by
      have places := congrArg (List.idxOf (0x6d : UInt8)) same
      rw [idxOf_append_of_notMem (style_inside safe), idxOf_append_of_notMem (style_inside safe'),
        idxOf_cons_self, idxOf_cons_self] at places
      exact places
    obtain ⟨front, back⟩ := append_inj same length
    exact ⟨congrArg Ink.style (List.cons.inj (List.cons.inj front).2).2, (List.cons.inj back).2⟩
  | glyph c =>
    cases j with
    | style b => exact absurd (kind.mpr ⟨b, rfl⟩) fun ⟨s, is⟩ => nomatch is
    | glyph d =>
      obtain ⟨is, rest⟩ := utf8EncodeChar_append same
      exact ⟨congrArg Ink.glyph is, rest⟩

/-! ## Where the change begins -/

/-- The place of the last sequence in a text. -/
def Styles (inks : List (Ink Char Bytes)) (style : Nat × Nat) : Prop :=
  PlainInks inks ∧ style = (0, 0) ∨
    ∃ front s rest, inks = front ++ .style s :: rest ∧ PlainInks rest ∧
      style = ((rowBytes front).length, (inkBytes (.style s)).length)

theorem Styles.concat_style (inks : List (Ink Char Bytes)) (s : Bytes) :
    Styles (inks ++ [.style s]) ((rowBytes inks).length, (inkBytes (.style s)).length) := by
  right
  exact ⟨inks, s, [], rfl, (fun _ among => nomatch among), rfl⟩

theorem Styles.concat_glyph {inks : List (Ink Char Bytes)} {style : Nat × Nat} (styles : Styles inks style) (c : Char) :
    Styles (inks ++ [.glyph c]) style := by
  have glyph : PlainInks [Ink.glyph (σ := Bytes) c] := by
    intro s among
    exact nomatch mem_singleton.mp among
  obtain ⟨plain, is⟩ | ⟨front, s, rest, rfl, plain, is⟩ := styles
  · left
    exact ⟨plainInks_append.mpr ⟨plain, glyph⟩, is⟩
  · right
    refine ⟨front, s, rest ++ [.glyph c], ?_, plainInks_append.mpr ⟨plain, glyph⟩, is⟩
    rw [append_assoc, cons_append]

/-- What the variables say of the tokens that are done: their bytes and cells, the sequence in force, and all of these
at the last character with cells. -/
structure CliRenderAt.Reached (at_ : CliRenderAt) (lib : Utf8proc) (done : List (Ink Char Bytes)) : Prop where
  start : at_.start = (rowBytes done).length
  cells : at_.cells = inkWidth lib.width done
  style : Styles done at_.style
  base : ∃ front rest, done = front ++ rest ∧ at_.base = (rowBytes front).length ∧
    at_.baseCells = inkWidth lib.width front ∧ Styles front at_.baseStyle ∧
    (front = [] ∨ ∃ c more, rest = .glyph c :: more ∧ lib.width c ≠ 0)

variable {at_ : CliRenderAt} {done : List (Ink Char Bytes)}

theorem CliRenderAt.Reached.base_concat (reached : at_.Reached lib done) (i : Ink Char Bytes) :
    ∃ front rest, done ++ [i] = front ++ rest ∧ at_.base = (rowBytes front).length ∧
      at_.baseCells = inkWidth lib.width front ∧ Styles front at_.baseStyle ∧
      (front = [] ∨ ∃ c more, rest = .glyph c :: more ∧ lib.width c ≠ 0) := by
  obtain ⟨front, rest, is, base, cells, style, first⟩ := reached.base
  refine ⟨front, rest ++ [i], by rw [is, append_assoc], base, cells, style, ?_⟩
  apply first.imp_right
  rintro ⟨c, more, rfl, some_⟩
  exact ⟨c, more ++ [i], rfl, some_⟩

theorem CliRenderAt.Reached.past (reached : at_.Reached lib done) (safe : lib.Safe i) :
    (at_.past (inkBytes i).length (lib.tokenCells i)).Reached lib (done ++ [i]) := by
  have start : at_.start + (inkBytes i).length = (rowBytes (done ++ [i])).length := by
    rw [reached.start, rowBytes_concat, length_append]
  rw [CliRenderAt.past]
  cases i with
  | style s =>
    have negative : lib.tokenCells (.style s) < 0 := by
      rw [Utf8proc.tokenCells]
      decide
    rw [if_pos negative]
    refine ⟨start, ?_, ?_, reached.base_concat _⟩
    · rw [inkWidth_append]
      exact reached.cells
    · dsimp only
      rw [reached.start]
      exact Styles.concat_style done s
  | glyph c =>
    have raw : lib.tokenCells (.glyph c) = lib.rawCells c := rfl
    have some_ := Utf8proc.rawCells_nonneg safe
    have width := Utf8proc.width_eq safe
    have cells : inkWidth lib.width (done ++ [.glyph c]) = at_.cells + (lib.rawCells c).toNat := by
      rw [inkWidth_append, reached.cells, ← width]
      rfl
    rw [raw, if_neg (Int.not_lt.mpr some_)]
    split
    · next wide =>
      refine ⟨start, cells.symm, reached.style.concat_glyph c, ?_⟩
      refine ⟨done, [.glyph c], rfl, reached.start, reached.cells, reached.style, .inr ⟨c, [], rfl, ?_⟩⟩
      rw [width]
      omega
    · next mark =>
      refine ⟨start, ?_, reached.style.concat_glyph c, reached.base_concat _⟩
      rw [cells, Decidable.not_not.mp mark]
      rfl

namespace Utf8proc

variable {xs : List (Ink Char Bytes)}

/-- The first loop stops after tokens that both rows begin with. -/
theorem renderCommon_spec (law : lib.Lawful) (safe : ∀ i ∈ xs, lib.Safe i) :
    ∀ {done os : List (Ink Char Bytes)} {at_ : CliRenderAt}, (∀ i ∈ os, lib.Safe i) → at_.Reached lib done →
      ∃ front xs' os' at', xs = front ++ xs' ∧ os = front ++ os' ∧ at'.Reached lib (done ++ front) ∧
        lib.renderCommon (rowBytes (done ++ xs)) (rowBytes (done ++ os)) at_ = some at' := by
  induction xs with
  | nil =>
    intro done os at_ safe' reached
    refine ⟨[], [], os, at_, rfl, rfl, by rwa [append_nil], ?_⟩
    rw [renderCommon, dif_neg]
    rw [append_nil, reached.start]
    exact fun inside => Nat.lt_irrefl _ inside.1
  | cons i xs ih =>
    intro done os at_ safe' reached
    cases os with
    | nil =>
      refine ⟨[], i :: xs, [], at_, rfl, rfl, by rwa [append_nil], ?_⟩
      rw [renderCommon, dif_neg]
      rw [append_nil, reached.start]
      exact fun inside => Nat.lt_irrefl _ inside.2
    | cons j os =>
      have here : ∀ k l, (rowBytes (done ++ k :: l)).drop at_.start = inkBytes k ++ rowBytes l := by
        intro k l
        rw [rowBytes_append, reached.start, drop_left, rowBytes_cons]
      have inside : ∀ k l, at_.start < (rowBytes (done ++ k :: l)).length := by
        intro k l
        have some_ := inkBytes_pos k
        rw [rowBytes_append, rowBytes_cons, reached.start, length_append, length_append]
        omega
      have token : lib.renderToken ((rowBytes (done ++ i :: xs)).drop at_.start) =
          ((inkBytes i).length, lib.tokenCells i) := by
        rw [here, renderToken_ink law (safe i mem_cons_self)]
      rw [renderCommon, dif_pos ⟨inside i xs, inside j os⟩, token]
      dsimp only
      rw [dif_neg (Nat.ne_of_gt (inkBytes_pos i))]
      by_cases same : i = j
      · have equal : (inkBytes i).length ≤ (rowBytes (done ++ j :: os)).length - at_.start ∧
            ((rowBytes (done ++ i :: xs)).drop at_.start).take (inkBytes i).length =
              ((rowBytes (done ++ j :: os)).drop at_.start).take (inkBytes i).length := by
          rw [← length_drop, here, here, ← same, take_left, take_left, length_append]
          exact ⟨Nat.le_add_right _ _, rfl⟩
        rw [if_pos equal, ← same]
        have next := reached.past (safe i mem_cons_self)
        obtain ⟨front, xs', os', at', is, is', reached', run⟩ :=
          ih (fun k among => safe k (mem_cons_of_mem _ among))
            (fun k among => safe' k (mem_cons_of_mem _ among)) next
        rw [append_assoc, append_assoc] at run
        rw [append_assoc] at reached'
        refine ⟨i :: front, xs', os', at', ?_, ?_, reached', run⟩
        · rw [is, cons_append]
        · rw [is', cons_append]
      · have other : ¬ ((inkBytes i).length ≤ (rowBytes (done ++ j :: os)).length - at_.start ∧
            ((rowBytes (done ++ i :: xs)).drop at_.start).take (inkBytes i).length =
              ((rowBytes (done ++ j :: os)).drop at_.start).take (inkBytes i).length) := by
          rintro ⟨-, equal⟩
          rw [here, here, take_left] at equal
          have front := take_append_drop (inkBytes i).length (inkBytes j ++ rowBytes os)
          rw [← equal] at front
          exact same (inkBytes_append (safe i mem_cons_self) (safe' j mem_cons_self) front).1
        rw [if_neg other]
        exact ⟨[], i :: xs, j :: os, at_, rfl, rfl, by rwa [append_nil], rfl⟩

theorem renderCombining_spec (law : lib.Lawful) (safe : ∀ i ∈ xs, lib.Safe i) :
    ∃ combining, lib.renderCombining (rowBytes xs) = some combining ∧ (combining = true ↔ MarksFirst lib.width xs) := by
  induction xs with
  | nil =>
    refine ⟨false, ?_, fun is => absurd is Bool.false_ne_true, fun is => absurd is id⟩
    rw [renderCombining]
    exact dif_pos rfl
  | cons i xs ih =>
    have some_ : rowBytes (i :: xs) ≠ [] := by
      apply ne_nil_of_length_pos
      exact rowBytes_pos (cons_ne_nil i xs)
    have safeHead := safe i mem_cons_self
    have token : lib.renderToken (rowBytes (i :: xs)) = ((inkBytes i).length, lib.tokenCells i) := by
      rw [rowBytes_cons, renderToken_ink law safeHead]
    rw [renderCombining, dif_neg some_, token]
    dsimp only
    rw [dif_neg (Nat.ne_of_gt (inkBytes_pos i))]
    cases i with
    | style s =>
      have negative : ¬ 0 ≤ lib.tokenCells (.style s) := by
        rw [tokenCells]
        decide
      rw [if_neg negative, rowBytes_cons, drop_left]
      exact ih fun k among => safe k (mem_cons_of_mem _ among)
    | glyph c =>
      have cells := rawCells_nonneg safeHead
      have raw : lib.tokenCells (.glyph c) = lib.rawCells c := rfl
      rw [raw, if_pos cells]
      refine ⟨_, rfl, ?_⟩
      rw [decide_eq_true_iff, MarksFirst, width_eq safeHead]
      omega

/-- The change begins after tokens that both rows begin with, and neither row goes on with a mark, unless all of it has
changed. -/
theorem renderChange_spec (law : lib.Lawful) {text old : List (Ink Char Bytes)} (safe : ∀ i ∈ text, lib.Safe i)
    (safe' : ∀ i ∈ old, lib.Safe i) : ∃ front xs os at_, text = front ++ xs ∧ old = front ++ os ∧
      lib.renderChange (rowBytes text) (rowBytes old) = some at_ ∧ at_.start = (rowBytes front).length ∧
      at_.cells = inkWidth lib.width front ∧ Styles front at_.style ∧
      (front = [] ∨ ¬ MarksFirst lib.width xs ∧ ¬ MarksFirst lib.width os) := by
  have none_ : (⟨0, 0, 0, 0, (0, 0), (0, 0)⟩ : CliRenderAt).Reached lib [] := by
    have plain : Styles [] (0, 0) := .inl ⟨(fun _ among => nomatch among), rfl⟩
    exact ⟨rfl, rfl, plain, [], [], rfl, rfl, rfl, plain, .inl rfl⟩
  obtain ⟨front, xs, os, at_, rfl, rfl, reached, common⟩ := renderCommon_spec law safe safe' none_
  rw [nil_append] at reached
  rw [nil_append, nil_append] at common
  have tail : ∀ l, (rowBytes (front ++ l)).drop at_.start = rowBytes l := by
    intro l
    rw [rowBytes_append, reached.start, drop_left]
  obtain ⟨a, aIs, marks⟩ := renderCombining_spec law fun i among => safe i (mem_append_right front among)
  obtain ⟨b, bIs, marks'⟩ := renderCombining_spec law fun i among => safe' i (mem_append_right front among)
  have change : lib.renderChange (rowBytes (front ++ xs)) (rowBytes (front ++ os)) =
      if a ∨ b then some { at_ with start := at_.base, cells := at_.baseCells, style := at_.baseStyle } else some at_ := by
    rw [renderChange, common]
    change (lib.renderCombining _ >>= fun combining => lib.renderCombining _ >>= fun oldCombining => _) = _
    rw [tail, tail, aIs, bIs]
    rfl
  rw [change]
  by_cases mark : a ∨ b
  · obtain ⟨back, rest, is, base, cells, style, first⟩ := reached.base
    refine ⟨back, rest ++ xs, rest ++ os, _, ?_, ?_, if_pos mark, base, cells, style, ?_⟩
    · rw [is, append_assoc]
    · rw [is, append_assoc]
    · apply first.imp_right
      rintro ⟨c, more, rfl, some_⟩
      exact ⟨some_, some_⟩
  · rw [not_or, marks, marks'] at mark
    refine ⟨front, xs, os, at_, rfl, rfl, ?_, reached.start, reached.cells, reached.style, .inr mark⟩
    rw [if_neg]
    rw [not_or, marks, marks']
    exact mark

end Utf8proc

/-! ## Where the change ends -/

theorem getD_rowBytes_concat {l : List (Ink Char Bytes)} (safe : lib.Safe i) (tail : Bytes) :
    (rowBytes (l ++ [i]) ++ tail).getD ((rowBytes (l ++ [i])).length - 1) 0 = 32 ↔ i = .glyph ' ' := by
  have some_ := inkBytes_pos i
  have place : (rowBytes l).length + (inkBytes i).length - 1 = (rowBytes l).length + ((inkBytes i).length - 1) := by omega
  rw [← getLast_inkBytes safe, rowBytes_concat, append_assoc, length_append, place, getD_eq_getElem?_getD,
    List.getElem?_append_right (Nat.le_add_right _ _), Nat.add_sub_cancel_left, List.getElem?_append_left (by omega),
    List.getLast?_eq_getElem?]
  constructor
  · intro is
    have inside : (inkBytes i).length - 1 < (inkBytes i).length := by omega
    rw [List.getElem?_eq_getElem inside, Option.getD_some] at is
    rw [List.getElem?_eq_getElem inside, is]
  · intro is
    rw [is]
    rfl

/-- The last loop takes off spaces that both rows end in. -/
theorem renderEnds_spec (front : List (Ink Char Bytes)) (safe : ∀ i ∈ xs, lib.Safe i) :
    ∀ {os : List (Ink Char Bytes)} (tail tail' : Bytes), (∀ i ∈ os, lib.Safe i) →
      ∃ new old k, xs = new ++ spaces ' ' k ∧ os = old ++ spaces ' ' k ∧
        renderEnds (rowBytes (front ++ xs) ++ tail) (rowBytes (front ++ os) ++ tail') (rowBytes front).length
          (rowBytes (front ++ xs)).length (rowBytes (front ++ os)).length =
          ((rowBytes (front ++ new)).length, (rowBytes (front ++ old)).length) := by
  induction xs using List.reverseRecOn with
  | nil =>
    intro os tail tail' safe'
    refine ⟨[], os, 0, rfl, (append_nil _).symm, ?_⟩
    rw [renderEnds, if_neg]
    rw [append_nil]
    exact fun inside => Nat.lt_irrefl _ inside.1
  | append_singleton xs i ih =>
    intro os tail tail' safe'
    induction os using List.reverseRecOn with
    | nil =>
      refine ⟨xs ++ [i], [], 0, (append_nil _).symm, rfl, ?_⟩
      rw [renderEnds, if_neg]
      rw [append_nil]
      exact fun inside => Nat.lt_irrefl _ inside.2.1
    | append_singleton os j =>
      have inside : ∀ l k, (rowBytes front).length < (rowBytes (front ++ (l ++ [k]))).length := by
        intro l k
        have some_ := inkBytes_pos k
        rw [← append_assoc, rowBytes_concat, rowBytes_append, length_append, length_append]
        omega
      have last : ∀ l k t, lib.Safe k → ((rowBytes (front ++ (l ++ [k])) ++ t).getD
          ((rowBytes (front ++ (l ++ [k]))).length - 1) 0 = 32 ↔ k = .glyph ' ') := by
        intro l k t safeLast
        rw [← append_assoc]
        exact getD_rowBytes_concat safeLast t
      have safeI := safe i (mem_append_right _ mem_cons_self)
      have safeJ := safe' j (mem_append_right _ mem_cons_self)
      by_cases both : i = .glyph ' ' ∧ j = .glyph ' '
      · have step : (rowBytes front).length < (rowBytes (front ++ (xs ++ [i]))).length ∧
            (rowBytes front).length < (rowBytes (front ++ (os ++ [j]))).length ∧
            (rowBytes (front ++ (xs ++ [i])) ++ tail).getD ((rowBytes (front ++ (xs ++ [i]))).length - 1) 0 = 32 ∧
            (rowBytes (front ++ (os ++ [j])) ++ tail').getD ((rowBytes (front ++ (os ++ [j]))).length - 1) 0 = 32 :=
          ⟨inside xs i, inside os j, (last xs i tail safeI).mpr both.1, (last os j tail' safeJ).mpr both.2⟩
        have shorter : ∀ l k, k = Ink.glyph ' ' → (rowBytes (front ++ (l ++ [k]))).length - 1 =
            (rowBytes (front ++ l)).length := by
          rintro l k rfl
          rw [← append_assoc, rowBytes_concat, length_append]
          rfl
        have bytes : ∀ l k t, rowBytes (front ++ (l ++ [k])) ++ t = rowBytes (front ++ l) ++ (inkBytes k ++ t) := by
          intro l k t
          rw [← append_assoc front, rowBytes_concat, append_assoc]
        obtain ⟨new, old, k, is, is', run⟩ := ih (fun m among => safe m (mem_append_left _ among))
          (inkBytes i ++ tail) (inkBytes j ++ tail')
          (fun m among => safe' m (mem_append_left [j] among))
        refine ⟨new, old, k + 1, ?_, ?_, ?_⟩
        · rw [is, both.1, spaces, spaces, replicate_succ', append_assoc]
        · rw [is', both.2, spaces, spaces, replicate_succ', append_assoc]
        · rw [renderEnds, if_pos step, shorter xs i both.1, shorter os j both.2, bytes, bytes]
          exact run
      · refine ⟨xs ++ [i], os ++ [j], 0, (append_nil _).symm, (append_nil _).symm, ?_⟩
        rw [renderEnds, if_neg]
        rintro ⟨-, -, space, space'⟩
        exact both ⟨(last xs i tail safeI).mp space, (last os j tail' safeJ).mp space'⟩

end Askai
