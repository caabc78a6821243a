import Mathlib.Data.List.Basic
import Mathlib.Tactic

/-!
# Rows of cells

A row of a screen on which a pen writes glyphs, some of which are marks on the cell before them, in styles. Two
texts that begin alike and end in as many spaces are the same but for what is between: a row that shows the one
shows the other once that has been written over it.
-/

namespace Askai.Library

/-- What is written: a style for what follows, or a glyph. -/
inductive Ink (α σ : Type*) where
  | style (s : σ)
  | glyph (a : α)
  deriving DecidableEq

/-- A cell: the glyph it belongs to and which of its cells it is, the marks on it, and its style. -/
structure InkCell (α σ : Type*) where
  base : α
  part : Nat
  marks : List α
  style : σ
  deriving DecidableEq

/-- A cell with one more mark. -/
def InkCell.mark {α σ : Type*} (cell : InkCell α σ) (a : α) : InkCell α σ :=
  { cell with marks := cell.marks ++ [a] }

/-- A row, and where and in which style the next glyph is written. -/
structure Pen (α σ : Type*) where
  cells : Nat → InkCell α σ
  column : Nat
  style : σ

section Painting

variable {α σ : Type*} (width : α → Nat)

namespace Pen

/-- A glyph without cells is a mark on the cell before it; another glyph replaces its cells. -/
def write (pen : Pen α σ) : Ink α σ → Pen α σ
  | .style s => { pen with style := s }
  | .glyph a =>
    if width a = 0 then
      { pen with
        cells := fun x =>
          if x + 1 = pen.column then (pen.cells x).mark a else pen.cells x }
    else
      { pen with
        cells := fun x =>
          if pen.column ≤ x ∧ x < pen.column + width a then ⟨a, x - pen.column, [], pen.style⟩ else pen.cells x
        column := pen.column + width a }

def writeAll (pen : Pen α σ) (inks : List (Ink α σ)) : Pen α σ :=
  inks.foldl (write width) pen

end Pen

/-- The cells of what is written. -/
def inkWidth : List (Ink α σ) → Nat
  | [] => 0
  | .style _ :: inks => inkWidth inks
  | .glyph a :: inks => width a + inkWidth inks

/-- The first glyph is a mark. -/
def MarksFirst : List (Ink α σ) → Prop
  | [] => False
  | .style _ :: inks => MarksFirst inks
  | .glyph a :: _ => width a = 0

variable {width}

/-- The style after what is written in another. -/
def inkStyle (s : σ) : List (Ink α σ) → σ
  | [] => s
  | .style s :: inks => inkStyle s inks
  | .glyph _ :: inks => inkStyle s inks

/-- No style is said. -/
def PlainInks (inks : List (Ink α σ)) : Prop := ∀ s, Ink.style s ∉ inks

/-- A style is said before all else. -/
def StyledInks (inks : List (Ink α σ)) : Prop := ∃ s rest, inks = .style s :: rest

variable {p q : Pen α σ} {inks more : List (Ink α σ)}

theorem Pen.writeAll_append : p.writeAll width (inks ++ more) = (p.writeAll width inks).writeAll width more :=
  List.foldl_append

theorem inkWidth_append (inks more : List (Ink α σ)) : inkWidth width (inks ++ more) = inkWidth width inks + inkWidth width more := by
  induction inks with
  | nil => exact (Nat.zero_add _).symm
  | cons ink inks ih =>
    cases ink with
    | style s => exact ih
    | glyph a =>
      change width a + inkWidth width (inks ++ more) = width a + inkWidth width inks + inkWidth width more
      rw [ih, Nat.add_assoc]

theorem marksFirst_append (not : ¬ MarksFirst width (inks ++ more)) : ¬ MarksFirst width inks := by
  induction inks with
  | nil => exact id
  | cons ink inks ih =>
    cases ink with
    | style s => exact ih not
    | glyph a => exact not

theorem inkStyle_append (s : σ) (inks more : List (Ink α σ)) : inkStyle s (inks ++ more) = inkStyle (inkStyle s inks) more := by
  induction inks generalizing s with
  | nil => rfl
  | cons ink inks ih =>
    cases ink with
    | style s => exact ih s
    | glyph a => exact ih s

theorem inkStyle_plain (plain : PlainInks inks) (s : σ) : inkStyle s inks = s := by
  induction inks with
  | nil => rfl
  | cons ink inks ih =>
    cases ink with
    | style s' => exact absurd List.mem_cons_self (plain s')
    | glyph a => exact ih fun s' among => plain s' (List.mem_cons_of_mem _ among)

theorem Pen.column_writeAll (p : Pen α σ) (inks : List (Ink α σ)) :
    (p.writeAll width inks).column = p.column + inkWidth width inks := by
  induction inks generalizing p with
  | nil => rfl
  | cons ink inks ih =>
    change ((p.write width ink).writeAll width inks).column = _
    rw [ih]
    cases ink with
    | style s => rfl
    | glyph a =>
      rw [Pen.write, inkWidth]
      split
      · next mark => rw [mark, Nat.zero_add]
      · exact Nat.add_assoc _ _ _

theorem Pen.style_writeAll (p : Pen α σ) (inks : List (Ink α σ)) :
    (p.writeAll width inks).style = inkStyle p.style inks := by
  induction inks generalizing p with
  | nil => rfl
  | cons ink inks ih =>
    change ((p.write width ink).writeAll width inks).style = _
    rw [ih]
    cases ink with
    | style s => rfl
    | glyph a =>
      rw [Pen.write, inkStyle]
      split
      · rfl
      · rfl

/-- What is far on the left of the pen stays. -/
theorem Pen.cells_far (p : Pen α σ) (inks : List (Ink α σ)) {x : Nat} (far : x + 1 < p.column) :
    (p.writeAll width inks).cells x = p.cells x := by
  induction inks generalizing p with
  | nil => rfl
  | cons ink inks ih =>
    change ((p.write width ink).writeAll width inks).cells x = _
    cases ink with
    | style s => exact ih (p.write width (.style s)) far
    | glyph a =>
      rw [Pen.write]
      split
      · refine (ih _ ?_).trans (if_neg (by omega))
        exact far
      · refine (ih _ ?_).trans (if_neg (by omega))
        exact Nat.lt_add_right _ far

/-- What is on the left of the pen stays, unless there is a mark for it. -/
theorem Pen.cells_left (p : Pen α σ) (not : ¬ MarksFirst width inks) {x : Nat} (left : x < p.column) :
    (p.writeAll width inks).cells x = p.cells x := by
  induction inks generalizing p with
  | nil => rfl
  | cons ink inks ih =>
    change ((p.write width ink).writeAll width inks).cells x = _
    cases ink with
    | style s => exact ih (p.write width (.style s)) not left
    | glyph a =>
      have some_ : width a ≠ 0 := not
      rw [Pen.write, if_neg some_]
      refine (Pen.cells_far _ _ ?_).trans (if_neg (by omega))
      dsimp only
      omega

/-- What is on the right of what is written stays. -/
theorem Pen.cells_right (p : Pen α σ) (inks : List (Ink α σ)) {x : Nat} (right : p.column + inkWidth width inks ≤ x) :
    (p.writeAll width inks).cells x = p.cells x := by
  induction inks generalizing p with
  | nil => rfl
  | cons ink inks ih =>
    change ((p.write width ink).writeAll width inks).cells x = _
    cases ink with
    | style s => exact ih (p.write width (.style s)) right
    | glyph a =>
      rw [inkWidth] at right
      rw [Pen.write]
      split
      · next mark =>
        refine (ih _ ?_).trans (if_neg (by omega))
        dsimp only
        omega
      · refine (ih _ ?_).trans (if_neg (by omega))
        dsimp only
        omega

/-- What is written does not depend on what was there. -/
theorem Pen.cells_congr (inks : List (Ink α σ)) (column : p.column = q.column) (style : p.style = q.style) (first : Nat)
    (agree : ∀ x, first ≤ x → x < p.column → p.cells x = q.cells x) {x : Nat} (behind : first ≤ x)
    (before : x < p.column + inkWidth width inks) : (p.writeAll width inks).cells x = (q.writeAll width inks).cells x := by
  induction inks generalizing p q with
  | nil => exact agree x behind before
  | cons ink inks ih =>
    change ((p.write width ink).writeAll width inks).cells x = ((q.write width ink).writeAll width inks).cells x
    cases ink with
    | style s => exact ih column rfl agree before
    | glyph a =>
      rw [inkWidth] at before
      rw [Pen.write, Pen.write]
      split
      · next mark =>
        refine ih column style ?_ (show x < p.column + inkWidth width inks by omega)
        intro y behind' before'
        dsimp only at before' ⊢
        rw [agree y behind' before', column]
      · refine ih (show p.column + width a = q.column + width a by rw [column]) style ?_
          (show x < p.column + width a + inkWidth width inks by omega)
        intro y behind' before'
        dsimp only at before' ⊢
        rw [← column, ← style]
        split
        · rfl
        · exact agree y behind' (by omega)

/-- The same, when the style is said first. -/
theorem Pen.cells_congr_styled (styled : StyledInks inks) (column : p.column = q.column) {x : Nat}
    (behind : p.column ≤ x) (before : x < p.column + inkWidth width inks) :
    (p.writeAll width inks).cells x = (q.writeAll width inks).cells x := by
  obtain ⟨s, rest, rfl⟩ := styled
  refine Pen.cells_congr (p := p.write width (.style s)) (q := q.write width (.style s)) rest column rfl p.column ?_ behind before
  intro y behind' before'
  exact absurd before' (Nat.not_lt.mpr behind')

/-! ## Spaces -/

variable (blank : α)

/-- Spaces at the end of a row. -/
def spaces (k : Nat) : List (Ink α σ) := List.replicate k (.glyph blank)

/-- A cell with nothing but a space in it. -/
def InkCell.Bare (cell : InkCell α σ) : Prop := cell.base = blank ∧ cell.marks = []

/-- The same in cells, and the same style unless there is only a space. -/
def InkCell.Like (cell other : InkCell α σ) : Prop :=
  cell.base = other.base ∧ cell.part = other.part ∧ cell.marks = other.marks ∧ (cell.Bare blank ∨ cell.style = other.style)

variable {blank}

theorem InkCell.Like.refl (cell : InkCell α σ) : cell.Like blank cell :=
  ⟨rfl, rfl, rfl, .inr rfl⟩

theorem inkWidth_spaces (one : width blank = 1) (k : Nat) : inkWidth width (spaces (σ := σ) blank k) = k := by
  induction k with
  | zero => rfl
  | succ k ih =>
    change width blank + inkWidth width (spaces blank k) = k + 1
    rw [ih, one, Nat.add_comm]

theorem not_marksFirst_spaces (one : width blank = 1) (k : Nat) : ¬ MarksFirst width (spaces (σ := σ) blank k) := by
  cases k with
  | zero => exact id
  | succ k =>
    change ¬ width blank = 0
    rw [one]
    exact Nat.one_ne_zero

theorem Pen.cells_spaces (one : width blank = 1) (k : Nat) (p : Pen α σ) {x : Nat} (behind : p.column ≤ x)
    (before : x < p.column + k) :
    ((p.writeAll width (spaces blank k)).cells x).Bare blank ∧ ((p.writeAll width (spaces blank k)).cells x).part = 0 := by
  induction k generalizing p with
  | zero => omega
  | succ k ih =>
    change ((((p.write width (.glyph blank)).writeAll width (spaces blank k)).cells x).Bare blank) ∧
      ((((p.write width (.glyph blank)).writeAll width (spaces blank k)).cells x).part = 0)
    have column : (p.write width (.glyph blank)).column = p.column + 1 := by
      rw [Pen.write, if_neg (by omega), one]
    by_cases here : x = p.column
    · have written : (p.write width (.glyph blank)).cells x = ⟨blank, 0, [], p.style⟩ := by
        rw [Pen.write, if_neg (by omega), here, one]
        dsimp only
        rw [if_pos ⟨Nat.le_refl _, Nat.lt_succ_self _⟩, Nat.sub_self]
      rw [Pen.cells_left _ (not_marksFirst_spaces one k) (by omega), written]
      exact ⟨⟨rfl, rfl⟩, rfl⟩
    · exact ih _ (by omega) (by omega)

/-! ## Repainting -/

/-- A row shows a text from a column on, in the style of its pen where the text tells none. -/
def Pen.Shows (t : Pen α σ) (width : α → Nat) (blank : α) (first : Nat) (inks : List (Ink α σ)) : Prop :=
  ∀ p : Pen α σ, p.column = first → (PlainInks inks → p.style = t.style) → ∀ x, first ≤ x → x < first + inkWidth width inks →
    (t.cells x).Like blank ((p.writeAll width inks).cells x)

theorem plainInks_append : PlainInks (inks ++ more) ↔ PlainInks inks ∧ PlainInks more := by
  refine ⟨fun all => ⟨fun s among => all s (List.mem_append_left _ among), fun s among => all s (List.mem_append_right _ among)⟩,
    fun both s among => ?_⟩
  obtain front | back := List.mem_append.mp among
  · exact both.1 s front
  · exact both.2 s back

theorem StyledInks.front (styled : StyledInks (inks ++ more)) (some_ : inks ≠ []) : StyledInks inks := by
  obtain ⟨s, rest, is⟩ := styled
  cases inks with
  | nil => exact absurd rfl some_
  | cons ink inks => exact ⟨s, inks, by rw [(List.cons.inj is).1]⟩

/-- What has to be said before the middle of a text, for its style to be that after the front. -/
def Tells (front new more extra : List (Ink α σ)) : Prop :=
  new = [] ∧ extra = [] ∨ PlainInks (front ++ (new ++ more)) ∧ extra = [] ∨ StyledInks new ∧ extra = [] ∨
    ∃ s, extra = [.style s] ∧ ∀ other, inkStyle other front = s

variable {t : Pen α σ} {first k : Nat} {front old new extra : List (Ink α σ)}

theorem Tells.style (tells : Tells front new more extra) (plain : PlainInks (front ++ (new ++ more))) (s : σ) :
    inkStyle s (extra ++ new) = s := by
  obtain ⟨frontPlain, rest⟩ := plainInks_append.mp plain
  have newPlain := (plainInks_append.mp rest).1
  rw [inkStyle_append, inkStyle_plain newPlain]
  obtain ⟨-, rfl⟩ | ⟨-, rfl⟩ | ⟨-, rfl⟩ | ⟨s', rfl, after⟩ := tells
  · rfl
  · rfl
  · rfl
  · exact (after s).symm.trans (inkStyle_plain frontPlain s)

/-- A row that shows a text shows another of the same front and the same spaces at the end when its middle has been
written over the old one, unless a mark of the middle would belong to the front. -/
theorem Pen.Shows.repaint (one : width blank = 1)
    (shows_ : t.Shows width blank first (front ++ (old ++ spaces blank k)) ∨ front = [] ∧ k = 0)
    (same : k ≠ 0 → inkWidth width old = inkWidth width new)
    (apart : front = [] ∨ ¬ MarksFirst width (old ++ spaces blank k) ∧ ¬ MarksFirst width (new ++ spaces blank k))
    (begins : PlainInks (front ++ (new ++ spaces blank k)) ∨ StyledInks (front ++ (new ++ spaces blank k)))
    (tells : Tells front new (spaces blank k) extra) :
    (({ t with column := first + inkWidth width front } : Pen α σ).writeAll width (extra ++ new)).Shows width blank first
      (front ++ (new ++ spaces blank k)) := by
  intro p start style x behind before
  have blank_ := not_marksFirst_spaces (σ := σ) one k
  have extraWidth : inkWidth width extra = 0 := by
    obtain ⟨-, rfl⟩ | ⟨-, rfl⟩ | ⟨-, rfl⟩ | ⟨s', rfl, -⟩ := tells
    all_goals rfl
  have plainStyle : PlainInks (front ++ (new ++ spaces blank k)) → p.style = t.style := by
    intro plain
    rw [style plain, Pen.style_writeAll]
    exact tells.style plain t.style
  obtain ⟨pen, penIs⟩ : ∃ pen, pen = ({ t with column := first + inkWidth width front } : Pen α σ) := ⟨_, rfl⟩
  have penCells : pen.cells = t.cells := by rw [penIs]
  have penColumn : pen.column = first + inkWidth width front := by rw [penIs]
  have penStyle : pen.style = t.style := by rw [penIs]
  have painted : p.writeAll width (front ++ (new ++ spaces blank k)) =
      ((p.writeAll width front).writeAll width new).writeAll width (spaces blank k) := by
    rw [Pen.writeAll_append, Pen.writeAll_append]
  have after : (p.writeAll width front).column = first + inkWidth width front := by rw [Pen.column_writeAll, start]
  have behindAll : ((p.writeAll width front).writeAll width new).column =
      first + inkWidth width front + inkWidth width new := by rw [Pen.column_writeAll, after]
  rw [inkWidth_append, inkWidth_append, inkWidth_spaces one] at before
  rw [← penIs, Pen.writeAll_append, painted]
  have extraColumn : (pen.writeAll width extra).column = first + inkWidth width front := by
    rw [Pen.column_writeAll, penColumn, extraWidth, Nat.add_zero]
  have extraCells : ∀ y, (pen.writeAll width extra).cells y = t.cells y := by
    intro y
    rw [← penCells]
    obtain ⟨-, rfl⟩ | ⟨-, rfl⟩ | ⟨-, rfl⟩ | ⟨s', rfl, -⟩ := tells
    all_goals rfl
  by_cases inFront : x < first + inkWidth width front
  · have some_ : front ≠ [] := by
      rintro rfl
      exact absurd behind (Nat.not_le.mpr inFront)
    obtain ⟨oldApart, newApart⟩ := apart.resolve_left some_
    have known := shows_.resolve_right fun both => some_ both.1
    rw [Pen.cells_left _ (marksFirst_append newApart) (extraColumn ▸ inFront), extraCells,
      Pen.cells_left _ blank_ (by omega), Pen.cells_left _ (marksFirst_append newApart) (after ▸ inFront)]
    have shown := known { p with style := t.style } start (fun _ => rfl) x behind (by
      rw [inkWidth_append]
      omega)
    have oldAfter : (({ p with style := t.style } : Pen α σ).writeAll width front).column = first + inkWidth width front := by
      rw [Pen.column_writeAll]
      exact congrArg (· + _) start
    rw [Pen.writeAll_append, Pen.cells_left _ oldApart (by omega)] at shown
    have agree : (({ p with style := t.style } : Pen α σ).writeAll width front).cells x = (p.writeAll width front).cells x := by
      obtain ⟨r, is⟩ : ∃ r, r = ({ p with style := t.style } : Pen α σ) := ⟨_, rfl⟩
      have column : r.column = p.column := by rw [is]
      have cells : r.cells = p.cells := by rw [is]
      rw [← is]
      obtain plain | styled := begins
      · have same : r.style = p.style := by rw [is, plainStyle plain]
        exact Pen.cells_congr front column same first (fun y _ _ => by rw [cells]) behind (by omega)
      · exact Pen.cells_congr_styled (styled.front some_) column (by omega) (by omega)
    rw [agree] at shown
    exact shown
  · by_cases inNew : x < first + inkWidth width front + inkWidth width new
    · rw [Pen.cells_left _ blank_ (by omega)]
      have agree : ((pen.writeAll width extra).writeAll width new).cells x =
          ((p.writeAll width front).writeAll width new).cells x := by
        have columns : (pen.writeAll width extra).column = (p.writeAll width front).column := by rw [extraColumn, after]
        have styles : (pen.writeAll width extra).style = (p.writeAll width front).style →
            ((pen.writeAll width extra).writeAll width new).cells x =
              ((p.writeAll width front).writeAll width new).cells x := by
          intro sameStyle
          exact Pen.cells_congr new columns sameStyle (first + inkWidth width front)
            (fun y low high => by omega) (by omega) (by omega)
        obtain ⟨rfl, -⟩ | ⟨plain, rfl⟩ | ⟨styled, -⟩ | ⟨s, rfl, said⟩ := tells
        · exact absurd inNew inFront
        · apply styles
          rw [Pen.style_writeAll, Pen.style_writeAll, inkStyle_plain (plainInks_append.mp plain).1, plainStyle plain, penStyle]
          rfl
        · exact Pen.cells_congr_styled styled columns (by omega) (by omega)
        · apply styles
          rw [Pen.style_writeAll, Pen.style_writeAll, said]
          rfl
      rw [agree]
      exact .refl _
    · have ends : k ≠ 0 := by omega
      have known := shows_.resolve_right fun both => ends both.2
      have widths := same ends
      rw [Pen.cells_right _ _ (by omega), extraCells]
      obtain ⟨bare, part⟩ := Pen.cells_spaces one k ((p.writeAll width front).writeAll width new) (x := x) (by omega) (by omega)
      have shown := known { p with style := t.style } start (fun _ => rfl) x behind (by
        rw [inkWidth_append, inkWidth_append, inkWidth_spaces one]
        omega)
      obtain ⟨bare', part'⟩ := Pen.cells_spaces one k ((({ p with style := t.style } : Pen α σ).writeAll width front).writeAll
        width old) (x := x) (by
          rw [Pen.column_writeAll, Pen.column_writeAll]
          change p.column + _ + _ ≤ x
          omega) (by
          rw [Pen.column_writeAll, Pen.column_writeAll]
          change x < p.column + _ + _ + k
          omega)
      rw [Pen.writeAll_append, Pen.writeAll_append] at shown
      obtain ⟨base, parts, marks, -⟩ := shown
      refine ⟨base.trans (bare'.1.trans bare.1.symm), parts.trans (part'.trans part.symm),
        marks.trans (bare'.2.trans bare.2.symm), .inl ⟨base.trans bare'.1, marks.trans bare'.2⟩⟩

end Painting

end Askai.Library
