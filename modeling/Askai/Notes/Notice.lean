import Askai.Library.Search
import Askai.Library.TextLines
import Askai.Notes.Books
import Askai.Notes.History

/-!
# Notices

The notices that are appended to the results of tool calls, and how they are found at the end of a text
(`notice.c`, `notice.h`).
-/

namespace Askai

open Library List

/-- `NOTICE_NOTEBOOK`. -/
def noticeNotebook : Bytes := ascii "[askai: notebook %s]"

/-- `NOTICE_COMPACT`, where `PRIu64` is `lu`. -/
def noticeCompact : Bytes :=
  ascii "[askai: your context is %lu%% full, %lu of %lu tokens. Note what you need to keep, then call compact.]"

/-- `NOTICE_REMIND`. -/
def noticeRemind : Bytes :=
  ascii "[askai: your context is %lu%% full, %lu of %lu tokens. Now is a good time to write notes of what you have learned. Compaction removes the conversation, but not the notes.]"

/-- `NOTICE_LAST`. -/
def noticeLast : Bytes :=
  ascii "[askai: your next turn is your last: answer then, without calling tools.]"

/-- `notice_formats`. -/
def noticeFormats : List Bytes :=
  [noticeNotebook, noticeCompact, noticeRemind, noticeLast]

/-- `notice_arg`. -/
def noticeArg (conv : UInt8) (s : Bytes) : Nat :=
  if conv = 115 then
    match cut 93 s with
    | none => 0
    | some (name, _) => if (notesSelect name).isSome then name.length else 0
  else if conv = 117 then (s.takeWhile digit).length
  else 0

/-- `notice_is`. -/
def noticeIs (pattern s : Bytes) : Bool :=
  match pattern with
  | [] => s = []
  | c :: p =>
    if c = 37 ∧ p.head? ≠ some 37 then
      match _conversion : p.dropWhile (ascii "hljzt").contains with
      | [] => false
      | conv :: p' =>
        let n := noticeArg conv s
        if n = 0 then false else noticeIs p' (s.drop n)
    else if s.head? = some c then noticeIs (if c = 37 then p.tail else p) (s.drop 1)
    else false
termination_by pattern.length
decreasing_by
  · have shorter := (dropWhile_sublist (p := (ascii "hljzt").contains) (l := p)).length_le
    rw [_conversion, length_cons] at shorter
    rw [length_cons]
    omega
  · rw [length_cons]
    split
    · rw [length_tail]
      omega
    · omega

/-- A line that is a notice, of some format. -/
def isNotice (line : Bytes) : Bool :=
  noticeFormats.any fun pattern => noticeIs pattern line

/-! ## The matcher -/

/-- The digits of a number, of any number of them. -/
def Digits (s : Bytes) : Prop :=
  s ≠ [] ∧ ∀ c ∈ s, digit c = true

/-- What follows the numbers of the notice that asks for a call of compact. -/
def compactTail : Bytes :=
  ascii "tokens. Note what you need to keep, then call compact.]"

/-- What follows the numbers of the notice that reminds of the notes. -/
def remindTail : Bytes :=
  ascii "tokens. Now is a good time to write notes of what you have learned. Compaction removes the conversation, but not the notes.]"

/-- What the formats print, of a notebook's name and of digits. -/
inductive Notice : Bytes → Prop
  | notebook {name : Bytes} (selects : notesSelect name ≠ none) :
      Notice (ascii "[askai: notebook " ++ name ++ ascii "]")
  | compact {full used most : Bytes} (first : Digits full) (second : Digits used) (third : Digits most) :
      Notice (ascii "[askai: your context is " ++ full ++ ascii "% full, " ++ used ++ ascii " of " ++ most ++
        space :: compactTail)
  | remind {full used most : Bytes} (first : Digits full) (second : Digits used) (third : Digits most) :
      Notice (ascii "[askai: your context is " ++ full ++ ascii "% full, " ++ used ++ ascii " of " ++ most ++
        space :: remindTail)
  | last : Notice noticeLast

section Matcher

variable {p s lit : Bytes} {c : UInt8}

theorem noticeIs_nil (s : Bytes) : noticeIs [] s = true ↔ s = [] := by
  rw [noticeIs, decide_eq_true_iff]

theorem noticeIs_cons (other : c ≠ 37) :
    noticeIs (c :: p) s = true ↔ ∃ rest, s = c :: rest ∧ noticeIs p rest = true := by
  rw [noticeIs, if_neg fun percent => other percent.1, if_neg other]
  cases s with
  | nil => simp
  | cons b s =>
    rw [List.head?_cons, drop_one, tail_cons]
    split
    · next same =>
      obtain rfl := Option.some.inj same
      simp
    · next differs =>
      simp only [Bool.false_eq_true, false_iff]
      rintro ⟨rest, same, -⟩
      exact differs (congrArg some (List.cons.inj same).1)

theorem noticeIs_literal (plain : 37 ∉ lit) :
    noticeIs (lit ++ p) s = true ↔ ∃ rest, s = lit ++ rest ∧ noticeIs p rest = true := by
  induction lit generalizing s with
  | nil => simp
  | cons c lit ih =>
    rw [mem_cons, not_or] at plain
    rw [cons_append, noticeIs_cons (Ne.symm plain.1)]
    constructor
    · rintro ⟨rest, rfl, rest_⟩
      obtain ⟨rest', rfl, is⟩ := (ih plain.2).mp rest_
      exact ⟨rest', rfl, is⟩
    · rintro ⟨rest, rfl, is⟩
      exact ⟨lit ++ rest, rfl, (ih plain.2).mpr ⟨rest, rfl, is⟩⟩

theorem noticeIs_percent : noticeIs (37 :: 37 :: p) s = true ↔ ∃ rest, s = 37 :: rest ∧ noticeIs p rest = true := by
  rw [noticeIs, if_neg fun percent => percent.2 rfl, if_pos rfl, tail_cons]
  cases s with
  | nil => simp
  | cons b s =>
    rw [List.head?_cons, drop_one, tail_cons]
    split
    · next same =>
      obtain rfl := Option.some.inj same
      simp
    · next differs =>
      simp only [Bool.false_eq_true, false_iff]
      rintro ⟨rest, same, -⟩
      exact differs (congrArg some (List.cons.inj same).1)

/-- A number is taken up to the first byte that is no digit. -/
theorem noticeIs_number (next : ∀ b rest, noticeIs p (b :: rest) = true → digit b = false) :
    noticeIs (ascii "%lu" ++ p) s = true ↔
      ∃ number rest, s = number ++ rest ∧ Digits number ∧ noticeIs p rest = true := by
  have conversion : (108 :: 117 :: p : Bytes).dropWhile (ascii "hljzt").contains = 117 :: p := by
    rw [dropWhile_cons_of_pos (by decide), dropWhile_cons_of_neg (by decide)]
  have step : noticeIs (37 :: 108 :: 117 :: p) s = true ↔
      (s.takeWhile digit).length ≠ 0 ∧ noticeIs p (s.drop (s.takeWhile digit).length) = true := by
    rw [noticeIs, if_pos ⟨rfl, by simp⟩]
    split
    · next none_ =>
      rw [conversion] at none_
      exact nomatch none_
    · next conv p' some_ =>
      rw [conversion] at some_
      obtain ⟨rfl, rfl⟩ := List.cons.inj some_
      change (if (s.takeWhile digit).length = 0 then false else _) = true ↔ _
      split
      · next none_ => simp [none_]
      · next more => exact ⟨fun is => ⟨more, is⟩, And.right⟩
  change noticeIs (37 :: 108 :: 117 :: p) s = true ↔ _
  rw [step]
  constructor
  · rintro ⟨some_, is⟩
    refine ⟨s.takeWhile digit, _, (prefix_iff_eq_append.mp ( takeWhile_prefix digit)).symm,
      ⟨fun none_ => some_ (congrArg List.length none_), fun c => mem_takeWhile_imp⟩, is⟩
  · rintro ⟨number, rest, rfl, ⟨some_, all⟩, is⟩
    have whole : (number ++ rest).takeWhile digit = number := by
      rw [takeWhile_append_of_pos all]
      cases rest with
      | nil => rw [takeWhile_nil, append_nil]
      | cons b rest =>
        have stops := next b rest is
        rw [takeWhile_cons_of_neg (by rw [stops]; decide), append_nil]
    rw [whole, drop_left]
    exact ⟨fun none_ => some_ (length_eq_zero_iff.mp none_), is⟩

theorem isNotice_nil : isNotice [] = false := by
  have none_ : ∀ pattern ∈ noticeFormats, ¬ noticeIs pattern [] = true := by
    intro pattern member is
    have bracket : ∀ pattern ∈ noticeFormats, pattern.head? = some 91 := by decide +kernel
    obtain ⟨p, rfl⟩ := List.head?_eq_some_iff.mp (bracket pattern member)
    obtain ⟨rest, empty, -⟩ := (noticeIs_cons (by decide)).mp is
    exact nomatch empty
  rw [isNotice, any_eq_false]
  exact none_

theorem bracket_notMem_selector (book : Notebook) : (93 : UInt8) ∉ book.selector := by
  have side : (93 : UInt8) ∉ notesSides book.side := by
    cases book.side <;> decide
  rw [Notebook.selector, mem_append, mem_cons, mem_append, mem_cons]
  rintro (inside | same | inside | same | inside)
  · exact not_mem_of_utilWord book.word (by decide) inside
  · cases same
  · exact not_mem_of_utilWord book.who_word (by decide) inside
  · cases same
  · exact side inside

theorem noticeIs_name : noticeIs (ascii "%s]") s = true ↔ ∃ name, s = name ++ ascii "]" ∧ notesSelect name ≠ none := by
  have step : noticeIs (37 :: 115 :: [93]) s = true ↔
      noticeArg 115 s ≠ 0 ∧ noticeIs [93] (s.drop (noticeArg 115 s)) = true := by
    rw [noticeIs, if_pos ⟨rfl, by simp⟩]
    change (if noticeArg 115 s = 0 then false else _) = true ↔ _
    split
    · next none_ => simp [none_]
    · next more => exact ⟨fun is => ⟨more, is⟩, And.right⟩
  have last : ∀ rest, noticeIs [93] rest = true ↔ rest = [93] := by
    intro rest
    rw [noticeIs_cons (by decide)]
    constructor
    · rintro ⟨rest', rfl, is⟩
      rw [(noticeIs_nil rest').mp is]
    · rintro rfl
      exact ⟨[], rfl, (noticeIs_nil []).mpr rfl⟩
  change noticeIs (37 :: 115 :: [93]) s = true ↔ _
  rw [step, last]
  constructor
  · rintro ⟨some_, rest⟩
    rw [noticeArg, if_pos rfl] at some_ rest
    cases here : cut 93 s with
    | none =>
      rw [here] at some_
      exact absurd rfl some_
    | some parts =>
      obtain ⟨name, back⟩ := parts
      obtain ⟨rfl, -⟩ := cut_eq_some.mp here
      rw [here] at some_ rest
      dsimp only at some_ rest
      split at some_
      · next selects =>
        rw [if_pos selects, drop_left] at rest
        exact ⟨name, by rw [rest]; rfl, Option.isSome_iff_ne_none.mp selects⟩
      · exact absurd rfl some_
  · rintro ⟨name, rfl, selects⟩
    obtain ⟨repo, selected⟩ := Option.ne_none_iff_exists'.mp selects
    obtain ⟨book, rfl, -⟩ := notesSelect_eq_some.mp selected
    have here : cut 93 (book.selector ++ ascii "]") = some (book.selector, []) :=
      cut_append [] (bracket_notMem_selector book)
    have length : noticeArg 115 (book.selector ++ ascii "]") = book.selector.length := by
      rw [noticeArg, if_pos rfl, here]
      dsimp only
      rw [if_pos (Option.isSome_iff_ne_none.mpr selects)]
    rw [length, drop_left]
    refine ⟨?_, rfl⟩
    simp [Notebook.selector]

end Matcher

/-- The three numbers of a notice about the context. -/
theorem noticeIs_numbers {tail s : Bytes} (plain : 37 ∉ tail) :
    noticeIs (ascii "[askai: your context is %lu%% full, %lu of %lu" ++ (32 :: tail)) s = true ↔
      ∃ full used most, Digits full ∧ Digits used ∧ Digits most ∧
        s = ascii "[askai: your context is " ++ full ++ ascii "% full, " ++ used ++ ascii " of " ++ most ++ 32 :: tail := by
  have split : ascii "[askai: your context is %lu%% full, %lu of %lu" ++ (32 :: tail) =
      ascii "[askai: your context is " ++ (ascii "%lu" ++ (37 :: 37 :: (ascii " full, " ++ (ascii "%lu" ++
        (ascii " of " ++ (ascii "%lu" ++ (32 :: tail))))))) := rfl
  have space_ : ∀ p b rest, noticeIs (32 :: p) (b :: rest) = true → digit b = false := by
    intro p b rest is
    obtain ⟨rest', same, -⟩ := (noticeIs_cons (by decide)).mp is
    rw [(List.cons.inj same).1]
    rfl
  have percent_ : ∀ p b rest, noticeIs (37 :: 37 :: p) (b :: rest) = true → digit b = false := by
    intro p b rest is
    obtain ⟨rest', same, -⟩ := noticeIs_percent.mp is
    rw [(List.cons.inj same).1]
    rfl
  have last : ∀ rest, noticeIs (32 :: tail) rest = true ↔ rest = 32 :: tail := by
    intro rest
    have literal := noticeIs_literal (show 37 ∉ 32 :: tail by simp [plain]) (p := []) (s := rest)
    rw [append_nil] at literal
    rw [literal]
    constructor
    · rintro ⟨rest', rfl, is⟩
      rw [(noticeIs_nil rest').mp is, append_nil]
    · rintro rfl
      exact ⟨[], (append_nil _).symm, (noticeIs_nil []).mpr rfl⟩
  have context_ : (37 : UInt8) ∉ ascii "[askai: your context is " := by decide
  have full_ : (37 : UInt8) ∉ ascii " full, " := by decide
  have of_ : (37 : UInt8) ∉ ascii " of " := by decide
  rw [split]
  constructor
  · intro is
    obtain ⟨s₁, rfl, is₁⟩ := (noticeIs_literal context_).mp is
    obtain ⟨full, s₂, rfl, first, is₂⟩ := (noticeIs_number (percent_ _)).mp is₁
    obtain ⟨s₃, rfl, is₃⟩ := noticeIs_percent.mp is₂
    obtain ⟨s₄, rfl, is₄⟩ := (noticeIs_literal full_).mp is₃
    obtain ⟨used, s₅, rfl, second, is₅⟩ := (noticeIs_number (space_ _)).mp is₄
    obtain ⟨s₆, rfl, is₆⟩ := (noticeIs_literal of_).mp is₅
    obtain ⟨most, s₇, rfl, third, is₇⟩ := (noticeIs_number (space_ _)).mp is₆
    obtain rfl := (last s₇).mp is₇
    refine ⟨full, used, most, first, second, third, ?_⟩
    simp only [append_assoc]
    rfl
  · rintro ⟨full, used, most, first, second, third, rfl⟩
    have is₇ := (last _).mpr rfl
    have is₆ := (noticeIs_number (space_ tail)).mpr ⟨most, _, rfl, third, is₇⟩
    have is₅ := (noticeIs_literal of_).mpr ⟨_, rfl, is₆⟩
    have is₄ := (noticeIs_number (space_ _)).mpr ⟨used, _, rfl, second, is₅⟩
    have is₃ := (noticeIs_literal full_).mpr ⟨_, rfl, is₄⟩
    have is₁ := (noticeIs_number (percent_ _)).mpr ⟨full, _, rfl, first, noticeIs_percent.mpr ⟨_, rfl, is₃⟩⟩
    apply (noticeIs_literal context_).mpr
    refine ⟨_, ?_, is₁⟩
    simp only [append_assoc]
    rfl

/-- A line counts as a notice if one of the formats prints it. -/
theorem isNotice_iff (line : Bytes) : isNotice line = true ↔ Notice line := by
  have notebook : noticeIs noticeNotebook line = true ↔
      ∃ name, line = ascii "[askai: notebook " ++ name ++ ascii "]" ∧ notesSelect name ≠ none := by
    have split : noticeNotebook = ascii "[askai: notebook " ++ ascii "%s]" := rfl
    rw [split, noticeIs_literal (by decide)]
    constructor
    · rintro ⟨rest, rfl, is⟩
      obtain ⟨name, rfl, selects⟩ := noticeIs_name.mp is
      exact ⟨name, (append_assoc _ _ _).symm, selects⟩
    · rintro ⟨name, rfl, selects⟩
      exact ⟨_, append_assoc _ _ _, noticeIs_name.mpr ⟨name, rfl, selects⟩⟩
  have plain : (37 : UInt8) ∉ compactTail ∧ 37 ∉ remindTail := by decide
  have compact := @noticeIs_numbers _ line plain.1
  have remind := @noticeIs_numbers _ line plain.2
  rw [show ascii "[askai: your context is %lu%% full, %lu of %lu" ++ 32 :: compactTail = noticeCompact by decide]
    at compact
  rw [show ascii "[askai: your context is %lu%% full, %lu of %lu" ++ 32 :: remindTail = noticeRemind by decide +kernel]
    at remind
  have last : noticeIs noticeLast line = true ↔ line = noticeLast := by
    have plain : (37 : UInt8) ∉ noticeLast := by decide
    have literal := noticeIs_literal plain (p := []) (s := line)
    rw [append_nil] at literal
    rw [literal]
    constructor
    · rintro ⟨rest, rfl, is⟩
      rw [(noticeIs_nil rest).mp is, append_nil]
    · intro same
      exact ⟨[], by rw [same, append_nil], (noticeIs_nil []).mpr rfl⟩
  rw [isNotice, any_eq_true]
  constructor
  · rintro ⟨pattern, member, is⟩
    simp only [noticeFormats, mem_cons, not_mem_nil, or_false] at member
    rcases member with same | same | same | same <;> rw [same] at is
    · obtain ⟨name, rfl, selects⟩ := notebook.mp is
      exact .notebook selects
    · obtain ⟨full, used, most, first, second, third, rfl⟩ := compact.mp is
      exact .compact first second third
    · obtain ⟨full, used, most, first, second, third, rfl⟩ := remind.mp is
      exact .remind first second third
    · rw [last.mp is]
      exact .last
  · intro notice
    cases notice with
    | notebook selects => exact ⟨noticeNotebook, by simp [noticeFormats], notebook.mpr ⟨_, rfl, selects⟩⟩
    | compact first second third =>
      exact ⟨noticeCompact, by simp [noticeFormats], compact.mpr ⟨_, _, _, first, second, third, rfl⟩⟩
    | remind first second third =>
      exact ⟨noticeRemind, by simp [noticeFormats], remind.mpr ⟨_, _, _, first, second, third, rfl⟩⟩
    | last => exact ⟨noticeLast, by simp [noticeFormats], last.mpr rfl⟩

/-- The loop of `notice_kept` over the lines at the end of the text: where the notices begin, and where what
is before them ends. -/
def noticeLoop (text : Bytes) (kept : Nat) : Nat × Nat :=
  let text' := cstrViewTrimEnd text
  let line := (memrchr lf text').elim 0 (· + 1)
  if _notice : isNotice (text'.drop line) then noticeLoop (text'.take line) line
  else (kept, text'.length)
termination_by text.length
decreasing_by
  have shorter : (cstrViewTrimEnd text).length ≤ text.length := ( rdropWhile_prefix _ _).length_le
  have inside : line < text'.length := by
    by_contra beyond
    rw [drop_eq_nil_of_le (Nat.not_lt.mp beyond), isNotice_nil] at _notice
    exact nomatch _notice
  rw [length_take]
  exact lt_of_le_of_lt (Nat.min_le_left _ _) (lt_of_lt_of_le inside shorter)

/-- `notice_kept`: none where it reads beyond the text. -/
def noticeKept (text : Bytes) : Option Nat :=
  let (kept, last) := noticeLoop text text.length
  if kept = text.length then some text.length
  else if last = 0 then some 0
  else (cut lf ((text.drop last).take (kept - last))).map fun (blanks, _) => last + blanks.length + 1

/-! ## Lines -/

/-- A byte that `cstr_view_trim_end` drops. -/
def white (c : UInt8) : Bool :=
  blank c || c = cr || c = lf

/-- A line of nothing but blanks. -/
def White (line : Bytes) : Prop :=
  ∀ c ∈ line, white c = true

instance (line : Bytes) : Decidable (White line) :=
  inferInstanceAs (Decidable (∀ c ∈ line, white c = true))

/-- A notice, and blanks after it. -/
def NoticeLine (line : Bytes) : Prop :=
  ∃ notice blanks, line = notice ++ blanks ∧ Notice notice ∧ White blanks

theorem white_nil : White [] :=
  fun _ member => absurd member not_mem_nil

theorem trimEnd_append_white (text : Bytes) {blanks : Bytes} (all : White blanks) :
    cstrViewTrimEnd (text ++ blanks) = cstrViewTrimEnd text := by
  induction blanks using List.reverseRecOn with
  | nil => rw [append_nil]
  | append_singleton blanks c ih =>
    have rest : White blanks := fun b member => all b (mem_append_left _ member)
    have last : white c = true := all c (mem_append_right _ mem_cons_self)
    rw [← append_assoc, ← ih rest]
    exact rdropWhile_concat_pos _ _ _ last

theorem trimEnd_concat {c : UInt8} (text : Bytes) (other : white c = false) :
    cstrViewTrimEnd (text ++ [c]) = text ++ [c] :=
  rdropWhile_concat_neg _ _ _ (by rw [Bool.not_eq_true]; exact other)

/-- A line that is not white is a text up to its last byte that is not, and blanks. -/
theorem exists_last {line : Bytes} (some_ : ¬ White line) :
    ∃ front c blanks, line = front ++ [c] ++ blanks ∧ white c = false ∧ White blanks := by
  induction line using List.reverseRecOn with
  | nil => exact absurd (by rintro _ ⟨⟩) some_
  | append_singleton line c ih =>
    cases last : white c with
    | false => exact ⟨line, c, [], (append_nil _).symm, last, by rintro _ ⟨⟩⟩
    | true =>
      have more : ¬ White line := by
        intro all
        apply some_
        intro b member
        rcases mem_append.mp member with here | here
        · exact all b here
        · rw [mem_singleton.mp here]
          exact last
      obtain ⟨front, d, blanks, rfl, other, all⟩ := ih more
      refine ⟨front, d, blanks ++ [c], append_assoc _ _ _, other, fun b member => ?_⟩
      rcases mem_append.mp member with here | here
      · exact all b here
      · rw [mem_singleton.mp here]
        exact last

/-- A notice ends with a bracket. -/
theorem Notice.concat {line : Bytes} (notice : Notice line) : ∃ front, line = front ++ [93] := by
  have compact_ : compactTail = compactTail.dropLast ++ [93] := by decide
  have remind_ : remindTail = remindTail.dropLast ++ [93] := by decide
  cases notice with
  | notebook selects => exact ⟨_, rfl⟩
  | compact first second third =>
    rw [compact_, ← cons_append, ← append_assoc]
    exact ⟨_, rfl⟩
  | remind first second third =>
    rw [remind_, ← cons_append, ← append_assoc]
    exact ⟨_, rfl⟩
  | last => exact ⟨noticeLast.dropLast, by decide⟩

theorem NoticeLine.not_white {line : Bytes} (is : NoticeLine line) : ¬ White line := by
  obtain ⟨notice, blanks, rfl, text, -⟩ := is
  obtain ⟨front, rfl⟩ := text.concat
  intro all
  have bracket := all 93 (mem_append_left _ (mem_append_right _ mem_cons_self))
  exact nomatch bracket

/-- What is left of a line without the blanks at its end is a notice if the line is one. -/
theorem isNotice_trimEnd (line : Bytes) : isNotice (cstrViewTrimEnd line) = true ↔ NoticeLine line := by
  rw [isNotice_iff]
  constructor
  · intro notice
    have some_ : ¬ White line := by
      intro all
      have none_ := trimEnd_append_white [] all
      rw [nil_append] at none_
      rw [none_] at notice
      obtain ⟨front, same⟩ := notice.concat
      exact append_ne_nil_of_right_ne_nil front (cons_ne_nil _ _) same.symm
    obtain ⟨front, c, blanks, rfl, other, all⟩ := exists_last some_
    rw [trimEnd_append_white _ all, trimEnd_concat front other] at notice
    exact ⟨_, blanks, rfl, notice, all⟩
  · rintro ⟨notice, blanks, rfl, text, all⟩
    obtain ⟨front, rfl⟩ := text.concat
    rw [trimEnd_append_white _ all, trimEnd_concat front rfl]
    exact text

/-! ## The loop over the lines -/

section Loop

variable {ls : List Bytes} {l : Bytes} {kept : Nat}

theorem white_lf {blanks : Bytes} (all : White blanks) : White (lf :: blanks) := by
  intro c member
  rcases mem_cons.mp member with rfl | later
  · rfl
  · exact all c later

theorem noticeLoop_congr {text text' : Bytes} (same : cstrViewTrimEnd text = cstrViewTrimEnd text') (kept : Nat) :
    noticeLoop text kept = noticeLoop text' kept := by
  conv_lhs => rw [noticeLoop]
  conv_rhs => rw [noticeLoop]
  rw [same]

/-- A blank line is passed over. -/
theorem noticeLoop_white (ls : List Bytes) (l' : Bytes) (all : White l) (kept : Nat) :
    noticeLoop (closed lf (ls ++ [l']) ++ l) kept = noticeLoop (closed lf ls ++ l') kept := by
  apply noticeLoop_congr
  rw [closed_concat, append_assoc, singleton_append, trimEnd_append_white _ (white_lf all)]

theorem noticeLoop_nil (all : White l) (kept : Nat) : noticeLoop l kept = (kept, 0) := by
  have none_ := trimEnd_append_white [] all
  rw [nil_append] at none_
  have empty : cstrViewTrimEnd [] = [] := rfl
  rw [noticeLoop, none_, empty, drop_nil, isNotice_nil]
  rfl

/-- Any other line is a notice, or is kept. -/
theorem noticeLoop_line (absent : lf ∉ l) (some_ : ¬ White l) :
    (NoticeLine l → noticeLoop (closed lf ls ++ l) kept = noticeLoop (closed lf ls) (closed lf ls).length) ∧
      (¬ NoticeLine l → noticeLoop (closed lf ls ++ l) kept = (kept, (cstrViewTrimEnd (closed lf ls ++ l)).length)) := by
  obtain ⟨front, c, blanks, rfl, other, all⟩ := exists_last some_
  have trimmed : cstrViewTrimEnd (closed lf ls ++ (front ++ [c] ++ blanks)) = closed lf ls ++ (front ++ [c]) := by
    rw [← append_assoc, trimEnd_append_white _ all, ← append_assoc, trimEnd_concat _ other]
  have line : cstrViewTrimEnd (front ++ [c] ++ blanks) = front ++ [c] := by
    rw [trimEnd_append_white _ all, trimEnd_concat _ other]
  have inside : lf ∉ front ++ [c] := fun member => absent (mem_append_left _ member)
  have start : (memrchr lf (closed lf ls ++ (front ++ [c]))).elim 0 (· + 1) = (closed lf ls).length := by
    cases ls using List.reverseRecOn with
    | nil =>
      change (memrchr lf (front ++ [c])).elim 0 _ = 0
      rw [memrchr_eq_none.mpr inside]
      rfl
    | append_singleton ls l =>
      rw [closed_concat, append_assoc, singleton_append, memrchr_append _ inside, length_append, length_append,
        length_append]
      rfl
  rw [noticeLoop, trimmed, start, drop_left, take_left, ← isNotice_trimEnd, line]
  constructor
  · intro notice
    rw [dif_pos notice]
  · intro not_
    rw [dif_neg not_]

/-- The notices and blank lines at the end of a text, as many as there are. -/
structure NoticeRun (lines before run : List Bytes) : Prop where
  split : lines = before ++ run
  within : ∀ x ∈ run, White x ∨ NoticeLine x
  last : ∀ x, before.getLast? = some x → ¬ White x ∧ ¬ NoticeLine x

variable {lines before run : List Bytes}

theorem NoticeRun.more (r : NoticeRun lines before run) {l : Bytes}
    (is : White l ∨ NoticeLine l) : NoticeRun (lines ++ [l]) before (run ++ [l]) where
  split := by rw [r.split, append_assoc]
  within x member := by
    rcases mem_append.mp member with here | here
    · exact r.within x here
    · rw [mem_singleton.mp here]
      exact is
  last := r.last

/-- A text has one such end. -/
theorem NoticeRun.unique {lines before run before' run' : List Bytes} (r : NoticeRun lines before run)
    (r' : NoticeRun lines before' run') : before = before' ∧ run = run' := by
  have shorter : ∀ {b u b' u' : List Bytes}, NoticeRun lines b u → NoticeRun lines b' u' →
      ∀ more, b' = b ++ more → u = more ++ u' → b = b' ∧ u = u' := by
    intro b u b' u' first second more back front
    cases more using List.reverseRecOn with
    | nil => exact ⟨by rw [back, append_nil], by rw [front, nil_append]⟩
    | append_singleton more x =>
      have stops := second.last x (by rw [back, ← append_assoc, List.getLast?_concat])
      have goes := first.within x (by rw [front]; simp)
      exact (goes.elim stops.1 stops.2).elim
  rcases append_eq_append_iff.mp (r.split.symm.trans r'.split) with ⟨more, back, front⟩ | ⟨more, back, front⟩
  · exact shorter r r' more back front
  · obtain ⟨same, same'⟩ := shorter r' r more back front
    exact ⟨same.symm, same'.symm⟩

/-- Where the loop finds that the notices begin, and the text before them ends. -/
structure LoopRun (before run : List Bytes) (kept : Nat) (found : Nat × Nat) : Prop where
  last : found.2 = (cstrViewTrimEnd (closed lf before)).length
  begins : (∀ x ∈ run, White x) ∧ found.1 = kept ∨ ∃ blanks first rest, run = blanks ++ first :: rest ∧
    (∀ x ∈ blanks, White x) ∧ NoticeLine first ∧ found.1 = (closed lf (before ++ blanks)).length

theorem LoopRun.blank {before run : List Bytes} {found : Nat × Nat} (r : LoopRun before run kept found)
    (all : White l) : LoopRun before (run ++ [l]) kept found where
  last := r.last
  begins := by
    rcases r.begins with ⟨white, same⟩ | ⟨blanks, first, rest, rfl, white, is, begins⟩
    · refine .inl ⟨fun x member => ?_, same⟩
      rcases mem_append.mp member with here | here
      · exact white x here
      · rw [mem_singleton.mp here]
        exact all
    · exact .inr ⟨blanks, first, rest ++ [l], by rw [append_assoc, cons_append], white, is, begins⟩

theorem LoopRun.notice {before run : List Bytes} {found : Nat × Nat}
    (r : LoopRun before run (closed lf (before ++ run)).length found) (is : NoticeLine l) (kept : Nat) :
    LoopRun before (run ++ [l]) kept found where
  last := r.last
  begins := by
    rcases r.begins with ⟨white, same⟩ | ⟨blanks, first, rest, rfl, white, is, begins⟩
    · exact .inr ⟨run, l, [], rfl, white, is, same⟩
    · exact .inr ⟨blanks, first, rest ++ [l], by rw [append_assoc, cons_append], white, is, begins⟩

theorem noticeLoop_run (whole : ∀ x ∈ ls, lf ∉ x) (absent : lf ∉ l) (kept : Nat) :
    ∃ before run, NoticeRun (ls ++ [l]) before run ∧ LoopRun before run kept (noticeLoop (closed lf ls ++ l) kept) := by
  induction ls using List.reverseRecOn generalizing l kept with
  | nil =>
    by_cases all : White l
    · refine ⟨[], [l], ⟨rfl, ?_, nofun⟩, ?_⟩
      · intro x member
        rw [mem_singleton.mp member]
        exact .inl all
      · rw [show closed lf [] ++ l = l from rfl, noticeLoop_nil all]
        refine ⟨rfl, .inl ⟨fun x member => ?_, rfl⟩⟩
        rw [mem_singleton.mp member]
        exact all
    · by_cases is : NoticeLine l
      · refine ⟨[], [l], ⟨rfl, ?_, nofun⟩, ?_⟩
        · intro x member
          rw [mem_singleton.mp member]
          exact .inr is
        · rw [(noticeLoop_line absent all).1 is]
          change LoopRun [] [l] kept (noticeLoop [] 0)
          rw [noticeLoop_nil white_nil]
          exact ⟨rfl, .inr ⟨[], l, [], rfl, nofun, is, rfl⟩⟩
      · refine ⟨[l], [], ⟨rfl, nofun, ?_⟩, ?_⟩
        · intro x last
          obtain rfl := Option.some.inj last
          exact ⟨all, is⟩
        · rw [(noticeLoop_line absent all).2 is]
          refine ⟨?_, .inl ⟨nofun, rfl⟩⟩
          rw [show closed lf [l] = closed lf [] ++ l ++ [lf] from closed_concat lf [] l,
            trimEnd_append_white _ (white_lf white_nil)]
  | append_singleton ls l' ih =>
    have whole' : ∀ x ∈ ls, lf ∉ x := fun x member => whole x (mem_append_left _ member)
    have absent' : lf ∉ l' := whole l' (mem_append_right _ mem_cons_self)
    by_cases all : White l
    · obtain ⟨before, run, r, loop⟩ := ih whole' absent' kept
      refine ⟨before, run ++ [l], r.more (.inl all), ?_⟩
      rw [noticeLoop_white ls l' all]
      exact loop.blank all
    · by_cases is : NoticeLine l
      · obtain ⟨before, run, r, loop⟩ := ih whole' absent' (closed lf (ls ++ [l'])).length
        refine ⟨before, run ++ [l], r.more (.inr is), ?_⟩
        have passed := noticeLoop_white ls l' white_nil (closed lf (ls ++ [l'])).length
        rw [append_nil] at passed
        rw [(noticeLoop_line absent all).1 is, passed]
        rw [r.split] at loop ⊢
        exact loop.notice is kept
      · refine ⟨ls ++ [l'] ++ [l], [], ⟨(append_nil _).symm, nofun, ?_⟩, ?_⟩
        · intro x last
          rw [List.getLast?_concat] at last
          obtain rfl := Option.some.inj last
          exact ⟨all, is⟩
        · rw [(noticeLoop_line absent all).2 is]
          refine ⟨?_, .inl ⟨nofun, rfl⟩⟩
          rw [closed_concat lf (ls ++ [l']), trimEnd_append_white _ (white_lf white_nil)]

/-- What `notice_kept` keeps of a text. -/
theorem noticeKept_run {before run : List Bytes} (r : NoticeRun (ls ++ [l]) before run)
    (whole : ∀ x ∈ ls, lf ∉ x) (absent : lf ∉ l) :
    ((∀ x ∈ run, White x) → noticeKept (closed lf ls ++ l) = some (closed lf ls ++ l).length) ∧
      ((∃ x ∈ run, NoticeLine x) → noticeKept (closed lf ls ++ l) = some (closed lf before).length) := by
  obtain ⟨text, textIs⟩ : ∃ text, text = closed lf ls ++ l := ⟨_, rfl⟩
  obtain ⟨before', run', r', loop⟩ := noticeLoop_run whole absent text.length
  obtain ⟨rfl, rfl⟩ := r.unique r'
  rw [← textIs] at loop ⊢
  rw [noticeKept]
  generalize noticeLoop text text.length = found at loop
  obtain ⟨kept, last⟩ := found
  obtain ⟨lastIs, begins⟩ := loop
  dsimp only at lastIs begins ⊢
  rcases begins with ⟨all, same⟩ | ⟨blanks, first, rest, rfl, all, is, begins⟩
  · rw [if_pos same]
    exact ⟨fun _ => rfl, fun ⟨x, member, notice⟩ => absurd (all x member) notice.not_white⟩
  · refine ⟨fun white => absurd (white first (by simp)) is.not_white, fun _ => ?_⟩
    -- the text is the lines before the first notice, and more
    have parts : text ++ [lf] = closed lf (before ++ blanks) ++ (first ++ [lf] ++ closed lf rest) := by
      rw [textIs, ← closed_concat, r.split, ← append_assoc, closed_append, closed_cons]
    have more : first ≠ [] := by
      rintro rfl
      exact is.not_white white_nil
    have less : kept < text.length := by
      have length := congrArg List.length parts
      have some_ := length_pos_iff.mpr more
      simp only [length_append, length_singleton] at length begins
      omega
    have start : closed lf (before ++ blanks) <+: text := by
      apply prefix_of_prefix_length_le ⟨_, parts.symm⟩ (prefix_append text [lf])
      rw [← begins]
      exact less.le
    obtain ⟨tail, whole'⟩ := start
    rw [if_neg less.ne]
    cases before using List.reverseRecOn with
    | nil =>
      have zero : last = 0 := lastIs
      rw [if_pos zero]
      rfl
    | append_singleton before b =>
      have some_ := (r.last b List.getLast?_concat).1
      have inside : lf ∉ b := by
        have member : b ∈ ls ++ [l] := by
          rw [r.split]
          simp
        rcases mem_append.mp member with here | here
        · exact whole b here
        · rw [mem_singleton.mp here]
          exact absent
      obtain ⟨front, c, after, rfl, other, all'⟩ := exists_last some_
      have without : lf ∉ after := fun member => inside (mem_append_right _ member)
      obtain ⟨head, headIs⟩ : ∃ head, head = closed lf before ++ (front ++ [c]) := ⟨_, rfl⟩
      have closed_ : closed lf (before ++ [front ++ [c] ++ after]) = head ++ (after ++ [lf]) := by
        rw [closed_concat, headIs]
        simp only [append_assoc]
      have trimmed : cstrViewTrimEnd (head ++ (after ++ [lf])) = head := by
        rw [← append_assoc, trimEnd_append_white _ (white_lf white_nil), trimEnd_append_white _ all', headIs,
          ← append_assoc, trimEnd_concat _ other]
      rw [closed_, trimmed] at lastIs
      have some' : last ≠ 0 := by
        rw [lastIs, headIs]
        simp
      rw [closed_append, closed_] at begins whole'
      have view : (text.drop last).take (kept - last) = after ++ lf :: closed lf blanks := by
        have length : kept - last = (after ++ lf :: closed lf blanks).length := by
          rw [begins, lastIs]
          simp only [length_append, length_cons, length_nil]
          omega
        have text_ : text = head ++ ((after ++ lf :: closed lf blanks) ++ tail) := by
          rw [← whole']
          simp
        rw [length, text_, lastIs, drop_left, take_left]
      rw [if_neg some', view, cut_append _ without, closed_, lastIs]
      simp only [Option.map_some, length_append, length_singleton, Nat.add_assoc]

end Loop

/-! ## What is kept -/

/-- The last line that is not blank. -/
def lastLine (lines : List Bytes) : Option Bytes :=
  (lines.filter fun x => ¬ White x).getLast?

/-- The lines before the notices at the end of a text, and the offset that ends what is kept of it: after
the first line feed that follows the last byte of those lines that is not blank. -/
structure KeptBefore (text : Bytes) (before run : List Bytes) (kept : Nat) : Prop where
  run : NoticeRun (text.splitOn lf) before run
  nothing : before = [] → kept = 0
  feed : before ≠ [] → ∃ front c blanks rest, text = front ++ c :: blanks ++ lf :: rest ∧ white c = false ∧
    (∀ b ∈ blanks, white b = true) ∧ lf ∉ blanks ∧ front ++ c :: blanks ++ [lf] = closed lf before ∧
    kept = (front ++ c :: blanks ++ [lf]).length

theorem NoticeRun.cases (r : NoticeRun lines before run) : (∀ x ∈ run, White x) ∨ ∃ x ∈ run, NoticeLine x := by
  by_contra neither
  push Not at neither
  obtain ⟨⟨x, member, some_⟩, none_⟩ := neither
  exact (r.within x member).elim some_ (none_ x member)

theorem NoticeRun.lastLine_white (r : NoticeRun lines before run)
    (all : ∀ x ∈ run, White x) (x : Bytes) (last : lastLine lines = some x) : ¬ NoticeLine x := by
  have none_ : (run.filter fun x => ¬ White x) = [] := by
    apply filter_eq_nil_iff.mpr
    intro y member
    rw [decide_eq_true_iff]
    exact not_not.mpr (all y member)
  rw [lastLine, r.split, filter_append, none_, append_nil] at last
  cases before using List.reverseRecOn with
  | nil => exact nomatch last
  | append_singleton before b =>
    have stops := r.last b List.getLast?_concat
    have here : [b].filter (fun x => ¬ White x) = [b] := by simp [stops.1]
    rw [filter_append, here, List.getLast?_concat] at last
    obtain rfl := Option.some.inj last
    exact stops.2

theorem NoticeRun.lastLine_notice (r : NoticeRun lines before run)
    (has : ∃ x ∈ run, NoticeLine x) : ∃ x, lastLine lines = some x ∧ NoticeLine x := by
  obtain ⟨x, member, notice⟩ := has
  obtain ⟨rest, restIs⟩ : ∃ rest, rest = run.filter fun x => ¬ White x := ⟨_, rfl⟩
  have inside : x ∈ rest := by
    rw [restIs, mem_filter]
    exact ⟨member, decide_eq_true notice.not_white⟩
  obtain ⟨y, last⟩ : ∃ y, rest.getLast? = some y :=
    Option.ne_none_iff_exists'.mp fun none_ => ne_nil_of_mem inside (List.getLast?_eq_none_iff.mp none_)
  refine ⟨y, ?_, ?_⟩
  · rw [lastLine, r.split, filter_append, ← restIs, List.getLast?_append, last]
    rfl
  · have here := mem_of_getLast? last
    rw [restIs, mem_filter, decide_eq_true_iff] at here
    exact (r.within y here.1).resolve_left here.2

/-- Every text has lines, and notices and blank lines at its end. -/
theorem exists_run (text : Bytes) : ∃ ls l before run, text = closed lf ls ++ l ∧ (∀ x ∈ ls, lf ∉ x) ∧ lf ∉ l ∧
    text.splitOn lf = ls ++ [l] ∧ NoticeRun (ls ++ [l]) before run := by
  obtain ⟨ls, l, rfl, whole, absent⟩ := exists_closed lf text
  obtain ⟨before, run, r, -⟩ := noticeLoop_run whole absent 0
  exact ⟨ls, l, before, run, rfl, whole, absent, splitOn_closed whole absent, r⟩

/-- Lines before the last are followed by a line feed. -/
theorem NoticeRun.text {ls before run : List Bytes} {l : Bytes} (r : NoticeRun (ls ++ [l]) before run)
    (some_ : run ≠ []) : ∃ rest, closed lf ls ++ l = closed lf before ++ rest ∧ ∀ x ∈ before, x ∈ ls := by
  cases run using List.reverseRecOn with
  | nil => exact absurd rfl some_
  | append_singleton run l' =>
    have split := r.split
    rw [← append_assoc] at split
    obtain ⟨rfl, -⟩ := append_inj' split rfl
    exact ⟨closed lf run ++ l, by rw [closed_append, append_assoc], fun x => mem_append_left _⟩

theorem keptBefore {text before run ls : List _} {l : Bytes} (split : text = closed lf ls ++ l)
    (whole : ∀ x ∈ ls, lf ∉ x) (absent : lf ∉ l) (r : NoticeRun (ls ++ [l]) before run)
    (has : ∃ x ∈ run, NoticeLine x) : KeptBefore text before run (closed lf before).length := by
  obtain ⟨x, member, -⟩ := has
  obtain ⟨rest, text_, inside⟩ := r.text (ne_nil_of_mem member)
  refine ⟨?_, ?_, fun some_ => ?_⟩
  · rw [split, splitOn_closed whole absent]
    exact r
  · rintro rfl
    rfl
  · cases before using List.reverseRecOn with
    | nil => exact absurd rfl some_
    | append_singleton before b =>
      have stops := (r.last b List.getLast?_concat).1
      have without := whole b (inside b (by simp))
      obtain ⟨front, c, blanks, rfl, other, all⟩ := exists_last stops
      have closed_ : closed lf before ++ front ++ c :: blanks ++ [lf] =
          closed lf (before ++ [front ++ [c] ++ blanks]) := by
        rw [closed_concat]
        simp
      refine ⟨closed lf before ++ front, c, blanks, rest, ?_, other, all,
        fun here => without (mem_append_right _ here), closed_, by rw [closed_]⟩
      rw [split, text_, ← closed_]
      simp

/-- The notices of any text. -/
theorem noticeKept_cases (text : Bytes) :
    ((∀ x, lastLine (text.splitOn lf) = some x → ¬ NoticeLine x) ∧ noticeKept text = some text.length) ∨
      ((∃ x, lastLine (text.splitOn lf) = some x ∧ NoticeLine x) ∧
        ∃ before run kept, noticeKept text = some kept ∧ KeptBefore text before run kept) := by
  obtain ⟨ls, l, before, run, split, whole, absent, lines, r⟩ := exists_run text
  obtain ⟨all, some_⟩ := noticeKept_run r whole absent
  rw [lines]
  rcases r.cases with white | has
  · refine .inl ⟨r.lastLine_white white, ?_⟩
    rw [split]
    exact all white
  · refine .inr ⟨r.lastLine_notice has, before, run, _, ?_, keptBefore split whole absent r has⟩
    rw [split]
    exact some_ has

/-- What is kept is kept whole. -/
theorem noticeKept_take {text : Bytes} {kept : Nat} (keeps : noticeKept text = some kept) :
    noticeKept (text.take kept) = some kept := by
  obtain ⟨ls, l, before, run, split, whole, absent, -, r⟩ := exists_run text
  obtain ⟨all, some_⟩ := noticeKept_run r whole absent
  rw [← split] at all some_
  rcases r.cases with white | has
  · obtain rfl := Option.some.inj (keeps.symm.trans (all white))
    rwa [take_length]
  · obtain rfl := Option.some.inj (keeps.symm.trans (some_ has))
    obtain ⟨x, member, -⟩ := has
    obtain ⟨rest, text_, inside⟩ := r.text (ne_nil_of_mem member)
    have blank : NoticeRun (before ++ [[]]) before [[]] :=
      ⟨rfl, fun x here => .inl (mem_singleton.mp here ▸ white_nil), r.last⟩
    have again := (noticeKept_run blank (fun x here => whole x (inside x here)) not_mem_nil).1 fun x here =>
      mem_singleton.mp here ▸ white_nil
    rw [append_nil] at again
    rw [split, text_, take_left]
    exact again

theorem Notice.lf_notMem {line : Bytes} (notice : Notice line) : lf ∉ line := by
  have digits : ∀ {s : Bytes}, Digits s → lf ∉ s := fun number member => nomatch number.2 lf member
  have tails : lf ∉ compactTail ∧ lf ∉ remindTail ∧ lf ∉ noticeLast := by decide +kernel
  have heads : lf ∉ ascii "[askai: your context is " ∧ lf ∉ ascii "% full, " ∧ lf ∉ ascii " of " ∧
      lf ∉ ascii "[askai: notebook " ∧ lf ∉ ascii "]" := by decide
  cases notice with
  | @notebook name selects =>
    obtain ⟨repo, selected⟩ := Option.ne_none_iff_exists'.mp selects
    obtain ⟨book, rfl, -⟩ := notesSelect_eq_some.mp selected
    have name : lf ∉ book.selector := by
      intro member
      apply book.not_mem_branch (show utilWord [lf] 1 = false by decide) (by decide)
      exact mem_append_right _ member
    simp only [mem_append, heads, name, or_self, not_false_eq_true]
  | compact first second third =>
    simp only [mem_append, mem_cons, heads, tails, digits first, digits second, digits third, or_self, or_false]
    decide
  | remind first second third =>
    simp only [mem_append, mem_cons, heads, tails, digits first, digits second, digits third, or_self, or_false]
    decide
  | last => exact tails.2.2

/-- The lines of a text with notices after it. -/
theorem closed_notices (notices : List Bytes) (ls : List Bytes) (l : Bytes) :
    ∃ ls' l', closed lf ls ++ l ++ (notices.flatMap fun notice => [lf, lf] ++ notice) = closed lf ls' ++ l' ∧
      ls' ++ [l'] = ls ++ [l] ++ notices.flatMap fun notice => [[], notice] := by
  induction notices generalizing ls l with
  | nil => exact ⟨ls, l, by simp, by simp⟩
  | cons notice notices ih =>
    obtain ⟨ls', l', text, lines⟩ := ih (ls ++ [l] ++ [[]]) notice
    refine ⟨ls', l', ?_, ?_⟩
    · rw [← text, closed_concat, closed_concat]
      simp
    · rw [lines]
      simp

theorem noticeKept_notices {text front : Bytes} {c : UInt8} (ends : text = front ++ [c]) (other : white c = false)
    (bare : ¬ NoticeLine ((text.splitOn lf).getLastD [])) {notices : List Bytes} (some_ : notices ≠ [])
    (all : ∀ notice ∈ notices, Notice notice) :
    noticeKept (text ++ notices.flatMap fun notice => [lf, lf] ++ notice) = some (text.length + 1) := by
  obtain ⟨ls, l, split, whole, absent⟩ := exists_closed lf text
  obtain ⟨ls', l', text', lines⟩ := closed_notices notices ls l
  rw [split, splitOn_closed whole absent, getLastD_concat] at bare
  have solid : ¬ White l := by
    intro blanks
    cases l using List.reverseRecOn with
    | nil =>
      cases ls using List.reverseRecOn with
      | nil => exact append_ne_nil_of_right_ne_nil front (cons_ne_nil c []) (ends.symm.trans split)
      | append_singleton ls x =>
        rw [ends, closed_concat, append_nil] at split
        obtain ⟨-, same⟩ := append_inj' split rfl
        rw [(List.cons.inj same).1] at other
        exact nomatch other
    | append_singleton l d =>
      rw [ends, ← append_assoc] at split
      obtain ⟨-, same⟩ := append_inj' split rfl
      rw [(List.cons.inj same).1, blanks d (mem_append_right _ mem_cons_self)] at other
      exact nomatch other
  have run : NoticeRun (ls' ++ [l']) (ls ++ [l]) (notices.flatMap fun notice => [[], notice]) := by
    refine ⟨lines, fun x member => ?_, fun x last => ?_⟩
    · obtain ⟨notice, here, is⟩ := mem_flatMap.mp member
      rcases mem_pair.mp is with rfl | rfl
      · exact .inl white_nil
      · exact .inr ⟨x, [], (append_nil _).symm, all x here, white_nil⟩
    · rw [List.getLast?_concat] at last
      obtain rfl := Option.some.inj last
      exact ⟨solid, bare⟩
  have free : ∀ x ∈ ls' ++ [l'], lf ∉ x := by
    intro x member
    rw [lines, mem_append, mem_append, mem_singleton] at member
    rcases member with (here | rfl) | later
    · exact whole x here
    · exact absent
    · obtain ⟨notice, here, is⟩ := mem_flatMap.mp later
      rcases mem_pair.mp is with rfl | rfl
      · exact not_mem_nil
      · exact (all x here).lf_notMem
  have has : ∃ x ∈ notices.flatMap (fun notice => [[], notice]), NoticeLine x := by
    obtain ⟨notice, rest, rfl⟩ := exists_cons_of_ne_nil some_
    exact ⟨notice, by simp, notice, [], (append_nil _).symm, all notice mem_cons_self, white_nil⟩
  have keeps := (noticeKept_run run (fun x here => free x (mem_append_left _ here))
    (free l' (mem_append_right _ mem_cons_self))).2 has
  rw [← text', ← split, closed_concat, ← split, length_append] at keeps
  exact keeps

/-- The notices at the end of texts. -/
theorem notices : (∀ line, isNotice line = true ↔ Notice line) ∧
    (∀ text, (∀ x, lastLine (text.splitOn lf) = some x → ¬ NoticeLine x) → noticeKept text = some text.length) ∧
    (∀ text x, lastLine (text.splitOn lf) = some x → NoticeLine x →
      ∃ before run kept, noticeKept text = some kept ∧ KeptBefore text before run kept) ∧
    (∀ text kept, noticeKept text = some kept → noticeKept (text.take kept) = some kept) ∧
    ∀ text front c, text = front ++ [c] → white c = false → ¬ NoticeLine ((text.splitOn lf).getLastD []) →
      ∀ notices : List Bytes, notices ≠ [] → (∀ notice ∈ notices, Notice notice) →
        noticeKept (text ++ notices.flatMap fun notice => [lf, lf] ++ notice) = some (text.length + 1) := by
  refine ⟨isNotice_iff, fun text bare => ?_, fun text x last is => ?_, fun _ _ => noticeKept_take,
    fun _ _ _ ends other bare _ some_ all => noticeKept_notices ends other bare some_ all⟩
  · rcases noticeKept_cases text with ⟨-, keeps⟩ | ⟨⟨x, last, is⟩, -⟩
    · exact keeps
    · exact absurd is (bare x last)
  · rcases noticeKept_cases text with ⟨bare, -⟩ | ⟨-, kept⟩
    · exact absurd is (bare x last)
    · exact kept

/-- What the formats print of numbers. -/
inductive Printed : Bytes → Prop
  | notebook {name : Bytes} (selects : notesSelect name ≠ none) :
      Printed (ascii "[askai: notebook " ++ name ++ ascii "]")
  | compact (full used most : Nat) :
      Printed (ascii "[askai: your context is " ++ utilDecimal full ++ ascii "% full, " ++ utilDecimal used ++
        ascii " of " ++ utilDecimal most ++ space :: compactTail)
  | remind (full used most : Nat) :
      Printed (ascii "[askai: your context is " ++ utilDecimal full ++ ascii "% full, " ++ utilDecimal used ++
        ascii " of " ++ utilDecimal most ++ space :: remindTail)
  | last : Printed noticeLast

/-- No number is printed as two zeros. -/
theorem zeros_not_decimal (n : Nat) : utilDecimal n ≠ [48, 48] := by
  intro same
  have value := foldl_utilDecimal n
  rw [same] at value
  obtain rfl : n = 0 := value.symm
  exact absurd same (by decide)

/-- A line with a number that begins with a zero, and notices after an empty text. -/
theorem notice_zeros_and_empty : ¬ (∀ line, isNotice line = true ↔ Printed line) ∧
      ¬ ∀ text : Bytes, (∀ c, text.getLast? = some c → white c = false) →
        ¬ NoticeLine ((text.splitOn lf).getLastD []) → ∀ notices : List Bytes, notices ≠ [] →
          (∀ notice ∈ notices, Printed notice) →
          noticeKept (text ++ notices.flatMap fun notice => [lf, lf] ++ notice) = some (text.length + 1) := by
  constructor
  · intro exact_
    obtain ⟨line, lineIs⟩ : ∃ line, line = ascii "[askai: your context is " ++ [48, 48] ++ ascii "% full, " ++ [48] ++
      ascii " of " ++ [48] ++ space :: compactTail := ⟨_, rfl⟩
    have number : Digits [48, 48] ∧ Digits [48] := by
      exact ⟨⟨cons_ne_nil _ _, forall_of_all (by decide)⟩, cons_ne_nil _ _, forall_of_all (by decide)⟩
    have notice : Notice line := by
      rw [lineIs]
      exact .compact number.1 number.2 number.2
    have numbers : ∀ (n : Nat) (rest : Bytes), line ≠ ascii "[askai: your context is " ++ utilDecimal n ++ 37 :: rest := by
      intro n rest same
      rw [lineIs] at same
      simp only [append_assoc, append_cancel_left_eq] at same
      have first := congrArg (List.takeWhile digit) same
      rw [takeWhile_append_of_pos (digits_utilDecimal n)] at first
      apply zeros_not_decimal n
      have stops : (37 :: rest).takeWhile digit = [] := rfl
      rw [stops, append_nil] at first
      rw [← first]
      rfl
    have printed := (exact_ line).mp ((isNotice_iff line).mpr notice)
    have context : line.take 14 = ascii "[askai: your c" := by
      rw [lineIs]
      rfl
    cases lineIs' : printed with
    | @notebook name selects =>
      have other : (ascii "[askai: notebook " ++ name ++ ascii "]").take 14 = ascii "[askai: noteb" ++ [111] := rfl
      exact absurd (context.symm.trans other) (by decide)
    | compact full used most =>
      apply numbers full _
      simp only [append_assoc]
      rfl
    | remind full used most =>
      apply numbers full _
      simp only [append_assoc]
      rfl
    | last => exact absurd context (by decide)
  · intro keeps
    have one := keeps [] nofun (fun is => is.not_white white_nil) [noticeLast] (cons_ne_nil _ _) fun notice member => by
      rw [mem_singleton.mp member]
      exact .last
    have last_ : NoticeLine noticeLast := ⟨noticeLast, [], (append_nil _).symm, .last, white_nil⟩
    have run : NoticeRun ([[], []] ++ [noticeLast]) [] [[], [], noticeLast] := by
      refine ⟨rfl, fun x member => ?_, nofun⟩
      simp only [mem_cons, not_mem_nil, or_false] at member
      rcases member with same | same | same <;> rw [same]
      · exact .inl white_nil
      · exact .inl white_nil
      · exact .inr last_
    have zero := (noticeKept_run run (by decide) (Notice.last.lf_notMem)).2 ⟨noticeLast, by simp, last_⟩
    have text : closed lf [[], []] ++ noticeLast = [] ++ [noticeLast].flatMap fun notice => [lf, lf] ++ notice := by
      rw [flatMap_singleton]
      rfl
    rw [text] at zero
    exact nomatch zero.symm.trans one

end Askai
