import Askai.Library.Pieces
import Askai.Notes.Model

/-!
# Names of notes

What `notes_name` accepts, without its loops.
-/

namespace Askai

open Library List

/-- What NTFS reads as the directory of a repository: its name, then spaces and dots only, up to the
end, a backslash or a colon. -/
def ReadsAsGit (piece : Bytes) : Prop :=
  ∃ git fill rest, piece = git ++ (fill ++ rest) ∧
    (equalCase git (ascii ".git") = true ∨ equalCase git (ascii "git~1") = true) ∧
      (∀ c ∈ fill, c = space ∨ c = dot) ∧
        (rest = [] ∨ rest.head? = some colon ∨ rest.head? = some backslash)

/-- Where the fill stops, the rest begins. -/
theorem fill_ends {fill rest : Bytes} (fills : ∀ c ∈ fill, c = space ∨ c = dot)
    (ends : rest = [] ∨ rest.head? = some colon ∨ rest.head? = some backslash) :
    (fill ++ rest).takeWhile filler = fill := by
  have all : ∀ c ∈ fill, filler c = true := by
    intro c member
    simpa [filler] using fills c member
  rw [takeWhile_append_of_pos all]
  have none : rest.takeWhile filler = [] := by
    cases rest with
    | nil => rfl
    | cons c rest =>
      have other : filler c = false := by
        simp only [List.head?_cons, Option.some.injEq, reduceCtorEq, false_or] at ends
        rcases ends with rfl | rfl <;> decide
      rw [takeWhile_cons, other]
      rfl
  rw [none, append_nil]

/-- The name of the directory is not a beginning of its other one. -/
theorem not_both {piece : Bytes} (one : cstrViewStartsCase piece (ascii ".git") = true)
    (other : cstrViewStartsCase piece (ascii "git~1") = true) : False := by
  obtain ⟨a, back, rfl, same⟩ := cstrViewStartsCase_iff.mp one
  obtain ⟨b, back', parts, same'⟩ := cstrViewStartsCase_iff.mp other
  simp only [equalCase, decide_eq_true_eq] at same same'
  have dots : ((ascii ".git").map lower).head? = some 46 := by decide
  have letters : ((ascii "git~1").map lower).head? = some 103 := by decide
  rw [← same, List.head?_map, Option.map_eq_some_iff] at dots
  rw [← same', List.head?_map, Option.map_eq_some_iff] at letters
  obtain ⟨x, first, is_dot⟩ := dots
  obtain ⟨y, second, is_letter⟩ := letters
  have same_byte : (a ++ back).head? = (b ++ back').head? := by rw [parts]
  rw [List.head?_append, List.head?_append, first, second, Option.some_or, Option.some_or,
    Option.some.injEq] at same_byte
  rw [same_byte, is_letter] at is_dot
  exact absurd is_dot (by decide)

theorem gitLength_eq {git more : Bytes}
    (is : equalCase git (ascii ".git") = true ∨ equalCase git (ascii "git~1") = true) :
    gitLength (git ++ more) = git.length ∧ git.length ≠ 0 := by
  have width {name : Bytes} (same : equalCase git name = true) : git.length = name.length := by
    simp only [equalCase, decide_eq_true_eq] at same
    simpa using congrArg List.length same
  have starts {name : Bytes} (same : equalCase git name = true) : cstrViewStartsCase (git ++ more) name = true :=
    cstrViewStartsCase_iff.mpr ⟨git, more, rfl, same⟩
  rcases is with first | second
  · rw [gitLength, if_pos (starts first), width first]
    decide
  · have other : ¬cstrViewStartsCase (git ++ more) (ascii ".git") = true := fun one =>
      not_both one (starts second)
    rw [gitLength, if_neg other, if_pos (starts second), width second]
    decide

theorem gitLength_ne {piece : Bytes} (named : gitLength piece ≠ 0) :
    ∃ git more, piece = git ++ more ∧ gitLength piece = git.length ∧
      (equalCase git (ascii ".git") = true ∨ equalCase git (ascii "git~1") = true) := by
  rw [gitLength] at named
  split at named
  · rename_i first
    obtain ⟨git, more, rfl, same⟩ := cstrViewStartsCase_iff.mp first
    exact ⟨git, more, rfl, (gitLength_eq (.inl same)).1, .inl same⟩
  split at named
  · rename_i second
    obtain ⟨git, more, rfl, same⟩ := cstrViewStartsCase_iff.mp second
    exact ⟨git, more, rfl, (gitLength_eq (.inr same)).1, .inr same⟩
  · exact absurd rfl named

/-- What the check of one piece looks for. -/
theorem gitEnds_iff (piece : Bytes) : gitEnds piece = true ↔ ReadsAsGit piece := by
  have place (git fill rest : Bytes) : (git ++ (fill ++ rest))[git.length + fill.length]? = rest.head? := by
    rw [← append_assoc, List.getElem?_append_right (by simp), length_append, Nat.sub_self, List.head?_eq_getElem?]
  have whole (git fill rest : Bytes) : git.length + fill.length = (git ++ (fill ++ rest)).length ↔ rest = [] := by
    rw [length_append, length_append, ← length_eq_zero_iff]
    omega
  constructor
  · intro ends
    simp only [gitEnds, Bool.and_eq_true, decide_eq_true_eq, Bool.or_eq_true] at ends
    obtain ⟨some_, ends⟩ := ends
    have named : gitLength piece ≠ 0 := by
      intro none
      rw [if_pos none] at some_
      exact some_ rfl
    obtain ⟨git, more, rfl, length, is⟩ := gitLength_ne named
    rw [if_neg named, length, drop_left] at ends
    obtain ⟨fill, rest, same, fills, rfl⟩ : ∃ fill rest, more.takeWhile filler = fill ∧
        (∀ c ∈ fill, filler c = true) ∧ more = fill ++ rest :=
      ⟨_, _, rfl, fun c member => mem_takeWhile_imp member, (@List.takeWhile_append_dropWhile _ filler more).symm⟩
    rw [same, place, whole] at ends
    refine ⟨git, fill, rest, rfl, is, ?_, ?_⟩
    · intro c member
      simpa [filler] using fills c member
    · tauto
  · rintro ⟨git, fill, rest, rfl, is, fills, ends⟩
    obtain ⟨length, filled⟩ := @gitLength_eq git (fill ++ rest) is
    have k : git.length + fill.length ≠ 0 := by omega
    simp only [gitEnds, length, filled, if_false, drop_left, fill_ends fills ends, place, whole,
      k, ne_eq, not_false_eq_true, decide_true, Bool.true_and, Bool.or_eq_true, decide_eq_true_eq]
    tauto

theorem notesIsDotgit_iff (part : Bytes) :
    notesIsDotgit part = true ↔ ∃ piece, Piece backslash part piece ∧ ReadsAsGit piece := by
  induction size : part.length using Nat.strong_induction_on generalizing part with
  | _ size ih =>
    rw [notesIsDotgit]
    split
    · rename_i ends
      simp only [true_iff]
      exact ⟨part, .inl rfl, (gitEnds_iff part).mp ends⟩
    · rename_i other
      rw [gitEnds_iff] at other
      split
      · rename_i none
        simp only [piece_of_not_mem (cut_eq_none.mp none), exists_eq_left, other]
        decide
      · rename_i first rest some_
        have less := cut_length some_
        rw [ih rest.length (by omega) rest rfl]
        simp only [piece_of_cut some_, or_and_right, exists_or, exists_eq_left, other, false_or]

/-- A part that names no note's directory of its own, nor the one above, nor a repository's. -/
def PlainPart (part : Bytes) : Prop :=
  part ≠ [] ∧ part ≠ [dot] ∧ part ≠ [dot, dot] ∧ ∀ piece, Piece backslash part piece → ¬ReadsAsGit piece

theorem notesPartOk_iff (part : Bytes) : notesPartOk part = true ↔ PlainPart part := by
  rw [notesPartOk, Bool.not_eq_true', ← Bool.not_eq_true]
  simp only [Bool.or_eq_true, decide_eq_true_eq, not_or, notesIsDotgit_iff, not_exists, not_and,
    and_assoc, PlainPart, ne_eq]

theorem notesParts_iff (s : Bytes) : notesParts s = true ↔ ∀ part, Part slash s part → PlainPart part := by
  induction size : s.length using Nat.strong_induction_on generalizing s with
  | _ size ih =>
    rw [notesParts]
    split
    · rename_i none
      simp only [part_of_not_mem (cut_eq_none.mp none), forall_eq, notesPartOk_iff]
    · rename_i first rest some_
      have less := cut_length some_
      simp only [part_of_cut some_, or_imp, forall_and, forall_eq, Bool.and_eq_true, notesPartOk_iff,
        ih rest.length (by omega) rest rfl]

/-- A name of a note, as it is kept. -/
structure PlainName (s : Bytes) : Prop where
  filled : s ≠ []
  short : s.length ≤ notesNameMax
  clear : ∀ c ∈ s, 0x20 ≤ c ∧ c ≠ 0x7f
  parts : ∀ part, Part slash s part → PlainPart part

/-- `notes_name` drops the slashes at the start and accepts the plain names. -/
theorem notesName_iff {name s : Bytes} : notesName name = some s ↔ s = name.dropWhile (· = slash) ∧ PlainName s := by
  simp only [notesName]
  generalize name.dropWhile (· = slash) = rest
  split
  · rename_i length
    rw [Bool.or_eq_true, decide_eq_true_eq, decide_eq_true_eq] at length
    constructor
    · nofun
    · rintro ⟨rfl, plain⟩
      rcases length with empty | long
      · exact absurd empty plain.filled
      · exact absurd plain.short (Nat.not_le.mpr long)
  rename_i length
  rw [Bool.or_eq_true, decide_eq_true_eq, decide_eq_true_eq, not_or, not_lt] at length
  have any_iff : (rest.any fun c => c < 0x20 || c = 0x7f) = true ↔ ¬∀ c ∈ rest, 0x20 ≤ c ∧ c ≠ 0x7f := by
    simp only [any_eq_true, Bool.or_eq_true, decide_eq_true_eq, not_forall, not_and_or, not_not,
      UInt8.not_le, exists_prop]
  split
  · rename_i control
    constructor
    · nofun
    · rintro ⟨rfl, plain⟩
      exact absurd plain.clear (any_iff.mp control)
  rename_i clear
  rw [any_iff, not_not] at clear
  split
  · rename_i parts
    rw [notesParts_iff] at parts
    constructor
    · intro same
      obtain rfl := Option.some.inj same
      exact ⟨rfl, length.1, length.2, clear, parts⟩
    · rintro ⟨rfl, -⟩
      rfl
  · rename_i parts
    rw [notesParts_iff] at parts
    constructor
    · nofun
    · rintro ⟨rfl, plain⟩
      exact absurd plain.parts parts

end Askai
