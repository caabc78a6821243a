import Askai.Notes.Model

/-!
# Branches of notebooks

A notebook's branch names its participant, the principal and the side, and no branch outside the
notebooks can be named.
-/

namespace Askai

open Library

/-- The words of a notebook's branch. -/
@[ext]
structure Notebook where
  participant : Bytes
  who : Bytes
  side : NotesSide
  word : utilWord participant utilWordMax = true
  known : who = notesAnonymous ∨ who.length = notesWho ∧ utilIsHex who = true

namespace Notebook

/-- The notebook's name in the tool's arguments. -/
def selector (book : Notebook) : Bytes :=
  book.participant ++ slash :: (book.who ++ slash :: notesSides book.side)

def branch (book : Notebook) : Bytes :=
  notesBranch ++ book.selector

end Notebook

/-- The notebook of a principal, 0 for none. -/
def notebookOf (notes : Notes) (principal : UInt64) (side : NotesSide) : Notebook where
  participant := notes.participant
  who := if principal ≠ 0 then hexDigits notesWho principal.toNat else notesAnonymous
  side := side
  word := notes.word
  known := by
    split
    · exact .inr ⟨length_hexDigits .., utilIsHex_hexDigits ..⟩
    · exact .inl rfl

theorem notesRepo_eq (notes : Notes) (principal : UInt64) (side : NotesSide) :
    notesRepo notes principal side = (notebookOf notes principal side).branch := by
  simp [notesRepo, Notebook.branch, Notebook.selector, notebookOf]

/-! ## The bytes of a branch -/

theorem utilWord_iff {s : Bytes} {max : Nat} :
    utilWord s max = true ↔ s ≠ [] ∧ s.length ≤ max ∧ ∀ c ∈ s, 97 ≤ c ∧ c ≤ 122 ∨ 65 ≤ c ∧ c ≤ 90 ∨
      48 ≤ c ∧ c ≤ 57 ∨ c = 95 ∨ c = 45 := by
  simp [utilWord, and_assoc, or_assoc]

/-- A byte that is no letter, digit, underscore or hyphen is not in a word. -/
theorem not_mem_of_utilWord {s : Bytes} {max : Nat} (word : utilWord s max = true) {c : UInt8}
    (other : utilWord [c] 1 = false) : c ∉ s := by
  intro member
  have here := (utilWord_iff.mp word).2.2 c member
  rw [← Bool.not_eq_true, utilWord_iff] at other
  exact other ⟨by simp, by simp, by simpa using here⟩

namespace Notebook

theorem who_word (book : Notebook) : utilWord book.who notesWho = true := by
  rcases book.known with anonymous | ⟨length, hex⟩
  · rw [anonymous]
    decide
  · rw [utilWord_iff]
    refine ⟨?_, by omega, ?_⟩
    · intro empty
      rw [empty] at length
      exact absurd length (by decide)
    · intro c member
      have digit := List.all_eq_true.mp hex c member
      simp only [Bool.or_eq_true, Bool.and_eq_true, decide_eq_true_eq] at digit
      rcases digit with digit | ⟨low, high⟩
      · exact .inr (.inr (.inl digit))
      · exact .inl ⟨low, UInt8.le_trans high (by decide)⟩

/-- Only letters, digits, underscores, hyphens and slashes stand in a branch. -/
theorem not_mem_branch (book : Notebook) {c : UInt8} (other : utilWord [c] 1 = false)
    (apart : c ≠ slash) : c ∉ book.branch := by
  have participant := not_mem_of_utilWord book.word other
  have who := not_mem_of_utilWord book.who_word other
  have side : c ∉ notesSides book.side := by
    have word : utilWord (notesSides book.side) 8 = true := by cases book.side <;> decide
    exact not_mem_of_utilWord word other
  have refs : c ∉ ascii "refs" := @not_mem_of_utilWord _ 8 (by decide) _ other
  have heads : c ∉ ascii "heads" := @not_mem_of_utilWord _ 8 (by decide) _ other
  have notes : c ∉ ascii "notes" := @not_mem_of_utilWord _ 8 (by decide) _ other
  have parts : notesBranch = ascii "refs" ++ slash :: (ascii "heads" ++ slash :: (ascii "notes" ++ [slash])) := by
    decide
  simp only [branch, selector, parts, List.mem_append, List.mem_cons, participant, who, side, refs,
    heads, notes, apart, List.not_mem_nil, or_self, not_false_eq_true]

/-- The selector tells the words. -/
theorem cut_selector (book : Notebook) :
    cut slash book.selector = some (book.participant, book.who ++ slash :: notesSides book.side) ∧
      cut slash (book.who ++ slash :: notesSides book.side) = some (book.who, notesSides book.side) :=
  ⟨cut_append _ (not_mem_of_utilWord book.word (by decide)),
    cut_append _ (not_mem_of_utilWord book.who_word (by decide))⟩

theorem notesSides_inj {side side' : NotesSide} (same : notesSides side = notesSides side') : side = side' := by
  revert same
  cases side <;> cases side' <;> decide

theorem selector_inj {book other : Notebook} (same : book.selector = other.selector) : book = other := by
  obtain ⟨first, second⟩ := book.cut_selector
  obtain ⟨first', second'⟩ := other.cut_selector
  rw [same, first'] at first
  obtain ⟨participant, rest⟩ := Prod.mk.inj (Option.some.inj first)
  rw [← rest, second'] at second
  obtain ⟨who, side⟩ := Prod.mk.inj (Option.some.inj second)
  exact Notebook.ext participant.symm who.symm (notesSides_inj side.symm)

theorem branch_inj {book other : Notebook} (same : book.branch = other.branch) : book = other :=
  selector_inj (List.append_cancel_left same)

end Notebook

/-- Different callers, or sides of theirs, have different notebooks. -/
theorem notebookOf_inj {notes notes' : Notes} {principal principal' : UInt64}
    {side side' : NotesSide} (same : notebookOf notes principal side = notebookOf notes' principal' side') :
    notes.participant = notes'.participant ∧ principal = principal' ∧ side = side' := by
  simp only [notebookOf, Notebook.mk.injEq] at same
  obtain ⟨participant, who, side_eq⟩ := same
  have digits (p : UInt64) : hexDigits notesWho p.toNat ≠ notesAnonymous := by
    intro named
    have length := congrArg List.length named
    rw [length_hexDigits] at length
    exact absurd length (by decide)
  refine ⟨participant, ?_, side_eq⟩
  rcases eq_or_ne principal 0 with none | some_ <;> rcases eq_or_ne principal' 0 with none' | some_'
  · rw [none, none']
  · rw [if_neg (not_not.mpr none), if_pos some_'] at who
    exact absurd who.symm (digits principal')
  · rw [if_pos some_, if_neg (not_not.mpr none')] at who
    exact absurd who (digits principal)
  · rw [if_pos some_, if_pos some_'] at who
    have width : (16 : Nat) ^ notesWho = 2 ^ 64 := by decide
    apply UInt64.toNat_inj.mp
    apply hexDigits_inj _ _ who
    · rw [width]
      exact principal.toNat_lt
    · rw [width]
      exact principal'.toNat_lt

/-- `notes_select` takes the selectors of notebooks, and gives their branches. -/
theorem notesSelect_eq_some {name repo : Bytes} : notesSelect name = some repo ↔
      ∃ book : Notebook, name = book.selector ∧ repo = book.branch := by
  constructor
  · intro ok
    rw [notesSelect] at ok
    split at ok
    · cases ok
    cases first : cut slash name with
    | none =>
      rw [first] at ok
      cases ok
    | some parts =>
      obtain ⟨participant, rest⟩ := parts
      simp only [first] at ok
      split at ok
      · cases ok
      rename_i word
      cases second : cut slash rest with
      | none =>
        rw [second] at ok
        cases ok
      | some parts =>
        obtain ⟨who, side⟩ := parts
        simp only [second] at ok
        split at ok
        · cases ok
        rename_i known
        obtain rfl := Option.some.inj ok
        simp only [Bool.or_eq_true, Bool.and_eq_true, decide_eq_true_eq, not_or, not_and,
          Bool.not_eq_true', Bool.not_eq_false, ne_eq, not_not] at known word
        obtain ⟨known, side_known⟩ := known
        have known : who = notesAnonymous ∨ who.length = notesWho ∧ utilIsHex who = true := by
          rcases eq_or_ne who notesAnonymous with same | other
          · exact .inl same
          · exact .inr (known other)
        have side_is : side = notesSides .upstream ∨ side = notesSides .client := by
          simpa using side_known
        obtain ⟨whole, -⟩ := cut_eq_some.mp first
        obtain ⟨rest_eq, -⟩ := cut_eq_some.mp second
        rcases side_is with rfl | rfl
        · exact ⟨⟨participant, who, .upstream, word, known⟩, by rw [whole, rest_eq]; rfl, by rw [whole, rest_eq]; rfl⟩
        · exact ⟨⟨participant, who, .client, word, known⟩, by rw [whole, rest_eq]; rfl, by rw [whole, rest_eq]; rfl⟩
  · rintro ⟨book, rfl, rfl⟩
    obtain ⟨first, second⟩ := book.cut_selector
    obtain ⟨filled, short, -⟩ := utilWord_iff.mp book.word
    have who_short := (utilWord_iff.mp book.who_word).2.1
    have side_short : (notesSides book.side).length ≤ 8 := by cases book.side <;> decide
    have length : ¬((decide (book.selector = []) ||
        decide (notesRepoMax < notesBranch.length + 1 + book.selector.length)) = true) := by
      have branch_length : notesBranch.length = 17 := by decide
      simp only [Bool.or_eq_true, decide_eq_true_eq, not_or, branch_length, notesRepoMax]
      refine ⟨?_, ?_⟩
      · simp [Notebook.selector]
      · simp only [Notebook.selector, List.length_append, List.length_cons]
        rw [utilWordMax] at short
        rw [notesWho] at who_short
        omega
    have who_known : ¬((decide (book.who ≠ notesAnonymous) &&
        (decide (book.who.length ≠ notesWho) || !utilIsHex book.who) ||
          !([notesSides .upstream, notesSides .client].contains (notesSides book.side))) = true) := by
      have side_known : [notesSides .upstream, notesSides .client].contains (notesSides book.side) =
          true := by cases book.side <;> decide
      rw [side_known]
      rcases book.known with anonymous | ⟨width, hex⟩
      · simp [anonymous]
      · simp [width, hex]
    rw [notesSelect, if_neg length, first]
    simp only [book.word, Bool.not_true, Bool.false_eq_true, if_false, second]
    rw [if_neg who_known, Notebook.branch]

/-- Every notebook that a caller has can be named. -/
theorem notesSelect_notesRepo (notes : Notes) (principal : UInt64) (side : NotesSide) :
    ∃ name, notesRepo notes principal side = notesBranch ++ name ∧
      notesSelect name = some (notesRepo notes principal side) := by
  rw [notesRepo_eq]
  exact ⟨_, rfl, notesSelect_eq_some.mpr ⟨_, rfl, rfl⟩⟩

end Askai
