import Askai.Library.TextLines
import Askai.Notes.Listing

/-!
# Names that the client completes

How the client reads the names of notes and of notebooks from the texts of the notes tool
(`cli_client_read_files` and `cli_client_read_notebooks`), and that it reads what the tool lists.
-/

namespace Askai

open Library List

/-! ## Files -/

/-- The loop for the last opening parenthesis. -/
def lastOpen (line : Bytes) : Nat → Nat
  | 0 => 0
  | n + 1 => if line.getD (n + 1) 0 ≠ 40 then lastOpen line n else n + 1

/-- `sizeof " 2026-10-14 12:34 UTC  " - 1`. -/
def dateSize : Nat := (ascii " 2026-10-14 12:34 UTC  ").length

/-- `cli_client_file_name`: the empty string for a line in none of the forms. -/
def cliClientFileName (line : Bytes) : Bytes :=
  if ¬ ascii ")" <:+ line then []
  else
    let opens := lastOpen line (line.length - 1)
    if opens < 3 ∨ (line.drop (opens - 2)).take 2 ≠ ascii "  " then []
    else
      let count := (line.drop (opens + 1)).take (line.length - opens - 2)
      let name := line.take (opens - 2)
      let digits := (utilDigits count (2 ^ 64 - 1) 0 0).1
      let binary := decide (count = ascii "binary")
      let suffix := if binary then [] else count.drop digits
      if !binary ∧ (digits = 0 ∨ ¬ ascii " " <+: suffix) then []
      else if ascii " bytes, " <+: suffix then
        if oidValid (suffix.drop (ascii " bytes, ").length) then name else []
      else if suffix ≠ [] ∧ suffix ≠ ascii " line" ∧ suffix ≠ ascii " lines" then []
      else
        match cut dot name with
        | none => []
        | some (index, name) =>
          if utilNumber index = none ∨ ¬ ascii " " <+: name then []
          else if name.length ≤ dateSize ∨ (name.drop 18).take 5 ≠ ascii "UTC  " then []
          else name.drop dateSize

/-- The most names that the client reads. -/
def cliClientFilesMax : Nat := 65536

/-- `cli_client_read_files`, after the names that were found: none for `E2BIG`. -/
def cliClientReadFiles (text : Bytes) (found : List Bytes) : Option (List Bytes) :=
  match _cut : cut lf text with
  | none => some found
  | some (line, text) =>
    let name := cliClientFileName line
    if name = [] then cliClientReadFiles text found
    else if found.length = cliClientFilesMax then none
    else cliClientReadFiles text (found ++ [name])
termination_by text.length
decreasing_by
  all_goals
    have length := cut_length _cut
    omega

/-! ## Notebooks -/

/-- A line of `cli_client_read_notebooks`: the participant's name, and the selector. -/
def cliClientNotebook (line : Bytes) : Option (Bytes × Bytes) :=
  let self := ascii "Self (writable): "
  let peer := ascii " (read-only)"
  let line := if self <+: line then line.drop self.length else line
  let line := if peer <:+ line then line.take (line.length - peer.length) else line
  match cut slash line with
  | none => none
  | some (name, side) =>
    match cut slash side with
    | none => none
    | some (principal, side) =>
      if (side ≠ ascii "client" ∧ side ≠ ascii "upstream") ∨ utilWord name utilWordMax = false then none
      else if principal ≠ ascii "anonymous" ∧ (principal.length ≠ 16 ∨ utilIsHex principal = false) then none
      else some (name, line)

/-- `cli_client_read_notebooks`: the names and the selectors that it appends. -/
def cliClientReadNotebooks (text : Bytes) : List Bytes × List Bytes :=
  match _cut : cut lf text with
  | none => ([], [])
  | some (line, text) =>
    let (names, notebooks) := cliClientReadNotebooks text
    match cliClientNotebook line with
    | none => (names, notebooks)
    | some (name, line) => (name :: names, line :: notebooks)
termination_by text.length
decreasing_by
  have length := cut_length _cut
  omega

/-! ## The names of files -/

section Files

variable {line text : Bytes} {found : List Bytes}

theorem cliClientReadFiles_rest (last : lf ∉ text) : cliClientReadFiles text found = some found := by
  rw [cliClientReadFiles]
  split
  · rfl
  · next here =>
    rw [cut_eq_none.mpr last] at here
    cases here

theorem cliClientReadFiles_line (whole : lf ∉ line) : cliClientReadFiles (line ++ lf :: text) found =
      if cliClientFileName line = [] then cliClientReadFiles text found
      else if found.length = cliClientFilesMax then none
      else cliClientReadFiles text (found ++ [cliClientFileName line]) := by
  rw [cliClientReadFiles]
  split
  · next here =>
    rw [cut_append _ whole] at here
    cases here
  · next here =>
    rw [cut_append _ whole] at here
    obtain ⟨rfl, rfl⟩ := Prod.mk.inj (Option.some.inj here)
    rfl

/-- A line that ends in something else has no name. -/
theorem no_name {c : UInt8} (front : Bytes) (other : c ≠ 41) : cliClientFileName (front ++ [c]) = [] := by
  rw [cliClientFileName, if_pos]
  rintro ⟨before, same⟩
  rw [show ascii ")" = [41] by decide] at same
  exact other (append_inj_right' same rfl |> singleton_inj.mp |> Eq.symm)

/-- The last opening parenthesis is found, if there is one. -/
theorem lastOpen_eq (front : Bytes) {back : Bytes} (none_ : 40 ∉ back) (more : Nat) (within : more ≤ back.length) :
    lastOpen (front ++ 40 :: back) (front.length + more) = front.length := by
  induction more with
  | zero =>
    cases front with
    | nil => rfl
    | cons c front =>
      rw [Nat.add_zero, length_cons, lastOpen, if_neg]
      rw [not_not, getD_eq_getElem?_getD, List.getElem?_append_right (by rw [length_cons]), length_cons, Nat.sub_self]
      rfl
  | succ more ih =>
    have here : (front ++ 40 :: back).getD (front.length + more + 1) 0 ≠ 40 := by
      rw [getD_eq_getElem?_getD, List.getElem?_append_right (by omega),
        show front.length + more + 1 - front.length = more + 1 by omega, List.getElem?_cons_succ]
      rw [List.getElem?_eq_getElem (by omega), Option.getD_some]
      intro same
      exact none_ (same ▸ getElem_mem _)
    rw [← Nat.add_assoc, lastOpen, if_pos here]
    exact ih (by omega)

/-- Digits are read up to a byte that is no digit. -/
theorem utilDigits_append {s : Bytes} (digits : ∀ c ∈ s, digit c = true) {c : UInt8} (other : digit c = false)
    {max value : Nat} (rest : Bytes) (i : Nat) (fits : s.foldl (fun n c => n * 10 + (c.toNat - 48)) value ≤ max) :
    (utilDigits (s ++ c :: rest) max i value).1 = i + s.length := by
  induction s generalizing i value with
  | nil =>
    rw [nil_append, utilDigits, if_neg (by rw [other]; simp)]
    rfl
  | cons d s ih =>
    obtain ⟨first, later⟩ := forall_mem_cons.mp digits
    have least := le_foldl_digits s (value * 10 + (d.toNat - 48))
    rw [foldl_cons] at fits
    have room : ¬ (max < d.toNat - 48 || (max - (d.toNat - 48)) / 10 < value) = true := by
      simp only [Bool.or_eq_true, decide_eq_true_eq]
      omega
    rw [cons_append, utilDigits, if_pos first]
    simp only [if_neg room]
    rw [ih later (i + 1) fits, length_cons]
    omega

/-- The line of a file, without its line feed. -/
def namedLine (name : Bytes) (bytes : Nat) (hex : Bytes) : Bytes :=
  (name ++ ascii "  ") ++ 40 :: (utilDecimal bytes ++ ascii " bytes, " ++ hex ++ ascii ")")

/-- The name of a file is read from its line, whatever the name is. -/
theorem cliClientFileName_namedLine {name hex : Bytes} {bytes : Nat} (some_ : name ≠ []) (fits : bytes < 2 ^ 64)
    (id : oidValid hex = true) : cliClientFileName (namedLine name bytes hex) = name := by
  have digits := digits_utilDecimal bytes
  obtain ⟨count, countIs⟩ : ∃ count, count = utilDecimal bytes ++ ascii " bytes, " ++ hex := ⟨_, rfl⟩
  have back : utilDecimal bytes ++ ascii " bytes, " ++ hex ++ ascii ")" = count ++ ascii ")" := by rw [countIs]
  have none_ : 40 ∉ count ++ ascii ")" := by
    rw [countIs, mem_append, mem_append, mem_append]
    rintro (((first | words) | hexes) | last)
    · exact digit_ne (digits _ first) (by decide) rfl
    · exact absurd words (by decide)
    · have digit := all_eq_true.mp (oidValid_iff.mp id).2 _ hexes
      exact absurd digit (by decide)
    · exact absurd last (by decide)
  have one : (ascii ")").length = 1 := by decide
  have two : (ascii "  ").length = 2 := by decide
  have eight : (ascii " bytes, ").length = 8 := by decide
  have front : (name ++ ascii "  ").length = name.length + 2 := by rw [length_append, two]
  have positive := length_pos_iff.mpr some_
  have ends : ascii ")" <:+ namedLine name bytes hex := by
    rw [namedLine, ← cons_append, ← append_assoc]
    exact suffix_append _ _
  have length : (namedLine name bytes hex).length = name.length + 2 + (count.length + 1) + 1 := by
    rw [namedLine, length_append, front, length_cons, back, length_append, one]
    omega
  have opens : lastOpen (namedLine name bytes hex) ((namedLine name bytes hex).length - 1) = name.length + 2 := by
    have last := lastOpen_eq (name ++ ascii "  ") none_ (count ++ ascii ")").length (Nat.le_refl _)
    have whole : name.length + 2 + (count ++ ascii ")").length = name.length + 2 + (count.length + 1) := by
      rw [length_append, one]
    rw [front, whole] at last
    rw [length, Nat.add_sub_cancel, namedLine, back]
    exact last
  have spaces : ((namedLine name bytes hex).drop name.length).take 2 = ascii "  " := by
    rw [namedLine, append_assoc, drop_left, ← two, take_left]
  have counted : ((namedLine name bytes hex).drop (name.length + 3)).take count.length = count := by
    rw [namedLine, show name.length + 3 = (name ++ ascii "  ").length + 1 by rw [front], ← drop_drop, drop_left,
      back]
    change (count ++ ascii ")").take count.length = count
    rw [take_left]
  have taken : (namedLine name bytes hex).take name.length = name := by
    rw [namedLine, append_assoc, take_left]
  have value := foldl_utilDecimal bytes
  have words : ascii " bytes, " = space :: ascii "bytes, " := by decide
  have parsed : (utilDigits count (2 ^ 64 - 1) 0 0).1 = (utilDecimal bytes).length := by
    have all := utilDigits_append digits (c := space) (by decide) (ascii "bytes, " ++ hex) 0
      (show (utilDecimal bytes).foldl (fun n c => n * 10 + (c.toNat - 48)) 0 ≤ 2 ^ 64 - 1 by rw [value]; omega)
    rw [countIs, append_assoc, words, cons_append, all, Nat.zero_add]
  have suffix : count.drop (utilDecimal bytes).length = ascii " bytes, " ++ hex := by
    rw [countIs, append_assoc, drop_left]
  have number : decide (count = ascii "binary") = false := by
    rw [decide_eq_false_iff_not]
    intro same
    obtain ⟨first, rest, is⟩ := exists_cons_of_ne_nil (utilDecimal_ne_nil bytes)
    have isDigit := digits first (is ▸ mem_cons_self)
    have head := congrArg List.head? same
    rw [countIs, is, cons_append, cons_append, List.head?_cons] at head
    rw [show (ascii "binary").head? = some 98 by decide] at head
    obtain rfl := Option.some.inj head
    exact absurd isDigit (by decide)
  have some_digits : (utilDecimal bytes).length ≠ 0 := mt length_eq_zero_iff.mp (utilDecimal_ne_nil bytes)
  have blank_ : ascii " " <+: ascii " bytes, " ++ hex := by
    rw [words]
    exact prefix_append [space] _
  have fine : ¬ (name.length + 2 < 3 ∨ ascii "  " ≠ ascii "  ") := by
    rintro (short | other)
    · omega
    · exact other rfl
  rw [cliClientFileName, if_neg (not_not.mpr ends), opens]
  dsimp only
  rw [Nat.add_sub_cancel, spaces, if_neg fine, taken, length,
    show name.length + 2 + (count.length + 1) + 1 - (name.length + 2) - 2 = count.length by omega, counted, parsed, number,
    suffix, if_neg Bool.false_ne_true]
  rw [if_neg, if_pos (prefix_append _ _), drop_left, if_pos id]
  rintro ⟨-, none_ | other⟩
  · exact some_digits none_
  · exact other blank_

/-- Files of git are read as their names, after others, as far as they all fit. -/
theorem cliClientReadFiles_lines (files : List GitFile) (few : found.length ≤ cliClientFilesMax) (text : Bytes) :
    cliClientReadFiles ((files.flatMap fun f => fileLine f.file) ++ text) found =
      if found.length + files.length ≤ cliClientFilesMax then
        cliClientReadFiles text (found ++ files.map fun f => f.file.name)
      else none := by
  induction files generalizing found with
  | nil =>
    rw [flatMap_nil, nil_append, length_nil, Nat.add_zero, if_pos few, map_nil, append_nil]
  | cons f files ih =>
    have some_ := f.plain.filled
    have valid := Oid.valid_of_ne f.id
    have name := cliClientFileName_namedLine some_ f.fits valid
    have whole : lf ∉ namedLine f.file.name f.file.bytes f.file.id.hex := by
      simp only [namedLine, mem_append, mem_cons, f.not_mem_name (c := lf) (by decide),
        f.not_mem_bytes (c := lf) (by decide), f.not_mem_hex (c := lf) (by decide), false_or, or_false, not_or]
      decide
    have line : fileLine f.file = namedLine f.file.name f.file.bytes f.file.id.hex ++ [lf] := by
      have all : f.file.name.take (jbUtf8 f.file.name) = f.file.name := by
        rw [jbUtf8_of_isUtf8 f.text, take_length]
      have opens : ascii "  (" = ascii "  " ++ [40] := by decide
      have closes : ascii ")\n" = ascii ")" ++ [lf] := by decide
      rw [fileLine, namedLine, all, opens, closes]
      simp only [append_assoc, cons_append, nil_append]
    rw [flatMap_cons, line, append_assoc, append_assoc, singleton_append, cliClientReadFiles_line whole,
      name, if_neg some_, length_cons]
    by_cases full : found.length = cliClientFilesMax
    · rw [if_pos full, if_neg (by omega)]
    · have length : (found ++ [f.file.name]).length = found.length + 1 := by
        rw [length_append, length_singleton]
      rw [if_neg full, ih (by omega), length, map_cons, append_assoc, singleton_append,
        show found.length + 1 + files.length = found.length + (files.length + 1) by omega]

end Files

/-! ## The names of notebooks -/

section Notebooks

variable {line text : Bytes}

theorem cliClientReadNotebooks_rest (last : lf ∉ text) : cliClientReadNotebooks text = ([], []) := by
  rw [cliClientReadNotebooks]
  split
  · rfl
  · next here =>
    rw [cut_eq_none.mpr last] at here
    cases here

/-- A line adds its name and its selector. -/
theorem cliClientReadNotebooks_line (whole : lf ∉ line) : cliClientReadNotebooks (line ++ lf :: text) =
      ((cliClientNotebook line).toList.map Prod.fst ++ (cliClientReadNotebooks text).1,
        (cliClientNotebook line).toList.map Prod.snd ++ (cliClientReadNotebooks text).2) := by
  rw [cliClientReadNotebooks]
  split
  · next here =>
    rw [cut_append _ whole] at here
    cases here
  · next here =>
    rw [cut_append _ whole] at here
    obtain ⟨rfl, rfl⟩ := Prod.mk.inj (Option.some.inj here)
    cases is : cliClientNotebook line with
    | none => rfl
    | some both => rfl

/-- What is left of a line without what the tool writes around a selector. -/
def bareLine (line : Bytes) : Bytes :=
  let line := if ascii "Self (writable): " <+: line then line.drop (ascii "Self (writable): ").length else line
  if ascii " (read-only)" <:+ line then line.take (line.length - (ascii " (read-only)").length) else line

/-- The client takes the selectors that `notes_select` takes. -/
theorem cliClientNotebook_eq_some {both : Bytes × Bytes} : cliClientNotebook line = some both ↔
      ∃ book : Notebook, bareLine line = book.selector ∧ both = (book.participant, book.selector) := by
  have is : cliClientNotebook line = match cut slash (bareLine line) with
      | none => none
      | some (name, side) =>
        match cut slash side with
        | none => none
        | some (principal, side) =>
          if (side ≠ ascii "client" ∧ side ≠ ascii "upstream") ∨ utilWord name utilWordMax = false then none
          else if principal ≠ ascii "anonymous" ∧ (principal.length ≠ 16 ∨ utilIsHex principal = false) then none
          else some (name, bareLine line) := rfl
  rw [is]
  generalize bareLine line = bare
  constructor
  · intro reads
    split at reads
    · cases reads
    · next name side first =>
      split at reads
      · cases reads
      · next principal side' second =>
        split_ifs at reads with bad bad'
        obtain rfl := Option.some.inj reads
        rw [not_or, not_and_or, not_not, not_not, Bool.not_eq_false] at bad
        rw [not_and_or, not_not, not_or, not_not, Bool.not_eq_false] at bad'
        obtain ⟨whole, -⟩ := cut_eq_some.mp first
        obtain ⟨rest, -⟩ := cut_eq_some.mp second
        obtain ⟨sides, word⟩ := bad
        have book : ∀ side : NotesSide, side' = notesSides side → ∃ book : Notebook, bare = book.selector ∧
            (name, bare) = (book.participant, book.selector) := by
          intro side is
          have selector : bare = name ++ slash :: (principal ++ slash :: notesSides side) := by rw [whole, rest, is]
          exact ⟨⟨name, principal, side, word, bad'⟩, selector, by rw [selector]; rfl⟩
        obtain client | upstream := sides
        · exact book .client client
        · exact book .upstream upstream
  · rintro ⟨book, rfl, rfl⟩
    obtain ⟨first, second⟩ := book.cut_selector
    rw [first]
    dsimp only
    rw [second]
    dsimp only
    rw [if_neg, if_neg]
    · rintro ⟨named, other⟩
      obtain anonymous | ⟨length, hex⟩ := book.known
      · exact named anonymous
      · obtain long | noHex := other
        · exact long length
        · rw [hex] at noHex
          cases noHex
    · rintro (⟨client, upstream⟩ | noWord)
      · cases side : book.side with
        | upstream => exact upstream (by rw [side]; rfl)
        | client => exact client (by rw [side]; rfl)
      · rw [book.word] at noWord
        cases noWord

/-- No selector has a blank. -/
theorem space_not_mem_selector (book : Notebook) : space ∉ book.selector := by
  intro among
  exact book.not_mem_branch (c := space) (by decide) (by decide) (mem_append_right _ among)

theorem lf_not_mem_selector (book : Notebook) : lf ∉ book.selector := by
  intro among
  exact book.not_mem_branch (c := lf) (by decide) (by decide) (mem_append_right _ among)

theorem bareLine_self (book : Notebook) : bareLine (ascii "Self (writable): " ++ book.selector) = book.selector := by
  have plain : ¬ ascii " (read-only)" <:+ book.selector := by
    intro ends
    have blank_ : space ∈ ascii " (read-only)" := by decide
    exact space_not_mem_selector book (ends.subset blank_)
  rw [bareLine, if_pos (prefix_append _ _), drop_left, if_neg plain]

theorem bareLine_peer (book : Notebook) : bareLine (book.selector ++ ascii " (read-only)") = book.selector := by
  have plain : ¬ ascii "Self (writable): " <+: book.selector ++ ascii " (read-only)" := by
    intro begins
    have colon_ : colon ∈ ascii "Self (writable): " := by decide
    obtain selector | peer := mem_append.mp (begins.subset colon_)
    · exact book.not_mem_branch (c := colon) (by decide) (by decide) (mem_append_right _ selector)
    · exact absurd peer (by decide)
  rw [bareLine, if_neg plain, if_pos (suffix_append _ _), length_append, Nat.add_sub_cancel, take_left]

theorem notesSelect_selector (book : Notebook) : notesSelect book.selector = some book.branch :=
  notesSelect_eq_some.mpr ⟨book, rfl, rfl⟩

theorem exists_book_of_select {name : Bytes} (some_ : notesSelect name ≠ none) : ∃ book : Notebook, name = book.selector := by
  obtain ⟨repo, is⟩ := Option.ne_none_iff_exists'.mp some_
  obtain ⟨book, same, -⟩ := notesSelect_eq_some.mp is
  exact ⟨book, same⟩

/-- Of one line with a selector in it, the client takes the selector exactly if `notes_select` does. -/
theorem mem_read_line (name : Bytes) {front back : Bytes} (plain : lf ∉ front ∧ lf ∉ back)
    (bare : ∀ book : Notebook, bareLine (front ++ book.selector ++ back) = book.selector) :
    name ∈ (cliClientReadNotebooks (front ++ name ++ back ++ [lf])).2 ↔ notesSelect name ≠ none := by
  constructor
  · intro among
    -- only selectors are taken, whatever the text is
    have every : ∀ n (text : Bytes), text.length ≤ n → ∀ x ∈ (cliClientReadNotebooks text).2, notesSelect x ≠ none := by
      intro n
      induction n with
      | zero =>
        intro text none_ x member
        obtain rfl := length_eq_zero_iff.mp (Nat.le_zero.mp none_)
        rw [cliClientReadNotebooks_rest not_mem_nil] at member
        cases member
      | succ n ih =>
        intro text enough x member
        cases here : cut lf text with
        | none =>
          rw [cliClientReadNotebooks_rest (cut_eq_none.mp here)] at member
          cases member
        | some parts =>
          obtain ⟨line, rest⟩ := parts
          have shorter := cut_length here
          obtain ⟨rfl, absent⟩ := cut_eq_some.mp here
          rw [cliClientReadNotebooks_line absent] at member
          obtain first | later := mem_append.mp member
          · obtain ⟨both, taken, rfl⟩ := mem_map.mp first
            obtain ⟨book, -, rfl⟩ := cliClientNotebook_eq_some.mp (Option.mem_toList.mp taken)
            rw [notesSelect_selector]
            exact nofun
          · exact ih rest (by omega) x later
    exact every _ _ (Nat.le_refl _) name among
  · intro some_
    obtain ⟨book, rfl⟩ := exists_book_of_select some_
    have whole : lf ∉ front ++ book.selector ++ back := by
      rw [mem_append, mem_append]
      rintro ((first | selector) | last)
      · exact plain.1 first
      · exact lf_not_mem_selector book selector
      · exact plain.2 last
    have taken : cliClientNotebook (front ++ book.selector ++ back) = some (book.participant, book.selector) :=
      cliClientNotebook_eq_some.mpr ⟨book, bare book, rfl⟩
    rw [cliClientReadNotebooks_line whole, taken]
    exact mem_append_left _ (mem_singleton.mpr rfl)

/-! ## What the tool lists -/

theorem booksLoop_rest {own : Bytes} (last : lf ∉ text) : booksLoop own text = [] := by
  rw [booksLoop]
  split
  · rfl
  · next here =>
    rw [cut_eq_none.mpr last] at here
    cases here

theorem booksLoop_line {own : Bytes} (whole : lf ∉ line) : booksLoop own (line ++ lf :: text) =
      (if line ≠ own ∧ notesSelect line ≠ none then line ++ ascii " (read-only)\n" else []) ++ booksLoop own text := by
  rw [booksLoop]
  split
  · next here =>
    rw [cut_append _ whole] at here
    cases here
  · next here =>
    rw [cut_append _ whole] at here
    obtain ⟨rfl, rfl⟩ := Prod.mk.inj (Option.some.inj here)
    rfl

theorem peer_lf : ascii " (read-only)\n" = ascii " (read-only)" ++ [lf] := by decide

/-- The other notebooks are read as they are listed. -/
theorem read_booksLoop (own : Bytes) {rest end_ : Bytes} (last : lf ∉ rest) (skipped : cliClientReadNotebooks end_ = ([], []))
    (lines : List Bytes) (whole : ∀ line ∈ lines, lf ∉ line) :
    ∃ books : List Notebook, books.map Notebook.selector = lines.filter (fun name => name ≠ own ∧ notesSelect name ≠ none) ∧
      cliClientReadNotebooks (booksLoop own (closed lf lines ++ rest) ++ end_) =
        (books.map Notebook.participant, books.map Notebook.selector) := by
  induction lines with
  | nil =>
    refine ⟨[], rfl, ?_⟩
    rw [closed, flatMap_nil, nil_append, booksLoop_rest last, nil_append]
    exact skipped
  | cons line lines ih =>
    obtain ⟨here, later⟩ := forall_mem_cons.mp whole
    obtain ⟨books, listed, reads⟩ := ih later
    have parts : closed lf (line :: lines) ++ rest = line ++ lf :: (closed lf lines ++ rest) := by
      rw [closed_cons, append_assoc, append_assoc]
      rfl
    rw [parts, booksLoop_line here]
    by_cases taken : line ≠ own ∧ notesSelect line ≠ none
    · obtain ⟨book, rfl⟩ := exists_book_of_select taken.2
      have line_ : lf ∉ book.selector ++ ascii " (read-only)" := by
        rw [mem_append]
        rintro (selector | peer)
        · exact lf_not_mem_selector book selector
        · exact absurd peer (by decide)
      have is : cliClientNotebook (book.selector ++ ascii " (read-only)") = some (book.participant, book.selector) :=
        cliClientNotebook_eq_some.mpr ⟨book, bareLine_peer book, rfl⟩
      refine ⟨book :: books, ?_, ?_⟩
      · rw [map_cons, listed, filter_cons_of_pos (by rw [decide_eq_true_iff]; exact taken)]
      · rw [if_pos taken, peer_lf, ← append_assoc, append_assoc, append_assoc, singleton_append,
          cliClientReadNotebooks_line line_, is, reads]
        rfl
    · refine ⟨books, ?_, ?_⟩
      · rw [listed, filter_cons_of_neg (by rw [decide_eq_true_iff]; exact taken)]
      · rw [if_neg taken, nil_append]
        exact reads

/-- The own notebook and the others are read, and nothing else of the text is. -/
theorem read_notesToolGotBooks (own : Notebook) (out : Bytes) (cut : Bool) :
    ∃ books : List Notebook, books.map Notebook.selector = own.selector :: (out.splitOn lf).dropLast.filter
        (fun name => name ≠ own.selector ∧ notesSelect name ≠ none) ∧
      cliClientReadNotebooks (notesToolGotBooks own.selector out cut) =
        (books.map Notebook.participant, books.map Notebook.selector) := by
  obtain ⟨lines, rest, rfl, whole, last⟩ := exists_closed lf out
  have skipped : cliClientReadNotebooks (if cut then ascii "[The notebook list is incomplete.]\n" else []) = ([], []) := by
    cases cut with
    | false => exact cliClientReadNotebooks_rest not_mem_nil
    | true =>
      have line : ascii "[The notebook list is incomplete.]\n" = ascii "[The notebook list is incomplete.]" ++ lf :: [] := by
        decide
      rw [if_pos rfl, line, cliClientReadNotebooks_line (by decide), cliClientReadNotebooks_rest not_mem_nil]
      decide
  obtain ⟨books, listed, reads⟩ := read_booksLoop own.selector last skipped lines whole
  refine ⟨own :: books, ?_, ?_⟩
  · rw [splitOn_closed whole last, dropLast_concat, map_cons, listed]
  · have heading : ascii "Session notebooks (use a selector as notebook):\n" =
        ascii "Session notebooks (use a selector as notebook):" ++ [lf] := by decide
    have feed : ascii "\n" = [lf] := by decide
    have none_ : cliClientNotebook (ascii "Session notebooks (use a selector as notebook):") = none := by decide
    have self : lf ∉ ascii "Self (writable): " ++ own.selector := by
      rw [mem_append]
      rintro (self | selector)
      · exact absurd self (by decide)
      · exact lf_not_mem_selector own selector
    have is : cliClientNotebook (ascii "Self (writable): " ++ own.selector) = some (own.participant, own.selector) :=
      cliClientNotebook_eq_some.mpr ⟨own, bareLine_self own, rfl⟩
    rw [notesToolGotBooks, notesToolCallIdentity, heading, feed, append_assoc, append_assoc, append_assoc,
      singleton_append, cliClientReadNotebooks_line (by decide), none_, append_assoc,
      singleton_append, cliClientReadNotebooks_line self, is, reads]
    rfl

end Notebooks

/-! ## The output of git -/

/-- The first bytes of what git writes are whole records, and a part of one. -/
theorem take_gitFiles (files : List GitFile) (n : Nat) :
    ∃ k part, (gitFiles files).take n = gitFiles (files.take k) ++ part ∧ nul ∉ part ∧
      (gitFiles (files.take k)).length ≤ n ∧ (k < files.length → n < (gitFiles (files.take (k + 1))).length) := by
  induction files generalizing n with
  | nil => exact ⟨0, [], by rw [gitFiles, flatMap_nil, take_nil]; rfl, not_mem_nil, Nat.zero_le _, nofun⟩
  | cons f files ih =>
    have one : ∀ files, gitFiles (f :: files) = f.record ++ [nul] ++ gitFiles files := fun _ => flatMap_cons
    have length : ∀ files, (gitFiles (f :: files)).length = f.record.length + 1 + (gitFiles files).length := by
      intro files
      rw [one, length_append, length_append, length_singleton]
    by_cases fits : f.record.length + 1 ≤ n
    · obtain ⟨k, part, taken, none_, least, most⟩ := ih (n - (f.record.length + 1))
      refine ⟨k + 1, part, ?_, none_, ?_, ?_⟩
      · rw [take_succ_cons, one, one, take_append, length_append, length_singleton, taken,
          take_of_length_le (by rw [length_append, length_singleton]; exact fits)]
        simp only [append_assoc]
      · rw [take_succ_cons, length]
        omega
      · intro more
        have next := most (by rw [length_cons] at more; omega)
        rw [take_succ_cons, length]
        omega
    · refine ⟨0, f.record.take n, ?_, fun among => f.not_mem_record (mem_of_mem_take among), Nat.zero_le _, ?_⟩
      · rw [one, append_assoc, take_append_of_le_length (by omega)]
        rfl
      · intro _
        rw [take_succ_cons, length]
        omega

/-- The names of the files are read of the text that the tool makes of them, as many as the client takes. -/
theorem read_notesToolGotFiles (own : Notebook) (files : List GitFile) {part : Bytes} {cut : Bool} (none_ : nul ∉ part)
    (whole : cut = false → part = []) :
    cliClientReadFiles (notesToolGotFiles own.selector (gitFiles files ++ part) cut).1 [] =
      if files.length ≤ cliClientFilesMax then some (files.map fun f => f.file.name) else none := by
  have loop := filesLoop_gitFiles files none_ (Nat.le_refl _)
  obtain ⟨tail, tailIs⟩ : ∃ tail, tail = if cut then filesCut else [] := ⟨_, rfl⟩
  have text : (notesToolGotFiles own.selector (gitFiles files ++ part) cut).1 =
      ascii "Notebook " ++ own.selector ++ ascii " — current files (bytes, blob):\n\n" ++
        ((files.flatMap fun f => fileLine f.file) ++ tail) := by
    rw [notesToolGotFiles, notesToolFiles, loop, tailIs]
    cases cut with
    | false =>
      rw [whole rfl]
      simp
    | true => simp
  have heading : ascii "Notebook " ++ own.selector ++ ascii " — current files (bytes, blob):\n\n" =
      (ascii "Notebook " ++ own.selector ++ ascii " — current files (bytes, blob)" ++ [colon]) ++ lf :: ([] ++ lf :: []) := by
    rw [show ascii " — current files (bytes, blob):\n\n" = ascii " — current files (bytes, blob)" ++ [colon] ++
      lf :: ([] ++ lf :: []) by decide]
    simp only [append_assoc]
  have line : lf ∉ ascii "Notebook " ++ own.selector ++ ascii " — current files (bytes, blob)" ++ [colon] := by
    simp only [mem_append, lf_not_mem_selector own, or_false, not_or]
    decide
  have ends : cliClientReadFiles tail (files.map fun f => f.file.name) = some (files.map fun f => f.file.name) := by
    rw [tailIs]
    cases cut with
    | false => exact cliClientReadFiles_rest not_mem_nil
    | true =>
      have cutLine : filesCut = ascii "[The file list exceeded the capture limit and is incomplete." ++ [93] ++ lf :: [] := by
        decide
      rw [if_pos rfl, cutLine, cliClientReadFiles_line (by decide), if_pos (no_name _ (by decide))]
      exact cliClientReadFiles_rest not_mem_nil
  have names := cliClientReadFiles_lines files (show ([] : List Bytes).length ≤ cliClientFilesMax from Nat.zero_le _) tail
  rw [nil_append, length_nil, Nat.zero_add, ends] at names
  rw [text, heading, append_assoc, cons_append, cliClientReadFiles_line line, if_pos (no_name _ (by decide)),
    append_assoc, cons_append, cliClientReadFiles_line not_mem_nil, if_pos (by decide)]
  exact names

/-- The client reads the names of the notes that the tool lists, up to its bound and also of a list that was cut; it
reads the selectors that the tool lists, with the names of their participants; and it takes a selector exactly if
`notes_select` does. -/
theorem notes_discovery (own : Notebook) :
    (∀ files : List GitFile, cliClientReadFiles (notesToolGotFiles own.selector (gitFiles files) false).1 [] =
      if files.length ≤ cliClientFilesMax then some (files.map fun f => f.file.name) else none) ∧
    (∀ (files : List GitFile) (n : Nat), ∃ k, (gitFiles (files.take k)).length ≤ n ∧
      (k < files.length → n < (gitFiles (files.take (k + 1))).length) ∧
      cliClientReadFiles (notesToolGotFiles own.selector ((gitFiles files).take n) true).1 [] =
        if (files.take k).length ≤ cliClientFilesMax then some ((files.take k).map fun f => f.file.name) else none) ∧
    (∀ (out : Bytes) (cut : Bool), ∃ books : List Notebook,
      books.map Notebook.selector = own.selector :: (out.splitOn lf).dropLast.filter
        (fun name => name ≠ own.selector ∧ notesSelect name ≠ none) ∧
      cliClientReadNotebooks (notesToolGotBooks own.selector out cut) =
        (books.map Notebook.participant, books.map Notebook.selector)) ∧ ∀ name : Bytes,
      (name ∈ (cliClientReadNotebooks (notesToolCallIdentity name)).2 ↔ notesSelect name ≠ none) ∧
      (name ∈ (cliClientReadNotebooks (name ++ ascii " (read-only)\n")).2 ↔ notesSelect name ≠ none) := by
  refine ⟨fun files => ?_, fun files n => ?_, fun out cut => read_notesToolGotBooks own out cut, fun name => ⟨?_, ?_⟩⟩
  · have all := read_notesToolGotFiles own files (show nul ∉ [] from not_mem_nil) fun _ : false = false => rfl
    rw [append_nil] at all
    exact all
  · obtain ⟨k, part, taken, none_, least, most⟩ := take_gitFiles files n
    refine ⟨k, least, most, ?_⟩
    rw [taken]
    exact read_notesToolGotFiles own (files.take k) none_ nofun
  · have self := mem_read_line name
      (show lf ∉ ascii "Self (writable): " ∧ lf ∉ [] from ⟨by decide, not_mem_nil⟩) fun book => by rw [append_nil]; exact bareLine_self book
    rw [append_nil] at self
    rw [notesToolCallIdentity, show ascii "\n" = [lf] by decide]
    exact self
  · have peer := mem_read_line name
      (show lf ∉ [] ∧ lf ∉ ascii " (read-only)" from ⟨not_mem_nil, by decide⟩) bareLine_peer
    rw [nil_append] at peer
    rw [peer_lf, ← append_assoc]
    exact peer

end Askai
