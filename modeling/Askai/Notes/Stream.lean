import Askai.Library.FastImport
import Askai.Notes.Books
import Askai.Notes.Name
import Askai.Notes.Revision

/-!
# The stream of a note

What `notes_add_head`, `notes_add_file` and `notes_add_input` write is read by fast-import as one
commit that sets one file, whatever the note's name, text and message are.
-/

namespace Askai

open Library List

/-! ## Counts -/

theorem utilDecimal_digits (n : Nat) : ∀ c ∈ utilDecimal n, FastImport.isDigit c = true := by
  have one : ∀ d < 10, FastImport.isDigit (UInt8.ofNat (48 + d)) = true := by decide
  rw [utilDecimal]
  split
  · simp [FastImport.isDigit]
  · intro c member
    obtain ⟨d, digit, rfl⟩ := mem_map.mp member
    exact one d (Nat.digits_lt_base (by omega) (mem_reverse.mp digit))

/-- A count is read as it was written. -/
theorem decimal_utilDecimal (n : Nat) : FastImport.decimal (utilDecimal n) = some n := by
  have digits : (utilDecimal n).all FastImport.isDigit = true :=
    all_eq_true.mpr (utilDecimal_digits n)
  have filled : utilDecimal n ≠ [] := by
    rw [utilDecimal]
    split
    · simp
    · rename_i positive
      simp [Nat.digits_ne_nil_iff_ne_zero.mpr positive]
  rw [FastImport.decimal, if_pos ⟨filled, digits⟩, utilDecimal]
  split
  · rename_i zero
    simp [zero]
  · rw [foldl_digits _ fun d digit => Nat.digits_lt_base (by omega) digit, Nat.ofDigits_digits]

theorem length_utilDecimal (n : Nat) : (utilDecimal n).length ≤ n + 1 := by
  rw [utilDecimal]
  split
  · simp
  · rename_i positive
    rw [length_map, length_reverse, Nat.length_digits 10 n (by omega) positive]
    exact Nat.succ_le_succ (Nat.log_le_self 10 n)

/-! ## Paths -/

/-- A quoted name is read as the name, whatever follows its quote. -/
theorem unquote_quoted (name rest : Bytes) : FastImport.unquote (quoted name ++ quote :: rest) = some (name, rest) := by
  induction name with
  | nil => exact FastImport.unquote_quote rest
  | cons c name ih =>
    rw [quoted]
    split
    · rename_i escaped
      rw [Bool.or_eq_true, decide_eq_true_eq, decide_eq_true_eq] at escaped
      rw [singleton_append, cons_append, cons_append, FastImport.unquote_escape escaped, ih]
      rfl
    · rename_i plain
      rw [Bool.or_eq_true, decide_eq_true_eq, decide_eq_true_eq, not_or] at plain
      rw [nil_append, cons_append, FastImport.unquote_plain plain, ih]
      rfl

variable {name : Bytes}

theorem not_mem_quoted {c : UInt8} (absent : c ∉ name) (other : c ≠ backslash) : c ∉ quoted name := by
  induction name with
  | nil => exact not_mem_nil
  | cons d name ih =>
    rw [mem_cons, not_or] at absent
    rw [quoted]
    split <;> simp [absent.1, other, ih absent.2]

theorem length_quoted (name : Bytes) : (quoted name).length ≤ 2 * name.length := by
  induction name with
  | nil => exact Nat.le_refl 0
  | cons c name ih =>
    rw [quoted]
    split <;> simp only [length_append, length_cons, length_nil] <;> omega

/-! ## The file -/

/-- What `notes_add_file` adds to its buffer. -/
def fileText (name text : Bytes) : Bytes :=
  ascii "M 100644 inline \"" ++ quoted name ++ ascii "\"\ndata " ++ utilDecimal text.length ++ [lf] ++
    text ++ [lf]

/-- Where it says that the name and the text are. -/
def filePart (in_ name text : Bytes) : NotesPart where
  nameAt := in_.length + 16
  nameLen := (quoted name).length + 2
  dataAt := in_.length + (17 + (quoted name).length + (7 + (utilDecimal text.length).length + 1))
  dataLen := text.length

theorem notesAddHead_ok (short : name.length ≤ notesNameMax) (in_ text : Bytes) :
    notesAddHead in_ name text.length = .ok (in_ ++ (ascii "M 100644 inline \"" ++ quoted name) ++
        (ascii "\"\ndata " ++ utilDecimal text.length ++ [lf]) ++ List.replicate text.length 0 ++ [lf],
        filePart in_ name text) := by
  have quotes := length_quoted name
  have digits := length_utilDecimal text.length
  have m : (ascii "M 100644 inline \"").length = 17 := by decide
  have end_ : (ascii "\"\ndata ").length = 7 := by decide
  have room : ¬(17 + 1 + 2 * name.length + (7 + 2) + utilDecimalMax + text.length -
      (17 + (quoted name).length) ≤ 7 + (utilDecimal text.length).length + 1) := by
    rw [utilDecimalMax]
    omega
  have name_len : 17 + (quoted name).length - 16 + 1 = (quoted name).length + 2 := by omega
  simp only [notesAddHead, Nat.not_lt.mpr short, if_false, length_append, m, end_, length_singleton, room, filePart]
  congr 2
  simp [name_len]

theorem notesAddFile_ok (short : name.length ≤ notesNameMax) (in_ text : Bytes) :
    notesAddFile in_ name text = .ok (in_ ++ fileText name text, filePart in_ name text) := by
  rw [notesAddFile, notesAddHead_ok short, Except.map]
  generalize front_eq : in_ ++ (ascii "M 100644 inline \"" ++ quoted name) ++
    (ascii "\"\ndata " ++ utilDecimal text.length ++ [lf]) = front
  have width : (filePart in_ name text).dataAt = front.length := by
    have m : (ascii "M 100644 inline \"").length = 17 := by decide
    have end_ : (ascii "\"\ndata ").length = 7 := by decide
    simp only [← front_eq, filePart, length_append, m, end_, length_singleton]
    omega
  have drop : (front ++ List.replicate text.length 0 ++ [lf]).drop (front.length + text.length) =
      [lf] := by
    apply drop_left'
    simp
  have take : (front ++ List.replicate text.length 0 ++ [lf]).take front.length = front := by
    rw [append_assoc]
    exact take_left
  simp only [writeAt, width, take, drop]
  simp [← front_eq, fileText]

/-- The part says where the quoted name and the text are. -/
theorem filePart_slices (in_ name text : Bytes) :
    ((in_ ++ fileText name text).drop (filePart in_ name text).nameAt).take
        (filePart in_ name text).nameLen = quote :: (quoted name ++ [quote]) ∧
      ((in_ ++ fileText name text).drop (filePart in_ name text).dataAt).take
        (filePart in_ name text).dataLen = text := by
  constructor
  · have split : in_ ++ fileText name text =
        (in_ ++ ascii "M 100644 inline ") ++ ((quote :: (quoted name ++ [quote])) ++
          (ascii "\ndata " ++ utilDecimal text.length ++ [lf] ++ text ++ [lf])) := by
      have m : ascii "M 100644 inline \"" = ascii "M 100644 inline " ++ [quote] := by decide
      have end_ : ascii "\"\ndata " = quote :: ascii "\ndata " := by decide
      simp [fileText, m, end_]
    have width : (in_ ++ ascii "M 100644 inline ").length = in_.length + 16 := by
      rw [length_append]
      rfl
    rw [split, filePart]
    simp only
    rw [drop_left' width, take_left' (by simp)]
  · have split : in_ ++ fileText name text = (in_ ++ (ascii "M 100644 inline \"" ++ quoted name ++
          (ascii "\"\ndata " ++ utilDecimal text.length ++ [lf]))) ++ (text ++ [lf]) := by
      simp [fileText]
    have m : (ascii "M 100644 inline \"").length = 17 := by decide
    have end_ : (ascii "\"\ndata ").length = 7 := by decide
    have width : (in_ ++ (ascii "M 100644 inline \"" ++ quoted name ++
        (ascii "\"\ndata " ++ utilDecimal text.length ++ [lf]))).length =
          (filePart in_ name text).dataAt := by
      simp only [filePart, length_append, m, end_, length_singleton]
    rw [split, drop_left' width]
    exact take_left

/-- fast-import reads one file of the name, with the text's bytes. -/
theorem fileModify_fileText (single : lf ∉ name) (text rest : Bytes) :
    FastImport.fileModify (fileText name text ++ rest) =
      some ({ mode := ascii "100644", path := name, data := text }, rest) := by
  have shape : fileText name text ++ rest =
      (ascii "M " ++ (ascii "100644" ++ space :: (ascii "inline " ++ quote :: (quoted name ++ [quote])))) ++
        lf :: (ascii "data " ++ utilDecimal text.length ++ lf :: (text ++ lf :: rest)) := by
    have m : ascii "M 100644 inline \"" =
        ascii "M " ++ (ascii "100644" ++ space :: (ascii "inline " ++ [quote])) := by decide
    have end_ : ascii "\"\ndata " = quote :: lf :: ascii "data " := by decide
    simp [fileText, m, end_]
  have line_single : lf ∉ ascii "M " ++ (ascii "100644" ++
      space :: (ascii "inline " ++ quote :: (quoted name ++ [quote]))) := by
    have inside := not_mem_quoted single (by decide)
    have m : lf ∉ ascii "M " := by decide
    have mode : lf ∉ ascii "100644" := by decide
    have inline_ : lf ∉ ascii "inline " := by decide
    have apart : lf ≠ space ∧ lf ≠ quote := by decide
    simp [inside, m, mode, inline_, apart]
  have mode : space ∉ ascii "100644" := by decide
  have unquoted := unquote_quoted name []
  rw [shape, FastImport.fileModify, FastImport.line_append line_single]
  simp only [Option.bind_eq_bind, Option.bind_some, FastImport.strip_append, cut_append _ mode,
    FastImport.path_quoted unquoted, FastImport.data_append (decimal_utilDecimal text.length),
    List.head?_cons, if_true, tail_cons]

/-! ## The commit -/

/-- What `notes_add_input` writes for the file. -/
def noteStream (repo : Bytes) (tip : Oid) (message file : Bytes) : Bytes :=
  ascii "commit " ++ repo ++ ascii "\nmark :1\ncommitter askai <askai> now\ndata " ++
    utilDecimal (message.length + 1) ++ [lf] ++ message ++ ascii "\nfrom " ++ tip.hex ++ [lf] ++
    file ++ ascii "get-mark :1\n"

theorem notesAddInput_ok {tip : Oid} (named : oidLen tip ≠ 0) {message : Bytes}
    (short : message.length < notesMessageMax) (clear : nul ∉ message) (in_ repo file : Bytes) :
    notesAddInput in_ repo tip message file = .ok (in_ ++ noteStream repo tip message file) := by
  have ok : ¬((decide (oidLen tip = 0) || decide (notesMessageMax ≤ message.length) ||
      message.contains nul) = true) := by
    simp only [Bool.or_eq_true, decide_eq_true_eq, not_or, contains_iff_mem, Nat.not_le]
    exact ⟨⟨named, short⟩, clear⟩
  rw [notesAddInput, if_neg ok, noteStream]
  simp

/-- The commit of a note. -/
def noteCommit (repo : Bytes) (tip : Oid) (message name text : Bytes) : FastImport.Commit where
  branch := repo
  mark := some 1
  author := none
  committer := ascii "askai <askai> now"
  message := message ++ [lf]
  parent := some tip.hex
  changes := [{ mode := ascii "100644", path := name, data := text }]

theorem lf_not_mem_hex (tip : Oid) : lf ∉ tip.hex := by
  rcases tip.valid with none | valid
  · rw [none]
    exact not_mem_nil
  · intro member
    exact absurd (all_eq_true.mp (oidValid_iff.mp valid).2 lf member) (by decide)

theorem changes_fileText (single : lf ∉ name) (text rest : Bytes)
    (other : ¬ascii "M " <+: rest) {n : Nat} (some_ : n ≠ 0) : FastImport.changes n (fileText name text ++ rest) =
      some ([{ mode := ascii "100644", path := name, data := text }], rest) := by
  obtain ⟨n, rfl⟩ := Nat.exists_eq_succ_of_ne_zero some_
  have begins : ascii "M " <+: fileText name text ++ rest := by
    have m : ascii "M 100644 inline \"" = ascii "M " ++ ascii "100644 inline \"" := by decide
    simp only [fileText, m, append_assoc]
    exact prefix_append ..
  have none : FastImport.changes n rest = some ([], rest) := by
    cases n with
    | zero => rfl
    | succ n => rw [FastImport.changes, if_neg other]
  rw [FastImport.changes, if_pos begins, fileModify_fileText single]
  simp only [Option.bind_eq_bind, Option.bind_some, none]

/-- fast-import reads the stream as the commit of the note, and the question for its name. -/
theorem read_noteStream {repo name : Bytes} (branch : lf ∉ repo) (single : lf ∉ name) (tip : Oid)
    (message text : Bytes) : FastImport.read (noteStream repo tip message (fileText name text)) =
      some [.commit (noteCommit repo tip message name text), .getMark 1] := by
  have shape : noteStream repo tip message (fileText name text) =
      (ascii "commit " ++ repo) ++ lf :: (ascii "mark :" ++ ascii "1" ++ lf ::
        ((ascii "committer " ++ ascii "askai <askai> now") ++ lf ::
          (ascii "data " ++ utilDecimal (message ++ [lf]).length ++ lf :: ((message ++ [lf]) ++
            (ascii "from " ++ tip.hex ++ lf :: (fileText name text ++
              ((ascii "get-mark :" ++ ascii "1") ++ lf :: []))))))) := by
    have first : ascii "\nmark :1\ncommitter askai <askai> now\ndata " =
        lf :: (ascii "mark :" ++ ascii "1" ++ lf :: (ascii "committer " ++ ascii "askai <askai> now" ++
          lf :: ascii "data ")) := by decide
    have second : ascii "\nfrom " = lf :: ascii "from " := by decide
    have last : ascii "get-mark :1\n" = ascii "get-mark :" ++ ascii "1" ++ [lf] := by decide
    simp [noteStream, first, second, last]
  have commit_line : lf ∉ ascii "commit " ++ repo := by
    rw [mem_append, not_or]
    exact ⟨by decide, branch⟩
  have from_line : lf ∉ ascii "from " ++ tip.hex := by
    rw [mem_append, not_or]
    exact ⟨by decide, lf_not_mem_hex tip⟩
  have no_author (rest : Bytes) : ¬ascii "author " <+: ascii "committer " ++ ascii "askai <askai> now" ++ rest :=
    FastImport.not_prefix_append (by decide) (by decide) rest
  have no_change : ¬ascii "M " <+: ascii "get-mark :" ++ ascii "1" ++ lf :: [] := by decide
  have not_lf (rest : Bytes) : (ascii "from " ++ tip.hex ++ rest).head? ≠ some lf := by
    have head : ascii "from " = 102 :: ascii "rom " := by decide
    rw [head, cons_append, cons_append, List.head?_cons]
    decide
  have one : FastImport.decimal (ascii "1") = some 1 := by decide
  have some_ : (fileText name text ++ (ascii "get-mark :" ++ ascii "1" ++ lf :: [])).length ≠ 0 := by
    simp [fileText]
  have commit : FastImport.commit (noteStream repo tip message (fileText name text)) =
      some (noteCommit repo tip message name text, ascii "get-mark :" ++ ascii "1" ++ lf :: []) := by
    rw [shape, FastImport.commit, FastImport.line_append commit_line]
    simp only [Option.bind_eq_bind, Option.bind_some, FastImport.strip_append,
      FastImport.optionalLine_append (show lf ∉ ascii "mark :" ++ ascii "1" by decide),
      FastImport.mark, one, Option.map_some, FastImport.optionalLine_absent (no_author _),
      FastImport.line_append (show lf ∉ ascii "committer " ++ ascii "askai <askai> now" by decide),
      FastImport.data_append (decimal_utilDecimal _), not_lf, if_false,
      FastImport.optionalLine_append from_line, changes_fileText single text _ no_change some_]
    rfl
  have begins : ascii "commit " <+: noteStream repo tip message (fileText name text) := by
    rw [shape, append_assoc]
    exact prefix_append ..
  have first : FastImport.command (noteStream repo tip message (fileText name text)) =
      some (.commit (noteCommit repo tip message name text), ascii "get-mark :" ++ ascii "1" ++ lf :: []) := by
    rw [FastImport.command, if_pos begins, commit]
    rfl
  have second : FastImport.command (ascii "get-mark :" ++ ascii "1" ++ lf :: []) =
      some (.getMark 1, []) := by decide
  have filled : noteStream repo tip message (fileText name text) ≠ [] := by
    rw [shape]
    simp
  obtain ⟨n, length⟩ : ∃ n, (noteStream repo tip message (fileText name text)).length = n + 1 + 1 := by
    rw [shape]
    exact ⟨_, by simp only [length_append, length_cons]; rfl⟩
  rw [FastImport.read, length, FastImport.commands_succ first filled,
    FastImport.commands_succ second (by simp), FastImport.commands_nil]
  rfl

/-- The branch that a caller has, or that a name leads to. -/
def BookBranch (repo : Bytes) : Prop :=
  (∃ notes principal side, repo = notesRepo notes principal side) ∨
    ∃ name, notesSelect name = some repo

theorem BookBranch.book {repo : Bytes} (is : BookBranch repo) : ∃ book : Notebook, repo = book.branch := by
  rcases is with ⟨notes, principal, side, rfl⟩ | ⟨name, ok⟩
  · exact ⟨_, notesRepo_eq notes principal side⟩
  · obtain ⟨book, -, same⟩ := notesSelect_eq_some.mp ok
    exact ⟨book, same⟩

/-- Any name that `notes_name` accepts, and any text and message, make one commit that sets one file,
and then ask for its name. -/
theorem note_stream {s name : Bytes} : (notesName s = some name ↔ name = s.dropWhile (· = slash) ∧ PlainName name) ∧
      (notesName s = some name → ∀ (repo text message : Bytes) (tip : Oid), BookBranch repo →
        oidLen tip ≠ 0 → message.length < notesMessageMax → nul ∉ message →
          ∃ head file part stream, notesAddHead [] name text.length = .ok (head, part) ∧
            writeAt head part.dataAt text = file ∧ notesAddFile [] name text = .ok (file, part) ∧
            notesAddInput [] repo tip message file = .ok stream ∧ FastImport.read stream =
              some [.commit (noteCommit repo tip message name text), .getMark 1] ∧
            (file.drop part.nameAt).take part.nameLen = quote :: (quoted name ++ [quote]) ∧
            (file.drop part.dataAt).take part.dataLen = text) := by
  refine ⟨notesName_iff, ?_⟩
  intro accepted repo text message tip branch named short clear
  obtain ⟨-, plain⟩ := notesName_iff.mp accepted
  have single : lf ∉ name := fun member => absurd (plain.clear lf member).1 (by decide)
  obtain ⟨book, rfl⟩ := branch.book
  have line := book.not_mem_branch (by decide : utilWord [lf] 1 = false) (by decide)
  have head := notesAddHead_ok plain.short [] text
  have added := notesAddFile_ok plain.short [] text
  obtain ⟨name_at, data_at⟩ := filePart_slices [] name text
  refine ⟨_, _, _, _, head, ?_, added, notesAddInput_ok named short clear _ _ _, ?_, name_at, data_at⟩
  · rw [notesAddFile, head, Except.map] at added
    exact (Prod.mk.inj (Except.ok.inj added)).1
  · rw [nil_append, nil_append]
    exact read_noteStream line single tip message text

theorem note_stream_letter :
    ∃ head file part stream, notesAddHead [] (ascii "n") (ascii "quit\n").length = .ok (head, part) ∧
      writeAt head part.dataAt (ascii "quit\n") = file ∧
      notesAddFile [] (ascii "n") (ascii "quit\n") = .ok (file, part) ∧
      notesAddInput [] (notesRepo someNotes 0 .client) someTip (ascii "M D") file = .ok stream ∧
      FastImport.read stream =
        some [.commit (noteCommit (notesRepo someNotes 0 .client) someTip (ascii "M D") (ascii "n")
          (ascii "quit\n")), .getMark 1] ∧
      (file.drop part.nameAt).take part.nameLen = quote :: (quoted (ascii "n") ++ [quote]) ∧
      (file.drop part.dataAt).take part.dataLen = ascii "quit\n" :=
  note_stream.2 notesName_letter _ _ _ _ (.inl ⟨someNotes, 0, .client, rfl⟩) (by decide)
    (by decide) (by decide)

end Askai
