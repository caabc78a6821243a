import Askai.Notes.Books
import Askai.Notes.History
import Askai.Notes.Name
import Askai.Notes.Tool
import Askai.Util.Scalars

/-!
# Listings of the notes tool

What the notes tool says of the files of a notebook (`notes_file_next`, `notes_tool_files` and
`notes_tool_got_list`) and of the notebooks of a session (`notes_tool_got_books`).
-/

namespace Askai

open Library List

/-! ## Files -/

/-- `struct notes_file`, with a copy of the name. -/
structure NotesFile where
  name : Bytes
  bytes : Nat
  id : Oid
  deriving DecidableEq

/-- `notes_file_next`, of an output that is not empty: none for `EIO`. -/
def notesFileNext (out : Bytes) : Option (NotesFile × Bytes) := do
  let (record, rest) ← cut nul out
  let (front, name) ← cut tab record
  if name = [] then none
  else
    let (_, front) ← cut space front
    let (type, front) ← cut space front
    if type ≠ ascii "blob" then none
    else
      let (id, size) ← oidInitField front space
      let bytes ← utilNumber (cstrViewTrim size)
      pure (⟨name, bytes, id⟩, rest)

/-- The line of a file. -/
def fileLine (file : NotesFile) : Bytes :=
  file.name.take (jbUtf8 file.name) ++ ascii "  (" ++ utilDecimal file.bytes ++ ascii " bytes, " ++ file.id.hex ++
    ascii ")\n"

/-- The loop of `notes_tool_files`: its lines, and whether it stopped at a record that cannot be decoded. -/
def filesLoop : Nat → Bytes → Bytes × Bool
  | 0, _ => ([], false)
  | fuel + 1, out =>
    if out = [] then ([], false)
    else
      match notesFileNext out with
      | none => ([], true)
      | some (file, out) =>
        let (text, bad) := filesLoop fuel out
        (fileLine file ++ text, bad)

/-- The end of a list that is not complete. -/
def filesCut : Bytes :=
  ascii "[The file list exceeded the capture limit and is incomplete.]\n"

/-- `notes_tool_files`: what it appends, and whether it fails with `EIO`. -/
def notesToolFiles (out : Bytes) (cut : Bool) : Bytes × Bool :=
  let (text, bad) := filesLoop out.length out
  if cut then (text ++ filesCut, false) else (text, bad)

/-- `notes_tool_got_list`, for the current files of a notebook: the text, and whether the result is an error. -/
def notesToolGotFiles (selector out : Bytes) (cut : Bool) : Bytes × Bool :=
  let heading := ascii "Notebook " ++ selector ++ ascii " — current files (bytes, blob):\n\n"
  let (text, bad) := notesToolFiles out cut
  (heading ++ text ++ if bad then ascii "Cannot decode the notebook file list." else [], bad)

/-! ## Notebooks -/

/-- The loop of `notes_tool_got_books`. -/
def booksLoop (own rest : Bytes) : Bytes :=
  match _cut : cut lf rest with
  | none => []
  | some (name, rest) =>
    (if name ≠ own ∧ notesSelect name ≠ none then name ++ ascii " (read-only)\n" else []) ++ booksLoop own rest
termination_by rest.length
decreasing_by
  have length := cut_length _cut
  omega

/-- `notes_tool_call_identity`. -/
def notesToolCallIdentity (own : Bytes) : Bytes :=
  ascii "Self (writable): " ++ own ++ ascii "\n"

/-- `notes_tool_got_books`. -/
def notesToolGotBooks (own out : Bytes) (cut : Bool) : Bytes :=
  ascii "Session notebooks (use a selector as notebook):\n" ++ notesToolCallIdentity own ++ booksLoop own out ++
    if cut then ascii "[The notebook list is incomplete.]\n" else []

/-! ## The output of git -/

/-- A file of a notebook, whose name `notes_name` accepts, with what git says of it. -/
structure GitFile where
  mode : Bytes
  pad : Nat
  file : NotesFile
  digits : ∀ c ∈ mode, digit c = true
  named : notesName file.name = some file.name
  text : IsUtf8 file.name
  fits : file.bytes < 2 ^ 64
  id : oidLen file.id ≠ 0

/-- What git writes of a file before its name. -/
def GitFile.front (f : GitFile) : Bytes :=
  f.mode ++ space :: (ascii "blob" ++ space :: (f.file.id.hex ++ space :: (List.replicate f.pad space ++
    utilDecimal f.file.bytes)))

/-- What git writes of a file. -/
def GitFile.record (f : GitFile) : Bytes :=
  f.front ++ tab :: f.file.name

/-- What git writes of files, each with a NUL. -/
def gitFiles (files : List GitFile) : Bytes :=
  files.flatMap fun f => f.record ++ [nul]

namespace GitFile

variable (f : GitFile)

theorem plain : PlainName f.file.name :=
  (notesName_iff.mp f.named).2

theorem hex : utilIsHex f.file.id.hex = true :=
  (oidValid_iff.mp (Oid.valid_of_ne f.id)).2

theorem not_mem_name {c : UInt8} (low : c < 0x20) : c ∉ f.file.name := by
  intro among
  exact absurd (f.plain.clear c among).1 (UInt8.not_le.mpr low)

theorem not_mem_mode {c : UInt8} (other : digit c = false) : c ∉ f.mode :=
  fun among => digit_ne (f.digits c among) other rfl

theorem not_mem_bytes {c : UInt8} (other : digit c = false) : c ∉ utilDecimal f.file.bytes :=
  fun among => digit_ne (digits_utilDecimal _ c among) other rfl

theorem not_mem_hex {c : UInt8} (other : utilIsHex [c] = false) : c ∉ f.file.id.hex := by
  intro among
  have digit := all_eq_true.mp f.hex c among
  rw [utilIsHex, all_cons, all_nil, Bool.and_true, digit] at other
  cases other

theorem not_mem_front {c : UInt8} (low : c = nul ∨ c = tab) : c ∉ f.front := by
  have apart : digit c = false ∧ utilIsHex [c] = false ∧ c ≠ space ∧ c ∉ ascii "blob" := by
    obtain rfl | rfl := low
    · decide
    · decide
  obtain ⟨other, other', spaces, blob⟩ := apart
  have pad : c ∉ List.replicate f.pad space := fun among => spaces (eq_of_mem_replicate among)
  simp only [front, mem_append, mem_cons, f.not_mem_mode other, f.not_mem_bytes other, f.not_mem_hex other', spaces,
    blob, pad, or_self, not_false_eq_true]

theorem not_mem_record : nul ∉ f.record := by
  rw [record, mem_append, mem_cons]
  rintro (first | tab_ | name)
  · exact f.not_mem_front (.inl rfl) first
  · exact absurd tab_ (by decide)
  · exact f.not_mem_name (by decide) name

theorem trim_size : cstrViewTrim (List.replicate f.pad space ++ utilDecimal f.file.bytes) = utilDecimal f.file.bytes := by
  obtain ⟨first, back, is⟩ := exists_cons_of_ne_nil (utilDecimal_ne_nil f.file.bytes)
  have solid : ∀ c ∈ utilDecimal f.file.bytes, c ≠ space ∧ c ≠ tab ∧ c ≠ cr ∧ c ≠ lf := by
    intro c among
    have other := digits_utilDecimal _ c among
    exact ⟨digit_ne other (by decide), digit_ne other (by decide), digit_ne other (by decide), digit_ne other (by decide)⟩
  have whole : (List.replicate f.pad space ++ utilDecimal f.file.bytes).rdropWhile (fun c => blank c || c = cr || c = lf) =
      List.replicate f.pad space ++ utilDecimal f.file.bytes := by
    rw [rdropWhile_eq_self_iff]
    intro some_
    rw [getLast_append_of_ne_nil some_ (utilDecimal_ne_nil _)]
    obtain ⟨none_, other, return_, feed⟩ := solid _ (getLast_mem (utilDecimal_ne_nil f.file.bytes))
    simp [blank, none_, other, return_, feed]
  have begins := solid first (is ▸ mem_cons_self)
  rw [cstrViewTrim, whole, dropWhile_append_of_pos, is, dropWhile_cons_of_neg]
  · simp [blank, begins.1, begins.2.1]
  · intro c among
    rw [eq_of_mem_replicate among]
    decide

/-- A record of git is read as the file that it is about. -/
theorem next_record (rest : Bytes) : notesFileNext (f.record ++ nul :: rest) = some (f.file, rest) := by
  have tab_ := cut_append f.file.name (f.not_mem_front (.inr rfl))
  have mode : cut space f.front = _ := cut_append (ascii "blob" ++ space :: (f.file.id.hex ++ space :: (List.replicate f.pad space ++
    utilDecimal f.file.bytes))) (f.not_mem_mode (c := space) (by decide))
  have type := cut_append (f.file.id.hex ++ space :: (List.replicate f.pad space ++ utilDecimal f.file.bytes))
    (show space ∉ ascii "blob" by decide)
  have id := oidInitField_append f.id (show utilIsHex [space] = false by decide) (List.replicate f.pad space ++ utilDecimal f.file.bytes)
  rw [notesFileNext, cut_append _ f.not_mem_record]
  simp only [Option.bind_eq_bind, Option.bind_some, record, tab_, f.plain.filled, if_false, mode, type, ne_eq,
    not_true_eq_false, id, f.trim_size, utilNumber_utilDecimal f.fits, Option.pure_def]

end GitFile

/-- The lines of files of git, until an output ends within a record. -/
theorem filesLoop_gitFiles (files : List GitFile) {part : Bytes} (cut_ : nul ∉ part) {fuel : Nat}
    (enough : (gitFiles files ++ part).length ≤ fuel) :
    filesLoop fuel (gitFiles files ++ part) = (files.flatMap fun f => fileLine f.file, decide (part ≠ [])) := by
  induction files generalizing fuel with
  | nil =>
    rw [gitFiles, flatMap_nil, nil_append, flatMap_nil] at *
    cases fuel with
    | zero =>
      obtain rfl := length_eq_zero_iff.mp (Nat.le_zero.mp enough)
      rfl
    | succ fuel =>
      rw [filesLoop]
      by_cases none_ : part = []
      · rw [if_pos none_, none_]
        rfl
      · have stops : notesFileNext part = none := by
          rw [notesFileNext, cut_eq_none.mpr cut_]
          rfl
        rw [if_neg none_, stops, decide_eq_true none_]
  | cons f files ih =>
    have parts : gitFiles (f :: files) ++ part = f.record ++ nul :: (gitFiles files ++ part) := by
      rw [gitFiles, flatMap_cons, append_assoc, append_assoc]
      rfl
    rw [parts] at enough ⊢
    rw [length_append, length_cons] at enough
    obtain ⟨fuel, rfl⟩ : ∃ n, fuel = n + 1 := ⟨fuel - 1, by omega⟩
    rw [filesLoop, if_neg (by simp), f.next_record]
    dsimp only
    rw [ih (by omega), flatMap_cons]

end Askai
