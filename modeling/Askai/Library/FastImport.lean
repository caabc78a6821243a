import Askai.Library.Bytes

/-!
# Streams of fast-import

How `git fast-import` reads a stream of commits: commands on lines of their own, data counted in
bytes, and paths that may be quoted as C strings.  A reader is given the bytes left and returns what
it read and the rest, or none where the stream is malformed.
-/

namespace Askai.Library.FastImport

open List

/-- A line and what follows its line feed. -/
def line (stream : Bytes) : Option (Bytes × Bytes) :=
  cut lf stream

/-- What follows the start of a text. -/
def strip (start text : Bytes) : Option Bytes :=
  if start <+: text then some (text.drop start.length) else none

/-- A decimal digit. -/
def isDigit (c : UInt8) : Bool :=
  48 ≤ c && c ≤ 57

/-- The number that digits are. -/
def decimal (text : Bytes) : Option Nat :=
  if text ≠ [] ∧ text.all isDigit then
    some (text.foldl (fun n c => n * 10 + (c.toNat - 48)) 0)
  else none

/-- `data`, a count, and so many bytes; a line feed after them is dropped. -/
def data (stream : Bytes) : Option (Bytes × Bytes) := do
  let (head, rest) ← line stream
  let count ← (strip (ascii "data ") head).bind decimal
  if rest.length < count then none
  else
    let after := rest.drop count
    some (rest.take count, if after.head? = some lf then after.tail else after)

/-- The byte that a letter after a backslash stands for. -/
def escape (c : UInt8) : Option UInt8 :=
  if c = quote ∨ c = backslash then some c
  else ([(97, 7), (98, 8), (102, 12), (110, 10), (114, 13), (116, 9), (118, 11)] : List (UInt8 × UInt8)).lookup c

/-- An octal digit, at most `max`. -/
def octal (max c : UInt8) : Bool :=
  48 ≤ c && c ≤ max

/-- A quoted text, after its first quote, and what follows its last. -/
def unquote : Bytes → Option (Bytes × Bytes)
  | [] => none
  | c :: rest =>
    if c = quote then some ([], rest)
    else if c ≠ backslash then (unquote rest).map fun (text, rest) => (c :: text, rest)
    else
      match rest with
      | [] => none
      | e :: rest =>
        match escape e with
        | some c => (unquote rest).map fun (text, rest) => (c :: text, rest)
        | none =>
          match rest with
          | f :: g :: rest =>
            if octal 51 e && octal 55 f && octal 55 g then
              (unquote rest).map fun (text, rest) =>
                (((e - 48) * 64 + (f - 48) * 8 + (g - 48)) :: text, rest)
            else none
          | _ => none

/-- A path that ends its line. -/
def path (text : Bytes) : Option Bytes :=
  if text.head? = some quote then
    match unquote text.tail with
    | some (path, []) => some path
    | _ => none
  else some text

/-- A file of a commit set to bytes that follow. -/
structure FileModify where
  mode : Bytes
  path : Bytes
  data : Bytes
  deriving DecidableEq, Repr

def fileModify (stream : Bytes) : Option (FileModify × Bytes) := do
  let (head, rest) ← line stream
  let text ← strip (ascii "M ") head
  let (mode, text) ← cut space text
  let path ← (strip (ascii "inline ") text).bind path
  let (data, rest) ← data rest
  some ({ mode, path, data }, rest)

/-- The files of a commit, `n` lines of them at most. -/
def changes : Nat → Bytes → Option (List FileModify × Bytes)
  | 0, stream => some ([], stream)
  | n + 1, stream =>
    if ascii "M " <+: stream then do
      let (change, rest) ← fileModify stream
      let (more, rest) ← changes n rest
      some (change :: more, rest)
    else some ([], stream)

/-- A line that may be there. -/
def optionalLine (start stream : Bytes) : Option (Option Bytes × Bytes) :=
  if start <+: stream then do
    let (head, rest) ← line stream
    some (some (head.drop start.length), rest)
  else some (none, stream)

structure Commit where
  branch : Bytes
  mark : Option Nat
  author : Option Bytes
  committer : Bytes
  message : Bytes
  parent : Option Bytes
  changes : List FileModify
  deriving DecidableEq, Repr

def mark (text : Option Bytes) : Option (Option Nat) :=
  match text with
  | none => some none
  | some text => (decimal text).map some

def commit (stream : Bytes) : Option (Commit × Bytes) := do
  let (head, rest) ← line stream
  let branch ← strip (ascii "commit ") head
  let (text, rest) ← optionalLine (ascii "mark :") rest
  let mark ← mark text
  let (author, rest) ← optionalLine (ascii "author ") rest
  let (head, rest) ← line rest
  let committer ← strip (ascii "committer ") head
  let (message, rest) ← data rest
  let (parent, rest) ← optionalLine (ascii "from ") rest
  let (changes, rest) ← changes rest.length rest
  some ({ branch, mark, author, committer, message, parent, changes }, rest)

inductive Command where
  | commit (commit : Commit)
  | getMark (mark : Nat)
  deriving DecidableEq, Repr

def command (stream : Bytes) : Option (Command × Bytes) :=
  if ascii "commit " <+: stream then (commit stream).map fun (commit, rest) => (.commit commit, rest)
  else do
    let (head, rest) ← line stream
    let mark ← (strip (ascii "get-mark :") head).bind decimal
    some (.getMark mark, rest)

/-- The commands of a stream, `n` of them at most. -/
def commands : Nat → Bytes → Option (List Command)
  | _, [] => some []
  | 0, _ => none
  | n + 1, stream => do
      let (first, rest) ← command stream
      let more ← commands n rest
      some (first :: more)

/-- The whole stream. -/
def read (stream : Bytes) : Option (List Command) :=
  commands stream.length stream

/-! ## What the readers take -/

theorem line_append {head : Bytes} (single : lf ∉ head) (rest : Bytes) :
    line (head ++ lf :: rest) = some (head, rest) :=
  cut_append rest single

@[simp]
theorem strip_append (start text : Bytes) : strip start (start ++ text) = some text := by
  rw [strip, if_pos (prefix_append start text), drop_left]

/-- Digits are no line feed. -/
theorem not_mem_of_decimal {text : Bytes} {n : Nat} (number : decimal text = some n) : lf ∉ text := by
  rw [decimal] at number
  split at number
  · rename_i digits
    intro member
    exact absurd (all_eq_true.mp digits.2 lf member) (by decide)
  · cases number

/-- Counted bytes, and a line feed after them that does not count. -/
theorem data_append {digits bytes : Bytes} (count : decimal digits = some bytes.length) (rest : Bytes) :
    data (ascii "data " ++ digits ++ lf :: (bytes ++ rest)) =
      some (bytes, if rest.head? = some lf then rest.tail else rest) := by
  have single : lf ∉ ascii "data " ++ digits := by
    rw [mem_append, not_or]
    exact ⟨by decide, not_mem_of_decimal count⟩
  have enough : ¬(bytes ++ rest).length < bytes.length := by
    rw [length_append]
    omega
  rw [data, line_append single]
  simp only [Option.bind_eq_bind, Option.bind_some, strip_append, count, enough, if_false, drop_left, take_left]

theorem unquote_quote (rest : Bytes) : unquote (quote :: rest) = some ([], rest) := by
  rw [unquote.eq_def]
  simp only [if_true]

theorem unquote_plain {c : UInt8} (plain : c ≠ quote ∧ c ≠ backslash) (rest : Bytes) :
    unquote (c :: rest) = (unquote rest).map fun (text, rest) => (c :: text, rest) := by
  rw [unquote.eq_def]
  simp only [plain.1, plain.2, if_false, ne_eq, not_false_eq_true, if_true]

theorem unquote_escape {c : UInt8} (escaped : c = quote ∨ c = backslash) (rest : Bytes) :
    unquote (backslash :: c :: rest) = (unquote rest).map fun (text, rest) => (c :: text, rest) := by
  have apart : backslash ≠ quote := by decide
  have byte : escape c = some c := by rw [escape, if_pos escaped]
  rw [unquote.eq_def]
  simp only [apart, if_false, ne_eq, not_true_eq_false, byte]

theorem path_quoted {text : Bytes} {quoted : Bytes} (unquoted : unquote (quoted ++ [quote]) = some (text, [])) :
    path (quote :: (quoted ++ [quote])) = some text := by
  rw [path, List.head?_cons, if_pos rfl, tail_cons, unquoted]

theorem optionalLine_append {start text : Bytes} (single : lf ∉ start ++ text) (rest : Bytes) :
    optionalLine start (start ++ text ++ lf :: rest) = some (some text, rest) := by
  have begins : start <+: start ++ text ++ lf :: rest := by
    rw [append_assoc]
    exact prefix_append ..
  rw [optionalLine, if_pos begins, line_append single]
  simp only [Option.bind_eq_bind, Option.bind_some, drop_left]

theorem optionalLine_absent {start stream : Bytes} (absent : ¬start <+: stream) :
    optionalLine start stream = some (none, stream) := by
  rw [optionalLine, if_neg absent]

/-- A line that begins otherwise is another one. -/
theorem not_prefix_append {start text : Bytes} (apart : ¬start <+: text.take start.length)
    (long : start.length ≤ text.length) (rest : Bytes) : ¬start <+: text ++ rest := by
  intro begins
  apply apart
  have same := prefix_iff_eq_take.mp begins
  rw [take_append_of_le_length long] at same
  rw [← same]

@[simp]
theorem commands_nil (n : Nat) : commands n [] = some [] := by
  cases n <;> rfl

/-- A command, and those after it. -/
theorem commands_succ {stream rest : Bytes} {first : Command}
    (reads : command stream = some (first, rest)) (filled : stream ≠ []) (n : Nat) :
    commands (n + 1) stream = (commands n rest).map (first :: ·) := by
  obtain ⟨c, tail, rfl⟩ := exists_cons_of_ne_nil filled
  simp only [commands, reads, Option.bind_eq_bind, Option.bind_some]
  cases commands n rest with
  | none => rfl
  | some more => rfl

end Askai.Library.FastImport
