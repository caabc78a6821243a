import Askai.Util.Oid

/-!
# Notes in Git

The model of `notes.c`: the branches of notebooks, the argv of git, the check of a note's name, the
stages of a historical read or diff, and the inputs that git reads.
-/

namespace Askai

open Library

/-- `enum notes_side`. -/
inductive NotesSide where
  | upstream | client
  deriving DecidableEq, Repr

/-- `enum notes_cmd`. -/
inductive NotesCmd where
  | create | check | add | list | read | books | format | files | head | ancestor | diff
  deriving DecidableEq, Repr

/-- `NOTES_NAME`. -/
def notesNameMax : Nat := 255

/-- `NOTES_REPO`. -/
def notesRepoMax : Nat := 128

/-- `NOTES_MESSAGE`. -/
def notesMessageMax : Nat := 1024

/-- `NOTES_WHO`. -/
def notesWho : Nat := 16

/-- `BRANCH`. -/
def notesBranch : Bytes := ascii "refs/heads/notes/"

/-- `notes_anonymous`. -/
def notesAnonymous : Bytes := ascii "anonymous"

/-- `notes_sides`. -/
def notesSides : NotesSide → Bytes
  | .upstream => ascii "upstream"
  | .client => ascii "client"

/-- What the argv and the branches take of `struct notes`. -/
structure Notes where
  dir : Bytes
  directory : Bytes
  participant : Bytes
  /-- `notes_init` takes a word. -/
  word : utilWord participant utilWordMax = true

inductive NotesErrno where
  | io | inval
  deriving DecidableEq, Repr

/-! ## Branches -/

/-- `notes_repo`: the digits are those of `%016llx`. -/
def notesRepo (notes : Notes) (principal : UInt64) (side : NotesSide) : Bytes :=
  let who := if principal ≠ 0 then hexDigits notesWho principal.toNat else notesAnonymous
  notesBranch ++ notes.participant ++ [slash] ++ who ++ [slash] ++ notesSides side

/-- `notes_select`: none for `EINVAL`. -/
def notesSelect (name : Bytes) : Option Bytes :=
  if name = [] || notesRepoMax < notesBranch.length + 1 + name.length then none
  else
    match cut slash name with
    | none => none
    | some (participant, side) =>
      if !utilWord participant utilWordMax then none
      else
        match cut slash side with
        | none => none
        | some (who, side) =>
          if (who ≠ notesAnonymous && (who.length ≠ notesWho || !utilIsHex who)) ||
              !([notesSides .upstream, notesSides .client].contains side) then none
          else some (notesBranch ++ name)

/-! ## The argv of git -/

/-- A place of a command's row: a word of its own, or one that the caller passes. -/
inductive ArgvWord where
  | own (text : String)
  | word

/-- `fixed`, which begins with `GIT_OPTIONS_FIXED`. -/
def notesFixed : List Bytes :=
  ["--no-pager", "--no-replace-objects", "-c", "core.fsmonitor=false", "-c",
    "core.hooksPath=/dev/null", "-c", "gpg.program=false", "-c", "gpg.ssh.program=false", "-c",
    "gpg.x509.program=false", "-c", "protocol.allow=never", "-c", "gc.auto=0", "-c",
    "maintenance.auto=false", "--literal-pathspecs", "-c", "core.bare=true", "-c",
    "log.showSignature=false"].map ascii

/-- `cmds`. -/
def notesCmds : NotesCmd → List ArgvWord
  | .create => [.own "init", .own "--bare", .own "--quiet", .own "--template=",
      .own "--initial-branch=session", .own "--", .own "."]
  | .check => [.own "cat-file", .own "--batch-check"]
  | .add => [.own "fast-import", .own "--quiet", .own "--date-format=now"]
  | .list => [.own "log", .own "-z", .own "--no-renames", .own "--format=%ct %H %s",
      .own "--numstat", .word, .own "--", .word]
  | .read => [.own "cat-file", .own "--batch"]
  | .books => [.own "for-each-ref", .own "--format=%(refname:strip=3)", .own "refs/heads/notes/"]
  | .format => [.own "rev-parse", .own "--show-object-format"]
  | .files => [.own "ls-tree", .own "-r", .own "-z", .own "-l", .word, .own "--"]
  | .head => [.own "rev-parse", .own "--verify", .own "--end-of-options", .word]
  | .ancestor => [.own "merge-base", .own "--is-ancestor", .word, .word]
  | .diff => [.own "diff", .own "--no-ext-diff", .own "--no-textconv", .own "--no-renames",
      .own "--no-color", .own "--submodule=short", .word, .word, .own "--", .word]

/-- The last loop of `notes_argv`, up to the first null pointer. -/
def fillWords : List ArgvWord → List Bytes → List Bytes
  | [], _ => []
  | .own text :: row, words => ascii text :: fillWords row words
  | .word :: _, [] => []
  | .word :: row, text :: words => text :: fillWords row words

/-- The words of the argv before the command. -/
def notesArgvStart (notes : Notes) (cmd : NotesCmd) : List Bytes :=
  [ascii "git", ascii "-C"] ++
    (if cmd = .create then [notes.dir] else [notes.directory, ascii "--git-dir=."]) ++ notesFixed

/-- `notes_argv`; words that are not passed are null pointers. -/
def notesArgv (notes : Notes) (cmd : NotesCmd) (words : List Bytes) : List Bytes :=
  notesArgvStart notes cmd ++ fillWords (notesCmds cmd) words

/-! ## Names of notes -/

/-- What may follow the name of a repository's directory. -/
def filler (c : UInt8) : Bool :=
  c = space || c = dot

/-- The length of the name of a repository's directory that a piece begins with, or 0. -/
def gitLength (piece : Bytes) : Nat :=
  if cstrViewStartsCase piece (ascii ".git") then 4
  else if cstrViewStartsCase piece (ascii "git~1") then 5 else 0

/-- What `notes_is_dotgit` tells of one piece: the end of the name is `k`. -/
def gitEnds (piece : Bytes) : Bool :=
  let n := gitLength piece
  let k := if n = 0 then 0 else n + ((piece.drop n).takeWhile filler).length
  k ≠ 0 && (k = piece.length || piece[k]? = some colon || piece[k]? = some backslash)

/-- The loop of `notes_is_dotgit`, on the part from `at` on. -/
def notesIsDotgit (rest : Bytes) : Bool :=
  if gitEnds rest then true
  else
    match _bs : cut backslash rest with
    | none => false
    | some (_, rest) => notesIsDotgit rest
termination_by rest.length
decreasing_by
  have less := cut_length _bs
  omega

/-- A part of a name that `notes_name` takes. -/
def notesPartOk (part : Bytes) : Bool :=
  !(part = [] || part = [dot] || part = [dot, dot] || notesIsDotgit part)

/-- The loop of `notes_name` over the parts. -/
def notesParts (rest : Bytes) : Bool :=
  match _slash : cut slash rest with
  | none => notesPartOk rest
  | some (part, rest) => notesPartOk part && notesParts rest
termination_by rest.length
decreasing_by
  have less := cut_length _slash
  omega

/-- `notes_name`: none for `EINVAL`, or the name without the slashes that it begins with. -/
def notesName (name : Bytes) : Option Bytes :=
  let s := name.dropWhile (· = slash)
  if s = [] || notesNameMax < s.length then none
  else if s.any fun c => c < 0x20 || c = 0x7f then none
  else if notesParts s then some s
  else none

/-! ## Historical reads and diffs -/

/-- `enum notes_revision_phase`. -/
inductive NotesRevisionPhase where
  | head | from_ | to_ | data
  deriving DecidableEq, Repr

/-- `struct notes_revision`. -/
structure NotesRevision where
  file : Bytes
  from_ : Oid
  to_ : Oid
  tip : Oid
  phase : NotesRevisionPhase
  deriving DecidableEq

/-- `notes_revision_init`, of arguments that are not null. -/
def notesRevisionInit (file : Bytes) (from_ to_ : Oid) : Except NotesErrno NotesRevision :=
  match notesName file with
  | none => .error .inval
  | some file =>
    .ok { file := utilTextStore (notesNameMax + 1) file, from_, to_, tip := .none, phase := .head }

/-- `notes_revision_argv`. -/
def notesRevisionArgv (revision : NotesRevision) (notes : Notes) (repo : Bytes) (cmd : NotesCmd) : List Bytes :=
  match revision.phase with
  | .head => notesArgv notes .head [repo]
  | .from_ => notesArgv notes .ancestor [revision.from_.hex, revision.tip.hex]
  | .to_ => notesArgv notes .ancestor [revision.to_.hex, revision.tip.hex]
  | .data => notesArgv notes cmd [revision.from_.hex, revision.to_.hex, revision.file]

/-- The end of `notes_revision_next`: whether `to` is still to be checked. -/
def notesRevisionChecked (revision : NotesRevision) : NotesRevision :=
  { revision with
    phase := if oidEqual revision.to_ revision.tip || oidEqual revision.to_ revision.from_ then .data
      else .to_ }

/-- The commit asked for, or the tip if none is. -/
def Oid.orTip (oid tip : Oid) : Oid :=
  if oidLen oid = 0 then tip else oid

/-- `notes_revision_next`. -/
def notesRevisionNext (revision : NotesRevision) (out : Bytes) : Except NotesErrno NotesRevision :=
  match revision.phase with
  | .head =>
    match oidInitLine out with
    | none => .error .io
    | some tip =>
      let from_ := revision.from_.orTip tip
      let to_ := revision.to_.orTip tip
      if oidLen from_ ≠ oidLen tip || oidLen to_ ≠ oidLen tip then .error .inval
      else
        let revision := { revision with tip, from_, to_ }
        if !oidEqual from_ tip then .ok { revision with phase := .from_ }
        else .ok (notesRevisionChecked revision)
  | .from_ => if out ≠ [] then .error .io else .ok (notesRevisionChecked revision)
  | .to_ => if out ≠ [] then .error .io else .ok { revision with phase := .data }
  | .data => .error .inval

/-- `notes_revision_ready`. -/
def notesRevisionReady (revision : NotesRevision) : Bool :=
  revision.phase = .data

/-! ## What git reads -/

/-- `notes_read_input`. -/
def notesReadInput (in_ repo name : Bytes) : Bytes :=
  in_ ++ repo ++ [colon] ++ name ++ [lf]

/-- The last loop of `notes_check_input`, with the name's bytes so far. -/
def notesCheckLines (repo : Bytes) (front : Bytes) : Bytes → Bytes
  | [] => repo ++ [colon] ++ front ++ [lf]
  | c :: name =>
    (if c ≠ slash then [] else repo ++ [colon] ++ front ++ [lf]) ++
      notesCheckLines repo (front ++ [c]) name

/-- `notes_check_input`. -/
def notesCheckInput (in_ repo name : Bytes) : Bytes :=
  in_ ++ repo ++ [lf] ++ notesCheckLines repo [] name

/-- `struct notes_part`. -/
structure NotesPart where
  nameAt : Nat
  nameLen : Nat
  dataAt : Nat
  dataLen : Nat
  deriving DecidableEq, Repr

/-- What the loop of `notes_add_head` writes of a name. -/
def quoted : Bytes → Bytes
  | [] => []
  | c :: name => (if c = quote || c = backslash then [backslash] else []) ++ c :: quoted name

/-- `notes_add_head`: the bytes of the text, yet to be written, are zeros here. -/
def notesAddHead (in_ name : Bytes) (len : Nat) : Except NotesErrno (Bytes × NotesPart) :=
  let m := ascii "M 100644 inline \""
  let end_ := ascii "\"\ndata "
  if notesNameMax < name.length then .error .inval
  else
    let reserved := m.length + 1 + 2 * name.length + (end_.length + 2) + utilDecimalMax + len
    let front := m ++ quoted name
    let data := end_ ++ utilDecimal len ++ [lf]
    if reserved - front.length ≤ data.length then .error .inval
    else
      let h := front.length + data.length
      .ok (in_ ++ front ++ data ++ List.replicate len 0 ++ [lf],
        { nameAt := in_.length + m.length - 1
          nameLen := front.length - (m.length - 1) + 1
          dataAt := in_.length + h
          dataLen := len })

/-- Bytes written over those of a buffer. -/
def writeAt (buf : Bytes) (at_ : Nat) (bytes : Bytes) : Bytes :=
  buf.take at_ ++ bytes ++ buf.drop (at_ + bytes.length)

/-- `notes_add_file`. -/
def notesAddFile (in_ name text : Bytes) : Except NotesErrno (Bytes × NotesPart) :=
  (notesAddHead in_ name text.length).map fun (in_, part) => (writeAt in_ part.dataAt text, part)

/-- `notes_add_input`. -/
def notesAddInput (in_ repo : Bytes) (tip : Oid) (message file : Bytes) : Except NotesErrno Bytes :=
  if oidLen tip = 0 || notesMessageMax ≤ message.length || message.contains nul then .error .inval
  else
    .ok (in_ ++ ascii "commit " ++ repo ++ ascii "\nmark :1\ncommitter askai <askai> now\ndata " ++
      utilDecimal (message.length + 1) ++ [lf] ++ message ++ ascii "\nfrom " ++ tip.hex ++ [lf] ++
      file ++ ascii "get-mark :1\n")

end Askai
