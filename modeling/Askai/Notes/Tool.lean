import Askai.Notes.Model

/-!
# A call of the notes tool

The model of `notes_tool.c`: what a call runs git for, from its arguments on and with what git wrote,
until it ends.  Of what a call answers, only whether it goes on is told.
-/

namespace Askai

open Library

/-! ## What git wrote -/

/-- `struct child`, of a git that has ended. -/
structure Child where
  out : Bytes
  /-- `CHILD_CUT`. -/
  cut : Bool
  /-- `CHILD_LATE`. -/
  late : Bool
  /-- `CLD_EXITED`. -/
  exited : Bool
  status : Nat
  deriving DecidableEq, Repr

/-- `child_status`: none for -1. -/
def childStatus (c : Child) : Option Nat :=
  if c.cut || c.late || !c.exited then none else some c.status

/-- `child_ok`. -/
def childOk (c : Child) : Bool :=
  childStatus c = some 0

/-- `enum notes_kind`. -/
inductive NotesKind where
  | missing | blob | tree | commit | other
  deriving DecidableEq, Repr

/-- `notes_kind`: also the name, and what follows the type of a line that has one. -/
def notesKind (line : Bytes) : NotesKind × Oid × Bytes :=
  if ascii " missing" <:+ line then (.missing, .none, [])
  else
    match oidInitField line space with
    | none => (.other, .none, [])
    | some (oid, line) =>
      match cut space line with
      | none => (.other, oid, [])
      | some (type, size) =>
        (if type = ascii "blob" then .blob else if type = ascii "tree" then .tree
          else if type = ascii "commit" then .commit else .other, oid, size)

/-- What `notes_checked` returns: 0, or the error number. -/
inductive NotesFound where
  | free | exists_ | isdir | notdir | io
  deriving DecidableEq, Repr

/-- What the loop of `notes_checked` knows after some lines. -/
structure NotesLines where
  lines : Nat := 0
  dirNote : Bool := false
  kind : NotesKind := .other
  tip : Oid := .none
  oid : Oid := .none
  size : Bytes := []

/-- The loop of `notes_checked`: none for `EIO`. -/
def notesCheckedLines (s : NotesLines) (rest : Bytes) : Option NotesLines :=
  if rest = [] then some s
  else
    match _line : cut lf rest with
    | none => none
    | some (line, rest) =>
      let dirNote := s.dirNote || (1 < s.lines && s.kind = .blob)
      let (kind, oid, size) := notesKind line
      if s.lines = 0 ∧ kind ≠ .missing ∧ kind ≠ .commit then none
      else
        let tip := if s.lines = 0 ∧ kind ≠ .missing then oid else s.tip
        notesCheckedLines { lines := s.lines + 1, dirNote, kind, tip, oid, size } rest
termination_by rest.length
decreasing_by
  have less := cut_length _line
  omega

/-- `notes_checked`: the tip, and the size and the name of the note's blob if there is one. -/
def notesChecked (out : Bytes) : NotesFound × Oid × Option (Nat × Oid) :=
  match notesCheckedLines {} out with
  | none => (.io, .none, none)
  | some s =>
    if s.lines < 2 || s.kind = .other || s.kind = .commit then (.io, s.tip, none)
    else if s.dirNote then (.notdir, s.tip, none)
    else if s.kind = .tree then (.isdir, s.tip, none)
    else if s.kind ≠ .blob then (.free, s.tip, none)
    else
      match utilNumber s.size with
      | none => (.io, s.tip, none)
      | some bytes => (.exists_, s.tip, some (bytes, s.oid))

/-- `notes_read_out`: the text and its name, none for an error. -/
def notesReadOut (out : Bytes) : Option (Bytes × Oid) :=
  match cut lf out with
  | none => none
  | some (line, rest) =>
    match notesKind line with
    | (.blob, oid, digits) =>
      match utilNumber digits with
      | none => none
      | some size =>
        if rest = [] ∨ size ≠ rest.length - 1 ∨ rest[size]? ≠ some lf then none
        else some (rest.take size, oid)
    | _ => none

/-! ## Why git runs -/

/-- The kinds of `enum notes_tool_fetch` that a call of the tool has. -/
inductive NotesFetchKind where
  | create | check | add | list | read | format | books | files | diff
  deriving DecidableEq, Repr

/-- `enum notes_tool_fetch`: a kind and the flags. -/
structure NotesFetch where
  kind : NotesFetchKind
  other : Bool := false
  copy : Bool := false
  attach : Bool := false
  replace : Bool := false
  revision : Bool := false
  restore : Bool := false
  deriving DecidableEq, Repr

/-- The commands of `notes_tool_fetch_steps`. -/
def NotesFetchKind.cmd : NotesFetchKind → NotesCmd
  | .create => .create
  | .check => .check
  | .add => .add
  | .list => .list
  | .read => .read
  | .format => .format
  | .books => .books
  | .files => .files
  | .diff => .diff

/-- The rows of `notes_tool_actions`. -/
inductive NotesAction where
  | add | replace | restore | notebooks | list | history | read | diff | copy | attach
  deriving DecidableEq, Repr

namespace NotesAction

def name : NotesAction → Bytes
  | .add => ascii "add"
  | .replace => ascii "replace"
  | .restore => ascii "restore"
  | .notebooks => ascii "notebooks"
  | .list => ascii "list"
  | .history => ascii "history"
  | .read => ascii "read"
  | .diff => ascii "diff"
  | .copy => ascii "copy"
  | .attach => ascii "attach"

def all : List NotesAction :=
  [.add, .replace, .restore, .notebooks, .list, .history, .read, .diff, .copy, .attach]

/-- `NOTE_WRITE`. -/
def write : NotesAction → Bool
  | .add | .replace | .restore => true
  | _ => false

/-- `NOTE_FILE`. -/
def file : NotesAction → Bool
  | .add | .replace | .restore | .read | .diff | .copy | .attach => true
  | _ => false

/-- `NOTE_OFFSET`. -/
def offset : NotesAction → Bool
  | .notebooks | .list | .history | .read | .diff => true
  | _ => false

/-- `NOTE_UPLOAD`. -/
def upload : NotesAction → Bool
  | .attach => true
  | _ => false

/-- `NOTE_REVISION`. -/
def revision : NotesAction → Bool
  | .restore | .read => true
  | _ => false

def fetch : NotesAction → NotesFetch
  | .add => { kind := .create }
  | .replace => { kind := .create, replace := true }
  | .restore => { kind := .read, restore := true }
  | .notebooks => { kind := .books }
  | .list => { kind := .files }
  | .history => { kind := .list }
  | .read => { kind := .read }
  | .diff => { kind := .diff }
  | .copy => { kind := .read, other := true, copy := true }
  | .attach => { kind := .read, attach := true }

end NotesAction

/-! ## A call -/

/-- What a call has of its loop: the service, the caller, and what other files of the program make
of an argument. -/
structure NotesHost where
  notes : Notes
  principal : UInt64
  side : NotesSide
  /-- The upstream accepts files. -/
  attach : Bool
  filesInline : Nat
  /-- `notice_kept`: how much of a text comes before its trailing notices. -/
  noticeKept : Bytes → Nat
  /-- `datauri_init` and `datauri_decode`: none for an error. -/
  datauri : Bytes → Option Bytes

/-- What a call finds as a step runs: `notes_exists`, and `notes_file_same` unless it fails. -/
structure NotesFinds where
  exists_ : Bool
  same : Option Bool

/-- An argument: absent, a value that is no string, or a string. -/
abbrev NotesArg := Option (Option Bytes)

/-- `jb_view`. -/
def NotesArg.view (arg : NotesArg) : Bytes :=
  (arg.join).getD []

structure NotesArgs where
  action : NotesArg := none
  revision : NotesArg := none
  from_ : NotesArg := none
  to_ : NotesArg := none
  thread : NotesArg := none
  notebook : NotesArg := none
  file : NotesArg := none
  text : NotesArg := none
  content : NotesArg := none
  as_ : NotesArg := none
  /-- `mcp_slot_offset` takes the offset. -/
  offset : Bool := true

/-- A revision that is zeroed. -/
def NotesRevision.zero : NotesRevision :=
  { file := [], from_ := .none, to_ := .none, tip := .none, phase := .head }

/-- `struct notes_tool_call`. -/
structure NotesToolCall where
  file : Bytes := []
  part : NotesPart := ⟨0, 0, 0, 0⟩
  revision : NotesRevision := .zero
  name : Bytes := []
  fetch : NotesFetch := { kind := .create }
  action : NotesAction := .add
  repo : Bytes
  /-- The notebook that the call selected, or "". -/
  notebook : Bytes := []

/-- `notes_tool_call_notebook`. -/
def notesToolCallNotebook (call : NotesToolCall) : Bytes :=
  if call.notebook ≠ [] then call.notebook else call.repo

/-- A git that a call runs. -/
structure NotesRun where
  cmd : NotesCmd
  argv : List Bytes
  input : Bytes
  deriving DecidableEq, Repr

/-- Where a step leaves the call: with a git that runs, or at its end, or with the upload of `attach`,
which runs no git. -/
inductive NotesNext where
  | run (run : NotesRun) (call : NotesToolCall)
  | done

/-- `notes_tool_run`. -/
def notesToolRun (host : NotesHost) (call : NotesToolCall) (fetch : NotesFetch) (input : Bytes) : NotesNext :=
  let repo := if fetch.other then notesToolCallNotebook call else call.repo
  let cmd := fetch.kind.cmd
  let words := repo :: if call.revision.file ≠ [] then [call.revision.file] else []
  let argv := if fetch.revision then
      notesRevisionArgv call.revision host.notes (notesToolCallNotebook call) cmd
    else notesArgv host.notes cmd words
  .run { cmd, argv, input } { call with fetch }

/-- Text that several messages of a write have. -/
def plural (n : Nat) : Bytes :=
  if n = 1 then [] else ascii "s"

/-- `notes_selector`. -/
def notesSelector (repo : Bytes) : Bytes :=
  repo.drop notesBranch.length

/-- `notes_tool_call_message`, with the size of the note before or none: none for `EINVAL`. -/
def notesToolCallMessage (call : NotesToolCall) (before : Option Nat) : Option Bytes :=
  let fetch := call.action.fetch
  let verb := call.action.name
  let from_ := if fetch.restore then call.revision.from_.hex
    else if fetch.copy then notesSelector (notesToolCallNotebook call) else []
  let sep := if from_ ≠ [] then ascii " from " else []
  let name := (call.file.drop call.part.nameAt).take call.part.nameLen
  let after := call.part.dataLen
  let start := (verb.take 1).map (· - 32) ++ verb.drop 1 ++ [space] ++ name ++ sep ++ from_ ++
    ascii " ("
  let text := match before with
    | none => start ++ utilDecimal after ++ ascii " byte" ++ plural after ++ ascii ")"
    | some before => start ++ utilDecimal before ++ ascii " to " ++ utilDecimal after ++
        ascii " bytes)"
  if text.length < notesMessageMax - 1 then some text else none

/-- `notes_tool_write`. -/
def notesToolWrite (host : NotesHost) (call : NotesToolCall) (tip : Oid) (before : Option Nat) : NotesNext :=
  if oidLen tip = 0 then notesToolRun host call { kind := .format } []
  else
    match notesToolCallMessage call before with
    | none => .done
    | some message =>
      match notesAddInput [] call.repo tip message call.file with
      | .error _ => .done
      | .ok input => notesToolRun host { call with file := [] } { kind := .add } input

/-- `notes_tool_format`. -/
def notesToolFormat (host : NotesHost) (call : NotesToolCall) (child : Child) : NotesNext :=
  let zero := oidZero (cstrViewTrimEnd child.out)
  if !childOk child || oidLen zero = 0 then .done else notesToolWrite host call zero none

/-- `notes_tool_raced`. -/
def notesToolRaced (child : Child) : Bool :=
  [ascii "Not updating ", ascii "not updating ", ascii " but expected ", ascii "File exists"].any
    fun text => text <:+: child.out

/-- `notes_tool_created`. -/
def notesToolCreated (host : NotesHost) (call : NotesToolCall) (child : Child) (finds : NotesFinds) : NotesNext :=
  if childOk child || (notesToolRaced child && finds.exists_) then notesToolWrite host call .none none
  else .done

/-- Whether a write with the fetch goes on after `notes_checked`. -/
def notesToolAccepts (fetch : NotesFetch) (r : NotesFound) : Bool :=
  if fetch.replace then r = .exists_ else r = .free || (fetch.restore && r = .exists_)

/-- `notes_tool_checked`. -/
def notesToolChecked (host : NotesHost) (call : NotesToolCall) (child : Child) (finds : NotesFinds) : NotesNext :=
  let (r, tip, note) := if childOk child then notesChecked child.out else (.io, .none, none)
  let before := if r = .exists_ then note.map Prod.fst else none
  let fetch := call.action.fetch
  let ok := notesToolAccepts fetch r
  if fetch.restore && ok && !oidEqual tip call.revision.tip then .done
  else if !ok then .done
  else if before.isSome && finds.same = some true then .done
  else notesToolWrite host call tip before

/-- `notes_tool_check`. -/
def notesToolCheck (host : NotesHost) (call : NotesToolCall) (name : Bytes) (initialized : Bool) : NotesNext :=
  if initialized then notesToolRun host call { kind := .check } (notesCheckInput [] call.repo name)
  else notesToolRun host call { kind := .create } []

/-- `TOOL_TEXT_MAX`. -/
def toolTextMax : Nat := 4 * 2 ^ 20

/-- The bytes of the note that the arguments of add or replace give, none for an answer instead. -/
def notesToolAddText (host : NotesHost) (args : NotesArgs) : Option Bytes :=
  let text := args.text.view
  let kept := if host.side = .upstream then host.noticeKept text else text.length
  match args.content with
  | none =>
    if text = [] ∨ toolTextMax < text.length ∨ nul ∈ text ∨ kept = 0 then none
    else some (text.take kept)
  | some _ =>
    if host.side = .upstream ∨ args.text.join.isSome then none
    else
      match host.datauri args.content.view with
      | none => none
      | some data => if host.filesInline < data.length then none else some data

/-- `notes_tool_add`. -/
def notesToolAdd (host : NotesHost) (call : NotesToolCall) (name : Bytes) (args : NotesArgs)
    (finds : NotesFinds) : NotesNext :=
  match notesName name with
  | none => .done
  | some name =>
    match notesToolAddText host args with
    | none => .done
    | some text =>
      if !finds.exists_ && call.action.fetch.replace then .done
      else
        match notesAddFile [] name text with
        | .error _ => .done
        | .ok (file, part) => notesToolCheck host { call with file, part } name finds.exists_

/-- `notes_tool_got_copy`. -/
def notesToolGotCopy (host : NotesHost) (call : NotesToolCall) (text : Bytes) (finds : NotesFinds) : NotesNext :=
  if call.fetch.restore && toolTextMax < text.length then .done
  else
    let name := if call.fetch.restore then call.revision.file else call.name
    match notesAddFile [] name text with
    | .error _ => .done
    | .ok (file, part) => notesToolCheck host { call with file, part } name finds.exists_

/-- `notes_tool_got_note`. -/
def notesToolGotNote (host : NotesHost) (call : NotesToolCall) (child : Child) (finds : NotesFinds) : NotesNext :=
  match if childOk child then notesReadOut child.out else none with
  | none => .done
  | some (text, _) =>
    if call.fetch.copy || call.fetch.restore then notesToolGotCopy host call text finds else .done

/-- `notes_tool_revision_step`. -/
def notesToolRevisionStep (host : NotesHost) (call : NotesToolCall) (child : Child) : NotesNext :=
  if !childOk child then .done
  else
    match notesRevisionNext call.revision child.out with
    | .error _ => .done
    | .ok revision =>
      let input := if notesRevisionReady revision && call.fetch.kind ≠ .diff then
          notesReadInput [] revision.from_.hex revision.file
        else []
      notesToolRun host { call with revision } call.fetch input

/-- `notes_tool_step`, of a call whose git has ended. -/
def notesToolStep (host : NotesHost) (call : NotesToolCall) (child : Child) (finds : NotesFinds) : NotesNext :=
  if call.fetch.revision && !notesRevisionReady call.revision then
    notesToolRevisionStep host call child
  else
    match call.fetch.kind with
    | .create => notesToolCreated host call child finds
    | .check => notesToolChecked host call child finds
    | .format => notesToolFormat host call child
    | .read => notesToolGotNote host call child finds
    -- these answer, or fail without a list
    | .add | .list | .books | .files | .diff => .done

/-- `notes_tool_read`. -/
def notesToolRead (host : NotesHost) (call : NotesToolCall) (name : Bytes) (args : NotesArgs)
    (fetch : NotesFetch) : NotesNext :=
  match notesName name with
  | none => .done
  | some name =>
    let read (call : NotesToolCall) :=
      notesToolRun host call fetch (notesReadInput [] (notesToolCallNotebook call) name)
    if !fetch.copy then read call
    else
      match args.as_ with
      | none => read { call with name := utilTextStore (notesNameMax + 1) name }
      | some _ =>
        match notesName args.as_.view with
        | none => .done
        | some to_ => read { call with name := utilTextStore (notesNameMax + 1) to_ }

/-- A commit that an argument names, which may be the tip: none for a bad one. -/
def notesToolOid (arg : NotesArg) : Option Oid :=
  if arg.isNone then some .none
  else
    match oidInit arg.view with
    | some oid => some oid
    | none => if arg.view = ascii "current" then some .none else none

/-- `notes_tool_revision`. -/
def notesToolRevision (host : NotesHost) (call : NotesToolCall) (file : Bytes)
    (first second : NotesArg) (fetch : NotesFetch) : NotesNext :=
  if first.isNone && (fetch.kind = .diff || fetch.restore) then .done
  else
    match notesToolOid first, notesToolOid second with
    | some from_, some to_ =>
      match notesRevisionInit file from_ to_ with
      | .error _ => .done
      | .ok revision =>
        notesToolRun host { call with revision }
          { fetch with revision := fetch.revision || fetch.kind ≠ .list } []
    | _, _ => .done

/-- The side that is not the caller's. -/
def NotesSide.other : NotesSide → NotesSide
  | .upstream => .client
  | .client => .upstream

/-- The notebook that the arguments select, "" for the caller's own: none for an answer instead. -/
def notesToolNotebook (host : NotesHost) (args : NotesArgs) (copy : Bool) : Option Bytes :=
  let selected := args.notebook.view
  if args.notebook.isNone && copy then
    if host.side = .upstream then none
    else some (notesRepo host.notes host.principal host.side.other)
  else if selected = ascii "other" then some (notesRepo host.notes host.principal host.side.other)
  else if args.notebook.isSome && selected ≠ ascii "own" then notesSelect selected
  else some []

/-- `notes_tool_start`. -/
def notesToolStart (host : NotesHost) (args : NotesArgs) (finds : NotesFinds) : NotesNext :=
  let repo := notesRepo host.notes host.principal host.side
  match NotesAction.all.find? fun action => args.action.view = action.name with
  | none => .done
  | some action =>
    let fetch := action.fetch
    let diff := fetch.kind = .diff
    if action.upload && !(host.side = .upstream && host.attach) then .done
    else if (args.revision.isSome && !action.revision) ||
        ((args.from_.isSome || args.to_.isSome) && !diff) then .done
    else if host.side = .client && args.thread.isSome &&
        !(args.thread.view.length = 32 && utilIsHex args.thread.view) then .done
    else
      match notesToolNotebook host args fetch.copy with
      | none => .done
      | some notebook =>
        if action.write && notebook ≠ [] && notebook ≠ repo then .done
        else if action.offset && !args.offset then .done
        else
          let call : NotesToolCall := { repo, notebook, action }
          let name := args.file.view
          let selection := { fetch with other := fetch.other || notebook ≠ [] }
          if args.revision.isSome || diff || fetch.restore ||
              (fetch.kind = .list && args.file.isSome) then
            notesToolRevision host call name (if diff then args.from_ else args.revision) args.to_
              selection
          else if action.write then notesToolAdd host call name args finds
          else if !finds.exists_ then .done
          else if action.file then notesToolRead host call name args selection
          else notesToolRun host call selection []

end Askai
