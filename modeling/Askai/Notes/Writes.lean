import Askai.Library.Pieces
import Askai.Notes.Stream
import Askai.Notes.Tool

/-!
# What a call of the notes tool writes

Through all runs of git for one call, what fast-import is given moves the caller's own branch from
the tip that the call's check read.
-/

namespace Askai

open Library

/-- The runs of git for one call, each with how it ended, and what comes next.  A call has one git at
a time: the next one starts after the last one's end. -/
inductive CallRuns (host : NotesHost) (args : NotesArgs) :
    List (NotesRun × Child) → NotesNext → Prop
  | start (finds : NotesFinds) : CallRuns host args [] (notesToolStart host args finds)
  | step {done : List (NotesRun × Child)} {run : NotesRun} {call : NotesToolCall}
      (runs : CallRuns host args done (.run run call)) (child : Child) (finds : NotesFinds) :
      CallRuns host args (done ++ [(run, child)]) (notesToolStep host call child finds)
  | unspawned {done : List (NotesRun × Child)} {run : NotesRun} {call : NotesToolCall}
      (runs : CallRuns host args done (.run run call)) : CallRuns host args done .done

/-! ## What each run is for -/

/-- The last run was a check of the branch that read the tip, or no tip. -/
def Checked (repo : Bytes) (done : List (NotesRun × Child)) (tip : Oid) : Prop :=
  ∃ before check child name, done = before ++ [(check, child)] ∧ check.cmd = .check ∧
    check.input = notesCheckInput [] repo name ∧ childOk child = true ∧
      (notesChecked child.out).2.1 = tip

/-- The last run made the repository, with a branch yet unborn, or found it made at that time. -/
def Created (done : List (NotesRun × Child)) : Prop :=
  ∃ before create child, done = before ++ [(create, child)] ∧ create.cmd = .create

/-- The last run printed the format, after the branch was found unborn. -/
def Formatted (repo : Bytes) (done : List (NotesRun × Child)) (tip : Oid) : Prop :=
  ∃ before format child, done = before ++ [(format, child)] ∧ format.cmd = .format ∧
    childOk child = true ∧ tip = oidZero (cstrViewTrimEnd child.out) ∧
      ((∃ none, oidLen none = 0 ∧ Checked repo before none) ∨ Created before)

/-- What a call's file part is. -/
def HasFile (call : NotesToolCall) : Prop :=
  ∃ name text, PlainName name ∧ call.file = fileText name text

/-- What holds of a call and of the git that it runs. -/
structure Sane (host : NotesHost) (done : List (NotesRun × Child)) (run : NotesRun)
    (call : NotesToolCall) : Prop where
  repo : call.repo = notesRepo host.notes host.principal host.side
  file : call.fetch.kind = .create ∨ call.fetch.kind = .check ∨ call.fetch.kind = .format → HasFile call
  copy : call.fetch.copy = true → PlainName call.name
  restore : call.fetch.restore = true → PlainName call.revision.file
  /-- Revisions are checked for reads and diffs only. -/
  revision : call.fetch.revision = true → call.fetch.kind = .read ∨ call.fetch.kind = .diff
  single : ∀ r ∈ done, r.1.cmd ≠ .add
  cmd : run.cmd = call.fetch.kind.cmd
  check : call.fetch.kind = .check → ∃ name, run.input = notesCheckInput [] call.repo name
  format : call.fetch.kind = .format →
    (∃ none, oidLen none = 0 ∧ Checked call.repo done none) ∨ Created done
  add : call.fetch.kind = .add → ∃ tip message name text, oidLen tip ≠ 0 ∧
    run.input = noteStream call.repo tip message (fileText name text) ∧ PlainName name ∧
      (Checked call.repo done tip ∨ Formatted call.repo done tip)

/-- What a step leads to is sane. -/
def SaneNext (host : NotesHost) (done : List (NotesRun × Child)) : NotesNext → Prop
  | .run run call => Sane host done run call
  | .done => True

/-- The parts of a call that its runs do not change. -/
structure Filed (host : NotesHost) (call : NotesToolCall) : Prop where
  repo : call.repo = notesRepo host.notes host.principal host.side
  file : HasFile call

variable {call : NotesToolCall} {host : NotesHost} {done : List (NotesRun × Child)} {run : NotesRun}

/-- A git that neither checks, nor writes, nor reads the format. -/
theorem saneNext_read
    {fetch : NotesFetch} {input : Bytes} (repo : call.repo = notesRepo host.notes host.principal host.side)
    (kind : fetch.kind = .read ∨ fetch.kind = .diff ∨ fetch.kind = .list ∨ fetch.kind = .books ∨ fetch.kind = .files)
    (copy : fetch.copy = true → PlainName call.name) (restore : fetch.restore = true → PlainName call.revision.file)
    (revision : fetch.revision = true → fetch.kind = .read ∨ fetch.kind = .diff) (single : ∀ r ∈ done, r.1.cmd ≠ .add) :
    SaneNext host done (notesToolRun host call fetch input) := by
  have apart : fetch.kind ≠ .create ∧ fetch.kind ≠ .check ∧ fetch.kind ≠ .format ∧ fetch.kind ≠ .add := by
    rcases kind with kind | kind | kind | kind | kind <;> rw [kind] <;> decide
  exact
    { repo := repo
      file := by
        rintro (create | check | format)
        · exact absurd create apart.1
        · exact absurd check apart.2.1
        · exact absurd format apart.2.2.1
      copy := copy
      restore := restore
      revision := revision
      single := single
      cmd := rfl
      check := fun check => absurd check apart.2.1
      format := fun format => absurd format apart.2.2.1
      add := fun add => absurd add apart.2.2.2 }

theorem saneNext_check
    (filed : Filed host call) (single : ∀ r ∈ done, r.1.cmd ≠ .add) (name : Bytes)
    (initialized : Bool) : SaneNext host done (notesToolCheck host call name initialized) := by
  rw [notesToolCheck]
  split
  · exact
      { repo := filed.repo, file := fun _ => filed.file, copy := nofun, restore := nofun, revision := nofun
        single := single, cmd := rfl, check := fun _ => ⟨name, rfl⟩, format := nofun, add := nofun }
  · exact
      { repo := filed.repo, file := fun _ => filed.file, copy := nofun, restore := nofun, revision := nofun
        single := single, cmd := rfl, check := nofun, format := nofun, add := nofun }

theorem saneNext_format
    (filed : Filed host call) (single : ∀ r ∈ done, r.1.cmd ≠ .add)
    (unborn : (∃ none, oidLen none = 0 ∧ Checked call.repo done none) ∨ Created done) :
    SaneNext host done (notesToolRun host call { kind := .format } []) :=
  { repo := filed.repo, file := fun _ => filed.file, copy := nofun, restore := nofun, revision := nofun
    single := single, cmd := rfl, check := nofun, format := fun _ => unborn, add := nofun }

/-- What the write is given, once the tip is known. -/
theorem saneNext_write
    (filed : Filed host call) (single : ∀ r ∈ done, r.1.cmd ≠ .add) {tip : Oid}
    (unborn : oidLen tip = 0 → (∃ none, oidLen none = 0 ∧ Checked call.repo done none) ∨ Created done)
    (parent : oidLen tip ≠ 0 → Checked call.repo done tip ∨ Formatted call.repo done tip)
    (before : Option Nat) : SaneNext host done (notesToolWrite host call tip before) := by
  rw [notesToolWrite]
  split
  · rename_i none
    exact saneNext_format filed single (unborn none)
  · rename_i named
    cases notesToolCallMessage call before with
    | none => trivial
    | some message =>
      obtain ⟨name, text, plain, file⟩ := filed.file
      simp only [notesAddInput]
      split
      · trivial
      · rename_i input written
        split at written
        · cases written
        · obtain rfl := Except.ok.inj written
          exact
            { repo := filed.repo, file := (by simp), copy := (by simp), restore := (by simp), revision := (by simp)
              single := single, cmd := rfl, check := (by simp), format := (by simp)
              add := fun _ => ⟨tip, message, name, text, named, by simp [noteStream, file], plain,
                parent named⟩ }

/-! ## Each step -/

theorem Sane.filed
    (sane : Sane host done run call)
    (kind : call.fetch.kind = .create ∨ call.fetch.kind = .check ∨ call.fetch.kind = .format) : Filed host call :=
  ⟨sane.repo, sane.file kind⟩

/-- The runs so far with the last one. -/
theorem Sane.single_concat
    (sane : Sane host done run call) (other : call.fetch.kind ≠ .add)
    (child : Child) : ∀ r ∈ done ++ [(run, child)], r.1.cmd ≠ .add := by
  intro r member
  rcases List.mem_append.mp member with before | last
  · exact sane.single r before
  · rw [List.mem_singleton.mp last, sane.cmd]
    cases kind : call.fetch.kind <;> simp_all [NotesFetchKind.cmd]

theorem saneNext_created
    (sane : Sane host done run call) (kind : call.fetch.kind = .create)
    (child : Child) (finds : NotesFinds) :
    SaneNext host (done ++ [(run, child)]) (notesToolCreated host call child finds) := by
  have single := sane.single_concat (by rw [kind]; decide) child
  rw [notesToolCreated]
  split
  · apply saneNext_write (sane.filed (.inl kind)) single
    · intro _
      exact .inr ⟨done, run, child, rfl, by rw [sane.cmd, kind]; rfl⟩
    · intro named
      exact absurd (by decide) named
  · trivial

theorem saneNext_checked
    (sane : Sane host done run call) (kind : call.fetch.kind = .check)
    (child : Child) (finds : NotesFinds) :
    SaneNext host (done ++ [(run, child)]) (notesToolChecked host call child finds) := by
  have single := sane.single_concat (by rw [kind]; decide) child
  have cmd : run.cmd = .check := by
    rw [sane.cmd, kind]
    rfl
  obtain ⟨name, input⟩ := sane.check kind
  rw [notesToolChecked]
  cases ok : childOk child with
  | false =>
    -- no tip is read, and the call fails
    have failed : notesToolAccepts call.action.fetch .io = false := by
      rw [notesToolAccepts]
      split <;> simp
    simp only [Bool.false_eq_true, if_false, failed, Bool.and_false, Bool.false_and, Bool.not_false, if_true]
    trivial
  | true =>
    simp only [if_true]
    have checked : Checked call.repo (done ++ [(run, child)]) (notesChecked child.out).2.1 :=
      ⟨done, run, child, name, rfl, cmd, input, ok, rfl⟩
    generalize (if (notesChecked child.out).1 = .exists_ then
      (notesChecked child.out).2.2.map Prod.fst else none) = before
    split
    · trivial
    split
    · trivial
    split
    · trivial
    · apply saneNext_write (sane.filed (.inr (.inl kind))) single
      · intro none
        exact .inl ⟨_, none, checked⟩
      · intro _
        exact .inl checked

theorem saneNext_formatted
    (sane : Sane host done run call) (kind : call.fetch.kind = .format)
    (child : Child) : SaneNext host (done ++ [(run, child)]) (notesToolFormat host call child) := by
  have single := sane.single_concat (by rw [kind]; decide) child
  have cmd : run.cmd = .format := by
    rw [sane.cmd, kind]
    rfl
  simp only [notesToolFormat]
  split
  · trivial
  · rename_i ok
    rw [Bool.or_eq_true, decide_eq_true_eq, not_or, Bool.not_eq_true', Bool.not_eq_false] at ok
    apply saneNext_write (sane.filed (.inr (.inr kind))) single
    · intro none
      exact absurd none ok.2
    · intro _
      exact .inr ⟨done, run, child, rfl, cmd, ok.1, rfl, sane.format kind⟩

theorem plainName_of_notesName {name s : Bytes} (ok : notesName name = some s) : PlainName s :=
  (notesName_iff.mp ok).2

theorem hasFile_of_notesAddFile {name text file : Bytes} {part : NotesPart}
    (plain : PlainName name) (ok : notesAddFile [] name text = .ok (file, part)) :
    HasFile { call with file, part } := by
  rw [notesAddFile_ok plain.short] at ok
  obtain ⟨rfl, rfl⟩ := Prod.mk.inj (Except.ok.inj ok)
  exact ⟨name, text, plain, rfl⟩

theorem saneNext_gotNote
    (sane : Sane host done run call) (kind : call.fetch.kind = .read)
    (child : Child) (finds : NotesFinds) :
    SaneNext host (done ++ [(run, child)]) (notesToolGotNote host call child finds) := by
  have single := sane.single_concat (by rw [kind]; decide) child
  rw [notesToolGotNote]
  split
  · trivial
  rename_i text id read
  split
  · rename_i writes
    rw [notesToolGotCopy]
    split
    · trivial
    have plain : PlainName (if call.fetch.restore then call.revision.file else call.name) := by
      split
      · rename_i restore
        exact sane.restore restore
      · rename_i other
        rw [Bool.or_eq_true, or_iff_left other] at writes
        exact sane.copy writes
    simp only
    split
    · trivial
    · rename_i file part ok
      have has : HasFile { call with file, part } := hasFile_of_notesAddFile plain ok
      have filed : Filed host { call with file, part } := ⟨sane.repo, has⟩
      exact saneNext_check filed single _ _
  · trivial

/-- A stage keeps the file's name. -/
theorem notesRevisionNext_file {revision revision' : NotesRevision} {out : Bytes}
    (ok : notesRevisionNext revision out = .ok revision') : revision'.file = revision.file := by
  cases phase : revision.phase with
  | head => exact (notesRevisionNext_head phase ok).1.file
  | from_ =>
    rcases ((notesRevisionNext_check (.inl phase)).mp ok).2 with ⟨-, rfl⟩ | ⟨-, rfl⟩
    · rfl
    · rfl
  | to_ =>
    rcases ((notesRevisionNext_check (.inr phase)).mp ok).2 with ⟨-, rfl⟩ | ⟨-, rfl⟩
    · rfl
    · rfl
  | data =>
    rw [notesRevisionNext, phase] at ok
    cases ok

theorem saneNext_revisionStep
    (sane : Sane host done run call)
    (kind : call.fetch.kind = .read ∨ call.fetch.kind = .diff) (child : Child) :
    SaneNext host (done ++ [(run, child)]) (notesToolRevisionStep host call child) := by
  have other : call.fetch.kind ≠ .add := by
    rcases kind with kind | kind <;> rw [kind] <;> decide
  rw [notesToolRevisionStep]
  split
  · trivial
  split
  · trivial
  · rename_i revision ok
    have restore : call.fetch.restore = true → PlainName revision.file := by
      intro restore
      rw [notesRevisionNext_file ok]
      exact sane.restore restore
    exact saneNext_read sane.repo (kind.imp_right .inl) sane.copy restore (fun _ => kind)
      (sane.single_concat other child)

/-- One step of a call. -/
theorem saneNext_step
    (sane : Sane host done run call) (child : Child) (finds : NotesFinds) :
    SaneNext host (done ++ [(run, child)]) (notesToolStep host call child finds) := by
  rw [notesToolStep]
  split
  · rename_i waits
    rw [Bool.and_eq_true] at waits
    exact saneNext_revisionStep sane (sane.revision waits.1) child
  · cases kind : call.fetch.kind with
    | create => exact saneNext_created sane kind child finds
    | check => exact saneNext_checked sane kind child finds
    | format => exact saneNext_formatted sane kind child
    | read => exact saneNext_gotNote sane kind child finds
    | add | list | books | files | diff => trivial

/-! ## The start -/

theorem saneNext_add
    (repo : call.repo = notesRepo host.notes host.principal host.side) (name : Bytes)
    (args : NotesArgs) (finds : NotesFinds) : SaneNext host [] (notesToolAdd host call name args finds) := by
  rw [notesToolAdd]
  cases named : notesName name with
  | none => trivial
  | some name =>
    cases notesToolAddText host args with
    | none => trivial
    | some text =>
      simp only
      split
      · trivial
      split
      · trivial
      · rename_i file part ok
        have has : HasFile { call with file, part } :=
          hasFile_of_notesAddFile (plainName_of_notesName named) ok
        have filed : Filed host { call with file, part } := ⟨repo, has⟩
        exact saneNext_check filed (by simp) _ _

theorem saneNext_readNote
    (repo : call.repo = notesRepo host.notes host.principal host.side) (name : Bytes)
    (args : NotesArgs) {fetch : NotesFetch} (kind : fetch.kind = .read)
    (restore : fetch.restore = false) (revision : fetch.revision = false) :
    SaneNext host [] (notesToolRead host call name args fetch) := by
  have stored {name s : Bytes} (ok : notesName name = some s) : PlainName (utilTextStore (notesNameMax + 1) s) := by
    rw [utilTextStore_of_length (notesName_length ok)]
    exact plainName_of_notesName ok
  have read {call : NotesToolCall} {input : Bytes} (repo : call.repo = notesRepo host.notes host.principal host.side)
      (copy : fetch.copy = true → PlainName call.name) :
      SaneNext host [] (notesToolRun host call fetch input) :=
    saneNext_read repo (.inl kind) copy (by simp [restore]) (by simp [revision]) (by simp)
  rw [notesToolRead]
  cases named : notesName name with
  | none => trivial
  | some s =>
    simp only
    split
    · rename_i plain
      exact read repo (fun copy => by simp [copy] at plain)
    split
    · exact read repo fun _ => stored named
    · split
      · trivial
      · rename_i as_ ok
        exact read repo fun _ => stored ok

theorem saneNext_revision
    (repo : call.repo = notesRepo host.notes host.principal host.side) (file : Bytes)
    (first second : NotesArg) {fetch : NotesFetch} (kind : fetch.kind = .read ∨ fetch.kind = .diff ∨ fetch.kind = .list)
    (copy : fetch.copy = false) (revision : fetch.revision = false) :
    SaneNext host [] (notesToolRevision host call file first second fetch) := by
  rw [notesToolRevision]
  split
  · trivial
  split
  · split
    · trivial
    · rename_i start ok
      have plain := plainName_of_notesName (notesRevisionInit_ok ok).1
      have repo' : ({ call with revision := start } : NotesToolCall).repo =
          notesRepo host.notes host.principal host.side := repo
      apply saneNext_read repo'
      · tauto
      · simp [copy]
      · exact fun _ => plain
      · simp only [revision, Bool.false_or, decide_eq_true_eq]
        tauto
      · simp
  · trivial

/-- The actions that take a revision, or a file of the history. -/
theorem NotesAction.revised {action : NotesAction} {revision file : Bool}
    (takes : ¬(revision && !action.revision) = true)
    (goes : (revision || decide (action.fetch.kind = .diff) || action.fetch.restore ||
      (decide (action.fetch.kind = .list) && file)) = true) :
    (action.fetch.kind = .read ∨ action.fetch.kind = .diff ∨ action.fetch.kind = .list) ∧
      action.fetch.copy = false ∧ action.fetch.revision = false := by
  cases action <;> cases revision <;> cases file <;> revert takes goes <;> decide

/-- The other actions that take a file. -/
theorem NotesAction.reads {action : NotesAction} (takes : action.file = true)
    (other : ¬action.write = true) (apart : action.fetch.kind ≠ .diff) :
    action.fetch.kind = .read ∧ action.fetch.restore = false ∧ action.fetch.revision = false := by
  cases action <;> revert takes other apart <;> decide

/-- The other actions. -/
theorem NotesAction.lists {action : NotesAction} (plain : ¬action.file = true) (other : ¬action.write = true) :
    (action.fetch.kind = .list ∨ action.fetch.kind = .books ∨ action.fetch.kind = .files) ∧
      action.fetch.copy = false ∧ action.fetch.restore = false ∧ action.fetch.revision = false := by
  cases action <;> revert plain other <;> decide

theorem saneNext_start (host : NotesHost) (args : NotesArgs) (finds : NotesFinds) :
    SaneNext host [] (notesToolStart host args finds) := by
  simp only [notesToolStart]
  split
  · trivial
  rename_i action found
  split
  · trivial
  split
  · trivial
  rename_i takes
  rw [Bool.or_eq_true, not_or] at takes
  split
  · trivial
  split
  · trivial
  rename_i notebook selected
  split
  · trivial
  split
  · trivial
  split
  · rename_i goes
    obtain ⟨kind, copy, revision⟩ := NotesAction.revised takes.1 goes
    have fetch : ∀ other : Bool, ({ action.fetch with other } : NotesFetch).kind = .read ∨
        ({ action.fetch with other } : NotesFetch).kind = .diff ∨
          ({ action.fetch with other } : NotesFetch).kind = .list := fun _ => kind
    exact saneNext_revision rfl _ _ _ (fetch _) copy revision
  rename_i other
  simp only [Bool.or_eq_true, not_or, decide_eq_true_eq] at other
  split
  · exact saneNext_add rfl _ _ _
  rename_i no_write
  split
  · trivial
  split
  · rename_i file
    obtain ⟨kind, restore, revision⟩ := NotesAction.reads file no_write other.1.1.2
    have fetch : ∀ other : Bool, ({ action.fetch with other } : NotesFetch).kind = .read :=
      fun _ => kind
    exact saneNext_readNote rfl _ _ (fetch _) restore revision
  · rename_i no_file
    obtain ⟨kind, copy, restore, revision⟩ := NotesAction.lists no_file no_write
    apply saneNext_read rfl
    · exact .inr (.inr kind)
    · simp [copy]
    · simp [restore]
    · simp [revision]
    · simp

/-- Every run of a call is sane. -/
theorem CallRuns.sane {args : NotesArgs}
    {next : NotesNext} (runs : CallRuns host args done next) : SaneNext host done next := by
  induction runs with
  | start finds => exact saneNext_start host args finds
  | step runs child finds ih => exact saneNext_step ih child finds
  | unspawned runs ih => trivial

/-! ## Whose notebook is written -/

/-- The parents of a commit that a stream adds to the tip: a name of zeros is none. -/
def parentsOf (tip : Oid) : List Oid :=
  if tip.hex.all fun c => c = 48 then [] else [tip]

/-- What the call read before its write: the tip that the stream names, or that there was none. -/
def TipRead (repo : Bytes) (done : List (NotesRun × Child)) (tip : Oid) : Prop :=
  Checked repo done tip ∨ Formatted repo done tip ∧ parentsOf tip = []

theorem oidZero_root (name : Bytes) : parentsOf (oidZero name) = [] := by
  have zeros : (oidZero name).hex.all (fun c => c = 48) = true := by
    rw [oidZero, List.all_eq_true]
    intro c member
    rw [List.eq_of_mem_replicate member]
    rfl
  rw [parentsOf, if_pos zeros]

/-- A call writes the caller's own notebook only, once at most, and never over a commit that it has
not read. -/
theorem call_writes_own {args : NotesArgs}
    (runs : CallRuns host args done (.run run call)) :
    (∀ r ∈ done, r.1.cmd ≠ .add) ∧ (run.cmd = .add → ∃ tip message name text, FastImport.read run.input =
          some [.commit (noteCommit (notesRepo host.notes host.principal host.side) tip message name
            text), .getMark 1] ∧ TipRead (notesRepo host.notes host.principal host.side) done tip ∧
        ∀ parents : Oid → List Oid, (WellFounded fun p c => p ∈ parents c) →
          ∀ (read now : Option Oid) (commit : Oid), parents commit = parentsOf tip →
            (∀ parent ∈ parentsOf tip, read = some parent) → Moved parents read now → Contains parents now commit →
                now = some commit ∨ now.toList = parentsOf tip) := by
  have sane : Sane host done run call := runs.sane
  refine ⟨sane.single, ?_⟩
  intro add
  have kind : call.fetch.kind = .add := by
    rw [sane.cmd] at add
    revert add
    cases call.fetch.kind <;> decide
  obtain ⟨tip, message, name, text, named, input, plain, parent⟩ := sane.add kind
  rw [sane.repo] at input parent
  have line : lf ∉ notesRepo host.notes host.principal host.side := by
    rw [notesRepo_eq]
    exact Notebook.not_mem_branch _ (by decide) (by decide)
  have single : lf ∉ name := fun member => absurd (plain.clear lf member).1 (by decide)
  refine ⟨tip, message, name, text, ?_, ?_, ?_⟩
  · rw [input]
    exact read_noteStream line single tip message text
  · apply parent.imp_right
    rintro ⟨before, format, child, whole, cmd, ok, rfl, unborn⟩
    exact ⟨⟨before, format, child, whole, cmd, ok, rfl, unborn⟩, oidZero_root _⟩
  · intro parents acyclic read now commit child at_read moved contains
    rw [parentsOf] at child at_read ⊢
    split at child
    · rename_i zeros
      rw [if_pos zeros]
      rcases contains.unborn child with rfl | same
      · exact .inr rfl
      · exact .inl same
    · rename_i named_
      rw [if_neg named_] at at_read ⊢
      obtain rfl := at_read tip (List.mem_singleton.mpr rfl)
      rcases moved.tip_of_child acyclic child contains with rfl | same
      · exact .inr rfl
      · exact .inl same

/-- The notebooks are told apart by their branches, no name leads out of them, and whatever a call is
asked and git writes, the call commits to the caller's own notebook only, over the tip that it read. -/
theorem notes_call_confined : (∀ (notes notes' : Notes) (principal principal' : UInt64) (side side' : NotesSide),
      notesRepo notes principal side = notesRepo notes' principal' side' →
        notes.participant = notes'.participant ∧ principal = principal' ∧ side = side') ∧
      (∀ (notes : Notes) (principal : UInt64) (side : NotesSide),
        ∃ name, notesRepo notes principal side = notesBranch ++ name ∧
          notesSelect name = some (notesRepo notes principal side)) ∧
      (∀ name repo, notesSelect name = some repo → repo = notesBranch ++ name ∧
        ∃ participant who side, name = participant ++ slash :: (who ++ slash :: notesSides side) ∧
          utilWord participant utilWordMax = true ∧
            (who = notesAnonymous ∨ who.length = notesWho ∧ utilIsHex who = true)) ∧
      ∀ (host : NotesHost) (args : NotesArgs) (done : List (NotesRun × Child)) (run : NotesRun)
        (call : NotesToolCall), CallRuns host args done (.run run call) → (∀ r ∈ done, r.1.cmd ≠ .add) ∧
            (run.cmd = .add → ∃ tip message name text, FastImport.read run.input =
                some [.commit (noteCommit (notesRepo host.notes host.principal host.side) tip message
                  name text), .getMark 1] ∧ TipRead (notesRepo host.notes host.principal host.side) done tip ∧
              ∀ parents : Oid → List Oid, (WellFounded fun p c => p ∈ parents c) →
                ∀ (read now : Option Oid) (commit : Oid), parents commit = parentsOf tip →
                  (∀ parent ∈ parentsOf tip, read = some parent) → Moved parents read now →
                    Contains parents now commit → now = some commit ∨ now.toList = parentsOf tip) := by
  refine ⟨?_, notesSelect_notesRepo, ?_, fun host args done run call => call_writes_own⟩
  · intro notes notes' principal principal' side side' same
    rw [notesRepo_eq, notesRepo_eq] at same
    exact notebookOf_inj (Notebook.branch_inj same)
  · intro name repo ok
    obtain ⟨book, rfl, rfl⟩ := notesSelect_eq_some.mp ok
    exact ⟨rfl, book.participant, book.who, book.side, rfl, book.word, book.known⟩

/-! ## A call that checks nothing -/

def someHost : NotesHost where
  notes := someNotes
  principal := 0
  side := .client
  attach := false
  filesInline := 0
  noticeKept := List.length
  datauri := fun _ => none

def someArgs : NotesArgs :=
  { action := some (some (ascii "add")), file := some (some (ascii "n")),
    text := some (some (ascii "hi")) }

/-- A git that wrote the text and nothing else. -/
def wrote (out : Bytes) : Child :=
  { out, cut := false, late := false, exited := true, status := 0 }

theorem someArgs_start : notesToolStart someHost someArgs ⟨false, none⟩ =
      notesToolAdd someHost { repo := notesRepo someNotes 0 .client } (ascii "n") someArgs ⟨false, none⟩ := by
  rfl

/-- Where the repository is made for the call, git checks nothing: the branch is yet unborn. -/
theorem someArgs_runs : ∃ done run call, CallRuns someHost someArgs done (.run run call) ∧
    run.cmd = .add ∧ ∀ r ∈ done, r.1.cmd ≠ .check := by
  have first := @CallRuns.start someHost someArgs ⟨false, none⟩
  rw [someArgs_start, notesToolAdd, notesName_letter] at first
  have second := first.step (wrote []) ⟨true, none⟩
  have third := second.step (wrote (ascii "sha1\n")) ⟨true, none⟩
  exact ⟨_, _, _, third, rfl, by decide⟩

/-- Not every commit has the tip that a check read for its parent. -/
theorem not_notes_call_confined :
    ¬∀ (host : NotesHost) (args : NotesArgs) (done : List (NotesRun × Child)) (run : NotesRun)
      (call : NotesToolCall), CallRuns host args done (.run run call) → run.cmd = .add →
        ∃ before check child name tip message file, done = before ++ [(check, child)] ∧ check.cmd = .check ∧
          check.input = notesCheckInput [] (notesRepo host.notes host.principal host.side) name ∧
          (notesChecked child.out).2.1 = tip ∧
          run.input = noteStream (notesRepo host.notes host.principal host.side) tip message file := by
  intro checked
  obtain ⟨done, run, call, runs, add, unchecked⟩ := someArgs_runs
  obtain ⟨before, check, child, -, -, -, -, rfl, cmd, -⟩ := checked _ _ _ _ _ runs add
  exact unchecked (check, child) (by simp) cmd

theorem notes_call_confined_first : ∃ done run call, run.cmd = .add ∧
    CallRuns someHost someArgs done (.run run call) ∧ (∀ r ∈ done, r.1.cmd ≠ .add) ∧
      ∃ tip message name text, FastImport.read run.input =
        some [.commit (noteCommit (notesRepo someNotes 0 .client) tip message name text), .getMark 1] := by
  obtain ⟨done, run, call, runs, add, -⟩ := someArgs_runs
  obtain ⟨single, writes⟩ := notes_call_confined.2.2.2 _ _ _ _ _ runs
  obtain ⟨tip, message, name, text, read, -⟩ := writes add
  exact ⟨done, run, call, add, runs, single, tip, message, name, text, read⟩

end Askai
