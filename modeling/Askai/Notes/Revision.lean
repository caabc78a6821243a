import Askai.Notes.Model

/-!
# Revisions of a notebook

A historical read or diff goes through its stages, each a run of git: the first pins the notebook's
tip, the others check that the commits asked for are the tip's ancestors.
-/

namespace Askai

open Library

/-- Git's runs for a revision, each with its argv and its output, and what comes of them.  Nothing
runs after an error, and once the revision is ready, no output is for its stages. -/
inductive RevisionRuns (notes : Notes) (repo : Bytes) (cmd : NotesCmd) (start : NotesRevision) :
    List (List Bytes × Bytes) → Except NotesErrno NotesRevision → Prop
  | start : RevisionRuns notes repo cmd start [] (.ok start)
  | next {done : List (List Bytes × Bytes)} {revision : NotesRevision}
      (runs : RevisionRuns notes repo cmd start done (.ok revision))
      (waits : notesRevisionReady revision = false) (out : Bytes) :
      RevisionRuns notes repo cmd start
        (done ++ [(notesRevisionArgv revision notes repo cmd, out)]) (notesRevisionNext revision out)

/-! ## What a stage takes -/

/-- The run that prints the tip. -/
def headRun (notes : Notes) (repo : Bytes) (tip : Oid) : List Bytes × Bytes :=
  (notesArgv notes .head [repo], tip.hex ++ [lf])

/-- The run that finds a commit an ancestor of the tip. -/
def ancestorRun (notes : Notes) (oid tip : Oid) : List Bytes × Bytes :=
  (notesArgv notes .ancestor [oid.hex, tip.hex], [])

/-- The tip is pinned, and the commits are those asked for. -/
structure Pinned (start revision : NotesRevision) : Prop where
  named : oidLen revision.tip ≠ 0
  from_ : revision.from_ = start.from_.orTip revision.tip
  to_ : revision.to_ = start.to_.orTip revision.tip
  from_len : oidLen revision.from_ = oidLen revision.tip
  to_len : oidLen revision.to_ = oidLen revision.tip
  file : revision.file = start.file

variable {repo : Bytes} {notes : Notes} {done : List (List Bytes × Bytes)} {start revision : NotesRevision}

theorem Pinned.phase (pinned : Pinned start revision)
    (phase : NotesRevisionPhase) : Pinned start { revision with phase } :=
  ⟨pinned.named, pinned.from_, pinned.to_, pinned.from_len, pinned.to_len, pinned.file⟩

/-- What is known of a revision by the runs so far. -/
def Known (notes : Notes) (repo : Bytes) (start : NotesRevision)
    (done : List (List Bytes × Bytes)) (revision : NotesRevision) : Prop :=
  match revision.phase with
  | .head => done = [] ∧ revision = start
  | .from_ => Pinned start revision ∧ done = [headRun notes repo revision.tip] ∧
      revision.from_ ≠ revision.tip
  | .to_ => Pinned start revision ∧ revision.to_ ≠ revision.tip ∧ revision.to_ ≠ revision.from_ ∧
      ∃ checks, done = headRun notes repo revision.tip :: checks ∧
        (checks = [] ∧ revision.from_ = revision.tip ∨ checks = [ancestorRun notes revision.from_ revision.tip])
  | .data => Pinned start revision ∧
      ∃ checks later, done = headRun notes repo revision.tip :: (checks ++ later) ∧
        (checks = [] ∧ revision.from_ = revision.tip ∨ checks = [ancestorRun notes revision.from_ revision.tip]) ∧
        (later = [] ∧ (revision.to_ = revision.tip ∨ revision.to_ = revision.from_) ∨
          later = [ancestorRun notes revision.to_ revision.tip])

/-- What the first stage takes. -/
theorem notesRevisionNext_head {revision revision' : NotesRevision} {out : Bytes}
    (phase : revision.phase = .head) (ok : notesRevisionNext revision out = .ok revision') :
    Pinned revision revision' ∧ out = revision'.tip.hex ++ [lf] ∧
      (revision'.phase = .from_ ∧ revision'.from_ ≠ revision'.tip ∨ revision'.from_ = revision'.tip ∧
          (revision'.phase = .to_ ∧ revision'.to_ ≠ revision'.tip ∨
            revision'.phase = .data ∧ revision'.to_ = revision'.tip)) := by
  rw [notesRevisionNext, phase] at ok
  cases line : oidInitLine out with
  | none =>
    simp only [line] at ok
    cases ok
  | some tip =>
    obtain ⟨printed, named⟩ := oidInitLine_eq_some.mp line
    simp only [line] at ok
    split at ok
    · cases ok
    rename_i lengths
    simp only [Bool.or_eq_true, decide_eq_true_eq, not_or, ne_eq, not_not] at lengths
    split at ok
    · rename_i apart
      obtain rfl := Except.ok.inj ok
      refine ⟨⟨named, rfl, rfl, lengths.1, lengths.2, rfl⟩, printed, .inl ⟨rfl, ?_⟩⟩
      intro same
      rw [oidEqual_iff.mpr same] at apart
      cases apart
    · rename_i same
      obtain rfl := Except.ok.inj ok
      simp only [Bool.not_eq_true', Bool.not_eq_false, oidEqual_iff] at same
      refine ⟨⟨named, rfl, rfl, lengths.1, lengths.2, rfl⟩, printed, .inr ⟨same, ?_⟩⟩
      simp only [notesRevisionChecked, same, Bool.or_self, oidEqual_iff]
      split
      · rename_i equal
        exact .inr ⟨rfl, equal⟩
      · rename_i apart
        exact .inl ⟨rfl, apart⟩

/-- The first stage takes the line of one name, of the length of those asked for. -/
theorem notesRevisionNext_head_iff {revision : NotesRevision} {out : Bytes} (phase : revision.phase = .head) :
    (∃ revision', notesRevisionNext revision out = .ok revision') ↔
      ∃ tip : Oid, out = tip.hex ++ [lf] ∧ oidLen tip ≠ 0 ∧ oidLen (revision.from_.orTip tip) = oidLen tip ∧
          oidLen (revision.to_.orTip tip) = oidLen tip := by
  constructor
  · rintro ⟨revision', ok⟩
    obtain ⟨pinned, printed, -⟩ := notesRevisionNext_head phase ok
    refine ⟨revision'.tip, printed, pinned.named, ?_, ?_⟩
    · rw [← pinned.from_]
      exact pinned.from_len
    · rw [← pinned.to_]
      exact pinned.to_len
  · rintro ⟨tip, printed, named, from_, to_⟩
    rw [notesRevisionNext, phase, oidInitLine_eq_some.mpr ⟨printed, named⟩]
    simp only [from_, to_, ne_eq, not_true_eq_false, decide_false, Bool.or_self, Bool.false_eq_true, if_false]
    split
    · exact ⟨_, rfl⟩
    · exact ⟨_, rfl⟩

/-- The stages that check a commit take no output. -/
theorem notesRevisionNext_check {revision revision' : NotesRevision} {out : Bytes}
    (phase : revision.phase = .from_ ∨ revision.phase = .to_) :
    notesRevisionNext revision out = .ok revision' ↔ out = [] ∧
      (revision.phase = .from_ ∧ revision' = notesRevisionChecked revision ∨
        revision.phase = .to_ ∧ revision' = { revision with phase := .data }) := by
  rw [notesRevisionNext]
  rcases phase with phase | phase
  · simp only [phase]
    split
    · rename_i printed
      simp [printed]
    · rename_i silent
      rw [not_not] at silent
      simp [silent, eq_comm]
  · simp only [phase]
    split
    · rename_i printed
      simp [printed]
    · rename_i silent
      rw [not_not] at silent
      simp [silent, eq_comm]

/-- A revision that is ready takes no more output. -/
theorem notesRevisionNext_ready {revision : NotesRevision} (ready : notesRevisionReady revision = true) (out : Bytes) :
    notesRevisionNext revision out = .error .inval := by
  rw [notesRevisionReady, decide_eq_true_eq] at ready
  rw [notesRevisionNext, ready]

/-! ## What the runs show -/

/-- One stage more. -/
theorem Known.next {cmd : NotesCmd} {revision' : NotesRevision} {out : Bytes}
    (known : Known notes repo start done revision) (ok : notesRevisionNext revision out = .ok revision') :
    Known notes repo start (done ++ [(notesRevisionArgv revision notes repo cmd, out)]) revision' := by
  rw [Known] at known
  cases phase : revision.phase with
  | head =>
    simp only [phase] at known
    obtain ⟨rfl, rfl⟩ := known
    obtain ⟨pinned, rfl, next⟩ := notesRevisionNext_head phase ok
    have run : [] ++ [(notesRevisionArgv revision notes repo cmd, revision'.tip.hex ++ [lf])] =
        [headRun notes repo revision'.tip] := by
      rw [List.nil_append, notesRevisionArgv, phase]
      rfl
    rw [run, Known]
    rcases next with ⟨phase', apart⟩ | ⟨same, ⟨phase', apart⟩ | ⟨phase', equal⟩⟩
    · rw [phase']
      exact ⟨pinned, rfl, apart⟩
    · rw [phase']
      exact ⟨pinned, apart, same ▸ apart, [], rfl, .inl ⟨rfl, same⟩⟩
    · rw [phase']
      exact ⟨pinned, [], [], rfl, .inl ⟨rfl, same⟩, .inl ⟨rfl, .inl equal⟩⟩
  | from_ =>
    simp only [phase] at known
    obtain ⟨pinned, rfl, apart⟩ := known
    obtain ⟨rfl, next⟩ := (notesRevisionNext_check (.inl phase)).mp ok
    obtain rfl : revision' = notesRevisionChecked revision := by simpa [phase] using next
    have run : (notesRevisionArgv revision notes repo cmd, []) = ancestorRun notes revision.from_ revision.tip := by
      rw [notesRevisionArgv, phase]
      rfl
    rw [run, Known, notesRevisionChecked]
    cases equal : oidEqual revision.to_ revision.tip || oidEqual revision.to_ revision.from_ with
    | true =>
      simp only [Bool.or_eq_true, oidEqual_iff] at equal
      exact ⟨pinned.phase _, [ancestorRun notes revision.from_ revision.tip], [], rfl, .inr rfl, .inl ⟨rfl, equal⟩⟩
    | false =>
      rw [Bool.or_eq_false_iff, ← Bool.not_eq_true, ← Bool.not_eq_true, oidEqual_iff, oidEqual_iff] at equal
      exact ⟨pinned.phase _, equal.1, equal.2, [ancestorRun notes revision.from_ revision.tip], rfl, .inr rfl⟩
  | to_ =>
    simp only [phase] at known
    obtain ⟨pinned, -, -, checks, rfl, checked⟩ := known
    obtain ⟨rfl, next⟩ := (notesRevisionNext_check (.inr phase)).mp ok
    obtain rfl : revision' = { revision with phase := .data } := by simpa [phase] using next
    have run : (notesRevisionArgv revision notes repo cmd, []) = ancestorRun notes revision.to_ revision.tip := by
      rw [notesRevisionArgv, phase]
      rfl
    rw [run, Known]
    exact ⟨pinned.phase _, checks, [ancestorRun notes revision.to_ revision.tip], rfl, checked, .inr rfl⟩
  | data =>
    rw [notesRevisionNext, phase] at ok
    cases ok

theorem RevisionRuns.known {cmd : NotesCmd} {start : NotesRevision} {result : Except NotesErrno NotesRevision}
    (fresh : start.phase = .head) (runs : RevisionRuns notes repo cmd start done result) :
    ∀ revision, result = .ok revision → Known notes repo start done revision := by
  induction runs with
  | start =>
    intro revision same
    obtain rfl := Except.ok.inj same
    rw [Known, fresh]
    exact ⟨rfl, rfl⟩
  | next runs waits out ih =>
    intro revision' ok
    exact (ih _ rfl).next ok

/-- What is known of a revision that is ready: the commits are the notebook's. -/
structure Authorized (notes : Notes) (repo : Bytes) (start : NotesRevision)
    (done : List (List Bytes × Bytes)) (revision : NotesRevision) : Prop where
  pinned : Pinned start revision
  tip : ∃ checks, done = headRun notes repo revision.tip :: checks ∧ checks.length ≤ 2
  from_ : revision.from_ = revision.tip ∨ ancestorRun notes revision.from_ revision.tip ∈ done
  to_ : revision.to_ = revision.tip ∨ revision.to_ = revision.from_ ∨
    ancestorRun notes revision.to_ revision.tip ∈ done

theorem Known.authorized (known : Known notes repo start done revision)
    (ready : notesRevisionReady revision = true) : Authorized notes repo start done revision := by
  rw [notesRevisionReady, decide_eq_true_eq] at ready
  rw [Known, ready] at known
  obtain ⟨pinned, checks, later, rfl, first, second⟩ := known
  refine ⟨pinned, ⟨checks ++ later, rfl, ?_⟩, ?_, ?_⟩
  · rcases first with ⟨rfl, -⟩ | rfl <;> rcases second with ⟨rfl, -⟩ | rfl <;> simp
  · rcases first with ⟨-, same⟩ | rfl
    · exact .inl same
    · exact .inr (by simp)
  · rcases second with ⟨-, same⟩ | rfl
    · exact same.imp_right .inl
    · exact .inr (.inr (by simp))

/-- A run before the note is read is one of the stages'. -/
def StageRun (notes : Notes) (repo : Bytes) (run : List Bytes × Bytes) : Prop :=
  run.1 = notesArgv notes .head [repo] ∨
    ∃ oid tip : Oid, run.1 = notesArgv notes .ancestor [oid.hex, tip.hex]

theorem Known.stages (known : Known notes repo start done revision)
    (waits : notesRevisionReady revision = false) : done.length ≤ 2 ∧ ∀ run ∈ done, StageRun notes repo run := by
  have head : StageRun notes repo (headRun notes repo revision.tip) := .inl rfl
  have ancestor (oid : Oid) : StageRun notes repo (ancestorRun notes oid revision.tip) :=
    .inr ⟨oid, revision.tip, rfl⟩
  rw [Known] at known
  cases phase : revision.phase with
  | head =>
    simp only [phase] at known
    simp [known.1]
  | from_ =>
    simp only [phase] at known
    simp [known.2.1, head]
  | to_ =>
    simp only [phase] at known
    obtain ⟨-, -, -, checks, rfl, ⟨rfl, -⟩ | rfl⟩ := known
    · simp [head]
    · simp [head, ancestor]
  | data => simp [notesRevisionReady, phase] at waits

theorem notesRevisionArgv_stage {cmd : NotesCmd}
    {revision : NotesRevision} (waits : notesRevisionReady revision = false) (out : Bytes) :
    StageRun notes repo (notesRevisionArgv revision notes repo cmd, out) := by
  cases phase : revision.phase with
  | head => exact .inl (by rw [notesRevisionArgv, phase])
  | from_ => exact .inr ⟨revision.from_, revision.tip, by rw [notesRevisionArgv, phase]⟩
  | to_ => exact .inr ⟨revision.to_, revision.tip, by rw [notesRevisionArgv, phase]⟩
  | data => simp [notesRevisionReady, phase] at waits

/-- Before the note is read, git runs for the stages only, three times at most, also where they end
in an error. -/
theorem RevisionRuns.stages {cmd : NotesCmd} {start : NotesRevision} {result : Except NotesErrno NotesRevision}
    (fresh : start.phase = .head) (runs : RevisionRuns notes repo cmd start done result) :
    done.length ≤ 3 ∧ ∀ run ∈ done, StageRun notes repo run := by
  cases runs with
  | start => simp
  | next runs waits out =>
    obtain ⟨few, stages⟩ := (runs.known fresh _ rfl).stages waits
    refine ⟨by rw [List.length_append, List.length_singleton]; omega, ?_⟩
    intro run member
    rcases List.mem_append.mp member with before | last
    · exact stages run before
    · rw [List.mem_singleton.mp last]
      exact notesRevisionArgv_stage waits out

/-- The argv of a diff ends with the two commits and the file, and that of a read with none of
them. -/
theorem notesRevisionArgv_ready {revision : NotesRevision}
    (ready : notesRevisionReady revision = true) (notes : Notes) (repo : Bytes) :
    notesRevisionArgv revision notes repo .diff = notesArgvStart notes .diff ++
          ["diff", "--no-ext-diff", "--no-textconv", "--no-renames", "--no-color",
            "--submodule=short"].map ascii ++
          [revision.from_.hex, revision.to_.hex, ascii "--", revision.file] ∧
      notesRevisionArgv revision notes repo .read =
        notesArgvStart notes .read ++ ["cat-file", "--batch"].map ascii := by
  rw [notesRevisionReady, decide_eq_true_eq] at ready
  simp [notesRevisionArgv, ready, notesArgv, notesCmds, fillWords]

/-! ## From the file's name on -/

theorem notesName_length {name s : Bytes} (ok : notesName name = some s) : s.length ≤ notesNameMax := by
  simp only [notesName] at ok
  split at ok
  · cases ok
  rename_i length
  rw [Bool.or_eq_true, decide_eq_true_eq, decide_eq_true_eq, not_or, not_lt] at length
  split at ok
  · cases ok
  split at ok
  · obtain rfl := Option.some.inj ok
    exact length.2
  · cases ok

/-- A revision begins with the whole name of the file. -/
theorem notesRevisionInit_ok {file : Bytes} {from_ to_ : Oid} {start : NotesRevision}
    (ok : notesRevisionInit file from_ to_ = .ok start) : notesName file = some start.file ∧
      start = { file := start.file, from_, to_, tip := .none, phase := .head } := by
  rw [notesRevisionInit] at ok
  cases name : notesName file with
  | none =>
    rw [name] at ok
    cases ok
  | some s =>
    simp only [name] at ok
    have stored : utilTextStore (notesNameMax + 1) s = s :=
      utilTextStore_of_length (notesName_length name)
    rw [stored] at ok
    obtain rfl := Except.ok.inj ok
    exact ⟨rfl, rfl⟩

/-- What is read at a revision, or compared, belongs to the history of the tip that the first run
printed, and nothing is read after any other output of git. -/
theorem revision_authorized {file : Bytes} {from_ to_ : Oid} {start : NotesRevision}
    (init : notesRevisionInit file from_ to_ = .ok start) (notes : Notes) (repo : Bytes)
    (cmd : NotesCmd) {done : List (List Bytes × Bytes)} {result : Except NotesErrno NotesRevision}
    (runs : RevisionRuns notes repo cmd start done result) :
    start.from_ = from_ ∧ start.to_ = to_ ∧ notesName file = some start.file ∧
      done.length ≤ 3 ∧ (∀ run ∈ done, StageRun notes repo run) ∧ ∀ revision, result = .ok revision →
        (notesRevisionReady revision = true → Authorized notes repo start done revision ∧
          notesRevisionArgv revision notes repo .diff = notesArgvStart notes .diff ++
              ["diff", "--no-ext-diff", "--no-textconv", "--no-renames", "--no-color",
                "--submodule=short"].map ascii ++
              [revision.from_.hex, revision.to_.hex, ascii "--", revision.file] ∧
          notesRevisionArgv revision notes repo .read =
            notesArgvStart notes .read ++ ["cat-file", "--batch"].map ascii ∧
          ∀ out, notesRevisionNext revision out = .error .inval) ∧ ∀ out, (revision.phase = .head →
            ((∃ revision', notesRevisionNext revision out = .ok revision') ↔
              ∃ tip : Oid, out = tip.hex ++ [lf] ∧ oidLen tip ≠ 0 ∧
                oidLen (from_.orTip tip) = oidLen tip ∧ oidLen (to_.orTip tip) = oidLen tip)) ∧
          (revision.phase = .from_ ∨ revision.phase = .to_ →
            ((∃ revision', notesRevisionNext revision out = .ok revision') ↔ out = [])) := by
  obtain ⟨name, begun⟩ := notesRevisionInit_ok init
  have fresh : start.phase = .head := by rw [begun]
  have from_eq : start.from_ = from_ := by rw [begun]
  have to_eq : start.to_ = to_ := by rw [begun]
  obtain ⟨few, stages⟩ := runs.stages fresh
  refine ⟨from_eq, to_eq, name, few, stages, ?_⟩
  rintro revision rfl
  have known := runs.known fresh revision rfl
  refine ⟨?_, fun out => ⟨?_, ?_⟩⟩
  · intro ready
    obtain ⟨diff, read⟩ := notesRevisionArgv_ready ready notes repo
    exact ⟨known.authorized ready, diff, read, notesRevisionNext_ready ready⟩
  · intro phase
    obtain ⟨-, rfl⟩ : done = [] ∧ revision = start := by simpa [Known, phase] using known
    rw [notesRevisionNext_head_iff phase, from_eq, to_eq]
  · intro phase
    constructor
    · rintro ⟨revision', ok⟩
      exact ((notesRevisionNext_check phase).mp ok).1
    · rintro rfl
      rcases phase with phase | phase
      · exact ⟨_, (notesRevisionNext_check (.inl phase)).mpr ⟨rfl, .inl ⟨phase, rfl⟩⟩⟩
      · exact ⟨_, (notesRevisionNext_check (.inr phase)).mpr ⟨rfl, .inr ⟨phase, rfl⟩⟩⟩

/-! ## A read of the tip -/

def someNotes : Notes :=
  ⟨ascii "/notes", ascii "/notes", ascii "chat", by decide⟩

/-- A commit. -/
def someTip : Oid :=
  ⟨List.replicate 40 97, .inr (by decide)⟩

theorem notesName_letter : notesName (ascii "n") = some (ascii "n") := by
  have part : notesIsDotgit (ascii "n") = false := by
    rw [notesIsDotgit]
    rfl
  have parts : notesParts (ascii "n") = true := by
    rw [notesParts]
    simp [notesPartOk, part]
    decide
  have dropped : (ascii "n").dropWhile (· = slash) = ascii "n" := by decide
  simp only [notesName, dropped, parts]
  decide

def someRevision : NotesRevision :=
  { file := ascii "n", from_ := .none, to_ := .none, tip := .none, phase := .head }

theorem notesRevisionInit_someRevision : notesRevisionInit (ascii "n") .none .none = .ok someRevision := by
  rw [notesRevisionInit, notesName_letter]
  rfl

/-- The tip is printed, and the revision is ready. -/
theorem someRevision_runs (cmd : NotesCmd) :
    RevisionRuns someNotes (ascii "refs/heads/notes/chat/anonymous/client") cmd someRevision
      [headRun someNotes (ascii "refs/heads/notes/chat/anonymous/client") someTip]
      (.ok { file := ascii "n", from_ := someTip, to_ := someTip, tip := someTip, phase := .data }) := by
  have next : notesRevisionNext someRevision (someTip.hex ++ [lf]) =
      .ok { file := ascii "n", from_ := someTip, to_ := someTip, tip := someTip, phase := .data } := by
    decide
  rw [← next]
  exact .next .start rfl _

/-- A read's argv names no commit: `from` and the file go by the input of git. -/
theorem not_revision_authorized : ¬∀ (file : Bytes) (from_ to_ : Oid) (start : NotesRevision),
      notesRevisionInit file from_ to_ = .ok start →
        ∀ (notes : Notes) (repo : Bytes) (cmd : NotesCmd), cmd = .read ∨ cmd = .diff →
          ∀ (done : List (List Bytes × Bytes)) (revision : NotesRevision),
            RevisionRuns notes repo cmd start done (.ok revision) → notesRevisionReady revision = true →
                revision.from_.hex ∈ notesRevisionArgv revision notes repo cmd := by
  intro named
  have read := named _ _ _ _ notesRevisionInit_someRevision _ _ .read (.inl rfl) _ _ (someRevision_runs .read) rfl
  revert read
  decide

theorem revision_authorized_tip : Authorized someNotes (ascii "refs/heads/notes/chat/anonymous/client") someRevision
      [headRun someNotes (ascii "refs/heads/notes/chat/anonymous/client") someTip]
      { file := ascii "n", from_ := someTip, to_ := someTip, tip := someTip, phase := .data } :=
  (((revision_authorized notesRevisionInit_someRevision someNotes _ .diff
    (someRevision_runs .diff)).2.2.2.2.2 _ rfl).1 rfl).1

end Askai
