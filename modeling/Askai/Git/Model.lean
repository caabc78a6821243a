import Askai.Git.Options
import Askai.Util.Json
import Askai.Util.Oid

/-!
# A call of the git tool

The model of `git.c`: how the arguments of a call are checked and become the argv of git, and what git
is run with in each phase of the call.
-/

namespace Askai

open Library

/-! ## Arguments -/

/-- `enum git_arg`. -/
inductive GitArg where
  | repo | command | help | offset | options | revisions | paths | pattern | line | count
  deriving DecidableEq, Repr

/-- `git_arg_names`. -/
def gitArgNames : List (Bytes × GitArg) :=
  [(ascii "repo", .repo), (ascii "command", .command), (ascii "help", .help), (ascii "offset", .offset),
    (ascii "options", .options), (ascii "revisions", .revisions), (ascii "paths", .paths),
    (ascii "pattern", .pattern), (ascii "line", .line), (ascii "count", .count)]

/-- The index of a key in `git_arg_names`. -/
def gitArg (key : Bytes) : Option GitArg :=
  (gitArgNames.find? fun name => name.1 = key).map Prod.snd

/-- A word that a call may give: what `git_word` lets through. -/
structure GitWord where
  text : Bytes
  some_ : text ≠ []
  fits : text.length ≤ 1024
  clean : nul ∉ text
  deriving DecidableEq

/-- `git_word`. -/
def gitWord (val : Json) : Option GitWord :=
  match jbView (some val) with
  | none => none
  | some s =>
    if word : s ≠ [] ∧ s.length ≤ 1024 ∧ nul ∉ s then some ⟨s, word.1, word.2.1, word.2.2⟩ else none

/-- What is wrong with a call. -/
inductive GitWrong where
  | object
  | unknown (key : Bytes)
  | repo
  | unavailable (command : Bytes)
  | command
  | help
  | helpAlone
  | list (arg : GitArg)
  | tooMany (arg : GitArg) (entries : Nat)
  | word (arg : GitArg) (index : Nat)
  | single (command : Bytes)
  | noPaths (command : Bytes)
  | patternNeeded
  | noPattern
  | noLines
  | number (arg : GitArg)
  | optionValue (index : Nat) (opt spelling : Bytes)
  | optionDigits (index : Nat) (opt spelling : Bytes)
  | optionSource (index : Nat) (opt : Bytes) (pair : Bool)
  | option (index : Nat) (opt command : Bytes)
  | ignoreRev
  | revisionPath (index : Nat)
  | revisionRange (index : Nat)
  | revision (index : Nat)
  | readFile
  | twoCommits
  | path (index : Nat)

/-- `struct git_repo`. -/
structure GitRepo where
  name : Bytes
  path : Bytes
  /-- The setting of `safe.directory`. -/
  safe : Bytes
  deriving DecidableEq, Repr

/-- `struct git_revision`. -/
structure GitRevision where
  path : Bytes
  root : Nat
  dots : Nat := 0
  deriving DecidableEq, Repr

/-- A word of the argv of a call: `git_derived` stands for one of its text. -/
inductive GitArgWord where
  | text (word : Bytes)
  | derived
  deriving DecidableEq, Repr

/-- `enum git_phase`. -/
inductive GitPhase where
  | meta_ | refs | resolve | check | run | number | help
  deriving DecidableEq, Repr

/-- `struct git_call`, of which a command is built. -/
structure GitCall where
  repo : GitRepo
  command : GitCommand
  argv : List GitArgWord := []
  text : Bytes := []
  nRoots : Nat := 0
  revisions : List GitRevision := []
  line : Nat := 1
  count : Nat := 2 ^ 64 - 1
  phase : GitPhase := .meta_
  roots : List Oid := []

/-! ## Commits -/

abbrev caret : UInt8 := 94
abbrev tilde : UInt8 := 126

/-- `git_commit_suffix`. -/
def gitCommitSuffix : Bytes := ascii "^{commit}"

/-- `git_ignore_rev`. -/
def gitIgnoreRev : Bytes := ascii "--ignore-rev="

/-- The loop of `git_commit`, over what follows the name of a reference. -/
def gitPeels (rest : Bytes) : Bool :=
  match rest with
  | [] => true
  | c :: tail =>
    if gitCommitSuffix <+: c :: tail then gitPeels ((c :: tail).drop 9)
    else if c ≠ caret ∧ c ≠ tilde then false
    else gitPeels (tail.dropWhile digit)
termination_by rest.length
decreasing_by
  · simp
  · exact Nat.lt_succ_of_le (List.dropWhile_suffix _).length_le

/-- `git_commit`: none for `EINVAL`. -/
def gitCommit (text word : Bytes) : Option Bytes :=
  let ref := word.takeWhile fun c => c ∉ ascii "^~:@\x7b\x7d"
  if ref = [] ∨ word.head? = some 45 ∨ word.head? = some slash ∨ ascii ".." <:+: word ∨
      ref = ascii "stash" ∨ ref = ascii "refs/stash" then none
  else if gitPeels (word.drop ref.length) then some (text ++ word ++ gitCommitSuffix ++ [nul])
  else none

/-! ## The argv of a command -/

/-- `git_option_check`. -/
def gitOptionCheck (command : GitCommand) (index : Nat) (opt : Bytes) : Except GitWrong Unit :=
  match gitOptionFind .none command.options opt with
  | .accepted => .ok ()
  | .missing spelling => .error (.optionValue index opt spelling)
  | .nondecimal spelling => .error (.optionDigits index opt spelling)
  | .none =>
    if gitOptionFind .none sourceOptions opt = .accepted then
      .error (.optionSource index opt command.takes.pair)
    else .error (.option index opt command.name)

/-- The loop of `git_call_command` over the options. -/
def gitCallOptions (index : Nat) : List GitWord → GitCall → Except GitWrong GitCall
  | [], call => .ok call
  | opt :: options, call => do
      gitOptionCheck call.command index opt.text
      if ¬gitIgnoreRev <+: opt.text then
        gitCallOptions (index + 1) options { call with argv := call.argv ++ [.text opt.text] }
      else
        match gitCommit call.text (opt.text.drop gitIgnoreRev.length) with
        | none => .error .ignoreRev
        | some text =>
          gitCallOptions (index + 1) options
            { call with nRoots := call.nRoots + 1, text, argv := call.argv ++ [.derived] }

/-- `strstr` of `".."`. -/
def dotsAt : Bytes → Option Nat
  | [] => none
  | c :: s => if ascii ".." <+: c :: s then some 0 else (dotsAt s).map (· + 1)

/-- The body of the loop of `git_call_command` over the revisions, of which `listed` were given: also
whether the revision is a range. -/
def gitCallRevision (listed index : Nat) (s : Bytes) (call : GitCall) : Except GitWrong (GitCall × Bool) :=
  let takes := call.command.takes
  let root := (s.takeWhile (· ≠ colon)).length
  let path := s.drop root
  if path ≠ [] ∧ (¬takes.object ∨ path.tail = [] ∨ ¬gitInside path.tail) then
    .error (.revisionPath index)
  else
    let range := (dotsAt s).filter (· < root)
    if range.isSome ∧ (¬takes.range ∨ (takes.pair ∧ listed ≠ 1)) then .error (.revisionRange index)
    else
      let left := range.getD root
      match gitCommit call.text (s.take left) with
      | none => .error (.revision index)
      | some text =>
        match range with
        | none =>
          .ok ({ call with text, nRoots := call.nRoots + 1, argv := call.argv ++ [.derived]
                           revisions := call.revisions ++ [{ path, root := call.nRoots }] }, false)
        | some _ =>
          let dots := 2 + if s.getD (left + 2) 0 = dot then 1 else 0
          match gitCommit text ((s.drop (left + dots)).take (root - left - dots)) with
          | none => .error (.revision index)
          | some text =>
            .ok ({ call with text, nRoots := call.nRoots + 2, argv := call.argv ++ [.derived]
                             revisions := call.revisions ++ [{ path, root := call.nRoots, dots }] }, true)

/-- The loop of `git_call_command` over the revisions, with how many commits they name. -/
def gitCallRevisions (listed index : Nat) : List Bytes → GitCall × Nat → Except GitWrong (GitCall × Nat)
  | [], found => .ok found
  | s :: revisions, (call, endpoints) => do
      let (call, range) ← gitCallRevision listed index s call
      gitCallRevisions listed (index + 1) revisions (call, if range then endpoints + 1 else endpoints)

/-- The loop of `git_call_command` over the paths. -/
def gitCallPaths (index : Nat) : List GitWord → GitCall → Except GitWrong GitCall
  | [], call => .ok call
  | s :: paths, call =>
    if ¬gitInside s.text ∨ ascii ":(" <+: s.text then .error (.path index)
    else gitCallPaths (index + 1) paths { call with argv := call.argv ++ [.text s.text] }

/-- Words that askai gives. -/
def GitCall.append (call : GitCall) (words : List Bytes) : GitCall :=
  { call with argv := call.argv ++ words.map .text }

/-- The word for the command. -/
def GitCommand.word (command : GitCommand) : Bytes :=
  if command.takes.lines then ascii "cat-file" else command.name

/-- The pattern, after `-e`. -/
def patternWords : Option GitWord → List Bytes
  | none => []
  | some pattern => [ascii "-e", pattern.text]

/-- The end of the options, except where git takes it amiss. -/
def GitCommand.endWords (command : GitCommand) : List Bytes :=
  if command.takes.end_ then [ascii "--end-of-options"] else []

/-- The start of the paths. -/
def GitCommand.fileWords (command : GitCommand) : List Bytes :=
  if command.takes.files then [ascii "--"] else []

/-- The revisions, `HEAD` if none are listed. -/
def revisionTexts (revisions : List GitWord) : List Bytes :=
  if revisions = [] then [ascii "HEAD"] else revisions.map GitWord.text

/-- The end of `git_call_command`, which fills the argv of a call. -/
def gitCallArgv (options revisions paths : List GitWord) (pattern : Option GitWord) (call : GitCall) :
    Except GitWrong GitCall := do
  let command := call.command
  let call ← gitCallOptions 0 options (call.append (command.word :: command.forced))
  let (call, endpoints) ← gitCallRevisions revisions.length 0 (revisionTexts revisions)
    (call.append (patternWords pattern ++ command.endWords), revisions.length)
  if command.takes.lines ∧ call.revisions.head?.map GitRevision.path = some [] then .error .readFile
  else if command.takes.pair ∧ endpoints ≠ 2 then .error .twoCommits
  else gitCallPaths 0 paths (call.append command.fileWords)

/-! ## The arguments of a call -/

/-- The most entries of an argument that is a list. -/
def gitMost : GitArg → Nat
  | .options => 16
  | .revisions => 4
  | .paths => 32
  | _ => 0

/-- The words of a list, with the index of the first. -/
def gitWords (arg : GitArg) (index : Nat) : List Json → Except GitWrong (List GitWord)
  | [] => .ok []
  | val :: list =>
    match gitWord val with
    | none => .error (.word arg index)
    | some word => (gitWords arg (index + 1) list).map (word :: ·)

/-- The check of an argument that is a list. -/
def gitList (of_ : GitArg → Json) (seen : GitArg → Bool) (arg : GitArg) : Except GitWrong (List GitWord) :=
  if seen arg then
    match of_ arg with
    | .array list =>
      if gitMost arg < list.length then .error (.tooMany arg list.length) else gitWords arg 0 list
    | _ => .error (.list arg)
  else .ok []

/-- The check of the pattern. -/
def gitPattern (takes : GitTakes) (val : Json) : Except GitWrong (Option GitWord) :=
  if takes.pattern then
    match gitWord val with
    | none => .error .patternNeeded
    | some pattern => .ok (some pattern)
  else
    match val with
    | .null => .ok none
    | _ => .error .noPattern

/-- The check of an argument that is a number. -/
def gitNumber (of_ : GitArg → Json) (seen : GitArg → Bool) (arg : GitArg) (default : Nat) : Except GitWrong Nat :=
  if seen arg then
    let v := jbCount (some (of_ arg)) (2 ^ 64 - 1)
    if v = 0 then .error (.number arg) else .ok v
  else .ok default

/-- `git_call_command` after the command and the help are known. -/
def gitCallChecked (of_ : GitArg → Json) (seen : GitArg → Bool) (call : GitCall) : Except GitWrong GitCall := do
  let takes := call.command.takes
  let options ← gitList of_ seen .options
  let revisions ← gitList of_ seen .revisions
  let paths ← gitList of_ seen .paths
  if takes.single ∧ 1 < revisions.length then .error (.single call.command.name)
  else if paths ≠ [] ∧ ¬takes.files then .error (.noPaths call.command.name)
  else
    let pattern ← gitPattern takes (of_ .pattern)
    if (seen .line ∨ seen .count) ∧ ¬takes.lines then .error .noLines
    else
      let line ← gitNumber of_ seen .line 1
      let count ← gitNumber of_ seen .count (2 ^ 64 - 1)
      gitCallArgv options revisions paths pattern { call with line, count }

/-- The arguments by name: those of a value that is no object are none. -/
def gitArgs (args : Json) : Except GitWrong ((GitArg → Json) × (GitArg → Bool)) :=
  match args with
  | .null => .error .object
  | .object members =>
    (jbArgs gitArg members (fun _ => .null, fun _ => false)).mapError GitWrong.unknown
  | _ => .ok (fun _ => .null, fun _ => false)

/-- `git_call_command`. -/
def gitCallCommand (repos : List GitRepo) (args : Json) : Except GitWrong GitCall := do
  let (of_, seen) ← gitArgs args
  match (gitWord (of_ .repo)).bind fun name => repos.find? fun repo => name.text = repo.name with
  | none => .error .repo
  | some repo =>
    let cmd := ((gitWord (of_ .command)).map GitWord.text).getD []
    match gitCommands.find? fun command => cmd = command.name with
    | none =>
      if cmd = ascii "status" ∨ cmd = ascii "ls-files" then .error (.unavailable cmd)
      else .error .command
    | some command =>
      match of_ .help with
      | .bool true =>
        if [GitArg.options, .revisions, .paths, .pattern, .line, .count].any seen then
          .error .helpAlone
        else .ok { repo, command, phase := .help }
      | .bool false => gitCallChecked of_ seen { repo, command }
      | _ => if seen .help then .error .help else gitCallChecked of_ seen { repo, command }

/-! ## What git is run with -/

/-- `struct git_view`: where it is, and whether the history has a `HEAD`. -/
structure GitView where
  directory : Bytes
  head : Bool
  deriving DecidableEq, Repr

/-- `fixed`. -/
def gitFixed : List Bytes :=
  ["--no-pager", "--no-replace-objects", "-c", "core.fsmonitor=false", "-c", "core.hooksPath=/dev/null",
    "-c", "gpg.program=false", "-c", "gpg.ssh.program=false", "-c", "gpg.x509.program=false", "-c",
    "protocol.allow=never", "-c", "gc.auto=0", "-c", "maintenance.auto=false", "-c", "core.bare=true",
    "-c", "log.showSignature=false", "-c", "diff.submodule=short", "-c", "diff.autoRefreshIndex=false",
    "-c", "core.quotePath=false"].map ascii

/-- The words of a phase. -/
def GitCall.words (call : GitCall) : GitPhase → List GitArgWord
  | .meta_ => ["rev-parse", "--path-format=absolute", "--git-path", "objects", "--git-path", "shallow",
      "--show-object-format", "--verify", "--quiet", "HEAD^\x7bcommit\x7d"].map (.text ∘ ascii)
  | .refs => ["for-each-ref", "--format=%(objectname) %(refname)", "refs/heads/", "refs/tags/",
      "refs/remotes/"].map (.text ∘ ascii)
  | .resolve => ["rev-parse", "--revs-only", "--end-of-options"].map (.text ∘ ascii)
  | .check => ["rev-list", "--max-count=1", "--not", "--branches", "--tags", "--remotes"].map
      (.text ∘ ascii)
  | .run => call.argv
  | _ => []

/-- `git_text_next`: the next word of the text, and what follows its NUL. -/
def gitTextNext (next : Bytes) : Bytes × Bytes :=
  match cut nul next with
  | none => (next, [])
  | some found => found

/-- The words, with those of the text in place of what is derived, and the rest of the text. -/
def gitFill : List GitArgWord → Bytes → List Bytes × Bytes
  | [], next => ([], next)
  | .text word :: words, next =>
    let (argv, next) := gitFill words next
    (word :: argv, next)
  | .derived :: words, next =>
    let (word, next) := gitTextNext next
    let (argv, next) := gitFill words next
    (word :: argv, next)

/-- As many words of the text. -/
def gitTextWords : Nat → Bytes → List Bytes
  | 0, _ => []
  | n + 1, next =>
    let (word, next) := gitTextNext next
    word :: gitTextWords n next

/-- The argv of `git_call_run`, without its null pointer. -/
def gitCallRun (call : GitCall) (phase : GitPhase) (view : Option GitView) : List Bytes :=
  let head := match view with
    | none => [ascii "-c", call.repo.safe, ascii "-C", call.repo.path]
    | some view => [ascii "-c", call.repo.safe, ascii "-C", view.directory, ascii "--git-dir=."]
  let (words, next) := gitFill (call.words phase) call.text
  let tail := match phase with
    | .resolve => gitTextWords call.nRoots next
    | .check =>
      (if view.any GitView.head then [ascii "HEAD"] else []) ++ [ascii "--not", ascii "--end-of-options"]
        ++ (call.roots.take call.nRoots).map Oid.hex ++ [ascii "--"]
    | _ => []
  ascii "git" :: gitFixed ++ head ++ words ++ tail

/-! ## What rev-parse resolved -/

/-- The loop of `git_call_resolve` over the lines: none for `EINVAL`. -/
def gitRoots : Nat → Bytes → Option (List Oid × Bytes)
  | 0, out => some ([], out)
  | n + 1, out =>
    match oidInitField out lf with
    | none => none
    | some (root, out) => (gitRoots n out).map fun (roots, out) => (root :: roots, out)

/-- The word for a revision: the commit with the path, or the range. -/
def gitRevisionWord (roots : List Oid) (rev : GitRevision) : Bytes :=
  let hex (i : Nat) := ((roots[i]?).map Oid.hex).getD []
  if rev.dots ≠ 0 then hex rev.root ++ List.replicate rev.dots dot ++ hex (rev.root + 1)
  else hex rev.root ++ rev.path

/-- `git_call_resolve`: none for `EINVAL`. -/
def gitCallResolve (call : GitCall) (out : Bytes) : Option GitCall :=
  match gitRoots call.nRoots out with
  | none => none
  | some (roots, rest) =>
    if rest ≠ [] ∨ roots.any (fun root => oidLen root ≠ ((roots.head?).map oidLen).getD 0) then none
    else
      let ignored := (roots.take ((call.revisions.head?.map GitRevision.root).getD 0)).map fun root =>
        gitIgnoreRev ++ root.hex ++ [nul]
      let named := call.revisions.map fun rev => gitRevisionWord roots rev ++ [nul]
      some { call with roots, text := (ignored ++ named).flatten }

end Askai
