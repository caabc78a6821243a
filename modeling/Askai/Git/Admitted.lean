import Askai.Git.Argv

/-!
# Git runs only what is admitted

The whole argv of the git that answers a call, after rev-parse has resolved the commits that the call
names.
-/

namespace Askai

open Library List

/-! ## What rev-parse printed -/

theorem oidInitField_eq_some {text rest : Bytes} {end_ : UInt8} {oid : Oid}
    (read : oidInitField text end_ = some (oid, rest)) :
    text = oid.hex ++ [end_] ++ rest ∧ oidValid oid.hex = true := by
  unfold oidInitField at read
  obtain ⟨oid', init, same⟩ := Option.map_eq_some_iff.mp read
  obtain ⟨rfl, rfl⟩ := Prod.mk.inj same
  obtain ⟨hex, valid⟩ := oidInit_eq_some.mp init
  have at_ {n : Nat} (inside : text[n]? = some end_) : text = text.take n ++ [end_] ++ text.drop (n + 1) := by
    obtain ⟨bound, here⟩ := List.getElem?_eq_some_iff.mp inside
    rw [← here, append_assoc, singleton_append, ← drop_eq_getElem_cons bound, take_append_drop]
  refine ⟨?_, hex ▸ valid⟩
  rw [hex]
  split
  · rename_i sha1
    exact at_ sha1.2
  · rename_i other
    split
    · rename_i sha256
      exact at_ sha256.2
    · rename_i none_
      simp [other, none_, oidValid] at valid

theorem gitRoots_ok {n : Nat} {out rest : Bytes} {roots : List Oid} (read : gitRoots n out = some (roots, rest)) :
    roots.length = n ∧ (∀ root ∈ roots, oidValid root.hex = true) ∧
      out = (roots.map fun root => root.hex ++ [lf]).flatten ++ rest := by
  induction n generalizing out roots with
  | zero =>
    obtain ⟨rfl, rfl⟩ := Prod.mk.inj (Option.some.inj read)
    exact ⟨rfl, by simp, rfl⟩
  | succ n ih =>
    rw [gitRoots] at read
    split at read
    · cases read
    · rename_i root out' first
      obtain ⟨⟨roots', rest'⟩, later, same⟩ := Option.map_eq_some_iff.mp read
      obtain ⟨rfl, rfl⟩ := Prod.mk.inj same
      obtain ⟨length, valid, rfl⟩ := ih later
      obtain ⟨rfl, valid'⟩ := oidInitField_eq_some first
      refine ⟨by simp [length], ?_, by simp⟩
      intro root' mem
      cases mem with
      | head => exact valid'
      | tail _ mem => exact valid root' mem

/-- The words that stand in for the derived ones: the options first, then the revisions. -/
theorem gitCallResolve_ok {call call' : GitCall} {out : Bytes} (resolved : gitCallResolve call out = some call') :
    ∃ roots, roots.length = call.nRoots ∧ (∀ root ∈ roots, oidValid root.hex = true) ∧
      out = (roots.map fun root => root.hex ++ [lf]).flatten ∧
      call' = { call with
        roots
        text := nulled ((roots.take ((call.revisions.head?.map GitRevision.root).getD 0)).map
            fun root => gitIgnoreRev ++ root.hex) ++ nulled (call.revisions.map (gitRevisionWord roots)) } := by
  unfold gitCallResolve at resolved
  split at resolved
  · cases resolved
  · rename_i roots rest read
    split at resolved
    · cases resolved
    · rename_i whole
      obtain ⟨length, valid, rfl⟩ := gitRoots_ok read
      rw [not_or, not_not] at whole
      obtain rfl := Option.some.inj resolved
      refine ⟨roots, length, valid, by rw [whole.1, append_nil], ?_⟩
      simp [nulled, Function.comp_def]

/-! ## The words of revisions -/

/-- A word for a revision: a commit alone, a range of two, or a file below one. -/
inductive RevisionWord (roots : List Oid) : Bytes → Prop
  | commit {root : Oid} (of_ : root ∈ roots) : RevisionWord roots root.hex
  | range {first last : Oid} {dots : Nat} (of_ : first ∈ roots) (to_ : last ∈ roots)
      (many : dots = 2 ∨ dots = 3) :
      RevisionWord roots (first.hex ++ List.replicate dots dot ++ last.hex)
  | file {root : Oid} {path : Bytes} (of_ : root ∈ roots) (some_ : path ≠ [])
      (relative : path.head? ≠ some slash) (below : Below path) :
      RevisionWord roots (root.hex ++ colon :: path)

theorem nul_not_mem_hex {root : Oid} (valid : oidValid root.hex = true) : nul ∉ root.hex := by
  intro mem
  have digit := all_eq_true.mp (oidValid_iff.mp valid).2 nul mem
  exact absurd digit (by decide)

theorem revisionWord_of_sound {roots : List Oid} {rev : GitRevision} (sound : rev.Sound roots.length)
    (valid : ∀ root ∈ roots, oidValid root.hex = true) :
    RevisionWord roots (gitRevisionWord roots rev) ∧ nul ∉ gitRevisionWord roots rev := by
  have here {i : Nat} (inside : i < roots.length) : ((roots[i]?).map Oid.hex).getD [] = (roots[i]).hex := by
    rw [List.getElem?_eq_getElem inside, Option.map_some, Option.getD_some]
  have clean {i : Nat} (inside : i < roots.length) : nul ∉ (roots[i]).hex :=
    nul_not_mem_hex (valid _ (getElem_mem inside))
  cases sound with
  | commit dots root path =>
    simp only [gitRevisionWord, dots, ne_eq, not_true_eq_false, if_false, path, append_nil, here root]
    exact ⟨.commit (getElem_mem root), clean root⟩
  | file dots root path_ some_ inside clean_ =>
    obtain ⟨relative, below⟩ := below_of_gitInside inside
    simp only [gitRevisionWord, dots, ne_eq, not_true_eq_false, if_false, path_, here root]
    refine ⟨.file (getElem_mem root) some_ relative below, ?_⟩
    rw [mem_append, mem_cons, not_or, not_or]
    exact ⟨clean root, by decide, clean_⟩
  | range dots root =>
    have nonzero : rev.dots ≠ 0 := by omega
    have first : rev.root < roots.length := by omega
    simp only [gitRevisionWord, nonzero, ne_eq, not_false_eq_true, if_true, here first, here root]
    refine ⟨.range (getElem_mem first) (getElem_mem root) dots, ?_⟩
    rw [mem_append, mem_append, not_or, not_or]
    refine ⟨⟨clean first, ?_⟩, clean root⟩
    intro mem
    exact absurd (eq_of_mem_replicate mem) (by decide)

/-- No word for a revision reads as an option. -/
theorem RevisionWord.not_option {roots : List Oid} (valid : ∀ root ∈ roots, oidValid root.hex = true)
    {word : Bytes} (names : RevisionWord roots word) : word.head? ≠ some 45 := by
  have digit {root : Oid} (mem : root ∈ roots) (rest : Bytes) : (root.hex ++ rest).head? ≠ some 45 := by
    obtain ⟨length, digits⟩ := oidValid_iff.mp (valid root mem)
    cases hex : root.hex with
    | nil =>
      rw [hex] at length
      simp at length
    | cons c hex' =>
      rw [hex] at digits
      have first := all_eq_true.mp digits c mem_cons_self
      rw [cons_append, List.head?_cons]
      intro same
      obtain rfl := Option.some.inj same
      exact absurd first (by decide)
  cases names with
  | commit of_ =>
    have start := digit of_ []
    rwa [append_nil] at start
  | range of_ =>
    rw [append_assoc]
    exact digit of_ _
  | file of_ => exact digit of_ _

/-! ## The argv -/

/-- The argv of git is made of these parts, each of which is what it may be. -/
structure Admitted (call : GitCall) (view : GitView) (out : Bytes) (options : List Bytes)
    (pattern : Option GitWord) (revisions paths : List Bytes) : Prop where
  command : call.command ∈ gitCommands
  argv : gitCallRun call .run (some view) =
    ascii "git" :: gitFixed ++
      [ascii "-c", call.repo.safe, ascii "-C", view.directory, ascii "--git-dir=."] ++
      call.command.word :: call.command.forced ++ options ++ patternWords pattern ++
      call.command.endWords ++ revisions ++ call.command.fileWords ++ paths
  /-- With the null pointer, the argv fits `GIT_ARGV`. -/
  fits : (gitCallRun call .run (some view)).length + 1 ≤ 128
  spelled : ∀ opt ∈ options, ∃ spelling ∈ call.command.options, Spells spelling opt
  /-- The revision after `--ignore-rev=` is a commit, too. -/
  ignored : ∀ opt ∈ options, gitIgnoreRev <+: opt →
    ∃ root ∈ call.roots, opt = gitIgnoreRev ++ root.hex
  sought : pattern.isSome = call.command.takes.pattern
  named : ∀ word ∈ revisions, RevisionWord call.roots word ∧ word.head? ≠ some 45
  /-- The commits are what rev-parse printed, a full name on each line, -/
  printed : out = (call.roots.map fun root => root.hex ++ [lf]).flatten
  full : ∀ root ∈ call.roots, oidValid root.hex = true
  /-- and rev-list was asked for each of them. -/
  covered : ∃ front, gitCallRun call .check (some view) =
    front ++ [ascii "--not", ascii "--end-of-options"] ++ call.roots.map Oid.hex ++ [ascii "--"]
  inside : ∀ path ∈ paths, path.head? ≠ some slash ∧ Below path ∧ ¬ascii ":(" <+: path
  files : paths ≠ [] → call.command.fileWords = [ascii "--"]

/-- Whatever the arguments of a call are and whatever rev-parse prints, the git that answers the call
runs only what is admitted. -/
theorem git_admitted {repos : List GitRepo} {args : Json} {call call' : GitCall} {out : Bytes}
    (accepted : gitCallCommand repos args = .ok call) (runs : call.phase ≠ .help)
    (resolved : gitCallResolve call out = some call') (view : GitView) :
    ∃ options pattern revisions paths, Admitted call' view out options pattern revisions paths := by
  obtain ⟨opts, pattern, paths, ok⟩ := gitCallCommand_ok accepted runs
  obtain ⟨roots, length, valid, printed, rfl⟩ := gitCallResolve_ok resolved
  obtain ⟨rev, rest, revs⟩ := exists_cons_of_ne_nil ok.some_
  have ignores : (call.revisions.head?.map GitRevision.root).getD 0 = opts.count .derived := by
    have first := ok.first
    rw [revs] at first ⊢
    exact first rev rfl
  have enough : opts.count .derived ≤ roots.length := by
    have first := ok.first rev (by rw [revs]; rfl)
    have sound := ok.sound rev (by rw [revs]; exact mem_cons_self)
    rw [← first, length]
    cases sound <;> omega
  have digits {root : Oid} (mem : root ∈ roots) : root.hex ≠ [] := by
    rintro none_
    have hex := (oidValid_iff.mp (valid root mem)).1
    rw [none_] at hex
    simp at hex
  have ignored : ∀ word ∈ (roots.take (opts.count .derived)).map fun root => gitIgnoreRev ++ root.hex, nul ∉ word := by
    intro word mem
    obtain ⟨root, of_, rfl⟩ := mem_map.mp mem
    rw [mem_append, not_or]
    exact ⟨by decide, nul_not_mem_hex (valid root (mem_of_mem_take of_))⟩
  have named : ∀ word ∈ call.revisions.map (gitRevisionWord roots), RevisionWord roots word ∧ nul ∉ word := by
    intro word mem
    obtain ⟨rev, of_, rfl⟩ := mem_map.mp mem
    exact revisionWord_of_sound (length ▸ ok.sound rev of_) valid
  -- The words of the text stand in the order in which the argv takes them.
  have as_many : ((roots.take (opts.count .derived)).map fun root => gitIgnoreRev ++ root.hex).length =
      opts.count .derived := by
    simpa using enough
  obtain ⟨options, filled, each⟩ :=
    gitFill_nulled as_many ignored (nulled (call.revisions.map (gitRevisionWord roots)))
  have revised := gitFill_derived (fun word mem => (named word mem).2) []
  rw [length_map, append_nil] at revised
  have argv : gitFill call.argv (nulled ((roots.take (opts.count .derived)).map
      fun root => gitIgnoreRev ++ root.hex) ++ nulled (call.revisions.map (gitRevisionWord roots))) =
      (call.command.word :: call.command.forced ++ options ++ (patternWords pattern ++ call.command.endWords) ++
        call.revisions.map (gitRevisionWord roots) ++ (call.command.fileWords ++ paths.map GitWord.text), []) := by
    rw [ok.argv]
    simp only [gitFill_append, gitFill_text, filled, revised]
  have whole : gitCallRun { call with
      roots
      text := nulled ((roots.take ((call.revisions.head?.map GitRevision.root).getD 0)).map
          fun root => gitIgnoreRev ++ root.hex) ++
        nulled (call.revisions.map (gitRevisionWord roots)) } .run (some view) =
      ascii "git" :: gitFixed ++
        [ascii "-c", call.repo.safe, ascii "-C", view.directory, ascii "--git-dir=."] ++
        call.command.word :: call.command.forced ++ options ++ patternWords pattern ++
        call.command.endWords ++ call.revisions.map (gitRevisionWord roots) ++
        call.command.fileWords ++ paths.map GitWord.text := by
    rw [ignores]
    simp only [gitCallRun, GitCall.words, argv]
    simp
  have word_of {opt : Bytes} (mem : opt ∈ options) :
      ∃ word ∈ opts, Fills (· ∈ (roots.take (opts.count .derived)).map fun root => gitIgnoreRev ++ root.hex) word opt :=
    exists_mem_of_forall₂ each.flip mem
  refine ⟨options, pattern, call.revisions.map (gitRevisionWord roots), paths.map GitWord.text, ?_⟩
  constructor
  case command => exact ok.listed
  case argv => exact whole
  case fits =>
    rw [whole]
    have fixed : gitFixed.length = 28 := rfl
    have forced : ∀ command ∈ gitCommands, command.forced.length ≤ 2 := by decide
    have forced := forced _ ok.listed
    have options : options.length = opts.length := each.length_eq.symm
    have few := ok.optionsMost
    have revisions := ok.revisionsMost
    have paths := ok.pathsMost
    have pattern : (patternWords pattern).length ≤ 2 := by cases pattern <;> simp [patternWords]
    have ends : call.command.endWords.length ≤ 1 := by
      rw [GitCommand.endWords]
      split <;> decide
    have files : call.command.fileWords.length ≤ 1 := by
      rw [GitCommand.fileWords]
      split <;> decide
    simp only [length_append, length_cons, length_nil, length_map]
    omega
  case spelled =>
    intro opt mem
    obtain ⟨word, of_, fills⟩ := word_of mem
    cases ok.spelled word of_ with
    | text spelled =>
      cases fills
      exact spelled
    | derived ignores =>
      cases fills with
      | derived from_ =>
        obtain ⟨root, taken, rfl⟩ := mem_map.mp from_
        exact ignores root.hex (digits (mem_of_mem_take taken))
  case ignored =>
    intro opt mem starts
    obtain ⟨word, of_, fills⟩ := word_of mem
    cases ok.spelled word of_ with
    | text spelled plain =>
      cases fills
      exact absurd starts plain
    | derived =>
      cases fills with
      | derived from_ =>
        obtain ⟨root, taken, rfl⟩ := mem_map.mp from_
        exact ⟨root, mem_of_mem_take taken, rfl⟩
  case sought => exact ok.sought
  case named =>
    intro word mem
    exact ⟨(named word mem).1, (named word mem).1.not_option valid⟩
  case printed => exact printed
  case full => exact valid
  case covered =>
    have all : roots.take call.nRoots = roots := by rw [← length, take_length]
    refine ⟨ascii "git" :: gitFixed ++ [ascii "-c", call.repo.safe, ascii "-C", view.directory, ascii "--git-dir=."] ++
      (gitFill (call.words .check) []).1 ++ (if view.head then [ascii "HEAD"] else []), ?_⟩
    simp [gitCallRun, GitCall.words, gitFill, all]
  case inside =>
    intro path mem
    obtain ⟨word, of_, rfl⟩ := mem_map.mp mem
    obtain ⟨inside, magic⟩ := ok.inside word of_
    obtain ⟨relative, below⟩ := below_of_gitInside inside
    exact ⟨relative, below, magic⟩
  case files =>
    intro some_
    rw [GitCommand.fileWords, if_pos]
    apply ok.files
    rintro rfl
    exact some_ rfl

/-- A repository, and a call that blames a file of it but for one commit. -/
def blameRepo : GitRepo where
  name := ascii "twinception"
  path := ascii "/srv/twinception"
  safe := ascii "safe.directory=/srv/twinception"

def blameArgs : Json :=
  .object [(ascii "repo", .string (ascii "twinception")), (ascii "command", .string (ascii "blame")),
    (ascii "options", .array [.string (ascii "-w"), .string (ascii "--ignore-rev=v1")]),
    (ascii "revisions", .array [.string (ascii "HEAD~3")]), (ascii "paths", .array [.string (ascii "src/git.c")])]

/-- What rev-parse prints for the two commits. -/
def blameOut : Bytes :=
  List.replicate 40 97 ++ [lf] ++ List.replicate 40 98 ++ [lf]

theorem git_admitted_blame : ∃ call call', gitCallCommand [blameRepo] blameArgs = .ok call ∧
      gitCallResolve call blameOut = some call' ∧ ∃ options pattern revisions paths,
        Admitted call' ⟨ascii "/run/view", true⟩ blameOut options pattern revisions paths := by
  have accepts : ((gitCallCommand [blameRepo] blameArgs).toOption.any fun call =>
      call.phase ≠ .help && (gitCallResolve call blameOut).isSome) = true := by decide +kernel
  cases accepted : gitCallCommand [blameRepo] blameArgs with
  | error wrong =>
    rw [accepted] at accepts
    cases accepts
  | ok call =>
    rw [accepted] at accepts
    simp only [Except.toOption, Option.any_some, Bool.and_eq_true, decide_eq_true_eq] at accepts
    obtain ⟨call', resolved⟩ := Option.isSome_iff_exists.mp accepts.2
    exact ⟨call, call', rfl, resolved, git_admitted accepted accepts.1 resolved _⟩

end Askai
