import Askai.Git.Model
import Askai.Library.Lists

/-!
# What git is run with

The argv of the git that answers a call: every word of it is askai's own, an option that the command's
list spells, the pattern, a commit that rev-parse resolved, or a path.
-/

namespace Askai

open Library List

/-! ## Words by position -/

/-- The words, each with the NUL that ends it. -/
def nulled (words : List Bytes) : Bytes :=
  (words.map (· ++ [nul])).flatten

theorem nulled_cons (word : Bytes) (words : List Bytes) : nulled (word :: words) = word ++ [nul] ++ nulled words := by
  simp [nulled]

@[simp]
theorem nulled_append (front back : List Bytes) : nulled (front ++ back) = nulled front ++ nulled back := by
  simp [nulled]

theorem gitTextNext_nulled {word : Bytes} (clean : nul ∉ word) (rest : Bytes) :
    gitTextNext (word ++ [nul] ++ rest) = (word, rest) := by
  rw [gitTextNext, append_assoc, singleton_append, cut_append rest clean]

theorem gitFill_append (front back : List GitArgWord) (next : Bytes) : gitFill (front ++ back) next =
      ((gitFill front next).1 ++ (gitFill back (gitFill front next).2).1, (gitFill back (gitFill front next).2).2) := by
  induction front generalizing next with
  | nil => rfl
  | cons word front ih =>
    cases word with
    | text word => simp only [cons_append, gitFill, ih]
    | derived => simp only [cons_append, gitFill, ih]

@[simp]
theorem gitFill_text (words : List Bytes) (next : Bytes) :
    gitFill (words.map GitArgWord.text) next = (words, next) := by
  induction words with
  | nil => rfl
  | cons word words ih => rw [map_cons, gitFill, ih]

/-- The word is the one that stands there, or a derived one of the text. -/
inductive Fills (derived : Bytes → Prop) : GitArgWord → Bytes → Prop
  | text (word : Bytes) : Fills derived (.text word) word
  | derived {word : Bytes} (from_ : derived word) : Fills derived .derived word

/-- As many words of the text are taken as are derived. -/
theorem gitFill_nulled {words : List GitArgWord} {text : List Bytes}
    (as_many : text.length = words.count .derived) (clean : ∀ word ∈ text, nul ∉ word) (rest : Bytes) :
    ∃ argv, gitFill words (nulled text ++ rest) = (argv, rest) ∧ List.Forall₂ (Fills (· ∈ text)) words argv := by
  induction words generalizing text with
  | nil =>
    obtain rfl := length_eq_zero_iff.mp as_many
    exact ⟨[], rfl, .nil⟩
  | cons word words ih =>
    cases word with
    | text word =>
      obtain ⟨argv, filled, each⟩ := ih (by simpa using as_many) clean
      exact ⟨word :: argv, by rw [gitFill, filled], .cons (.text word) each⟩
    | derived =>
      cases text with
      | nil => simp at as_many
      | cons first text =>
        have later : ∀ word ∈ text, nul ∉ word := fun word mem =>
          clean word (mem_cons_of_mem _ mem)
        obtain ⟨argv, filled, each⟩ := ih (by simpa using as_many) later
        refine ⟨first :: argv, ?_, .cons (.derived mem_cons_self) ?_⟩
        · have next := gitTextNext_nulled (clean first mem_cons_self) (nulled text ++ rest)
          rw [nulled_cons, append_assoc]
          simp only [gitFill, next, filled]
        · apply List.Forall₂.imp _ each
          intro word argv fills
          cases fills with
          | text => exact .text _
          | derived from_ => exact .derived (mem_cons_of_mem _ from_)

/-- The words of the text, where all are derived. -/
theorem gitFill_derived {text : List Bytes} (clean : ∀ word ∈ text, nul ∉ word) (rest : Bytes) :
    gitFill (List.replicate text.length .derived) (nulled text ++ rest) = (text, rest) := by
  induction text with
  | nil => rfl
  | cons first text ih =>
    have next := gitTextNext_nulled (clean first mem_cons_self) (nulled text ++ rest)
    rw [length_cons, replicate_succ, nulled_cons, append_assoc]
    simp only [gitFill, next, ih fun word mem => clean word (mem_cons_of_mem _ mem)]

/-! ## The options of a call -/

/-- A value after `--ignore-rev=` makes an option that the command's list spells. -/
def IgnoresRevisions (command : GitCommand) : Prop :=
  ∀ value, value ≠ [] → ∃ spelling ∈ command.options, Spells spelling (gitIgnoreRev ++ value)

/-- A word of the options of a call. -/
inductive OptionWord (command : GitCommand) : GitArgWord → Prop
  | text {opt : Bytes} (spelled : ∃ spelling ∈ command.options, Spells spelling opt)
      (plain : ¬gitIgnoreRev <+: opt) : OptionWord command (.text opt)
  | derived (ignores : IgnoresRevisions command) : OptionWord command .derived

theorem gitOptionCheck_ok {command : GitCommand} {index : Nat} {opt : Bytes}
    (checked : gitOptionCheck command index opt = .ok ()) : ∃ spelling ∈ command.options, Spells spelling opt := by
  rw [gitOptionCheck] at checked
  split at checked
  · rename_i found
    exact spells_of_gitOptionFind (by decide) found
  · cases checked
  · cases checked
  · split at checked <;> cases checked

/-- Only the spelling `--ignore-rev=` spells an option that starts so. -/
theorem ignoresRevisions {command : GitCommand} (listed : command ∈ gitCommands) {opt : Bytes}
    (spelled : ∃ spelling ∈ command.options, Spells spelling opt) (starts : gitIgnoreRev <+: opt) :
    IgnoresRevisions command := by
  have alone : ∀ command ∈ gitCommands, ∀ spelling ∈ command.options,
      (spelling <+: gitIgnoreRev ∨ gitIgnoreRev <+: spelling → spelling = gitIgnoreRev) ∧
        (spelling.getLast? = some star ∨ spelling.getLast? = some hash →
          ¬(spelling.dropLast <+: gitIgnoreRev ∨ gitIgnoreRev <+: spelling.dropLast)) := by
    decide
  obtain ⟨spelling, mem, spells⟩ := spelled
  obtain ⟨whole, stems⟩ := alone command listed spelling mem
  have same : spelling = gitIgnoreRev := by
    cases spells with
    | exact_ => exact whole (.inr starts)
    | value => exact whole ( prefix_or_prefix_of_prefix (prefix_append _ _) starts)
    | @attached stem value ends =>
      subst ends
      rw [List.getLast?_concat, dropLast_concat] at stems
      exact absurd ( prefix_or_prefix_of_prefix (prefix_append _ _) starts) (stems (.inl rfl))
    | @digits stem value ends =>
      subst ends
      rw [List.getLast?_concat, dropLast_concat] at stems
      exact absurd ( prefix_or_prefix_of_prefix (prefix_append _ _) starts) (stems (.inr rfl))
  have ends : gitIgnoreRev = ascii "--ignore-rev" ++ [equals] := by decide
  intro value some_
  exact ⟨gitIgnoreRev, same ▸ mem, .value ends some_⟩

variable {call call' : GitCall}

theorem gitCallOptions_ok {index : Nat} {options : List GitWord}
    (listed : call.command ∈ gitCommands) (built : gitCallOptions index options call = .ok call') :
    ∃ words text, words.length = options.length ∧ (∀ word ∈ words, OptionWord call.command word) ∧
      call' = { call with text, nRoots := call.nRoots + words.count .derived
                          argv := call.argv ++ words } := by
  induction options generalizing index call with
  | nil =>
    obtain rfl := Except.ok.inj built
    exact ⟨[], call.text, rfl, by simp, by simp⟩
  | cons opt options ih =>
    obtain ⟨_, checked, built⟩ := bind_eq_ok.mp built
    have spelled := gitOptionCheck_ok checked
    split at built
    · rename_i plain
      obtain ⟨words, text, length, each, rfl⟩ := ih (by exact listed) built
      refine ⟨.text opt.text :: words, text, by simp [length], ?_, by simp⟩
      intro word mem
      cases mem with
      | head => exact .text spelled plain
      | tail _ mem => exact each word mem
    · rename_i starts
      split at built
      · cases built
      · obtain ⟨words, text, length, each, rfl⟩ := ih (by exact listed) built
        refine ⟨.derived :: words, text, by simp [length], ?_, by simp; omega⟩
        intro word mem
        cases mem with
        | head => exact .derived (ignoresRevisions listed spelled (not_not.mp starts))
        | tail _ mem => exact each word mem

/-! ## The revisions of a call -/

/-- The revision names commits before `nRoots`, and maybe a path below one. -/
inductive GitRevision.Sound (nRoots : Nat) (rev : GitRevision) : Prop
  | commit (dots : rev.dots = 0) (root : rev.root < nRoots) (path : rev.path = [])
  | file {path : Bytes} (dots : rev.dots = 0) (root : rev.root < nRoots) (path_ : rev.path = colon :: path)
      (some_ : path ≠ []) (inside : gitInside path = true) (clean : nul ∉ path)
  | range (dots : rev.dots = 2 ∨ rev.dots = 3) (root : rev.root + 1 < nRoots)

theorem GitRevision.Sound.mono {m n : Nat} {rev : GitRevision} (sound : rev.Sound m) (le : m ≤ n) : rev.Sound n := by
  cases sound with
  | commit dots root path => exact .commit dots (root.trans_le le) path
  | file dots root path_ some_ inside clean =>
    exact .file dots (root.trans_le le) path_ some_ inside clean
  | range dots root => exact .range dots (root.trans_le le)

theorem drop_length_takeWhile (p : UInt8 → Bool) (s : Bytes) : s.drop (s.takeWhile p).length = s.dropWhile p := by
  induction s with
  | nil => rfl
  | cons c s ih =>
    cases here : p c with
    | true => simp [here, ih]
    | false => simp [here]

theorem gitCallRevision_ok {listed index : Nat} {s : Bytes} {range : Bool}
    (clean : nul ∉ s) (built : gitCallRevision listed index s call = .ok (call', range)) :
    ∃ rev n text, rev.root = call.nRoots ∧ rev.Sound (call.nRoots + n) ∧
      call' = { call with text, nRoots := call.nRoots + n, argv := call.argv ++ [.derived]
                          revisions := call.revisions ++ [rev] } := by
  unfold gitCallRevision at built
  dsimp only at built
  rw [drop_length_takeWhile] at built
  split at built
  · cases built
  · rename_i path
    split at built
    · cases built
    · split at built
      · cases built
      · split at built
        · obtain ⟨rfl, -⟩ := Prod.mk.inj (Except.ok.inj built)
          refine ⟨_, 1, _, rfl, ?_, rfl⟩
          cases rest : s.dropWhile (· ≠ colon) with
          | nil => exact .commit rfl (Nat.lt_succ_self _) rfl
          | cons c path' =>
            rw [rest] at path
            obtain rfl : c = colon := by
              have first := List.head?_dropWhile_not (fun c => decide (c ≠ colon)) s
              rw [rest] at first
              simpa using first
            simp only [ne_eq, cons_ne_nil, not_false_eq_true, tail_cons, true_and, not_or, not_not] at path
            refine .file rfl (Nat.lt_succ_self _) rfl path.2.1 path.2.2 ?_
            intro mem
            apply clean
            apply (dropWhile_suffix _).subset
            rw [rest]
            exact mem_cons_of_mem _ mem
        · split at built
          · cases built
          · obtain ⟨rfl, -⟩ := Prod.mk.inj (Except.ok.inj built)
            refine ⟨_, 2, _, rfl, ?_, rfl⟩
            apply GitRevision.Sound.range
            · dsimp only
              split
              · exact .inr rfl
              · exact .inl rfl
            · exact Nat.lt_succ_self _

/-- The revisions name commits one after another, and stand for one word each. -/
theorem gitCallRevisions_ok {listed index : Nat} {words : List Bytes}
    {endpoints endpoints' : Nat} (clean : ∀ s ∈ words, nul ∉ s)
    (built : gitCallRevisions listed index words (call, endpoints) = .ok (call', endpoints')) :
    ∃ revs n text, revs.length = words.length ∧ (∀ rev ∈ revs, rev.Sound (call.nRoots + n)) ∧
      (∀ rev ∈ revs.head?, rev.root = call.nRoots) ∧
      call' = { call with text, nRoots := call.nRoots + n
                          argv := call.argv ++ List.replicate revs.length .derived
                          revisions := call.revisions ++ revs } := by
  induction words generalizing index call endpoints with
  | nil =>
    obtain ⟨rfl, -⟩ := Prod.mk.inj (Except.ok.inj built)
    exact ⟨[], 0, call.text, rfl, by simp, by simp, by simp⟩
  | cons s words ih =>
    obtain ⟨⟨call₁, range⟩, first, built⟩ := bind_eq_ok.mp built
    obtain ⟨rev, m, text, root, sound, rfl⟩ := gitCallRevision_ok (clean s mem_cons_self) first
    obtain ⟨revs, n, text, length, each, -, rfl⟩ :=
      ih (fun s mem => clean s (mem_cons_of_mem _ mem)) built
    refine ⟨rev :: revs, m + n, text, by simp [length], ?_, by simp [root], ?_⟩
    · intro rev' mem
      cases mem with
      | head => exact sound.mono (by omega)
      | tail _ mem => exact (each rev' mem).mono (by simp; omega)
    · simp [replicate_succ, Nat.add_assoc]

/-! ## The paths of a call -/

theorem gitCallPaths_ok {index : Nat} {paths : List GitWord} (built : gitCallPaths index paths call = .ok call') :
    (∀ path ∈ paths, gitInside path.text = true ∧ ¬ascii ":(" <+: path.text) ∧
      call' = call.append (paths.map GitWord.text) := by
  induction paths generalizing index call with
  | nil =>
    obtain rfl := Except.ok.inj built
    simp [GitCall.append]
  | cons path paths ih =>
    rw [gitCallPaths] at built
    split at built
    · cases built
    · rename_i fits
      rw [not_or, not_not] at fits
      obtain ⟨each, rfl⟩ := ih built
      refine ⟨?_, by simp [GitCall.append]⟩
      intro path' mem
      cases mem with
      | head => exact fits
      | tail _ mem => exact each path' mem

/-! ## The argv of a call -/

theorem clean_revisionTexts (revisions : List GitWord) : ∀ s ∈ revisionTexts revisions, nul ∉ s := by
  intro s mem
  rw [revisionTexts] at mem
  split at mem
  · obtain rfl := mem_singleton.mp mem
    decide
  · obtain ⟨word, -, rfl⟩ := mem_map.mp mem
    exact word.clean

theorem length_revisionTexts (revisions : List GitWord) :
    (revisionTexts revisions).length = max 1 revisions.length := by
  cases revisions with
  | nil => rfl
  | cons word revisions => simp [revisionTexts]

/-- What the argv of a call is put together of. -/
structure Composed (call : GitCall) (opts : List GitArgWord) (pattern : Option GitWord)
    (paths : List GitWord) : Prop where
  listed : call.command ∈ gitCommands
  spelled : ∀ word ∈ opts, OptionWord call.command word
  some_ : call.revisions ≠ []
  sound : ∀ rev ∈ call.revisions, rev.Sound call.nRoots
  first : ∀ rev ∈ call.revisions.head?, rev.root = opts.count .derived
  inside : ∀ path ∈ paths, gitInside path.text = true ∧ ¬ascii ":(" <+: path.text
  argv : call.argv = (call.command.word :: call.command.forced).map .text ++ opts ++
    (patternWords pattern ++ call.command.endWords).map .text ++
    List.replicate call.revisions.length .derived ++
    (call.command.fileWords ++ paths.map GitWord.text).map .text

theorem gitCallArgv_ok {options revisions paths : List GitWord} {pattern : Option GitWord}
    (listed : call.command ∈ gitCommands) (empty : call.argv = [])
    (none_ : call.revisions = []) (zero : call.nRoots = 0)
    (built : gitCallArgv options revisions paths pattern call = .ok call') :
    ∃ opts, Composed call' opts pattern paths ∧ opts.length = options.length ∧
      call'.revisions.length = max 1 revisions.length ∧ call'.command = call.command := by
  obtain ⟨call₁, opted, built⟩ := bind_eq_ok.mp built
  obtain ⟨opts, text₁, length, spelled, rfl⟩ := gitCallOptions_ok (by exact listed) opted
  obtain ⟨⟨call₂, endpoints⟩, revised, built⟩ := bind_eq_ok.mp built
  obtain ⟨revs, n, text₂, many, sound, first, rfl⟩ :=
    gitCallRevisions_ok (clean_revisionTexts revisions) revised
  rw [length_revisionTexts] at many
  dsimp only at built
  split at built
  · cases built
  · split at built
    · cases built
    · obtain ⟨inside, rfl⟩ := gitCallPaths_ok built
      have some_ : revs ≠ [] := by
        rintro rfl
        simp at many
        omega
      refine ⟨opts, ?_, length, ?_, rfl⟩
      · constructor
        case listed => exact listed
        case spelled => exact spelled
        case some_ => simpa [GitCall.append, none_] using some_
        case sound => simpa [GitCall.append, none_] using sound
        case first => simpa [GitCall.append, none_, zero] using first
        case inside => exact inside
        case argv => simp [GitCall.append, empty, none_]
      · simpa [GitCall.append, none_] using many

/-! ## The arguments of a call -/

theorem length_of_gitWords {arg : GitArg} {index : Nat} {list : List Json} {words : List GitWord}
    (read : gitWords arg index list = .ok words) : words.length = list.length := by
  induction list generalizing index words with
  | nil =>
    obtain rfl := Except.ok.inj read
    rfl
  | cons val list ih =>
    rw [gitWords] at read
    split at read
    · cases read
    · obtain ⟨rest, later, rfl⟩ := except_map_eq_ok read
      simp [ih later]

theorem length_of_gitList {of_ : GitArg → Json} {seen : GitArg → Bool} {arg : GitArg}
    {words : List GitWord} (read : gitList of_ seen arg = .ok words) : words.length ≤ gitMost arg := by
  unfold gitList at read
  split at read
  · split at read
    · split at read
      · cases read
      · rename_i few
        rw [length_of_gitWords read]
        exact Nat.le_of_not_lt few
    · cases read
  · obtain rfl := Except.ok.inj read
    exact Nat.zero_le _

theorem isSome_of_gitPattern {takes : GitTakes} {val : Json} {pattern : Option GitWord}
    (read : gitPattern takes val = .ok pattern) : pattern.isSome = takes.pattern := by
  unfold gitPattern at read
  split at read
  · rename_i taken
    split at read
    · cases read
    · obtain rfl := Except.ok.inj read
      exact taken.symm
  · rename_i untaken
    split at read
    · obtain rfl := Except.ok.inj read
      simpa using untaken
    · cases read

/-- A call that is accepted, without help. -/
structure Accepted (call : GitCall) (opts : List GitArgWord) (pattern : Option GitWord)
    (paths : List GitWord) : Prop extends Composed call opts pattern paths where
  optionsMost : opts.length ≤ 16
  revisionsMost : call.revisions.length ≤ 4
  pathsMost : paths.length ≤ 32
  sought : pattern.isSome = call.command.takes.pattern
  files : paths ≠ [] → call.command.takes.files = true

theorem gitCallChecked_ok {of_ : GitArg → Json} {seen : GitArg → Bool}
    (listed : call.command ∈ gitCommands) (empty : call.argv = [])
    (none_ : call.revisions = []) (zero : call.nRoots = 0) (checked : gitCallChecked of_ seen call = .ok call') :
    ∃ opts pattern paths, Accepted call' opts pattern paths := by
  obtain ⟨options, few, checked⟩ := bind_eq_ok.mp checked
  obtain ⟨revisions, named, checked⟩ := bind_eq_ok.mp checked
  obtain ⟨paths, below, checked⟩ := bind_eq_ok.mp checked
  split at checked
  · cases checked
  · split at checked
    · cases checked
    · rename_i files
      obtain ⟨pattern, sought, checked⟩ := bind_eq_ok.mp checked
      split at checked
      · cases checked
      · obtain ⟨line, -, checked⟩ := bind_eq_ok.mp checked
        obtain ⟨count, -, checked⟩ := bind_eq_ok.mp checked
        obtain ⟨opts, composed, length, many, same⟩ :=
          gitCallArgv_ok (by exact listed) (by exact empty) (by exact none_) (by exact zero) checked
        have atMost := length_of_gitList named
        have limits : gitMost .revisions = 4 := rfl
        refine ⟨opts, pattern, paths, composed, ?_, ?_, ?_, ?_, ?_⟩
        · rw [length]
          exact length_of_gitList few
        · omega
        · exact length_of_gitList below
        · rw [same]
          exact isSome_of_gitPattern sought
        · intro some_
          rw [same]
          by_contra not_taken
          exact files ⟨some_, not_taken⟩

theorem gitCallCommand_ok {repos : List GitRepo} {args : Json} {call : GitCall}
    (accepted : gitCallCommand repos args = .ok call) (runs : call.phase ≠ .help) :
    ∃ opts pattern paths, Accepted call opts pattern paths := by
  obtain ⟨⟨of_, seen⟩, -, accepted⟩ := bind_eq_ok.mp accepted
  dsimp only at accepted
  split at accepted
  · cases accepted
  · split at accepted
    · split at accepted <;> cases accepted
    · rename_i command found
      have listed := mem_of_find?_eq_some found
      split at accepted
      · split at accepted
        · cases accepted
        · obtain rfl := Except.ok.inj accepted
          exact absurd rfl runs
      · exact gitCallChecked_ok (by exact listed) rfl rfl rfl accepted
      · split at accepted
        · cases accepted
        · exact gitCallChecked_ok (by exact listed) rfl rfl rfl accepted

end Askai
