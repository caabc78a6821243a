import Askai.Util.Text

/-!
# The commands of the git tool

What `git.c` lets a call run: its commands with their options, how an option is looked up, and what a
path may be.
-/

namespace Askai

open Library List

/-! ## Commands -/

/-- The bits of a command's `takes`. -/
structure GitTakes where
  files : Bool := false
  end_ : Bool := false
  pattern : Bool := false
  object : Bool := false
  range : Bool := false
  pair : Bool := false
  single : Bool := false
  lines : Bool := false

/-- An entry of `commands`. -/
structure GitCommand where
  name : Bytes
  options : List Bytes
  /-- Options askai gives it. -/
  forced : List Bytes := []
  takes : GitTakes

/-- `DISPLAY`. -/
def gitDisplay : List Bytes :=
  ["--oneline", "--stat", "--shortstat", "--numstat", "--name-only", "--name-status", "--patch", "-p",
    "--no-patch", "--abbrev-commit", "--format=", "--pretty=", "--date=", "--unified=", "-U#",
    "--word-diff", "-w", "--ignore-all-space", "-b", "--ignore-space-change", "--decorate",
    "--no-decorate", "--diff-filter=", "-M", "--find-renames"].map ascii

def logOptions : List Bytes :=
  gitDisplay ++ ["--graph", "--reverse", "--first-parent", "--no-merges", "--merges", "--follow",
    "--max-count=", "-n#", "--skip=", "--since=", "--until=", "--after=", "--before=", "--author=",
    "--committer=", "--grep=", "-i", "--regexp-ignore-case", "--all-match", "--invert-grep", "-E",
    "--extended-regexp", "-F", "--fixed-strings", "-S*", "-G*"].map ascii

def showOptions : List Bytes :=
  gitDisplay ++ [ascii "-s"]

def diffOptions : List Bytes :=
  gitDisplay

def grepOptions : List Bytes :=
  ["-n", "--line-number", "-i", "--ignore-case", "-w", "--word-regexp", "-v", "--invert-match", "-l",
    "--files-with-matches", "-L", "--files-without-match", "-c", "--count", "-E", "--extended-regexp",
    "-F", "--fixed-strings", "-P", "--perl-regexp", "-G", "--basic-regexp", "-h", "-H", "--full-name",
    "-o", "--only-matching", "-C#", "-A#", "-B#", "--context=", "--after-context=", "--before-context=",
    "--max-depth=", "--max-count=", "-m#", "--break", "--heading", "-p", "--show-function", "-W",
    "--function-context", "--all-match"].map ascii

def blameOptions : List Bytes :=
  ["-w", "-M", "-C", "-s", "-e", "-l", "-t", "-f", "--show-name", "--porcelain", "--line-porcelain",
    "--date=", "-L*", "--root", "--ignore-rev="].map ascii

def lsTreeOptions : List Bytes :=
  ["-r", "-t", "-d", "--name-only", "--name-status", "--object-only", "--long", "-l", "--full-name",
    "--full-tree", "--abbrev", "--abbrev=", "--format="].map ascii

def catFileOptions : List Bytes :=
  ["-t", "-s", "-p", "-e"].map ascii

def revParseOptions : List Bytes :=
  ["--short", "--short=", "--verify", "-q", "--quiet"].map ascii

def sourceOptions : List Bytes :=
  ["--cached", "--staged", "--untracked", "--no-index"].map ascii

/-- `commands`. -/
def gitCommands : List GitCommand :=
  [{ name := ascii "read", options := [], forced := [ascii "blob"]
     takes := { end_ := true, object := true, single := true, lines := true } },
   { name := ascii "log", options := logOptions, forced := ["--no-ext-diff", "--no-textconv"].map ascii
     takes := { files := true, end_ := true, range := true } },
   { name := ascii "show", options := showOptions, forced := ["--no-ext-diff", "--no-textconv"].map ascii
     takes := { files := true, end_ := true, object := true } },
   { name := ascii "diff", options := diffOptions, forced := ["--no-ext-diff", "--no-textconv"].map ascii
     takes := { files := true, end_ := true, range := true, pair := true } },
   { name := ascii "grep", options := grepOptions, forced := ["--no-textconv", "-n"].map ascii
     takes := { files := true, end_ := true, pattern := true } },
   { name := ascii "blame", options := blameOptions, forced := [ascii "--no-textconv"]
     takes := { files := true, single := true } },
   { name := ascii "ls-tree", options := lsTreeOptions
     takes := { files := true, single := true } },
   { name := ascii "cat-file", options := catFileOptions
     takes := { end_ := true, object := true, single := true } },
   { name := ascii "rev-parse", options := revParseOptions, forced := [ascii "--revs-only"]
     takes := {} }]

/-! ## Options -/

abbrev equals : UInt8 := 61
abbrev hash : UInt8 := 35
abbrev star : UInt8 := 42

/-- What `git_option_find` answers: the error is 0, `ENODATA`, `EINVAL` or `ENOENT`. -/
inductive GitOption where
  | accepted
  | missing (spelling : Bytes)
  | nondecimal (spelling : Bytes)
  | none
  deriving DecidableEq, Repr

/-- What an option is to one spelling. -/
def gitOptionMatch (spelling opt : Bytes) : GitOption :=
  let n := spelling.length
  let last := spelling.getD (n - 1) 0
  let exact_ := last ≠ equals ∧ last ≠ hash ∧ last ≠ star
  if (exact_ ∧ opt ≠ spelling) ∨ (¬exact_ ∧ (¬spelling.take (n - 1) <+: opt ∨
      (last = equals ∧ n ≤ opt.length ∧ opt.getD (n - 1) 0 ≠ equals))) then .none
  else
    let at_ := if last = equals then n else n - 1
    if opt.length ≤ at_ then .missing spelling
    else if last = hash ∧ ¬(opt.drop at_).all digit then .nondecimal spelling
    else .accepted

/-- The loop of `git_option_find`, with what it has found. -/
def gitOptionFind (found : GitOption) : List Bytes → Bytes → GitOption
  | [], _ => found
  | spelling :: allowed, opt =>
    match gitOptionMatch spelling opt with
    | .accepted => .accepted
    | .none => gitOptionFind found allowed opt
    | found => gitOptionFind found allowed opt

/-! ## Paths -/

/-- What follows the next slash, with the slash. -/
def pastComponent (p : Bytes) : Bytes :=
  p.dropWhile (· ≠ slash)

/-- A component `..` is next. -/
def parentNext (p : Bytes) : Bool :=
  ascii ".." <+: p && ((p.drop 2).head? = some slash || p.drop 2 = [])

/-- What follows a slash that is next, if one is. -/
def skipSlash : Bytes → Bytes
  | [] => []
  | c :: p => if c = slash then p else c :: p

theorem length_pastComponent_skipSlash {p : Bytes} (more : pastComponent (skipSlash p) ≠ []) :
    (pastComponent (skipSlash p)).length < p.length := by
  have shorter (p : Bytes) : (pastComponent p).length ≤ p.length := (dropWhile_suffix _).length_le
  cases p with
  | nil => exact absurd rfl more
  | cons c p =>
    rw [skipSlash]
    split
    · exact Nat.lt_succ_of_le (shorter p)
    · rename_i other
      rw [pastComponent, dropWhile_cons_of_pos (by simpa using other)]
      exact Nat.lt_succ_of_le (shorter p)

/-- The loop of `git_inside`. -/
def gitInsideFrom (p : Bytes) : Bool :=
  if parentNext (skipSlash p) then false
  else if _more : pastComponent (skipSlash p) = [] then true
  else gitInsideFrom (pastComponent (skipSlash p))
termination_by p.length
decreasing_by exact length_pastComponent_skipSlash _more

/-- `git_inside`. -/
def gitInside (path : Bytes) : Bool :=
  path.head? ≠ some slash && gitInsideFrom path

/-! ## What an option that is accepted looks like -/

/-- The option is the spelling as it is, or with a value as the spelling's end tells. -/
inductive Spells (spelling : Bytes) : Bytes → Prop
  | exact_ (plain : ∀ c ∈ [equals, hash, star], spelling.getLast? ≠ some c) : Spells spelling spelling
  | value {stem value : Bytes} (ends : spelling = stem ++ [equals]) (some_ : value ≠ []) :
      Spells spelling (spelling ++ value)
  | attached {stem value : Bytes} (ends : spelling = stem ++ [star]) (some_ : value ≠ []) :
      Spells spelling (stem ++ value)
  | digits {stem value : Bytes} (ends : spelling = stem ++ [hash]) (some_ : value ≠ [])
      (decimal : value.all digit = true) : Spells spelling (stem ++ value)

theorem special {last : UInt8} (not_plain : ¬(last ≠ equals ∧ last ≠ hash ∧ last ≠ star)) :
    last = equals ∨ last = hash ∨ last = star := by
  tauto

theorem spells_of_gitOptionMatch {spelling opt : Bytes}
    (accepted : gitOptionMatch spelling opt = .accepted) : Spells spelling opt := by
  unfold gitOptionMatch at accepted
  cases spelling using List.reverseRecOn with
  | nil =>
    by_cases same : opt = []
    · subst same
      exact absurd accepted (by decide)
    · rw [if_pos (.inl ⟨by decide, same⟩)] at accepted
      cases accepted
  | append_singleton stem last =>
    have ends : (stem ++ [last]).getD stem.length 0 = last := by
      simp [getD_eq_getElem?_getD]
    simp only [length_append, length_singleton, Nat.add_sub_cancel, ends, take_left] at accepted
    by_cases plain : last ≠ equals ∧ last ≠ hash ∧ last ≠ star
    · by_cases same : opt = stem ++ [last]
      · subst same
        apply Spells.exact_
        intro c mem
        rw [List.getLast?_concat]
        intro same
        obtain rfl := Option.some.inj same
        simp only [mem_cons, not_mem_nil, or_false] at mem
        tauto
      · rw [if_pos (.inl ⟨plain, same⟩)] at accepted
        cases accepted
    · by_cases start : stem <+: opt
      · obtain ⟨rest, rfl⟩ := start
        have next : (stem ++ rest).getD stem.length 0 = rest.getD 0 0 := by
          rw [getD_eq_getElem?_getD, List.getElem?_append_right (Nat.le_refl _), Nat.sub_self, getD_eq_getElem?_getD]
        rw [next, length_append] at accepted
        rcases special plain with rfl | rfl | rfl
        · cases rest with
          | nil => simp +decide at accepted
          | cons c value =>
            by_cases first : c = equals
            · subst first
              have some_ : value ≠ [] := by
                rintro rfl
                simp at accepted
              have whole : stem ++ equals :: value = (stem ++ [equals]) ++ value := by simp
              rw [whole]
              exact .value rfl some_
            · simp [first] at accepted
        · have some_ : rest ≠ [] := by
            rintro rfl
            simp +decide at accepted
          have decimal : rest.all digit = true := by
            by_contra other
            simp +decide [other, some_] at accepted
          exact .digits rfl some_ decimal
        · have some_ : rest ≠ [] := by
            rintro rfl
            simp +decide at accepted
          exact .attached rfl some_
      · rw [if_pos (.inr ⟨plain, .inl start⟩)] at accepted
        cases accepted

/-- An option that is found is spelled by one that is allowed. -/
theorem spells_of_gitOptionFind {found : GitOption} {allowed : List Bytes} {opt : Bytes}
    (unsettled : found ≠ .accepted) (accepted : gitOptionFind found allowed opt = .accepted) :
    ∃ spelling ∈ allowed, Spells spelling opt := by
  induction allowed generalizing found with
  | nil => exact absurd accepted unsettled
  | cons spelling allowed ih =>
    rw [gitOptionFind] at accepted
    have later {found : GitOption} (unsettled : found ≠ .accepted)
        (accepted : gitOptionFind found allowed opt = .accepted) :
        ∃ spelling' ∈ spelling :: allowed, Spells spelling' opt := by
      obtain ⟨spelling', mem, spells⟩ := ih unsettled accepted
      exact ⟨spelling', mem_cons_of_mem _ mem, spells⟩
    split at accepted
    · rename_i here
      exact ⟨spelling, mem_cons_self, spells_of_gitOptionMatch here⟩
    · exact later unsettled accepted
    · rename_i other _
      exact later other accepted

/-! ## What a path that is accepted looks like -/

/-- The path has no component `..`. -/
def Below (path : Bytes) : Prop :=
  ∀ front back, path = front ++ ascii ".." ++ back → front = [] ∨ front.getLast? = some slash →
    ¬(back = [] ∨ back.head? = some slash)

theorem parentNext_of_eq {back : Bytes} (ends : back = [] ∨ back.head? = some slash) :
    parentNext (ascii ".." ++ back) = true := by
  have two : (ascii "..").length = 2 := by decide
  rw [parentNext, ← two, drop_left]
  rcases ends with rfl | first
  · simp
  · simp [first]

theorem getLast?_slash_split {front : Bytes} (ends : front.getLast? = some slash) (rest : Bytes) :
    ∃ front', front = front.takeWhile (· ≠ slash) ++ front' ∧ front'.getLast? = some slash ∧
      pastComponent (front ++ rest) = front' ++ rest := by
  have there : slash ∈ front := mem_of_getLast? ends
  have left : front.dropWhile (· ≠ slash) ≠ [] := by
    intro none_
    exact absurd (dropWhile_eq_nil_iff.mp none_ slash there) (by simp)
  have whole := takeWhile_append_dropWhile (p := fun c => decide (c ≠ slash)) (l := front)
  refine ⟨front.dropWhile (· ≠ slash), whole.symm, ?_, ?_⟩
  · rw [← whole, List.getLast?_append_of_ne_nil _ left] at ends
    exact ends
  · rw [pastComponent, dropWhile_append, if_neg]
    simpa using left

/-- A component stays one when the slash before it is passed. -/
theorem skipSlash_component {p front back : Bytes} (cut : p = front ++ ascii ".." ++ back)
    (starts : front = [] ∨ front.getLast? = some slash) : ∃ front', skipSlash p = front' ++ ascii ".." ++ back ∧
      (front' = [] ∨ front'.getLast? = some slash) := by
  have dots : ascii ".." = [dot, dot] := by decide
  cases front with
  | nil =>
    refine ⟨[], ?_, .inl rfl⟩
    rw [cut, dots]
    rfl
  | cons c front =>
    by_cases first : c = slash
    · refine ⟨front, by rw [cut, first]; rfl, ?_⟩
      cases front with
      | nil => exact .inl rfl
      | cons d front =>
        rw [List.getLast?_cons_cons] at starts
        exact .inr (starts.resolve_left (cons_ne_nil _ _))
    · refine ⟨c :: front, ?_, starts⟩
      rw [cut]
      exact if_neg first

/-- The loop finds every component `..`. -/
theorem below_of_gitInsideFrom {p : Bytes} (inside : gitInsideFrom p = true) : Below p := by
  induction p using gitInsideFrom.induct with
  | case1 p next =>
    rw [gitInsideFrom, if_pos next] at inside
    cases inside
  | case2 p other last =>
    intro front back cut starts ends
    obtain ⟨front', cut', starts'⟩ := skipSlash_component cut starts
    rcases starts' with rfl | starts'
    · rw [cut', nil_append, parentNext_of_eq ends] at other
      exact other rfl
    · obtain ⟨front'', -, later, past⟩ := getLast?_slash_split starts' (ascii ".." ++ back)
      rw [cut', append_assoc, past] at last
      rw [(append_eq_nil_iff.mp last).1] at later
      cases later
  | case3 p other more ih =>
    rw [gitInsideFrom, if_neg other, dif_neg more] at inside
    intro front back cut starts ends
    obtain ⟨front', cut', starts'⟩ := skipSlash_component cut starts
    rcases starts' with rfl | starts'
    · rw [cut', nil_append, parentNext_of_eq ends] at other
      exact other rfl
    · obtain ⟨front'', -, later, past⟩ := getLast?_slash_split starts' (ascii ".." ++ back)
      rw [← append_assoc, ← cut', ← append_assoc] at past
      exact ih inside front'' back past (.inr later) ends

/-- A path that is accepted is relative, and below where it starts. -/
theorem below_of_gitInside {path : Bytes} (inside : gitInside path = true) : path.head? ≠ some slash ∧ Below path := by
  rw [gitInside, Bool.and_eq_true, decide_eq_true_eq] at inside
  exact ⟨inside.1, below_of_gitInsideFrom inside.2⟩

end Askai
