import Askai.Library.Search
import Askai.Util.Oid

/-!
# The history of the notes

The output of `git log -z --numstat`, read backwards (`notes_entry_before` of `notes.c`).
-/

namespace Askai

open Library List

/-- `struct notes_entry`, whose names and subjects are copies of what it borrows. -/
structure NotesEntry where
  name : Bytes
  subject : Bytes
  time : Nat
  lines : Nat
  commit : Oid
  deriving DecidableEq

/-- `struct notes_cursor`, whose `last` is `end`. -/
structure NotesCursor where
  subject : Bytes
  last : Nat
  first : Nat
  time : Nat
  commit : Oid

/-- `NOTES_BINARY`. -/
def notesBinary : Nat := 2 ^ 64 - 1

/-- `notes_token`. -/
def notesToken (s : Bytes) (end_ : Nat) : Nat :=
  match memrchr nul (s.take end_) with
  | some prev => prev + 1
  | none => 0

theorem notesToken_le (s : Bytes) (end_ : Nat) : notesToken s end_ ≤ end_ := by
  rw [notesToken]
  split
  · rename_i prev found
    have less := memrchr_lt found
    rw [length_take] at less
    omega
  · exact Nat.zero_le _

/-- The token from `token` on that ends before `end_`. -/
def notesText (s : Bytes) (token end_ : Nat) : Bytes :=
  (s.drop token).take (end_ - token)

/-- The loop of `notes_cursor_header`: the cursor, and whether there is a header. -/
def notesCursorHeader (out : Bytes) (cursor : NotesCursor) (before : Nat) : NotesCursor × Bool :=
  if _some : before = 0 then (cursor, false)
  else
    let token := notesToken out (before - 1)
    let text := notesText out token (before - 1)
    let digits := text.takeWhile (· ≠ space)
    match oidInitField (text.drop (digits.length + 1)) space with
    | none => notesCursorHeader out { cursor with commit := Oid.none } token
    | some (commit, subject) =>
      match utilNumber digits with
      | none =>
        notesCursorHeader out
          { cursor with
            commit := commit
            time := if digits = [] then cursor.time else (utilDigits digits (2 ^ 64 - 1) 0 0).2 } token
      | some time =>
        ({ cursor with commit := commit, time := time, subject := subject, first := before }, true)
termination_by before
decreasing_by
  all_goals
    have bound := notesToken_le out (before - 1)
    omega

/-- What `notes_entry_before` finds in a token: the name and the lines of a changed file. -/
def notesStat (token : Bytes) : Option (Bytes × Nat) :=
  let stat := if token.head? = some lf then token.drop 1 else token
  match cut tab stat with
  | none => none
  | some (digits, rest) =>
    match cut tab rest with
    | none => none
    | some (_, name) =>
      if name = [] then none
      else if digits = [45] then some (name, notesBinary)
      else (utilNumber digits).map fun lines => (name, lines)

/-- The loop of `notes_entry_before`. -/
def notesEntryLoop (out : Bytes) (cursor : NotesCursor) (end_ : Nat) : NotesCursor × Option NotesEntry :=
  if _some : end_ = 0 then ({ cursor with last := 0 }, none)
  else
    let stat := notesToken out (end_ - 1)
    match notesStat (notesText out stat (end_ - 1)) with
    | none => notesEntryLoop out { cursor with first := 0 } stat
    | some (name, lines) =>
      let (cursor, found) :=
        if cursor.first = 0 ∨ stat < cursor.first then notesCursorHeader out cursor stat else (cursor, true)
      if found then
        ({ cursor with last := stat },
          some { name := name, subject := cursor.subject, time := cursor.time, lines := lines,
                 commit := cursor.commit })
      else ({ cursor with last := 0 }, none)
termination_by end_
decreasing_by
  have bound := notesToken_le out (end_ - 1)
  omega

/-- `notes_entry_before`: the entry, none if it returns false. -/
def notesEntryBefore (out : Bytes) (cursor : NotesCursor) : NotesCursor × Option NotesEntry :=
  let end_ :=
    if cursor.last ≠ 0 ∧ out.getD (cursor.last - 1) nul ≠ nul then notesToken out cursor.last else cursor.last
  notesEntryLoop out cursor end_

variable {cursor : NotesCursor} {out : Bytes}

/-- A token that is no file's is passed over. -/
theorem notesEntryLoop_skip {end_ : Nat} (some_ : end_ ≠ 0)
    (other : notesStat (notesText out (notesToken out (end_ - 1)) (end_ - 1)) = none) :
    notesEntryLoop out cursor end_ = notesEntryLoop out { cursor with first := 0 } (notesToken out (end_ - 1)) := by
  rw [notesEntryLoop, dif_neg some_]
  simp only [other]

/-- The header that `notes_entry_before` takes for the file at `stat`, and whether there is one. -/
def notesHeaderAt (out : Bytes) (cursor : NotesCursor) (stat : Nat) : NotesCursor × Bool :=
  if cursor.first = 0 ∨ stat < cursor.first then notesCursorHeader out cursor stat else (cursor, true)

theorem notesEntryLoop_stat {end_ lines : Nat} {name : Bytes} (some_ : end_ ≠ 0)
    (read : notesStat (notesText out (notesToken out (end_ - 1)) (end_ - 1)) = some (name, lines)) :
    notesEntryLoop out cursor end_ =
      let header := notesHeaderAt out cursor (notesToken out (end_ - 1))
      if header.2 then
        ({ header.1 with last := notesToken out (end_ - 1) },
          some { name := name, subject := header.1.subject, time := header.1.time, lines := lines,
                 commit := header.1.commit })
      else ({ header.1 with last := 0 }, none) := by
  rw [notesEntryLoop, dif_neg some_]
  simp only [read]
  rfl

theorem notesEntryLoop_last {cursor cursor' : NotesCursor} {end_ : Nat} {entry : NotesEntry}
    (found : notesEntryLoop out cursor end_ = (cursor', some entry)) : cursor'.last < end_ := by
  induction end_ using Nat.strongRecOn generalizing cursor with
  | ind end_ ih =>
    rcases Nat.eq_zero_or_pos end_ with rfl | some_
    · rw [notesEntryLoop, dif_pos rfl] at found
      cases found
    · have bound := notesToken_le out (end_ - 1)
      cases read : notesStat (notesText out (notesToken out (end_ - 1)) (end_ - 1)) with
      | none =>
        rw [notesEntryLoop_skip some_.ne' read] at found
        have less := ih _ (by omega) found
        omega
      | some stat =>
        rw [notesEntryLoop_stat some_.ne' read] at found
        simp only [] at found
        split at found
        · cases found
          change notesToken out (end_ - 1) < end_
          omega
        · cases found

theorem notesEntryBefore_last {cursor cursor' : NotesCursor} {entry : NotesEntry}
    (found : notesEntryBefore out cursor = (cursor', some entry)) : cursor'.last < cursor.last := by
  have less := notesEntryLoop_last found
  have bound := notesToken_le out cursor.last
  split at less <;> omega

/-- The entries of the calls of `notes_entry_before` until it returns false. -/
def notesEntries (out : Bytes) (cursor : NotesCursor) : List NotesEntry :=
  match _found : notesEntryBefore out cursor with
  | (_, none) => []
  | (cursor', some entry) => entry :: notesEntries out cursor'
termination_by cursor.last
decreasing_by exact notesEntryBefore_last _found

/-! ## What git writes -/

/-- The lines that a change adds to a file or removes from it; none if git sees no text in it. -/
abbrev LineCount := Option UInt64

/-- A count of git's. -/
def LineCount.text : LineCount → Bytes
  | none => [45]
  | some n => utilDecimal n.toNat

/-- A changed file. -/
structure NumStat where
  added : LineCount
  removed : LineCount
  name : Bytes
  some_ : name ≠ []
  noNul : nul ∉ name

/-- A commit of the history. -/
structure HistoryCommit where
  time : UInt64
  commit : Oid
  named : oidLen commit ≠ 0
  subject : Bytes
  noNul : nul ∉ subject
  files : List NumStat

/-- The token of a changed file. -/
def NumStat.token (file : NumStat) : Bytes :=
  LineCount.text file.added ++ tab :: (LineCount.text file.removed ++ tab :: file.name)

/-- The entry of a changed file. -/
def NumStat.entry (c : HistoryCommit) (file : NumStat) : NotesEntry where
  name := file.name
  subject := c.subject
  time := c.time.toNat
  lines := match file.added with
    | none => notesBinary
    | some n => n.toNat
  commit := c.commit

namespace HistoryCommit

/-- The token of a commit. -/
def header (c : HistoryCommit) : Bytes :=
  utilDecimal c.time.toNat ++ space :: (c.commit.hex ++ space :: c.subject)

/-- The tokens of the files of a commit, each with its entry. -/
def stats (c : HistoryCommit) : List (Bytes × Option NotesEntry) :=
  match c.files with
  | [] => []
  | file :: files =>
    (lf :: file.token, some (file.entry c)) :: files.map fun file => (file.token, some (file.entry c))

/-- The tokens of a commit. -/
def tokens (c : HistoryCommit) : List (Bytes × Option NotesEntry) :=
  (c.header, none) :: c.stats

end HistoryCommit

/-- Tokens, each with its NUL. -/
def laid (tokens : List (Bytes × Option NotesEntry)) : Bytes :=
  tokens.flatMap fun token => token.1 ++ [nul]

/-- What git writes of commits. -/
def gitHistory (commits : List HistoryCommit) : Bytes :=
  laid (commits.flatMap HistoryCommit.tokens)

/-- The entries of the tokens that are whole in the first `n` bytes. -/
def wholeEntries : List (Bytes × Option NotesEntry) → Nat → List NotesEntry
  | [], _ => []
  | (token, entry) :: tokens, n =>
    if token.length + 1 ≤ n then entry.toList ++ wholeEntries tokens (n - (token.length + 1)) else []

/-! ## Numbers -/

theorem digits_utilDecimal (n : Nat) : ∀ c ∈ utilDecimal n, digit c = true := by
  have one : ∀ d < 10, digit (UInt8.ofNat (48 + d)) = true := by decide
  rw [utilDecimal]
  split
  · simp only [forall_mem_singleton]
    decide
  · intro c member
    obtain ⟨d, few, rfl⟩ := mem_map.mp member
    exact one d (Nat.digits_lt_base (by omega) (mem_reverse.mp few))

theorem utilDecimal_ne_nil (n : Nat) : utilDecimal n ≠ [] := by
  rw [utilDecimal]
  split
  · simp
  · rename_i some_
    rw [ne_eq, map_eq_nil_iff, reverse_eq_nil_iff]
    exact Nat.digits_ne_nil_iff_ne_zero.mpr some_

theorem foldl_utilDecimal (n : Nat) : (utilDecimal n).foldl (fun n c => n * 10 + (c.toNat - 48)) 0 = n := by
  rw [utilDecimal]
  split
  · rename_i zero
    rw [zero]
    rfl
  · rw [foldl_digits _ fun d few => Nat.digits_lt_base (by omega) few, Nat.ofDigits_digits]

theorem le_foldl_digits (s : Bytes) (value : Nat) : value ≤ s.foldl (fun n c => n * 10 + (c.toNat - 48)) value := by
  induction s generalizing value with
  | nil => exact Nat.le_refl _
  | cons c s ih =>
    have more := ih (value * 10 + (c.toNat - 48))
    rw [foldl_cons]
    omega

/-- Digits whose number fits are all read. -/
theorem utilDigits_eq {s : Bytes} (digits : ∀ c ∈ s, digit c = true) {max i value : Nat}
    (fits : s.foldl (fun n c => n * 10 + (c.toNat - 48)) value ≤ max) :
    utilDigits s max i value = (i + s.length, s.foldl (fun n c => n * 10 + (c.toNat - 48)) value) := by
  induction s generalizing i value with
  | nil => rfl
  | cons c s ih =>
    obtain ⟨first, rest⟩ := forall_mem_cons.mp digits
    have least := le_foldl_digits s (value * 10 + (c.toNat - 48))
    rw [foldl_cons] at fits
    have room : ¬ (max < c.toNat - 48 || (max - (c.toNat - 48)) / 10 < value) = true := by
      simp only [Bool.or_eq_true, decide_eq_true_eq]
      omega
    rw [utilDigits, if_pos first]
    simp only [if_neg room, ih rest fits, length_cons, foldl_cons]
    rw [Nat.add_assoc, Nat.add_comm 1]

/-- A number is read as it was written. -/
theorem utilNumber_utilDecimal {n : Nat} (fits : n < 2 ^ 64) : utilNumber (utilDecimal n) = some n := by
  have value := foldl_utilDecimal n
  rw [utilNumber, utilDigits_eq (digits_utilDecimal n) (by omega), value]
  simp only [Nat.zero_add]
  exact if_pos ⟨utilDecimal_ne_nil n, trivial⟩

/-- `util_digits` reads digits, or nothing. -/
theorem utilDigits_fst (s : Bytes) (max i value : Nat) :
    (utilDigits s max i value).1 = 0 ∨ (utilDigits s max i value).1 = i + (s.takeWhile digit).length := by
  induction s generalizing i value with
  | nil => exact .inr rfl
  | cons c s ih =>
    rw [utilDigits]
    split
    · rename_i first
      simp only []
      split
      · exact .inl rfl
      · rw [takeWhile_cons_of_pos first, length_cons]
        exact (ih (i + 1) _).imp_right fun same => by omega
    · rename_i first
      rw [takeWhile_cons_of_neg first]
      exact .inr rfl

/-- What is no digit stops `util_number`. -/
theorem utilNumber_eq_none {s : Bytes} {c : UInt8} (member : c ∈ s) (other : digit c = false) :
    utilNumber s = none := by
  have front := takeWhile_prefix digit (l := s)
  have short : (s.takeWhile digit).length < s.length := by
    apply lt_of_le_of_ne front.length_le
    intro same
    rw [← front.eq_of_length same] at member
    rw [mem_takeWhile_imp member] at other
    cases other
  rw [utilNumber]
  simp only []
  rw [if_neg]
  rintro ⟨-, all⟩
  rcases utilDigits_fst s (2 ^ 64 - 1) 0 0 with none_ | some_ <;> omega

/-! ## Tokens -/

/-- Nothing, or what ends with a NUL. -/
def Ended (base : Bytes) : Prop :=
  base = [] ∨ ∃ front, base = front ++ [nul]

theorem notesToken_eq {base t : Bytes} (ended : Ended base) (whole : nul ∉ t) (rest : Bytes) :
    notesToken (base ++ (t ++ rest)) (base.length + t.length) = base.length := by
  rw [notesToken, ← append_assoc, ← length_append, take_left]
  rcases ended with rfl | ⟨front, rfl⟩
  · rw [nil_append, memrchr_eq_none.mpr whole, length_nil]
  · rw [append_assoc, singleton_append, memrchr_append front whole, length_append]
    rfl

theorem notesText_eq (base t rest : Bytes) :
    notesText (base ++ (t ++ rest)) base.length (base.length + t.length) = t := by
  rw [notesText, drop_left, Nat.add_sub_cancel_left, take_left]

theorem ended_laid (tokens : List (Bytes × Option NotesEntry)) : Ended (laid tokens) := by
  induction tokens using List.reverseRecOn with
  | nil => exact .inl rfl
  | append_singleton tokens token ih =>
    refine .inr ⟨laid tokens ++ token.1, ?_⟩
    rw [laid, flatMap_append, flatMap_singleton, append_assoc]
    rfl

/-! ## Files and headers -/

theorem digit_ne {c d : UInt8} (digits : digit c = true) (other : digit d = false) : c ≠ d := by
  rintro rfl
  rw [digits] at other
  cases other

theorem tab_notMem_count (count : LineCount) : tab ∉ LineCount.text count := by
  cases count with
  | none => decide
  | some n => exact fun member => digit_ne (digits_utilDecimal _ _ member) (by decide) rfl

theorem lf_notMem_count (count : LineCount) : (LineCount.text count).head? ≠ some lf := by
  cases count with
  | none => decide
  | some n =>
    intro first
    exact digit_ne (digits_utilDecimal _ _ (mem_of_head? first)) (by decide) rfl

/-- A changed file is read as it was written. -/
theorem notesStat_token (c : HistoryCommit) (file : NumStat) :
    notesStat file.token = some ((file.entry c).name, (file.entry c).lines) ∧
      notesStat (lf :: file.token) = some ((file.entry c).name, (file.entry c).lines) := by
  have plain : ¬ file.token.head? = some lf := by
    have first := lf_notMem_count file.added
    cases count : LineCount.text file.added with
    | nil =>
      rw [NumStat.token, count]
      exact fun same => absurd (Option.some.inj same) (by decide)
    | cons b rest =>
      rw [count] at first
      rw [NumStat.token, count]
      exact first
  have read : ∀ token : Bytes, (if token.head? = some lf then token.drop 1 else token) = file.token →
      notesStat token = some ((file.entry c).name, (file.entry c).lines) := by
    intro token same
    rw [notesStat, same, NumStat.token]
    simp only [cut_append _ (tab_notMem_count file.added), cut_append _ (tab_notMem_count file.removed)]
    rw [if_neg file.some_, NumStat.entry]
    cases added : file.added with
    | none => exact if_pos rfl
    | some n =>
      have other : ¬ LineCount.text (some n) = [45] := by
        intro same
        change utilDecimal n.toNat = [45] at same
        exact absurd (digits_utilDecimal n.toNat 45 (same ▸ mem_singleton_self _)) (by decide)
      refine (if_neg other).trans ?_
      change (utilNumber (utilDecimal n.toNat)).map _ = _
      rw [utilNumber_utilDecimal n.toNat_lt]
      rfl
  exact ⟨read _ (if_neg plain), read _ (if_pos rfl)⟩

/-- A header is no changed file. -/
theorem notesStat_header (c : HistoryCommit) : notesStat c.header = none := by
  have first : ¬ c.header.head? = some lf := by
    cases number : utilDecimal c.time.toNat with
    | nil => exact absurd number (utilDecimal_ne_nil _)
    | cons b rest =>
      rw [HistoryCommit.header, number]
      intro same
      obtain rfl := Option.some.inj same
      exact absurd (digits_utilDecimal c.time.toNat lf (number ▸ mem_cons_self)) (by decide)
  have before : ∀ digits rest, c.header = digits ++ tab :: rest → space ∈ digits := by
    intro digits rest same
    rcases append_eq_append_iff.mp same with ⟨more, rfl, back⟩ | ⟨more, number, back⟩
    · cases more with
      | nil => exact absurd (List.cons.inj back).1 (by decide)
      | cons b more =>
        obtain rfl := (List.cons.inj back).1
        exact mem_append_right _ mem_cons_self
    · cases more with
      | nil => exact absurd (List.cons.inj back).1 (by decide)
      | cons b more =>
        obtain rfl := (List.cons.inj back).1
        have member : tab ∈ utilDecimal c.time.toNat := by
          rw [number]
          exact mem_append_right _ mem_cons_self
        exact absurd (digits_utilDecimal _ _ member) (by decide)
  rw [notesStat, if_neg first]
  split
  · rfl
  · rename_i digits rest found
    have member := before digits rest (cut_eq_some.mp found).1
    split
    · rfl
    · split
      · rfl
      · rw [if_neg, utilNumber_eq_none member (by decide)]
        · rfl
        · rintro rfl
          exact absurd member (by decide)

/-- A name is read as it was written before a byte that is no digit of it. -/
theorem oidInitField_append {oid : Oid} (named : oidLen oid ≠ 0) {end_ : UInt8} (other : utilIsHex [end_] = false)
    (rest : Bytes) : oidInitField (oid.hex ++ end_ :: rest) end_ = some (oid, rest) := by
  have valid := Oid.valid_of_ne named
  obtain ⟨length, digits⟩ := oidValid_iff.mp valid
  have n : (if 40 < (oid.hex ++ end_ :: rest).length ∧ (oid.hex ++ end_ :: rest)[40]? = some end_ then 40
      else if 64 < (oid.hex ++ end_ :: rest).length ∧ (oid.hex ++ end_ :: rest)[64]? = some end_ then 64
      else 0) = oid.hex.length := by
    have last : (oid.hex ++ end_ :: rest)[oid.hex.length]? = some end_ := by
      rw [List.getElem?_append_right (Nat.le_refl _), Nat.sub_self]
      rfl
    have long : oid.hex.length < (oid.hex ++ end_ :: rest).length := by
      rw [length_append, length_cons]
      omega
    rcases length with sha1 | sha256
    · rw [sha1] at last long ⊢
      exact if_pos ⟨long, last⟩
    · rw [sha256] at last long ⊢
      rw [if_neg, if_pos ⟨long, last⟩]
      rintro ⟨-, here⟩
      rw [List.getElem?_append_left (by omega)] at here
      have hex := all_eq_true.mp digits end_ (mem_of_getElem? here)
      rw [utilIsHex, all_cons, all_nil, Bool.and_true, hex] at other
      cases other
  rw [oidInitField, n, take_left, drop_add_one_eq_tail_drop, drop_left]
  rw [oidInit_eq_some.mpr ⟨rfl, valid⟩]
  rfl

theorem takeWhile_append_cons {p : UInt8 → Bool} {front : Bytes} {b : UInt8} (all : ∀ c ∈ front, p c = true)
    (stops : p b = false) (back : Bytes) : (front ++ b :: back).takeWhile p = front := by
  rw [takeWhile_append_of_pos all, takeWhile_cons_of_neg (by rw [stops]; nofun), append_nil]

/-- Before a token whose first bytes are no number the search for a header goes on. -/
theorem notesCursorHeader_skip {before : Nat} (some_ : before ≠ 0)
    (other : utilNumber ((notesText out (notesToken out (before - 1)) (before - 1)).takeWhile (· ≠ space)) = none) :
    ∃ commit time, notesCursorHeader out cursor before =
      notesCursorHeader out { cursor with commit := commit, time := time } (notesToken out (before - 1)) := by
  rw [notesCursorHeader, dif_neg some_]
  simp only []
  split
  · exact ⟨_, _, rfl⟩
  · rw [other]
    exact ⟨_, _, rfl⟩

/-- The header of a commit is read as it was written. -/
theorem notesCursorHeader_header {before : Nat} (some_ : before ≠ 0)
    {c : HistoryCommit} (here : notesText out (notesToken out (before - 1)) (before - 1) = c.header) :
    notesCursorHeader out cursor before =
      ({ cursor with commit := c.commit, time := c.time.toNat, subject := c.subject, first := before }, true) := by
  have digits : c.header.takeWhile (· ≠ space) = utilDecimal c.time.toNat := by
    apply takeWhile_append_cons
    · intro d member
      rw [decide_eq_true_iff]
      exact digit_ne (digits_utilDecimal _ _ member) (by decide)
    · decide
  have rest : c.header.drop ((utilDecimal c.time.toNat).length + 1) = c.commit.hex ++ space :: c.subject := by
    rw [HistoryCommit.header, drop_add_one_eq_tail_drop, drop_left]
    rfl
  have name : oidInitField (c.commit.hex ++ space :: c.subject) space = some (c.commit, c.subject) :=
    oidInitField_append c.named (by decide) _
  rw [notesCursorHeader, dif_neg some_]
  simp only [here, digits, rest, name, utilNumber_utilDecimal c.time.toNat_lt]

/-- The first bytes of a changed file are no number. -/
theorem utilNumber_token (file : NumStat) : utilNumber (file.token.takeWhile (· ≠ space)) = none ∧
      utilNumber ((lf :: file.token).takeWhile (· ≠ space)) = none := by
  have count : ∀ d ∈ LineCount.text file.added, (decide (d ≠ space)) = true := by
    cases file.added with
    | none => exact all_eq_true.mp (by decide)
    | some n =>
      intro d member
      rw [decide_eq_true_iff]
      exact digit_ne (digits_utilDecimal _ _ member) (by decide)
  have member : tab ∈ file.token.takeWhile (· ≠ space) := by
    rw [NumStat.token, takeWhile_append_of_pos count, takeWhile_cons_of_pos (by decide)]
    exact mem_append_right _ mem_cons_self
  apply And.intro (utilNumber_eq_none member (by decide))
  rw [takeWhile_cons_of_pos (by decide)]
  exact utilNumber_eq_none (mem_cons_of_mem _ member) (by decide)

theorem nul_notMem_count (count : LineCount) : nul ∉ LineCount.text count := by
  cases count with
  | none => decide
  | some n => exact fun member => digit_ne (digits_utilDecimal _ _ member) (by decide) rfl

theorem nul_notMem_token (file : NumStat) : nul ∉ file.token := by
  simp only [NumStat.token, mem_append, mem_cons, not_or]
  exact ⟨nul_notMem_count _, by decide, nul_notMem_count _, by decide, file.noNul⟩

theorem nul_notMem_header (c : HistoryCommit) : nul ∉ c.header := by
  have hex : nul ∉ c.commit.hex := by
    intro member
    have digits := (oidValid_iff.mp (Oid.valid_of_ne c.named)).2
    have here := all_eq_true.mp digits nul member
    revert here
    decide
  simp only [HistoryCommit.header, mem_append, mem_cons, not_or]
  exact ⟨fun member => digit_ne (digits_utilDecimal _ _ member) (by decide) rfl, by decide, hex, by decide, c.noNul⟩

/-- The token of a changed file of a commit. -/
structure IsStat (c : HistoryCommit) (token : Bytes × Option NotesEntry) : Prop where
  read : ∃ file : NumStat, token.2 = some (file.entry c) ∧
    notesStat token.1 = some ((file.entry c).name, (file.entry c).lines)
  noHeader : utilNumber (token.1.takeWhile (· ≠ space)) = none
  noNul : nul ∉ token.1

theorem HistoryCommit.isStat (c : HistoryCommit) : ∀ token ∈ c.stats, IsStat c token := by
  have plain : ∀ file : NumStat, IsStat c (file.token, some (file.entry c)) := fun file =>
    ⟨⟨file, rfl, (notesStat_token c file).1⟩, (utilNumber_token file).1, nul_notMem_token file⟩
  rw [HistoryCommit.stats]
  split
  · nofun
  · rename_i file files _
    rw [forall_mem_cons]
    constructor
    · refine ⟨⟨file, rfl, (notesStat_token c file).2⟩, (utilNumber_token file).2, ?_⟩
      rw [mem_cons, not_or]
      exact ⟨by decide, nul_notMem_token file⟩
    · intro token member
      obtain ⟨file, -, rfl⟩ := mem_map.mp member
      exact plain file

/-! ## The cursor -/

theorem laid_append (tokens more : List (Bytes × Option NotesEntry)) : laid (tokens ++ more) = laid tokens ++ laid more :=
  flatMap_append

theorem laid_cons (token : Bytes × Option NotesEntry) (tokens : List (Bytes × Option NotesEntry)) :
    laid (token :: tokens) = token.1 ++ nul :: laid tokens := by
  rw [laid, flatMap_cons, append_assoc]
  rfl

theorem Ended.laid {base : Bytes} (ended : Ended base) (tokens : List (Bytes × Option NotesEntry)) :
    Ended (base ++ laid tokens) := by
  rcases ended_laid tokens with none_ | ⟨front, some_⟩
  · rwa [none_, append_nil]
  · exact .inr ⟨base ++ front, by rw [some_, append_assoc]⟩

/-- Where a token is between NULs. -/
theorem token_here {out base t rest : Bytes} (ended : Ended base) (whole : nul ∉ t)
    (same : out = base ++ (t ++ nul :: rest)) : notesToken out (base.length + (t.length + 1) - 1) = base.length ∧
      notesText out (notesToken out (base.length + (t.length + 1) - 1)) (base.length + (t.length + 1) - 1) = t := by
  have token : notesToken out (base.length + (t.length + 1) - 1) = base.length := by
    rw [same]
    exact notesToken_eq ended whole _
  rw [token, same]
  exact ⟨rfl, notesText_eq base t _⟩

theorem laid_concat (base : Bytes) (tokens : List (Bytes × Option NotesEntry)) (last : Bytes × Option NotesEntry)
    (rest : Bytes) : base ++ (laid (tokens ++ [last]) ++ rest) = (base ++ laid tokens) ++ (last.1 ++ nul :: rest) := by
  have one : laid [last] = last.1 ++ [nul] := flatMap_singleton ..
  simp only [laid_append, one, append_assoc, singleton_append]

theorem length_laid_append (base : Bytes) (tokens : List (Bytes × Option NotesEntry)) (last : Bytes × Option NotesEntry) :
    base.length + (laid (tokens ++ [last])).length = (base ++ laid tokens).length + (last.1.length + 1) := by
  rw [laid_append, laid_cons, length_append, length_append, length_append, Nat.add_assoc]
  rfl

/-- The cursor has what the header of the commit says, whose files begin at `first`. -/
structure Headed (c : HistoryCommit) (first : Nat) (cursor : NotesCursor) : Prop where
  first : cursor.first = first
  commit : cursor.commit = c.commit
  time : cursor.time = c.time.toNat
  subject : cursor.subject = c.subject

/-- The header before files of a commit is found. -/
theorem notesCursorHeader_stats {out base rest : Bytes} {c : HistoryCommit}
    {stats : List (Bytes × Option NotesEntry)} (ended : Ended base) (all : ∀ token ∈ stats, IsStat c token)
    (same : out = base ++ (laid ((c.header, none) :: stats) ++ rest)) (cursor : NotesCursor) :
    ∃ cursor', notesCursorHeader out cursor (base.length + (laid ((c.header, none) :: stats)).length) =
      (cursor', true) ∧ Headed c (base.length + (c.header.length + 1)) cursor' := by
  induction stats using List.reverseRecOn generalizing cursor rest with
  | nil =>
    rw [laid_cons, append_assoc] at same
    obtain ⟨-, text⟩ := token_here ended (nul_notMem_header c) same
    have here : (laid [(c.header, none)]).length = c.header.length + 1 := by
      rw [laid_cons, length_append]
      rfl
    rw [here, notesCursorHeader_header (by omega) text]
    exact ⟨_, rfl, rfl, rfl, rfl, rfl⟩
  | append_singleton stats last ih =>
    obtain ⟨before, one⟩ := forall_mem_append.mp all
    have stat := one last (mem_singleton_self _)
    have split_ : out = (base ++ laid ((c.header, none) :: stats)) ++ (last.1 ++ nul :: rest) := by
      rw [same, ← cons_append, laid_concat]
    obtain ⟨token, text⟩ := token_here (ended.laid _) stat.noNul split_
    rw [← cons_append, length_laid_append]
    have noHeader := stat.noHeader
    rw [← text] at noHeader
    have some_ : (base ++ laid ((c.header, none) :: stats)).length + (last.1.length + 1) ≠ 0 := by omega
    obtain ⟨commit, time, skip⟩ : ∃ commit time, notesCursorHeader out cursor _ = notesCursorHeader out _ _ :=
      notesCursorHeader_skip some_ noHeader
    rw [skip, token, length_append]
    exact ih before (by rw [split_, append_assoc]) _

/-- The entries of the loop at `end_` and of the calls after it. -/
def entriesAt (out : Bytes) (cursor : NotesCursor) (end_ : Nat) : List NotesEntry :=
  match notesEntryLoop out cursor end_ with
  | (_, none) => []
  | (cursor', some entry) => entry :: notesEntries out cursor'

theorem notesEntries_eq (out : Bytes) (cursor : NotesCursor) : notesEntries out cursor = entriesAt out cursor
      (if cursor.last ≠ 0 ∧ out.getD (cursor.last - 1) nul ≠ nul then notesToken out cursor.last
        else cursor.last) := by
  rw [notesEntries]
  split
  all_goals
    rename_i found
    rw [notesEntryBefore] at found
    rw [entriesAt, found]

/-- After a NUL, a call begins where the last one ended. -/
theorem notesEntries_ended {out base rest : Bytes} (ended : Ended base) (same : out = base ++ rest)
    (here : cursor.last = base.length) : notesEntries out cursor = entriesAt out cursor base.length := by
  rw [notesEntries_eq, here, if_neg]
  rintro ⟨some_, other⟩
  rcases ended with rfl | ⟨front, rfl⟩
  · exact some_ rfl
  · apply other
    rw [same, length_append, length_singleton, Nat.add_sub_cancel, getD_eq_getElem?_getD,
      append_assoc, List.getElem?_append_right (Nat.le_refl _), Nat.sub_self]
    rfl

/-- The calls give the files of a commit from the last to the first, and go on before its header. -/
theorem entriesAt_stats {out base rest : Bytes} {c : HistoryCommit}
    {stats : List (Bytes × Option NotesEntry)} (ended : Ended base) (all : ∀ token ∈ stats, IsStat c token)
    (same : out = base ++ (laid ((c.header, none) :: stats) ++ rest))
    (known : cursor.first = 0 ∨ Headed c (base.length + (c.header.length + 1)) cursor) : ∃ cursor', cursor'.first = 0 ∧
      entriesAt out cursor (base.length + (laid ((c.header, none) :: stats)).length) =
        (stats.filterMap (·.2)).reverse ++ entriesAt out cursor' base.length := by
  induction stats using List.reverseRecOn generalizing cursor rest with
  | nil =>
    rw [laid_cons, append_assoc] at same
    obtain ⟨token, text⟩ := token_here ended (nul_notMem_header c) same
    have here : (laid [(c.header, none)]).length = c.header.length + 1 := by
      rw [laid_cons, length_append]
      rfl
    refine ⟨{ cursor with first := 0 }, rfl, ?_⟩
    rw [here, entriesAt, notesEntryLoop_skip (by omega) (by rw [text, notesStat_header]), token]
    rfl
  | append_singleton stats last ih =>
    obtain ⟨before, one⟩ := forall_mem_append.mp all
    have stat := one last (mem_singleton_self _)
    obtain ⟨file, entry, read⟩ := stat.read
    have split_ : out = (base ++ laid ((c.header, none) :: stats)) ++ (last.1 ++ nul :: rest) := by
      rw [same, ← cons_append, laid_concat]
    obtain ⟨token, text⟩ := token_here (ended.laid _) stat.noNul split_
    have at_ : base.length + (c.header.length + 1) ≤ (base ++ laid ((c.header, none) :: stats)).length := by
      simp only [length_append, laid_cons, length_cons]
      omega
    rw [← cons_append, length_laid_append, entriesAt, notesEntryLoop_stat (by omega) (by rw [text, read]), token]
    obtain ⟨found, header, headed⟩ : ∃ found,
        notesHeaderAt out cursor (base ++ laid ((c.header, none) :: stats)).length = (found, true) ∧
          Headed c (base.length + (c.header.length + 1)) found := by
      rw [notesHeaderAt]
      split
      · rw [length_append]
        exact notesCursorHeader_stats ended before (by rw [split_, append_assoc]) cursor
      · rename_i cached
        rcases known with none_ | headed
        · exact absurd (.inl none_) cached
        · exact ⟨cursor, rfl, headed⟩
    rw [header]
    simp only [if_true]
    have next : Headed c (base.length + (c.header.length + 1))
        { found with last := (base ++ laid ((c.header, none) :: stats)).length } :=
      ⟨headed.first, headed.commit, headed.time, headed.subject⟩
    obtain ⟨cursor', zero, rest_⟩ := ih before (by rw [split_, append_assoc]) (.inr next)
    refine ⟨cursor', zero, ?_⟩
    rw [← length_append] at rest_
    rw [notesEntries_ended (ended.laid _) split_ rfl, rest_, filterMap_append, reverse_append]
    simp only [filterMap_cons, entry, filterMap_nil, reverse_singleton, cons_append,
      headed.commit, headed.time, headed.subject]
    rfl

/-- The calls give the files of commits from the last to the first. -/
theorem entriesAt_commits (commits : List HistoryCommit) {out rest : Bytes}
    (same : out = gitHistory commits ++ rest) (none_ : cursor.first = 0) :
    entriesAt out cursor (gitHistory commits).length =
      ((commits.flatMap HistoryCommit.tokens).filterMap (·.2)).reverse := by
  induction commits using List.reverseRecOn generalizing rest cursor with
  | nil =>
    change entriesAt out cursor 0 = []
    rw [entriesAt, notesEntryLoop, dif_pos rfl]
  | append_singleton commits c ih =>
    have whole : gitHistory (commits ++ [c]) = gitHistory commits ++ laid c.tokens := by
      rw [gitHistory, flatMap_append, flatMap_singleton, laid_append]
      rfl
    rw [whole, append_assoc] at same
    obtain ⟨cursor', zero, entries⟩ := entriesAt_stats (ended_laid _) c.isStat same (.inl none_)
    rw [whole, length_append, HistoryCommit.tokens]
    refine entries.trans ?_
    rw [flatMap_append, flatMap_singleton, filterMap_append, reverse_append, HistoryCommit.tokens, filterMap_cons]
    exact congrArg _ (ih same zero)

/-! ## Cuts -/

theorem nul_notMem_tokens {commits : List HistoryCommit} :
    ∀ token ∈ commits.flatMap HistoryCommit.tokens, nul ∉ token.1 := by
  intro token member
  obtain ⟨c, -, inside⟩ := mem_flatMap.mp member
  rcases mem_cons.mp inside with rfl | stat
  · exact nul_notMem_header c
  · exact (c.isStat token stat).noNul

/-- A cut leaves whole tokens and a part of one. -/
theorem take_laid {tokens : List (Bytes × Option NotesEntry)} (whole : ∀ token ∈ tokens, nul ∉ token.1) (n : Nat) :
    ∃ k piece, (laid tokens).take n = laid (tokens.take k) ++ piece ∧ nul ∉ piece ∧
      wholeEntries tokens n = (tokens.take k).filterMap (·.2) := by
  induction tokens generalizing n with
  | nil =>
    refine ⟨0, [], ?_, nofun, rfl⟩
    rw [take_nil, append_nil]
    exact take_nil
  | cons token tokens ih =>
    obtain ⟨first, rest⟩ := forall_mem_cons.mp whole
    rcases Nat.lt_or_ge n (token.1.length + 1) with short | long
    · refine ⟨0, token.1.take n, ?_, fun member => first (mem_of_mem_take member), ?_⟩
      · rw [laid_cons, take_append_of_le_length (Nat.le_of_lt_succ short)]
        rfl
      · rw [wholeEntries, if_neg (Nat.not_le.mpr short)]
        rfl
    · obtain ⟨k, piece, same, free, entries⟩ := ih rest (n - (token.1.length + 1))
      refine ⟨k + 1, piece, ?_, free, ?_⟩
      · rw [laid_cons, ← singleton_append, ← append_assoc, take_append,
          take_of_length_le (by simpa using long), length_append, length_singleton, same,
          take_succ_cons, laid_cons, append_assoc, append_assoc]
        rfl
      · rw [wholeEntries, if_pos long, entries, take_succ_cons, filterMap_cons]
        cases token.2 <;> rfl

theorem HistoryCommit.tokens_take (c : HistoryCommit) (j : Nat) :
    ({ c with files := c.files.take j } : HistoryCommit).tokens = c.tokens.take (j + 1) := by
  rw [tokens, tokens, take_succ_cons]
  cases j with
  | zero => rfl
  | succ j =>
    cases files : c.files with
    | nil => simp only [stats, files, take_nil]; rfl
    | cons file files' =>
      simp only [stats, files, take_succ_cons, ← map_take]
      rfl

/-- The first tokens of commits are the tokens of commits. -/
theorem take_tokens (commits : List HistoryCommit) (k : Nat) :
    ∃ before : List HistoryCommit, (commits.flatMap HistoryCommit.tokens).take k =
      before.flatMap HistoryCommit.tokens := by
  induction commits generalizing k with
  | nil => exact ⟨[], take_nil⟩
  | cons c commits ih =>
    rcases Nat.lt_or_ge c.tokens.length k with long | short
    · obtain ⟨before, same⟩ := ih (k - c.tokens.length)
      refine ⟨c :: before, ?_⟩
      rw [flatMap_cons, flatMap_cons, take_append, take_of_length_le (Nat.le_of_lt long), same]
    · rw [flatMap_cons, take_append_of_le_length short]
      cases k with
      | zero => exact ⟨[], take_zero⟩
      | succ j =>
        refine ⟨[{ c with files := c.files.take j }], ?_⟩
        rw [flatMap_singleton, HistoryCommit.tokens_take]

/-- `notes_entry_before` passes over the part of a token at a cut. -/
theorem entry_starts {base piece : Bytes} (ended : Ended base) (free : nul ∉ piece) (tail : Bytes) :
    (if (base ++ piece).length ≠ 0 ∧ (base ++ (piece ++ tail)).getD ((base ++ piece).length - 1) nul ≠ nul then
        notesToken (base ++ (piece ++ tail)) (base ++ piece).length
      else (base ++ piece).length) = base.length := by
  split
  · rw [length_append]
    exact notesToken_eq ended free tail
  · rename_i whole
    cases last : piece.getLast? with
    | none =>
      obtain rfl := List.getLast?_eq_none_iff.mp last
      rw [append_nil]
    | some b =>
      have some_ : 0 < piece.length := length_pos_iff.mpr fun none_ => by rw [none_] at last; cases last
      refine absurd ⟨?_, ?_⟩ whole
      · rw [length_append]
        omega
      · rw [getD_eq_getElem?_getD, length_append, List.getElem?_append_right (by omega),
          List.getElem?_append_left (by omega), show base.length + piece.length - 1 - base.length =
            piece.length - 1 by omega, ← List.getLast?_eq_getElem?, last]
        rintro rfl
        exact free (mem_of_getLast? last)

/-- From any cut of the history on, the calls give the files whose tokens are whole before it, each with its
own commit, from the last to the first, whatever follows the cut. -/
theorem notes_history (commits : List HistoryCommit) (n : Nat) (tail : Bytes) :
    notesEntries ((gitHistory commits).take n ++ tail)
        { subject := [], last := ((gitHistory commits).take n).length, first := 0, time := 0, commit := Oid.none } =
      (wholeEntries (commits.flatMap HistoryCommit.tokens) n).reverse := by
  obtain ⟨k, piece, cut_, free, entries⟩ := take_laid
    (nul_notMem_tokens : ∀ token ∈ commits.flatMap HistoryCommit.tokens, nul ∉ token.1) n
  obtain ⟨before, tokens⟩ := take_tokens commits k
  rw [tokens] at cut_ entries
  change (gitHistory commits).take n = gitHistory before ++ piece at cut_
  rw [cut_, entries, append_assoc, notesEntries_eq]
  have ended : Ended (gitHistory before) := ended_laid _
  exact (congrArg (entriesAt _ _) (entry_starts ended free tail)).trans (entriesAt_commits before rfl rfl)

end Askai
