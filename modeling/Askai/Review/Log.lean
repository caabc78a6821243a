import Askai.Review.Ranges

/-!
# The read log

The files that a review record has lines of, pending and logged, and what the record is charged for them
(`review.c`).
-/

namespace Askai

open Library Stretch

/-- `REVIEW_ITEM`. -/
abbrev reviewItem : Nat := 64

/-- `TOOL_TEXT_MAX`. -/
abbrev reviewTextMax : Nat := 4 * 2 ^ 20

inductive ReviewError where
  | einval
  | enomem
  deriving DecidableEq, Repr

/-- `struct review_file`. -/
structure ReviewFile where
  repo : Bytes
  path : Bytes
  ranges : List ReviewRange
  /-- The lines of the file, or 0 if unknown. -/
  total : UInt32
  commit : Oid
  deriving DecidableEq

/-- `struct review`, but for its findings, which are part of `size`. -/
structure Review where
  log : List ReviewFile := []
  pending : List ReviewFile := []
  /-- Charged bytes, pending lines included. -/
  size : Nat := 0
  /-- The first turn whose lines did not fit, or 0. -/
  droppedTurn : UInt32 := 0
  deriving DecidableEq

/-- Which allocations succeed, in their order. -/
abbrev Allocations := Nat → Bool

/-- `review_charge`. -/
def reviewCharge (items text : Nat) : Nat :=
  items * reviewItem + text

/-- `review_file_charge`. -/
def reviewFileCharge (f : ReviewFile) (n : Nat) : Nat :=
  reviewCharge (1 + n) (f.repo.length + f.path.length)

/-- `review_file_source`. -/
def reviewFileSource (f : ReviewFile) : ReviewSource :=
  { repo := f.repo, commit := f.commit.hex, path := f.path, total := f.total.toNat, start := 0, len := 0,
    first := 0, last := 0 }

/-- `review_file_commit_equal`. -/
def reviewFileCommitEqual (f : ReviewFile) (repo commit : Bytes) : Bool :=
  f.commit.hex = commit && f.repo = repo

/-- The loop of `review_files_find` from the file `i` on. -/
def reviewFilesFindFrom (n : Nat) (key : ReviewSource) : List ReviewFile → Nat → Nat → Nat × Nat
  | [], _, at_ => (n, at_)
  | f :: rest, i, at_ =>
    if !reviewFileCommitEqual f key.repo key.commit then reviewFilesFindFrom n key rest (i + 1) at_
    else if f.path = key.path then (i, at_)
    else reviewFilesFindFrom n key rest (i + 1) (i + 1)

/-- `review_files_find`: the index of the file, and the one at which it is inserted. -/
def reviewFilesFind (list : List ReviewFile) (key : ReviewSource) : Nat × Nat :=
  reviewFilesFindFrom list.length key list 0 list.length

/-- `review_files_insert`. -/
def reviewFilesInsert (memory : Bool) (list : List ReviewFile) (f : ReviewFile) (at_ : Nat) :
    Option (List ReviewFile) :=
  if memory then some (list.take at_ ++ f :: list.drop at_) else none

/-- `review_file_set`, of an empty file but for its ranges. -/
def reviewFileSet (memory : Allocations) (ranges : List ReviewRange) (key : ReviewSource) :
    Except ReviewError ReviewFile :=
  match oidInit key.commit with
  | none => .error .einval
  | some commit =>
    if !memory 0 || !memory 1 then .error .enomem
    else .ok { repo := key.repo, path := key.path, ranges, total := UInt32.ofNat key.total, commit }

/-- `review_within_max`. -/
def reviewWithinMax (r : Review) (size : Nat) (turn : UInt32) : Review × Bool :=
  if size ≤ reviewTextMax then (r, true)
  else (if r.droppedTurn = 0 then { r with droppedTurn := turn } else r, false)

/-- `review_file_add_range`: the record, the file and the error, none for 0. -/
def reviewFileAddRange (memory : Bool) (r : Review) (f : ReviewFile) (total : UInt32)
    (lines : ReviewRange) : Review × ReviewFile × Option ReviewError :=
  let ranges := reviewRangeInsert f.ranges lines
  let size := r.size - reviewCharge f.ranges.length 0 + reviewCharge ranges.length 0
  match reviewWithinMax r size lines.turn with
  | (r, false) => (r, f, none)
  | (r, true) =>
    if !memory then (r, f, some .enomem)
    else ({ r with size }, { f with ranges, total := if total ≠ 0 then total else f.total }, none)

/-- The read log or the pending lines. -/
inductive ReviewPart where
  | log
  | pending
  deriving DecidableEq, Repr

def Review.files (r : Review) : ReviewPart → List ReviewFile
  | .log => r.log
  | .pending => r.pending

def Review.withFiles (r : Review) (list : List ReviewFile) : ReviewPart → Review
  | .log => { r with log := list }
  | .pending => { r with pending := list }

/-- `review_files_add`. -/
def reviewFilesAdd (memory : Allocations) (r : Review) (part : ReviewPart) (key : ReviewSource)
    (lines : ReviewRange) : Review × Option ReviewError :=
  let list := r.files part
  let (k, at_) := reviewFilesFind list key
  match list[k]? with
  | some f =>
    let (r, f, e) := reviewFileAddRange (memory 0) r f (UInt32.ofNat key.total) lines
    (r.withFiles (list.set k f) part, e)
  | none =>
    let size := r.size + reviewCharge 2 (key.repo.length + key.path.length)
    match reviewWithinMax r size lines.turn with
    | (r, false) => (r, none)
    | (r, true) =>
      if !memory 0 then (r, some .enomem)
      else
        match reviewFileSet (fun i => memory (1 + i)) [lines] key with
        | .error e => (r, some e)
        | .ok f =>
          match reviewFilesInsert (memory 3) list f at_ with
          | none => (r, some .enomem)
          | some list => ({ r with size }.withFiles list part, none)

/-- The loop of `review_log_file` over the ranges that the log's file gets. -/
def reviewLogRanges (memory : Allocations) (total : UInt32) (r : Review) (f : ReviewFile) :
    List ReviewRange → Nat → Review × ReviewFile × Option ReviewError
  | [], _ => (r, f, none)
  | lines :: rest, i =>
    match reviewFileAddRange (memory i) r f total lines with
    | (r, f, some e) => (r, f, some e)
    | (r, f, none) => reviewLogRanges memory total r f rest (i + 1)

/-- `review_log_file`. -/
def reviewLogFile (memory : Allocations) (r : Review) (f : ReviewFile) : Review × Option ReviewError :=
  let (k, at_) := reviewFilesFind r.log (reviewFileSource f)
  match r.log[k]? with
  | some logged =>
    let (r', logged, e) := reviewLogRanges memory f.total r logged f.ranges 0
    ({ r' with log := r.log.set k logged }, e)
  | none =>
    let size := r.size + reviewFileCharge f f.ranges.length
    match reviewWithinMax r size ((f.ranges.head?.map ReviewRange.turn).getD 0) with
    | (r, false) => (r, none)
    | (r, true) =>
      match reviewFilesInsert (memory 0) r.log f at_ with
      | none => (r, some .enomem)
      | some log => ({ r with log, size }, none)

/-- The loop of `review_pending_log`. -/
def reviewLogFiles (memory : Nat → Allocations) (r : Review) : List ReviewFile → Nat → Review × Option ReviewError
  | [], _ => (r, none)
  | f :: rest, i =>
    match reviewLogFile (memory i) r f with
    | (r, some e) => (r, some e)
    | (r, none) => reviewLogFiles memory r rest (i + 1)

/-- `review_pending_uncharge`. -/
def reviewPendingUncharge (r : Review) : Review :=
  { r with size := r.pending.foldl (fun size f => size - reviewFileCharge f f.ranges.length) r.size }

/-- `review_pending_log`. -/
def reviewPendingLog (memory : Nat → Allocations) (r : Review) : Review × Option ReviewError :=
  let (r, e) := reviewLogFiles memory (reviewPendingUncharge r) r.pending 0
  ({ r with pending := [] }, e)

/-! ## Finding files -/

/-- The file has the repository, the commit and the path of a source. -/
def HasKey (key : ReviewSource) (f : ReviewFile) : Bool :=
  reviewFileCommitEqual f key.repo key.commit && f.path = key.path

theorem hasKey_source (f : ReviewFile) : HasKey (reviewFileSource f) f = true := by
  simp [HasKey, reviewFileCommitEqual, reviewFileSource]

/-- The file found is the first that has the key. -/
theorem reviewFilesFindFrom_fst (n : Nat) (key : ReviewSource) (list : List ReviewFile) (i at_ : Nat) :
    (reviewFilesFindFrom n key list i at_).1 = ((list.findIdx? (HasKey key)).map (i + ·)).getD n := by
  induction list generalizing i at_ with
  | nil => rfl
  | cons f rest ih =>
    rw [reviewFilesFindFrom, List.findIdx?_cons, HasKey]
    cases reviewFileCommitEqual f key.repo key.commit with
    | false =>
      simp only [Bool.not_false, if_true, Bool.false_and, Bool.false_eq_true, if_false, ih]
      cases rest.findIdx? (HasKey key) with
      | none => rfl
      | some k => simp [Nat.add_assoc, Nat.add_comm 1]
    | true =>
      simp only [Bool.not_true, Bool.false_eq_true, if_false, Bool.true_and]
      by_cases same : f.path = key.path
      · simp [same]
      · rw [if_neg same, ih]
        simp only [same, decide_false, Bool.false_eq_true, if_false]
        cases rest.findIdx? (HasKey key) with
        | none => rfl
        | some k => simp [Nat.add_assoc, Nat.add_comm 1]

theorem reviewFilesFind_fst (list : List ReviewFile) (key : ReviewSource) :
    (reviewFilesFind list key).1 = (list.findIdx? (HasKey key)).getD list.length := by
  rw [reviewFilesFind, reviewFilesFindFrom_fst]
  cases list.findIdx? (HasKey key) with
  | none => rfl
  | some k => simp

/-- A list that lacks the file leaves room for it. -/
theorem reviewFilesFindFrom_snd (n : Nat) (key : ReviewSource) (list : List ReviewFile) (i at_ : Nat) :
    (reviewFilesFindFrom n key list i at_).2 ≤ max at_ (i + list.length) := by
  induction list generalizing i at_ with
  | nil => simp [reviewFilesFindFrom]
  | cons f rest ih =>
    rw [reviewFilesFindFrom, List.length_cons]
    split_ifs
    · have := ih (i + 1) at_
      omega
    · exact Nat.le_max_left ..
    · have := ih (i + 1) (i + 1)
      omega

theorem reviewFilesFind_snd (list : List ReviewFile) (key : ReviewSource) :
    (reviewFilesFind list key).2 ≤ list.length := by
  have bound := reviewFilesFindFrom_snd list.length key list 0 list.length
  rw [reviewFilesFind]
  omega

/-- A file that is put into a list that lacked it is the one found. -/
theorem reviewFilesFind_insert {list : List ReviewFile} {key : ReviewSource} {f : ReviewFile}
    (lacks : list.findIdx? (HasKey key) = none) (has : HasKey key f = true) {n : Nat} (inside : n ≤ list.length) :
    (reviewFilesFind (list.take n ++ f :: list.drop n) key).1 = n := by
  have others : ∀ g ∈ list.take n, HasKey key g = false := fun g mem =>
    Bool.eq_false_iff.mpr (List.findIdx?_eq_none_iff.mp lacks g (List.mem_of_mem_take mem) |> fun h => by
      simp [h])
  have front : (list.take n).findIdx? (HasKey key) = none := List.findIdx?_eq_none_iff.mpr others
  rw [reviewFilesFind_fst, List.findIdx?_append, front, Option.none_or, List.findIdx?_cons, if_pos has]
  simp [Nat.min_eq_left inside]

/-! ## One range after another -/

/-- Ranges are added to a file of a record: with or without memory, with a total. -/
structure AddCall where
  memory : Bool
  total : UInt32
  lines : ReviewRange

/-- The call puts its lines into the file: the record has room for them, and there is memory. -/
def Accepts (r : Review) (f : ReviewFile) (call : AddCall) : Prop :=
  r.size - reviewCharge f.ranges.length 0 +
      reviewCharge (reviewRangeInsert f.ranges call.lines).length 0 ≤ reviewTextMax ∧ call.memory

instance (r : Review) (f : ReviewFile) (call : AddCall) : Decidable (Accepts r f call) :=
  inferInstanceAs (Decidable (_ ∧ _))

/-- What the calls leave of the record and of the file. -/
def reviewAdds (r : Review) (f : ReviewFile) : List AddCall → Review × ReviewFile
  | [] => (r, f)
  | call :: calls =>
    let next := reviewFileAddRange call.memory r f call.total call.lines
    reviewAdds next.1 next.2.1 calls

/-- What the accepted calls leave of a function from lines to turns. -/
def reviewLaid (r : Review) (f : ReviewFile) (m : Nat → Option UInt32) : List AddCall → Nat → Option UInt32
  | [] => m
  | call :: calls =>
    let next := reviewFileAddRange call.memory r f call.total call.lines
    reviewLaid next.1 next.2.1 (if Accepts r f call then lay m call.lines.toStretch else m) calls

theorem reviewFileAddRange_ranges (r : Review) (f : ReviewFile) (call : AddCall) :
    (reviewFileAddRange call.memory r f call.total call.lines).2.1.ranges =
      if Accepts r f call then reviewRangeInsert f.ranges call.lines else f.ranges := by
  by_cases accepts : Accepts r f call
  · obtain ⟨fits, memory⟩ := accepts
    rw [if_pos ⟨fits, memory⟩, reviewFileAddRange, reviewWithinMax, if_pos fits, memory]
    rfl
  · rw [if_neg accepts, reviewFileAddRange, reviewWithinMax]
    by_cases fits : r.size - reviewCharge f.ranges.length 0 +
        reviewCharge (reviewRangeInsert f.ranges call.lines).length 0 ≤ reviewTextMax
    · have empty : call.memory = false := Bool.eq_false_iff.mpr fun memory => accepts ⟨fits, memory⟩
      rw [if_pos fits, empty]
      rfl
    · rw [if_neg fits]

/-- The ranges of a file stay neat, and stand for what was laid. -/
theorem reviewAdds_spec {f : ReviewFile} (neat : NeatRanges f.ranges) (r : Review) {calls : List AddCall}
    (filled : ∀ call ∈ calls, call.lines.first ≤ call.lines.last) : NeatRanges (reviewAdds r f calls).2.ranges ∧
      lineTurn (reviewAdds r f calls).2.ranges = reviewLaid r f (lineTurn f.ranges) calls := by
  induction calls generalizing r f with
  | nil => exact ⟨neat, rfl⟩
  | cons call calls ih =>
    have ranges := reviewFileAddRange_ranges r f call
    have own := filled call List.mem_cons_self
    have next : NeatRanges (reviewFileAddRange call.memory r f call.total call.lines).2.1.ranges ∧
        lineTurn (reviewFileAddRange call.memory r f call.total call.lines).2.1.ranges =
          if Accepts r f call then lay (lineTurn f.ranges) call.lines.toStretch
          else lineTurn f.ranges := by
      rw [ranges]
      split
      · exact ⟨neat.insert own, neat.lineTurn_insert own⟩
      · exact ⟨neat, rfl⟩
    have rest := ih next.1 (reviewFileAddRange call.memory r f call.total call.lines).1
      fun c mem => filled c (List.mem_cons_of_mem _ mem)
    rw [reviewAdds, reviewLaid, ← next.2]
    exact rest

/-! ## A pending file logged -/

/-- Ranges added to the log, one by one, as far as they fit. -/
def reviewLogged (r : Review) (key : ReviewSource) (ranges : List ReviewRange) : Review :=
  ranges.foldl (fun r lines => (reviewFilesAdd (fun _ => true) r .log key lines).1) r

/-- The turns of the lines of a file in a list of files. -/
def fileTurn (list : List ReviewFile) (key : ReviewSource) (x : Nat) : Option UInt32 :=
  (list.find? (HasKey key)).bind fun f => lineTurn f.ranges x

/-- What a range added to a file does to the rest of the record. -/
theorem reviewFileAddRange_log (memory : Bool) (r : Review) (log : List ReviewFile) (f : ReviewFile)
    (total : UInt32) (lines : ReviewRange) : reviewFileAddRange memory { r with log } f total lines =
      ({ (reviewFileAddRange memory r f total lines).1 with log }, (reviewFileAddRange memory r f total lines).2) := by
  rw [reviewFileAddRange, reviewFileAddRange, reviewWithinMax, reviewWithinMax]
  dsimp only
  split_ifs
  all_goals rfl

theorem reviewFileAddRange_true (r : Review) (f : ReviewFile) (total : UInt32) (lines : ReviewRange) :
    (reviewFileAddRange true r f total lines).2.2 = none ∧ (reviewFileAddRange true r f total lines).1.log = r.log ∧
      ∀ key, HasKey key (reviewFileAddRange true r f total lines).2.1 = HasKey key f := by
  rw [reviewFileAddRange, reviewWithinMax]
  by_cases fits : r.size - reviewCharge f.ranges.length 0 +
      reviewCharge (reviewRangeInsert f.ranges lines).length 0 ≤ reviewTextMax
  · rw [if_pos fits]
    exact ⟨rfl, rfl, fun key => rfl⟩
  · rw [if_neg fits]
    refine ⟨rfl, ?_, fun key => rfl⟩
    dsimp only
    split <;> rfl

/-- Adding to the file that the log has. -/
theorem reviewFilesAdd_set {r : Review} {list : List ReviewFile} {key : ReviewSource} {k : Nat}
    {f : ReviewFile} (log : r.log = list.set k f) (found : (reviewFilesFind r.log key).1 = k)
    (inside : k < list.length) (lines : ReviewRange) : (reviewFilesAdd (fun _ => true) r .log key lines).1 =
      { (reviewFileAddRange true r f (UInt32.ofNat key.total) lines).1 with
        log := list.set k (reviewFileAddRange true r f (UInt32.ofNat key.total) lines).2.1 } := by
  have at_ : r.log[k]? = some f := by
    rw [log]
    exact List.getElem?_set_self inside
  rw [reviewFilesAdd]
  dsimp only [Review.files]
  rw [found, at_]
  dsimp only [Review.withFiles]
  rw [log, List.set_set]

theorem reviewLogRanges_log (memory : Allocations) (total : UInt32) (r : Review) (log : List ReviewFile)
    (f : ReviewFile) (ranges : List ReviewRange) (i : Nat) : reviewLogRanges memory total { r with log } f ranges i =
      ({ (reviewLogRanges memory total r f ranges i).1 with log }, (reviewLogRanges memory total r f ranges i).2) := by
  induction ranges generalizing r f i with
  | nil => rfl
  | cons lines rest ih =>
    rw [reviewLogRanges, reviewLogRanges, reviewFileAddRange_log]
    cases added : reviewFileAddRange (memory i) r f total lines with
    | mk next more =>
      obtain ⟨g, error⟩ := more
      cases error with
      | some e => rfl
      | none => exact ih next g (i + 1)

/-- Which file is found depends on the keys alone. -/
theorem findIdx?_set {list : List ReviewFile} {key : ReviewSource} {k : Nat} {f g : ReviewFile}
    (same : HasKey key g = HasKey key f) :
    (list.set k g).findIdx? (HasKey key) = (list.set k f).findIdx? (HasKey key) := by
  induction list generalizing k with
  | nil => rfl
  | cons h rest ih =>
    cases k with
    | zero => rw [List.set_cons_zero, List.set_cons_zero, List.findIdx?_cons, List.findIdx?_cons, same]
    | succ k =>
      rw [List.set_cons_succ, List.set_cons_succ, List.findIdx?_cons, List.findIdx?_cons, ih]

/-- The ranges of a file that the log has are added one by one. -/
theorem reviewLogRanges_eq {r : Review} {list : List ReviewFile} {key : ReviewSource} {k : Nat}
    {f : ReviewFile} (log : r.log = list.set k f) (found : (reviewFilesFind r.log key).1 = k)
    (inside : k < list.length) (ranges : List ReviewRange) (i : Nat) :
    let end_ := reviewLogRanges (fun _ => true) (UInt32.ofNat key.total) r f ranges i
    end_.2.2 = none ∧ reviewLogged r key ranges = { end_.1 with log := list.set k end_.2.1 } := by
  induction ranges generalizing r f i with
  | nil =>
    refine ⟨rfl, ?_⟩
    change r = { r with log := list.set k f }
    rw [← log]
  | cons lines rest ih =>
    have first := reviewFilesAdd_set log found inside lines
    obtain ⟨ok, -, keys⟩ := reviewFileAddRange_true r f (UInt32.ofNat key.total) lines
    rw [reviewLogRanges, reviewLogged, List.foldl_cons, first]
    cases added : reviewFileAddRange true r f (UInt32.ofNat key.total) lines with
    | mk next more =>
      obtain ⟨g, error⟩ := more
      rw [added] at ok keys
      obtain rfl : error = none := ok
      have again : (reviewFilesFind (list.set k g) key).1 = k := by
        refine Eq.trans ?_ found
        rw [log, reviewFilesFind_fst, reviewFilesFind_fst, findIdx?_set (keys key), List.length_set, List.length_set]
      have rest := @ih { next with log := list.set k g } g rfl again (i + 1)
      rw [reviewLogRanges_log] at rest
      exact rest

/-- Logging a file that the log has is adding its ranges one by one. -/
theorem reviewLogFile_has {r : Review} {f : ReviewFile} (has : (r.log.findIdx? (HasKey (reviewFileSource f))).isSome) :
    reviewLogFile (fun _ => true) r f = (reviewLogged r (reviewFileSource f) f.ranges, none) := by
  obtain ⟨k, index⟩ := Option.isSome_iff_exists.mp has
  have found : (reviewFilesFind r.log (reviewFileSource f)).1 = k := by
    rw [reviewFilesFind_fst, index]
    rfl
  have inside : k < r.log.length := (List.findIdx?_eq_some_iff_getElem.mp index).1
  have here : r.log[k]? = some r.log[k] := List.getElem?_eq_getElem inside
  have log : r.log = r.log.set k r.log[k] := (List.set_getElem_self inside).symm
  obtain ⟨ok, same⟩ := reviewLogRanges_eq log found inside f.ranges 0
  have total : UInt32.ofNat (reviewFileSource f).total = f.total := UInt32.ofNat_toNat
  rw [total] at ok same
  rw [reviewLogFile]
  dsimp only
  rw [found, here, same]
  dsimp only
  rw [ok]

theorem set_insert {α : Type*} {l : List α} {n : Nat} (inside : n ≤ l.length) (a b : α) :
    (l.take n ++ a :: l.drop n).set n b = l.take n ++ b :: l.drop n := by
  have front : (l.take n).length = n := by
    rw [List.length_take]
    omega
  rw [List.set_append, if_neg (by omega), front, Nat.sub_self, List.set_cons_zero]

/-- A file that the log lacks, with the ranges that were added to it. -/
def Review.logging (r : Review) (n : Nat) (f : ReviewFile) (ranges : List ReviewRange) : Review :=
  { r with
    log := r.log.take n ++ { f with ranges } :: r.log.drop n
    size := r.size + reviewFileCharge f ranges.length }

theorem reviewFileCharge_le (f : ReviewFile) {m n : Nat} (less : m ≤ n) :
    reviewFileCharge f m ≤ reviewFileCharge f n := by
  simp only [reviewFileCharge, reviewCharge]
  exact Nat.add_le_add_right (Nat.mul_le_mul_right _ (Nat.add_le_add_left less 1)) _

/-- One more range of a file whose first ones the log got. -/
theorem reviewFilesAdd_logging {r : Review} {f : ReviewFile} {n : Nat}
    (lacks : r.log.findIdx? (HasKey (reviewFileSource f)) = none) (inside : n ≤ r.log.length)
    {ranges : List ReviewRange} {lines : ReviewRange} (neat : NeatRanges (ranges ++ [lines]))
    (fits : r.size + reviewFileCharge f (ranges.length + 1) ≤ reviewTextMax) :
    (reviewFilesAdd (fun _ => true) (r.logging n f ranges) .log (reviewFileSource f) lines).1 =
      r.logging n f (ranges ++ [lines]) := by
  have key : HasKey (reviewFileSource f) { f with ranges } = true := hasKey_source f
  have found : (reviewFilesFind (r.logging n f ranges).log (reviewFileSource f)).1 = n :=
    reviewFilesFind_insert lacks key inside
  have log : (r.logging n f ranges).log =
      (r.log.take n ++ f :: r.log.drop n).set n { f with ranges } := (set_insert inside ..).symm
  have long : n < (r.log.take n ++ f :: r.log.drop n).length := by
    rw [List.length_append, List.length_take, List.length_cons]
    omega
  have put := reviewFilesAdd_set log found long lines
  rw [put]
  have total : UInt32.ofNat (reviewFileSource f).total = f.total := UInt32.ofNat_toNat
  have size : (r.logging n f ranges).size - reviewCharge ranges.length 0 +
      reviewCharge (ranges ++ [lines]).length 0 = r.size + reviewFileCharge f (ranges.length + 1) := by
    simp only [Review.logging, reviewFileCharge, reviewCharge, reviewItem, List.length_append, List.length_singleton]
    omega
  have added : reviewFileAddRange true (r.logging n f ranges) { f with ranges } f.total lines =
      ({ r.logging n f ranges with size := r.size + reviewFileCharge f (ranges.length + 1) },
        { f with ranges := ranges ++ [lines] }, none) := by
    rw [reviewFileAddRange, reviewWithinMax, neat.insert_last]
    dsimp only
    rw [size, if_pos fits]
    simp
  rw [total, added]
  simp only [Review.logging, set_insert inside, List.length_append, List.length_singleton]

theorem reviewLogged_logging {r : Review} {f : ReviewFile} {n : Nat}
    (lacks : r.log.findIdx? (HasKey (reviewFileSource f)) = none) (inside : n ≤ r.log.length)
    (before rest : List ReviewRange) (neat : NeatRanges (before ++ rest))
    (fits : r.size + reviewFileCharge f (before ++ rest).length ≤ reviewTextMax) :
    reviewLogged (r.logging n f before) (reviewFileSource f) rest = r.logging n f (before ++ rest) := by
  induction rest generalizing before with
  | nil => rw [List.append_nil]; rfl
  | cons lines rest ih =>
    have split : before ++ lines :: rest = (before ++ [lines]) ++ rest := by simp
    rw [split] at neat fits ⊢
    have front : NeatRanges (before ++ [lines]) :=
      Neat.sublist neat (List.Sublist.map _ (List.sublist_append_left ..))
    have least : reviewFileCharge f (before.length + 1) ≤ reviewFileCharge f (before ++ [lines] ++ rest).length := by
      apply reviewFileCharge_le
      simp
    rw [reviewLogged, List.foldl_cons, reviewFilesAdd_logging lacks inside front (by omega)]
    exact ih (before ++ [lines]) neat fits

/-- A file that the log lacks is moved there where it fits, which is adding its ranges one by one. -/
theorem reviewLogFile_lacks {r : Review} {f : ReviewFile}
    (lacks : r.log.findIdx? (HasKey (reviewFileSource f)) = none) (valid : oidValid f.commit.hex = true)
    (neat : NeatRanges f.ranges) (some_ : f.ranges ≠ [])
    (fits : r.size + reviewFileCharge f f.ranges.length ≤ reviewTextMax) :
    reviewLogFile (fun _ => true) r f = (reviewLogged r (reviewFileSource f) f.ranges, none) := by
  obtain ⟨first, rest, ranges⟩ := List.exists_cons_of_ne_nil some_
  have none_ : (reviewFilesFind r.log (reviewFileSource f)).1 = r.log.length := by
    rw [reviewFilesFind_fst, lacks]
    rfl
  have inside : (reviewFilesFind r.log (reviewFileSource f)).2 ≤ r.log.length :=
    reviewFilesFind_snd ..
  have missing : r.log[r.log.length]? = none := List.getElem?_eq_none (Nat.le_refl _)
  have moved : reviewLogFile (fun _ => true) r f =
      (r.logging (reviewFilesFind r.log (reviewFileSource f)).2 f f.ranges, none) := by
    rw [reviewLogFile]
    dsimp only
    rw [none_, missing]
    dsimp only
    rw [reviewWithinMax, if_pos fits]
    rfl
  have one : reviewFileCharge f 1 ≤ reviewFileCharge f f.ranges.length := by
    apply reviewFileCharge_le
    rw [ranges]
    exact Nat.succ_le_succ (Nat.zero_le _)
  have added : (reviewFilesAdd (fun _ => true) r .log (reviewFileSource f) first).1 =
      r.logging (reviewFilesFind r.log (reviewFileSource f)).2 f [first] := by
    have small : r.size + reviewCharge 2 ((reviewFileSource f).repo.length +
        (reviewFileSource f).path.length) ≤ reviewTextMax :=
      Nat.le_trans (Nat.add_le_add_left one r.size) fits
    have commit : oidInit (reviewFileSource f).commit = some f.commit :=
      oidInit_eq_some.mpr ⟨rfl, valid⟩
    have total : UInt32.ofNat (reviewFileSource f).total = f.total := UInt32.ofNat_toNat
    rw [reviewFilesAdd]
    dsimp only [Review.files]
    rw [none_, missing]
    dsimp only
    rw [reviewWithinMax, if_pos small]
    dsimp only
    rw [reviewFileSet, commit, total]
    rfl
  rw [ranges] at neat fits
  rw [moved, ranges, reviewLogged, List.foldl_cons, added]
  have whole := reviewLogged_logging lacks inside [first] rest neat fits
  exact congrArg (·, none) whole.symm

/-- A file that does not fit whole is not logged. -/
theorem reviewLogFile_full {r : Review} {f : ReviewFile} {memory : Allocations}
    (lacks : r.log.findIdx? (HasKey (reviewFileSource f)) = none)
    (full : reviewTextMax < r.size + reviewFileCharge f f.ranges.length) :
    (reviewLogFile memory r f).1.log = r.log ∧ (reviewLogFile memory r f).2 = none := by
  have none_ : (reviewFilesFind r.log (reviewFileSource f)).1 = r.log.length := by
    rw [reviewFilesFind_fst, lacks]
    rfl
  have missing : r.log[r.log.length]? = none := List.getElem?_eq_none (Nat.le_refl _)
  rw [reviewLogFile]
  dsimp only
  rw [none_, missing]
  dsimp only
  rw [reviewWithinMax, if_neg (Nat.not_le.mpr full)]
  refine ⟨?_, rfl⟩
  dsimp only
  split <;> rfl

/-- The read log is a map: the ranges of a file stay sorted and disjoint, adjoining ones of different
turns, and stand for what the ranges added lay on its lines, each where the record has room for it;
logging a pending file is adding its ranges one by one where the log has the file, or lacks it and it fits
whole, and nothing where it does not; and the end of a run is that of the ranges from one that has `a`
to a gap or to the one that reaches `b`, with the lowest of their turns. -/
theorem read_log_is_map : (∀ (r : Review) (f : ReviewFile) (calls : List AddCall), NeatRanges f.ranges →
      (∀ call ∈ calls, call.lines.first ≤ call.lines.last) → NeatRanges (reviewAdds r f calls).2.ranges ∧
          lineTurn (reviewAdds r f calls).2.ranges = reviewLaid r f (lineTurn f.ranges) calls) ∧
      (∀ (r : Review) (f : ReviewFile), NeatRanges f.ranges → f.ranges ≠ [] → oidValid f.commit.hex = true →
        let fits := (r.log.findIdx? (HasKey (reviewFileSource f))).isSome ∨
          r.size + reviewFileCharge f f.ranges.length ≤ reviewTextMax
        (fits → reviewLogFile (fun _ => true) r f =
          (reviewLogged r (reviewFileSource f) f.ranges, none)) ∧
          (¬ fits → (reviewLogFile (fun _ => true) r f).1.log = r.log ∧ (reviewLogFile (fun _ => true) r f).2 = none)) ∧
      ∀ (ranges : List ReviewRange) (a b : UInt32), NeatRanges ranges →
        (reviewFileRunEnd ranges a b = (0, none) ∧ ∀ q ∈ ranges, ¬ (q.first ≤ a ∧ a ≤ q.last)) ∨
          ∃ run g h turn, IsRun ranges a b run g h ∧ reviewFileRunEnd ranges a b = (h.last, some turn) ∧
            (∀ q ∈ run, turn ≤ q.turn) ∧ ∃ q ∈ run, q.turn = turn := by
  refine ⟨fun r f calls neat filled => reviewAdds_spec neat r filled, fun r f neat some_ valid => ?_,
    fun ranges a b neat => neat.runEnd a b⟩
  refine ⟨fun fits => ?_, fun full => ?_⟩
  · cases index : r.log.findIdx? (HasKey (reviewFileSource f)) with
    | some k => exact reviewLogFile_has (by rw [index]; rfl)
    | none =>
      rw [index] at fits
      exact reviewLogFile_lacks index valid neat some_ (fits.resolve_left (by simp))
  · rw [not_or, Option.not_isSome_iff_eq_none, Nat.not_le] at full
    exact reviewLogFile_full full.1 full.2

/-- A file that is in the log with a hundred lines, and three of them read once more; and another file,
with two lines. The record is full. -/
def fullRecord : Review × ReviewFile :=
  let commit : Oid := ⟨List.replicate 40 48, .inr (by decide)⟩
  let file (path : Bytes) (ranges : List ReviewRange) : ReviewFile :=
    { repo := [114], path, ranges, total := 0, commit }
  let long := List.replicate 70 97
  ({ log := [file long [⟨1, 100, 1⟩]]
     pending := [file long [⟨10, 10, 2⟩, ⟨20, 20, 2⟩, ⟨30, 30, 2⟩], file [98] [⟨1, 1, 2⟩, ⟨5, 5, 2⟩]]
     size := reviewTextMax }, file [98] [⟨1, 1, 2⟩, ⟨5, 5, 2⟩])

/-- The second file is not logged, though there is room for its first range when the first is. -/
theorem file_left_whole :
    let r := (reviewLogFile (fun _ => true) (reviewPendingUncharge fullRecord.1)
      (fullRecord.1.pending.headD fullRecord.2)).1
    let key := reviewFileSource fullRecord.2
    fileTurn (reviewPendingLog (fun _ _ => true) fullRecord.1).1.log key 1 = none ∧
      fileTurn (reviewLogFile (fun _ => true) r fullRecord.2).1.log key 1 = none ∧
      fileTurn (reviewLogged r key fullRecord.2.ranges).log key 1 = some 2 := by
  decide

end Askai
