import Askai.Library.TextLines
import Askai.Policy.Model
import Askai.Util.Room

/-!
# Subordinate ids

The ranges of ids that `/etc/subuid` and `/etc/subgid` give to users (`policy_build_ranges`), and the ids
that a policy refuses for them.
-/

namespace Askai

open Library List

/-! ## Numbers -/

/-- The white space of `isspace()`. -/
def isSpace (c : UInt8) : Bool :=
  c = space || 9 ≤ c && c ≤ 13

/-- What a digit or a letter stands for in the bases up to 36. -/
def digitValue (c : UInt8) : Nat :=
  if 48 ≤ c && c ≤ 57 then c.toNat - 48
  else if 97 ≤ c ||| 32 && c ||| 32 ≤ 122 then (c ||| 32).toNat - 87
  else 36

/-- The base of a number that base 0 is given for, and the length of its prefix; not every C library reads
`binary` numbers. -/
def strtoullBase (binary : Bool) (s : Bytes) : Nat × Nat :=
  match s with
  | 48 :: x :: d :: _ =>
    if x ||| 32 = 120 && digitValue d < 16 then (16, 2)
    else if binary && x ||| 32 = 98 && digitValue d < 2 then (2, 2)
    else (8, 0)
  | 48 :: _ => (8, 0)
  | _ => (10, 0)

/-- What `strtoull()` gives: the number, how many bytes it read of the text, and whether the number did
not fit. -/
structure Strtoull where
  value : UInt64
  len : Nat
  erange : Bool

/-- `strtoull()` with base 0. -/
def strtoull (binary : Bool) (s : Bytes) : Strtoull :=
  let blanks := (s.takeWhile isSpace).length
  let signed := s.drop blanks
  let sign := if signed.head? = some 45 ∨ signed.head? = some 43 then 1 else 0
  let (base, skip) := strtoullBase binary (signed.drop sign)
  let digits := (signed.drop (sign + skip)).takeWhile fun c => digitValue c < base
  let n := digits.foldl (fun n c => n * base + digitValue c) 0
  if digits = [] then { value := 0, len := 0, erange := false }
  else
    { value := if 2 ^ 64 ≤ n then 0xffffffffffffffff
        else if signed.head? = some 45 then -UInt64.ofNat n else UInt64.ofNat n
      len := blanks + sign + skip + digits.length
      erange := 2 ^ 64 ≤ n }

/-- `policy_range_number`, with the text behind the number. -/
def policyRangeNumber (binary : Bool) (s : Bytes) : Option (UInt64 × Bytes) :=
  let v := strtoull binary s
  if v.len = 0 ∨ v.erange ∨ 45 ∈ s.take v.len then none else some (v.value, s.drop v.len)

/-! ## Ranges -/

/-- `struct policy_range`. -/
structure PolicyRange where
  first : UInt32
  last : UInt32
  deriving DecidableEq, Repr

/-- START and COUNT of a line, as `policy_range_parse` reads them. -/
def policyRangeFields (binary : Bool) (line : Bytes) : Option (UInt64 × UInt64) := do
  let (_, s) ← cut colon (cstr line)
  let (start, s) ← policyRangeNumber binary s
  if s.head? ≠ some colon then none
  else do
    let (count, _) ← policyRangeNumber binary (s.drop 1)
    return (start, count)

/-- `policy_range_parse`. -/
def policyRangeParse (binary : Bool) (line : Bytes) : Option PolicyRange :=
  match policyRangeFields binary line with
  | none => none
  | some (start, count) =>
    if count = 0 ∨ 0xffffffff < start then none
    else
      let room := 0xffffffff - start
      some
        { first := start.toUInt32
          last := (start + if count - 1 < room then count - 1 else room).toUInt32 }

/-- The loop of `policy_build_ranges` over the lines of the file: none for `ENOMEM`. -/
def policyReadRanges (memory : Nat → Bool) (binary : Bool) :
    List Bytes → List PolicyRange → Nat → Option (List PolicyRange)
  | [], ranges, _ => some ranges
  | line :: lines, ranges, room =>
    match policyRangeParse binary line with
    | none => policyReadRanges memory binary lines ranges room
    | some r =>
      match utilGrow (memory ranges.length) 8 room (ranges.length + 1) with
      | none => none
      | some room => policyReadRanges memory binary lines (ranges ++ [r]) room

/-- The last loop of `policy_build_ranges`: `cur` is the last of the ranges merged. -/
def policyMergeRanges (cur : PolicyRange) : List PolicyRange → List PolicyRange
  | [] => [cur]
  | r :: ranges =>
    if cur.last.toUInt64 + 1 < r.first.toUInt64 then cur :: policyMergeRanges r ranges
    else if cur.last < r.last then policyMergeRanges { cur with last := r.last } ranges
    else policyMergeRanges cur ranges

/-- `policy_build_ranges`, of the content of the file. -/
def policyBuildRanges (memory : Nat → Bool) (binary : Bool) (content : Bytes) : Option (List PolicyRange) :=
  (policyReadRanges memory binary (textLines lf content) [] 0).map fun ranges =>
    match sortBy (fun r => r.first.toNat) ranges with
    | [] => []
    | r :: ranges => policyMergeRanges r ranges

/-- `policy_ranges_have`. -/
def policyRangesHave (ranges : List PolicyRange) (id : Nat) : Bool :=
  let lo := splitPoint (fun r : PolicyRange => r.last.toNat < id) ranges 0 ranges.length
  match ranges[lo]? with
  | none => false
  | some r => r.first.toNat ≤ id

/-- `enum policy_admit`. -/
inductive PolicyAdmit where
  | admitted
  | subordinate
  | unmapped
  deriving DecidableEq, Repr

/-- What a policy has of subordinate uids. -/
structure PolicyUids where
  subuids : List PolicyRange
  overflowUid : UInt32

/-- `policy_admit_uid`. -/
def policyAdmitUid (policy : PolicyUids) (uid : UInt32) : PolicyAdmit :=
  if uid = 0xffffffff ∨ uid = policy.overflowUid then .unmapped
  else if policyRangesHave policy.subuids uid.toNat then .subordinate
  else .admitted

/-! ## What a range holds -/

/-- An id of a range. -/
def PolicyRange.Has (r : PolicyRange) (id : Nat) : Prop :=
  r.first.toNat ≤ id ∧ id ≤ r.last.toNat

/-- An id of a range that some line gives. -/
def Subordinate (binary : Bool) (content : Bytes) (id : Nat) : Prop :=
  ∃ line ∈ textLines lf content, ∃ r, policyRangeParse binary line = some r ∧ r.Has id

/-- Ranges in order, disjoint and not adjoining. -/
structure NeatIds (ranges : List PolicyRange) : Prop where
  filled : ∀ r ∈ ranges, r.first ≤ r.last
  apart : ranges.Pairwise fun a b => a.last.toNat + 1 < b.first.toNat

/-- Neither the room above START nor the last id wraps. -/
theorem range_last {start count : UInt64} (small : start.toNat < 2 ^ 32) (some_ : 0 < count.toNat) :
    (start + if count - 1 < 0xffffffff - start then count - 1 else 0xffffffff - start).toNat =
      min (start.toNat + count.toNat - 1) (2 ^ 32 - 1) := by
  have room : (0xffffffff - start).toNat = 4294967295 - start.toNat :=
    UInt64.toNat_sub_of_le _ _ (UInt64.le_iff_toNat_le.mpr (show start.toNat ≤ 4294967295 by omega))
  have rest : (count - 1).toNat = count.toNat - 1 :=
    UInt64.toNat_sub_of_le _ _ (UInt64.le_iff_toNat_le.mpr some_)
  rw [UInt64.toNat_add]
  split
  · rename_i less
    rw [UInt64.lt_iff_toNat_lt, room, rest] at less
    rw [rest]
    omega
  · rename_i more
    rw [UInt64.lt_iff_toNat_lt, room, rest] at more
    rw [room]
    omega

/-- The ends of a range are those of its line, in numbers that do not wrap. -/
theorem policyRangeParse_eq_some {binary : Bool} {line : Bytes} {r : PolicyRange} :
    policyRangeParse binary line = some r ↔ ∃ start count,
      policyRangeFields binary line = some (start, count) ∧ 0 < count.toNat ∧ start.toNat < 2 ^ 32 ∧
        r.first.toNat = start.toNat ∧ r.last.toNat = min (start.toNat + count.toNat - 1) (2 ^ 32 - 1) := by
  rw [policyRangeParse]
  cases policyRangeFields binary line with
  | none => simp
  | some fields =>
    obtain ⟨start, count⟩ := fields
    have limit : (0xffffffff : UInt64).toNat = 4294967295 := rfl
    dsimp only
    by_cases refused : count = 0 ∨ 0xffffffff < start
    · rw [if_pos refused]
      constructor
      · nofun
      · rintro ⟨start', count', same, some_, small, -, -⟩
        obtain ⟨rfl, rfl⟩ := Prod.mk.inj (Option.some.inj same)
        rcases refused with rfl | large
        · exact absurd some_ (Nat.lt_irrefl 0)
        · rw [UInt64.lt_iff_toNat_lt, limit] at large
          omega
    · rw [if_neg refused]
      rw [not_or, UInt64.lt_iff_toNat_lt, limit] at refused
      obtain ⟨nonzero, small⟩ := refused
      have some_ : 0 < count.toNat := Nat.pos_of_ne_zero fun zero => nonzero (UInt64.toNat_inj.mp zero)
      have below : start.toNat < 2 ^ 32 := by omega
      have last := range_last below some_
      have first_ : start.toUInt32.toNat = start.toNat := by
        rw [UInt64.toNat_toUInt32]
        omega
      have last_ : (start + if count - 1 < 0xffffffff - start then count - 1
          else 0xffffffff - start).toUInt32.toNat = min (start.toNat + count.toNat - 1) (2 ^ 32 - 1) := by
        rw [UInt64.toNat_toUInt32, last]
        omega
      constructor
      · intro same
        obtain rfl := Option.some.inj same
        exact ⟨start, count, rfl, some_, below, first_, last_⟩
      · rintro ⟨start', count', same, -, -, first', last'⟩
        obtain ⟨rfl, rfl⟩ := Prod.mk.inj (Option.some.inj same)
        obtain ⟨first, last⟩ := r
        rw [Option.some_inj, PolicyRange.mk.injEq, ← UInt32.toNat_inj, ← UInt32.toNat_inj]
        exact ⟨first_.trans first'.symm, last_.trans last'.symm⟩

theorem policyRangeParse_filled {binary : Bool} {line : Bytes} {r : PolicyRange}
    (parsed : policyRangeParse binary line = some r) : r.first ≤ r.last := by
  obtain ⟨start, count, -, some_, small, first, last⟩ := policyRangeParse_eq_some.mp parsed
  rw [UInt32.le_iff_toNat_le, first, last]
  omega

/-! ## Reading and merging -/

theorem mem_policyReadRanges {memory : Nat → Bool} {binary : Bool} {lines : List Bytes}
    {ranges found : List PolicyRange} {room : Nat}
    (read : policyReadRanges memory binary lines ranges room = some found) (r : PolicyRange) :
    r ∈ found ↔ r ∈ ranges ∨ ∃ line ∈ lines, policyRangeParse binary line = some r := by
  induction lines generalizing ranges room with
  | nil =>
    obtain rfl := Option.some.inj read
    simp
  | cons line lines ih =>
    rw [policyReadRanges] at read
    cases parsed : policyRangeParse binary line with
    | none =>
      rw [parsed] at read
      rw [ih read, exists_mem_cons_iff, parsed]
      simp
    | some r' =>
      rw [parsed] at read
      dsimp only at read
      split at read
      · cases read
      · rw [ih read, exists_mem_cons_iff, parsed, mem_append, mem_singleton, Option.some_inj, or_assoc, eq_comm]

theorem PolicyRange.Has.of_last {cur r : PolicyRange} {id : Nat} (sorted : cur.first.toNat ≤ r.first.toNat)
    (touch : r.first.toNat ≤ cur.last.toNat + 1) (less : cur.last < r.last) :
    PolicyRange.Has { cur with last := r.last } id ↔ cur.Has id ∨ r.Has id := by
  rw [UInt32.lt_iff_toNat_lt] at less
  rw [PolicyRange.Has, PolicyRange.Has, PolicyRange.Has]
  dsimp only
  omega

variable {ranges : List PolicyRange}

/-- The ranges merged hold what the ranges did, and are apart. -/
theorem policyMergeRanges_spec {cur : PolicyRange}
    (sorted : (cur :: ranges).Pairwise fun a b => a.first.toNat ≤ b.first.toNat)
    (filled : ∀ r ∈ cur :: ranges, r.first ≤ r.last) : NeatIds (policyMergeRanges cur ranges) ∧
      (∀ r ∈ policyMergeRanges cur ranges, cur.first.toNat ≤ r.first.toNat) ∧
      ∀ id, (∃ r ∈ policyMergeRanges cur ranges, r.Has id) ↔ ∃ r ∈ cur :: ranges, r.Has id := by
  induction ranges generalizing cur with
  | nil => exact ⟨⟨filled, pairwise_singleton ..⟩, by simp [policyMergeRanges], fun id => Iff.rfl⟩
  | cons r ranges ih =>
    obtain ⟨first, rest⟩ := pairwise_cons.mp sorted
    obtain ⟨own, others⟩ := forall_mem_cons.mp filled
    obtain ⟨next, later⟩ := forall_mem_cons.mp others
    have le := first r mem_cons_self
    have next_le := UInt32.le_iff_toNat_le.mp next
    have gap : (cur.last.toUInt64 + 1).toNat = cur.last.toNat + 1 := by
      have small := cur.last.toNat_lt
      rw [UInt64.toNat_add, UInt32.toNat_toUInt64]
      change (cur.last.toNat + 1) % 2 ^ 64 = _
      omega
    rw [policyMergeRanges]
    by_cases apart : cur.last.toUInt64 + 1 < r.first.toUInt64
    · rw [if_pos apart]
      rw [UInt64.lt_iff_toNat_lt, gap, UInt32.toNat_toUInt64] at apart
      obtain ⟨neat, least, has⟩ := ih rest others
      refine ⟨⟨forall_mem_cons.mpr ⟨own, neat.filled⟩, pairwise_cons.mpr
        ⟨fun s mem => apart.trans_le (least s mem), neat.apart⟩⟩, forall_mem_cons.mpr
        ⟨Nat.le_refl _, fun s mem => le.trans (least s mem)⟩, fun id => ?_⟩
      simp only [exists_mem_cons_iff, has]
    · rw [if_neg apart]
      rw [UInt64.lt_iff_toNat_lt, gap, UInt32.toNat_toUInt64, Nat.not_lt] at apart
      by_cases less : cur.last < r.last
      · rw [if_pos less]
        have longer := UInt32.lt_iff_toNat_lt.mp less
        have own_le := UInt32.le_iff_toNat_le.mp own
        obtain ⟨neat, least, has⟩ := @ih { cur with last := r.last }
          (pairwise_cons.mpr ⟨fun s mem => first s (mem_cons_of_mem _ mem), (pairwise_cons.mp rest).2⟩)
          (forall_mem_cons.mpr ⟨UInt32.le_iff_toNat_le.mpr (own_le.trans longer.le), later⟩)
        refine ⟨neat, least, fun id => ?_⟩
        rw [has, exists_mem_cons_iff, exists_mem_cons_iff, exists_mem_cons_iff,
          PolicyRange.Has.of_last le apart less, or_assoc]
      · rw [if_neg less]
        rw [UInt32.lt_iff_toNat_lt, Nat.not_lt] at less
        obtain ⟨neat, least, has⟩ := @ih cur
          (pairwise_cons.mpr ⟨fun s mem => first s (mem_cons_of_mem _ mem), (pairwise_cons.mp rest).2⟩)
          (forall_mem_cons.mpr ⟨own, later⟩)
        refine ⟨neat, least, fun id => ?_⟩
        have inside : r.Has id → cur.Has id := fun has => ⟨le.trans has.1, has.2.trans less⟩
        rw [has, exists_mem_cons_iff, exists_mem_cons_iff, exists_mem_cons_iff]
        tauto

/-- The ranges that are read are apart, and hold the ids that the lines give. -/
theorem policyBuildRanges_spec {memory : Nat → Bool} {binary : Bool} {content : Bytes}
    (built : policyBuildRanges memory binary content = some ranges) :
    NeatIds ranges ∧ ∀ id, (∃ r ∈ ranges, r.Has id) ↔ Subordinate binary content id := by
  obtain ⟨found, read, rfl⟩ := Option.map_eq_some_iff.mp built
  have mem := mem_policyReadRanges read
  have sorted := sortedBy_sortBy (fun r : PolicyRange => r.first.toNat) found
  have same : ∀ r, r ∈ sortBy (fun r : PolicyRange => r.first.toNat) found ↔
      ∃ line ∈ textLines lf content, policyRangeParse binary line = some r := by
    intro r
    rw [mem_sortBy, mem]
    simp
  have whole : ∀ id, Subordinate binary content id ↔
      ∃ r ∈ sortBy (fun r : PolicyRange => r.first.toNat) found, r.Has id := by
    intro id
    constructor
    · rintro ⟨line, inside, r, parsed, has⟩
      exact ⟨r, (same r).mpr ⟨line, inside, parsed⟩, has⟩
    · rintro ⟨r, inside, has⟩
      obtain ⟨line, inside, parsed⟩ := (same r).mp inside
      exact ⟨line, inside, r, parsed, has⟩
  have filled : ∀ r ∈ sortBy (fun r : PolicyRange => r.first.toNat) found, r.first ≤ r.last := by
    intro r inside
    obtain ⟨line, -, parsed⟩ := (same r).mp inside
    exact policyRangeParse_filled parsed
  cases list : sortBy (fun r : PolicyRange => r.first.toNat) found with
  | nil =>
    rw [list] at whole
    exact ⟨⟨nofun, .nil⟩, fun id => (whole id).symm⟩
  | cons cur rest =>
    rw [list] at whole filled sorted
    have pairs : (cur :: rest).Pairwise fun a b => a.first.toNat ≤ b.first.toNat :=
      sorted.imp fun le => Nat.compare_ne_gt.mp le
    obtain ⟨neat, -, has⟩ := policyMergeRanges_spec pairs filled
    exact ⟨neat, fun id => (has id).trans (whole id).symm⟩

/-- The search finds the range that an id is in. -/
theorem policyRangesHave_iff (neat : NeatIds ranges) (id : Nat) :
    policyRangesHave ranges id = true ↔ ∃ r ∈ ranges, r.Has id := by
  let p := fun r : PolicyRange => decide (r.last.toNat < id)
  have ordered : ranges.Pairwise fun a b => a.last.toNat < b.first.toNat ∧ b.first.toNat ≤ b.last.toNat := by
    refine (List.Pairwise.and_mem.mp neat.apart).imp fun {a b} both => ?_
    have filled := UInt32.le_iff_toNat_le.mp (neat.filled b both.2.1)
    have apart := both.2.2
    omega
  have stays : ranges.Pairwise fun a b => p a = false → p b = false := by
    refine ordered.imp fun {a b} both late => ?_
    simp only [p, decide_eq_false_iff_not] at late ⊢
    omega
  have point := splitPoint_takeWhile stays
  have whole : ranges.takeWhile p ++ ranges.dropWhile p = ranges := takeWhile_append_dropWhile
  have early : ∀ r ∈ ranges.takeWhile p, ¬ r.Has id := by
    intro r mem has
    have before := mem_takeWhile_imp mem
    simp only [p, decide_eq_true_eq] at before
    have := has.2
    omega
  have late := dropWhile_all stays
  have found : ranges[splitPoint p ranges 0 ranges.length]? = (ranges.dropWhile p).head? := by
    have rest : (ranges.takeWhile p ++ ranges.dropWhile p).drop (ranges.takeWhile p).length =
      ranges.dropWhile p := drop_left
    rw [whole] at rest
    rw [point, ← List.head?_drop, rest]
  rw [policyRangesHave]
  change (match ranges[splitPoint p ranges 0 ranges.length]? with
    | none => false
    | some r => decide (r.first.toNat ≤ id)) = true ↔ _
  rw [found]
  have members : (∃ r ∈ ranges, r.Has id) ↔ ∃ r ∈ ranges.dropWhile p, r.Has id := by
    conv_lhs => rw [← whole]
    constructor
    · rintro ⟨r, mem, has⟩
      rcases mem_append.mp mem with mem | mem
      · exact absurd has (early r mem)
      · exact ⟨r, mem, has⟩
    · rintro ⟨r, mem, has⟩
      exact ⟨r, mem_append_right _ mem, has⟩
  rw [members]
  rw [← whole] at ordered
  have rest := (pairwise_append.mp ordered).2.1
  cases back : ranges.dropWhile p with
  | nil => simp
  | cons r others =>
    rw [back] at late rest
    have own := late r mem_cons_self
    simp only [p, decide_eq_false_iff_not, Nat.not_lt] at own
    obtain ⟨behind, -⟩ := pairwise_cons.mp rest
    rw [List.head?_cons, exists_mem_cons_iff]
    dsimp only
    rw [decide_eq_true_eq]
    constructor
    · exact fun first => .inl ⟨first, own⟩
    · rintro (has | ⟨s, mem, has⟩)
      · exact has.1
      · have apart := behind s mem
        have inside := has.1
        have first_le := has.2
        have filled : r.first ≤ r.last := neat.filled r (by
          rw [← whole, back]
          exact mem_append_right _ mem_cons_self)
        rw [UInt32.le_iff_toNat_le] at filled
        omega

/-! ## The ids that a policy refuses -/

theorem utilDigits_le {s : Bytes} {max i value : Nat} (small : value ≤ max) : (utilDigits s max i value).2 ≤ max := by
  induction s generalizing i value with
  | nil => exact small
  | cons c s ih =>
    rw [utilDigits]
    split
    · dsimp only
      split
      · exact Nat.zero_le max
      · rename_i fits
        simp only [Bool.or_eq_true, decide_eq_true_eq, not_or, Nat.not_lt] at fits
        apply ih
        omega
    · exact small

theorem policyNumber_lt {text : Bytes} {gid : Nat} (number : policyNumber text = some gid) : gid < 4294967295 := by
  have small : (utilDigits text (2 ^ 32 - 2) 0 0).2 ≤ 2 ^ 32 - 2 := utilDigits_le (Nat.zero_le _)
  rw [policyNumber] at number
  dsimp only at number
  split at number
  · rw [← Option.some.inj number]
    omega
  · cases number

/-- A group is accepted when its gid is not the overflow gid and the ranges do not have it. -/
theorem policyBuildGroup_iff {host : PolicyHost} {subgid : Nat → Bool} {roles : List (Bytes × Json)}
    {key : Bytes} {val : Json} {g : PolicyGid} : policyBuildGroup host subgid roles (key, val) = .ok g ↔
      policyBuildRole roles val = some g.role ∧ policyBuildGid host key = .ok g.gid ∧
        g.gid ≠ host.overflowGid ∧ subgid g.gid = false := by
  rw [policyBuildGroup]
  cases policyBuildRole roles val with
  | none => simp
  | some role =>
    cases policyBuildGid host key with
    | error e =>
      constructor
      · nofun
      · rintro ⟨-, looked, -⟩
        cases looked
    | ok gid =>
      obtain ⟨gid', role'⟩ := g
      change (if gid = host.overflowGid then Except.error _
        else if subgid gid = true then Except.error _ else Except.ok _) = _ ↔ _
      rw [Option.some_inj, Except.ok.injEq]
      split
      · rename_i overflow
        constructor
        · nofun
        · rintro ⟨-, rfl, other, -⟩
          exact absurd overflow other
      · rename_i other
        split
        · rename_i subordinate
          constructor
          · nofun
          · rintro ⟨-, rfl, -, unlisted⟩
            rw [subordinate] at unlisted
            cases unlisted
        · rename_i unlisted
          rw [Bool.not_eq_true] at unlisted
          rw [Except.ok.injEq, PolicyGid.mk.injEq]
          constructor
          · rintro ⟨rfl, rfl⟩
            exact ⟨rfl, rfl, other, unlisted⟩
          · rintro ⟨rfl, rfl, -, -⟩
            exact ⟨rfl, rfl⟩

/-- The ranges read of a file are in order, disjoint and not adjoining, with the ends that its lines give;
a client is admitted by its uid exactly when that is not 4294967295, not the overflow uid and in none of
them; and a group is accepted by its gid exactly when that is not the overflow gid and in none of them,
where 4294967295 is no gid in digits. -/
theorem subordinate_ids {memory : Nat → Bool} {binary : Bool} {content : Bytes} {ranges : List PolicyRange}
    (built : policyBuildRanges memory binary content = some ranges) : NeatIds ranges ∧
    (∀ line r, policyRangeParse binary line = some r → ∃ start count,
      policyRangeFields binary line = some (start, count) ∧ 0 < count.toNat ∧ start.toNat < 2 ^ 32 ∧
        r.first.toNat = start.toNat ∧ r.last.toNat = min (start.toNat + count.toNat - 1) 4294967295) ∧
    (∀ overflowUid uid, policyAdmitUid { subuids := ranges, overflowUid } uid = .admitted ↔
      uid ≠ 4294967295 ∧ uid ≠ overflowUid ∧ ¬ Subordinate binary content uid.toNat) ∧
    (∀ host roles key val g, policyBuildGroup host (policyRangesHave ranges) roles (key, val) = .ok g ↔
      policyBuildRole roles val = some g.role ∧ policyBuildGid host key = .ok g.gid ∧
        g.gid ≠ host.overflowGid ∧ ¬ Subordinate binary content g.gid) ∧
    ∀ key gid, policyNumber key = some gid → gid < 4294967295 := by
  obtain ⟨neat, has⟩ := policyBuildRanges_spec built
  have have_ : ∀ id, policyRangesHave ranges id = true ↔ Subordinate binary content id :=
    fun id => (policyRangesHave_iff neat id).trans (has id)
  refine ⟨neat, fun line r parsed => policyRangeParse_eq_some.mp parsed, fun overflowUid uid => ?_,
    fun host roles key val g => ?_, fun key gid => policyNumber_lt⟩
  · rw [policyAdmitUid]
    dsimp only
    split
    · rename_i unmapped
      constructor
      · nofun
      · rintro ⟨first, second, -⟩
        exact absurd unmapped (not_or.mpr ⟨first, second⟩)
    · rename_i mapped
      obtain ⟨first, second⟩ := not_or.mp mapped
      rw [← have_]
      split
      · rename_i subordinate
        constructor
        · nofun
        · rintro ⟨-, -, unlisted⟩
          exact absurd subordinate unlisted
      · rename_i unlisted
        exact ⟨fun _ => ⟨first, second, unlisted⟩, fun _ => rfl⟩
  · rw [policyBuildGroup_iff, ← have_, Bool.not_eq_true]

/-- A range in decimal and hexadecimal, and a line of another form. -/
theorem subordinate_ids_one : NeatIds [{ first := 100000, last := 165535 }] :=
  (subordinate_ids (show policyBuildRanges (fun _ => true) false (ascii "a:100000:0x10000\nb:-1:1\n") =
    some [{ first := 100000, last := 165535 }] by decide +kernel)).1

/-- A group database that has the gid 4294967295 under a name. -/
def maxGroupHost : PolicyHost where
  getenv _ := none
  sha256 text := text
  hmac _ _ := none
  getgrnam _ := .ok 4294967295
  subuid := .ok ()
  subgid := .ok fun _ => false
  overflowGid := 65534

/-- The gid 4294967295 is accepted from the group database. -/
theorem max_group_accepted :
    ¬ ∀ (host : PolicyHost) (roles : List (Bytes × Json)) (key : Bytes) (val : Json) (g : PolicyGid),
      policyBuildGroup host (policyRangesHave []) roles (key, val) = .ok g → g.gid ≠ 4294967295 :=
  fun refused => refused maxGroupHost [(ascii "r", .null)] (ascii "g") (.string (ascii "r"))
    { gid := 4294967295, role := 0 }
    (policyBuildGroup_iff.mpr ⟨by decide, rfl, by decide, by decide⟩) rfl

end Askai
