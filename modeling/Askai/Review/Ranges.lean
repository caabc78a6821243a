import Askai.Library.Bsearch
import Askai.Library.Stretches
import Askai.Review.Source

/-!
# The lines read of a file

The ranges of lines of a file in the review record, and how one more becomes part of them
(`review.c`).
-/

namespace Askai

open Library Stretch List

/-- `struct review_range`. -/
structure ReviewRange where
  first : UInt32
  last : UInt32
  /-- The turn of the latest read that showed the lines. -/
  turn : UInt32
  deriving DecidableEq

/-- `review_range_merge`. -/
def reviewRangeMerge (p : List ReviewRange) (lines : ReviewRange) : List ReviewRange :=
  let lo := p.head?.getD lines
  let hi := p.getLast?.getD lines
  let first := if lo.turn = lines.turn ∧ lo.first < lines.first then lo.first else lines.first
  let last := if hi.turn = lines.turn ∧ lines.last < hi.last then hi.last else lines.last
  let before := if lo.first < first then [{ lo with last := first - 1 }] else []
  let behind := if last < hi.last then [{ hi with first := last + 1 }] else []
  before ++ { lines with first, last } :: behind

/-- The ranges before, among and behind those that `lines` overlaps or adjoins, as
`review_file_add_range` looks for them. -/
def reviewRangeSplit (p : List ReviewRange) (lines : ReviewRange) :
    List ReviewRange × List ReviewRange × List ReviewRange :=
  let rest := p.dropWhile fun q => q.last.toNat + 1 < lines.first.toNat
  (p.takeWhile fun q => q.last.toNat + 1 < lines.first.toNat,
    rest.takeWhile fun q => q.first.toNat ≤ lines.last.toNat + 1,
    rest.dropWhile fun q => q.first.toNat ≤ lines.last.toNat + 1)

/-- The loop of `review_file_run_end`: the last line and the lowest turn so far. -/
def reviewRunWalk (b last turn : UInt32) : List ReviewRange → UInt32 × UInt32
  | [] => (last, turn)
  | g :: rest =>
    if last < b ∧ g.first.toNat = last.toNat + 1 then
      reviewRunWalk b g.last (if g.turn < turn then g.turn else turn) rest
    else (last, turn)

/-- `review_file_run_end`: also the turn that it stores. -/
def reviewFileRunEnd (ranges : List ReviewRange) (a b : UInt32) : UInt32 × Option UInt32 :=
  let lo := splitPoint (fun r : ReviewRange => decide (r.first ≤ a)) ranges 0 ranges.length
  match lo with
  | 0 => (0, none)
  | k + 1 =>
    match ranges.drop k with
    | [] => (0, none)
    | g :: rest =>
      if g.last < a then (0, none)
      else
        let (last, turn) := reviewRunWalk b g.last g.turn rest
        (last, some turn)

/-! ## Lines and their turns -/

def ReviewRange.toStretch (r : ReviewRange) : Stretch UInt32 :=
  { first := r.first.toNat, last := r.last.toNat, tag := r.turn }

/-- The turn of each line. -/
def lineTurn (ranges : List ReviewRange) : Nat → Option UInt32 :=
  tagAt (ranges.map ReviewRange.toStretch)

/-- Sorted, disjoint, none empty, and adjoining ones of different turns. -/
def NeatRanges (ranges : List ReviewRange) : Prop :=
  Neat (ranges.map ReviewRange.toStretch)

theorem reviewRangeMerge_toStretch (p : List ReviewRange) (lines : ReviewRange) :
    (reviewRangeMerge p lines).map ReviewRange.toStretch =
      Stretch.merge (p.map ReviewRange.toStretch) lines.toStretch := by
  have head : (p.map ReviewRange.toStretch).head?.getD lines.toStretch = (p.head?.getD lines).toStretch := by
    rw [List.head?_map, Option.getD_map]
  have last : (p.map ReviewRange.toStretch).getLast?.getD lines.toStretch = (p.getLast?.getD lines).toStretch := by
    rw [List.getLast?_map, Option.getD_map]
  rw [reviewRangeMerge, Stretch.merge, head, last]
  generalize p.head?.getD lines = lo
  generalize p.getLast?.getD lines = hi
  have low : (if lo.turn = lines.turn ∧ lo.first < lines.first then lo.first else lines.first).toNat =
      if lo.toStretch.tag = lines.toStretch.tag ∧ lo.toStretch.first < lines.toStretch.first then
        lo.toStretch.first else lines.toStretch.first := by
    rw [apply_ite UInt32.toNat]
    simp only [UInt32.lt_iff_toNat_lt]
    rfl
  have high : (if hi.turn = lines.turn ∧ lines.last < hi.last then hi.last else lines.last).toNat =
      if hi.toStretch.tag = lines.toStretch.tag ∧ lines.toStretch.last < hi.toStretch.last then
        hi.toStretch.last else lines.toStretch.last := by
    rw [apply_ite UInt32.toNat]
    simp only [UInt32.lt_iff_toNat_lt]
    rfl
  rw [← low, ← high]
  generalize (if lo.turn = lines.turn ∧ lo.first < lines.first then lo.first else lines.first) = first
  generalize (if hi.turn = lines.turn ∧ lines.last < hi.last then hi.last else lines.last) = end_
  have before : (if lo.first < first then [{ lo with last := first - 1 }] else []).map
      ReviewRange.toStretch = if lo.toStretch.first < first.toNat then
        [{ lo.toStretch with last := first.toNat - 1 }] else [] := by
    by_cases less : lo.first < first
    · have less' : lo.toStretch.first < first.toNat := UInt32.lt_iff_toNat_lt.mp less
      have value : (first - 1).toNat = first.toNat - 1 :=
        UInt32.toNat_sub_of_le _ _ (UInt32.le_iff_toNat_le.mpr (Nat.one_le_of_lt less'))
      rw [if_pos less, if_pos less', map_singleton, ReviewRange.toStretch, value]
      rfl
    · have more : ¬ lo.toStretch.first < first.toNat := mt UInt32.lt_iff_toNat_lt.mpr less
      rw [if_neg less, if_neg more, map_nil]
  have behind : (if end_ < hi.last then [{ hi with first := end_ + 1 }] else []).map
      ReviewRange.toStretch = if end_.toNat < hi.toStretch.last then
        [{ hi.toStretch with first := end_.toNat + 1 }] else [] := by
    by_cases less : end_ < hi.last
    · have less' : end_.toNat < hi.toStretch.last := UInt32.lt_iff_toNat_lt.mp less
      have bound : hi.toStretch.last < 2 ^ 32 := hi.last.toNat_lt
      have value : (end_ + 1).toNat = end_.toNat + 1 := by
        rw [UInt32.toNat_add]
        exact Nat.mod_eq_of_lt (by change end_.toNat + 1 < 2 ^ 32; omega)
      rw [if_pos less, if_pos less', map_singleton, ReviewRange.toStretch, value]
      rfl
    · have more : ¬ end_.toNat < hi.toStretch.last := mt UInt32.lt_iff_toNat_lt.mpr less
      rw [if_neg less, if_neg more, map_nil]
  rw [map_append, map_cons, before, behind]
  rfl

theorem reviewRangeSplit_toStretch (p : List ReviewRange) (lines : ReviewRange) :
    Stretch.split (p.map ReviewRange.toStretch) lines.toStretch =
      ((reviewRangeSplit p lines).1.map ReviewRange.toStretch, (reviewRangeSplit p lines).2.1.map ReviewRange.toStretch,
        (reviewRangeSplit p lines).2.2.map ReviewRange.toStretch) := by
  rw [Stretch.split, reviewRangeSplit]
  simp only [takeWhile_map, dropWhile_map]
  rfl

/-- The ranges with one more, as `review_file_add_range` puts it in. -/
def reviewRangeInsert (ranges : List ReviewRange) (lines : ReviewRange) : List ReviewRange :=
  let (front, mid, back) := reviewRangeSplit ranges lines
  front ++ reviewRangeMerge mid lines ++ back

theorem reviewRangeInsert_toStretch (ranges : List ReviewRange) (lines : ReviewRange) :
    (reviewRangeInsert ranges lines).map ReviewRange.toStretch =
      Stretch.insert (ranges.map ReviewRange.toStretch) lines.toStretch := by
  rw [Stretch.insert, reviewRangeSplit_toStretch, reviewRangeInsert]
  simp only [map_append, reviewRangeMerge_toStretch]

variable {ranges : List ReviewRange} {lines : ReviewRange}

theorem toStretch_filled (filled : lines.first ≤ lines.last) : lines.toStretch.first ≤ lines.toStretch.last :=
  UInt32.le_iff_toNat_le.mp filled

theorem NeatRanges.insert (neat : NeatRanges ranges) (filled : lines.first ≤ lines.last) :
    NeatRanges (reviewRangeInsert ranges lines) := by
  rw [NeatRanges, reviewRangeInsert_toStretch]
  exact Neat.insert neat (toStretch_filled filled)

theorem NeatRanges.lineTurn_insert (neat : NeatRanges ranges) (filled : lines.first ≤ lines.last) :
    lineTurn (reviewRangeInsert ranges lines) = lay (lineTurn ranges) lines.toStretch := by
  rw [lineTurn, reviewRangeInsert_toStretch]
  exact Neat.tagAt_insert neat (toStretch_filled filled)

theorem toStretch_injective : Function.Injective ReviewRange.toStretch := by
  rintro ⟨first, last, turn⟩ ⟨first', last', turn'⟩ same
  obtain ⟨one, two, three⟩ := Stretch.mk.inj same
  obtain rfl := UInt32.toNat_inj.mp one
  obtain rfl := UInt32.toNat_inj.mp two
  obtain rfl := three
  rfl

/-- A range behind all others is put there. -/
theorem NeatRanges.insert_last (neat : NeatRanges (ranges ++ [lines])) :
    reviewRangeInsert ranges lines = ranges ++ [lines] := by
  apply map_injective_iff.mpr toStretch_injective
  rw [reviewRangeInsert_toStretch, map_append]
  rw [NeatRanges, map_append] at neat
  exact neat.insert_last

/-! ## The end of a run -/

/-- Each begins where the one before ends. -/
def Adjoining (run : List ReviewRange) : Prop :=
  run.IsChain fun g h => h.first.toNat = g.last.toNat + 1

/-- The run of ranges that begins at `a` and stops before a gap or in the range that reaches `b`. -/
structure IsRun (ranges : List ReviewRange) (a b : UInt32) (run : List ReviewRange) (g h : ReviewRange) :
    Prop where
  whole : ∃ front back, ranges = front ++ run ++ back ∧
    (h.last < b → ∀ q ∈ back.head?, q.first.toNat ≠ h.last.toNat + 1)
  first : run.head? = some g
  last : run.getLast? = some h
  has : g.first ≤ a ∧ a ≤ g.last
  adjoining : Adjoining run
  short : ∀ q ∈ run.dropLast, q.last < b

/-- What the walk goes through behind a range. -/
theorem reviewRunWalk_spec (b turn : UInt32) (g : ReviewRange) (rest : List ReviewRange) :
    let end_ := reviewRunWalk b g.last turn rest
    ∃ more back h, rest = more ++ back ∧ Adjoining (g :: more) ∧ (g :: more).getLast? = some h ∧
      (∀ q ∈ (g :: more).dropLast, q.last < b) ∧
      (h.last < b → ∀ q ∈ back.head?, q.first.toNat ≠ h.last.toNat + 1) ∧
      end_.1 = h.last ∧ end_.2 ≤ turn ∧ (∀ q ∈ more, end_.2 ≤ q.turn) ∧
      (end_.2 = turn ∨ ∃ q ∈ more, q.turn = end_.2) := by
  induction rest generalizing g turn with
  | nil =>
    exact ⟨[], [], g, rfl, .singleton g, rfl, by simp, by simp, rfl, UInt32.le_refl _, by simp, .inl rfl⟩
  | cons next rest ih =>
    rw [reviewRunWalk]
    split
    · rename_i on
      obtain ⟨more, back, h, rfl, adjoining, last, short, stops, value, least, all, from_⟩ :=
        ih (if next.turn < turn then next.turn else turn) next
      have bound : (if next.turn < turn then next.turn else turn) ≤ turn ∧
          (if next.turn < turn then next.turn else turn) ≤ next.turn := by
        split
        · rename_i less
          exact ⟨UInt32.le_of_lt less, UInt32.le_refl _⟩
        · rename_i less
          exact ⟨UInt32.le_refl _, UInt32.not_lt.mp less⟩
      refine ⟨next :: more, back, h, rfl, isChain_cons_cons.mpr ⟨on.2, adjoining⟩, ?_, ?_, stops,
        value, UInt32.le_trans least bound.1, ?_, ?_⟩
      · rw [List.getLast?_cons_cons, last]
      · intro q mem
        rw [dropLast_cons_cons, mem_cons] at mem
        rcases mem with rfl | mem
        · exact on.1
        · exact short q mem
      · intro q mem
        rcases mem_cons.mp mem with rfl | mem
        · exact UInt32.le_trans least bound.2
        · exact all q mem
      · rcases from_ with same | ⟨q, mem, same⟩
        · rw [same]
          split
          · exact .inr ⟨next, mem_cons_self, rfl⟩
          · exact .inl rfl
        · exact .inr ⟨q, mem_cons_of_mem _ mem, same⟩
    · rename_i stop
      refine ⟨[], next :: rest, g, rfl, .singleton g, rfl, by simp, ?_, rfl, UInt32.le_refl _, by simp, .inl rfl⟩
      rintro less q same adjoins
      obtain rfl : next = q := by simpa using same
      exact stop ⟨less, adjoins⟩

/-- No range has the line, or the last line of the run from it is found, with its lowest turn. -/
theorem NeatRanges.runEnd (neat : NeatRanges ranges) (a b : UInt32) :
    (reviewFileRunEnd ranges a b = (0, none) ∧ ∀ q ∈ ranges, ¬ (q.first ≤ a ∧ a ≤ q.last)) ∨
      ∃ run g h turn, IsRun ranges a b run g h ∧ reviewFileRunEnd ranges a b = (h.last, some turn) ∧
        (∀ q ∈ run, turn ≤ q.turn) ∧ ∃ q ∈ run, q.turn = turn := by
  have apart : ranges.Pairwise fun q q' => q.toStretch.Apart q'.toStretch :=
    pairwise_map.mp neat.apart
  have filled : ∀ q ∈ ranges, q.first.toNat ≤ q.last.toNat := fun q mem =>
    neat.filled q.toStretch (mem_map_of_mem mem)
  let p := fun r : ReviewRange => decide (r.first ≤ a)
  have split : ranges.takeWhile p ++ ranges.dropWhile p = ranges := takeWhile_append_dropWhile
  have early : ∀ q ∈ ranges.takeWhile p, q.first.toNat ≤ a.toNat := fun q mem => by
    simpa [p, UInt32.le_iff_toNat_le] using mem_takeWhile_imp mem
  have stays : ranges.Pairwise fun q q' => p q = false → p q' = false := by
    refine (List.Pairwise.and_mem.mp apart).imp fun {q q'} both => ?_
    obtain ⟨mem, -, less, -⟩ := both
    change q.last.toNat < q'.first.toNat at less
    have := filled q mem
    simp only [p, decide_eq_false_iff_not, UInt32.le_iff_toNat_le]
    omega
  have late := dropWhile_all stays
  have point := splitPoint_takeWhile stays
  rcases eq_nil_or_concat' (ranges.takeWhile p) with none_ | ⟨init, g, whole⟩
  · refine .inl ⟨?_, fun q mem has => ?_⟩
    · rw [none_] at point
      rw [reviewFileRunEnd]
      change (match splitPoint p ranges 0 ranges.length with | 0 => _ | k + 1 => _) = _
      rw [point]
      rfl
    · rw [← split, none_, nil_append] at mem
      have other := late q mem
      simp only [p, decide_eq_false_iff_not] at other
      exact other has.1
  · have drop : ranges.drop init.length = g :: ranges.dropWhile p := by
      conv_lhs => rw [← split, whole, append_assoc]
      exact drop_left
    have result : reviewFileRunEnd ranges a b = if g.last < a then (0, none)
        else
          let (last, turn) := reviewRunWalk b g.last g.turn (ranges.dropWhile p)
          (last, some turn) := by
      rw [whole, length_append, length_singleton] at point
      rw [reviewFileRunEnd]
      change (match splitPoint p ranges 0 ranges.length with | 0 => _ | k + 1 => _) = _
      rw [point]
      dsimp only
      rw [drop]
    have before : ∀ q ∈ init, q.last.toNat < g.first.toNat := by
      intro q mem
      rw [← split, whole] at apart
      exact ((pairwise_append.mp (pairwise_append.mp apart).1).2.2 q mem g (by simp)).1
    have low : g.first.toNat ≤ a.toNat := early g (by rw [whole]; simp)
    rw [result]
    by_cases beyond : g.last < a
    · refine .inl ⟨if_pos beyond, fun q mem has => ?_⟩
      rw [← split, whole, mem_append, mem_append, mem_singleton] at mem
      have high := UInt32.le_iff_toNat_le.mp has.2
      rcases mem with (mem | rfl) | mem
      · have := before q mem
        omega
      · exact UInt32.not_le.mpr beyond has.2
      · have other := late q mem
        simp only [p, decide_eq_false_iff_not] at other
        exact other has.1
    · rw [if_neg beyond]
      obtain ⟨more, back, h, rest, adjoining, last, short, stops, value, least, all, from_⟩ :=
        reviewRunWalk_spec b g.turn g (ranges.dropWhile p)
      refine .inr ⟨g :: more, g, h, (reviewRunWalk b g.last g.turn (ranges.dropWhile p)).2,
        ⟨⟨init, back, ?_, stops⟩, rfl, last, ⟨UInt32.le_iff_toNat_le.mpr low, UInt32.not_lt.mp beyond⟩,
          adjoining, short⟩, ?_, ?_, ?_⟩
      · rw [← split, whole, rest]
        simp
      · dsimp only
        rw [value]
      · intro q mem
        rcases mem_cons.mp mem with rfl | mem
        · exact least
        · exact all q mem
      · rcases from_ with same | ⟨q, mem, same⟩
        · exact ⟨g, mem_cons_self, same.symm⟩
        · exact ⟨q, mem_cons_of_mem _ mem, same⟩

end Askai
