import Mathlib

/-!
# Histograms

The buckets of 64-bit values, exact up to `HIST_SUB` and `HIST_SUB` to an octave above it, and what is counted in them
(`hist.h`).
-/

namespace Askai

open List

/-- `HIST_SIG_BITS`. -/
abbrev histSigBits : UInt64 := 7

/-- `HIST_SUB`. -/
abbrev histSub : UInt64 := 128

/-- `HIST_BUCKETS`. -/
abbrev histBuckets : Nat := 7424

/-- `clz64`, of a value that is not zero. -/
def clz64 (v : UInt64) : UInt64 :=
  UInt64.ofNat (63 - Nat.log2 v.toNat)

/-- How far `hist_index` shifts a value that is not below `HIST_SUB`. -/
def histShift (v : UInt64) : UInt64 :=
  63 - clz64 v - histSigBits

/-- `hist_index`. -/
def histIndex (v : UInt64) : UInt64 :=
  if v < histSub then v
  else (histShift v + 1) * histSub + (v - histSub <<< histShift v) >>> histShift v

/-- `hist_value`. -/
def histValue (i : UInt64) : UInt64 :=
  if i < histSub then i
  else
    let x := i / histSub - 1
    (i % histSub) <<< x + histSub <<< x + (1 : UInt64) <<< x / 2

/-! ## The buckets as numbers -/

/-- The number of the bucket of a value. -/
def bucketOf (v : Nat) : Nat :=
  128 * (Nat.log2 v - 7) + v / 2 ^ (Nat.log2 v - 7)

/-- The middle of a bucket. -/
def middleOf (i : Nat) : Nat :=
  if i < 128 then i else (i % 128) * 2 ^ (i / 128 - 1) + 128 * 2 ^ (i / 128 - 1) + 2 ^ (i / 128 - 1) / 2

theorem log2_bounds {v : Nat} (some_ : 128 ≤ v) : 7 ≤ Nat.log2 v ∧ 2 ^ Nat.log2 v ≤ v ∧ v < 2 ^ (Nat.log2 v + 1) := by
  refine ⟨?_, Nat.log2_self_le (by omega), Nat.lt_log2_self⟩
  exact (Nat.le_log2 (by omega)).mpr some_

/-- A value that is shifted has the seven bits under its highest one left. -/
theorem shifted_bounds {v : Nat} (some_ : 128 ≤ v) :
    128 ≤ v / 2 ^ (Nat.log2 v - 7) ∧ v / 2 ^ (Nat.log2 v - 7) < 256 := by
  obtain ⟨seven, low, high⟩ := log2_bounds some_
  obtain ⟨x, is⟩ : ∃ x, Nat.log2 v = x + 7 := ⟨Nat.log2 v - 7, by omega⟩
  have positive : 0 < 2 ^ x := Nat.two_pow_pos x
  rw [is, pow_add] at low
  rw [is, pow_add, pow_add] at high
  rw [is, Nat.add_sub_cancel]
  constructor
  · rw [Nat.le_div_iff_mul_le positive]
    omega
  · rw [Nat.div_lt_iff_lt_mul positive]
    omega

theorem bucketOf_small {v : Nat} (small : v < 128) : bucketOf v = v := by
  have shift : Nat.log2 v - 7 = 0 := by
    rcases Nat.eq_zero_or_pos v with rfl | some_
    · rw [Nat.log2_zero]
    · have below : Nat.log2 v < 7 := (Nat.log2_lt (by omega)).mpr small
      omega
  rw [bucketOf, shift, pow_zero, Nat.div_one, Nat.mul_zero, Nat.zero_add]

theorem bucketOf_lt {v : Nat} (inside : v < 2 ^ 64) : bucketOf v < histBuckets := by
  by_cases small : v < 128
  · rw [bucketOf_small small]
    exact small.trans (by decide)
  · obtain ⟨-, high⟩ := shifted_bounds (Nat.not_lt.mp small)
    have below : Nat.log2 v < 64 := (Nat.log2_lt (by omega)).mpr inside
    change 128 * _ + _ < 7424
    omega

theorem bucketOf_mono {v w : Nat} (le : v ≤ w) : bucketOf v ≤ bucketOf w := by
  by_cases small : v < 128
  · rw [bucketOf_small small]
    by_cases small' : w < 128
    · rw [bucketOf_small small']
      exact le
    · obtain ⟨low, -⟩ := shifted_bounds (Nat.not_lt.mp small')
      rw [bucketOf]
      omega
  · obtain ⟨-, high⟩ := shifted_bounds (Nat.not_lt.mp small)
    obtain ⟨low, -⟩ := shifted_bounds ((Nat.not_lt.mp small).trans le)
    have order : Nat.log2 v ≤ Nat.log2 w := by
      rw [Nat.log2_eq_log_two, Nat.log2_eq_log_two]
      exact Nat.log_mono_right le
    obtain ⟨seven, -⟩ := log2_bounds (Nat.not_lt.mp small)
    rw [bucketOf, bucketOf]
    rcases order.eq_or_lt with same | less
    · -- within an octave
      rw [same]
      exact Nat.add_le_add_left (Nat.div_le_div_right le) _
    · -- an octave holds `HIST_SUB` buckets
      omega

/-- The middle of a bucket above the first ones lies in its octave. -/
theorem middleOf_eq {i : Nat} (past : 128 ≤ i) :
    middleOf i = (i % 128 + 128) * 2 ^ (i / 128 - 1) + 2 ^ (i / 128 - 1) / 2 := by
  rw [middleOf, if_neg (Nat.not_lt.mpr past), Nat.add_mul]

theorem middleOf_div {i : Nat} (past : 128 ≤ i) : middleOf i / 2 ^ (i / 128 - 1) = i % 128 + 128 := by
  have positive : 0 < 2 ^ (i / 128 - 1) := Nat.two_pow_pos _
  rw [middleOf_eq past, Nat.add_comm, Nat.add_mul_div_right _ _ positive,
    Nat.div_eq_of_lt (Nat.div_lt_self positive (by decide)), Nat.zero_add]

theorem log2_middleOf {i : Nat} (past : 128 ≤ i) : Nat.log2 (middleOf i) = i / 128 - 1 + 7 := by
  have positive : 0 < 2 ^ (i / 128 - 1) := Nat.two_pow_pos _
  have half : 2 ^ (i / 128 - 1) / 2 < 2 ^ (i / 128 - 1) := Nat.div_lt_self positive (by decide)
  have offset : i % 128 < 128 := Nat.mod_lt _ (by decide)
  have low : 128 * 2 ^ (i / 128 - 1) ≤ middleOf i := by
    rw [middleOf_eq past, Nat.add_mul]
    omega
  have high : middleOf i < 256 * 2 ^ (i / 128 - 1) := by
    have most : (i % 128 + 128 + 1) * 2 ^ (i / 128 - 1) ≤ 256 * 2 ^ (i / 128 - 1) :=
      Nat.mul_le_mul_right _ (by omega)
    rw [Nat.add_mul, Nat.one_mul] at most
    rw [middleOf_eq past]
    omega
  have some_ : middleOf i ≠ 0 := by omega
  rw [Nat.log2_eq_iff some_]
  constructor
  · rw [pow_add]
    omega
  · rw [pow_succ, pow_add]
    omega

theorem bucketOf_middleOf (i : Nat) : bucketOf (middleOf i) = i := by
  by_cases small : i < 128
  · rw [middleOf, if_pos small, bucketOf_small small]
  · have past := Nat.not_lt.mp small
    rw [bucketOf, log2_middleOf past, Nat.add_sub_cancel, middleOf_div past]
    have parts := Nat.div_add_mod i 128
    have some_ : 1 ≤ i / 128 := (Nat.one_le_div_iff (by decide)).mpr past
    omega

theorem middleOf_lt {i : Nat} (inside : i < histBuckets) : middleOf i < 2 ^ 64 := by
  by_cases small : i < 128
  · rw [middleOf, if_pos small]
    omega
  · have past := Nat.not_lt.mp small
    have most : i / 128 < 58 := Nat.div_lt_of_lt_mul inside
    have octave : 2 ^ (i / 128 - 1 + 7 + 1) ≤ 2 ^ 64 := Nat.pow_le_pow_right (by decide) (by omega)
    have below : middleOf i < 2 ^ (Nat.log2 (middleOf i) + 1) := Nat.lt_log2_self
    rw [log2_middleOf past] at below
    exact below.trans_le octave

/-- A value is in a bucket whose middle is near it. -/
theorem middleOf_near {v : Nat} (some_ : v ≠ 0) :
    128 * (v - middleOf (bucketOf v)) < v ∧ 128 * (middleOf (bucketOf v) - v) < v := by
  by_cases small : v < 128
  · rw [bucketOf_small small, middleOf, if_pos small]
    omega
  · obtain ⟨low, high⟩ := shifted_bounds (Nat.not_lt.mp small)
    obtain ⟨x, is⟩ : ∃ x, x = Nat.log2 v - 7 := ⟨_, rfl⟩
    rw [← is] at low high
    have octave : (128 * x + v / 2 ^ x) / 128 - 1 = x := by omega
    have offset : (128 * x + v / 2 ^ x) % 128 + 128 = v / 2 ^ x := by omega
    rw [bucketOf, ← is, middleOf_eq (by omega), octave, offset]
    have positive : 0 < 2 ^ x := Nat.two_pow_pos x
    have parts := Nat.div_add_mod v (2 ^ x)
    have rest : v % 2 ^ x < 2 ^ x := Nat.mod_lt _ positive
    have least : 128 * 2 ^ x ≤ v / 2 ^ x * 2 ^ x := Nat.mul_le_mul_right _ low
    rw [Nat.mul_comm] at parts
    constructor <;> omega

/-! ## The code's arithmetic -/

theorem le_iff_128 (v : UInt64) : v < histSub ↔ v.toNat < 128 :=
  UInt64.lt_iff_toNat_lt

theorem toNat_clz64 (v : UInt64) : (clz64 v).toNat = 63 - Nat.log2 v.toNat := by
  rw [clz64, UInt64.toNat_ofNat']
  exact Nat.mod_eq_of_lt (by omega)

/-- The scan of a value that is not below `HIST_SUB`, and what is subtracted of it. -/
theorem toNat_histShift {v : UInt64} (some_ : 128 ≤ v.toNat) :
    (clz64 v).toNat + 7 ≤ 63 ∧ (histShift v).toNat = Nat.log2 v.toNat - 7 := by
  obtain ⟨seven, -⟩ := log2_bounds some_
  have inside : Nat.log2 v.toNat < 64 := (Nat.log2_lt (by omega)).mpr v.toNat_lt
  have scan := toNat_clz64 v
  have first : (63 - clz64 v).toNat = Nat.log2 v.toNat := by
    rw [UInt64.toNat_sub_of_le _ _ (UInt64.le_iff_toNat_le.mpr (by
      change _ ≤ 63
      omega)), scan]
    change 63 - _ = _
    omega
  refine ⟨by omega, ?_⟩
  rw [histShift, UInt64.toNat_sub_of_le _ _ (UInt64.le_iff_toNat_le.mpr (by
    rw [first]
    exact seven)), first]
  rfl

theorem toNat_shiftLeft_of_lt {a k : UInt64} (count : k.toNat < 64) (fits : a.toNat * 2 ^ k.toNat < 2 ^ 64) :
    (a <<< k).toNat = a.toNat * 2 ^ k.toNat := by
  rw [UInt64.toNat_shiftLeft, Nat.mod_eq_of_lt count, Nat.shiftLeft_eq, Nat.mod_eq_of_lt fits]

theorem toNat_shiftRight_of_lt {a k : UInt64} (count : k.toNat < 64) : (a >>> k).toNat = a.toNat / 2 ^ k.toNat := by
  rw [UInt64.toNat_shiftRight, Nat.mod_eq_of_lt count, Nat.shiftRight_eq_div_pow]

theorem toNat_add_of_lt {a b : UInt64} (fits : a.toNat + b.toNat < 2 ^ 64) : (a + b).toNat = a.toNat + b.toNat := by
  rw [UInt64.toNat_add, Nat.mod_eq_of_lt fits]

/-- What `hist_index` computes, with nothing lost: its differences are not negative, its shifts are below 64 and lose
no bit, and its sum is a 64-bit number. -/
structure IndexExact (v : UInt64) : Prop where
  scan : (clz64 v).toNat + histSigBits.toNat ≤ 63
  shift : (histShift v).toNat = 63 - (clz64 v).toNat - histSigBits.toNat
  shift_lt : (histShift v).toNat < 64
  low : histSub.toNat * 2 ^ (histShift v).toNat ≤ v.toNat
  fits : ((histShift v).toNat + 1) * histSub.toNat +
    (v.toNat - histSub.toNat * 2 ^ (histShift v).toNat) / 2 ^ (histShift v).toNat < 2 ^ 64

theorem histIndex_exact {v : UInt64} (some_ : histSub ≤ v) : IndexExact v := by
  have past : 128 ≤ v.toNat := UInt64.le_iff_toNat_le.mp some_
  obtain ⟨scan, shift⟩ := toNat_histShift past
  obtain ⟨seven, low, high⟩ := log2_bounds past
  have inside : Nat.log2 v.toNat < 64 := (Nat.log2_lt (by omega)).mpr v.toNat_lt
  have clz := toNat_clz64 v
  have parts : 2 ^ Nat.log2 v.toNat = 128 * 2 ^ (histShift v).toNat := by
    rw [shift]
    conv_lhs => rw [← Nat.sub_add_cancel seven, pow_add, Nat.mul_comm]
    rfl
  have most : (v.toNat - 128 * 2 ^ (histShift v).toNat) / 2 ^ (histShift v).toNat ≤ v.toNat :=
    (Nat.div_le_self _ _).trans (Nat.sub_le _ _)
  refine ⟨scan, ?_, by omega, ?_, ?_⟩
  · change _ = 63 - _ - 7
    omega
  · change 128 * _ ≤ _
    rw [← parts]
    exact low
  · change (_ + 1) * 128 + (_ - 128 * _) / _ < _
    obtain ⟨-, small⟩ := shifted_bounds past
    have le : (v.toNat - 128 * 2 ^ (histShift v).toNat) / 2 ^ (histShift v).toNat ≤
        v.toNat / 2 ^ (histShift v).toNat := Nat.div_le_div_right (Nat.sub_le _ _)
    rw [shift] at le ⊢
    omega

theorem toNat_histIndex (v : UInt64) : (histIndex v).toNat = bucketOf v.toNat := by
  rw [histIndex]
  by_cases small : v < histSub
  · rw [if_pos small, bucketOf_small ((le_iff_128 v).mp small)]
  · have exact_ := histIndex_exact (UInt64.not_lt.mp small)
    have past : 128 ≤ v.toNat := UInt64.le_iff_toNat_le.mp (UInt64.not_lt.mp small)
    obtain ⟨-, shift⟩ := toNat_histShift past
    have low := exact_.low
    have fits := exact_.fits
    have lost : (histSub <<< histShift v).toNat = histSub.toNat * 2 ^ (histShift v).toNat :=
      toNat_shiftLeft_of_lt exact_.shift_lt (low.trans_lt v.toNat_lt)
    have rest : (v - histSub <<< histShift v).toNat = v.toNat - histSub.toNat * 2 ^ (histShift v).toNat := by
      rw [UInt64.toNat_sub_of_le _ _ (UInt64.le_iff_toNat_le.mpr (by
        rw [lost]
        exact low)), lost]
    have next : (histShift v + 1).toNat = (histShift v).toNat + 1 := toNat_add_of_lt (by
      have less := exact_.shift_lt
      change _ + 1 < _
      omega)
    have octave : ((histShift v + 1) * histSub).toNat = ((histShift v).toNat + 1) * histSub.toNat := by
      rw [UInt64.toNat_mul, next]
      exact Nat.mod_eq_of_lt ((Nat.le_add_right _ _).trans_lt fits)
    have offset : ((v - histSub <<< histShift v) >>> histShift v).toNat =
        (v.toNat - histSub.toNat * 2 ^ (histShift v).toNat) / 2 ^ (histShift v).toNat := by
      rw [toNat_shiftRight_of_lt exact_.shift_lt, rest]
    rw [if_neg small, toNat_add_of_lt (by rw [octave, offset]; exact fits), octave, offset]
    have positive : 0 < 2 ^ (histShift v).toNat := Nat.two_pow_pos _
    have split_ : (v.toNat - 128 * 2 ^ (histShift v).toNat) / 2 ^ (histShift v).toNat =
        v.toNat / 2 ^ (histShift v).toNat - 128 := by
      rw [Nat.mul_comm, Nat.sub_mul_div]
    change (_ + 1) * 128 + (_ - 128 * _) / _ = _
    obtain ⟨least, -⟩ := shifted_bounds past
    rw [split_, bucketOf, shift]
    omega

/-- What `hist_value` computes, with nothing lost. -/
structure ValueExact (i : UInt64) : Prop where
  octave : 1 ≤ i.toNat / histSub.toNat
  shift_lt : i.toNat / histSub.toNat - 1 < 64
  fits : i.toNat % histSub.toNat * 2 ^ (i.toNat / histSub.toNat - 1) +
    histSub.toNat * 2 ^ (i.toNat / histSub.toNat - 1) + 2 ^ (i.toNat / histSub.toNat - 1) / 2 < 2 ^ 64

theorem histValue_exact {i : UInt64} (some_ : histSub ≤ i) (inside : i.toNat < histBuckets) : ValueExact i := by
  have past : 128 ≤ i.toNat := UInt64.le_iff_toNat_le.mp some_
  have most : i.toNat / 128 < 58 := Nat.div_lt_of_lt_mul inside
  have below := middleOf_lt inside
  rw [middleOf, if_neg (Nat.not_lt.mpr past)] at below
  refine ⟨(Nat.one_le_div_iff (by decide)).mpr past, ?_, below⟩
  change i.toNat / 128 - 1 < 64
  omega

theorem toNat_histValue {i : UInt64} (inside : i.toNat < histBuckets) : (histValue i).toNat = middleOf i.toNat := by
  rw [histValue]
  by_cases small : i < histSub
  · rw [if_pos small, middleOf, if_pos ((le_iff_128 i).mp small)]
  · have past := UInt64.not_lt.mp small
    have exact_ := histValue_exact past inside
    have fits := exact_.fits
    have octave := exact_.octave
    have shift : (i / histSub - 1).toNat = i.toNat / histSub.toNat - 1 := by
      rw [UInt64.toNat_sub_of_le _ _ (UInt64.le_iff_toNat_le.mpr (by
        rw [UInt64.toNat_div]
        exact octave)), UInt64.toNat_div]
      rfl
    have shift_lt : (i / histSub - 1).toNat < 64 := by
      rw [shift]
      exact exact_.shift_lt
    rw [← shift] at fits
    have offset : ((i % histSub) <<< (i / histSub - 1)).toNat =
        i.toNat % histSub.toNat * 2 ^ (i / histSub - 1).toNat := by
      rw [toNat_shiftLeft_of_lt shift_lt, UInt64.toNat_mod]
      rw [UInt64.toNat_mod]
      exact ((Nat.le_add_right _ _).trans (Nat.le_add_right _ _)).trans_lt fits
    have first : (histSub <<< (i / histSub - 1)).toNat = histSub.toNat * 2 ^ (i / histSub - 1).toNat := by
      apply toNat_shiftLeft_of_lt shift_lt
      exact ((Nat.le_add_left _ _).trans (Nat.le_add_right _ _)).trans_lt fits
    have half : ((1 : UInt64) <<< (i / histSub - 1) / 2).toNat = 2 ^ (i / histSub - 1).toNat / 2 := by
      rw [UInt64.toNat_div, toNat_shiftLeft_of_lt shift_lt]
      · rw [UInt64.toNat_one, Nat.one_mul]
        rfl
      · rw [UInt64.toNat_one, Nat.one_mul]
        exact Nat.pow_lt_pow_right (by decide) shift_lt
    rw [if_neg small]
    dsimp only
    rw [toNat_add_of_lt, toNat_add_of_lt, offset, first, half, shift]
    · have above : ¬ i.toNat < 128 := Nat.not_lt.mpr (UInt64.le_iff_toNat_le.mp past)
      rw [middleOf, if_neg above]
      rfl
    · rw [offset, first]
      exact (Nat.le_add_right _ _).trans_lt fits
    · rw [toNat_add_of_lt, offset, first, half]
      · exact fits
      · rw [offset, first]
        exact (Nat.le_add_right _ _).trans_lt fits

/-! ## Recording -/

/-- `struct hist`, which `hist_init` and `hist_clear` empty. -/
structure Hist where
  count : UInt64 := 0
  sum : UInt64 := 0
  min : UInt64 := 0
  max : UInt64 := 0
  bucket : Nat → UInt64 := fun _ => 0

namespace Hist

/-- `hist_record`. -/
def record (h : Hist) (v : UInt64) : Hist where
  min := if h.count = 0 ∨ v < h.min then v else h.min
  max := if h.max < v then v else h.max
  count := h.count + 1
  sum := h.sum + v
  bucket := Function.update h.bucket (histIndex v).toNat (h.bucket (histIndex v).toNat + 1)

/-- `hist_above`. -/
def above (h : Hist) (v : UInt64) : UInt64 :=
  ((List.range' ((histIndex v).toNat + 1) (histBuckets - ((histIndex v).toNat + 1))).map h.bucket).sum

/-- A histogram of values. -/
def ofValues (values : List UInt64) : Hist :=
  values.foldl record {}

/-- How many of the values are in a bucket. -/
def inBucket (values : List UInt64) (i : Nat) : Nat :=
  values.countP fun v => (histIndex v).toNat = i

theorem ofValues_concat (values : List UInt64) (v : UInt64) : ofValues (values ++ [v]) = (ofValues values).record v := by
  rw [ofValues, foldl_append]
  rfl

theorem bucket_ofValues (values : List UInt64) (i : Nat) :
    (ofValues values).bucket i = UInt64.ofNat (inBucket values i) := by
  induction values using List.reverseRecOn with
  | nil => rfl
  | append_singleton values v ih =>
    rw [ofValues_concat, inBucket, countP_append]
    change Function.update _ _ _ i = _
    by_cases here : (histIndex v).toNat = i
    · rw [here, Function.update_self, ih, countP_singleton, decide_eq_true here, if_pos rfl, UInt64.ofNat_add]
      rfl
    · rw [Function.update_of_ne (Ne.symm here), ih, countP_singleton, decide_eq_false here,
        if_neg Bool.false_ne_true, Nat.add_zero, inBucket]

theorem count_ofValues (values : List UInt64) : (ofValues values).count = UInt64.ofNat values.length := by
  induction values using List.reverseRecOn with
  | nil => rfl
  | append_singleton values v ih =>
    rw [ofValues_concat, length_append, UInt64.ofNat_add, ← ih]
    rfl

theorem countP_split {α : Type*} {p q r : α → Bool} (split_ : ∀ a, (r a).toNat = (p a).toNat + (q a).toNat)
    (l : List α) : l.countP r = l.countP p + l.countP q := by
  induction l with
  | nil => rfl
  | cons a l ih =>
    have here := split_ a
    have one : ∀ b : Bool, (if b then 1 else 0) = b.toNat := by
      intro b
      cases b <;> rfl
    rw [countP_cons, countP_cons, countP_cons, ih, one, one, one]
    omega

/-- The values in a range of buckets. -/
theorem sum_inBucket (values : List UInt64) (first n : Nat) : ((List.range' first n).map (inBucket values)).sum =
      values.countP fun v => first ≤ (histIndex v).toNat ∧ (histIndex v).toNat < first + n := by
  induction n with
  | zero =>
    symm
    rw [List.range'_zero, map_nil, sum_nil, countP_eq_zero]
    intro v _
    rw [decide_eq_true_eq]
    omega
  | succ n ih =>
    rw [List.range'_concat, map_append, sum_append, ih, map_singleton, sum_singleton, Nat.one_mul, inBucket]
    symm
    apply countP_split
    intro v
    by_cases last : (histIndex v).toNat = first + n
    · rw [decide_eq_true last, decide_eq_true (by omega), decide_eq_false (by omega)]
      rfl
    · rw [decide_eq_false last, Bool.toNat_false, Nat.add_zero]
      congr 1
      rw [decide_eq_decide]
      omega

theorem sum_ofNat (l : List Nat) (f : Nat → Nat) : (l.map fun i => UInt64.ofNat (f i)).sum = UInt64.ofNat (l.map f).sum := by
  induction l with
  | nil => rfl
  | cons i l ih => rw [map_cons, sum_cons, ih, map_cons, sum_cons, UInt64.ofNat_add]

/-- What lies above a value, as it is counted. -/
theorem above_ofValues (values : List UInt64) (v : UInt64) :
    (ofValues values).above v = UInt64.ofNat (values.countP fun w => histIndex v < histIndex w) := by
  have buckets : (ofValues values).bucket = fun i => UInt64.ofNat (inBucket values i) :=
    funext (bucket_ofValues values)
  rw [above, buckets, sum_ofNat, sum_inBucket]
  congr 1
  apply countP_congr
  intro w _
  have inside := bucketOf_lt w.toNat_lt
  rw [← toNat_histIndex] at inside
  rw [decide_eq_true_eq, decide_eq_true_eq, UInt64.lt_iff_toNat_lt]
  omega

/-- A bucket above another holds greater values. -/
theorem lt_of_histIndex_lt {v w : UInt64} (less : histIndex v < histIndex w) : v < w := by
  rw [UInt64.lt_iff_toNat_lt, toNat_histIndex, toNat_histIndex] at less
  rw [UInt64.lt_iff_toNat_lt]
  by_contra le
  exact Nat.not_le.mpr less (bucketOf_mono (Nat.not_lt.mp le))

/-- The least and the greatest of the values. -/
structure Extreme (values : List UInt64) (h : Hist) : Prop where
  min_mem : values ≠ [] → h.min ∈ values
  min_le : ∀ v ∈ values, h.min ≤ v
  max_mem : values ≠ [] → h.max ∈ values
  le_max : ∀ v ∈ values, v ≤ h.max

theorem extreme_ofValues {values : List UInt64} (few : values.length < 2 ^ 64) : Extreme values (ofValues values) := by
  induction values using List.reverseRecOn with
  | nil => exact ⟨fun some_ => absurd rfl some_, nofun, fun some_ => absurd rfl some_, nofun⟩
  | append_singleton values v ih =>
    rw [length_append, length_singleton] at few
    obtain ⟨min_mem, min_le, max_mem, le_max⟩ := ih (by omega)
    have count : (ofValues values).count = 0 ↔ values = [] := by
      rw [count_ofValues, ← UInt64.toNat_inj, UInt64.toNat_ofNat', Nat.mod_eq_of_lt (by omega)]
      exact length_eq_zero_iff
    have last : v ∈ values ++ [v] := mem_append_right _ (mem_singleton.mpr rfl)
    rw [ofValues_concat]
    refine ⟨fun _ => ?_, ?_, fun _ => ?_, ?_⟩
    · change (if _ then v else _) ∈ _
      split
      · exact last
      · next older =>
        rw [count, not_or] at older
        exact mem_append_left _ (min_mem older.1)
    · intro w among
      change (if _ then v else _) ≤ _
      rw [mem_append, mem_singleton] at among
      split
      · next newer =>
        obtain among | rfl := among
        · obtain none_ | less := newer
          · rw [count.mp none_] at among
            exact absurd among (not_mem_nil)
          · exact UInt64.le_trans (UInt64.le_of_lt less) (min_le w among)
        · exact UInt64.le_refl _
      · next older =>
        rw [not_or] at older
        obtain among | rfl := among
        · exact min_le w among
        · exact UInt64.not_lt.mp older.2
    · change (if _ then v else _) ∈ _
      split
      · exact last
      · next older =>
        rcases eq_or_ne values [] with none_ | some_
        · rw [none_] at older ⊢
          have zero : v = 0 := by
            have le := UInt64.le_iff_toNat_le.mp (UInt64.not_lt.mp older)
            rw [← UInt64.toNat_inj]
            exact Nat.le_zero.mp le
          rw [zero]
          exact mem_singleton.mpr rfl
        · exact mem_append_left _ (max_mem some_)
    · intro w among
      change _ ≤ if _ then v else _
      rw [mem_append, mem_singleton] at among
      split
      · next newer =>
        obtain among | rfl := among
        · exact UInt64.le_trans (le_max w among) (UInt64.le_of_lt newer)
        · exact UInt64.le_refl _
      · next older =>
        obtain among | rfl := among
        · exact le_max w among
        · exact UInt64.not_lt.mp older

end Hist

/-- The buckets of 64-bit values: no operation of `hist_index` and `hist_value` loses anything, each value has a bucket
near its middle, and greater values have later buckets. A histogram of fewer than 2^64 values counts them all, and what
lies above a value to the resolution of the buckets. -/
theorem hist_buckets (values : List UInt64) (few : values.length < 2 ^ 64) :
    (∀ v : UInt64, (histIndex v).toNat < histBuckets ∧ (histSub ≤ v → IndexExact v) ∧
      histIndex (histValue (histIndex v)) = histIndex v ∧ (if v = 0 then histValue (histIndex v) = 0 else
        128 * (v.toNat - (histValue (histIndex v)).toNat) < v.toNat ∧
        128 * ((histValue (histIndex v)).toNat - v.toNat) < v.toNat)) ∧
    (∀ v w : UInt64, v ≤ w → histIndex v ≤ histIndex w) ∧
    (∀ i : UInt64, i.toNat < histBuckets → histIndex (histValue i) = i ∧ (histSub ≤ i → ValueExact i)) ∧
    (∀ v : UInt64, ((Hist.ofValues values).above v).toNat ≤ values.countP (v < ·) ∧
      (values.countP fun w => histIndex v < histIndex w) ≤ ((Hist.ofValues values).above v).toNat) ∧
    (∀ v w : UInt64, v < w → (Hist.ofValues values).above w ≤ (Hist.ofValues values).above v) ∧
    (Hist.ofValues values).count.toNat = values.length ∧
    ((List.range histBuckets).map fun i => ((Hist.ofValues values).bucket i).toNat).sum = values.length ∧
    Hist.Extreme values (Hist.ofValues values) := by
  have inside : ∀ v : UInt64, (histIndex v).toNat < histBuckets := by
    intro v
    rw [toNat_histIndex]
    exact bucketOf_lt v.toNat_lt
  have mono : ∀ v w : UInt64, v ≤ w → histIndex v ≤ histIndex w := by
    intro v w le
    rw [UInt64.le_iff_toNat_le, toNat_histIndex, toNat_histIndex]
    exact bucketOf_mono (UInt64.le_iff_toNat_le.mp le)
  have back : ∀ i : UInt64, i.toNat < histBuckets → histIndex (histValue i) = i := by
    intro i less
    rw [← UInt64.toNat_inj, toNat_histIndex, toNat_histValue less, bucketOf_middleOf]
  have counted : ∀ p : UInt64 → Bool, (UInt64.ofNat (values.countP p)).toNat = values.countP p := by
    intro p
    rw [UInt64.toNat_ofNat']
    exact Nat.mod_eq_of_lt (countP_le_length.trans_lt few)
  refine ⟨?_, mono, fun i less => ⟨back i less, fun some_ => histValue_exact some_ less⟩, ?_, ?_, ?_, ?_,
    Hist.extreme_ofValues few⟩
  · intro v
    refine ⟨inside v, histIndex_exact, back _ (inside v), ?_⟩
    split
    · next zero =>
      rw [zero]
      rfl
    · next some_ =>
      rw [toNat_histValue (inside v), toNat_histIndex]
      apply middleOf_near
      intro zero
      exact some_ (UInt64.toNat_inj.mp zero)
  · intro v
    rw [Hist.above_ofValues, counted]
    refine ⟨?_, Nat.le_refl _⟩
    apply countP_mono_left
    intro w _ less
    rw [decide_eq_true_eq] at less ⊢
    exact Hist.lt_of_histIndex_lt less
  · intro v w less
    rw [Hist.above_ofValues, Hist.above_ofValues, UInt64.le_iff_toNat_le, counted, counted]
    apply countP_mono_left
    intro u _ past
    rw [decide_eq_true_eq] at past ⊢
    exact UInt64.lt_of_le_of_lt (mono v w (UInt64.le_of_lt less)) past
  · rw [Hist.count_ofValues, UInt64.toNat_ofNat']
    exact Nat.mod_eq_of_lt few
  · have buckets : (fun i => ((Hist.ofValues values).bucket i).toNat) = Hist.inBucket values := by
      funext i
      rw [Hist.bucket_ofValues, Hist.inBucket, counted]
    rw [buckets, range_eq_range', Hist.sum_inBucket, countP_eq_length]
    intro v _
    rw [decide_eq_true_eq]
    exact ⟨Nat.zero_le _, by
      rw [Nat.zero_add]
      exact inside v⟩

theorem hist_buckets_two : ([5, 300] : List UInt64).length < 2 ^ 64 ∧ (histIndex 300).toNat < histBuckets :=
  ⟨by decide, ((hist_buckets [5, 300] (by decide)).1 300).1⟩

/-- Zero is no less than a part of itself away, and after 2^64 values a bucket is empty again. -/
theorem hist_buckets_wrap : ¬ (∀ v : UInt64, 128 * (v.toNat - (histValue (histIndex v)).toNat) < v.toNat) ∧
    ¬ (∀ (values : List UInt64) (v : UInt64),
      (values.countP fun w => histIndex v < histIndex w) ≤ ((Hist.ofValues values).above v).toNat) := by
  constructor
  · intro all
    exact absurd (all 0) (by decide)
  · intro all
    have later : ∀ w ∈ List.replicate (2 ^ 64) (200 : UInt64), decide (histIndex 0 < histIndex w) = true := by
      intro w among
      rw [eq_of_mem_replicate among]
      decide
    have whole := all (List.replicate (2 ^ 64) 200) 0
    rw [Hist.above_ofValues, countP_eq_length.mpr later, length_replicate, UInt64.toNat_ofNat'] at whole
    exact absurd whole (by decide)

end Askai
