import Askai.Util.DstrForms

/-!
# What the functions of dynamic strings do

Each function takes a legal object to a legal one, of the string that it is to make, or fails.
-/

namespace Askai

open Library List

variable {S : DstrSize} {A : Allocator sizeTop} {arena : Arena} {s : Bytes}

/-! ## A new string -/

/-- Text that fits after a string in place. -/
theorem dstrInPlace_append {t : Bytes} (fits : s.length + t.length < S.size) :
    dstrSetLastByte (overwrite (dstrInPlace S.size s) s.length t)
      (dstrLastByte (overwrite (dstrInPlace S.size s) s.length t) - UInt8.ofNat t.length) =
        dstrInPlace S.size (s ++ t) := by
  have room : s.length + t.length ≤ (s ++ zeros (S.size - 1 - s.length)).length := by
    rw [length_append, length_replicate]
    omega
  have less : t.length ≤ S.size - 1 - s.length := by omega
  rw [dstrInPlace, overwrite_left room, dstrLastByte_concat, ← UInt8.ofNat_sub less, dstrSetLastByte_concat,
    padded_append, dstrInPlace, length_append, Nat.sub_sub (S.size - 1)]

/-- A block of zeros is a buffer of the empty string. -/
theorem DstrBuf.empty {m : RawMemory} {buf size : Nat} (block : m.block buf = some size) (some_ : 0 < size)
    (bytes : m.read buf size = zeros size) : DstrBuf m buf size [] :=
  ⟨block, bytes, some_⟩

theorem padded_whole (n : Nat) (text : Bytes) :
    overwrite ([] ++ zeros (n - ([] : Bytes).length)) 0 text = text ++ zeros (n - text.length) := by
  have whole := padded_append (s := []) (t := text) (k := n)
  rw [length_nil, nil_append] at whole
  exact whole

/-- A new buffer with a string in it. -/
theorem dstrCalloc_spec (settled : arena.memory.Settled sizeTop) {blocks : Nat} (least : 1 ≤ blocks)
    {text : Bytes} (inside : text.length < blocks * dstrBlkSize) :
    match arena.calloc A (blocks * dstrBlkSize) with
    | (none, after) => after.memory = arena.memory ∧
        A.place arena.memory arena.calls (blocks * dstrBlkSize) = none
    | (some buf, after) =>
      DstrBuf (after.put buf text).memory buf (blocks * dstrBlkSize) text ∧
        arena.memory.Change sizeTop none (after.put buf text).memory (some buf) := by
  have spec := Arena.calloc_spec (A := A) settled (Nat.mul_pos least (show 0 < dstrBlkSize by decide))
  rcases given : arena.calloc A (blocks * dstrBlkSize) with ⟨_ | buf, after⟩ <;> rw [given] at spec
  · exact spec
  · obtain ⟨⟨change, block, nonnull, below⟩, bytes⟩ := spec
    have holds := DstrBuf.empty block (Nat.mul_pos least (by decide)) bytes
    obtain ⟨holds, changed⟩ := holds.put change.settled 0 (by omega) inside (padded_whole _ text)
    exact ⟨holds, change.trans changed⟩

theorem dstrInitN_spec (settled : arena.memory.Settled sizeTop) (src : Bytes) :
    match dstrInitN A (dstrInit S.size) src arena with
    | (none, raw, after) => DstrLeads S arena.memory none after.memory raw src
    | (some _, raw, after) => raw = dstrInit S.size ∧ after.memory = arena.memory ∧
        (dstrBlkCountMask < src.length / 256 + 1 ∨
          A.place arena.memory arena.calls ((src.length / 256 + 1) * dstrBlkSize) = none) := by
  have least := S.least
  have length : (dstrInit S.size).length = S.size := by
    rw [dstrInit_eq]
    exact length_dstrInPlace (by rw [length_nil]; omega)
  rw [dstrInitN]
  dsimp only
  rw [length]
  by_cases none_ : src.length = 0
  · rw [if_pos none_]
    obtain rfl := length_eq_zero_iff.mp none_
    exact ⟨none, .inPlace (by rw [length_nil]; omega), .refl settled⟩
  · rw [if_neg none_]
    by_cases short : src.length < S.size
    · rw [if_pos short]
      have made := dstrInPlace_append (S := S) (s := []) (t := src) (by rw [length_nil]; omega)
      rw [length_nil, nil_append, ← dstrInit_eq] at made
      rw [made]
      exact ⟨none, .inPlace short, .refl settled⟩
    · rw [if_neg short]
      by_cases much : dstrBlkCountMask < src.length / 256 + 1
      · rw [if_pos much]
        exact ⟨rfl, rfl, .inl much⟩
      · rw [if_neg much]
        have most := Nat.not_lt.mp much
        have inside : src.length < (src.length / 256 + 1) * dstrBlkSize := by
          change _ < (src.length / 256 + 1) * 256
          omega
        have spec := dstrCalloc_spec (A := A) settled (Nat.le_add_left 1 _) inside
        rcases given : arena.calloc A ((src.length / 256 + 1) * dstrBlkSize) with ⟨_ | buf, after⟩ <;> rw [given] at spec
        · exact ⟨rfl, spec.1, .inr spec.2⟩
        · dsimp only
          rw [dstrOwn_init (blocks_lt most), dstrMeta_zero]
          exact ⟨some buf, .onHeap buf _ 0 (Nat.le_add_left 1 _) most spec.1, spec.2⟩

/-! ## Another size -/

/-- A buffer of another size that has room for the string, with the bytes past the old end wiped. -/
theorem dstrRealloc_spec {buf size size' : Nat} (settled : arena.memory.Settled sizeTop)
    (holds : DstrBuf arena.memory buf size s) (inside : s.length < size') :
    match arena.realloc A buf size' with
    | (none, after) => after.memory = arena.memory ∧ ∃ m, A.place m arena.calls size' = none
    | (some q, after) =>
      let after := if size < size' then after.put (q + size) (zeros (size' - size)) else after
      DstrBuf after.memory q size' s ∧ arena.memory.Change sizeTop (some buf) after.memory (some q) := by
  have spec := Arena.realloc_spec (A := A) (n := size') settled holds.block (Nat.zero_lt_of_lt inside)
  have held := holds.inside
  rcases given : arena.realloc A buf size' with ⟨_ | q, after⟩ <;> rw [given] at spec
  · exact ⟨spec.1, _, spec.2⟩
  · obtain ⟨⟨change, block, nonnull, below⟩, bytes⟩ := spec
    dsimp only
    by_cases larger : size < size'
    · rw [if_pos larger]
      rw [Nat.min_eq_left larger.le, holds.bytes] at bytes
      refine ⟨⟨block, ?_, inside⟩, change.trans (.write change.settled block ?_)⟩
      · have middle := RawMemory.read_write_middle (m := after.memory) q size (zeros (size' - size)) 0
        rw [length_replicate, Nat.add_zero, Nat.add_sub_cancel' larger.le] at middle
        change (after.memory.write (q + size) (zeros (size' - size))).read q size' = _
        rw [middle, bytes, append_assoc, append_assoc]
        have none_ : after.memory.read (q + size + (size' - size)) 0 = [] := rfl
        rw [none_, append_nil, zeros_append]
        congr 2
        omega
      · rw [length_replicate]
        omega
    · rw [if_neg larger]
      have old := read_take (m := arena.memory) (a := buf) (Nat.not_lt.mp larger)
      rw [holds.bytes, take_append, take_of_length_le inside.le, take_zeros] at old
      rw [Nat.min_eq_right (Nat.not_lt.mp larger), old] at bytes
      refine ⟨⟨block, ?_, inside⟩, change⟩
      rw [bytes]
      congr 2
      omega

/-- What a buffer of as many blocks as `blocks`, or the object, has room for of a string. -/
def dstrFit (size blocks : Nat) : Nat :=
  (if blocks ≠ 0 then blocks * dstrBlkSize else size) - 1

theorem dstrResize_inPlace (settled : arena.memory.Settled sizeTop) (short : s.length < S.size) {blocks : Nat}
    (least : 1 ≤ blocks) (most : blocks ≤ dstrBlkCountMask) :
    match dstrResize A (dstrInPlace S.size s) blocks arena with
    | (none, raw, after) => ∃ buf, raw = dstrOnHeap S.size buf s.length blocks (dstrMeta 0) ∧
        DstrBuf after.memory buf (blocks * dstrBlkSize) s ∧
        arena.memory.Change sizeTop none after.memory (some buf)
    | (some _, raw, after) => raw = dstrInPlace S.size s ∧ after.memory = arena.memory ∧
        ∃ m, A.place m arena.calls (blocks * dstrBlkSize) = none := by
  have size := S.most
  have inside : s.length < blocks * dstrBlkSize := by
    change _ < blocks * 256
    omega
  have spec := dstrCalloc_spec (A := A) settled least inside
  rw [dstrResize, if_neg (Nat.not_lt.mpr most)]
  dsimp only
  rw [dstrInfo_inPlace short, if_neg nofun, if_neg (Nat.ne_of_gt least), if_neg nofun]
  rcases given : arena.calloc A (blocks * dstrBlkSize) with ⟨_ | buf, after⟩ <;> rw [given] at spec
  · exact ⟨rfl, spec.1, _, spec.2⟩
  · have text : (dstrInPlace S.size s).take s.length = s := by
      rw [dstrInPlace, append_assoc, take_left]
    dsimp only
    rw [text, length_dstrInPlace short, dstrOwn_zeros (blocks_lt most)]
    exact ⟨buf, rfl, spec⟩

theorem dstrResize_onHeap (settled : arena.memory.Settled sizeTop) {buf blocks : Nat} {n : Fin 16} (least : 1 ≤ blocks)
    (most : blocks ≤ dstrBlkCountMask) (holds : DstrBuf arena.memory buf (blocks * dstrBlkSize) s) {blocks' : Nat}
    (least' : 1 ≤ blocks') (most' : blocks' ≤ dstrBlkCountMask) (differ : blocks' ≠ blocks) :
    match dstrResize A (dstrOnHeap S.size buf s.length blocks (dstrMeta n)) blocks' arena with
    | (none, raw, after) =>
      (DstrLeads S arena.memory (some buf) after.memory raw (s.take (dstrFit S.size blocks'))) ∧
        (blocks < blocks' → ∃ buf', raw = dstrOnHeap S.size buf' s.length blocks' (dstrMeta n) ∧
          DstrBuf after.memory buf' (blocks' * dstrBlkSize) s ∧
          arena.memory.Change sizeTop (some buf) after.memory (some buf'))
    | (some _, raw, after) => raw = dstrOnHeap S.size buf s.length blocks (dstrMeta n) ∧
        after.memory = arena.memory ∧ ∃ m, A.place m arena.calls (blocks' * dstrBlkSize) = none := by
  have below := holds.below settled
  rw [dstrResize, if_neg (Nat.not_lt.mpr most')]
  dsimp only
  rw [dstrInfo_onHeap (holds.nonnull settled) below least (blocks_lt most) holds.inside, if_neg nofun,
    if_neg differ, if_pos rfl, if_neg (Nat.ne_of_gt least'), if_pos (Nat.ne_of_gt least'),
    if_pos (Nat.ne_of_gt least), dstrUptr_zero_onHeap (by omega), dstrLastByte_onHeap, dstrMeta_kept]
  dsimp only
  obtain ⟨size', sizeIs⟩ : ∃ size', size' = blocks' * dstrBlkSize := ⟨_, rfl⟩
  have some_ : 0 < size' := by
    rw [sizeIs]
    exact Nat.mul_pos least' (by decide)
  obtain ⟨s', cut⟩ : ∃ s', s' = s.take (dstrFit S.size blocks') := ⟨_, rfl⟩
  rw [← cut]
  rw [dstrFit, if_pos (Nat.ne_of_gt least'), ← sizeIs] at cut
  have length : (if size' ≤ s.length then size' - 1 else s.length) = s'.length := by
    rw [cut, length_take]
    split <;> omega
  have inside : s'.length < size' := by
    rw [← length]
    split <;> omega
  rw [← sizeIs, length]
  obtain ⟨wiped, wipedIs⟩ : ∃ wiped, wiped =
    if size' ≤ s.length then arena.put (buf + s'.length) (zeros (s.length - s'.length)) else arena := ⟨_, rfl⟩
  rw [← wipedIs]
  have before : DstrBuf wiped.memory buf (blocks * dstrBlkSize) s' ∧
      arena.memory.Change sizeTop (some buf) wiped.memory (some buf) ∧ wiped.calls = arena.calls := by
    by_cases long : size' ≤ s.length
    · rw [if_pos long] at wipedIs length
      have held := holds.inside
      have makes := padded_cut (s := s) (i := s'.length) (n := s.length - s'.length)
        (k := blocks * dstrBlkSize - s.length) (by omega) (by omega) (by omega)
      have front : s.take s'.length = s' := by rw [← length, cut]
      have rest : s.length + (blocks * dstrBlkSize - s.length) - s'.length = blocks * dstrBlkSize - s'.length := by
        omega
      rw [front, rest] at makes
      obtain ⟨holds', change⟩ := holds.put settled s'.length (by rw [length_replicate]; omega) (by omega) makes
      rw [wipedIs]
      exact ⟨holds', change, rfl⟩
    · rw [if_neg long] at wipedIs
      rw [cut, take_of_length_le (by omega), wipedIs]
      exact ⟨holds, .refl settled, rfl⟩
  have shorter : (if size' ≤ s.length then
      dstrSetUptr (dstrOnHeap S.size buf s.length blocks (dstrMeta n)) 1 (buf + s'.length)
      else dstrOnHeap S.size buf s.length blocks (dstrMeta n)) = dstrOnHeap S.size buf s'.length blocks (dstrMeta n) := by
    split
    · exact dstrSetUptr_one_onHeap _
    · next short => rw [← length, if_neg short]
  obtain ⟨holds', change, calls⟩ := before
  have spec := dstrRealloc_spec (A := A) change.settled holds' inside
  rw [shorter]
  rcases given : wiped.realloc A buf size' with ⟨_ | q, after⟩ <;> rw [given] at spec
  · dsimp only
    obtain ⟨same, m, refused⟩ := spec
    by_cases larger : blocks * dstrBlkSize < size'
    · rw [if_pos larger]
      have held := holds.inside
      rw [if_neg (by omega)] at wipedIs length
      refine ⟨by rw [length], by rw [same, wipedIs], m, ?_⟩
      rw [← calls]
      exact refused
    · rw [if_neg larger]
      refine ⟨⟨some buf, .onHeap buf blocks n least most ?_, ?_⟩, fun more => absurd ?_ larger⟩
      · rw [same]
        exact holds'
      · rw [same]
        exact change
      · rw [sizeIs]
        exact Nat.mul_lt_mul_of_pos_right more (by decide)
  · dsimp only at spec ⊢
    rw [dstrOwn_onHeap (blocks_lt most')]
    obtain ⟨holds'', changed⟩ := spec
    subst sizeIs
    refine ⟨⟨some q, .onHeap q blocks' n least' most' holds'', change.trans changed⟩, fun more => ?_⟩
    have held := holds.inside
    have larger := Nat.mul_lt_mul_of_pos_right more (show 0 < dstrBlkSize by decide)
    have whole : s' = s := by
      rw [cut]
      exact take_of_length_le (by omega)
    rw [whole] at holds'' ⊢
    exact ⟨q, rfl, holds'', change.trans changed⟩

/-- Back into the object, with as much of the string as fits. -/
theorem dstrResize_short (settled : arena.memory.Settled sizeTop) {buf blocks : Nat} {n : Fin 16} (least : 1 ≤ blocks)
    (most : blocks ≤ dstrBlkCountMask) (holds : DstrBuf arena.memory buf (blocks * dstrBlkSize) s) :
    (dstrResize A (dstrOnHeap S.size buf s.length blocks (dstrMeta n)) 0 arena).1 = none ∧
      DstrLeads S arena.memory (some buf) (dstrResize A (dstrOnHeap S.size buf s.length blocks (dstrMeta n)) 0 arena).2.2.memory
        (dstrResize A (dstrOnHeap S.size buf s.length blocks (dstrMeta n)) 0 arena).2.1 (s.take (S.size - 1)) := by
  have below := holds.below settled
  have small := S.least
  obtain ⟨s', cut⟩ : ∃ s', s' = s.take (S.size - 1) := ⟨_, rfl⟩
  have length : (if S.size ≤ s.length then S.size - 1 else s.length) = s'.length := by
    rw [cut, length_take]
    split <;> omega
  have short : s'.length < S.size := by
    rw [← length]
    split <;> omega
  have held := holds.inside
  have read : arena.memory.read buf s'.length = s' := by
    have shorter : s'.length ≤ s.length := by
      rw [← length]
      split <;> omega
    rw [read_take (n := blocks * dstrBlkSize) (by omega), holds.bytes, take_append_of_le_length shorter, cut,
      length_take, take_eq_take_iff]
    omega
  rw [dstrResize, if_neg (Nat.not_lt.mpr (Nat.zero_le _))]
  dsimp only
  rw [dstrInfo_onHeap (holds.nonnull settled) below least (blocks_lt most) holds.inside, if_neg nofun,
    if_neg (Nat.ne_of_lt least), if_pos rfl, if_pos rfl, if_neg (not_not.mpr rfl), length_dstrOnHeap,
    dstrUptr_zero_onHeap (by omega)]
  dsimp only
  rw [length, read, ← cut]
  refine ⟨rfl, none, ?_, ?_⟩
  · have whole : zeros S.size = zeros (S.size - 1) ++ [0] := by
      rw [show ([0] : Bytes) = zeros 1 from rfl, zeros_append]
      congr 1
      omega
    have made := padded_whole (S.size - 1) s'
    rw [nil_append, length_nil, Nat.sub_zero] at made
    rw [whole, overwrite_left (by rw [length_replicate]; omega), dstrSetLastByte_concat, made]
    exact .inPlace short
  · have wiped := RawMemory.Change.write (i := 0) (b := zeros s.length) settled holds.block
      (by rw [length_replicate]; omega)
    exact wiped.trans (.release wiped.settled buf)

theorem dstrResize_spec {raw : Bytes} {own : Option Nat} (settled : arena.memory.Settled sizeTop)
    (legal : DstrLegal S arena.memory s raw own) (blocks : Nat) :
    match dstrResize A raw blocks arena with
    | (none, raw', after) => DstrLeads S arena.memory own after.memory raw' (s.take (dstrFit S.size blocks))
    | (some _, raw', after) => raw' = raw ∧ after.memory = arena.memory ∧
        (dstrBlkCountMask < blocks ∨ ∃ m, A.place m arena.calls (blocks * dstrBlkSize) = none) := by
  by_cases much : dstrBlkCountMask < blocks
  · rw [dstrResize, if_pos much]
    exact ⟨rfl, rfl, .inl much⟩
  · have most' := Nat.not_lt.mp much
    cases legal with
    | inPlace short =>
      by_cases none_ : blocks = 0
      · have same : s.take (dstrFit S.size blocks) = s := by
          rw [dstrFit, if_neg (not_not.mpr none_)]
          exact take_of_length_le (by omega)
        rw [dstrResize, if_neg much, same]
        dsimp only
        rw [dstrInfo_inPlace short, if_neg nofun, if_pos none_]
        exact ⟨none, .inPlace short, .refl settled⟩
      · have spec := dstrResize_inPlace (A := A) settled short (Nat.pos_of_ne_zero none_) most'
        have small := S.most
        have whole : s.take (dstrFit S.size blocks) = s := by
          rw [dstrFit, if_pos none_]
          apply take_of_length_le
          change s.length ≤ blocks * 256 - 1
          omega
        rw [whole]
        split at spec
        · obtain ⟨buf, rfl, holds, change⟩ := spec
          exact ⟨some buf, .onHeap buf blocks 0 (Nat.pos_of_ne_zero none_) most' holds, change⟩
        · exact ⟨spec.1, spec.2.1, .inr spec.2.2⟩
    | onHeap buf blocks₀ n least most holds =>
      by_cases same : blocks = blocks₀
      · have whole : s.take (dstrFit S.size blocks) = s := by
          have inside := holds.inside
          rw [dstrFit, same, if_pos (by omega)]
          exact take_of_length_le (by omega)
        rw [dstrResize, if_neg much, whole]
        dsimp only
        rw [dstrInfo_onHeap (holds.nonnull settled) (holds.below settled) least (blocks_lt most) holds.inside,
          if_neg nofun, if_pos same]
        exact ⟨some buf, .onHeap buf blocks₀ n least most holds, .refl settled⟩
      · by_cases none_ : blocks = 0
        · rw [none_]
          obtain ⟨passes, leads⟩ := dstrResize_short (A := A) (n := n) settled least most holds
          obtain ⟨r, rIs⟩ : ∃ r, r = dstrResize A (dstrOnHeap S.size buf s.length blocks₀ (dstrMeta n)) 0 arena :=
            ⟨_, rfl⟩
          rw [← rIs] at passes leads ⊢
          obtain ⟨e, raw, after⟩ := r
          dsimp only at passes leads ⊢
          rw [passes]
          exact leads
        · have spec := dstrResize_onHeap (S := S) (A := A) (n := n) settled least most holds (Nat.pos_of_ne_zero none_)
            most' same
          split at spec
          · exact spec.1
          · exact ⟨spec.1, spec.2.1, .inr spec.2.2⟩

/-! ## Growth -/

/-- The growths that the object counts. -/
def dstrGrowCount (raw : Bytes) : Nat :=
  if (dstrInfo raw).state = .ptr then (dstrLastByte raw &&& dstrGrowCountMask).toNat else 0

/-- The step of a growth, as a shift. -/
def dstrShift (raw : Bytes) (exactly : Bool) : Nat :=
  if exactly then 0 else min (dstrGrowCount raw) dstrGrowShiftMax

theorem dstrShift_le (raw : Bytes) (exactly : Bool) : dstrShift raw exactly ≤ 4 := by
  rw [dstrShift]
  split
  · exact Nat.zero_le _
  · exact Nat.min_le_right _ _

/-- The blocks for `n` bytes: the number is not wrapped. -/
theorem dstrSteps_eq {n shift : Nat} (fits : n < 2 ^ 64) (low : shift ≤ 4) :
    dstrSteps n shift = (n / (256 * 2 ^ shift) + 1) * 2 ^ shift := by
  have power : 0 < 2 ^ shift := Nat.two_pow_pos shift
  have small : 2 ^ shift ≤ 2 ^ 4 := Nat.pow_le_pow_right (by decide) low
  have whole : n / (256 * 2 ^ shift) * (256 * 2 ^ shift) ≤ n := Nat.div_mul_le_self _ _
  rw [dstrSteps, Nat.shiftRight_eq_div_pow, Nat.shiftLeft_eq, Nat.pow_add, show 2 ^ 8 = 256 from rfl]
  apply Nat.mod_eq_of_lt
  change _ < 2 ^ 64
  generalize 2 ^ shift = p at *
  generalize n / (256 * p) = q at *
  have product : q * (256 * p) = 256 * (q * p) := by ring
  rw [Nat.add_mul, Nat.one_mul]
  generalize q * p = r at *
  omega

/-- The number of blocks is the least number of whole steps that have room for `n` bytes and a terminator. -/
theorem dstrSteps_least {n shift : Nat} (fits : n < 2 ^ 64) (low : shift ≤ 4) :
    1 ≤ dstrSteps n shift ∧ 2 ^ shift ∣ dstrSteps n shift ∧ n < dstrSteps n shift * dstrBlkSize ∧
      dstrSteps n shift * dstrBlkSize ≤ n + 2 ^ shift * dstrBlkSize := by
  have power : 0 < 2 ^ shift := Nat.two_pow_pos shift
  have whole : n / (256 * 2 ^ shift) * (256 * 2 ^ shift) ≤ n := Nat.div_mul_le_self _ _
  have rest := Nat.lt_div_mul_add (a := n) (b := 256 * 2 ^ shift) (Nat.mul_pos (by decide) power)
  rw [dstrSteps_eq fits low]
  refine ⟨Nat.mul_pos (Nat.succ_pos _) power, Dvd.intro_left _ rfl, ?_⟩
  change n < _ * 256 ∧ _ * 256 ≤ n + _ * 256
  generalize 2 ^ shift = p at *
  generalize n / (256 * p) = q at *
  have product : q * (256 * p) = 256 * (q * p) := by ring
  rw [Nat.add_mul, Nat.one_mul]
  generalize q * p = r at *
  omega

/-- A resize to more blocks keeps the string and the count. -/
theorem dstrResize_larger {raw : Bytes} {own : Option Nat} (settled : arena.memory.Settled sizeTop)
    (legal : DstrLegal S arena.memory s raw own) {blocks : Nat} (larger : (dstrInfo raw).blocks < blocks)
    (most : blocks ≤ dstrBlkCountMask) :
    match dstrResize A raw blocks arena with
    | (none, raw', after) => ∃ buf n, raw' = dstrOnHeap S.size buf s.length blocks (dstrMeta n) ∧
        n.val = dstrGrowCount raw ∧ DstrBuf after.memory buf (blocks * dstrBlkSize) s ∧
        arena.memory.Change sizeTop own after.memory (some buf)
    | (some _, raw', after) => raw' = raw ∧ after.memory = arena.memory ∧
        ∃ m, A.place m arena.calls (blocks * dstrBlkSize) = none := by
  cases legal with
  | inPlace short =>
    have spec := dstrResize_inPlace (A := A) settled short (Nat.succ_le_of_lt (Nat.zero_lt_of_lt larger)) most
    split at spec
    · obtain ⟨buf, is, holds, change⟩ := spec
      refine ⟨buf, 0, is, ?_, holds, change⟩
      rw [dstrGrowCount, dstrInfo_inPlace short]
      rfl
    · exact spec
  | onHeap buf blocks₀ n least most₀ holds =>
    have info := dstrInfo_onHeap (S := S) (n := n) (holds.nonnull settled) (holds.below settled) least (blocks_lt most₀)
      holds.inside
    rw [info] at larger
    have spec := dstrResize_onHeap (S := S) (A := A) (n := n) settled least most₀ holds
      (Nat.succ_le_of_lt (Nat.zero_lt_of_lt larger)) most (Nat.ne_of_gt larger)
    split at spec
    · obtain ⟨buf', is, holds', change⟩ := spec.2 larger
      refine ⟨buf', n, is, ?_, holds', change⟩
      rw [dstrGrowCount, info, if_pos rfl, dstrLastByte_onHeap, toNat_dstrMeta_count]
    · exact spec

/-- What a growth for `len` more bytes makes of an object: as many blocks as its step gives, and one more growth that
is counted, as far as the count goes, unless the growth is exact. -/
structure DstrGrown (raw : Bytes) (len : Nat) (exactly : Bool) (raw' : Bytes) : Prop where
  fits : (dstrInfo raw).length + len < sizeTop
  state : (dstrInfo raw').state = .ptr
  blocks : (dstrInfo raw').blocks = dstrSteps ((dstrInfo raw).length + len) (dstrShift raw exactly)
  length : (dstrInfo raw').length = (dstrInfo raw).length
  room : len ≤ (dstrInfo raw').space
  count : dstrGrowCount raw' = if exactly then dstrGrowCount raw else min (dstrGrowCount raw + 1) dstrGrowCountMask.toNat

/-- Why a growth can fail. -/
def DstrFull (A : Allocator sizeTop) (calls : Nat) (raw : Bytes) (len : Nat) (exactly : Bool) : Prop :=
  sizeTop ≤ (dstrInfo raw).length + len ∨
    dstrBlkCountMask < dstrSteps ((dstrInfo raw).length + len) (dstrShift raw exactly) ∨
    ∃ m, A.place m calls (dstrSteps ((dstrInfo raw).length + len) (dstrShift raw exactly) * dstrBlkSize) = none

/-- A string that grows. -/
theorem dstrGrow_larger {raw : Bytes} {len : Nat} {exactly : Bool} (state : (dstrInfo raw).state ≠ .bad)
    (room : ¬len ≤ (dstrInfo raw).space) (fits : (dstrInfo raw).length + len < sizeTop) :
    dstrGrow A raw len exactly arena =
      match dstrResize A raw (dstrSteps ((dstrInfo raw).length + len) (dstrShift raw exactly)) arena with
      | (some e, raw, arena) => (some e, raw, arena)
      | (none, raw', arena) =>
        if exactly = false ∧ dstrGrowCount raw < dstrGrowCountMask.toNat then
          (none, dstrSetLastByte raw' (dstrLastByte raw' + 1), arena)
        else (none, raw', arena) := by
  rw [dstrGrow]
  dsimp only
  rw [if_neg state, if_neg room, Nat.mod_eq_of_lt fits, if_neg (Nat.not_lt.mpr (Nat.le_add_right _ _))]
  rfl

theorem dstrGrow_spec {raw : Bytes} {own : Option Nat} (settled : arena.memory.Settled sizeTop)
    (legal : DstrLegal S arena.memory s raw own) {len : Nat} (size : len < sizeTop) (exactly : Bool) :
    match dstrGrow A raw len exactly arena with
    | (none, raw', after) => DstrLeads S arena.memory own after.memory raw' s ∧
        (len ≤ (dstrInfo raw).space → raw' = raw) ∧
        ((dstrInfo raw).space < len → DstrGrown raw len exactly raw')
    | (some _, raw', after) => raw' = raw ∧ after.memory = arena.memory ∧ (dstrInfo raw).space < len ∧
        DstrFull A arena.calls raw len exactly := by
  obtain ⟨state, length, bounded, capacity⟩ := legal.info settled
  rw [← length] at bounded capacity
  by_cases room : len ≤ (dstrInfo raw).space
  · rw [dstrGrow]
    dsimp only
    rw [if_neg state, if_pos room]
    exact ⟨legal.stays settled, fun _ => rfl, fun short => absurd room (Nat.not_le.mpr short)⟩
  · have short := Nat.not_le.mp room
    by_cases wraps : sizeTop ≤ (dstrInfo raw).length + len
    · have less : ((dstrInfo raw).length + len) % sizeTop < (dstrInfo raw).length := by
        change _ % 2 ^ 64 < _
        change _ < 2 ^ 64 at bounded
        change _ < 2 ^ 64 at size
        change 2 ^ 64 ≤ _ at wraps
        omega
      rw [dstrGrow]
      dsimp only
      rw [if_neg state, if_neg room, if_pos less]
      exact ⟨rfl, rfl, short, .inl wraps⟩
    · have fits := Nat.not_le.mp wraps
      rw [dstrGrow_larger state room fits]
      by_cases much : dstrBlkCountMask < dstrSteps ((dstrInfo raw).length + len) (dstrShift raw exactly)
      · rw [dstrResize, if_pos much]
        exact ⟨rfl, rfl, short, .inr (.inl much)⟩
      · have most := Nat.not_lt.mp much
        obtain ⟨least, -, inside, -⟩ := dstrSteps_least fits (dstrShift_le raw exactly)
        obtain ⟨blocks, blocksIs⟩ : ∃ blocks, blocks = dstrSteps ((dstrInfo raw).length + len) (dstrShift raw exactly) :=
          ⟨_, rfl⟩
        rw [← blocksIs] at most least inside ⊢
        have larger : (dstrInfo raw).blocks < blocks := by
          change _ < blocks * 256 at inside
          change _ * 256 ≤ _ at capacity
          omega
        have spec := dstrResize_larger (A := A) settled legal larger most
        split at spec
        · next raw' after given =>
          rw [given]
          obtain ⟨buf, n, rfl, counted, holds, change⟩ := spec
          have info (n' : Fin 16) := dstrInfo_onHeap (S := S) (n := n') (holds.nonnull change.settled)
            (holds.below change.settled) least (blocks_lt most) holds.inside
          have made : ∀ n' : Fin 16, n'.val =
              (if exactly then dstrGrowCount raw else min (dstrGrowCount raw + 1) dstrGrowCountMask.toNat) →
              DstrLeads S arena.memory own after.memory (dstrOnHeap S.size buf s.length blocks (dstrMeta n')) s ∧
                (len ≤ (dstrInfo raw).space → dstrOnHeap S.size buf s.length blocks (dstrMeta n') = raw) ∧
                ((dstrInfo raw).space < len →
                  DstrGrown raw len exactly (dstrOnHeap S.size buf s.length blocks (dstrMeta n'))) := by
            intro n' count
            refine ⟨⟨some buf, .onHeap buf blocks n' least most holds, change⟩, fun has => absurd has room,
              fun _ => ⟨fits, ?_, ?_, ?_, ?_, ?_⟩⟩
            · rw [info]
            · rw [info, ← blocksIs]
            · rw [info, length]
            · rw [info]
              change len ≤ blocks * 256 - 1 - s.length
              change _ < blocks * 256 at inside
              omega
            · rw [dstrGrowCount, info, if_pos rfl, dstrLastByte_onHeap, toNat_dstrMeta_count, count]
          dsimp only
          by_cases counts : exactly = false ∧ dstrGrowCount raw < dstrGrowCountMask.toNat
          · rw [if_pos counts, dstrLastByte_onHeap, dstrSetLastByte_onHeap]
            have low : n.val < 15 := by
              rw [counted]
              exact counts.2
            rw [dstrMeta_succ n low]
            apply made
            rw [counts.1, if_neg (by simp), Nat.min_eq_left counts.2, ← counted]
            exact Fin.val_add_one_of_lt' (Nat.lt_of_lt_of_le (Nat.succ_lt_succ low) (by decide))
          · rw [if_neg counts]
            apply made
            cases exactly with
            | true => exact counted
            | false =>
              have last : 15 ≤ dstrGrowCount raw := Nat.not_lt.mp fun less => counts ⟨rfl, less⟩
              have top := n.isLt
              change n.val = min (dstrGrowCount raw + 1) 15
              omega
        · next e raw' after given =>
          rw [given]
          refine ⟨spec.1, spec.2.1, short, .inr (.inr ?_)⟩
          rw [← blocksIs]
          exact spec.2.2

end Askai
