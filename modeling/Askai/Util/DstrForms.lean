import Askai.Util.Dstr

/-!
# The two forms of a dynamic string

What the bytes of an object are, in place and on the heap, and what the functions make of them.
-/

namespace Askai

open Library List

theorem overwrite_middle {a b c d : Bytes} (same : d.length = b.length) :
    overwrite (a ++ b ++ c) a.length d = a ++ d ++ c := by
  rw [overwrite, append_assoc a b c, take_left, ← append_assoc a b c]
  congr 1
  have length : a.length + d.length = (a ++ b).length := by rw [length_append, same]
  rw [length, drop_left]

theorem overwrite_left {a b bytes : Bytes} {i : Nat} (inside : i + bytes.length ≤ a.length) :
    overwrite (a ++ b) i bytes = overwrite a i bytes ++ b := by
  rw [overwrite, overwrite, take_append_of_le_length (by omega), drop_append_of_le_length inside, ← append_assoc]

theorem overwrite_overwrite {a b c : Bytes} {i : Nat} (inside : i ≤ a.length) (covers : b.length ≤ c.length) :
    overwrite (overwrite a i b) i c = overwrite a i c := by
  have front : (a.take i).length = i := length_take_of_le inside
  rw [overwrite, overwrite, overwrite, append_assoc (a.take i), take_left' front]
  congr 1
  have split : i + c.length = (a.take i).length + (b.length + (c.length - b.length)) := by omega
  rw [split, ← drop_drop, drop_left, ← drop_drop, drop_left, drop_drop]
  congr 1
  omega

theorem read_write_overwrite {m : RawMemory} {a n i : Nat} {bytes : Bytes} (inside : i + bytes.length ≤ n) :
    (m.write (a + i) bytes).read a n = overwrite (m.read a n) i bytes := by
  obtain ⟨rest, rfl⟩ : ∃ rest, n = i + bytes.length + rest := ⟨n - (i + bytes.length), by omega⟩
  rw [RawMemory.read_write_middle, RawMemory.read_add, RawMemory.read_add, append_assoc (m.read a i)]
  have middle := overwrite_middle (a := m.read a i) (b := m.read (a + i) bytes.length) (d := bytes)
    (c := m.read (a + (i + bytes.length)) rest) (by rw [RawMemory.length_read])
  rw [RawMemory.length_read] at middle
  rw [← append_assoc, middle, Nat.add_assoc]

theorem read_take {m : RawMemory} {a n k : Nat} (less : k ≤ n) : m.read a k = (m.read a n).take k := by
  obtain ⟨rest, rfl⟩ : ∃ rest, n = k + rest := ⟨n - k, by omega⟩
  rw [RawMemory.read_add, take_left' (RawMemory.length_read a k)]

theorem read_drop {m : RawMemory} {a n i k : Nat} (inside : i + k ≤ n) :
    m.read (a + i) k = ((m.read a n).drop i).take k := by
  obtain ⟨rest, rfl⟩ : ∃ rest, n = i + (k + rest) := ⟨n - i - k, by omega⟩
  rw [RawMemory.read_add, RawMemory.read_add, drop_left' (RawMemory.length_read a i),
    take_left' (RawMemory.length_read _ k)]

/-! ## Strings with zeros after them -/

theorem take_zeros (n k : Nat) : (zeros n).take k = zeros (min k n) := by
  rw [zeros, take_replicate]

theorem drop_zeros (n k : Nat) : (zeros n).drop k = zeros (n - k) := by
  rw [zeros, drop_replicate]

theorem zeros_append (n k : Nat) : zeros n ++ zeros k = zeros (n + k) :=
  replicate_append_replicate

/-- Text after the string. -/
theorem padded_append {s t : Bytes} {k : Nat} :
    overwrite (s ++ zeros k) s.length t = s ++ t ++ zeros (k - t.length) := by
  rw [overwrite, take_left, ← drop_drop, drop_left, drop_zeros]

/-- Zeros from a place in the string to its end, or further. -/
theorem padded_cut {s : Bytes} {i n k : Nat} (low : i ≤ s.length) (high : s.length ≤ i + n) (inside : i + n ≤ s.length + k) :
    overwrite (s ++ zeros k) i (zeros n) = s.take i ++ zeros (s.length + k - i) := by
  have over_ : i + n = s.length + (i + n - s.length) := by omega
  rw [overwrite, length_replicate, take_append_of_le_length low, over_, ← drop_drop, drop_left,
    drop_zeros, append_assoc, zeros_append]
  congr 2
  omega

/-- The rest of the string moved down over what is erased. -/
theorem padded_erase {s : Bytes} {pos n k : Nat} (inside : pos + n ≤ s.length) :
    overwrite (overwrite (s ++ zeros k) pos (((s ++ zeros k).drop (pos + n)).take (s.length - n - pos))) (s.length - n)
      (zeros n) = s.take pos ++ s.drop (pos + n) ++ zeros (k + n) := by
  have moved : ((s ++ zeros k).drop (pos + n)).take (s.length - n - pos) = s.drop (pos + n) := by
    rw [drop_append_of_le_length inside, take_left']
    rw [length_drop]
    omega
  have length : (s.drop (pos + n)).length = s.length - n - pos := by
    rw [length_drop]
    omega
  rw [moved]
  have once : overwrite (s ++ zeros k) pos (s.drop (pos + n)) =
      s.take pos ++ s.drop (pos + n) ++ (s.drop (s.length - n) ++ zeros k) := by
    have last : pos + (s.drop (pos + n)).length = s.length - n := by omega
    rw [overwrite, take_append_of_le_length (by omega), last, drop_append_of_le_length (by omega)]
  have front : (s.take pos ++ s.drop (pos + n)).length = s.length - n := by
    rw [length_append, length_take_of_le (by omega), length]
    omega
  have back : (s.drop (s.length - n)).length = n := by
    rw [length_drop]
    omega
  have middle := overwrite_middle (a := s.take pos ++ s.drop (pos + n)) (b := s.drop (s.length - n)) (d := zeros n)
    (c := zeros k) (by rw [length_replicate, back])
  rw [front] at middle
  rw [once, ← append_assoc, middle, append_assoc _ (zeros n), zeros_append, Nat.add_comm n]

theorem dstrLastByte_concat (front : Bytes) (b : UInt8) : dstrLastByte (front ++ [b]) = b := by
  rw [dstrLastByte, length_append, length_singleton, Nat.add_sub_cancel, getD_eq_getElem?_getD,
    List.getElem?_concat_length, Option.getD_some]

theorem dstrSetLastByte_concat (front : Bytes) (b b' : UInt8) : dstrSetLastByte (front ++ [b]) b' = front ++ [b'] := by
  rw [dstrSetLastByte, length_append, length_singleton, Nat.add_sub_cancel, set_append_right _ _ (le_refl _),
    Nat.sub_self]
  rfl

/-! ## In place -/

/-- A string in place: its bytes, zeros and the space left. -/
def dstrInPlace (size : Nat) (s : Bytes) : Bytes :=
  s ++ zeros (size - 1 - s.length) ++ [UInt8.ofNat (size - 1 - s.length)]

theorem dstrInit_eq (size : Nat) : dstrInit size = dstrInPlace size [] :=
  rfl

section InPlace

variable {S : DstrSize} {s : Bytes}

theorem length_dstrInPlace (short : s.length < S.size) : (dstrInPlace S.size s).length = S.size := by
  rw [dstrInPlace, length_append, length_append, length_replicate, length_singleton]
  omega

theorem toNat_ofNat_space (S : DstrSize) (n : Nat) : (UInt8.ofNat (S.size - 1 - n)).toNat = S.size - 1 - n := by
  have most := S.most
  rw [UInt8.toNat_ofNat']
  omega

theorem dstrLastByte_inPlace : dstrLastByte (dstrInPlace S.size s) = UInt8.ofNat (S.size - 1 - s.length) :=
  dstrLastByte_concat _ _

theorem dstrIsSso_inPlace (short : s.length < S.size) : dstrIsSso (dstrInPlace S.size s) = true := by
  rw [dstrIsSso, dstrLastByte_inPlace, toNat_ofNat_space, length_dstrInPlace short]
  apply decide_eq_true
  omega

theorem dstrSsoLen_inPlace (short : s.length < S.size) : dstrSsoLen (dstrInPlace S.size s) = s.length := by
  rw [dstrSsoLen, dstrLastByte_inPlace, toNat_ofNat_space, length_dstrInPlace short]
  omega

theorem dstrInfo_inPlace (short : s.length < S.size) :
    dstrInfo (dstrInPlace S.size s) = { length := s.length, space := S.size - 1 - s.length, state := .sso } := by
  rw [dstrInfo, if_pos (dstrIsSso_inPlace short), dstrSsoLen_inPlace short, dstrLastByte_inPlace, toNat_ofNat_space]

theorem ofNat_flag : ∀ n : Fin 128, UInt8.ofNat n &&& dstrPtrFlag = 0 := by
  decide

theorem dstrIsPtr_inPlace : dstrIsPtr (dstrInPlace S.size s) = false := by
  have most := S.most
  rw [dstrIsPtr, dstrLastByte_inPlace]
  exact decide_eq_false (not_not.mpr (ofNat_flag ⟨S.size - 1 - s.length, by omega⟩))

end InPlace

/-! ## On the heap -/

/-- The meta byte of a string on the heap that has been counted `n` times to grow. -/
def dstrMeta (n : Fin 16) : UInt8 :=
  UInt8.ofNat (128 + n)

theorem dstrMeta_zero : dstrPtrFlag = dstrMeta 0 :=
  rfl

theorem le_toNat_dstrMeta : ∀ n, 128 ≤ (dstrMeta n).toNat := by
  decide

theorem dstrMeta_flag : ∀ n, dstrMeta n &&& dstrPtrFlag ≠ 0 := by
  decide

theorem toNat_dstrMeta_count : ∀ n, (dstrMeta n &&& dstrGrowCountMask).toNat = n := by
  decide

theorem dstrMeta_kept : ∀ n, dstrPtrFlag ||| (dstrMeta n &&& dstrGrowCountMask) = dstrMeta n := by
  decide

theorem dstrMeta_succ : ∀ n : Fin 16, n.val < 15 → dstrMeta n + 1 = dstrMeta (n + 1) := by
  decide

/-- A string on the heap: its buffer, its end, and the blocks and the meta byte in the last word. -/
def dstrOnHeap (size buf len blocks : Nat) (meta_ : UInt8) : Bytes :=
  leBytes 8 buf ++ leBytes 8 (buf + len) ++ zeros (size - 24) ++ leBytes 7 blocks ++ [meta_]

section OnHeap

variable {S : DstrSize} {buf len blocks : Nat} {m : UInt8}

theorem length_dstrOnHeap : (dstrOnHeap S.size buf len blocks m).length = S.size := by
  have least := S.least
  simp only [dstrOnHeap, length_append, length_leBytes, length_replicate, length_singleton]
  omega

theorem dstrLastByte_onHeap : dstrLastByte (dstrOnHeap S.size buf len blocks m) = m :=
  dstrLastByte_concat _ _

theorem dstrSetLastByte_onHeap (m' : UInt8) :
    dstrSetLastByte (dstrOnHeap S.size buf len blocks m) m' = dstrOnHeap S.size buf len blocks m' :=
  dstrSetLastByte_concat _ _ _

theorem dstrUptr_zero_onHeap (fits : buf < sizeTop) : dstrUptr (dstrOnHeap S.size buf len blocks m) 0 = buf := by
  rw [dstrUptr, Nat.mul_zero, drop_zero, dstrOnHeap]
  simp only [append_assoc]
  rw [take_left' (length_leBytes 8 buf)]
  exact leNat_leBytes fits

theorem dstrUptr_one_onHeap (fits : buf + len < sizeTop) :
    dstrUptr (dstrOnHeap S.size buf len blocks m) 1 = buf + len := by
  rw [dstrUptr, Nat.mul_one, dstrOnHeap]
  simp only [append_assoc]
  rw [drop_left' (length_leBytes 8 buf), take_left' (length_leBytes 8 (buf + len))]
  exact leNat_leBytes fits

theorem dstrLastUptr_onHeap (fits : blocks < 2 ^ 56) :
    dstrLastUptr (dstrOnHeap S.size buf len blocks m) = blocks + 2 ^ 56 * m.toNat := by
  obtain ⟨k, words⟩ := S.words
  have least := S.least
  rw [dstrLastUptr, length_dstrOnHeap, dstrUptr, dstrOnHeap]
  have place : 8 * (S.size / 8 - 1) = (leBytes 8 buf ++ leBytes 8 (buf + len) ++ zeros (S.size - 24)).length := by
    simp only [length_append, length_leBytes, length_replicate]
    omega
  rw [place, append_assoc _ (leBytes 7 blocks), drop_left]
  have whole : (leBytes 7 blocks ++ [m]).length = 8 := by
    rw [length_append, length_leBytes, length_singleton]
  rw [← whole, take_length, leNat_append, leNat_leBytes fits, length_leBytes]
  rfl

theorem dstrPtrBlockCount_onHeap (fits : blocks < 2 ^ 56) :
    dstrPtrBlockCount (dstrOnHeap S.size buf len blocks m) = blocks := by
  rw [dstrPtrBlockCount, dstrLastUptr_onHeap fits, Nat.and_two_pow_sub_one_eq_mod, Nat.add_mul_mod_self_left,
    Nat.mod_eq_of_lt fits]

theorem dstrPtrLen_onHeap (fits : buf + len < sizeTop) : dstrPtrLen (dstrOnHeap S.size buf len blocks m) = len := by
  rw [dstrPtrLen, dstrUptr_zero_onHeap (by omega), dstrUptr_one_onHeap fits]
  have sum : buf + len + sizeTop - buf = len + sizeTop := by omega
  rw [sum, Nat.add_mod_right, Nat.mod_eq_of_lt (by omega)]

theorem dstrSetUptr_one_onHeap (len' : Nat) :
    dstrSetUptr (dstrOnHeap S.size buf len blocks m) 1 (buf + len') = dstrOnHeap S.size buf len' blocks m := by
  have middle := overwrite_middle (a := leBytes 8 buf) (b := leBytes 8 (buf + len)) (d := leBytes 8 (buf + len'))
    (c := zeros (S.size - 24) ++ (leBytes 7 blocks ++ [m])) (by rw [length_leBytes, length_leBytes])
  rw [length_leBytes] at middle
  rw [dstrSetUptr, Nat.mul_one, dstrOnHeap, dstrOnHeap]
  simp only [append_assoc] at middle ⊢
  exact middle

theorem dstrIsSso_onHeap (n : Fin 16) : dstrIsSso (dstrOnHeap S.size buf len blocks (dstrMeta n)) = false := by
  have most := S.most
  have high := le_toNat_dstrMeta n
  rw [dstrIsSso, dstrLastByte_onHeap, length_dstrOnHeap]
  apply decide_eq_false
  omega

theorem dstrIsPtr_onHeap (n : Fin 16) : dstrIsPtr (dstrOnHeap S.size buf len blocks (dstrMeta n)) = true := by
  rw [dstrIsPtr, dstrLastByte_onHeap]
  exact decide_eq_true (dstrMeta_flag n)

theorem dstrInfo_onHeap {n : Fin 16} (some_ : 0 < buf) (fits : buf + len < sizeTop) (least : 0 < blocks)
    (most : blocks < 2 ^ 56) (inside : len < blocks * 256) : dstrInfo (dstrOnHeap S.size buf len blocks (dstrMeta n)) =
      { blocks, length := len, space := blocks * 256 - 1 - len, state := .ptr } := by
  rw [dstrInfo, dstrIsSso_onHeap, if_neg nofun, dstrIsPtr_onHeap, dstrUptr_zero_onHeap (by omega),
    dstrUptr_one_onHeap fits, dstrPtrBlockCount_onHeap most, dstrPtrLen_onHeap fits]
  rw [if_pos ⟨rfl, by omega, by omega, by omega, inside⟩]

/-- Whatever the words were, they are those of a string on the heap then. -/
theorem dstrOwn_eq {a b c : Bytes} (aLength : a.length = 8) (bLength : b.length = 8) (cLength : c.length = 8)
    (fits : blocks < 2 ^ 56) :
    dstrOwn (a ++ b ++ zeros (S.size - 24) ++ c) buf len blocks m = dstrOnHeap S.size buf len blocks m := by
  obtain ⟨k, words⟩ := S.words
  have least := S.least
  have first : dstrSetUptr (a ++ b ++ zeros (S.size - 24) ++ c) 0 buf = leBytes 8 buf ++ b ++ zeros (S.size - 24) ++ c := by
    have middle := overwrite_middle (a := []) (b := a) (d := leBytes 8 buf)
      (c := b ++ (zeros (S.size - 24) ++ c)) (by rw [length_leBytes, aLength])
    rw [dstrSetUptr, Nat.mul_zero]
    simp only [append_assoc, nil_append, length_nil] at middle ⊢
    exact middle
  have second : dstrSetUptr (leBytes 8 buf ++ b ++ zeros (S.size - 24) ++ c) 1 (buf + len) =
      leBytes 8 buf ++ leBytes 8 (buf + len) ++ zeros (S.size - 24) ++ c := by
    have middle := overwrite_middle (a := leBytes 8 buf) (b := b) (d := leBytes 8 (buf + len))
      (c := zeros (S.size - 24) ++ c) (by rw [length_leBytes, bLength])
    rw [length_leBytes] at middle
    rw [dstrSetUptr, Nat.mul_one]
    simp only [append_assoc] at middle ⊢
    exact middle
  have third : dstrSetLastUptr (leBytes 8 buf ++ leBytes 8 (buf + len) ++ zeros (S.size - 24) ++ c) blocks =
      dstrOnHeap S.size buf len blocks 0 := by
    have middle := overwrite_middle (a := leBytes 8 buf ++ leBytes 8 (buf + len) ++ zeros (S.size - 24)) (b := c)
      (d := leBytes 8 blocks) (c := []) (by rw [length_leBytes, cLength])
    have word : leBytes 8 blocks = leBytes 7 blocks ++ [0] := by
      rw [show 8 = 7 + 1 from rfl, leBytes_add, show 256 ^ 7 = 2 ^ 56 from rfl, Nat.div_eq_of_lt fits]
      rfl
    rw [dstrSetLastUptr, dstrSetUptr]
    have place : 8 * ((leBytes 8 buf ++ leBytes 8 (buf + len) ++ zeros (S.size - 24) ++ c).length / 8 - 1) =
        (leBytes 8 buf ++ leBytes 8 (buf + len) ++ zeros (S.size - 24)).length := by
      simp only [length_append, length_leBytes, length_replicate]
      omega
    rw [place]
    rw [append_nil, append_nil] at middle
    rw [middle, word, dstrOnHeap, append_assoc _ (leBytes 7 blocks)]
  rw [dstrOwn, first, second, third, dstrLastByte_onHeap, dstrSetLastByte_onHeap, UInt8.zero_or]

theorem dstrOwn_zeros (fits : blocks < 2 ^ 56) :
    dstrOwn (zeros S.size) buf len blocks m = dstrOnHeap S.size buf len blocks m := by
  have least := S.least
  have split : zeros S.size = zeros 8 ++ zeros 8 ++ zeros (S.size - 24) ++ zeros 8 := by
    simp only [zeros, replicate_append_replicate]
    congr 1
    omega
  rw [split]
  exact dstrOwn_eq rfl rfl rfl fits

theorem dstrOwn_init (fits : blocks < 2 ^ 56) :
    dstrOwn (dstrInit S.size) buf len blocks m = dstrOnHeap S.size buf len blocks m := by
  have least := S.least
  have split : dstrInit S.size = zeros 8 ++ zeros 8 ++ zeros (S.size - 24) ++ (zeros 7 ++ [UInt8.ofNat (S.size - 1)]) := by
    rw [dstrInit, ← append_assoc]
    congr 1
    simp only [zeros, replicate_append_replicate]
    congr 1
    omega
  rw [split]
  exact dstrOwn_eq rfl rfl rfl fits

theorem dstrOwn_onHeap {buf' len' blocks' : Nat} {m' : UInt8} (fits : blocks < 2 ^ 56) :
    dstrOwn (dstrOnHeap S.size buf' len' blocks' m') buf len blocks m = dstrOnHeap S.size buf len blocks m := by
  rw [dstrOnHeap, append_assoc _ (leBytes 7 blocks')]
  refine dstrOwn_eq (length_leBytes _ _) (length_leBytes _ _) ?_ fits
  rw [length_append, length_leBytes, length_singleton]

end OnHeap

/-! ## The legal forms -/

theorem blocks_lt {blocks : Nat} (most : blocks ≤ dstrBlkCountMask) : blocks < 2 ^ 56 :=
  Nat.lt_of_le_pred (by decide) most

/-- A buffer with a string in it and zeros after that. -/
structure DstrBuf (m : RawMemory) (buf size : Nat) (s : Bytes) : Prop where
  block : m.block buf = some size
  bytes : m.read buf size = s ++ zeros (size - s.length)
  inside : s.length < size

/-- A legal object of a string, and the block that it owns: the string is in place, with the space left in the meta
byte, or in a buffer of as many blocks as the last word counts, with the flag and the count of growths in the meta
byte. -/
inductive DstrLegal (S : DstrSize) (m : RawMemory) (s : Bytes) : Bytes → Option Nat → Prop
  | inPlace (short : s.length < S.size) : DstrLegal S m s (dstrInPlace S.size s) none
  | onHeap (buf blocks : Nat) (n : Fin 16) (least : 1 ≤ blocks) (most : blocks ≤ dstrBlkCountMask)
      (holds : DstrBuf m buf (blocks * dstrBlkSize) s) :
      DstrLegal S m s (dstrOnHeap S.size buf s.length blocks (dstrMeta n)) (some buf)

section Legal

variable {S : DstrSize} {m m' : RawMemory} {buf size : Nat} {s : Bytes} {raw : Bytes} {own own' : Option Nat}

theorem DstrBuf.nonnull (holds : DstrBuf m buf size s) (settled : m.Settled sizeTop) : 0 < buf :=
  (settled.inside buf size holds.block).1

theorem DstrBuf.below (holds : DstrBuf m buf size s) (settled : m.Settled sizeTop) : buf + s.length < sizeTop := by
  have below := (settled.inside buf size holds.block).2.2
  have inside := holds.inside
  omega

/-- What is written in the buffer makes another string of it. -/
theorem DstrBuf.put (holds : DstrBuf m buf size s) (settled : m.Settled sizeTop) {t b : Bytes} (i : Nat)
    (fits : i + b.length ≤ size) (inside : t.length < size)
    (makes : overwrite (s ++ zeros (size - s.length)) i b = t ++ zeros (size - t.length)) :
    DstrBuf (m.write (buf + i) b) buf size t ∧ m.Change sizeTop (some buf) (m.write (buf + i) b) (some buf) := by
  refine ⟨⟨holds.block, ?_, inside⟩, .write settled holds.block fits⟩
  rw [read_write_overwrite fits, holds.bytes, makes]

/-- Nobody else's changes change a string. -/
theorem DstrLegal.kept (legal : DstrLegal S m s raw own) {mine mine' : Option Nat}
    (change : m.Change sizeTop mine m' mine') (other : ∀ p, own = some p → mine ≠ some p) :
    DstrLegal S m' s raw own := by
  cases legal with
  | inPlace short => exact .inPlace short
  | onHeap buf blocks n least most holds =>
    obtain ⟨block, same⟩ := change.kept buf _ holds.block (other buf rfl)
    exact .onHeap buf blocks n least most ⟨block, same.trans holds.bytes, holds.inside⟩

theorem DstrLegal.length (legal : DstrLegal S m s raw own) : raw.length = S.size := by
  cases legal with
  | inPlace short => exact length_dstrInPlace short
  | onHeap => exact length_dstrOnHeap

/-- What is known of a legal object. -/
theorem DstrLegal.info (legal : DstrLegal S m s raw own) (settled : m.Settled sizeTop) :
    (dstrInfo raw).state ≠ .bad ∧ (dstrInfo raw).length = s.length ∧ s.length < sizeTop ∧
      (dstrInfo raw).blocks * dstrBlkSize ≤ s.length + (dstrInfo raw).space + 1 := by
  cases legal with
  | inPlace short =>
    have most := S.most
    rw [dstrInfo_inPlace short]
    exact ⟨nofun, rfl, Nat.lt_of_lt_of_le short (most.trans (by decide)), by rw [Nat.zero_mul]; exact Nat.zero_le _⟩
  | onHeap buf blocks n least most holds =>
    rw [dstrInfo_onHeap (holds.nonnull settled) (holds.below settled) least (blocks_lt most) holds.inside]
    have inside : s.length < blocks * 256 := holds.inside
    have below := holds.below settled
    refine ⟨nofun, rfl, by omega, ?_⟩
    change blocks * 256 ≤ s.length + (blocks * 256 - 1 - s.length) + 1
    omega

/-- An operation of an object that owns `own` leaves a legal object of `s'`. -/
def DstrLeads (S : DstrSize) (m : RawMemory) (own : Option Nat) (m' : RawMemory) (raw s' : Bytes) : Prop :=
  ∃ own', DstrLegal S m' s' raw own' ∧ m.Change sizeTop own m' own'

theorem DstrLegal.stays (legal : DstrLegal S m s raw own) (settled : m.Settled sizeTop) : DstrLeads S m own m raw s :=
  ⟨own, legal, .refl settled⟩

theorem DstrLeads.after {raw' s' : Bytes} {m'' : RawMemory} (change : m.Change sizeTop own m' own')
    (leads : DstrLeads S m' own' m'' raw' s') : DstrLeads S m own m'' raw' s' := by
  obtain ⟨own'', legal, changed⟩ := leads
  exact ⟨own'', legal, change.trans changed⟩

end Legal

end Askai
