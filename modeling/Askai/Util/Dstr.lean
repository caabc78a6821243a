import Askai.Library.RawMemory
import Askai.Util.Json

/-!
# Dynamic strings

`struct dstr`, whose bytes are a short string or what is known of a string on the heap (`dstr.h` and `dstr.c`), where
words are of 64 bits with the lowest byte first.
-/

namespace Askai

open Library

/-- `DSTR_BLK_SIZE`. -/
abbrev dstrBlkSize : Nat := 256

/-- `DSTR_GROW_SHIFT_MAX`. -/
abbrev dstrGrowShiftMax : Nat := 4

/-- `DSTR_PTR_FLAG`. -/
abbrev dstrPtrFlag : UInt8 := 0x80

/-- `DSTR_GROW_COUNT_MASK`. -/
abbrev dstrGrowCountMask : UInt8 := 0x0f

/-- `DSTR_BLK_COUNT_MASK`. -/
abbrev dstrBlkCountMask : Nat := 2 ^ 56 - 1

/-- Sizes and addresses are below this. -/
abbrev sizeTop : Nat := 2 ^ 64

/-- A size that `DSTR_OBJ_SIZE` may have. -/
structure DstrSize where
  size : Nat
  least : 24 ≤ size
  most : size ≤ 128
  words : 8 ∣ size

inductive DstrError where
  | overflow | noMemory | corrupt | format
  deriving DecidableEq

inductive DstrState where
  | sso | ptr | bad
  deriving DecidableEq

structure DstrInfo where
  blocks : Nat := 0
  length : Nat := 0
  space : Nat := 0
  state : DstrState

/-- `n` bytes of zero. -/
abbrev zeros (n : Nat) : Bytes := List.replicate n 0

/-! ## The bytes of an object -/

/-- `DSTR_INIT`. -/
def dstrInit (size : Nat) : Bytes :=
  zeros (size - 1) ++ [UInt8.ofNat (size - 1)]

/-- `dstr_last_byte_`. -/
def dstrLastByte (raw : Bytes) : UInt8 :=
  raw.getD (raw.length - 1) 0

def dstrSetLastByte (raw : Bytes) (b : UInt8) : Bytes :=
  raw.set (raw.length - 1) b

/-- A word of the object: the first is where the buffer begins, and the second where the string in it ends. -/
def dstrUptr (raw : Bytes) (k : Nat) : Nat :=
  leNat ((raw.drop (8 * k)).take 8)

def dstrSetUptr (raw : Bytes) (k w : Nat) : Bytes :=
  overwrite raw (8 * k) (leBytes 8 w)

/-- `dstr_last_uptr_`. -/
def dstrLastUptr (raw : Bytes) : Nat :=
  dstrUptr raw (raw.length / 8 - 1)

def dstrSetLastUptr (raw : Bytes) (w : Nat) : Bytes :=
  dstrSetUptr raw (raw.length / 8 - 1) w

/-- `dstr_is_sso`. -/
def dstrIsSso (raw : Bytes) : Bool :=
  (dstrLastByte raw).toNat < raw.length

/-- `dstr_is_ptr`. -/
def dstrIsPtr (raw : Bytes) : Bool :=
  dstrLastByte raw &&& dstrPtrFlag ≠ 0

/-- `dstr_sso_len`. -/
def dstrSsoLen (raw : Bytes) : Nat :=
  raw.length - 1 - (dstrLastByte raw).toNat

/-- `dstr_ptr_len`. -/
def dstrPtrLen (raw : Bytes) : Nat :=
  (dstrUptr raw 1 + sizeTop - dstrUptr raw 0) % sizeTop

/-- `dstr_ptr_block_count`. -/
def dstrPtrBlockCount (raw : Bytes) : Nat :=
  dstrLastUptr raw &&& dstrBlkCountMask

/-- `dstr_info`. -/
def dstrInfo (raw : Bytes) : DstrInfo :=
  if dstrIsSso raw then { length := dstrSsoLen raw, space := (dstrLastByte raw).toNat, state := .sso }
  else if dstrIsPtr raw ∧ dstrUptr raw 0 ≠ 0 ∧ dstrUptr raw 1 ≠ 0 ∧ dstrPtrBlockCount raw ≠ 0 ∧
      dstrPtrLen raw < dstrPtrBlockCount raw * dstrBlkSize then
    { blocks := dstrPtrBlockCount raw
      length := dstrPtrLen raw
      space := dstrPtrBlockCount raw * dstrBlkSize - 1 - dstrPtrLen raw
      state := .ptr }
  else { state := .bad }

/-- The metadata of a string on the heap, from its buffer, its length and its blocks. -/
def dstrOwn (raw : Bytes) (buf len blocks : Nat) (meta_ : UInt8) : Bytes :=
  let raw := dstrSetUptr raw 0 buf
  let raw := dstrSetUptr raw 1 (buf + len)
  let raw := dstrSetLastUptr raw blocks
  dstrSetLastByte raw (dstrLastByte raw ||| meta_)

/-! ## The functions -/

section Functions

variable (A : Allocator sizeTop)

/-- `dstr_init_n_`, of an object that is `DSTR_INIT`. -/
def dstrInitN (raw src : Bytes) (arena : Arena) : Option DstrError × Bytes × Arena :=
  let len := src.length
  if len = 0 then (none, raw, arena)
  else if len < raw.length then
    let raw := overwrite raw 0 src
    (none, dstrSetLastByte raw (dstrLastByte raw - UInt8.ofNat len), arena)
  else
    let blocks := len / 256 + 1
    if dstrBlkCountMask < blocks then (some .overflow, raw, arena)
    else
      match arena.calloc A (blocks * dstrBlkSize) with
      | (none, arena) => (some .noMemory, raw, arena)
      | (some buf, arena) => (none, dstrOwn raw buf len blocks dstrPtrFlag, arena.put buf src)

/-- `dstr_resize_`. -/
def dstrResize (raw : Bytes) (blocks : Nat) (arena : Arena) : Option DstrError × Bytes × Arena :=
  if dstrBlkCountMask < blocks then (some .overflow, raw, arena)
  else
    let i := dstrInfo raw
    let size := raw.length
    let curSize := if i.blocks ≠ 0 then i.blocks * dstrBlkSize else size
    let newSize := if blocks ≠ 0 then blocks * dstrBlkSize else size
    if i.state = .bad then (some .corrupt, raw, arena)
    else if blocks = i.blocks then (none, raw, arena)
    else if i.state = .ptr then
      let ptr := dstrUptr raw 0
      let count := dstrLastByte raw &&& dstrGrowCountMask
      let length := if newSize ≤ i.length then newSize - 1 else i.length
      if blocks = 0 then
        let short := overwrite (zeros size) 0 (arena.memory.read ptr length)
        (none, dstrSetLastByte short (UInt8.ofNat (size - 1 - length)), (arena.put ptr (zeros i.length)).free ptr)
      else
        let arena := if newSize ≤ i.length then arena.put (ptr + length) (zeros (i.length - length)) else arena
        match arena.realloc A ptr newSize with
        | (none, arena) =>
          let raw := if newSize ≤ i.length then dstrSetUptr raw 1 (ptr + length) else raw
          (if curSize < newSize then some .noMemory else none, raw, arena)
        | (some p, arena) =>
          let arena := if curSize < newSize then arena.put (p + curSize) (zeros (newSize - curSize)) else arena
          (none, dstrOwn raw p length blocks (dstrPtrFlag ||| count), arena)
    else
      match arena.calloc A (blocks * dstrBlkSize) with
      | (none, arena) => (some .noMemory, raw, arena)
      | (some ptr, arena) =>
        (none, dstrOwn (zeros size) ptr i.length blocks dstrPtrFlag, arena.put ptr (raw.take i.length))

/-- The blocks of a buffer for `n` bytes and a terminator, in steps of `2 ^ shift` blocks. -/
def dstrSteps (n shift : Nat) : Nat :=
  (((n >>> (8 + shift)) + 1) <<< shift) % sizeTop

/-- `dstr_grow_`. -/
def dstrGrow (raw : Bytes) (len : Nat) (exactly : Bool) (arena : Arena) : Option DstrError × Bytes × Arena :=
  let i := dstrInfo raw
  if i.state = .bad then (some .corrupt, raw, arena)
  else if len ≤ i.space then (none, raw, arena)
  else
    let n := (i.length + len) % sizeTop
    if n < i.length then (some .overflow, raw, arena)
    else
      let count := if i.state = .ptr then (dstrLastByte raw &&& dstrGrowCountMask).toNat else 0
      let shift := if exactly then 0 else min count dstrGrowShiftMax
      match dstrResize A raw (dstrSteps n shift) arena with
      | (some e, raw, arena) => (some e, raw, arena)
      | (none, raw, arena) =>
        if exactly = false ∧ count < dstrGrowCountMask.toNat then
          (none, dstrSetLastByte raw (dstrLastByte raw + 1), arena)
        else (none, raw, arena)

/-- `dstr_reserve_`: whether there is room then. -/
def dstrReserve_ (raw : Bytes) (len : Nat) (exactly : Bool) (arena : Arena) : Bool × Bytes × Arena :=
  let info := dstrInfo raw
  if info.state = .bad then (false, raw, arena)
  else if len ≤ info.space then (true, raw, arena)
  else
    match dstrGrow A raw len exactly arena with
    | (some _, _, arena) => (false, raw, arena)
    | (none, raw, arena) => (true, raw, arena)

/-- `dstr_reserve`. -/
def dstrReserve (raw : Bytes) (len : Nat) (arena : Arena) : Bool × Bytes × Arena :=
  dstrReserve_ A raw len true arena

/-- `dstr_cat_n`, of `len` bytes, or of a null pointer. -/
def dstrCatN (raw : Bytes) (src : Option Bytes) (len : Nat) (arena : Arena) : Bool × Bytes × Arena :=
  if len = 0 then (true, raw, arena)
  else
    match src with
    | none => (false, raw, arena)
    | some src =>
      match dstrReserve_ A raw len false arena with
      | (false, raw, arena) => (false, raw, arena)
      | (true, raw, arena) =>
        if dstrIsSso raw then
          let at_ := dstrSsoLen raw
          let raw := overwrite raw at_ (src.take len)
          let raw := dstrSetLastByte raw (dstrLastByte raw - UInt8.ofNat len)
          (true, raw.set (at_ + len) 0, arena)
        else
          let ptr := dstrUptr raw 1
          (true, dstrSetUptr raw 1 (ptr + len), (arena.put ptr (src.take len)).put (ptr + len) [0])

/-- `dstr_cat`, of a C string, or of a null pointer. -/
def dstrCat (raw : Bytes) (src : Option Bytes) (arena : Arena) : Bool × Bytes × Arena :=
  let src := src.map cstr
  dstrCatN A raw src ((src.map List.length).getD 0) arena

/-- What the two runs of `vsnprintf` do: the length that the first returns, unless it fails, and the text of the
second, or the bytes that it left when it failed. -/
structure DstrPrint where
  measured : Option Nat
  again : Option Bytes
  junk : Bytes
  fits : ∀ n ∈ measured, n < 2 ^ 31

/-- What the second run of `vsnprintf` wrote, with room for `len` bytes and the terminator. -/
def DstrPrint.written (print : DstrPrint) (len : Nat) : Bytes :=
  match print.again with
  | some text => text.take len ++ [0]
  | none => print.junk.take (len + 1)

/-- The second run of `dstr_vprintf_`, with room for its text. -/
def dstrPrintInto (raw : Bytes) (print : DstrPrint) (len : Nat) (arena : Arena) : Option DstrError × Bytes × Arena :=
  let i := dstrInfo raw
  if i.state = .ptr then
    let ptr := dstrUptr raw 1
    let arena := arena.put ptr (print.written len)
    if print.again.map List.length ≠ some len then (some .format, raw, arena.put ptr (zeros (len + 1)))
    else (none, dstrSetUptr raw 1 (ptr + len), arena)
  else
    let raw := overwrite raw i.length (print.written len)
    if print.again.map List.length ≠ some len then
      (some .format, dstrSetLastByte (overwrite raw i.length (zeros (len + 1))) (UInt8.ofNat i.space), arena)
    else (none, dstrSetLastByte raw (UInt8.ofNat (i.space - len)), arena)

/-- `dstr_vprintf_`. -/
def dstrVprintf (raw : Bytes) (print : DstrPrint) (arena : Arena) : Option DstrError × Bytes × Arena :=
  match print.measured with
  | none => (some .format, raw, arena)
  | some 0 => (none, raw, arena)
  | some len =>
    match dstrGrow A raw len false arena with
    | (some e, raw, arena) => (some e, raw, arena)
    | (none, raw, arena) => dstrPrintInto raw print len arena

/-- `dstr_erase`. -/
def dstrErase (raw : Bytes) (pos len : Nat) (arena : Arena) : Bool × Bytes × Arena :=
  let info := dstrInfo raw
  if info.state = .bad ∨ info.length < pos then (false, raw, arena)
  else
    let n := min len (info.length - pos)
    let last := info.length - n
    if n = 0 then (true, raw, arena)
    else if info.state = .ptr then
      let ptr := dstrUptr raw 0
      let arena := arena.put (ptr + pos) (arena.memory.read (ptr + (pos + n)) (last - pos))
      (true, dstrSetUptr raw 1 (dstrUptr raw 1 - n), arena.put (ptr + last) (zeros n))
    else
      let raw := overwrite raw pos ((raw.drop (pos + n)).take (last - pos))
      let raw := overwrite raw last (zeros n)
      (true, dstrSetLastByte raw (dstrLastByte raw + UInt8.ofNat n), arena)

/-- `dstr_clear`. -/
def dstrClear (raw : Bytes) (arena : Arena) : Bool × Bytes × Arena :=
  dstrErase raw 0 (sizeTop - 1) arena

/-- `dstr_free_`. -/
def dstrFree (buf last : Nat) (arena : Arena) : Arena :=
  if buf = 0 then arena
  else if last ≠ 0 then (arena.put buf (zeros (last - buf))).free buf
  else arena.free buf

/-- `dstr_cleanup`. -/
def dstrCleanup (raw : Bytes) (arena : Arena) : Bytes × Arena :=
  (dstrInit raw.length, if dstrIsPtr raw then dstrFree (dstrUptr raw 0) (dstrUptr raw 1) arena else arena)

/-- `dstr_move`: the moved object, and what is left of the old one. -/
def dstrMove (raw : Bytes) : Bytes × Bytes :=
  (raw, dstrInit raw.length)

/-- `dstr`, of a C string, or of a null pointer. -/
def dstr (size : Nat) (src : Option Bytes) (arena : Arena) : Bytes × Arena :=
  match src with
  | none => (dstrInit size, arena)
  | some src => (dstrInitN A (dstrInit size) (cstr src) arena).2

end Functions

end Askai
