import Mathlib.Data.List.DropRight
import Mathlib.Tactic

/-!
# Strings of bytes

Bytes of text, where they are cut, and how they compare when the case of their letters does not
count.
-/

namespace Askai.Library

abbrev Bytes := List UInt8

abbrev lf : UInt8 := 10
abbrev cr : UInt8 := 13
abbrev tab : UInt8 := 9
abbrev space : UInt8 := 32
abbrev nul : UInt8 := 0
abbrev quote : UInt8 := 34
abbrev dot : UInt8 := 46
abbrev slash : UInt8 := 47
abbrev colon : UInt8 := 58
abbrev backslash : UInt8 := 92

/-- The bytes of a text of the program. -/
def ascii (text : String) : Bytes :=
  text.toUTF8.data.toList

/-- What a test tells of every member, without the question of every other value of the type. -/
theorem forall_of_all {α : Type*} {p : α → Prop} [DecidablePred p] {l : List α}
    (all : l.all (fun x => p x) = true) : ∀ x ∈ l, p x := by
  simpa using all

/-! ## Cuts -/

section Cut

variable {α : Type*} [DecidableEq α]

/-- What comes before the first `c`, and what comes after it. -/
def cut (c : α) : List α → Option (List α × List α)
  | [] => none
  | x :: l => if x = c then some ([], l) else (cut c l).map fun (front, back) => (x :: front, back)

theorem cut_eq_some {c : α} {l front back : List α} :
    cut c l = some (front, back) ↔ l = front ++ c :: back ∧ c ∉ front := by
  induction l generalizing front with
  | nil => simp [cut]
  | cons x l ih =>
    rw [cut]
    split
    · rename_i same
      constructor
      · intro cut
        obtain ⟨rfl, rfl⟩ := Prod.mk.inj (Option.some.inj cut)
        exact ⟨by rw [same, List.nil_append], List.not_mem_nil⟩
      · rintro ⟨whole, absent⟩
        cases front with
        | nil => rw [(List.cons.inj whole).2]
        | cons y front =>
          obtain ⟨rfl, -⟩ := List.cons.inj whole
          exact absurd List.mem_cons_self (same ▸ absent)
    · rename_i other
      simp only [Option.map_eq_some_iff, Prod.exists, Prod.mk.injEq]
      constructor
      · rintro ⟨front', back', cut, rfl, rfl⟩
        obtain ⟨rfl, absent⟩ := ih.mp cut
        exact ⟨rfl, List.not_mem_cons_of_ne_of_not_mem (Ne.symm other) absent⟩
      · rintro ⟨whole, absent⟩
        cases front with
        | nil => exact absurd (List.cons.inj whole).1 other
        | cons y front =>
          obtain ⟨rfl, rfl⟩ := List.cons.inj whole
          exact ⟨front, back, ih.mpr ⟨rfl, List.not_mem_of_not_mem_cons absent⟩, rfl, rfl⟩

theorem cut_eq_none {c : α} {l : List α} : cut c l = none ↔ c ∉ l := by
  induction l with
  | nil => simp [cut]
  | cons x l ih =>
    rw [cut]
    split
    · rename_i same
      simp [same]
    · rename_i other
      rw [Option.map_eq_none_iff, ih, List.mem_cons, not_or]
      exact ⟨fun absent => ⟨Ne.symm other, absent⟩, And.right⟩

/-- A list with `c` in it is cut there. -/
theorem cut_append {c : α} {front : List α} (back : List α) (absent : c ∉ front) :
    cut c (front ++ c :: back) = some (front, back) :=
  cut_eq_some.mpr ⟨rfl, absent⟩

/-- What follows does not change where a list is cut. -/
theorem cut_append_of_some {c : α} {l front back : List α} (cut_l : cut c l = some (front, back))
    (more : List α) : cut c (l ++ more) = some (front, back ++ more) := by
  obtain ⟨rfl, absent⟩ := cut_eq_some.mp cut_l
  rw [List.append_assoc, List.cons_append]
  exact cut_append _ absent

theorem cut_length {c : α} {l front back : List α} (cut_l : cut c l = some (front, back)) :
    front.length + back.length + 1 = l.length := by
  obtain ⟨rfl, -⟩ := cut_eq_some.mp cut_l
  simp only [List.length_append, List.length_cons]
  omega

end Cut

/-! ## Letters -/

/-- An ASCII letter in lower case. -/
def lower (b : UInt8) : UInt8 :=
  if 65 ≤ b ∧ b ≤ 90 then b + 32 else b

/-- Equal but for the case of their ASCII letters. -/
def equalCase (left right : Bytes) : Bool :=
  left.map lower = right.map lower

@[simp]
theorem equalCase_refl (text : Bytes) : equalCase text text := by
  simp [equalCase]

theorem equalCase_symm {left right : Bytes} (same : equalCase left right) : equalCase right left := by
  simp only [equalCase, decide_eq_true_eq] at same ⊢
  exact same.symm

theorem equalCase_trans {left middle right : Bytes} (first : equalCase left middle)
    (second : equalCase middle right) : equalCase left right := by
  simp only [equalCase, decide_eq_true_eq] at first second ⊢
  exact first.trans second

end Askai.Library

/-!
# Bytes at offsets

The bytes between two offsets of a text, and a text with bytes written at an offset.
-/

namespace Askai.Library

/-- Bytes written from an offset on. -/
def overwrite (data : Bytes) (off : Nat) (bytes : Bytes) : Bytes :=
  data.take off ++ bytes ++ data.drop (off + bytes.length)

/-- The bytes from `head` to before `tail`. -/
def between (data : Bytes) (head tail : Nat) : Bytes :=
  (data.drop head).take (tail - head)

theorem length_overwrite {data bytes : Bytes} {off : Nat} (fits : off + bytes.length ≤ data.length) :
    (overwrite data off bytes).length = data.length := by
  simp only [overwrite, List.length_append, List.length_take, List.length_drop]
  omega

theorem length_between {data : Bytes} {head tail : Nat} (inside : tail ≤ data.length) :
    (between data head tail).length = tail - head := by
  rw [between, List.length_take, List.length_drop]
  omega

/-- The bytes written are there. -/
theorem between_overwrite (data bytes : Bytes) {off : Nat} (inside : off ≤ data.length) :
    between (overwrite data off bytes) off (off + bytes.length) = bytes := by
  have front : (data.take off).length = off := by
    rw [List.length_take]
    omega
  rw [between, overwrite, List.append_assoc, List.drop_left' front, Nat.add_sub_cancel_left, List.take_left]

/-- Bytes before the written ones stay. -/
theorem between_overwrite_before {data bytes : Bytes} {head tail off : Nat} (before : tail ≤ off)
    (inside : off ≤ data.length) : between (overwrite data off bytes) head tail = between data head tail := by
  rw [between, between, ← List.drop_take, ← List.drop_take, overwrite, List.append_assoc,
    List.take_append_of_le_length (by rw [List.length_take]; omega), List.take_take, Nat.min_eq_left before]

theorem between_append {data : Bytes} {head mid tail : Nat} (low : head ≤ mid) (high : mid ≤ tail) :
    between data head tail = between data head mid ++ between data mid tail := by
  have split : tail - head = (mid - head) + (tail - mid) := by omega
  rw [between, split, List.take_add, List.drop_drop, Nat.add_sub_cancel' low]
  rfl

theorem between_self (data : Bytes) (head : Nat) : between data head head = [] := by
  rw [between, Nat.sub_self, List.take_zero]

theorem between_drop {data : Bytes} {head tail : Nat} (len : Nat) :
    between data (head + len) tail = (between data head tail).drop len := by
  rw [between, between, List.drop_take, List.drop_drop]
  congr 1
  omega

theorem between_take {data : Bytes} {head : Nat} (tail len : Nat) (inside : head + len ≤ tail) :
    between data head (head + len) = (between data head tail).take len := by
  rw [between, between, List.take_take, Nat.add_sub_cancel_left, Nat.min_eq_left (by omega)]

end Askai.Library

/-!
# Bytes in text

Bytes in base64, in the standard alphabet, and bytes of which any are written as percent escapes.
-/

namespace Askai.Library

/-! ## Base64 -/

/-- The standard alphabet. -/
def base64Alphabet : Bytes :=
  ascii "ABCDEFGHIJKLMNOPQRSTUVWXYZabcdefghijklmnopqrstuvwxyz0123456789+/"

/-- The digit of a value. -/
def base64Letter (v : Nat) : UInt8 :=
  base64Alphabet.getD v 0

/-- The digits of the groups of six bits of a number, `k` of them, from the first. -/
def base64Digits (n k : Nat) : Bytes :=
  (List.range k).reverse.map fun i => base64Letter (n / 64 ^ i % 64)

/-- `=` where the last group is padded. -/
def base64Pad (padded : Bool) (k : Nat) : Bytes :=
  if padded then List.replicate k 61 else []

/-- Base64, of which the last group is padded or not. -/
def base64 (padded : Bool) : Bytes → Bytes
  | [] => []
  | [a] => base64Digits (a.toNat * 2 ^ 4) 2 ++ base64Pad padded 2
  | [a, b] => base64Digits (a.toNat * 2 ^ 10 + b.toNat * 2 ^ 2) 3 ++ base64Pad padded 1
  | a :: b :: c :: rest =>
    base64Digits (a.toNat * 2 ^ 16 + b.toNat * 2 ^ 8 + c.toNat) 4 ++ base64 padded rest

example : base64 true (ascii "Hello") = ascii "SGVsbG8=" := by decide

/-- The digits of base64, and their padding. -/
theorem base64_padded (padded : Bool) (bytes : Bytes) :
    ∃ pad, base64 padded bytes = base64 false bytes ++ base64Pad padded pad ∧
      (base64 false bytes).length + pad = (bytes.length + 2) / 3 * 4 ∧ pad ≤ 2 := by
  induction bytes using base64.induct with
  | case1 => exact ⟨0, by cases padded <;> rfl, rfl, by decide⟩
  | case2 a => exact ⟨2, by simp [base64, base64Pad], by simp [base64, base64Pad, base64Digits], by decide⟩
  | case3 a b => exact ⟨1, by simp [base64, base64Pad], by simp [base64, base64Pad, base64Digits], by decide⟩
  | case4 a b c rest ih =>
    obtain ⟨pad, split, whole, few⟩ := ih
    refine ⟨pad, ?_, ?_, few⟩
    · rw [base64, base64, split, List.append_assoc]
    · rw [base64, List.length_append]
      simp only [base64Digits, List.length_map, List.length_reverse, List.length_range, List.length_cons]
      omega

/-! ## Percent escapes -/

/-- A hexadecimal digit, of either case. -/
def HexOf (c : UInt8) (v : Nat) : Prop :=
  (ascii "0123456789abcdef")[v]? = some c ∨ (ascii "0123456789ABCDEF")[v]? = some c

/-- Bytes, of which any may be escaped, and a percent sign must be. -/
inductive Percent : Bytes → Bytes → Prop
  | nil : Percent [] []
  | plain {c : UInt8} {bytes text : Bytes} (other : c ≠ 37) (rest : Percent bytes text) :
      Percent (c :: bytes) (c :: text)
  | escaped {c high low : UInt8} {bytes text : Bytes} (first : HexOf high (c.toNat / 16))
      (second : HexOf low (c.toNat % 16)) (rest : Percent bytes text) :
      Percent (c :: bytes) (37 :: high :: low :: text)

end Askai.Library
