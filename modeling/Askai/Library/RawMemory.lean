import Askai.Library.Bytes

/-!
# Memory of bytes and blocks

Numbers as bytes, a memory of bytes with blocks that an allocator places in it, and what a change by the owner of
one block leaves to the others.
-/

namespace Askai.Library

open List

/-! ## Numbers as bytes -/

/-- A number in `n` bytes, the lowest first. -/
def leBytes : Nat → Nat → Bytes
  | 0, _ => []
  | n + 1, w => UInt8.ofNat w :: leBytes n (w / 256)

/-- The number of bytes, the lowest first. -/
def leNat : Bytes → Nat
  | [] => 0
  | b :: bytes => b.toNat + 256 * leNat bytes

@[simp]
theorem length_leBytes (n w : Nat) : (leBytes n w).length = n := by
  induction n generalizing w with
  | zero => rfl
  | succ n ih => rw [leBytes, length_cons, ih]

theorem leNat_leBytes {n w : Nat} (fits : w < 256 ^ n) : leNat (leBytes n w) = w := by
  induction n generalizing w with
  | zero =>
    rw [pow_zero] at fits
    obtain rfl : w = 0 := by omega
    rfl
  | succ n ih =>
    rw [pow_succ] at fits
    rw [leBytes, leNat, ih (by omega), UInt8.toNat_ofNat']
    omega

theorem leNat_append (a b : Bytes) : leNat (a ++ b) = leNat a + 256 ^ a.length * leNat b := by
  induction a with
  | nil => simp only [nil_append, leNat, length_nil, pow_zero, Nat.one_mul, Nat.zero_add]
  | cons c a ih =>
    rw [cons_append, leNat, ih, leNat, length_cons, pow_succ]
    ring

theorem leBytes_add (m n w : Nat) : leBytes (m + n) w = leBytes m w ++ leBytes n (w / 256 ^ m) := by
  induction m generalizing w with
  | zero => rw [Nat.zero_add, leBytes, nil_append, pow_zero, Nat.div_one]
  | succ m ih =>
    rw [Nat.add_right_comm, leBytes, leBytes, ih, cons_append, pow_succ, Nat.div_div_eq_div_mul, Nat.mul_comm]

/-! ## Memory -/

/-- Bytes at addresses, and the sizes of the blocks that begin at them. -/
structure RawMemory where
  byte : Nat → UInt8
  block : Nat → Option Nat

/-- Two stretches of addresses do not overlap. -/
def Sep (a n b k : Nat) : Prop :=
  a + n ≤ b ∨ b + k ≤ a

namespace RawMemory

variable (m : RawMemory)

def read (a n : Nat) : Bytes :=
  (List.range n).map fun i => m.byte (a + i)

def write (a : Nat) (bytes : Bytes) : RawMemory :=
  { m with byte := fun b => if a ≤ b ∧ b < a + bytes.length then bytes.getD (b - a) 0 else m.byte b }

/-- A block at `p` of `n` bytes that were something before. -/
def allocate (p n : Nat) (stale : Nat → UInt8) : RawMemory where
  byte b := if p ≤ b ∧ b < p + n then stale (b - p) else m.byte b
  block := Function.update m.block p (some n)

def release (p : Nat) : RawMemory :=
  { m with block := Function.update m.block p none }

variable {m}

@[simp]
theorem length_read (a n : Nat) : (m.read a n).length = n := by
  rw [read, length_map, length_range]

@[simp]
theorem block_write (a : Nat) (bytes : Bytes) : (m.write a bytes).block = m.block :=
  rfl

theorem read_congr {m' : RawMemory} {a n : Nat} (same : ∀ i < n, m.byte (a + i) = m'.byte (a + i)) :
    m.read a n = m'.read a n :=
  map_congr_left fun i among => same i (mem_range.mp among)

theorem read_add (a n k : Nat) : m.read a (n + k) = m.read a n ++ m.read (a + n) k := by
  rw [read, range_add, map_append, map_map]
  congr 1
  apply map_congr_left
  intro i _
  rw [Function.comp_apply, Nat.add_assoc]

theorem read_write (a : Nat) (bytes : Bytes) : (m.write a bytes).read a bytes.length = bytes := by
  apply ext_getElem (length_read _ _)
  intro i inside inside'
  simp only [read, write, getElem_map, getElem_range]
  rw [if_pos ⟨Nat.le_add_right _ _, Nat.add_lt_add_left inside' a⟩, Nat.add_sub_cancel_left,
    getD_eq_getElem?_getD, List.getElem?_eq_getElem inside', Option.getD_some]

theorem read_write_sep {a n b : Nat} {bytes : Bytes} (sep : Sep a n b bytes.length) :
    (m.write b bytes).read a n = m.read a n := by
  apply read_congr
  intro i less
  rw [write]
  dsimp only
  rw [if_neg]
  unfold Sep at sep
  omega

/-- Bytes written in the middle of a stretch. -/
theorem read_write_middle (a before : Nat) (bytes : Bytes) (rest : Nat) :
    (m.write (a + before) bytes).read a (before + bytes.length + rest) =
      m.read a before ++ bytes ++ m.read (a + before + bytes.length) rest := by
  rw [Nat.add_assoc, read_add, read_add, read_write, read_write_sep (.inl (le_refl _)),
    read_write_sep (.inr (le_refl _)), append_assoc]

theorem read_allocate_sep {a n p k : Nat} {stale : Nat → UInt8} (sep : Sep a n p k) :
    (m.allocate p k stale).read a n = m.read a n := by
  apply read_congr
  intro i less
  rw [allocate]
  dsimp only
  rw [if_neg]
  unfold Sep at sep
  omega

@[simp]
theorem read_release (p a n : Nat) : (m.release p).read a n = m.read a n :=
  rfl

/-- The blocks are apart from each other, and below `top`. -/
structure Settled (top : Nat) (m : RawMemory) : Prop where
  apart : ∀ p q n k, m.block p = some n → m.block q = some k → p ≠ q → Sep p n q k
  inside : ∀ p n, m.block p = some n → 0 < p ∧ 0 < n ∧ p + n ≤ top

/-- There is room for a block of `n` bytes at `p`. -/
structure Vacant (top : Nat) (m : RawMemory) (p n : Nat) : Prop where
  nonnull : 0 < p
  below : p + n ≤ top
  apart : ∀ q k, m.block q = some k → Sep p n q k

/-- What the owner of a block, or of none, may change: every other block stays as it is, and the block that it owns
then was its own, or no block before. -/
structure Change (top : Nat) (m : RawMemory) (own : Option Nat) (m' : RawMemory) (own' : Option Nat) : Prop where
  settled : Settled top m'
  kept : ∀ q k, m.block q = some k → own ≠ some q → m'.block q = some k ∧ m'.read q k = m.read q k
  fresh : ∀ p, own' = some p → own = some p ∨ m.block p = none

variable {top : Nat} {own : Option Nat}

theorem Change.refl (settled : Settled top m) : Change top m own m own :=
  ⟨settled, fun _ _ is _ => ⟨is, rfl⟩, fun _ is => .inl is⟩

theorem Change.trans {m' m'' : RawMemory} {own' own'' : Option Nat} (first : Change top m own m' own')
    (second : Change top m' own' m'' own'') : Change top m own m'' own'' where
  settled := second.settled
  kept q k is other := by
    obtain ⟨is', same⟩ := first.kept q k is other
    have other' : own' ≠ some q := by
      intro mine
      obtain mine | none_ := first.fresh q mine
      · exact other mine
      · exact nomatch is.symm.trans none_
    obtain ⟨is'', same'⟩ := second.kept q k is' other'
    exact ⟨is'', same'.trans same⟩
  fresh p mine := by
    obtain mine | none_ := second.fresh p mine
    · exact first.fresh p mine
    · by_cases mine : own = some p
      · exact .inl mine
      · right
        cases before : m.block p with
        | none => rfl
        | some k => exact nomatch none_.symm.trans (first.kept p k before mine).1

/-- A write inside the block that is owned. -/
theorem Change.write {p n i : Nat} {b : Bytes} (settled : Settled top m) (is : m.block p = some n)
    (inside : i + b.length ≤ n) : Change top m (some p) (m.write (p + i) b) (some p) where
  settled := ⟨settled.apart, settled.inside⟩
  kept q k is' other := by
    refine ⟨is', read_write_sep ?_⟩
    have apart := settled.apart q p k n is' is (fun same => other (by rw [same]))
    unfold Sep at apart ⊢
    omega
  fresh p' mine := .inl mine

theorem Settled.release (settled : Settled top m) (p : Nat) : Settled top (m.release p) := by
  have before : ∀ q k, (m.release p).block q = some k → m.block q = some k := by
    intro q k is
    rw [RawMemory.release] at is
    dsimp only at is
    by_cases same : q = p
    · rw [same, Function.update_self] at is
      exact nomatch is
    · rw [Function.update_of_ne same] at is
      exact is
  exact ⟨fun a b n k is is' => settled.apart a b n k (before a n is) (before b k is'),
    fun a n is => settled.inside a n (before a n is)⟩

theorem Change.release (settled : Settled top m) (p : Nat) : Change top m (some p) (m.release p) none where
  settled := settled.release p
  kept q k is other := by
    refine ⟨?_, rfl⟩
    rw [RawMemory.release]
    dsimp only
    rw [Function.update_of_ne (fun same => other (by rw [same]))]
    exact is
  fresh _ := nofun

theorem Vacant.none {p n : Nat} (settled : Settled top m) (some_ : 0 < n) (vacant : Vacant top m p n) :
    m.block p = none := by
  cases is : m.block p with
  | none => rfl
  | some k =>
    have apart := vacant.apart p k is
    have inside := settled.inside p k is
    unfold Sep at apart
    omega

theorem Change.allocate {p n : Nat} {f : Nat → UInt8} (settled : Settled top m) (some_ : 0 < n)
    (vacant : Vacant top m p n) : Change top m none (m.allocate p n f) (some p) where
  settled := by
    have blocks : ∀ q k, (m.allocate p n f).block q = some k → q = p ∧ k = n ∨ q ≠ p ∧ m.block q = some k := by
      intro q k is
      rw [RawMemory.allocate] at is
      dsimp only at is
      by_cases same : q = p
      · rw [same, Function.update_self] at is
        exact .inl ⟨same, (Option.some.inj is).symm⟩
      · rw [Function.update_of_ne same] at is
        exact .inr ⟨same, is⟩
    constructor
    · intro a b k l is is' differ
      obtain ⟨rfl, rfl⟩ | ⟨-, was⟩ := blocks a k is
      · obtain ⟨rfl, rfl⟩ | ⟨-, was'⟩ := blocks b l is'
        · exact absurd rfl differ
        · exact vacant.apart b l was'
      · obtain ⟨rfl, rfl⟩ | ⟨-, was'⟩ := blocks b l is'
        · exact (vacant.apart a k was).symm
        · exact settled.apart a b k l was was' differ
    · intro a k is
      obtain ⟨rfl, rfl⟩ | ⟨-, was⟩ := blocks a k is
      · exact ⟨vacant.nonnull, some_, vacant.below⟩
      · exact settled.inside a k was
  kept q k is _ := by
    have other : q ≠ p := by
      rintro rfl
      exact nomatch is.symm.trans (vacant.none settled some_)
    refine ⟨?_, read_allocate_sep (vacant.apart q k is).symm⟩
    rw [RawMemory.allocate]
    dsimp only
    rw [Function.update_of_ne other]
    exact is
  fresh q mine := by
    obtain rfl := Option.some.inj mine
    exact .inr (vacant.none settled some_)

end RawMemory

/-! ## Allocation -/

/-- Where an allocator places the blocks that it is asked for, one call after the other, and what they held. -/
structure Allocator (top : Nat) where
  place : RawMemory → Nat → Nat → Option Nat
  stale : RawMemory → Nat → Nat → UInt8
  vacant : ∀ m calls n p, place m calls n = some p → m.Vacant top p n

/-- A memory, and the calls of the allocator so far. -/
structure Arena where
  memory : RawMemory
  calls : Nat := 0

namespace Arena

variable {top : Nat} (A : Allocator top) (arena : Arena)

/-- `calloc`, of `n` bytes. -/
def calloc (n : Nat) : Option Nat × Arena :=
  match A.place arena.memory arena.calls n with
  | none => (none, { arena with calls := arena.calls + 1 })
  | some p =>
    (some p, {
      memory := (arena.memory.allocate p n (A.stale arena.memory arena.calls)).write p (List.replicate n 0)
      calls := arena.calls + 1 })

/-- `realloc`, of a block that begins at `p`: the new block holds as much of it as both have room for. -/
def realloc (p n : Nat) : Option Nat × Arena :=
  let gone := arena.memory.release p
  match A.place gone arena.calls n with
  | none => (none, { arena with calls := arena.calls + 1 })
  | some q =>
    (some q, {
      memory := (gone.allocate q n (A.stale gone arena.calls)).write q
        (arena.memory.read p (min ((arena.memory.block p).getD 0) n))
      calls := arena.calls + 1 })

/-- `free`. -/
def free (p : Nat) : Arena :=
  { arena with memory := arena.memory.release p }

/-- A write to memory. -/
def put (a : Nat) (bytes : Bytes) : Arena :=
  { arena with memory := arena.memory.write a bytes }

variable {A arena}

/-- A block of an owner who had none, or another one. -/
structure Gives (top : Nat) (m : RawMemory) (own : Option Nat) (n : Nat) (m' : RawMemory) (p : Nat) : Prop where
  change : RawMemory.Change top m own m' (some p)
  block : m'.block p = some n
  nonnull : 0 < p
  below : p + n ≤ top

theorem allocate_gives {m : RawMemory} {p n : Nat} {f : Nat → UInt8} {b : Bytes} (settled : m.Settled top)
    (some_ : 0 < n) (vacant : m.Vacant top p n) (fits : b.length ≤ n) :
    Gives top m none n ((m.allocate p n f).write p b) p := by
  have allocated := RawMemory.Change.allocate (f := f) settled some_ vacant
  have block : (m.allocate p n f).block p = some n := by
    rw [RawMemory.allocate]
    exact Function.update_self ..
  have written := RawMemory.Change.write (i := 0) (b := b) allocated.settled block (by omega)
  exact ⟨allocated.trans written, block, vacant.nonnull, vacant.below⟩

theorem calloc_spec (settled : arena.memory.Settled top) {n : Nat} (some_ : 0 < n) :
    match arena.calloc A n with
    | (none, after) => after.memory = arena.memory ∧ A.place arena.memory arena.calls n = none
    | (some p, after) => Gives top arena.memory none n after.memory p ∧
        after.memory.read p n = List.replicate n 0 := by
  rw [calloc]
  cases placed : A.place arena.memory arena.calls n with
  | none => exact ⟨rfl, rfl⟩
  | some p =>
    have vacant := A.vacant _ _ _ _ placed
    refine ⟨allocate_gives settled some_ vacant (by rw [length_replicate]), ?_⟩
    have whole := RawMemory.read_write (m := arena.memory.allocate p n (A.stale arena.memory arena.calls)) p
      (List.replicate n 0)
    rw [length_replicate] at whole
    exact whole

theorem realloc_spec (settled : arena.memory.Settled top) {p k n : Nat} (is : arena.memory.block p = some k)
    (some_ : 0 < n) :
    match arena.realloc A p n with
    | (none, after) => after.memory = arena.memory ∧
        A.place (arena.memory.release p) arena.calls n = none
    | (some q, after) => Gives top arena.memory (some p) n after.memory q ∧
        after.memory.read q (min k n) = arena.memory.read p (min k n) := by
  rw [realloc]
  cases placed : A.place (arena.memory.release p) arena.calls n with
  | none => exact ⟨rfl, rfl⟩
  | some q =>
    have vacant := A.vacant _ _ _ _ placed
    have released := RawMemory.Change.release settled p
    have fits : (arena.memory.read p (min k n)).length ≤ n := by
      rw [RawMemory.length_read]
      exact Nat.min_le_right _ _
    rw [is, Option.getD_some]
    dsimp only
    obtain ⟨change, block, nonnull, below⟩ := allocate_gives
      (f := A.stale (arena.memory.release p) arena.calls) released.settled some_ vacant fits
    refine ⟨⟨released.trans change, block, nonnull, below⟩, ?_⟩
    have whole := RawMemory.read_write
      (m := (arena.memory.release p).allocate q n (A.stale (arena.memory.release p) arena.calls)) q
      (arena.memory.read p (min k n))
    rw [RawMemory.length_read] at whole
    exact whole

end Arena

end Askai.Library
