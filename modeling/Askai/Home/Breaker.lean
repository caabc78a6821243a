import Mathlib.Tactic

/-!
# The circuit breaker's spells

How home opens and closes its breaker (`home.c`), and for how long an opening refuses the upstream
jobs: what the answer's Retry-After asked for, else a backoff that doubles.
-/

namespace Askai.Home

open List

/-- `NS`. -/
def ns : Nat := 1000000000

/-- `BACKOFF_MIN`. -/
def backoffMin : Nat := ns

/-- `BACKOFF_MAX`. -/
def backoffMax : Nat := 60 * ns

/-- `home->state`. -/
inductive Circuit where
  | closed
  | opened
  | half
  deriving DecidableEq, Repr

/-- What home keeps of its breaker. -/
structure Breaker where
  state : Circuit := .closed
  /-- In a row, closed. -/
  failures : Nat := 0
  /-- `HOME_PROBING`. -/
  probing : Bool := false
  /-- The next open spell. -/
  backoff : Nat := backoffMin
  /-- When the breaker half-opens. -/
  until_ : Nat := 0
  deriving DecidableEq, Repr

/-- The Retry-After that `http_finish` keeps, of what curl made of the answer's. -/
def httpRetry (retry : Int) : Nat :=
  if 0 < retry ∧ retry < 2 ^ 63 - 1 then retry.toNat else 0

/-- The spell of an opening, before its bounds. -/
def Breaker.asked (b : Breaker) (retry : Nat) : Nat :=
  if 0 < retry then retry * ns % 2 ^ 64 else b.backoff

/-- The spell of an opening. -/
def Breaker.spell (b : Breaker) (retry : Nat) : Nat :=
  if b.asked retry < backoffMin then backoffMin
  else if backoffMax < b.asked retry then backoffMax
  else b.asked retry

/-- `home_breaker_open`. -/
def homeBreakerOpen (b : Breaker) (retry now : Nat) : Breaker :=
  { b with
    backoff := if b.backoff < backoffMax / 2 then 2 * b.backoff % 2 ^ 64 else backoffMax
    until_ := (now + b.spell retry) % 2 ^ 64
    state := .opened }

/-- `home_breaker_event`. -/
def homeBreakerEvent (b : Breaker) : Breaker :=
  { b with state := .half }

/-- `home_breaker_probed`. -/
def homeBreakerProbed (b : Breaker) (failure : Bool) (retry now : Nat) : Breaker :=
  if failure = true then homeBreakerOpen { b with probing := false } retry now
  else { b with probing := false, state := .closed, failures := 0, backoff := backoffMin }

/-! ## Openings and closings -/

/-- What happens to the breaker. -/
inductive Move where
  | opened (retry now : Nat)
  | halved
  | closed
  deriving DecidableEq, Repr

/-- The breaker after a move. -/
def Breaker.move (b : Breaker) : Move → Breaker
  | .opened retry now => homeBreakerOpen b retry now
  | .halved => homeBreakerEvent b
  | .closed => homeBreakerProbed b false 0 0

/-- How long the `k`-th opening since the breaker closed is to refuse the jobs. -/
def lawfulSpell (retry k : Nat) : Nat :=
  if 0 < retry then min (max (retry * ns) ns) (60 * ns) else min (2 ^ (k - 1)) 60 * ns

/-- Each opening of the moves refuses the jobs for as long as it is to, after `k` since the breaker
closed. -/
def Lawful (b : Breaker) (k : Nat) : List Move → Prop
  | [] => True
  | .opened retry now :: moves =>
    ((b.move (.opened retry now)).state = .opened ∧
      (b.move (.opened retry now)).until_ = now + lawfulSpell retry (k + 1)) ∧
        Lawful (b.move (.opened retry now)) (k + 1) moves
  | .halved :: moves => Lawful (b.move .halved) k moves
  | .closed :: moves => Lawful (b.move .closed) 0 moves

/-- No product and no sum of the moves wraps. -/
def Unwrapped (b : Breaker) : List Move → Prop
  | [] => True
  | .opened retry now :: moves =>
    ((0 < retry → retry * ns < 2 ^ 64) ∧ (b.backoff < backoffMax / 2 → 2 * b.backoff < 2 ^ 64) ∧
      now + b.spell retry < 2 ^ 64) ∧ Unwrapped (b.move (.opened retry now)) moves
  | .halved :: moves => Unwrapped (b.move .halved) moves
  | .closed :: moves => Unwrapped (b.move .closed) moves

/-- The most seconds that are that many nanoseconds. -/
def retryMax : Nat := 18446744073

variable {b c : Breaker} {k retry now : Nat} {moves : List Move}

/-! ## The backoff -/

/-- The backoff after `k` openings since the breaker closed. -/
def Backs (b : Breaker) (k : Nat) : Prop :=
  b.backoff = min (2 ^ k) 60 * ns

theorem Backs.opened (backs : Backs b k) : Backs (b.move (.opened retry now)) (k + 1) := by
  have double : 2 ^ (k + 1) = 2 * 2 ^ k := Nat.pow_succ'
  change (if b.backoff < backoffMax / 2 then 2 * b.backoff % 2 ^ 64 else backoffMax) = _
  rw [backs, double]
  unfold backoffMax ns
  split <;> omega

theorem Backs.closed : Backs (b.move .closed) 0 := rfl

/-- The product with which the breaker doubles its backoff does not wrap. -/
theorem Backs.lt (backs : Backs b k) : 2 * b.backoff < 2 ^ 64 := by
  rw [backs]
  unfold ns
  omega

/-! ## One opening -/

theorem Breaker.spell_le (b : Breaker) (retry : Nat) : b.spell retry ≤ 60 * ns := by
  rw [Breaker.spell]
  split
  · decide
  · split
    · exact Nat.le_refl _
    · exact Nat.le_of_not_lt ‹_›

/-- The end of a spell is in range. -/
theorem Breaker.until_eq (b : Breaker) (retry : Nat) (early : now < 2 ^ 63) :
    (b.move (.opened retry now)).until_ = now + b.spell retry := by
  have most := b.spell_le retry
  apply Nat.mod_eq_of_lt
  unfold ns at most
  omega

/-- An opening is as long as it is to be, unless its product wraps to less than the most. -/
theorem Backs.spell_iff (backs : Backs b k) : b.spell retry = lawfulSpell retry (k + 1) ↔
      retry ≤ retryMax ∨ 60 * ns ≤ retry * ns % 2 ^ 64 := by
  rcases Nat.eq_zero_or_pos retry with rfl | some_
  · have law : b.spell 0 = lawfulSpell 0 (k + 1) := by
      have pos := Nat.two_pow_pos k
      rw [Breaker.spell, Breaker.asked, if_neg (Nat.lt_irrefl 0), lawfulSpell,
        if_neg (Nat.lt_irrefl 0), backs, Nat.add_sub_cancel]
      unfold backoffMin backoffMax ns
      split
      · omega
      · split <;> omega
    exact ⟨fun _ => .inl (Nat.zero_le _), fun _ => law⟩
  · rw [Breaker.spell, Breaker.asked, if_pos some_, lawfulSpell, if_pos some_]
    unfold backoffMin backoffMax ns retryMax
    rcases Nat.lt_or_ge 18446744073 retry with long | short
    · generalize retry * 1000000000 % 2 ^ 64 = wrapped
      split
      · omega
      · split <;> omega
    · rw [Nat.mod_eq_of_lt (show retry * 1000000000 < 2 ^ 64 by omega)]
      split
      · omega
      · split <;> omega

/-! ## Every opening -/

/-- The moves' clock is before 2^63 ns. -/
def Early (moves : List Move) : Prop :=
  ∀ retry now, .opened retry now ∈ moves → now < 2 ^ 63

theorem Backs.lawful_iff (backs : Backs b k) (early : Early moves) :
    Lawful b k moves ↔ ∀ retry now, .opened retry now ∈ moves → retry ≤ retryMax ∨ 60 * ns ≤ retry * ns % 2 ^ 64 := by
  induction moves generalizing b k with
  | nil => simp [Lawful]
  | cons move moves ih =>
    have later : Early moves := fun retry now mem => early retry now (mem_cons_of_mem _ mem)
    cases move with
    | opened retry now =>
      have here := b.until_eq retry (early retry now mem_cons_self)
      rw [Lawful, ih backs.opened later, here, Nat.add_left_cancel_iff, backs.spell_iff]
      constructor
      · rintro ⟨⟨-, first⟩, rest⟩ retry' now' mem
        rcases mem_cons.mp mem with same | mem
        · cases same
          exact first
        · exact rest retry' now' mem
      · intro all
        exact ⟨⟨rfl, all retry now mem_cons_self⟩, fun retry' now' mem => all retry' now' (mem_cons_of_mem _ mem)⟩
    | halved =>
      rw [Lawful, ih (show Backs (b.move .halved) k from backs) later]
      simp
    | closed =>
      rw [Lawful, ih Backs.closed later]
      simp

theorem Backs.unwrapped_iff (backs : Backs b k) (early : Early moves) :
    Unwrapped b moves ↔ ∀ retry now, .opened retry now ∈ moves → retry ≤ retryMax := by
  induction moves generalizing b k with
  | nil => simp [Unwrapped]
  | cons move moves ih =>
    have later : Early moves := fun retry now mem => early retry now (mem_cons_of_mem _ mem)
    cases move with
    | opened retry now =>
      have clock := early retry now mem_cons_self
      have most := b.spell_le retry
      have sums : now + b.spell retry < 2 ^ 64 := by
        unfold ns at most
        omega
      have product : (0 < retry → retry * ns < 2 ^ 64) ↔ retry ≤ retryMax := by
        unfold ns retryMax
        omega
      rw [Unwrapped, ih backs.opened later, product]
      constructor
      · rintro ⟨⟨first, -, -⟩, rest⟩ retry' now' mem
        rcases mem_cons.mp mem with same | mem
        · cases same
          exact first
        · exact rest retry' now' mem
      · intro all
        exact ⟨⟨all retry now mem_cons_self, fun _ => backs.lt, sums⟩,
          fun retry' now' mem => all retry' now' (mem_cons_of_mem _ mem)⟩
    | halved =>
      rw [Unwrapped, ih (show Backs (b.move .halved) k from backs) later]
      simp
    | closed =>
      rw [Unwrapped, ih Backs.closed later]
      simp

/-- Every opening refuses the jobs for as long as it is to, and nothing wraps, if and only if no
Retry-After is more nanoseconds than 64 bits hold; the spells alone are also right where what the
product wraps to is a minute or more. -/
theorem breaker_spells (moves : List Move) (early : Early moves) : (Lawful {} 0 moves ∧ Unwrapped {} moves ↔
      ∀ retry now, .opened retry now ∈ moves → retry ≤ retryMax) ∧
    (Lawful {} 0 moves ↔ ∀ retry now, .opened retry now ∈ moves →
      retry ≤ retryMax ∨ 60 * ns ≤ retry * ns % 2 ^ 64) := by
  have backs : Backs {} 0 := rfl
  refine ⟨?_, backs.lawful_iff early⟩
  rw [backs.lawful_iff early, backs.unwrapped_iff early]
  exact ⟨And.right, fun all => ⟨fun retry now mem => .inl (all retry now mem), all⟩⟩

/-- Five minutes, a backoff, and a close between two openings. -/
theorem breaker_spells_some :
    Lawful {} 0 [.opened 300 1, .halved, .opened 0 (2 ^ 40), .halved, .closed, .opened 0 (2 ^ 41)] ∧ Unwrapped {}
        [.opened 300 1, .halved, .opened 0 (2 ^ 40), .halved, .closed, .opened 0 (2 ^ 41)] := by
  refine (breaker_spells _ ?_).1.mpr ?_
  · intro retry now mem
    simp only [mem_cons, Move.opened.injEq, reduceCtorEq, not_mem_nil, or_false, false_or] at mem
    omega
  · intro retry now mem
    simp only [mem_cons, Move.opened.injEq, reduceCtorEq, not_mem_nil, or_false, false_or] at mem
    unfold retryMax
    omega

/-- A Retry-After of 18446744074 s, which is to be refused a minute, is refused a second. -/
theorem long_retry_wraps : httpRetry 18446744074 = 18446744074 ∧
      (homeBreakerOpen {} 18446744074 0).until_ = ns ∧ lawfulSpell 18446744074 1 = 60 * ns ∧
        ¬Lawful {} 0 [.opened 18446744074 0] := by
  refine ⟨by decide, by decide, by decide, ?_⟩
  rintro ⟨⟨-, law⟩, -⟩
  exact absurd law (by decide)

end Askai.Home
