import Askai.Library.Bytes
import Askai.Library.Feed

/-!
# The scan of a JSON text

What `jb_scan` counts of a JSON text before it is parsed (`jb.c`), in whatever pieces the text comes,
and the machine that it is, which goes byte by byte.
-/

namespace Askai.Jb

open Library List

/-- `UINT32_MAX`. -/
def uint32Max : Nat := 4294967295

/-- `scan->state`. -/
inductive ScanState where
  | gap
  | string
  | escape
  | scalar
  deriving DecidableEq, Repr

/-- `struct jb_scan`. -/
structure Scan where
  /-- The members of each container open, when counted. -/
  members : Nat → Nat := fun _ => 0
  /-- The bytes of the strings ended. -/
  copied : Nat := 0
  /-- The bytes of the string or scalar under way. -/
  run : Nat := 0
  /-- The containers open. -/
  depth : Nat := 0
  /-- The values begun. -/
  values : Nat := 0
  state : ScanState := .gap

/-- What `jb_scan` is to stop at, in 32 bits each. -/
structure Limits where
  depth : Nat
  values : Nat
  members : Nat
  scalar : Nat
  bounds : depth ≤ uint32Max ∧ values ≤ uint32Max ∧ members ≤ uint32Max ∧ scalar ≤ uint32Max

/-- The bytes at which a scan takes note of more than a string or a scalar. -/
def openBrace : UInt8 := 123
def closeBrace : UInt8 := 125
def openBracket : UInt8 := 91
def closeBracket : UInt8 := 93
def comma : UInt8 := 44

/-- `memchr` of `n` bytes of the text from `data` on. -/
def memchr (text : Bytes) (data n : Nat) (c : UInt8) : Option Nat :=
  (((text.drop data).take n).findIdx? fun b => b = c).map fun i => data + i

/-- `jb_scan_open`, when memory lasts. -/
def jbScanOpen (s : Scan) (members : Nat) : Scan :=
  { s with
    members := if members ≠ uint32Max then Function.update s.members s.depth 0 else s.members
    depth := s.depth + 1
    values := s.values + 1
    state := .gap }

/-- The next quote as `jb_scan_string` looks for it, or the end. -/
def nextQuote (text : Bytes) (data : Nat) : Option Nat → Nat
  | some q => if q < data then (memchr text data (text.length - data) quote).getD text.length else q
  | none => (memchr text data (text.length - data) quote).getD text.length

/-- `jb_scan_string`: the scan, and where it stopped. -/
def jbScanString (s : Scan) (text : Bytes) (data q : Nat) : Scan × Nat :=
  match memchr text data (q - data) backslash with
  | some slash => ({ s with run := s.run + (slash - data), state := .escape }, slash)
  | none =>
    if q = text.length then ({ s with run := s.run + (q - data) }, q)
    else
      ({ s with
          run := s.run + (q - data)
          copied := s.copied + (s.run + (q - data))
          state := .gap }, q)

/-- A byte outside of strings, as the last switch of `jb_scan` has it, or the scan as it stops. -/
def jbScanByte (l : Limits) (s : Scan) (c : UInt8) : Except Scan Scan :=
  if c = openBrace ∨ c = openBracket then
    if s.depth = l.depth ∨ s.values = l.values then .error s else .ok (jbScanOpen s l.members)
  else if c = quote then
    if s.values = l.values then .error s
    else .ok { s with values := s.values + 1, run := 0, state := .string }
  else if c = colon then
    if l.members ≠ uint32Max ∧ s.depth ≠ 0 then
      if s.members (s.depth - 1) = l.members then .error s
      else
        .ok { s with
          members := Function.update s.members (s.depth - 1) (s.members (s.depth - 1) + 1)
          state := .gap }
    else .ok { s with state := .gap }
  else if c = closeBrace ∨ c = closeBracket then
    .ok { s with depth := s.depth - 1, state := .gap }
  else if c = comma ∨ c = space ∨ c = tab ∨ c = cr ∨ c = lf then .ok { s with state := .gap }
  else if s.state ≠ .scalar then
    if s.values = l.values then .error s
    else if l.scalar = 0 then .error { s with values := s.values + 1, run := 0, state := .scalar }
    else .ok { s with values := s.values + 1, run := 1, state := .scalar }
  else if s.run = l.scalar then .error s
  else .ok { s with run := s.run + 1 }

/-! ## The loop -/

theorem memchr_spec {text : Bytes} {data n i : Nat} {c : UInt8} (found : memchr text data n c = some i) :
    data ≤ i ∧ i < data + n ∧ text[i]? = some c ∧ c ∉ (text.drop data).take (i - data) := by
  obtain ⟨k, at_, rfl⟩ := Option.map_eq_some_iff.mp found
  obtain ⟨inside, here, before⟩ := List.findIdx?_eq_some_iff_getElem.mp at_
  rw [length_take] at inside
  rw [getElem_take, getElem_drop] at here
  refine ⟨Nat.le_add_right _ _, by omega, ?_, ?_⟩
  · rw [List.getElem?_eq_getElem (by rw [length_drop] at inside; omega)]
    exact congrArg some (of_decide_eq_true here)
  · intro mem
    obtain ⟨j, short, same⟩ := getElem_of_mem mem
    rw [length_take] at short
    have other := before j (by omega)
    rw [getElem_take] at same other
    exact other (decide_eq_true same)

theorem memchr_none {text : Bytes} {data n : Nat} {c : UInt8} (none_ : memchr text data n c = none) :
    c ∉ (text.drop data).take n := by
  have absent := List.findIdx?_eq_none_iff.mp (Option.map_eq_none_iff.mp none_)
  intro mem
  exact absurd (absent c mem) (by simp)

theorem le_nextQuote {text : Bytes} {data : Nat} (inside : data < text.length) (q : Option Nat) :
    data ≤ nextQuote text data q := by
  have looked : data ≤ (memchr text data (text.length - data) quote).getD text.length := by
    cases found : memchr text data (text.length - data) quote with
    | none => exact Nat.le_of_lt inside
    | some i => exact (memchr_spec found).1
  cases q with
  | none => exact looked
  | some q =>
    rw [nextQuote]
    split
    · exact looked
    · omega

theorem le_jbScanString (s : Scan) (text : Bytes) {data q : Nat} (ahead : data ≤ q) :
    data ≤ (jbScanString s text data q).2 := by
  rw [jbScanString]
  split
  · next found => exact (memchr_spec found).1
  · split <;> exact ahead

/-- The loop of `jb_scan`, from `data` on, with the next quote once looked for. -/
def jbScanLoop (l : Limits) (text : Bytes) (s : Scan) (data : Nat) (q : Option Nat) : Nat × Scan :=
  if inside : data < text.length then
    if s.state = .string then
      if (jbScanString s text data (nextQuote text data q)).2 = text.length then
        (text.length, (jbScanString s text data (nextQuote text data q)).1)
      else
        jbScanLoop l text (jbScanString s text data (nextQuote text data q)).1
          ((jbScanString s text data (nextQuote text data q)).2 + 1) (some (nextQuote text data q))
    else if s.state = .escape then
      jbScanLoop l text { s with run := s.run + 2, state := .string } (data + 1) q
    else
      match jbScanByte l s text[data] with
      | .error t => (data, t)
      | .ok t => jbScanLoop l text t (data + 1) q
  else (text.length, s)
termination_by text.length - data
decreasing_by
  · have ahead := le_jbScanString s text (le_nextQuote inside q)
    omega
  · omega
  · omega

/-- `jb_scan`: how many bytes it scanned, and the scan then. -/
def jbScan (l : Limits) (s : Scan) (text : Bytes) : Nat × Scan :=
  jbScanLoop l text s 0 none

/-! ## Byte by byte -/

/-- What a byte does to a scan. -/
def Scan.byte (l : Limits) (s : Scan) (c : UInt8) : Except Scan Scan :=
  match s.state with
  | .string =>
    if c = backslash then .ok { s with state := .escape }
    else if c = quote then .ok { s with copied := s.copied + s.run, state := .gap }
    else .ok { s with run := s.run + 1 }
  | .escape => .ok { s with run := s.run + 2, state := .string }
  | _ => jbScanByte l s c

variable {l : Limits} {s : Scan} {text : Bytes} {data q i : Nat} {c : UInt8}

/-- `q` is where the next quote from `data` on is, or the end. -/
structure Ahead (text : Bytes) (data q : Nat) : Prop where
  le : data ≤ q
  inside : q ≤ text.length
  clear : quote ∉ (text.drop data).take (q - data)
  here : q < text.length → text[q]? = some quote

/-- The quote once looked for is behind, or the next. -/
def Cached (text : Bytes) (data : Nat) (q : Option Nat) : Prop :=
  ∀ p, q = some p → p < data ∨ Ahead text data p

/-- The text from `data` on, cut at `i`. -/
theorem drop_eq (le : data ≤ i) (here : text[i]? = some c) :
    text.drop data = (text.drop data).take (i - data) ++ c :: text.drop (i + 1) := by
  obtain ⟨inside, same⟩ := List.getElem?_eq_some_iff.mp here
  have rest : (text.drop data).drop (i - data) = c :: text.drop (i + 1) := by
    rw [drop_drop, show data + (i - data) = i by omega, drop_eq_getElem_cons inside, same]
  rw [← rest, take_append_drop]

/-- The next quote stays so until the scan is past it. -/
theorem Ahead.later (ahead : Ahead text data q) {data' : Nat} (le : data ≤ data') (le' : data' ≤ q) :
    Ahead text data' q := by
  refine ⟨le', ahead.inside, ?_, ahead.here⟩
  intro mem
  apply ahead.clear
  have part : (text.drop data').take (q - data') = ((text.drop data).take (q - data)).drop (data' - data) := by
    rw [drop_take, drop_drop, show data + (data' - data) = data' by omega,
      show q - data - (data' - data) = q - data' by omega]
  rw [part] at mem
  exact mem_of_mem_drop mem

theorem Cached.later {q : Option Nat} (cached : Cached text data q) : Cached text (data + 1) q := by
  intro p same
  rcases cached p same with behind | ahead
  · exact .inl (Nat.lt_succ_of_lt behind)
  · rcases Nat.eq_or_lt_of_le ahead.le with here | more
    · exact .inl (by omega)
    · exact .inr (ahead.later (Nat.le_succ data) more)

theorem nextQuote_ahead {q : Option Nat} (cached : Cached text data q) (inside : data < text.length) :
    Ahead text data (nextQuote text data q) := by
  have looked : Ahead text data ((memchr text data (text.length - data) quote).getD text.length) := by
    cases found : memchr text data (text.length - data) quote with
    | none =>
      exact ⟨Nat.le_of_lt inside, Nat.le_refl _, memchr_none found, fun less => absurd less (Nat.lt_irrefl _)⟩
    | some i =>
      obtain ⟨le, less, here, clear⟩ := memchr_spec found
      exact ⟨le, by change i ≤ _; omega, clear, fun _ => here⟩
  cases q with
  | none => exact looked
  | some q =>
    rw [nextQuote]
    split
    · exact looked
    · next other => exact (cached q rfl).resolve_left other

/-- The bytes of a string that end it not, nor escape the next. -/
theorem feed_plain (state : s.state = .string) (plain : Bytes) (clear : quote ∉ plain ∧ backslash ∉ plain) :
    feed (Scan.byte l) s plain = (plain.length, { s with run := s.run + plain.length }) := by
  induction plain generalizing s with
  | nil => rfl
  | cons c plain ih =>
    obtain ⟨quote_, quotes⟩ := ne_and_not_mem_of_not_mem_cons clear.1
    obtain ⟨slash_, slashes⟩ := ne_and_not_mem_of_not_mem_cons clear.2
    have taken : Scan.byte l s c = .ok { s with run := s.run + 1 } := by
      rw [Scan.byte, state]
      change (if c = backslash then _ else if c = quote then _ else _) = _
      rw [if_neg (Ne.symm slash_), if_neg (Ne.symm quote_)]
    have rest := ih (s := { s with run := s.run + 1 }) state ⟨quotes, slashes⟩
    rw [feed_cons_ok taken, rest, length_cons]
    exact Prod.ext rfl (by simp only [Nat.add_assoc, Nat.add_comm 1])

/-- What `jb_scan_string` skips is what the machine takes in. -/
theorem jbScanString_feed (state : s.state = .string) (ahead : Ahead text data q) :
    ((jbScanString s text data q).2 = text.length ∧
      feed (Scan.byte l) s (text.drop data) = (text.length - data, (jbScanString s text data q).1)) ∨
    ((jbScanString s text data q).2 < text.length ∧ data ≤ (jbScanString s text data q).2 ∧
      (jbScanString s text data q).2 ≤ q ∧ feed (Scan.byte l) s (text.drop data) =
        ((jbScanString s text data q).2 + 1 - data + (feed (Scan.byte l) (jbScanString s text data q).1
            (text.drop ((jbScanString s text data q).2 + 1))).1, (feed (Scan.byte l) (jbScanString s text data q).1
            (text.drop ((jbScanString s text data q).2 + 1))).2)) := by
  -- The machine takes in what is plain up to a place, and then what is there.
  have along : ∀ i c t, data ≤ i → i ≤ q → text[i]? = some c → backslash ∉ (text.drop data).take (i - data) →
      Scan.byte l { s with run := s.run + (i - data) } c = .ok t →
      feed (Scan.byte l) s (text.drop data) =
        (i + 1 - data + (feed (Scan.byte l) t (text.drop (i + 1))).1,
          (feed (Scan.byte l) t (text.drop (i + 1))).2) := by
    intro i c t le most here slashes taken
    have quotes : quote ∉ (text.drop data).take (i - data) := by
      intro mem
      apply ahead.clear
      exact mem_of_mem_take (i := i - data) (by rwa [take_take, Nat.min_eq_left (by omega)])
    obtain ⟨inside, -⟩ := List.getElem?_eq_some_iff.mp here
    have long : ((text.drop data).take (i - data)).length = i - data := by
      rw [length_take, length_drop]
      omega
    have plain := feed_plain (l := l) state _ ⟨quotes, slashes⟩
    rw [long] at plain
    rw [drop_eq le here, feed_append (by rw [plain, long]), plain, feed_cons_ok taken, long]
    exact Prod.ext (by dsimp only; omega) rfl
  rw [jbScanString]
  cases found : memchr text data (q - data) backslash with
  | some i =>
    obtain ⟨le, less, here, clear⟩ := memchr_spec found
    obtain ⟨inside, -⟩ := List.getElem?_eq_some_iff.mp here
    refine .inr ⟨inside, le, by change i ≤ q; omega, ?_⟩
    apply along i backslash _ le (by omega) here clear
    rw [Scan.byte, state]
    rfl
  | none =>
    have clear := memchr_none found
    have most := ahead.inside
    dsimp only
    split
    · next end_ =>
        left
        have whole : (text.drop data).take (q - data) = text.drop data := by
          rw [take_of_length_le]
          rw [length_drop]
          omega
        have plain := feed_plain (l := l) state _ ⟨ahead.clear, clear⟩
        rw [whole, length_drop] at plain
        refine ⟨end_, ?_⟩
        rw [plain, end_]
    · next other =>
        have inside : q < text.length := by omega
        refine .inr ⟨inside, ahead.le, Nat.le_refl q, ?_⟩
        apply along q quote _ ahead.le (Nat.le_refl q) (ahead.here inside) clear
        rw [Scan.byte, state]
        rfl

/-- The loop is the machine. -/
theorem jbScanLoop_eq (l : Limits) (text : Bytes) (s : Scan) (data : Nat) (q : Option Nat)
    (cached : Cached text data q) (le : data ≤ text.length) :
    jbScanLoop l text s data q = (data + (feed (Scan.byte l) s (text.drop data)).1,
      (feed (Scan.byte l) s (text.drop data)).2) := by
  fun_induction jbScanLoop l text s data q with
  | case1 s data q inside state end_ =>
    rcases jbScanString_feed (l := l) state (nextQuote_ahead cached inside) with ⟨-, fed⟩ | ⟨less, -⟩
    · rw [fed]
      exact Prod.ext (by dsimp only; omega) rfl
    · omega
  | case2 s data q inside state more ih =>
    have ahead := nextQuote_ahead cached inside
    rcases jbScanString_feed (l := l) state ahead with ⟨end_, -⟩ | ⟨less, le', most, fed⟩
    · exact absurd end_ more
    · rw [ih, fed]
      · exact Prod.ext (by dsimp only; omega) rfl
      · rintro p ⟨⟩
        rcases Nat.eq_or_lt_of_le most with same | before
        · exact .inl (by omega)
        · exact .inr (ahead.later (by omega) before)
      · omega
  | case3 s data q inside string escape ih =>
    have taken : Scan.byte l s text[data] = .ok { s with run := s.run + 2, state := .string } := by
      rw [Scan.byte, escape]
    rw [ih cached.later inside, drop_eq_getElem_cons inside, feed_cons_ok taken]
    exact Prod.ext (by dsimp only; omega) rfl
  | case4 s data q inside string escape t refused =>
    have stops : Scan.byte l s text[data] = .error t := by
      rw [← refused, Scan.byte]
      split
      · next state => exact absurd state string
      · next state => exact absurd state escape
      · rfl
    rw [drop_eq_getElem_cons inside, feed_cons_error stops]
    rfl
  | case5 s data q inside string escape t taken ih =>
    have goes : Scan.byte l s text[data] = .ok t := by
      rw [← taken, Scan.byte]
      split
      · next state => exact absurd state string
      · next state => exact absurd state escape
      · rfl
    rw [ih cached.later inside, drop_eq_getElem_cons inside, feed_cons_ok goes]
    exact Prod.ext (by dsimp only; omega) rfl
  | case6 s data q outside =>
    rw [drop_eq_nil_of_le (Nat.le_of_not_lt outside), feed_nil]
    exact Prod.ext (by dsimp only; omega) rfl

/-- `jb_scan` takes in what the machine does. -/
theorem jbScan_eq (l : Limits) (s : Scan) (text : Bytes) : jbScan l s text = feed (Scan.byte l) s text := by
  rw [jbScan, jbScanLoop_eq l text s 0 none nofun (Nat.zero_le _), drop_zero]
  exact Prod.ext (Nat.zero_add _) rfl

/-- However a text is cut, the scan stops at the same byte of it, with the same counts. -/
theorem jbScan_pieces (l : Limits) (s : Scan) (pieces : List Bytes) :
    inTurn (jbScan l) s pieces = jbScan l s pieces.flatten := by
  have same : jbScan l = feed (Scan.byte l) := by
    funext s text
    exact jbScan_eq l s text
  rw [same, inTurn_feed]

end Askai.Jb
