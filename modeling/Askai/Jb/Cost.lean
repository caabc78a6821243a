import Askai.Jb.Text

/-!
# What a scan counts of a JSON text

A scan takes a JSON text in whole if and only if the text costs no more than the limits, and counts
its values and the bytes of its strings.
-/

namespace Askai.Jb

open Library List

variable {l : Limits} {s t u : Scan} {a b : Cost} {c : UInt8}

/-- A scan that is `t` after what costs `c`, from `s` on. -/
structure Costs (s t : Scan) (c : Cost) : Prop where
  depth : t.depth = s.depth
  values : t.values = s.values + c.values
  copied : t.copied = s.copied + c.copied
  members : ∀ i < s.depth, t.members i = s.members i
  outside : t.state = .gap ∨ t.state = .scalar

/-- What costs `c` is within the limits, from `s` on. -/
def Fits (l : Limits) (s : Scan) (c : Cost) : Prop :=
  s.depth + c.depth ≤ l.depth ∧ s.values + c.values ≤ l.values ∧
    (l.members ≠ uint32Max → c.members ≤ l.members) ∧ c.scalar ≤ l.scalar

/-- The scan is within the limits. -/
structure Within (l : Limits) (s : Scan) : Prop where
  depth : s.depth ≤ l.depth
  values : s.values ≤ l.values

theorem Cost.zero_plus (c : Cost) : Cost.plus {} c = c := by
  simp [Cost.plus]

theorem Cost.plus_zero (c : Cost) : c.plus {} = c := by
  simp [Cost.plus]

theorem Costs.trans (first : Costs s t a) (second : Costs t u b) : Costs s u (a.plus b) where
  depth := second.depth.trans first.depth
  values := by
    rw [second.values, first.values, Nat.add_assoc]
    rfl
  copied := by
    rw [second.copied, first.copied, Nat.add_assoc]
    rfl
  members i below := by
    rw [second.members i (first.depth ▸ below), first.members i below]
  outside := second.outside

theorem fits_plus (first : Costs s t a) : Fits l s (a.plus b) ↔ Fits l s a ∧ Fits l t b := by
  simp only [Fits, first.depth, first.values, Cost.plus]
  omega

theorem Fits.within (fits : Fits l s a) (first : Costs s t a) : Within l t := by
  obtain ⟨depth, values, -, -⟩ := fits
  exact ⟨by rw [first.depth]; omega, by rw [first.values]; omega⟩

/-! ## White space, scalars and strings -/

theorem byte_outside (outside : s.state = .gap ∨ s.state = .scalar) (c : UInt8) :
    Scan.byte l s c = jbScanByte l s c := by
  rw [Scan.byte]
  rcases outside with state | state <;> rw [state]

theorem takes_gap (g : Gap) (outside : s.state = .gap ∨ s.state = .scalar) : Takes (Scan.byte l) s g.bytes True
      (fun t => Costs s t {} ∧ (s.state = .gap → t.state = .gap)) := by
  obtain ⟨bytes, blank⟩ := g
  change Takes _ s bytes _ _
  induction bytes generalizing s with
  | nil => exact .nil ⟨⟨rfl, rfl, rfl, fun _ _ => rfl, outside⟩, id⟩
  | cons c bytes ih =>
    obtain ⟨here, rest⟩ := forall_mem_cons.mp blank
    have taken : Scan.byte l s c = .ok { s with state := .gap } := by
      rw [byte_outside outside]
      rcases here with rfl | rfl | rfl | rfl <;> rfl
    have first : Takes (Scan.byte l) s [c] True (fun t => t = { s with state := .gap }) :=
      .single taken rfl
    refine (first.cons ?_).congr (iff_of_true ⟨trivial, trivial⟩ trivial) fun _ _ => id
    rintro - t rfl
    refine (ih (.inl rfl) rest).congr Iff.rfl ?_
    rintro - t ⟨costs, gap⟩
    exact ⟨⟨costs.depth, costs.values, costs.copied, costs.members, costs.outside⟩, fun _ => gap rfl⟩

/-- A byte of a scalar. -/
def Plain (c : UInt8) : Prop :=
  c ∉ [openBrace, openBracket, quote, colon, closeBrace, closeBracket, comma, space, tab, cr, lf]

theorem Plain.byte (plain : Plain c) (l : Limits) (s : Scan) : jbScanByte l s c =
      if s.state ≠ .scalar then
        if s.values = l.values then .error s
        else if l.scalar = 0 then .error { s with values := s.values + 1, run := 0, state := .scalar }
        else .ok { s with values := s.values + 1, run := 1, state := .scalar }
      else if s.run = l.scalar then .error s
      else .ok { s with run := s.run + 1 } := by
  simp only [Plain, mem_cons, not_mem_nil, or_false, not_or] at plain
  obtain ⟨h1, h2, h3, h4, h5, h6, h7, h8, h9, h10, h11⟩ := plain
  rw [jbScanByte, if_neg (by simp [h1, h2]), if_neg h3, if_neg h4, if_neg (by simp [h5, h6]),
    if_neg (by simp [h7, h8, h9, h10, h11])]

theorem takes_run (bytes : Bytes) (plain : ∀ c ∈ bytes, Plain c) (state : s.state = .scalar)
    (short : s.run ≤ l.scalar) : Takes (Scan.byte l) s bytes (s.run + bytes.length ≤ l.scalar)
      (fun t => t = { s with run := s.run + bytes.length }) := by
  induction bytes generalizing s with
  | nil =>
    have none_ : Takes (Scan.byte l) s [] True (fun t => t = { s with run := s.run + 0 }) := .nil rfl
    exact none_.congr (iff_of_true trivial short) fun _ _ => id
  | cons c bytes ih =>
    obtain ⟨here, rest⟩ := forall_mem_cons.mp plain
    have first : Takes (Scan.byte l) s [c] (s.run + 1 ≤ l.scalar) (fun t => t = { s with run := s.run + 1 }) := by
      apply Takes.guard
      · intro fit
        refine ⟨_, ?_, rfl⟩
        rw [byte_outside (.inr state), here.byte, if_neg (not_not.mpr state), if_neg (by omega)]
      · intro unfit
        refine ⟨s, ?_⟩
        rw [byte_outside (.inr state), here.byte, if_neg (not_not.mpr state), if_pos (by omega)]
    have whole : Takes (Scan.byte l) s (c :: bytes) (s.run + 1 ≤ l.scalar ∧ s.run + 1 + bytes.length ≤ l.scalar)
        (fun t => t = { s with run := s.run + (c :: bytes).length }) := by
      apply first.cons
      rintro fit t rfl
      refine (ih (s := { s with run := s.run + 1 }) rest state fit).congr Iff.rfl ?_
      rintro - t rfl
      simp only [length_cons, Nat.add_assoc, Nat.add_comm 1]
    apply whole.congr ?_ fun _ _ => id
    rw [length_cons]
    omega

/-- A scalar's bytes: one at least, and none of another kind. -/
theorem takes_plain {bytes : Bytes} (some_ : bytes ≠ []) (plain : ∀ c ∈ bytes, Plain c)
    (within : Within l s) (state : s.state = .gap) :
    Takes (Scan.byte l) s bytes (Fits l s { values := 1, scalar := bytes.length })
      (fun t => Costs s t { values := 1, scalar := bytes.length }) := by
  obtain ⟨depth, values⟩ := within
  obtain ⟨c, bytes, rfl⟩ := exists_cons_of_ne_nil some_
  obtain ⟨here, rest⟩ := forall_mem_cons.mp plain
  have other : s.state ≠ .scalar := by
    rw [state]
    nofun
  have first : Takes (Scan.byte l) s [c] (s.values + 1 ≤ l.values ∧ l.scalar ≠ 0)
      (fun t => t = { s with values := s.values + 1, run := 1, state := .scalar }) := by
    apply Takes.guard
    · rintro ⟨less, short⟩
      refine ⟨_, ?_, rfl⟩
      rw [byte_outside (.inl state), here.byte, if_pos other, if_neg (by omega), if_neg short]
    · intro unfit
      rw [byte_outside (.inl state), here.byte, if_pos other]
      split
      · exact ⟨s, rfl⟩
      · rw [if_pos (by omega)]
        exact ⟨_, rfl⟩
  have whole : Takes (Scan.byte l) s (c :: bytes)
      ((s.values + 1 ≤ l.values ∧ l.scalar ≠ 0) ∧ 1 + bytes.length ≤ l.scalar)
      (fun t => t = { s with
        values := s.values + 1, run := 1 + bytes.length, state := .scalar }) := by
    apply first.cons
    rintro ⟨-, short⟩ t rfl
    exact takes_run bytes rest rfl (by change 1 ≤ l.scalar; omega)
  apply whole.congr
  · simp only [Fits, length_cons]
    omega
  · rintro - t rfl
    exact ⟨rfl, rfl, rfl, fun _ _ => rfl, .inr rfl⟩

theorem feed_char (char : Char_) (state : s.state = .string) : feed (Scan.byte l) s char.bytes =
      (char.bytes.length, { s with run := s.run + char.bytes.length }) := by
  have escaped : ∀ c, feed (Scan.byte l) s [backslash, c] = (2, { s with run := s.run + 2 }) := by
    intro c
    have first : Scan.byte l s backslash = .ok { s with state := .escape } := by
      rw [Scan.byte, state]
      rfl
    have same : ({ s with run := s.run + 2, state := .string } : Scan) = { s with run := s.run + 2 } := by rw [← state]
    have second : Scan.byte l { s with state := .escape } c = .ok { s with run := s.run + 2 } :=
      congrArg Except.ok same
    rw [feed_cons_ok first, feed_cons_ok second, feed_nil]
  cases char with
  | plain c unescaped =>
    apply feed_plain state [c]
    simp only [mem_singleton]
    exact ⟨Ne.symm unescaped.2.1, Ne.symm unescaped.2.2⟩
  | escape c known => exact escaped c
  | unicode a b c d hex =>
    have other : ∀ x ∈ [a, b, c, d], x ≠ quote ∧ x ≠ backslash := by
      intro x mem
      rcases hex x mem with digit_ | upper | lower_
      · constructor <;> rintro rfl <;> exact absurd digit_ (by decide)
      · constructor <;> rintro rfl <;> exact absurd upper (by decide)
      · constructor <;> rintro rfl <;> exact absurd lower_ (by decide)
    have rest : feed (Scan.byte l) { s with run := s.run + 2 } [a, b, c, d] = (4, { s with run := s.run + 2 + 4 }) := by
      apply feed_plain (s := { s with run := s.run + 2 }) state
      exact ⟨fun mem => (other _ mem).1 rfl, fun mem => (other _ mem).2 rfl⟩
    change feed (Scan.byte l) s ([backslash, 117] ++ [a, b, c, d]) = _
    rw [feed_append (by rw [escaped]; rfl), escaped, rest]
    rfl

theorem feed_inner (chars : List Char_) (state : s.state = .string) : feed (Scan.byte l) s (inner chars) =
      ((inner chars).length, { s with run := s.run + (inner chars).length }) := by
  induction chars generalizing s with
  | nil => rfl
  | cons char chars ih =>
    have first := feed_char (l := l) char state
    have rest := ih (s := { s with run := s.run + char.bytes.length }) state
    have whole : inner (char :: chars) = char.bytes ++ inner chars := flatMap_cons
    rw [whole, feed_append (by rw [first]), first, rest, length_append]
    exact Prod.ext rfl (by simp only [Nat.add_assoc])

theorem takes_string (chars : List Char_) (within : Within l s) (state : s.state = .gap) :
    Takes (Scan.byte l) s (stringBytes chars) (Fits l s (stringCost chars))
      (fun t => Costs s t (stringCost chars)) := by
  obtain ⟨depth, values⟩ := within
  have first : Takes (Scan.byte l) s [quote] (s.values + 1 ≤ l.values)
      (fun t => t = { s with values := s.values + 1, run := 0, state := .string }) := by
    have same : Scan.byte l s quote = if s.values = l.values then .error s
        else .ok { s with values := s.values + 1, run := 0, state := .string } := by
      rw [byte_outside (.inl state)]
      rfl
    apply Takes.guard
    · intro less
      refine ⟨_, ?_, rfl⟩
      rw [same, if_neg (by omega)]
    · intro unfit
      refine ⟨s, ?_⟩
      rw [same, if_pos (by omega)]
  have whole : Takes (Scan.byte l) s (stringBytes chars) (s.values + 1 ≤ l.values ∧ True)
      (fun t => Costs s t (stringCost chars)) := by
    apply first.cons
    rintro - t rfl
    have middle := feed_inner (l := l) (s := { s with
      values := s.values + 1, run := 0, state := .string }) chars rfl
    have fed : feed (Scan.byte l) { s with values := s.values + 1, run := 0, state := .string }
        (inner chars ++ [quote]) = ((inner chars ++ [quote]).length, { s with
          values := s.values + 1, run := 0 + (inner chars).length
          copied := s.copied + (0 + (inner chars).length), state := .gap }) := by
      rw [feed_append (by rw [middle]), middle, length_append]
      rfl
    refine Takes.of_feed fed ⟨rfl, rfl, ?_, fun _ _ => rfl, .inl rfl⟩
    exact congrArg (s.copied + ·) (Nat.zero_add _)
  apply whole.congr
  · simp only [Fits, stringCost, and_true]
    omega
  · exact fun _ _ => id

/-! ## Scalars -/

theorem digit_plain (digit_ : digit c = true) : Plain c := by
  intro special
  simp only [mem_cons, not_mem_nil, or_false] at special
  rcases special with rfl | rfl | rfl | rfl | rfl | rfl | rfl | rfl | rfl | rfl | rfl <;>
    exact absurd digit_ (by decide)

instance : DecidablePred Plain := fun _ => inferInstanceAs (Decidable (¬_))

theorem Digits.plain (digits : Digits) : ∀ c ∈ digits.bytes, Plain c :=
  fun c mem => digit_plain (digits.digits c mem)

theorem Exponent.plain (e : Exponent) : ∀ c ∈ e.bytes, Plain c := by
  intro c mem
  rcases mem_cons.mp mem with rfl | mem
  · split <;> decide
  · rcases mem_append.mp mem with sign | digits
    · split at sign
      · cases sign
      · rw [mem_singleton.mp sign]
        decide
      · rw [mem_singleton.mp sign]
        decide
    · exact e.digits.plain c digits

theorem Number.plain (n : Number) : ∀ c ∈ n.bytes, Plain c := by
  intro c mem
  rcases mem_append.mp mem with minus | mem
  · split at minus
    · rw [mem_singleton.mp minus]
      decide
    · cases minus
  · rcases mem_append.mp mem with whole | mem
    · exact n.whole.plain c whole
    · rcases mem_append.mp mem with fraction | exponent
      · split at fraction
        · cases fraction
        · next digits _ =>
            rcases mem_cons.mp fraction with rfl | mem
            · decide
            · exact digits.plain c mem
      · split at exponent
        · cases exponent
        · next e _ => exact e.plain c exponent

theorem Scalar.plain (scalar : Scalar) : scalar.bytes ≠ [] ∧ ∀ c ∈ scalar.bytes, Plain c := by
  cases scalar with
  | null => exact ⟨by decide, forall_of_all (by decide)⟩
  | bool value => cases value <;> exact ⟨by decide, forall_of_all (by decide)⟩
  | number n =>
    refine ⟨?_, n.plain⟩
    change n.bytes ≠ []
    simp [Number.bytes, n.whole.some_]

/-! ## Values -/

/-- What is after the opening byte of a container. -/
theorem takes_open {brace : UInt8} (kind : brace = openBrace ∨ brace = openBracket)
    (within : Within l s) (state : s.state = .gap) :
    Takes (Scan.byte l) s [brace] (s.depth + 1 ≤ l.depth ∧ s.values + 1 ≤ l.values)
      (fun t => t = jbScanOpen s l.members) := by
  obtain ⟨depth, values⟩ := within
  have same : Scan.byte l s brace =
      if s.depth = l.depth ∨ s.values = l.values then .error s else .ok (jbScanOpen s l.members) := by
    rw [byte_outside (.inl state), jbScanByte, if_pos kind]
  apply Takes.guard
  · intro fit
    refine ⟨_, ?_, rfl⟩
    rw [same, if_neg (by omega)]
  · intro unfit
    refine ⟨s, ?_⟩
    rw [same, if_pos (by omega)]

/-- The closing byte of a container. -/
theorem takes_close {brace : UInt8} (kind : brace = closeBrace ∨ brace = closeBracket)
    (outside : s.state = .gap ∨ s.state = .scalar) :
    Takes (Scan.byte l) s [brace] True (fun t => t = { s with depth := s.depth - 1, state := .gap }) := by
  have taken : Scan.byte l s brace = .ok { s with depth := s.depth - 1, state := .gap } := by
    rw [byte_outside outside]
    rcases kind with rfl | rfl <;> rfl
  exact .single taken rfl

theorem takes_comma (outside : s.state = .gap ∨ s.state = .scalar) :
    Takes (Scan.byte l) s [comma] True (fun t => t = { s with state := .gap }) := by
  have taken : Scan.byte l s comma = .ok { s with state := .gap } := by
    rw [byte_outside outside]
    rfl
  exact .single taken rfl

/-- The colon of a member of the innermost object. -/
theorem takes_colon (inside : 0 < s.depth) (outside : s.state = .gap ∨ s.state = .scalar)
    (most : l.members ≠ uint32Max → s.members (s.depth - 1) ≤ l.members) : Takes (Scan.byte l) s [colon]
      (l.members ≠ uint32Max → s.members (s.depth - 1) + 1 ≤ l.members)
      (fun t => t.depth = s.depth ∧ t.values = s.values ∧ t.copied = s.copied ∧ t.state = .gap ∧
        (∀ i, i + 1 < s.depth → t.members i = s.members i) ∧
        (l.members ≠ uint32Max → t.members (s.depth - 1) = s.members (s.depth - 1) + 1)) := by
  have same : Scan.byte l s colon = if l.members ≠ uint32Max ∧ s.depth ≠ 0 then
        if s.members (s.depth - 1) = l.members then .error s
        else
          .ok { s with
            members := Function.update s.members (s.depth - 1) (s.members (s.depth - 1) + 1)
            state := .gap }
      else .ok { s with state := .gap } := by
    rw [byte_outside outside]
    rfl
  rcases Decidable.em (l.members = uint32Max) with none_ | counted
  · apply Takes.guard
    · intro _
      refine ⟨{ s with state := .gap }, ?_, rfl, rfl, rfl, rfl, fun _ _ => rfl, ?_⟩
      · rw [same, if_neg fun both => both.1 none_]
      · exact fun counted => absurd none_ counted
    · exact fun unfit => absurd (fun counted => absurd none_ counted) unfit
  · rw [if_pos ⟨counted, by omega⟩] at same
    have room := most counted
    apply Takes.guard
    · intro fit
      have less := fit counted
      rw [if_neg (by omega)] at same
      refine ⟨_, same, rfl, rfl, rfl, rfl, ?_, ?_⟩
      · intro i below
        exact Function.update_of_ne (by omega) _ _
      · intro _
        exact Function.update_self ..
    · intro unfit
      refine ⟨s, ?_⟩
      rw [same, if_pos (by omega)]

/-! ### One part behind another -/

/-- The scan takes in what costs `c`, and is in a gap then if `gap` says so. -/
def Scans (l : Limits) (s : Scan) (bytes : Bytes) (c : Cost) (gap : Prop) : Prop :=
  Takes (Scan.byte l) s bytes (Fits l s c) (fun t => Costs s t c ∧ (gap → t.state = .gap))

theorem fits_zero (within : Within l s) : Fits l s {} := by
  obtain ⟨depth, values⟩ := within
  exact ⟨depth, values, fun _ => Nat.zero_le _, Nat.zero_le _⟩

/-- What is put together fits as a whole if and only if the front fits, and then the back. -/
theorem Fits.of_plus (fits : Fits l s (a.plus b)) : Fits l s a := by
  obtain ⟨depth, values, members, scalar⟩ := fits
  simp only [Cost.plus] at depth values members scalar
  refine ⟨by omega, by omega, fun counted => ?_, by omega⟩
  have both := members counted
  omega

theorem Scans.append {front back : Bytes} {gap gap' : Prop} (first : Scans l s front a gap)
    (second : ∀ t, Within l t → Costs s t a → (gap → t.state = .gap) → Scans l t back b gap') :
    Scans l s (front ++ back) (a.plus b) gap' := by
  have whole : Takes (Scan.byte l) s (front ++ back) (Fits l s a ∧ Fits l s (a.plus b))
      (fun u => Costs s u (a.plus b) ∧ (gap' → u.state = .gap)) := by
    apply Takes.append first
    rintro fits t ⟨costs, still⟩
    apply (second t (fits.within costs) costs still).congr
    · rw [fits_plus costs]
      exact ⟨fun fits' => ⟨fits, fits'⟩, And.right⟩
    · rintro - u ⟨costs', still'⟩
      exact ⟨costs.trans costs', still'⟩
  exact whole.congr ⟨And.right, fun fits => ⟨fits.of_plus, fits⟩⟩ fun _ _ => id

/-- White space. -/
theorem scans_gap (g : Gap) (within : Within l s) (outside : s.state = .gap ∨ s.state = .scalar) :
    Scans l s g.bytes {} (s.state = .gap) :=
  (takes_gap g outside).congr (iff_of_true trivial (fits_zero within)) fun _ _ => id

/-- What has white space before it. -/
theorem Scans.after_gap {bytes : Bytes} {gap : Prop} (g : Gap) (within : Within l s) (state : s.state = .gap)
    (scans : ∀ t, Within l t → t.state = .gap → Scans l t bytes a gap) : Scans l s (g.bytes ++ bytes) a gap := by
  have whole := (scans_gap g within (.inl state)).append fun t within' _ still =>
    scans t within' (still state)
  rwa [Cost.zero_plus] at whole

/-- What has white space behind it. -/
theorem Scans.before_gap {bytes : Bytes} {gap : Prop} (scans : Scans l s bytes a gap) (g : Gap) :
    Scans l s (bytes ++ g.bytes) a False := by
  have whole := scans.append fun t within costs _ =>
    (scans_gap g within costs.outside).congr Iff.rfl fun _ u here => (⟨here.1, False.elim⟩ : _ ∧ _)
  rwa [Cost.plus_zero] at whole

theorem scans_comma (within : Within l s) (outside : s.state = .gap ∨ s.state = .scalar) :
    Scans l s [comma] {} True := by
  apply (takes_comma outside).congr (iff_of_true trivial (fits_zero within))
  rintro - t rfl
  exact ⟨⟨rfl, rfl, rfl, fun _ _ => rfl, .inl rfl⟩, fun _ => rfl⟩

/-! ### Members -/

/-- After `n` members of the innermost object, which cost `c`. -/
structure Membered (l : Limits) (s t : Scan) (c : Cost) (n : Nat) : Prop where
  depth : t.depth = s.depth
  values : t.values = s.values + c.values
  copied : t.copied = s.copied + c.copied
  members : ∀ i, i + 1 < s.depth → t.members i = s.members i
  counted : l.members ≠ uint32Max → t.members (s.depth - 1) = s.members (s.depth - 1) + n
  outside : t.state = .gap ∨ t.state = .scalar

/-- The innermost object has no more members than it may. -/
def Counts (l : Limits) (s : Scan) : Prop :=
  l.members ≠ uint32Max → s.members (s.depth - 1) ≤ l.members

/-- The scan takes in `n` members, or part of one, which cost `c`. -/
def ScansMembers (l : Limits) (s : Scan) (bytes : Bytes) (c : Cost) (n : Nat) (gap : Prop) : Prop :=
  Takes (Scan.byte l) s bytes
    (Fits l s c ∧ (l.members ≠ uint32Max → s.members (s.depth - 1) + n ≤ l.members))
    (fun t => Membered l s t c n ∧ (gap → t.state = .gap))

/-- What is no member counts as none. -/
theorem Scans.members {bytes : Bytes} {gap : Prop} (scans : Scans l s bytes a gap)
    (inside : 0 < s.depth) (counts : Counts l s) : ScansMembers l s bytes a 0 gap := by
  apply scans.congr
  · exact ⟨fun fits => ⟨fits, counts⟩, And.left⟩
  · rintro - t ⟨costs, still⟩
    exact ⟨⟨costs.depth, costs.values, costs.copied, fun i below => costs.members i (by omega),
      fun _ => costs.members _ (by omega), costs.outside⟩, still⟩

theorem ScansMembers.append {front back : Bytes} {gap gap' : Prop} {n m : Nat} (first : ScansMembers l s front a n gap)
    (second : ∀ t, Within l t → t.depth = s.depth → Counts l t → (gap → t.state = .gap) →
      (t.state = .gap ∨ t.state = .scalar) → ScansMembers l t back b m gap') :
    ScansMembers l s (front ++ back) (a.plus b) (n + m) gap' := by
  have whole : Takes (Scan.byte l) s (front ++ back)
      ((Fits l s a ∧ (l.members ≠ uint32Max → s.members (s.depth - 1) + n ≤ l.members)) ∧ (Fits l s (a.plus b) ∧
          (l.members ≠ uint32Max → s.members (s.depth - 1) + (n + m) ≤ l.members)))
      (fun u => Membered l s u (a.plus b) (n + m) ∧ (gap' → u.state = .gap)) := by
    apply Takes.append first
    rintro ⟨fits, room⟩ t ⟨membered, still⟩
    have plus : Fits l s (a.plus b) ↔ Fits l t b := by
      obtain ⟨depth, values, members, scalar⟩ := fits
      simp only [Fits, membered.depth, membered.values, Cost.plus]
      omega
    have within : Within l t :=
      ⟨membered.depth ▸ Nat.le_of_add_right_le fits.1, membered.values ▸ Nat.le_of_add_right_le
        (by rw [Nat.add_zero]; exact fits.2.1)⟩
    have counts : Counts l t := by
      intro counted
      rw [membered.depth, membered.counted counted]
      exact room counted
    apply (second t within membered.depth counts still membered.outside).congr
    · rw [plus, membered.depth]
      constructor
      · rintro ⟨fits', room'⟩
        refine ⟨fits', fun counted => ?_⟩
        have more := room' counted
        rw [membered.counted counted] at more
        omega
      · rintro ⟨fits', room'⟩
        refine ⟨fits', fun counted => ?_⟩
        have more := room' counted
        rw [membered.counted counted]
        omega
    · rintro - u ⟨membered', still'⟩
      refine ⟨⟨membered'.depth.trans membered.depth, ?_, ?_, ?_, ?_, membered'.outside⟩, still'⟩
      · rw [membered'.values, membered.values, Nat.add_assoc]
        rfl
      · rw [membered'.copied, membered.copied, Nat.add_assoc]
        rfl
      · intro i below
        rw [membered'.members i (membered.depth ▸ below), membered.members i below]
      · intro counted
        have later := membered'.counted counted
        rw [membered.depth, membered.counted counted] at later
        rw [later, Nat.add_assoc]
  apply whole.congr ?_ fun _ _ => id
  constructor
  · exact And.right
  · rintro ⟨fits, room⟩
    refine ⟨⟨fits.of_plus, fun counted => ?_⟩, fits, room⟩
    have most := room counted
    omega

theorem scans_colon (within : Within l s) (inside : 0 < s.depth) (counts : Counts l s)
    (outside : s.state = .gap ∨ s.state = .scalar) : ScansMembers l s [colon] {} 1 True := by
  apply (takes_colon inside outside counts).congr
  · exact ⟨fun room => ⟨fits_zero within, room⟩, And.right⟩
  · rintro - t ⟨depth, values, copied, state, members, counted⟩
    exact ⟨⟨depth, values, copied, members, counted, .inl state⟩, fun _ => state⟩

/-! ### Containers -/

theorem jbScanOpen_members (s : Scan) (members : Nat) {i : Nat} (below : i < s.depth) :
    (jbScanOpen s members).members i = s.members i := by
  change (if members ≠ uint32Max then Function.update s.members s.depth 0 else s.members) i = _
  split
  · exact Function.update_of_ne (by omega) _ _
  · rfl

/-- No member of a container just opened is counted. -/
theorem jbScanOpen_counter (s : Scan) {members : Nat} (counted : members ≠ uint32Max) :
    (jbScanOpen s members).members ((jbScanOpen s members).depth - 1) = 0 := by
  change (if members ≠ uint32Max then Function.update s.members s.depth 0 else s.members) (s.depth + 1 - 1) = 0
  rw [if_pos counted]
  exact Function.update_self ..

/-- A container around what is in it, with `n` members. -/
theorem scans_container {body : Bytes} {first last : UInt8} {n : Nat} (opens : first = openBrace ∨ first = openBracket)
    (closes : last = closeBrace ∨ last = closeBracket) (within : Within l s) (state : s.state = .gap)
    (inner : Within l (jbScanOpen s l.members) → Takes (Scan.byte l) (jbScanOpen s l.members) body
        (Fits l (jbScanOpen s l.members) a ∧ (l.members ≠ uint32Max → n ≤ l.members))
        (fun t => t.depth = s.depth + 1 ∧ t.values = s.values + 1 + a.values ∧
          t.copied = s.copied + a.copied ∧ (∀ i < s.depth, t.members i = s.members i) ∧
          (t.state = .gap ∨ t.state = .scalar))) : Scans l s (first :: (body ++ [last])) (a.inside n) False := by
  have whole : Takes (Scan.byte l) s (first :: (body ++ [last])) ((s.depth + 1 ≤ l.depth ∧ s.values + 1 ≤ l.values) ∧
        ((Fits l (jbScanOpen s l.members) a ∧ (l.members ≠ uint32Max → n ≤ l.members)) ∧ True))
      (fun u => Costs s u (a.inside n) ∧ (False → u.state = .gap)) := by
    apply (takes_open opens within state).cons
    rintro ⟨depth, values⟩ t rfl
    apply (inner ⟨depth, values⟩).append
    rintro - t ⟨depth', values', copied, members, outside⟩
    apply (takes_close closes outside).congr Iff.rfl
    rintro - u rfl
    refine ⟨⟨?_, ?_, copied, members, .inl rfl⟩, False.elim⟩
    · change t.depth - 1 = s.depth
      omega
    · change t.values = s.values + (a.values + 1)
      omega
  apply whole.congr ?_ fun _ _ => id
  simp only [Fits, Cost.inside, jbScanOpen, and_true]
  omega

/-- What is in a container that has no members. -/
theorem Scans.inner {body : Bytes} {gap : Prop} (scans : Scans l (jbScanOpen s l.members) body a gap) :
    Takes (Scan.byte l) (jbScanOpen s l.members) body
      (Fits l (jbScanOpen s l.members) a ∧ (l.members ≠ uint32Max → 0 ≤ l.members))
      (fun t => t.depth = s.depth + 1 ∧ t.values = s.values + 1 + a.values ∧
        t.copied = s.copied + a.copied ∧ (∀ i < s.depth, t.members i = s.members i) ∧
        (t.state = .gap ∨ t.state = .scalar)) := by
  apply scans.congr
  · exact ⟨fun fits => ⟨fits, fun _ => Nat.zero_le _⟩, And.left⟩
  · rintro - t ⟨costs, -⟩
    refine ⟨costs.depth, costs.values, costs.copied, fun i below => ?_, costs.outside⟩
    rw [costs.members i (Nat.lt_succ_of_lt below), jbScanOpen_members s _ below]

/-- What is in an object. -/
theorem ScansMembers.inner {body : Bytes} {n : Nat} {gap : Prop}
    (scans : ScansMembers l (jbScanOpen s l.members) body a n gap) : Takes (Scan.byte l) (jbScanOpen s l.members) body
      (Fits l (jbScanOpen s l.members) a ∧ (l.members ≠ uint32Max → n ≤ l.members))
      (fun t => t.depth = s.depth + 1 ∧ t.values = s.values + 1 + a.values ∧
        t.copied = s.copied + a.copied ∧ (∀ i < s.depth, t.members i = s.members i) ∧
        (t.state = .gap ∨ t.state = .scalar)) := by
  apply scans.congr
  · constructor
    · rintro ⟨fits, room⟩
      refine ⟨fits, fun counted => ?_⟩
      have most := room counted
      rw [jbScanOpen_counter s counted] at most
      omega
    · rintro ⟨fits, room⟩
      refine ⟨fits, fun counted => ?_⟩
      have most := room counted
      rw [jbScanOpen_counter s counted]
      omega
  · rintro - t ⟨membered, -⟩
    refine ⟨membered.depth, membered.values, membered.copied, fun i below => ?_, membered.outside⟩
    rw [membered.members i (Nat.succ_lt_succ below), jbScanOpen_members s _ below]

/-- A key, and the colon behind it. -/
theorem scans_key (before : Gap) (key : List Char_) (middle : Gap) (within : Within l s)
    (state : s.state = .gap) (inside : 0 < s.depth) (counts : Counts l s) :
    ScansMembers l s ((before.bytes ++ (stringBytes key ++ middle.bytes)) ++ [colon]) (stringCost key) 1 True := by
  have front : Scans l s (before.bytes ++ (stringBytes key ++ middle.bytes)) (stringCost key) False := by
    apply Scans.after_gap before within state
    intro t within' state'
    have string : Scans l t (stringBytes key) (stringCost key) False :=
      (takes_string key within' state').congr Iff.rfl fun _ t costs => ⟨costs, False.elim⟩
    exact string.before_gap middle
  have whole := (front.members inside counts).append fun t within' depth counts' _ outside =>
    scans_colon within' (depth ▸ inside) counts' outside
  rwa [Cost.plus_zero, Nat.zero_add] at whole

/-- A member, with its value. -/
theorem scans_member (before : Gap) (key : List Char_) (middle before' : Gap) {body : Bytes}
    (after : Gap) (value : ∀ t, Within l t → t.state = .gap → Scans l t body a False)
    (within : Within l s) (state : s.state = .gap) (inside : 0 < s.depth) (counts : Counts l s) :
    ScansMembers l s (((before.bytes ++ (stringBytes key ++ middle.bytes)) ++ [colon]) ++
      (before'.bytes ++ (body ++ after.bytes))) ((stringCost key).plus a) 1 False := by
  apply (scans_key before key middle within state inside counts).append (m := 0)
  intro t within' depth counts' still _
  apply Scans.members ?_ (depth ▸ inside) counts'
  apply Scans.after_gap before' within' (still trivial)
  exact fun u within_ state_ => (value u within_ state_).before_gap after

mutual

/-- The scan takes a value in whole if and only if it fits. -/
theorem Value.scans (l : Limits) (value : Value) : ∀ s : Scan, Within l s → s.state = .gap →
    Scans l s value.bytes value.cost False := by
  intro s within state
  cases value with
  | scalar scalar =>
    exact (takes_plain scalar.plain.1 scalar.plain.2 within state).congr Iff.rfl fun _ t costs => ⟨costs, False.elim⟩
  | string chars =>
    exact (takes_string chars within state).congr Iff.rfl fun _ t costs => ⟨costs, False.elim⟩
  | emptyArray gap =>
    apply scans_container (.inr rfl) (.inr rfl) within state
    exact fun within' => (scans_gap gap within' (.inl rfl)).inner
  | emptyObject gap =>
    apply scans_container (.inl rfl) (.inl rfl) within state
    exact fun within' => (scans_gap gap within' (.inl rfl)).inner
  | array elements =>
    apply scans_container (.inr rfl) (.inr rfl) within state
    exact fun within' => (elements.scans l _ within' rfl).inner
  | object members =>
    apply scans_container (.inl rfl) (.inl rfl) within state
    intro within'
    apply ScansMembers.inner
    apply members.scans l _ within' rfl (Nat.succ_pos _)
    intro counted
    rw [jbScanOpen_counter s counted]
    exact Nat.zero_le _

theorem Elements.scans (l : Limits) (elements : Elements) : ∀ s : Scan, Within l s →
    s.state = .gap → Scans l s elements.bytes elements.cost False := by
  intro s within state
  cases elements with
  | last before value after =>
    apply Scans.after_gap before within state
    exact fun t within' state' => (value.scans l t within' state').before_gap after
  | more before value after rest =>
    have whole : Scans l s ((before.bytes ++ (value.bytes ++ after.bytes)) ++ ([comma] ++ rest.bytes))
        (value.cost.plus rest.cost) False := by
      have front : Scans l s (before.bytes ++ (value.bytes ++ after.bytes)) value.cost False := by
        apply Scans.after_gap before within state
        exact fun t within' state' => (value.scans l t within' state').before_gap after
      apply front.append
      intro t within' costs _
      have back := (scans_comma within' costs.outside).append fun u within_ _ still =>
        rest.scans l u within_ (still trivial)
      rwa [Cost.zero_plus] at back
    have bytes : (Elements.more before value after rest).bytes =
        (before.bytes ++ (value.bytes ++ after.bytes)) ++ ([comma] ++ rest.bytes) := by
      simp [Elements.bytes]
    rw [bytes]
    exact whole

theorem Members.scans (l : Limits) (members : Members) : ∀ s : Scan, Within l s → s.state = .gap →
    0 < s.depth → Counts l s → ScansMembers l s members.bytes members.cost members.count False := by
  intro s within state inside counts
  cases members with
  | last before key middle before' value after =>
    have whole := scans_member before key middle before' after (value.scans l) within state inside counts
    have bytes : (Members.last before key middle before' value after).bytes =
        ((before.bytes ++ (stringBytes key ++ middle.bytes)) ++ [colon]) ++
          (before'.bytes ++ (value.bytes ++ after.bytes)) := by
      simp [Members.bytes]
    rw [bytes]
    exact whole
  | more before key middle before' value after rest =>
    have first := scans_member before key middle before' after (value.scans l) within state inside counts
    have whole : ScansMembers l s ((((before.bytes ++ (stringBytes key ++ middle.bytes)) ++ [colon]) ++
        (before'.bytes ++ (value.bytes ++ after.bytes))) ++ ([comma] ++ rest.bytes))
        (((stringCost key).plus value.cost).plus rest.cost) (1 + rest.count) False := by
      apply first.append
      intro t within' depth counts' _ outside
      have gap := (scans_comma within' outside).members (depth ▸ inside) counts'
      have back := gap.append fun u within_ depth' counts_ still _ =>
        rest.scans l u within_ (still trivial) (by omega) counts_
      rwa [Cost.zero_plus, Nat.zero_add] at back
    have bytes : (Members.more before key middle before' value after rest).bytes =
        (((before.bytes ++ (stringBytes key ++ middle.bytes)) ++ [colon]) ++
          (before'.bytes ++ (value.bytes ++ after.bytes))) ++ ([comma] ++ rest.bytes) := by
      simp [Members.bytes]
    rw [bytes]
    rw [Nat.add_comm] at whole
    exact whole

end

/-! ## The text -/

/-- However a text is cut, its scan stops at the same byte, with the same counts; and it scans a
JSON text to its end if and only if the text is within the limits, and counts its values and the bytes
of its strings. -/
theorem scan_counts : (∀ (l : Limits) (s : Scan) (pieces : List Bytes),
      inTurn (jbScan l) s pieces = jbScan l s pieces.flatten) ∧ ∀ (l : Limits) (text : Text),
      ((jbScan l {} text.bytes).1 = text.bytes.length ↔
        text.cost.depth ≤ l.depth ∧ text.cost.values ≤ l.values ∧ text.cost.members ≤ l.members ∧
          text.cost.scalar ≤ l.scalar) ∧ ((jbScan l {} text.bytes).1 = text.bytes.length →
        (jbScan l {} text.bytes).2.values = text.cost.values ∧
          (jbScan l {} text.bytes).2.copied = text.cost.copied) := by
  refine ⟨jbScan_pieces, fun l text => ?_⟩
  have within : Within l {} := ⟨Nat.zero_le _, Nat.zero_le _⟩
  have whole : Scans l {} text.bytes text.cost False := by
    apply Scans.after_gap text.before within rfl
    exact fun t within' state => (text.value.scans l t within' state).before_gap text.after
  have fits : Fits l {} text.cost ↔ text.cost.depth ≤ l.depth ∧ text.cost.values ≤ l.values ∧
      text.cost.members ≤ l.members ∧ text.cost.scalar ≤ l.scalar := by
    -- Without a limit to the members, the values are the limit.
    have members : text.cost.members ≤ text.cost.values := text.value.members_le
    have bound := l.bounds.2.1
    simp only [Fits, Nat.zero_add]
    omega
  rw [jbScan_eq]
  refine ⟨whole.1.trans fits, fun all => ?_⟩
  obtain ⟨costs, -⟩ := whole.2 (whole.1.mp all)
  exact ⟨costs.values.trans (Nat.zero_add _), costs.copied.trans (Nat.zero_add _)⟩

end Askai.Jb
