import Askai.Httpd.Chunks

/-!
# A turn of the decoder

What each turn of `httpd_conn_dechunk` takes: a line, some of a chunk's data, the CRLF behind it, or
nothing yet.
-/

namespace Askai

open Library List

variable {lim : HttpdLimits} {req req' : HttpdReq} {d d' : HttpdDechunk} {rest : Bytes}

/-! ## A size line -/

theorem blank_not_hex {c : UInt8} (is : blank c = true) : ¬Hex c := by
  have all : ∀ n < 256, blank (UInt8.ofNat n) = true → ¬Hex (UInt8.ofNat n) := by decide +kernel
  have here := all c.toNat c.toNat_lt
  rw [UInt8.ofNat_toNat] at here
  exact here is

theorem SizeLine.head_after (l : SizeLine) {c : UInt8} (head : l.after.head? = some c) : c = 59 := by
  cases ext : l.ext with
  | none =>
    rw [SizeLine.after, ext] at head
    cases head
  | some text =>
    rw [SizeLine.after, ext] at head
    exact (Option.some.inj head).symm

/-- What follows the digits is no digit. -/
theorem SizeLine.other (l : SizeLine) : ∀ c, (l.blanks ++ l.after).head? = some c → ¬Hex c := by
  intro c head
  cases blanks : l.blanks with
  | nil =>
    rw [blanks, nil_append] at head
    rw [l.head_after head]
    decide
  | cons b rest =>
    rw [blanks] at head
    obtain rfl : b = c := Option.some.inj head
    exact blank_not_hex (l.white b (by rw [blanks]; exact mem_cons_self))

/-- White space goes up to what is after it. -/
theorem SizeLine.dropWhile (l : SizeLine) : (l.blanks ++ l.after).dropWhile blank = l.after := by
  rw [dropWhile_append_of_pos l.white]
  cases after : l.after with
  | nil => rfl
  | cons c rest =>
    have semicolon := l.head_after (c := c) (by rw [after]; rfl)
    rw [dropWhile_cons_of_neg]
    rw [semicolon]
    decide

theorem SizeLine.any_after (l : SizeLine) : l.after.any httpdCtl = false := by
  cases ext : l.ext with
  | none =>
    rw [SizeLine.after, ext]
    rfl
  | some text =>
    rw [SizeLine.after, ext]
    refine any_eq_false.mpr fun c mem => ?_
    rcases mem_cons.mp mem with rfl | mem
    · decide
    · rw [l.clear text ext c mem]
      simp

/-- A size line that is all in is taken, unless its size is more than there may be. -/
theorem chunkSize_line (l : SizeLine) (short : l.bytes.length + 2 ≤ chunkLine)
    (left : d.left = l.bytes ++ cr :: lf :: rest) : httpdConnChunkSize lim req d =
      if 2 ^ 64 ≤ l.size then .error 400
      else if sizeSub (sizeSub lim.body req.got) d.wr < l.size then .error 413
      else
        .ok ({ req with chunk := l.size, chunking := if l.size ≠ 0 then .data else .trailer },
          { d with rd := d.rd + (l.bytes.length + 2) }) := by
  have zero : 0 < 2 ^ 64 := by decide
  obtain ⟨read, value⟩ := httpdChunkDigits_eq zero l.digits (l.blanks ++ l.after) l.hex l.other
  have digits : httpdChunkDigits 0 false l.bytes = ((httpdChunkDigits 0 false l.bytes).1,
      decide (2 ^ 64 ≤ l.size), l.blanks ++ l.after) := Prod.ext rfl read
  have longer : (l.blanks ++ l.after).length ≠ l.bytes.length := by
    have some_ := length_pos_iff.mpr l.some_
    have total : l.bytes.length = l.digits.length + (l.blanks ++ l.after).length :=
      length_append
    omega
  have semicolon : ¬(l.after ≠ [] ∧ l.after.head? ≠ some 59) := by
    rintro ⟨some_, other⟩
    obtain ⟨c, after, same⟩ := exists_cons_of_ne_nil some_
    rw [same] at other
    exact other (congrArg some (l.head_after (by rw [same]; rfl)))
  rw [httpdConnChunkSize, httpdDechunkLine_eq l.not_mem short left]
  simp only [bind, Except.bind]
  rw [digits]
  dsimp only
  rw [l.dropWhile, l.any_after]
  rcases Nat.lt_or_ge l.size (2 ^ 64) with fits | over_
  · have fine : ¬((l.blanks ++ l.after).length = l.bytes.length ∨
        decide (2 ^ 64 ≤ l.size) = true ∨ (l.after ≠ [] ∧ l.after.head? ≠ some 59)) := by
      rintro (same | over_ | bad)
      · exact longer same
      · exact Nat.not_le_of_lt fits (of_decide_eq_true over_)
      · exact semicolon bad
    rw [if_neg fine, if_neg (by nofun), if_neg (Nat.not_le_of_lt fits)]
    rw [show (httpdChunkDigits 0 false l.bytes).1 = l.size from value fits]
  · rw [if_pos (.inr (.inl (decide_eq_true over_))), if_pos over_]

/-- What a size line's text is, once its digits and what follows are as they must be. -/
theorem sizeLine_exists {line : Bytes} (some_ : (httpdChunkDigits 0 false line).2.2.length ≠ line.length)
    (semicolon : ¬((httpdChunkDigits 0 false line).2.2.dropWhile blank ≠ [] ∧
      ((httpdChunkDigits 0 false line).2.2.dropWhile blank).head? ≠ some 59))
    (clear : ((httpdChunkDigits 0 false line).2.2.dropWhile blank).any httpdCtl = false) :
    ∃ l : SizeLine, l.bytes = line := by
  have split := takeWhile_append_dropWhile (p := fun c => decide (Hex c)) (l := line)
  have hex : ∀ c ∈ line.takeWhile (fun c => decide (Hex c)), Hex c := by
    intro c mem
    have here := mem_takeWhile_imp mem
    exact of_decide_eq_true here
  have other : ∀ c, (line.dropWhile (fun c => decide (Hex c))).head? = some c → ¬Hex c := by
    intro c head
    have none_ := List.head?_dropWhile_not (fun c => decide (Hex c)) line
    rw [head] at none_
    exact of_decide_eq_false (Bool.eq_false_iff.mpr (by simpa using none_))
  have zero : 0 < 2 ^ 64 := by decide
  have read := (httpdChunkDigits_eq zero _ _ hex other).1
  rw [split] at read
  rw [(Prod.mk.inj read).2] at some_ semicolon clear
  set digits := line.takeWhile (fun c => decide (Hex c))
  set behind := line.dropWhile (fun c => decide (Hex c))
  have white : ∀ c ∈ behind.takeWhile blank, blank c = true :=
    fun c mem => mem_takeWhile_imp mem
  have halves := takeWhile_append_dropWhile (p := blank) (l := behind)
  have digits_some : digits ≠ [] := by
    intro none_
    rw [none_, nil_append] at split
    exact some_ (congrArg List.length split)
  cases after : behind.dropWhile blank with
  | nil =>
    refine ⟨⟨digits, behind.takeWhile blank, none, digits_some, hex, white, nofun⟩, ?_⟩
    rw [after] at halves
    change digits ++ (behind.takeWhile blank ++ []) = line
    rw [halves, split]
  | cons c text =>
    rw [after] at halves semicolon clear
    have same : c = 59 := by
      by_contra other
      exact semicolon ⟨cons_ne_nil _ _, fun head => other (Option.some.inj head)⟩
    rw [any_cons, Bool.or_eq_false_iff] at clear
    refine ⟨⟨digits, behind.takeWhile blank, some text, digits_some, hex, white, ?_⟩, ?_⟩
    · rintro text' ⟨⟩ x mem
      exact Bool.eq_false_iff.mpr (any_eq_false.mp clear.2 x mem)
    · change digits ++ (behind.takeWhile blank ++ 59 :: text) = line
      rw [← same, halves, split]

/-- A turn for a size line takes one, or waits for the rest of it. -/
theorem chunkSize_ok (taken : httpdConnChunkSize lim req d = .ok (req', d')) :
    (lf ∉ d.left ∧ d.left.length < chunkLine ∧ req' = req ∧ d' = d) ∨
    ∃ l : SizeLine, ∃ rest, d.left = l.bytes ++ cr :: lf :: rest ∧ l.bytes.length + 2 ≤ chunkLine ∧ l.size < 2 ^ 64 ∧
      l.size ≤ sizeSub (sizeSub lim.body req.got) d.wr ∧
      req' = { req with chunk := l.size, chunking := if l.size ≠ 0 then .data else .trailer } ∧
      d' = { d with rd := d.rd + (l.bytes.length + 2) } := by
  cases line : httpdDechunkLine d chunkLine 400 with
  | error e =>
    rw [httpdConnChunkSize, line] at taken
    cases taken
  | ok lines =>
    obtain ⟨_ | text, d₁⟩ := lines
    · obtain ⟨clear, short, rfl⟩ := httpdDechunkLine_none line
      rw [httpdConnChunkSize, line] at taken
      obtain ⟨rfl, rfl⟩ := Prod.mk.inj (Except.ok.inj taken)
      exact .inl ⟨clear, short, rfl, rfl⟩
    · obtain ⟨-, short, ⟨rest, left⟩, rfl⟩ := httpdDechunkLine_some line
      right
      have shape : ∃ l : SizeLine, l.bytes = text := by
        rw [httpdConnChunkSize, line] at taken
        simp only [bind, Except.bind] at taken
        split at taken
        · cases taken
        · next fine =>
            split at taken
            · cases taken
            · next clear =>
                simp only [not_or] at fine
                exact sizeLine_exists fine.1 fine.2.2 (Bool.eq_false_iff.mpr clear)
      obtain ⟨l, rfl⟩ := shape
      rw [chunkSize_line l short left] at taken
      split at taken
      · cases taken
      · next fits =>
          split at taken
          · cases taken
          · next room =>
              obtain ⟨rfl, rfl⟩ := Prod.mk.inj (Except.ok.inj taken)
              exact ⟨l, rest, left, short, Nat.lt_of_not_le fits, Nat.le_of_not_lt room, rfl, rfl⟩

/-! ## The CRLF behind a chunk's data -/

theorem chunkEnd_crlf (left : d.left = crlf ++ rest) :
    httpdReqChunkEnd req d = .ok ({ req with chunking := .size }, { d with rd := d.rd + 2 }) := by
  rw [httpdReqChunkEnd, left, if_neg (by simp [crlf])]
  rfl

/-- A turn for the CRLF takes it, or waits for the rest of it. -/
theorem chunkEnd_ok (taken : httpdReqChunkEnd req d = .ok (req', d')) : (d.left.length < 2 ∧ req' = req ∧ d' = d) ∨
    ∃ rest, d.left = crlf ++ rest ∧ req' = { req with chunking := .size } ∧ d' = { d with rd := d.rd + 2 } := by
  rw [httpdReqChunkEnd] at taken
  split at taken
  · next short =>
      obtain ⟨rfl, rfl⟩ := Prod.mk.inj (Except.ok.inj taken)
      exact .inl ⟨short, rfl, rfl⟩
  · split at taken
    · next ended =>
        obtain ⟨rfl, rfl⟩ := Prod.mk.inj (Except.ok.inj taken)
        refine .inr ⟨d.left.drop 2, ?_, rfl, rfl⟩
        rw [crlf, ← ended, take_append_drop]
    · cases taken

/-! ## A line of the trailer section -/

/-- The name of a field goes up to its colon. -/
theorem TrailerLine.name_eq (l : TrailerLine) : l.bytes.takeWhile httpdTchar = l.name := by
  have stops : httpdTchar colon = false := by decide
  rw [TrailerLine.bytes, takeWhile_append_of_pos l.token, takeWhile_cons_of_neg (by rw [stops]; nofun), append_nil]

/-- The request after `n` more bytes of its trailer section. -/
def HttpdReq.trailed (req : HttpdReq) (n : Nat) : HttpdReq :=
  { req with trailer := wrap16 (req.trailer + wrap16 n) }

/-- A field that is all in is taken, unless it is more than there may be. -/
theorem trailer_line (l : TrailerLine) (short : l.bytes.length + 2 ≤ lim.head)
    (left : d.left = l.bytes ++ cr :: lf :: rest) : httpdConnTrailer lim req d =
      if sizeSub lim.head req.trailer < l.bytes.length + 2 then .error 431
      else if lim.fields < wrap16 (req.trailers + 1) then .error 431
      else
        .ok ({ req.trailed (l.bytes.length + 2) with trailers := wrap16 (req.trailers + 1) },
          { d with rd := d.rd + (l.bytes.length + 2) }) := by
  have some_ : l.bytes ≠ [] := by
    intro none_
    exact l.some_ (append_eq_nil_iff.mp none_).1
  have field : ¬(l.name = [] ∨ (l.bytes.drop l.name.length).head? ≠ some colon) := by
    rintro (none_ | other)
    · exact l.some_ none_
    · apply other
      rw [TrailerLine.bytes, drop_left]
      rfl
  rw [httpdConnTrailer, httpdDechunkLine_eq l.not_mem short left]
  dsimp only [bind, Except.bind]
  rw [l.name_eq, if_neg some_, if_neg field]
  rfl

/-- The empty line ends the body. -/
theorem trailer_end (short : 2 ≤ lim.head) (left : d.left = cr :: lf :: rest) : httpdConnTrailer lim req d =
      if sizeSub lim.head req.trailer < 2 then .error 431
      else if lim.fields < req.trailers then .error 431
      else .ok ({ req.trailed 2 with bodyIn := true }, { d with rd := d.rd + 2 }) := by
  have line : httpdDechunkLine d lim.head 431 = .ok (some [], { d with rd := d.rd + 2 }) :=
    httpdDechunkLine_eq not_mem_nil short left
  rw [httpdConnTrailer, line]
  rfl

/-- A line that is taken and not empty is a field's. -/
theorem trailerLine_exists {c : UInt8} {text : Bytes} {d₁ : HttpdDechunk}
    (line : httpdDechunkLine d lim.head 431 = .ok (some (c :: text), d₁))
    (taken : httpdConnTrailer lim req d = .ok (req', d')) : ∃ l : TrailerLine, l.bytes = c :: text := by
  obtain ⟨absent, -, -, -⟩ := httpdDechunkLine_some line
  rw [httpdConnTrailer, line] at taken
  dsimp only [bind, Except.bind] at taken
  split at taken
  · cases taken
  · rw [if_neg (cons_ne_nil c text)] at taken
    split at taken
    · cases taken
    · next field =>
        simp only [not_or, not_not] at field
        obtain ⟨some_, head⟩ := field
        have halves := takeWhile_append_dropWhile (p := httpdTchar) (l := c :: text)
        have behind : (c :: text).drop ((c :: text).takeWhile httpdTchar).length =
            (c :: text).dropWhile httpdTchar := by
          calc
            _ = ((c :: text).takeWhile httpdTchar ++ (c :: text).dropWhile httpdTchar).drop
                ((c :: text).takeWhile httpdTchar).length := by rw [halves]
            _ = _ := drop_left
        rw [behind] at head
        obtain ⟨value, rest⟩ := List.head?_eq_some_iff.mp head
        rw [rest] at halves
        have clear : lf ∉ value := by
          intro mem
          apply absent
          rw [← halves]
          exact mem_append_right _ (mem_cons_of_mem _ mem)
        exact ⟨⟨_, value, some_, fun c mem => mem_takeWhile_imp mem, clear⟩, halves⟩

/-- A turn for a line of the trailer section takes one, or waits for the rest of it. -/
theorem trailer_ok (taken : httpdConnTrailer lim req d = .ok (req', d')) :
    (lf ∉ d.left ∧ d.left.length < lim.head ∧ req' = req ∧ d' = d) ∨
    (∃ rest, d.left = cr :: lf :: rest ∧ 2 ≤ sizeSub lim.head req.trailer ∧ req.trailers ≤ lim.fields ∧
      req' = { req.trailed 2 with bodyIn := true } ∧ d' = { d with rd := d.rd + 2 }) ∨
    ∃ l : TrailerLine, ∃ rest, d.left = l.bytes ++ cr :: lf :: rest ∧
      l.bytes.length + 2 ≤ sizeSub lim.head req.trailer ∧ wrap16 (req.trailers + 1) ≤ lim.fields ∧
      req' = { req.trailed (l.bytes.length + 2) with trailers := wrap16 (req.trailers + 1) } ∧
      d' = { d with rd := d.rd + (l.bytes.length + 2) } := by
  cases line : httpdDechunkLine d lim.head 431 with
  | error e =>
    rw [httpdConnTrailer, line] at taken
    cases taken
  | ok lines =>
    obtain ⟨_ | text, d₁⟩ := lines
    · obtain ⟨clear, short, rfl⟩ := httpdDechunkLine_none line
      rw [httpdConnTrailer, line] at taken
      obtain ⟨rfl, rfl⟩ := Prod.mk.inj (Except.ok.inj taken)
      exact .inl ⟨clear, short, rfl, rfl⟩
    · obtain ⟨absent, short, ⟨rest, left⟩, rfl⟩ := httpdDechunkLine_some line
      right
      cases text with
      | nil =>
        left
        rw [trailer_end short left] at taken
        split at taken
        · cases taken
        · next room =>
            split at taken
            · cases taken
            · next few =>
                obtain ⟨rfl, rfl⟩ := Prod.mk.inj (Except.ok.inj taken)
                exact ⟨rest, left, Nat.le_of_not_lt room, Nat.le_of_not_lt few, rfl, rfl⟩
      | cons c text =>
        right
        obtain ⟨l, same⟩ := trailerLine_exists line taken
        rw [← same] at left short
        rw [trailer_line l short left] at taken
        split at taken
        · cases taken
        · next room =>
            split at taken
            · cases taken
            · next few =>
                obtain ⟨rfl, rfl⟩ := Prod.mk.inj (Except.ok.inj taken)
                exact ⟨l, rest, left, Nat.le_of_not_lt room, Nat.le_of_not_lt few, rfl, rfl⟩

/-! ## Nothing yet -/

theorem chunkSize_wait (clear : lf ∉ d.left) (short : d.left.length < chunkLine) :
    httpdConnChunkSize lim req d = .ok (req, d) := by
  rw [httpdConnChunkSize, httpdDechunkLine_wait clear short]
  rfl

theorem trailer_wait (clear : lf ∉ d.left) (short : d.left.length < lim.head) :
    httpdConnTrailer lim req d = .ok (req, d) := by
  rw [httpdConnTrailer, httpdDechunkLine_wait clear short]
  rfl

theorem chunkEnd_wait (short : d.left.length < 2) : httpdReqChunkEnd req d = .ok (req, d) :=
  if_pos short

end Askai
