import Askai.Httpd.Lines

/-!
# What the fields of a head say

The parse of a found head, line by line: what a request records is what the fields of its head say,
each value at its place in the buffer as the parse leaves it.
-/

namespace Askai

open Library List

/-! ## The parse, by lines -/

/-- The bytes of a line's end, cut. -/
def HeadLine.nuls (l : HeadLine) : Bytes :=
  List.replicate l.eol nul

/-- The parse of header lines. -/
def parseLines (app : StreamApp) (lim : HttpdLimits) (front : Bytes) (fields : Nat)
    (req : HttpdReq) : List HeadLine → Except Nat (HttpdReq × Bytes)
  | [] => .ok (req, front)
  | l :: lines =>
    if lim.fields < fields + 1 then .error 431
    else
      match httpdReqField req app front.length l.text lim.body with
      | .error status => .error status
      | .ok (req, left) => parseLines app lim (front ++ left ++ l.nuls) (fields + 1) req lines

/-- The parse of a head. -/
def parseHead (app : StreamApp) (lim : HttpdLimits) (head : HeadLines) : Except Nat (HttpdReq × Bytes) :=
  if nul ∈ head.bytes then .error 400
  else
    match httpdReqLine { head := wrap16 head.bytes.length } head.first.text with
    | .error status => .error status
    | .ok (req, left) =>
      match parseLines app lim (left ++ head.first.nuls) 0 req head.lines with
      | .error status => .error status
      | .ok (req, front) =>
        if req.chunked && (req.length || req.http10) then .error 400
        else .ok (req, front ++ head.last.nuls)

theorem httpdReqFields_empty {app : StreamApp} {lim : HttpdLimits} {l : HeadLine}
    (empty : l.text = []) (front rest : Bytes) (fields : Nat) (req : HttpdReq) :
    httpdReqFields app lim front (l.bytes ++ rest) fields req = some (.ok (req, front ++ l.nuls ++ rest)) := by
  have next := HeadLine.httpdNextLine_bytes (l := l) ⟨by simp [empty], by simp [empty]⟩ (by simp [empty]) rest
  rw [httpdReqFields]
  split
  · rename_i stops
    rw [next] at stops
    cases stops
  · rename_i found
    rw [next] at found
    obtain ⟨rfl, rfl, rfl⟩ : l.text = _ ∧ l.eol = _ ∧ rest = _ := by simpa using found
    rw [if_pos empty, HeadLine.nuls]

theorem httpdReqFields_line {app : StreamApp} {lim : HttpdLimits} {l : HeadLine} (whole : l.Whole)
    (clear : nul ∉ l.text) (filled : l.text ≠ []) (front rest : Bytes) (fields : Nat) (req : HttpdReq) :
    httpdReqFields app lim front (l.bytes ++ rest) fields req =
      if lim.fields < fields + 1 then some (.error 431)
      else
        match httpdReqField req app front.length l.text lim.body with
        | .error status => some (.error status)
        | .ok (req, left) =>
          httpdReqFields app lim (front ++ left ++ l.nuls) rest (fields + 1) req := by
  have next := HeadLine.httpdNextLine_bytes whole clear rest
  rw [httpdReqFields]
  split
  · rename_i stops
    rw [next] at stops
    cases stops
  · rename_i found
    rw [next] at found
    obtain ⟨rfl, rfl, rfl⟩ : l.text = _ ∧ l.eol = _ ∧ rest = _ := by simpa using found
    rw [if_neg filled]
    rfl

/-- The loop over the header lines reads them and no further. -/
theorem httpdReqFields_lines {app : StreamApp} {lim : HttpdLimits} {last : HeadLine}
    (empty : last.text = []) (rest : Bytes) (lines : List HeadLine) :
    ∀ (front : Bytes) (fields : Nat) (req : HttpdReq), (∀ l ∈ lines, l.Whole) →
      (∀ l ∈ lines, nul ∉ l.text) → (∀ l ∈ lines, l.text ≠ []) →
        httpdReqFields app lim front (linesBytes lines ++ last.bytes ++ rest) fields req =
          some ((parseLines app lim front fields req lines).map fun (req, front) =>
            (req, front ++ last.nuls ++ rest)) := by
  induction lines with
  | nil =>
    intro front fields req _ _ _
    exact httpdReqFields_empty empty front rest fields req
  | cons l lines ih =>
    intro front fields req whole clear filled
    have parts : linesBytes (l :: lines) ++ last.bytes ++ rest =
        l.bytes ++ (linesBytes lines ++ last.bytes ++ rest) := by simp [linesBytes]
    rw [parts, httpdReqFields_line (whole l mem_cons_self) (clear l mem_cons_self) (filled l mem_cons_self), parseLines]
    split
    · rfl
    · cases httpdReqField req app front.length l.text lim.body with
      | error status => rfl
      | ok out =>
        exact ih _ _ _ (forall_mem_of_forall_mem_cons whole)
          (forall_mem_of_forall_mem_cons clear) (forall_mem_of_forall_mem_cons filled)

/-- The parse reads the head and no further, and never beyond it. -/
theorem httpdReqParse_head (app : StreamApp) (lim : HttpdLimits) (head : HeadLines) (rest : Bytes) :
    httpdReqParse (head.bytes ++ rest) head.bytes.length app lim =
      some ((parseHead app lim head).map fun (req, left) => (req, left ++ rest)) := by
  rw [httpdReqParse, take_left, parseHead]
  split
  · rfl
  rename_i clear
  have clear : ∀ l ∈ head.first :: head.lines, nul ∉ l.text := by
    intro l member inside
    apply clear
    rw [HeadLines.bytes]
    apply mem_append_left
    rw [linesBytes]
    exact mem_flatten.mpr ⟨l.bytes, mem_map_of_mem member, by rw [HeadLine.bytes]; exact mem_append_left _ inside⟩
  have parts : head.bytes ++ rest = head.first.bytes ++ (linesBytes head.lines ++ head.last.bytes ++ rest) := by
    rw [HeadLines.bytes_eq]
    simp
  rw [parts, HeadLine.httpdNextLine_bytes (head.whole _ mem_cons_self) (clear _ mem_cons_self)]
  simp only
  cases httpdReqLine { head := wrap16 head.bytes.length } head.first.text with
  | error status => rfl
  | ok out =>
    obtain ⟨req, left⟩ := out
    have loop := @httpdReqFields_lines app lim _ head.empty rest head.lines (left ++ head.first.nuls) 0 req
      (fun l member => head.whole l (mem_cons_of_mem _ member))
      (fun l member => clear l (mem_cons_of_mem _ member)) head.filled
    rw [HeadLine.nuls] at loop ⊢
    simp only [loop]
    cases parseLines app lim (left ++ List.replicate head.first.eol nul) 0 req head.lines with
    | error status => rfl
    | ok out =>
      simp only [Except.map]
      split <;> rfl

/-! ## One field -/

/-- A value stands at its place in the buffer. -/
structure Holds (front : Bytes) (f : HttpdField) (value : Bytes) : Prop where
  present : f.off ≠ 0
  len : f.len = value.length
  fits : f.off + value.length ≤ front.length
  slice : (front.drop f.off).take value.length = value

variable {f : HttpdField}

theorem Holds.append {front : Bytes} {value : Bytes} (holds : Holds front f value)
    (more : Bytes) : Holds (front ++ more) f value where
  present := holds.present
  len := holds.len
  fits := by
    have fits := holds.fits
    rw [length_append]
    omega
  slice := by
    have fits := holds.fits
    rw [drop_append_of_le_length (by omega), take_append_of_le_length, holds.slice]
    rw [length_drop]
    omega

theorem Holds.field {front : Bytes} {value : Bytes} (holds : Holds front f value) :
    httpdConnField front f = some value := by
  rw [httpdConnField, if_neg holds.present, holds.len, holds.slice]

/-- What a field's name says it is. -/
inductive FieldKey where
  | header (header : HttpdHeader)
  | app (i : Nat)
  deriving DecidableEq, Repr

namespace FieldKey

/-- The fields whose place is kept. -/
def kept : FieldKey → Bool
  | header .host | header .origin | header .authorization | header .acrh | app _ => true
  | _ => false

/-- The fields that may come in several lines. -/
def list (app : StreamApp) : FieldKey → Bool
  | .app i => app.lists.testBit i
  | _ => false

end FieldKey

def StreamApp.keyOf (app : StreamApp) (name : Bytes) : Option FieldKey :=
  match httpdHeader name with
  | some header => some (.header header)
  | none => (app.asked name).map .app

/-- The place of a field, as the request keeps it. -/
def HttpdReq.slot (req : HttpdReq) : FieldKey → HttpdField
  | .header .host => req.host
  | .header .origin => req.origin
  | .header .authorization => req.auth
  | .header .acrh => req.acrh
  | .header _ => {}
  | .app i => req.app i

/-- The number that digits are. -/
def number (digits : Bytes) : Nat :=
  digits.foldl (fun n c => n * 10 + (c.toNat - 48)) 0

/-- All digits are taken, unless the number gets too large. -/
theorem utilDigits_number {max : Nat} (s : Bytes) (digits : ∀ c ∈ s, digit c = true) : ∀ i value, value ≤ max →
      let total := s.foldl (fun n c => n * 10 + (c.toNat - 48)) value
      utilDigits s max i value = (i + s.length, total) ∧ total ≤ max ∨
        utilDigits s max i value = (0, 0) := by
  induction s with
  | nil =>
    intro i value small
    exact .inl ⟨rfl, small⟩
  | cons c s ih =>
    intro i value small
    rw [utilDigits, if_pos (digits c mem_cons_self)]
    simp only [foldl_cons, length_cons]
    split
    · exact .inr rfl
    · rename_i fits
      simp only [Bool.or_eq_true, decide_eq_true_eq, not_or, not_lt] at fits
      have next : value * 10 + (c.toNat - 48) ≤ max := by
        have tenth := fits.2
        omega
      have rest := ih (fun d member => digits d (mem_cons_of_mem c member)) (i + 1)
        (value * 10 + (c.toNat - 48)) next
      rw [Nat.add_assoc i 1, Nat.add_comm 1] at rest
      exact rest

variable {maxBody : Nat} {req req' : HttpdReq}

/-- A Content-Length that is accepted is the first, a number of digits, and not too large. -/
theorem httpdReqLength_ok {value : Bytes} (ok : httpdReqLength req value maxBody = .ok req') :
    req.length = false ∧ value ≠ [] ∧ (∀ c ∈ value, digit c = true) ∧ number value ≤ maxBody ∧
      req' = { req with body := number value, length := true } := by
  rw [httpdReqLength] at ok
  simp only at ok
  split at ok
  · cases ok
  rename_i accepted
  simp only [Bool.or_eq_true, decide_eq_true_eq, not_or, not_lt, Bool.not_eq_true] at accepted
  obtain ⟨⟨some_, all⟩, first⟩ := accepted
  have whole : value.takeWhile digit = value := by
    apply ( takeWhile_prefix digit).eq_of_length
    exact le_antisymm ( takeWhile_prefix digit).length_le all
  have digits : ∀ c ∈ value, digit c = true := takeWhile_eq_self_iff.mp whole
  rw [whole] at ok some_
  split at ok
  · cases ok
  rename_i exact_
  rcases utilDigits_number value digits 0 0 (Nat.zero_le maxBody) with ⟨read, small⟩ | failed
  · rw [read] at ok
    exact ⟨first, ne_nil_of_length_pos (by omega), digits, small, (Except.ok.inj ok).symm⟩
  · rw [failed] at exact_
    exact absurd exact_ (by simpa using Ne.symm some_)

theorem httpdFieldKeep_ok {kept f out : HttpdField} {list : Bool} (ok : httpdFieldKeep kept f list = .ok out) :
    kept.off = 0 ∧ out = f ∨ kept.off ≠ 0 ∧ list = true ∧ out = kept := by
  rw [httpdFieldKeep] at ok
  split at ok
  · rename_i new
    exact .inl ⟨new, (Except.ok.inj ok).symm⟩
  · rename_i old
    split at ok
    · rename_i list
      exact .inr ⟨old, list, (Except.ok.inj ok).symm⟩
    · cases ok

theorem map_ok {ε α β : Type} {x : Except ε α} {g : α → β} {y : β} (ok : x.map g = .ok y) :
    ∃ a, x = .ok a ∧ g a = y := by
  cases x with
  | error e => cases ok
  | ok a => exact ⟨a, rfl, Except.ok.inj ok⟩

variable {name value : Bytes}

/-- A field without a place changes none. -/
theorem httpdReqHeader_unkept {app : StreamApp}
    {header : HttpdHeader} (ok : httpdReqHeader req app name value f maxBody = .ok req')
    (named : httpdHeader name = some header) (unkept : (FieldKey.header header).kept = false)
    (k : FieldKey) : req'.slot k = req.slot k := by
  have same : ∀ r : HttpdReq, r.host = req.host → r.origin = req.origin → r.auth = req.auth →
      r.acrh = req.acrh → r.app = req.app → r.slot k = req.slot k := by
    intro r host origin auth acrh app
    cases k with
    | header h => cases h <;> simp [HttpdReq.slot, host, origin, auth, acrh]
    | app i => simp [HttpdReq.slot, app]
  simp only [httpdReqHeader, named] at ok
  cases header with
  | host | origin | authorization | acrh => cases unkept
  | contentLength =>
    obtain ⟨-, -, -, -, rfl⟩ := httpdReqLength_ok ok
    exact same _ rfl rfl rfl rfl rfl
  | transferEncoding =>
    simp only at ok
    split at ok
    · cases ok
    split at ok
    · cases ok
    obtain rfl := Except.ok.inj ok
    exact same _ rfl rfl rfl rfl rfl
  | connection =>
    simp only at ok
    split at ok
    · obtain rfl := Except.ok.inj ok
      exact same _ rfl rfl rfl rfl rfl
    split at ok
    · obtain rfl := Except.ok.inj ok
      exact same _ rfl rfl rfl rfl rfl
    · obtain rfl := Except.ok.inj ok
      rfl
  | expect =>
    simp only at ok
    split at ok
    · cases ok
    obtain rfl := Except.ok.inj ok
    exact same _ rfl rfl rfl rfl rfl
  | pna =>
    obtain rfl := Except.ok.inj ok
    exact same _ rfl rfl rfl rfl rfl

/-- A field changes its own place, and no other. -/
theorem httpdReqHeader_slot {app : StreamApp}
    (ok : httpdReqHeader req app name value f maxBody = .ok req') {k : FieldKey} (kept : k.kept = true) :
    if app.keyOf name = some k then httpdFieldKeep (req.slot k) f (k.list app) = .ok (req'.slot k)
    else req'.slot k = req.slot k := by
  rw [StreamApp.keyOf]
  cases named : httpdHeader name with
  | none =>
    simp only [httpdReqHeader, named, httpdReqApp] at ok ⊢
    cases asked : app.asked name with
    | none =>
      simp only [asked] at ok
      obtain rfl := Except.ok.inj ok
      simp
    | some i =>
      simp only [asked] at ok
      obtain ⟨out, keeps, rfl⟩ := map_ok ok
      cases k with
      | header h => cases h <;> simp [HttpdReq.slot]
      | app j =>
        rcases eq_or_ne i j with rfl | other
        · simpa [HttpdReq.slot, FieldKey.list] using keeps
        · simp [HttpdReq.slot, other, Ne.symm other]
  | some header =>
    simp only
    cases has : (FieldKey.header header).kept with
    | false =>
      have other : some (FieldKey.header header) ≠ some k := by
        rintro ⟨⟩
        rw [has] at kept
        cases kept
      rw [if_neg other]
      exact httpdReqHeader_unkept ok named has k
    | true =>
      simp only [httpdReqHeader, named] at ok
      cases header with
      | host | origin | authorization | acrh =>
        obtain ⟨out, keeps, rfl⟩ := map_ok ok
        cases k with
        | header h => cases h <;> simp [HttpdReq.slot, FieldKey.list, keeps]
        | app j => simp [HttpdReq.slot]
      | contentLength | transferEncoding | connection | expect | pna => cases has

/-- What a field says of the body's framing. -/
structure Framing (req req' : HttpdReq) (header : Option HttpdHeader) (value : Bytes)
    (maxBody : Nat) : Prop where
  length : if header = some .contentLength then
      req.length = false ∧ req'.length = true ∧ value ≠ [] ∧ (∀ c ∈ value, digit c = true) ∧
        number value ≤ maxBody ∧ req'.body = number value
    else req'.length = req.length ∧ req'.body = req.body
  chunked : if header = some .transferEncoding then
      req.chunked = false ∧ req'.chunked = true ∧ equalCase value (ascii "chunked") = true
    else req'.chunked = req.chunked
  http10 : req'.http10 = req.http10
  target : req'.target = req.target

theorem httpdReqHeader_framing {app : StreamApp} (ok : httpdReqHeader req app name value f maxBody = .ok req') :
    Framing req req' (httpdHeader name) value maxBody := by
  rw [httpdReqHeader] at ok
  cases named : httpdHeader name with
  | none =>
    simp only [named, httpdReqApp] at ok
    cases asked : app.asked name with
    | none =>
      simp only [asked] at ok
      obtain rfl := Except.ok.inj ok
      exact ⟨by simp, by simp, rfl, rfl⟩
    | some i =>
      simp only [asked] at ok
      obtain ⟨out, -, rfl⟩ := map_ok ok
      exact ⟨by simp, by simp, rfl, rfl⟩
  | some header =>
    simp only [named] at ok
    cases header with
    | host | origin | authorization | acrh =>
      obtain ⟨out, -, rfl⟩ := map_ok ok
      exact ⟨by simp, by simp, rfl, rfl⟩
    | contentLength =>
      obtain ⟨first, some_, digits, small, rfl⟩ := httpdReqLength_ok ok
      refine ⟨?_, by simp, rfl, rfl⟩
      rw [if_pos rfl]
      exact ⟨first, rfl, some_, digits, small, rfl⟩
    | transferEncoding =>
      simp only at ok
      split at ok
      · cases ok
      rename_i first
      split at ok
      · cases ok
      rename_i coding
      obtain rfl := Except.ok.inj ok
      exact ⟨by simp, by simpa [first] using coding, rfl, rfl⟩
    | connection =>
      simp only at ok
      split at ok
      · obtain rfl := Except.ok.inj ok
        exact ⟨by simp, by simp, rfl, rfl⟩
      split at ok
      · obtain rfl := Except.ok.inj ok
        exact ⟨by simp, by simp, rfl, rfl⟩
      · obtain rfl := Except.ok.inj ok
        exact ⟨by simp, by simp, rfl, rfl⟩
    | expect =>
      simp only at ok
      split at ok
      · cases ok
      obtain rfl := Except.ok.inj ok
      exact ⟨by simp, by simp, rfl, rfl⟩
    | pna =>
      obtain rfl := Except.ok.inj ok
      exact ⟨by simp, by simp, rfl, rfl⟩

/-! ## A line -/

/-- The name and the value of a header line. -/
def HeadLine.field (l : HeadLine) : Option (Bytes × Bytes) :=
  (cut 58 l.text).map fun (name, after) => (name, (after.dropWhile blank).rdropWhile blank)

/-- A name is a token, and a value holds no control character but tabs. -/
def Clean (field : Bytes × Bytes) : Prop :=
  (field.1 ≠ [] ∧ httpdToken field.1 = true) ∧ ∀ c ∈ field.2, httpdCtl c = false

/-- A header line that is accepted is a field, which is recorded where its value stands. -/
theorem httpdReqField_ok {app : StreamApp} {front left : Bytes}
    {l : HeadLine} (short : front.length + l.text.length < 65536)
    (ok : httpdReqField req app front.length l.text maxBody = .ok (req', left)) :
    ∃ name value f, l.field = some (name, value) ∧ Clean (name, value) ∧
      left.length = l.text.length ∧ Holds (front ++ left) f value ∧
        httpdReqHeader req app name value f maxBody = .ok req' := by
  rw [httpdReqField] at ok
  cases cut_line : cut 58 l.text with
  | none =>
    rw [cut_line] at ok
    cases ok
  | some parts =>
    obtain ⟨name, after⟩ := parts
    simp only [cut_line] at ok
    split at ok
    · cases ok
    rename_i token
    split at ok
    · cases ok
    rename_i printable
    obtain ⟨out, header, same⟩ := map_ok ok
    obtain ⟨rfl, rfl⟩ := Prod.mk.inj same
    simp only [Bool.or_eq_true, decide_eq_true_eq, not_or, Bool.not_eq_true', Bool.not_eq_false] at token
    obtain ⟨whole, -⟩ := cut_eq_some.mp cut_line
    generalize blanks_eq : after.takeWhile blank = blanks at header ⊢
    generalize text_eq : after.dropWhile blank = text at header printable ⊢
    have parts : after = blanks ++ text := by
      rw [← blanks_eq, ← text_eq, takeWhile_append_dropWhile]
    generalize value_eq : text.rdropWhile blank = value at header ⊢
    obtain ⟨trail, trimmed⟩ : value <+: text := value_eq ▸ rdropWhile_prefix blank text
    have counted := congrArg List.length trimmed
    have length := congrArg List.length whole
    simp only [parts, length_append, length_cons] at counted length
    have off : wrap16 (front.length + name.length + 1 + blanks.length) =
        front.length + name.length + 1 + blanks.length :=
      Nat.mod_eq_of_lt (by omega)
    have len : wrap16 value.length = value.length := Nat.mod_eq_of_lt (by omega)
    rw [off, len] at header
    refine ⟨name, value, _, ?_, ⟨token, ?_⟩, ?_, ?_, header⟩
    · rw [HeadLine.field, cut_line, Option.map_some]
      simp only [text_eq, value_eq]
    · intro c member
      have inside : c ∈ text := trimmed ▸ mem_append_left trail member
      cases ctl : httpdCtl c with
      | false => rfl
      | true => exact absurd (any_eq_true.mpr ⟨c, inside, ctl⟩) printable
    · simp only [length_append, length_cons, length_replicate]
      omega
    · have split : front ++ (name ++ nul :: blanks ++ value ++ List.replicate (text.length - value.length) nul) =
            (front ++ (name ++ nul :: blanks)) ++
              (value ++ List.replicate (text.length - value.length) nul) := by simp
      have before : (front ++ (name ++ nul :: blanks)).length = front.length + name.length + 1 + blanks.length := by
        simp only [length_append, length_cons]
        omega
      rw [split]
      refine { present := by simp only; omega, len := rfl, fits := ?_, slice := ?_ }
      · simp only
        rw [length_append, before, length_append]
        omega
      · simp only
        rw [drop_left' before, take_left]

/-! ## All of them -/

/-- The values of the fields that are the key's, in order. -/
def valuesOf (app : StreamApp) (k : FieldKey) (fields : List (Bytes × Bytes)) : List Bytes :=
  (fields.filter fun field => app.keyOf field.1 = some k).map Prod.snd

theorem valuesOf_concat (app : StreamApp) (k : FieldKey) (fields : List (Bytes × Bytes)) (name value : Bytes) :
    valuesOf app k (fields ++ [(name, value)]) =
      if app.keyOf name = some k then valuesOf app k fields ++ [value] else valuesOf app k fields := by
  rw [valuesOf, valuesOf, filter_append, map_append]
  split
  · rename_i mine
    simp [mine]
  · rename_i other
    simp [other]

/-- The place kept for a field is that of its first value, its only one unless the field may come in
several lines. -/
def Kept (front : Bytes) (f : HttpdField) (list : Bool) (values : List Bytes) : Prop :=
  values = [] ∧ f.off = 0 ∨
    ∃ value rest, values = value :: rest ∧ Holds front f value ∧ (list = false → rest = [])

/-- What a request says is what the fields so far do. -/
structure Told (app : StreamApp) (maxBody : Nat) (front : Bytes) (req : HttpdReq)
    (fields : List (Bytes × Bytes)) : Prop where
  clean : ∀ field ∈ fields, Clean field
  kept : ∀ k : FieldKey, k.kept = true → Kept front (req.slot k) (k.list app) (valuesOf app k fields)
  /-- One Content-Length at most, all digits. -/
  length : req.length = false ∧ valuesOf app (.header .contentLength) fields = [] ∧ req.body = 0 ∨
    ∃ value, valuesOf app (.header .contentLength) fields = [value] ∧ req.length = true ∧
      value ≠ [] ∧ (∀ c ∈ value, digit c = true) ∧ req.body = number value ∧ req.body ≤ maxBody
  /-- One Transfer-Encoding at most, which is chunked. -/
  chunked : req.chunked = false ∧ valuesOf app (.header .transferEncoding) fields = [] ∨
    ∃ value, valuesOf app (.header .transferEncoding) fields = [value] ∧ req.chunked = true ∧
      equalCase value (ascii "chunked") = true

theorem Told.append {app : StreamApp} {front : Bytes} {req : HttpdReq}
    {fields : List (Bytes × Bytes)} (told : Told app maxBody front req fields) (more : Bytes) :
    Told app maxBody (front ++ more) req fields where
  clean := told.clean
  kept := by
    intro k kept
    rcases told.kept k kept with empty | ⟨first, rest, whole, held, single⟩
    · exact .inl empty
    · exact .inr ⟨first, rest, whole, held.append more, single⟩
  length := told.length
  chunked := told.chunked

theorem Kept.step {front left more : Bytes} {f g f' : HttpdField} {list mine : Bool}
    {values : List Bytes} {value : Bytes} (kept : Kept front f list values) (holds : Holds (front ++ left) g value)
    (out : if mine then httpdFieldKeep f g list = .ok f' else f' = f) :
    Kept (front ++ left ++ more) f' list (if mine then values ++ [value] else values) := by
  cases mine with
  | false =>
    simp only [Bool.false_eq_true, if_false] at out ⊢
    subst out
    rcases kept with empty | ⟨first, rest, whole, held, single⟩
    · exact .inl empty
    · exact .inr ⟨first, rest, whole, (held.append left).append more, single⟩
  | true =>
    simp only [if_true] at out ⊢
    rcases kept with ⟨rfl, absent⟩ | ⟨first, rest, rfl, held, single⟩
    · rcases httpdFieldKeep_ok out with ⟨-, rfl⟩ | ⟨present, -⟩
      · exact .inr ⟨value, [], rfl, holds.append more, fun _ => rfl⟩
      · exact absurd absent present
    · rcases httpdFieldKeep_ok out with ⟨absent, -⟩ | ⟨-, rfl, rfl⟩
      · exact absurd absent held.present
      · exact .inr ⟨first, rest ++ [value], rfl, (held.append left).append more, nofun⟩

theorem StreamApp.keyOf_header {app : StreamApp} {name : Bytes} {header : HttpdHeader} :
    app.keyOf name = some (.header header) ↔ httpdHeader name = some header := by
  rw [StreamApp.keyOf]
  cases httpdHeader name <;> simp

/-- One more line. -/
theorem Told.step {app : StreamApp} {front left : Bytes} {fields : List (Bytes × Bytes)}
    (told : Told app maxBody front req fields) (clean : Clean (name, value)) (holds : Holds (front ++ left) f value)
    (ok : httpdReqHeader req app name value f maxBody = .ok req') (more : Bytes) :
    Told app maxBody (front ++ left ++ more) req' (fields ++ [(name, value)]) := by
  have framing := httpdReqHeader_framing ok
  refine { clean := ?_, kept := ?_, length := ?_, chunked := ?_ }
  · intro field member
    rcases mem_append.mp member with old | new
    · exact told.clean field old
    · rw [mem_singleton.mp new]
      exact clean
  · intro k kept
    have out := httpdReqHeader_slot ok kept
    rw [valuesOf_concat]
    have step : Kept (front ++ left ++ more) (req'.slot k) (k.list app)
        (if decide (app.keyOf name = some k) then valuesOf app k fields ++ [value]
          else valuesOf app k fields) :=
      (told.kept k kept).step holds (by simpa using out)
    simpa using step
  · have length := framing.length
    rw [valuesOf_concat]
    simp only [StreamApp.keyOf_header]
    split at length
    · rename_i mine
      obtain ⟨first, seen, some_, digits, small, body⟩ := length
      rcases told.length with ⟨-, empty, -⟩ | ⟨old, -, taken, -⟩
      · rw [if_pos mine, empty]
        exact .inr ⟨value, rfl, seen, some_, digits, body, body ▸ small⟩
      · rw [first] at taken
        cases taken
    · rename_i other
      obtain ⟨same, body⟩ := length
      rw [if_neg other, same, body]
      exact told.length
  · have chunked := framing.chunked
    rw [valuesOf_concat]
    simp only [StreamApp.keyOf_header]
    split at chunked
    · rename_i mine
      obtain ⟨first, seen, coding⟩ := chunked
      rcases told.chunked with ⟨-, empty⟩ | ⟨old, -, taken, -⟩
      · rw [if_pos mine, empty]
        exact .inr ⟨value, rfl, seen, coding⟩
      · rw [first] at taken
        cases taken
    · rename_i other
      rw [if_neg other, chunked]
      exact told.chunked

/-- All lines. -/
theorem parseLines_told {app : StreamApp} {lim : HttpdLimits} (lines : List HeadLine) :
    ∀ (front : Bytes) (n : Nat) (req : HttpdReq) (fields : List (Bytes × Bytes)) (req' : HttpdReq)
      (front' : Bytes), Told app lim.body front req fields → front.length + (linesBytes lines).length ≤ 65535 →
        parseLines app lim front n req lines = .ok (req', front') → ∃ new, lines.map HeadLine.field = new.map some ∧
            Told app lim.body front' req' (fields ++ new) ∧ req'.http10 = req.http10 ∧
              req'.target = req.target ∧ front <+: front' ∧
                front'.length = front.length + (linesBytes lines).length := by
  induction lines with
  | nil =>
    intro front n req fields req' front' told _ ok
    obtain ⟨rfl, rfl⟩ := Prod.mk.inj (Except.ok.inj ok)
    exact ⟨[], rfl, by simpa using told, rfl, rfl, prefix_rfl, rfl⟩
  | cons l lines ih =>
    intro front n req fields req' front' told short ok
    rw [parseLines] at ok
    split at ok
    · cases ok
    have width : (linesBytes (l :: lines)).length = l.text.length + l.eol + (linesBytes lines).length := by
      simp [linesBytes]
    cases line : httpdReqField req app front.length l.text lim.body with
    | error status =>
      rw [line] at ok
      cases ok
    | ok out =>
      obtain ⟨req₁, left⟩ := out
      simp only [line] at ok
      obtain ⟨name, value, f, field, clean, same, holds, header⟩ :=
        httpdReqField_ok (by omega) line
      have framing := httpdReqHeader_framing header
      have nuls : l.nuls.length = l.eol := length_replicate ..
      obtain ⟨new, parsed, all, http10, target, grown, length⟩ :=
        ih _ _ _ _ _ _ (told.step clean holds header l.nuls)
          (by simp only [length_append, same, nuls]; omega) ok
      refine ⟨(name, value) :: new, ?_, ?_, ?_, ?_, ?_, ?_⟩
      · rw [map_cons, map_cons, field, parsed]
      · simpa using all
      · exact http10.trans framing.http10
      · exact target.trans framing.target
      · apply List.IsPrefix.trans _ grown
        rw [append_assoc]
        exact prefix_append ..
      · rw [length, width]
        simp only [length_append, same, nuls]
        omega

end Askai
