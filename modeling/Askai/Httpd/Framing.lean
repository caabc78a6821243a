import Askai.Httpd.Fields

/-!
# The framing of requests

A head that the parse accepts can be read in one way only: its lines, the length of its body, and
the fields that may come once; and what the response echoes of it adds no line to the response.
-/

namespace Askai

open Library List

/-! ## Names -/

/-- The fields of the name, in any case of its letters. -/
def named (name : Bytes) (fields : List (Bytes × Bytes)) : List Bytes :=
  (fields.filter fun field => equalCase field.1 name).map Prod.snd

theorem httpdHeader_congr {name other : Bytes} (same : equalCase name other) :
    httpdHeader name = httpdHeader other := by
  have alike : ∀ text, cstrViewEqualCase name text = cstrViewEqualCase other text := by
    intro text
    simp only [equalCase, decide_eq_true_eq] at same
    rw [cstrViewEqualCase_eq, cstrViewEqualCase_eq, equalCase, equalCase, same]
  simp only [httpdHeader, alike]

theorem StreamApp.keyOf_congr (app : StreamApp) {name other : Bytes} (same : equalCase name other) :
    app.keyOf name = app.keyOf other := by
  have alike : ∀ text, cstrViewEqualCase name text = cstrViewEqualCase other text := by
    intro text
    simp only [equalCase, decide_eq_true_eq] at same
    rw [cstrViewEqualCase_eq, cstrViewEqualCase_eq, equalCase, equalCase, same]
  simp only [StreamApp.keyOf, httpdHeader_congr same, StreamApp.asked, alike]

/-- What a name is known by is the first entry of the table that it equals. -/
theorem httpdHeader_some {name : Bytes} {header : HttpdHeader}
    (known : httpdHeader name = some header) : ∃ text, (header, text) ∈ httpdHeaders ∧ equalCase name text := by
  obtain ⟨⟨h, text⟩, found, rfl⟩ := Option.map_eq_some_iff.mp known
  refine ⟨text, mem_of_find?_eq_some found, ?_⟩
  have is := List.find?_some found
  rwa [cstrViewEqualCase_eq] at is

variable {req : HttpdReq} {app : StreamApp} {line : RequestLine} {lim : HttpdLimits} {head : HeadLines} {fields : List (Bytes × Bytes)}

theorem valuesOf_eq_named {k : FieldKey} {text : Bytes}
    (key : ∀ name, app.keyOf name = some k ↔ equalCase name text = true)
    (fields : List (Bytes × Bytes)) : valuesOf app k fields = named text fields := by
  rw [valuesOf, named]
  congr 1
  apply filter_congr
  intro field _
  rw [Bool.eq_iff_iff, decide_eq_true_eq]
  exact key field.1

/-- A name of the table names its header only. -/
theorem keyOf_header_iff (app : StreamApp) {header : HttpdHeader} {text : Bytes}
    (entry : (header, text) ∈ httpdHeaders) (name : Bytes) :
    app.keyOf name = some (.header header) ↔ equalCase name text = true := by
  have own : ∀ entry ∈ httpdHeaders, httpdHeader entry.2 = some entry.1 := by decide
  have single : ∀ a ∈ httpdHeaders, ∀ b ∈ httpdHeaders, a.1 = b.1 → a.2 = b.2 := by decide
  rw [StreamApp.keyOf_header]
  constructor
  · intro known
    obtain ⟨other, listed, same⟩ := httpdHeader_some known
    have alike : other = text := single (header, other) listed (header, text) entry rfl
    exact alike ▸ same
  · intro same
    rw [httpdHeader_congr same]
    exact own (header, text) entry

/-! ## The request line -/

/-- The parts of a request line. -/
structure RequestLine where
  method : Bytes
  target : Bytes
  version : Bytes

namespace RequestLine

def bytes (line : RequestLine) : Bytes :=
  line.method ++ space :: line.target ++ space :: line.version

/-- The line as the parse leaves it. -/
def left (line : RequestLine) : Bytes :=
  line.method ++ nul :: line.target ++ nul :: line.version

@[simp]
theorem length_left (line : RequestLine) : line.left.length = line.bytes.length := by
  simp [left, bytes]

/-- The target's place. -/
def place (line : RequestLine) : HttpdField :=
  { off := wrap16 (line.method.length + 1), len := wrap16 line.target.length }

theorem holds_target (short : line.bytes.length < 65536) (more : Bytes) :
    Holds (line.left ++ more) line.place line.target := by
  simp only [bytes, length_append, length_cons] at short
  have off : wrap16 (line.method.length + 1) = line.method.length + 1 :=
    Nat.mod_eq_of_lt (by omega)
  have len : wrap16 line.target.length = line.target.length := Nat.mod_eq_of_lt (by omega)
  have split : line.left ++ more =
      (line.method ++ [nul]) ++ (line.target ++ (nul :: line.version ++ more)) := by simp [left]
  have before : (line.method ++ [nul]).length = line.method.length + 1 := by simp
  rw [place, off, len, split]
  refine { present := by simp, len := rfl, fits := ?_, slice := ?_ }
  · simp only [length_append, length_cons, length_nil]
    omega
  · simp only
    rw [drop_left' before, take_left]

end RequestLine

/-- What an accepted request line says. -/
structure LineTold (line : RequestLine) (req : HttpdReq) : Prop where
  method : line.method ≠ [] ∧ httpdToken line.method = true
  clean : ∀ c ∈ line.bytes, httpdCtl c = false ∧ c ≠ tab
  single : space ∉ line.method ∧ space ∉ line.target ∧ space ∉ line.version
  place : req.target = line.place
  version : line.version = ascii "HTTP/1.0" ∧ req.http10 = true ∨
    line.version = ascii "HTTP/1.1" ∧ req.http10 = false
  /-- The header fields are yet to come. -/
  fresh : req.length = false ∧ req.chunked = false ∧ req.body = 0 ∧ ∀ k, (req.slot k).off = 0

theorem httpdReqLine_ok {n : Nat} {text left : Bytes} (ok : httpdReqLine { head := n } text = .ok (req, left)) :
    ∃ line : RequestLine, line.bytes = text ∧ line.left = left ∧ LineTold line req := by
  rw [httpdReqLine] at ok
  split at ok
  · cases ok
  rename_i printable
  cases cut_line : cut space text with
  | none =>
    rw [cut_line] at ok
    cases ok
  | some parts =>
    obtain ⟨method, rest⟩ := parts
    simp only [cut_line] at ok
    split at ok
    · cases ok
    rename_i filled
    cases cut_rest : cut space rest with
    | none =>
      rw [cut_rest] at ok
      cases ok
    | some parts =>
      obtain ⟨target, version⟩ := parts
      simp only [cut_rest] at ok
      split at ok
      · cases ok
      rename_i proper
      simp only [Bool.or_eq_true, decide_eq_true_eq, not_or, Bool.not_eq_true', Bool.not_eq_false,
        Bool.not_eq_true] at proper
      obtain ⟨⟨-, last⟩, token⟩ := proper
      obtain ⟨rfl, first⟩ := cut_eq_some.mp cut_line
      obtain ⟨rfl, second⟩ := cut_eq_some.mp cut_rest
      have whole : (RequestLine.mk method target version).bytes =
          method ++ space :: (target ++ space :: version) := by simp [RequestLine.bytes]
      have clean : ∀ c ∈ (RequestLine.mk method target version).bytes, httpdCtl c = false ∧ c ≠ tab := by
        rw [whole]
        intro c member
        have visible : ¬(c < 32 ∨ c = 127) := by
          intro ctl
          exact printable (any_eq_true.mpr ⟨c, member, by simpa using ctl⟩)
        refine ⟨by simp_all [httpdCtl], ?_⟩
        rintro rfl
        exact visible (.inl (by decide))
      have single : space ∉ method ∧ space ∉ target ∧ space ∉ version :=
        ⟨first, second, by simpa using last⟩
      have slots (r : HttpdReq) (host : r.host = {}) (origin : r.origin = {}) (auth : r.auth = {})
          (acrh : r.acrh = {}) (app : r.app = fun _ => {}) (k : FieldKey) : (r.slot k).off = 0 := by
        cases k with
        | header h => cases h <;> simp [HttpdReq.slot, host, origin, auth, acrh]
        | app i => simp [HttpdReq.slot, app]
      split at ok
      · rename_i old
        obtain ⟨rfl, rfl⟩ := Prod.mk.inj (Except.ok.inj ok)
        exact ⟨⟨method, target, version⟩, whole, rfl, ⟨filled, token⟩, clean, single, rfl,
          .inl ⟨old, rfl⟩, rfl, rfl, rfl, slots _ rfl rfl rfl rfl rfl⟩
      split at ok
      · rename_i new
        obtain ⟨rfl, rfl⟩ := Prod.mk.inj (Except.ok.inj ok)
        exact ⟨⟨method, target, version⟩, whole, rfl, ⟨filled, token⟩, clean, single, rfl,
          .inr ⟨new, rfl⟩, rfl, rfl, rfl, slots _ rfl rfl rfl rfl rfl⟩
      · split at ok <;> cases ok

/-- Before the header fields, nothing is recorded. -/
theorem LineTold.told (told : LineTold line req)
    (app : StreamApp) (maxBody : Nat) (front : Bytes) : Told app maxBody front req [] := by
  obtain ⟨length, chunked, body, slots⟩ := told.fresh
  exact
    { clean := nofun
      kept := fun k _ => .inl ⟨rfl, slots k⟩
      length := .inl ⟨length, rfl, body⟩
      chunked := .inl ⟨chunked, rfl⟩ }

/-! ## What an accepted head says -/

/-- What the parse leaves of a head that it accepts. -/
structure HeadTold (app : StreamApp) (lim : HttpdLimits) (head : HeadLines) (line : RequestLine)
    (fields : List (Bytes × Bytes)) (req : HttpdReq) (left : Bytes) : Prop where
  text : line.bytes = head.first.text
  lines : head.lines.map HeadLine.field = fields.map some
  first : ∃ req₁, LineTold line req₁ ∧ req.target = req₁.target ∧ req.http10 = req₁.http10
  target : Holds left req.target line.target
  told : Told app lim.body left req fields
  framing : req.chunked = true → req.length = false ∧ req.http10 = false
  length : left.length = head.bytes.length

theorem parseHead_ok
    {left : Bytes} (short : head.bytes.length ≤ lim.head) (ok : parseHead app lim head = .ok (req, left)) :
    ∃ line fields, HeadTold app lim head line fields req left := by
  have limit := lim.head_le
  have width : head.bytes.length = head.first.text.length + head.first.eol + (linesBytes head.lines).length +
        head.last.bytes.length := by
    rw [HeadLines.bytes_eq]
    simp only [length_append, HeadLine.length_bytes]
    omega
  rw [parseHead] at ok
  split at ok
  · cases ok
  cases first : httpdReqLine { head := wrap16 head.bytes.length } head.first.text with
  | error status =>
    rw [first] at ok
    cases ok
  | ok out =>
    obtain ⟨req₁, left₁⟩ := out
    obtain ⟨line, whole, rfl, line_told⟩ := httpdReqLine_ok first
    have nuls : head.first.nuls.length = head.first.eol := length_replicate ..
    have bytes : line.bytes.length = head.first.text.length := by rw [whole]
    simp only [first] at ok
    cases lines : parseLines app lim (line.left ++ head.first.nuls) 0 req₁ head.lines with
    | error status =>
      rw [lines] at ok
      cases ok
    | ok out =>
      obtain ⟨req₂, front⟩ := out
      simp only [lines] at ok
      split at ok
      · cases ok
      rename_i framed
      obtain ⟨rfl, rfl⟩ := Prod.mk.inj (Except.ok.inj ok)
      have begun : (line.left ++ head.first.nuls).length + (linesBytes head.lines).length ≤
          65535 := by
        rw [length_append, RequestLine.length_left, nuls, bytes]
        omega
      obtain ⟨fields, parsed, told, http10, target, ⟨more, rfl⟩, length⟩ :=
        parseLines_told head.lines _ _ _ [] _ _ (line_told.told app lim.body _) begun lines
      have last : head.last.nuls.length = head.last.bytes.length := by
        rw [HeadLine.nuls, length_replicate, HeadLine.length_bytes, head.empty]
        simp
      refine ⟨line, fields, whole, parsed, ⟨req₁, line_told, target, http10⟩, ?_, ?_, ?_, ?_⟩
      · rw [target, line_told.place, append_assoc, append_assoc]
        exact @RequestLine.holds_target line (by omega) _
      · simpa using told.append head.last.nuls
      · intro chunked
        simpa [chunked] using framed
      · rw [length_append, length, length_append, RequestLine.length_left, nuls, last]
        omega

/-! ## The two loops, side by side -/

/-- Where the parse cuts a line, the search for the head's end goes on; where the search ends, so do
the lines. -/
inductive CutAlike : Nat → Bytes → List Bytes → Bytes → Prop
  | last {i eol ends : Nat} {data line back rest : Bytes}
      (cut : httpdNextLine data = some (line, eol, back))
      (empty : httpdNextLine back = some ([], ends, rest))
      (found : httpdHeadScan i data = .ok (i + (data.length - rest.length))) :
      CutAlike i data [line] rest
  | line {i eol : Nat} {data line back rest : Bytes} {lines : List Bytes}
      (cut : httpdNextLine data = some (line, eol, back))
      (goes_on : httpdHeadScan i data = httpdHeadScan (i + (data.length - back.length)) back)
      (later : CutAlike (i + (data.length - back.length)) back lines rest) :
      CutAlike i data (line :: lines) rest

theorem cutAlike_lines {last : HeadLine} (empty : last.text = []) (rest : Bytes) (lines : List HeadLine) :
    ∀ (i : Nat) (first : HeadLine), (∀ l ∈ first :: lines, l.Whole ∧ nul ∉ l.text) → (∀ l ∈ lines, l.text ≠ []) →
        CutAlike i (linesBytes (first :: lines) ++ last.bytes ++ rest) ((first :: lines).map HeadLine.text) rest := by
  induction lines with
  | nil =>
    intro i first whole _
    obtain ⟨whole, clear⟩ := whole first mem_cons_self
    have cut := HeadLine.httpdNextLine_bytes whole clear (last.bytes ++ rest)
    have ends := @HeadLine.httpdNextLine_bytes last ⟨by simp [empty], by simp [empty]⟩ (by simp [empty]) rest
    have found := httpdHeadScan_lines [] i first last (by simpa using whole) (by simp) empty rest
    have parts : linesBytes [first] ++ last.bytes ++ rest = first.bytes ++ (last.bytes ++ rest) := by
      simp [linesBytes]
    rw [empty] at ends
    apply CutAlike.last (parts ▸ cut) ends
    rw [found, @List.length_append _ _ rest, Nat.add_sub_cancel]
  | cons second lines ih =>
    intro i first whole filled
    obtain ⟨first_whole, clear⟩ := whole first mem_cons_self
    have others := forall_mem_of_forall_mem_cons whole
    have others_filled := forall_mem_of_forall_mem_cons filled
    generalize back_eq : linesBytes (second :: lines) ++ last.bytes ++ rest = back
    have parts : linesBytes (first :: second :: lines) ++ last.bytes ++ rest = first.bytes ++ back := by
      rw [← back_eq]
      simp [linesBytes]
    have width : (first.bytes ++ back).length - back.length = first.bytes.length := by
      rw [length_append, Nat.add_sub_cancel]
    have later := ih (i + first.bytes.length) second others others_filled
    have scan := httpdHeadScan_lines (second :: lines) i first last (fun l m => (whole l m).1) filled empty rest
    have scan_back := httpdHeadScan_lines lines (i + first.bytes.length) second last
      (fun l m => (others l m).1) others_filled empty rest
    rw [back_eq] at later scan_back
    rw [parts] at scan
    rw [parts, map_cons]
    apply CutAlike.line (HeadLine.httpdNextLine_bytes first_whole clear back)
    · rw [width, scan, scan_back, Except.ok.injEq]
      simp only [linesBytes, map_cons, flatten_cons, length_append]
      omega
    · rw [width]
      exact later

/-! ## What the response echoes -/

/-- The request with nothing in the fields that a response echoes. -/
def HttpdReq.silent (req : HttpdReq) : HttpdReq :=
  { req with origin := { req.origin with len := 0 }, acrh := { req.acrh with len := 0 } }

/-- A field without control characters, at its place in the head or absent. -/
def Harmless (head : Bytes) (f : HttpdField) : Prop :=
  ∀ value, httpdConnField head f = some value → ∀ c ∈ value, httpdCtl c = false

theorem Kept.harmless {front : Bytes} {f : HttpdField} {list : Bool} {values : List Bytes}
    (kept : Kept front f list values) (clean : ∀ value ∈ values, ∀ c ∈ value, httpdCtl c = false)
    (more : Bytes) : Harmless (front ++ more) f := by
  intro text held
  rcases kept with ⟨-, absent⟩ | ⟨value, rest, rfl, holds, -⟩
  · rw [httpdConnField, if_pos absent] at held
    cases held
  · rw [(holds.append more).field] at held
    obtain rfl := Option.some.inj held
    exact clean value mem_cons_self

theorem count_field {head : Bytes} {f : HttpdField} (harmless : Harmless head f) {c : UInt8} (ctl : httpdCtl c = true) :
    httpdConnField head f = none ∧ httpdConnField head { f with len := 0 } = none ∨
      ∃ value, httpdConnField head f = some value ∧ value.count c = 0 ∧
        httpdConnField head { f with len := 0 } = some [] := by
  cases held : httpdConnField head f with
  | none =>
    rw [httpdConnField] at held
    split at held
    · rename_i absent
      exact .inl ⟨rfl, by rw [httpdConnField, if_pos absent]⟩
    · cases held
  | some value =>
    refine .inr ⟨value, rfl, ?_, ?_⟩
    · apply count_eq_zero.mpr
      intro member
      rw [harmless value held c member] at ctl
      cases ctl
    · rw [httpdConnField] at held ⊢
      split at held
      · cases held
      · rename_i present
        rw [if_neg present, take_zero]

/-- The echoed values bring no control character into the response's head. -/
theorem count_httpdConnHead {head : Bytes} (origin : Harmless head req.origin)
    {c : UInt8} (ctl : httpdCtl c = true) (closing : Bool) (status : Nat) (field : Bytes)
    (extra : List Bytes) (length : Option Nat) : (httpdConnHead req head closing status field extra length).count c =
      (httpdConnHead req.silent head closing status field extra length).count c := by
  rcases count_field origin ctl with ⟨held, silent⟩ | ⟨value, held, zero, silent⟩
  · simp only [httpdConnHead, HttpdReq.silent, held, silent]
  · simp only [httpdConnHead, HttpdReq.silent, held, silent, count_append, zero, count_nil]

theorem count_httpdConnPreflight {head : Bytes} (origin : Harmless head req.origin)
    (acrh : Harmless head req.acrh) {c : UInt8} (ctl : httpdCtl c = true) (closing : Bool) :
    (httpdConnPreflight req head closing).count c = (httpdConnPreflight req.silent head closing).count c := by
  rw [httpdConnPreflight, count_httpdConnHead origin ctl, httpdConnPreflight]
  have extra : ((httpdPreflightExtra req head).flatten).count c =
      ((httpdPreflightExtra req.silent head).flatten).count c := by
    have off : req.silent.origin.off = req.origin.off := rfl
    have silenced : req.silent.acrh = { req.acrh with len := 0 } := rfl
    have pna : req.silent.pna = req.pna := rfl
    rcases eq_or_ne req.origin.off 0 with absent | present
    · rw [httpdPreflightExtra, httpdPreflightExtra, if_pos absent, if_pos (off.trans absent)]
    · have also_present : req.silent.origin.off ≠ 0 := present
      rw [httpdPreflightExtra, httpdPreflightExtra, if_neg present, if_neg also_present, silenced, pna]
      rcases count_field acrh ctl with ⟨held, silent⟩ | ⟨value, held, zero, silent⟩
      · rw [held, silent]
      · simp only [held, silent, Option.getD_some, flatten_cons, count_append, zero, count_nil]
  simp only [httpdConnHead, count_append, extra]

/-! ## Accepted heads -/

/-- The framing of an accepted head can be read in one way only: from its lines, the fields among
them, the request and the head as the parse leaves it. -/
structure Framed (app : StreamApp) (lim : HttpdLimits) (data : Bytes) (line : RequestLine)
    (fields : List (Bytes × Bytes)) (req : HttpdReq) (left : Bytes) : Prop where
  lines : ∃ (texts : List HeadLine) (rest : Bytes),
    CutAlike 0 data (line.bytes :: texts.map HeadLine.text) rest ∧
      texts.map HeadLine.field = fields.map some
  target : httpdConnField left req.target = some line.target ∧
    ∀ c ∈ line.target, httpdCtl c = false ∧ c ≠ tab
  clean : ∀ field ∈ fields, httpdToken field.1 = true ∧ ∀ c ∈ field.2, httpdCtl c = false
  length : req.length = false ∧ named (ascii "content-length") fields = [] ∧ req.body = 0 ∨
    ∃ value, named (ascii "content-length") fields = [value] ∧ req.length = true ∧ value ≠ [] ∧
      (∀ c ∈ value, digit c = true) ∧ req.body = number value ∧ req.body ≤ lim.body
  chunked : req.chunked = false ∧ named (ascii "transfer-encoding") fields = [] ∨
    ∃ value, named (ascii "transfer-encoding") fields = [value] ∧ req.chunked = true ∧
      equalCase value (ascii "chunked") = true
  framing : req.chunked = true → req.length = false ∧ line.version = ascii "HTTP/1.1"
  host : (named (ascii "host") fields).length ≤ 1
  origin : (named (ascii "origin") fields).length ≤ 1
  auth : (named (ascii "authorization") fields).length ≤ 1
  /-- A field that the application asks for, and the transport does not read itself. -/
  app : ∀ name ∈ app.fields, httpdHeader name = none →
    (∀ i, (found : i < app.fields.length) → equalCase app.fields[i] name = true →
      app.lists.testBit i = false) → (named name fields).length ≤ 1
  /-- The response's head has the control characters of one that echoes empty values. -/
  echo : ∀ (more : Bytes) (c : UInt8), httpdCtl c = true →
    (∀ closing status field extra length, (httpdConnHead req (left ++ more) closing status field extra length).count c =
        (httpdConnHead req.silent (left ++ more) closing status field extra length).count c) ∧
    ∀ closing, (httpdConnPreflight req (left ++ more) closing).count c =
      (httpdConnPreflight req.silent (left ++ more) closing).count c

/-- The fields of a name that the application asks for are known by one of its entries. -/
theorem keyOf_app_iff {name : Bytes} (asked : name ∈ app.fields) (apart : httpdHeader name = none) :
    ∃ (i : Nat) (found : i < app.fields.length), equalCase app.fields[i] name = true ∧
      ∀ other, app.keyOf other = some (.app i) ↔ equalCase other name = true := by
  cases first : app.asked name with
  | none =>
    have differs := List.findIdx?_eq_none_iff.mp first name asked
    rw [cstrViewEqualCase_eq, equalCase_refl] at differs
    cases differs
  | some i =>
    obtain ⟨found, equal, -⟩ := List.findIdx?_eq_some_iff_getElem.mp first
    rw [cstrViewEqualCase_eq] at equal
    have own : app.keyOf name = some (.app i) := by
      rw [StreamApp.keyOf, apart, first]
      rfl
    refine ⟨i, found, equalCase_symm equal, fun other => ⟨?_, ?_⟩⟩
    · intro same
      rw [StreamApp.keyOf] at same
      cases known : httpdHeader other with
      | some header =>
        rw [known] at same
        cases same
      | none =>
        rw [known] at same
        obtain ⟨j, here, alike⟩ := Option.map_eq_some_iff.mp same
        obtain rfl : j = i := by simpa using alike
        obtain ⟨_, also, -⟩ := List.findIdx?_eq_some_iff_getElem.mp here
        rw [cstrViewEqualCase_eq] at also
        exact equalCase_trans also (equalCase_symm equal)
    · intro same
      rw [app.keyOf_congr same]
      exact own

theorem Kept.length_le_one {front : Bytes} {f : HttpdField} {values : List Bytes}
    (kept : Kept front f false values) : values.length ≤ 1 := by
  rcases kept with ⟨rfl, -⟩ | ⟨value, rest, rfl, -, single⟩
  · exact Nat.zero_le 1
  · rw [single rfl]
    exact Nat.le_refl 1

theorem mem_valuesOf {k : FieldKey}
    {value : Bytes} (member : value ∈ valuesOf app k fields) : ∃ name, (name, value) ∈ fields := by
  obtain ⟨⟨name, text⟩, kept, rfl⟩ := mem_map.mp member
  exact ⟨name, (mem_filter.mp kept).1⟩

theorem HeadTold.harmless {left : Bytes}
    (told : HeadTold app lim head line fields req left) {k : FieldKey} (kept : k.kept = true)
    (more : Bytes) : Harmless (left ++ more) (req.slot k) := by
  apply (told.told.kept k kept).harmless
  intro value member
  obtain ⟨name, listed⟩ := mem_valuesOf member
  exact (told.told.clean _ listed).2

theorem HeadTold.length_le_one {left : Bytes}
    (told : HeadTold app lim head line fields req left) {k : FieldKey} (kept : k.kept = true)
    (single : k.list app = false) {text : Bytes} (key : ∀ name, app.keyOf name = some k ↔ equalCase name text = true) :
    (named text fields).length ≤ 1 := by
  have here := told.told.kept k kept
  rw [single, valuesOf_eq_named key] at here
  exact here.length_le_one

theorem HeadTold.framed {left : Bytes}
    (told : HeadTold app lim head line fields req left) (clear : nul ∉ head.bytes) (rest : Bytes) :
    Framed app lim (head.bytes ++ rest) line fields req left := by
  obtain ⟨req₁, first, -, http10⟩ := told.first
  have header (h : HttpdHeader) {text : Bytes} (entry : (h, text) ∈ httpdHeaders) :=
    keyOf_header_iff app entry
  refine
    { lines := ⟨head.lines, rest, ?_, told.lines⟩
      target := ⟨told.target.field, ?_⟩
      clean := fun field member => ⟨(told.told.clean field member).1.2, (told.told.clean field member).2⟩
      length := ?_
      chunked := ?_
      framing := ?_
      host := told.length_le_one rfl rfl (header .host (by simp [httpdHeaders]))
      origin := told.length_le_one rfl rfl (header .origin (by simp [httpdHeaders]))
      auth := told.length_le_one rfl rfl (header .authorization (by simp [httpdHeaders]))
      app := ?_
      echo := ?_ }
  · have alike := @cutAlike_lines head.last head.empty rest head.lines 0 head.first ?_ head.filled
    · rw [map_cons, ← told.text] at alike
      rw [HeadLines.bytes]
      exact alike
    · intro l member
      refine ⟨head.whole l member, fun inside => clear ?_⟩
      rw [HeadLines.bytes, linesBytes]
      apply mem_append_left
      apply mem_flatten.mpr
      exact ⟨l.bytes, mem_map_of_mem member, by rw [HeadLine.bytes]; exact mem_append_left _ inside⟩
  · intro c member
    apply first.clean
    simp [RequestLine.bytes, member]
  · rw [← valuesOf_eq_named (header .contentLength (by simp [httpdHeaders]))]
    exact told.told.length
  · rw [← valuesOf_eq_named (header .transferEncoding (by simp [httpdHeaders]))]
    exact told.told.chunked
  · intro chunked
    obtain ⟨length, new⟩ := told.framing chunked
    refine ⟨length, ?_⟩
    rcases first.version with ⟨-, old⟩ | ⟨version, -⟩
    · rw [← http10, new] at old
      cases old
    · exact version
  · intro name asked apart single
    obtain ⟨i, found, same, key⟩ := keyOf_app_iff asked apart
    have kept : (FieldKey.app i).kept = true := rfl
    exact told.length_le_one kept (single i found same) key
  · intro more c ctl
    have origin : Harmless (left ++ more) (req.slot (.header .origin)) := told.harmless rfl more
    have acrh : Harmless (left ++ more) (req.slot (.header .acrh)) := told.harmless rfl more
    exact ⟨count_httpdConnHead origin ctl, count_httpdConnPreflight origin acrh ctl⟩

end Askai
