import Askai.Home.Delta

/-!
# What the notifications of a mailbox say

Each notification is JSON with some whole characters of a piece, and over any run of the front's steps they are the
pieces of the mailbox in order.
-/

namespace Askai

open Library List

/-! ## A notification -/

/-- What a notification says: thinking or text. -/
abbrev DeltaSaid := Bool × List Char

/-- The bytes of pieces, each with whether it is thinking. -/
def tagged (pieces : List DeltaPiece) : List (Bool × UInt8) :=
  pieces.flatMap fun p => p.text.map (p.thought, ·)

/-- The bytes that notifications say. -/
def told (notes : List DeltaSaid) : List (Bool × UInt8) :=
  notes.flatMap fun said => (utf8 said.2).map (said.1, ·)

/-- What the JSON value of an id decodes to. -/
def McpId.Names (id : McpId) (name : JsonValue) : Prop :=
  match id.value with
  | .string text => ∃ cs, text = utf8 cs ∧ name = .string cs
  | .number text => name = .number text
  | _ => False

/-- The JSON value of a notification. -/
def deltaJson (name : JsonValue) (turn : UInt32) (said : DeltaSaid) : JsonValue :=
  .object [("jsonrpc".toList, .string "2.0".toList), ("method".toList, .string "notifications/askai/delta".toList),
    ("params".toList, .object [("requestId".toList, name), ("turn".toList, .number (utilDecimal turn.toNat)),
      ("kind".toList, .string (if said.1 then "reasoning" else "text").toList), ("text".toList, .string said.2)])]

/-- A notification is an event with a JSON text on one line, which decodes to some characters of a piece, and is not
larger than the share that was left. -/
structure DeltaNote.Tells (note : DeltaNote) (id : McpId) (turn : UInt32) (said : DeltaSaid) : Prop where
  json : ∃ text name, note.bytes = ascii "data: " ++ text ++ [lf, lf] ∧ id.Names name ∧
    JsonText text (deltaJson name turn said) ∧ ∀ c ∈ text, space ≤ c
  some_ : said.2 ≠ []
  short : (utf8 said.2).length ≤ deltaText
  fits : note.bytes.length ≤ note.room

theorem McpId.jsonText (id : McpId) : ∃ name, id.Names name ∧ JsonText (jbWire id.value) name := by
  obtain ⟨value, valid, text, number⟩ := id
  cases value with
  | string t =>
    obtain ⟨cs, rfl⟩ := text t rfl
    exact ⟨.string cs, ⟨cs, rfl, rfl⟩, .string (jsonString_escape cs)⟩
  | number t => exact ⟨.number t, rfl, .number (number t rfl).1⟩
  | _ => exact nomatch valid

theorem McpId.length_jbWire (id : McpId) : (jbWire id.value).length ≤ 6 * maxId + 2 := by
  obtain ⟨value, valid, text, number⟩ := id
  cases value with
  | string t =>
    have short : t.length ≤ maxId := of_decide_eq_true valid
    have escaped := length_jbEscape t
    change (quote :: jbEscape t ++ [quote]).length ≤ _
    rw [cons_append, length_cons, length_append, length_singleton]
    omega
  | number t =>
    exact Nat.le_trans (number t rfl).2 (by decide)
  | _ => exact nomatch valid

theorem length_utilDecimal_le {n digits : Nat} (some_ : 0 < digits) (less : n < 10 ^ digits) :
    (utilDecimal n).length ≤ digits := by
  rw [utilDecimal]
  split
  · exact some_
  · rw [length_map, length_reverse]
    exact (Nat.digits_length_le_iff (by omega) n).mpr less

theorem length_deltaNote (id : McpId) (turn : UInt32) (thought : Bool) (text : Bytes) :
    (deltaNote (jbWire id.value) turn thought text).length ≤ 6 * maxId + deltaFrame + 6 * text.length := by
  have wire := id.length_jbWire
  have digits : (utilDecimal turn.toNat).length ≤ 10 := length_utilDecimal_le (by decide) (by have := turn.toNat_lt; omega)
  have escaped := length_jbEscape text
  have kind : (if thought then ascii "reasoning" else ascii "text").length ≤ 9 := by
    cases thought <;> decide
  have head : (ascii
      "data: \x7b\"jsonrpc\":\"2.0\",\"method\":\"notifications/askai/delta\",\"params\":\x7b\"requestId\":").length ≤ 83 := by
    decide
  have first : (ascii ",\"turn\":").length = 8 := by decide
  have second : (ascii ",\"kind\":\"").length = 9 := by decide
  have third : (ascii "\",\"text\":\"").length = 10 := by decide
  have last : (ascii "\"\x7d\x7d\n\n").length = 5 := by decide
  have frame : deltaFrame = 256 := rfl
  rw [deltaNote]
  simp only [length_append]
  omega

theorem JsonDigits.space_le {text : Bytes} (digits : JsonDigits text) : ∀ c ∈ text, space ≤ c := by
  intro c among
  have is := digits.2 c among
  rw [digit, Bool.and_eq_true, decide_eq_true_iff] at is
  exact UInt8.le_trans (by decide) is.1

theorem JsonNumber.space_le {text : Bytes} (number : JsonNumber text) : ∀ c ∈ text, space ≤ c := by
  obtain ⟨sign, integer, fraction, exponent, rfl, signs, ⟨digits, -⟩, fractions, exponents⟩ := number
  simp only [mem_append, or_imp, forall_and]
  refine ⟨⟨⟨?_, digits.space_le⟩, ?_⟩, ?_⟩
  · obtain rfl | rfl := signs <;> exact forall_of_all (by decide)
  · obtain rfl | ⟨some_, rfl, digits⟩ := fractions
    · exact forall_of_all (by decide)
    · exact forall_mem_cons.mpr ⟨by decide, digits.space_le⟩
  · obtain rfl | ⟨e, sign, some_, rfl, es, signs, digits⟩ := exponents
    · exact forall_of_all (by decide)
    · simp only [cons_append, mem_cons, mem_append, or_imp, forall_and, forall_eq]
      refine ⟨?_, ?_, digits.space_le⟩
      · obtain rfl | rfl := es <;> decide
      · obtain rfl | rfl | rfl := signs <;> exact forall_of_all (by decide)

theorem space_le_jbEscape (text : Bytes) : ∀ c ∈ jbEscape text, space ≤ c := by
  have all : ∀ n < 256, (jbEscapeByte (UInt8.ofNat n)).all (fun c => space ≤ c) = true := by decide +kernel
  intro c among
  obtain ⟨b, -, here⟩ := mem_flatMap.mp among
  exact forall_of_all (all b.toNat b.toNat_lt) c (by rwa [UInt8.ofNat_toNat])

theorem McpId.space_le (id : McpId) : ∀ c ∈ jbWire id.value, space ≤ c := by
  obtain ⟨value, valid, text, number⟩ := id
  cases value with
  | string t =>
    change ∀ c ∈ quote :: jbEscape t ++ [quote], space ≤ c
    simp only [cons_append, mem_cons, mem_append, not_mem_nil, or_imp, forall_and, forall_eq]
    exact ⟨by decide, space_le_jbEscape t, by decide, nofun⟩
  | number t => exact (number t rfl).1.space_le
  | _ => exact nomatch valid

theorem deltaNote_json (id : McpId) (turn : UInt32) (thought : Bool) (cs : List Char) :
    ∃ text name, deltaNote (jbWire id.value) turn thought (utf8 cs) = ascii "data: " ++ text ++ [lf, lf] ∧
      id.Names name ∧ JsonText text (deltaJson name turn (thought, cs)) ∧ ∀ c ∈ text, space ≤ c := by
  obtain ⟨name, names, wire⟩ := id.jsonText
  have plain : ∀ {t : String}, jbEscape (ascii t) = ascii t → JsonString (jsonQuoted (ascii t)) t.toList :=
    fun same => jsonString_plain _ same
  have kind : JsonText (jsonQuoted (if thought then ascii "reasoning" else ascii "text"))
      (.string (if thought then "reasoning" else "text").toList) := by
    cases thought
    · exact .string (plain (by decide))
    · exact .string (plain (by decide))
  have params := JsonText.object (.more (JsonMember.plain (plain (t := "requestId") (by decide)) wire)
    (.more (JsonMember.plain (plain (t := "turn") (by decide)) (.number (jsonNumber_utilDecimal turn.toNat)))
      (.more (JsonMember.plain (plain (t := "kind") (by decide)) kind)
        (.last (JsonMember.plain (plain (t := "text") (by decide)) (.string (jsonString_escape cs)))))))
  have json := JsonText.object (.more (JsonMember.plain (plain (t := "jsonrpc") (by decide))
      (.string (plain (t := "2.0") (by decide))))
    (.more (JsonMember.plain (plain (t := "method") (by decide))
        (.string (plain (t := "notifications/askai/delta") (by decide))))
      (.last (JsonMember.plain (plain (t := "params") (by decide)) params))))
  have head : ascii
      "data: \x7b\"jsonrpc\":\"2.0\",\"method\":\"notifications/askai/delta\",\"params\":\x7b\"requestId\":" =
      ascii "data: " ++ 123 :: (jsonQuoted (ascii "jsonrpc") ++ 58 :: jsonQuoted (ascii "2.0") ++
        44 :: (jsonQuoted (ascii "method") ++ 58 :: jsonQuoted (ascii "notifications/askai/delta") ++
          44 :: (jsonQuoted (ascii "params") ++ 58 :: 123 :: (jsonQuoted (ascii "requestId") ++ [58])))) := by
    decide
  have first : ascii ",\"turn\":" = 44 :: (jsonQuoted (ascii "turn") ++ [58]) := by decide
  have second : ascii ",\"kind\":\"" = 44 :: (jsonQuoted (ascii "kind") ++ [58, quote]) := by decide
  have third : ascii "\",\"text\":\"" = quote :: 44 :: (jsonQuoted (ascii "text") ++ [58, quote]) := by decide
  have last : ascii "\"\x7d\x7d\n\n" = [quote, 125, 125] ++ [lf, lf] := by decide
  have line : ∀ c ∈ ascii
      "data: \x7b\"jsonrpc\":\"2.0\",\"method\":\"notifications/askai/delta\",\"params\":\x7b\"requestId\":" ++
      (jbWire id.value ++ (ascii ",\"turn\":" ++ (utilDecimal turn.toNat ++ (ascii ",\"kind\":\"" ++
        ((if thought then ascii "reasoning" else ascii "text") ++ (ascii "\",\"text\":\"" ++
          (jbEscape (utf8 cs) ++ [quote, 125, 125]))))))), space ≤ c := by
    simp only [mem_append, or_imp, forall_and]
    refine ⟨forall_of_all (by decide), id.space_le, forall_of_all (by decide),
      (jsonNumber_utilDecimal _).space_le, forall_of_all (by decide), ?_, forall_of_all (by decide),
      space_le_jbEscape _, forall_of_all (by decide)⟩
    cases thought <;> exact forall_of_all (by decide)
  rw [deltaNote, last]
  rw [head, first, second, third] at line ⊢
  generalize (if thought then ascii "reasoning" else ascii "text") = spelled at *
  refine ⟨_, name, ?_, names, json, fun c among => line c ?_⟩
  · rw [jsonQuoted.eq_1 (jbEscape _), jsonQuoted.eq_1 spelled]
    simp only [append_assoc, cons_append, nil_append]
  · rw [jsonQuoted.eq_1 (jbEscape _), jsonQuoted.eq_1 spelled] at among
    simp only [append_assoc, cons_append, nil_append] at among ⊢
    exact mem_append_right _ among

/-! ## The place in the mailbox -/

/-- Where a front is in a mailbox, and what it has told of it. -/
inductive DeltaAt (pieces : List DeltaPiece) (at_ read : Nat) (said : List (Bool × UInt8)) : Prop
  | last (at_ : at_ = (deltaBytes pieces).length) (said : said = tagged pieces)
  | inside (front back : List DeltaPiece) (p : DeltaPiece) (before rest : Bytes) (split : pieces = front ++ p :: back)
      (text : p.text = before ++ rest) (some_ : rest ≠ []) (whole : IsUtf8 rest) (at_ : at_ = (deltaBytes front).length)
      (read : read = before.length) (said : said = tagged front ++ before.map (p.thought, ·))

theorem tagged_append (l m : List DeltaPiece) : tagged (l ++ m) = tagged l ++ tagged m :=
  flatMap_append

theorem tagged_cons (p : DeltaPiece) (l : List DeltaPiece) : tagged (p :: l) = p.text.map (p.thought, ·) ++ tagged l :=
  flatMap_cons

theorem told_append (l m : List DeltaSaid) : told (l ++ m) = told l ++ told m :=
  flatMap_append

theorem DeltaAt.told_all {pieces : List DeltaPiece} {at_ read : Nat} {said : List (Bool × UInt8)}
    (here : DeltaAt pieces at_ read said) : said <+: tagged pieces := by
  cases here with
  | last at_ said => rw [said]
  | inside front back p before rest split text some_ whole at_ read said =>
    refine ⟨rest.map (p.thought, ·) ++ tagged back, ?_⟩
    rw [said, split, tagged_append, tagged_cons, text, map_append]
    simp only [append_assoc]

/-- Where a piece begins, or the mailbox ends. -/
theorem DeltaAt.begins {pieces : List DeltaPiece} (fit : ∀ p ∈ pieces, p.Fit) {l m : List DeltaPiece}
    (split : pieces = l ++ m) : DeltaAt pieces (deltaBytes l).length 0 (tagged l) := by
  cases m with
  | nil =>
    rw [append_nil] at split
    subst split
    exact .last rfl rfl
  | cons p m =>
    have fits := fit p (by rw [split]; exact mem_append_right _ mem_cons_self)
    exact .inside l m p [] p.text split rfl fits.some_ fits.text rfl rfl (append_nil _).symm

/-- Past some characters of the rest of a piece. -/
theorem DeltaAt.past {pieces front back : List DeltaPiece} (fit : ∀ p ∈ pieces, p.Fit) {p : DeltaPiece}
    {before rest : Bytes} (split : pieces = front ++ p :: back) (text : p.text = before ++ rest) {n : Nat}
    (few : n ≤ rest.length) (whole : IsUtf8 (rest.drop n)) {req : DeltaReq} (at_ : req.at_ = (deltaBytes front).length)
    (read : req.read = before.length) : DeltaAt pieces (req.past p.text.length n).at_ (req.past p.text.length n).read
      (tagged front ++ before.map (p.thought, ·) ++ (rest.take n).map (p.thought, ·)) := by
  rw [DeltaReq.past, read, at_]
  by_cases all : before.length + n = p.text.length
  · rw [if_pos all]
    rw [text, length_append] at all
    rw [take_of_length_le (by omega), append_assoc, ← map_append, ← text]
    have next := DeltaAt.begins fit (l := front ++ [p]) (m := back) (by rw [split, append_assoc]; rfl)
    rw [deltaBytes_append, deltaBytes_cons, tagged_append, tagged_cons, length_append, length_append,
      p.length_bytes] at next
    simpa only [deltaBytes, tagged, flatMap_nil, length_nil, Nat.add_zero, append_nil] using next
  · rw [if_neg all]
    rw [text, length_append] at all
    refine .inside front back p (before ++ rest.take n) (rest.drop n) split ?_ ?_ whole rfl ?_ ?_
    · rw [append_assoc, take_append_drop, text]
    · intro none_
      have := drop_eq_nil_iff.mp none_
      omega
    · rw [length_append, length_take, Nat.min_eq_left few]
    · rw [map_append, append_assoc]

/-- What the loop reads inside a piece. -/
theorem deltaBytes_reads {pieces front back : List DeltaPiece} {p : DeltaPiece} (fits : p.Fit) {before rest : Bytes}
    (split : pieces = front ++ p :: back) (text : p.text = before ++ rest) :
    (deltaBytes front).length < (deltaBytes pieces).length ∧
      (readWord ((deltaBytes pieces).drop (deltaBytes front).length)).toNat = p.text.length ∧
      decide (readWord ((deltaBytes pieces).drop ((deltaBytes front).length + 4)) ≠ 0) = p.thought ∧
      ((deltaBytes pieces).drop ((deltaBytes front).length + 8 + before.length)).take (p.text.length - before.length) =
        rest := by
  have all : deltaBytes pieces = deltaBytes front ++ (p.bytes ++ deltaBytes back) := by
    rw [split, deltaBytes_append, deltaBytes_cons]
  have small : p.text.length < UInt32.size := Nat.lt_of_le_of_lt fits.short (by decide)
  rw [all, length_append, length_append, p.length_bytes, Nat.add_assoc _ 8 before.length, drop_left,
    drop_length_add_append, drop_length_add_append, DeltaPiece.bytes]
  refine ⟨by omega, ?_, ?_, ?_⟩
  · rw [append_assoc, append_assoc, readWord_wordBytes]
    exact UInt32.toNat_ofNat_of_lt' small
  · rw [append_assoc]
    change decide (readWord (wordBytes (if p.thought then 1 else 0) ++ (p.text ++ deltaBytes back)) ≠ 0) = _
    rw [readWord_wordBytes]
    cases p.thought <;> rfl
  · change (List.drop (8 + before.length)
      (wordBytes (UInt32.ofNat p.text.length) ++ wordBytes (if p.thought then 1 else 0) ++ p.text ++ _)).take _ = _
    have eight : (wordBytes (UInt32.ofNat p.text.length) ++ wordBytes (if p.thought then 1 else 0)).length = 8 := rfl
    rw [append_assoc _ p.text, ← eight, drop_length_add_append, text, append_assoc, drop_left,
      length_append, Nat.add_sub_cancel_left, take_left]
/-! ## A step -/

section Stepping

variable {pieces : List DeltaPiece} {id : McpId} {turn : UInt32} {req : DeltaReq} {notes : List DeltaSaid}

/-- What holds of a front at every moment, when its notifications said `notes`. -/
structure DeltaReq.Told (pieces : List DeltaPiece) (id : McpId) (turn : UInt32) (req : DeltaReq)
    (notes : List DeltaSaid) : Prop where
  tells : List.Forall₂ (fun note said => note.Tells id turn said) req.sent notes
  said : told notes <+: tagged pieces
  goes : req.delta = true → DeltaAt pieces req.at_ req.read (told notes) ∧ req.drains = 0 ∧ req.ended = false
  stops : req.delta = false → req.drains = 0 ∧ req.ended = true ∨ req.drains = 1 ∧ told notes = tagged pieces

/-- A step that could write is queued. -/
def DeltaReq.Queued (req : DeltaReq) : Prop :=
  req.delta = true → req.blocked = false → req.ready = true

/-- What an event leaves that is `good` if it can write, where the mailbox had been drained `drains` times. -/
structure DeltaReq.Stepped (pieces : List DeltaPiece) (id : McpId) (turn : UInt32) (after : DeltaReq) (drains : Nat)
    (good : Prop) (notes more : List DeltaSaid) : Prop where
  told : after.Told pieces id turn (notes ++ more)
  queued : after.Queued
  drained : drains < after.drains → after.blocked = false
  progress : good → more ≠ [] ∨ after.delta = false

theorem DeltaReq.Told.stays (holds : req.Told pieces id turn notes) (queued : req.Queued) {good : Prop} (not : ¬ good) :
    req.Stepped pieces id turn req.drains good notes [] :=
  ⟨by rwa [append_nil], queued, fun more => absurd more (Nat.lt_irrefl _), fun is => absurd is not⟩

/-- The request ends. -/
theorem DeltaReq.Told.aborts (holds : req.Told pieces id turn notes) {r : DeltaReq} (sent : r.sent = req.sent)
    (drains : r.drains = req.drains) (good : Prop) : r.abort.Stepped pieces id turn req.drains good notes [] := by
  refine ⟨?_, (fun goes => nomatch goes), fun more => absurd more (drains ▸ Nat.lt_irrefl _), fun _ => .inr rfl⟩
  rw [append_nil]
  refine ⟨sent ▸ holds.tells, holds.said, (fun goes => nomatch goes), fun _ => ?_⟩
  cases delta : req.delta with
  | true => exact .inl ⟨drains.trans (holds.goes delta).2.1, rfl⟩
  | false => exact (holds.stops delta).imp (fun ends => ⟨drains.trans ends.1, rfl⟩) fun all => ⟨drains.trans all.1, all.2⟩

/-- What a turn of the loop takes. -/
theorem deltaTake_spec {room : DeltaRoom} {rest : Bytes} (whole : IsUtf8 rest) (takes : deltaTake room rest ≠ 0) :
    deltaTake room rest ≤ rest.length ∧ deltaTake room rest ≤ deltaText ∧
      6 * maxId + deltaFrame + 6 * deltaTake room rest ≤ room.send ∧ IsUtf8 (rest.take (deltaTake room rest)) ∧
      IsUtf8 (rest.drop (deltaTake room rest)) := by
  obtain ⟨few, short⟩ := utilClip_le rest (min (min room.escape ((room.send - (6 * maxId + deltaFrame)) / 6)) deltaText)
  obtain ⟨front, back⟩ := whole.clip (min (min room.escape ((room.send - (6 * maxId + deltaFrame)) / 6)) deltaText)
  refine ⟨short, Nat.le_trans few (Nat.min_le_right _ _), ?_, front, back⟩
  have share : deltaTake room rest ≤ (room.send - (6 * maxId + deltaFrame)) / 6 :=
    Nat.le_trans few (Nat.le_trans (Nat.min_le_left _ _) (Nat.min_le_right _ _))
  omega

/-- With a fresh share there is room for a character. -/
theorem DeltaRoom.Fresh.takes {room : DeltaRoom} (fresh : room.Fresh) {rest : Bytes} (whole : IsUtf8 rest)
    (some_ : rest ≠ []) : deltaTake room rest ≠ 0 := by
  obtain ⟨escape, send⟩ := fresh
  have length := length_pos_iff.mpr some_
  have text : deltaText = 8192 := rfl
  rw [deltaTake]
  generalize least : min (min room.escape ((room.send - (6 * maxId + deltaFrame)) / 6)) deltaText = most
  have four : 4 ≤ most := by omega
  by_cases long : most < rest.length
  · have close := whole.lt_clip long
    omega
  · rw [utilClip, if_pos (Nat.not_lt.mp long)]
    omega

/-- A turn of the loop inside a piece. -/
theorem mcpReqDeltaFrom_inside {front back : List DeltaPiece} {p : DeltaPiece} (fits : p.Fit) {before rest : Bytes}
    (split : pieces = front ++ p :: back) (text : p.text = before ++ rest) (answers : Nat → DeltaAnswer) (k : Nat)
    (room : DeltaRoom) {req : DeltaReq} (at_ : req.at_ = (deltaBytes front).length) (read : req.read = before.length) :
    mcpReqDeltaFrom (deltaBytes pieces) (jbWire id.value) turn answers k room req = if req.blocked then req
      else if deltaTake room rest = 0 then { req with ready := true } else let n := deltaTake room rest
        let note := deltaNote (jbWire id.value) turn p.thought (rest.take n)
        match answers k with
        | .enomem => req.abort
        | .failed => (req.past p.text.length n).abort
        | .taken again work =>
          mcpReqDeltaFrom (deltaBytes pieces) (jbWire id.value) turn answers (k + 1)
            ⟨room.escape - n, room.send - note.length - work⟩
            { req.past p.text.length n with sent := req.sent ++ [⟨note, room.send⟩], blocked := again } := by
  obtain ⟨less, len, thought, left⟩ := deltaBytes_reads fits split text
  rw [← at_] at less len thought left
  rw [← read] at left
  rw [mcpReqDeltaFrom, dif_pos less, len, thought]
  dsimp only
  rw [left]
  rfl

/-- The notification of a turn. -/
theorem deltaNote_tells {room : DeltaRoom} {rest : Bytes} (whole : IsUtf8 rest) (takes : deltaTake room rest ≠ 0)
    (thought : Bool) : ∃ cs, rest.take (deltaTake room rest) = utf8 cs ∧
      DeltaNote.Tells ⟨deltaNote (jbWire id.value) turn thought (rest.take (deltaTake room rest)), room.send⟩ id turn
        (thought, cs) := by
  obtain ⟨few, short, share, ⟨cs, chars⟩, -⟩ := deltaTake_spec whole takes
  have length : (rest.take (deltaTake room rest)).length = deltaTake room rest := by
    rw [length_take, Nat.min_eq_left few]
  refine ⟨cs, chars, ?_, ?_, ?_, ?_⟩
  · have json := deltaNote_json id turn thought cs
    rwa [utf8, ← chars] at json
  · rintro rfl
    rw [chars] at length
    exact takes length.symm
  · rw [utf8, ← chars, length]
    exact short
  · have fits := length_deltaNote id turn thought (rest.take (deltaTake room rest))
    rw [length] at fits
    exact Nat.le_trans fits share

theorem mcpReqDeltaFrom_blocked (blocked : req.blocked = true) (mailbox wire : Bytes) (answers : Nat → DeltaAnswer)
    (k : Nat) (room : DeltaRoom) : mcpReqDeltaFrom mailbox wire turn answers k room req = req := by
  rw [mcpReqDeltaFrom]
  split <;> rfl

theorem DeltaReq.past_same (req : DeltaReq) (len n : Nat) : (req.past len n).sent = req.sent ∧
    (req.past len n).drains = req.drains ∧ (req.past len n).ended = req.ended ∧ (req.past len n).delta = req.delta := by
  rw [DeltaReq.past]
  split <;> exact ⟨rfl, rfl, rfl, rfl⟩

/-- The loop, from any place in the mailbox on. -/
theorem mcpReqDeltaFrom_stepped (fit : ∀ p ∈ pieces, p.Fit) (answers : Nat → DeltaAnswer) (left : Nat) :
    ∀ (k : Nat) (room : DeltaRoom) {req : DeltaReq} {notes : List DeltaSaid},
      (tagged pieces).length - (told notes).length = left → req.Told pieces id turn notes → req.delta = true →
      ∃ more, (mcpReqDeltaFrom (deltaBytes pieces) (jbWire id.value) turn answers k room req).Stepped pieces id turn
        req.drains (room.Fresh ∧ req.blocked = false) notes more := by
  induction left using Nat.strong_induction_on with
  | _ left ih =>
    intro k room req notes size holds delta
    obtain ⟨here, drains, going⟩ := holds.goes delta
    by_cases blocked : req.blocked = true
    · rw [mcpReqDeltaFrom_blocked blocked]
      have not : req.blocked ≠ false := by rw [blocked]; decide
      exact ⟨[], holds.stays (fun _ free => absurd free not) fun good => not good.2⟩
    cases here with
    | last at_ all =>
      rw [mcpReqDeltaFrom, dif_neg (by rw [at_]; exact Nat.lt_irrefl _), if_neg blocked]
      refine ⟨[], ?_, (fun goes => nomatch goes), fun _ => Bool.eq_false_of_not_eq_true blocked, fun _ => .inr rfl⟩
      rw [append_nil]
      exact ⟨holds.tells, holds.said, (fun goes => nomatch goes), fun _ => .inr ⟨congrArg Nat.succ drains, all⟩⟩
    | inside front back p before rest split text some_ whole at_ read is =>
      have fits := fit p (by rw [split]; exact mem_append_right _ mem_cons_self)
      rw [mcpReqDeltaFrom_inside fits split text answers k room at_ read, if_neg blocked]
      by_cases takes : deltaTake room rest = 0
      · rw [if_pos takes]
        have told : ({ req with ready := true } : DeltaReq).Told pieces id turn notes :=
          ⟨holds.tells, holds.said, holds.goes, holds.stops⟩
        exact ⟨[], told.stays (fun _ _ => rfl) fun good => absurd takes (good.1.takes whole some_)⟩
      · rw [if_neg takes]
        obtain ⟨few, -, -, -, behind⟩ := deltaTake_spec whole takes
        obtain ⟨cs, chars, tells⟩ := deltaNote_tells whole takes p.thought
        obtain ⟨sent, drained, ended, same⟩ := req.past_same p.text.length (deltaTake room rest)
        have next := DeltaAt.past fit split text few behind at_ read
        dsimp only
        cases answers k with
        | enomem => exact ⟨[], holds.aborts rfl rfl _⟩
        | failed => exact ⟨[], holds.aborts sent drained _⟩
        | taken again work =>
          have now : told (notes ++ [(p.thought, cs)]) =
              tagged front ++ before.map (p.thought, ·) ++ (rest.take (deltaTake room rest)).map (p.thought, ·) := by
            rw [told_append, is, chars]
            exact congrArg _ (append_nil _)
          have less : (told notes).length < (told (notes ++ [(p.thought, cs)])).length := by
            rw [now, ← is, length_append, length_map, length_take, Nat.min_eq_left few]
            omega
          rw [← now] at next
          have total := next.told_all.length_le
          have told : DeltaReq.Told pieces id turn { req.past p.text.length (deltaTake room rest) with
              sent := req.sent ++ [⟨deltaNote (jbWire id.value) turn p.thought (rest.take (deltaTake room rest)), room.send⟩],
              blocked := again } (notes ++ [(p.thought, cs)]) :=
            ⟨rel_append holds.tells (.cons tells .nil), next.told_all,
              fun _ => ⟨next, drained.trans drains, ended.trans going⟩,
              fun stopped => nomatch (same.trans delta).symm.trans stopped⟩
          obtain ⟨more, told, queued, free, -⟩ := ih _ (by omega) (k + 1) ⟨_, _⟩ rfl told (same.trans delta)
          exact ⟨(p.thought, cs) :: more, by rwa [append_assoc] at told, queued, fun grows => free (drained ▸ grows),
            fun _ => .inl (cons_ne_nil _ _)⟩

/-- An event. -/
theorem DeltaReq.Told.next (fit : ∀ p ∈ pieces, p.Fit) (holds : req.Told pieces id turn notes) (queued : req.Queued)
    (e : DeltaEvent) : ∃ more, (req.next (deltaBytes pieces) (jbWire id.value) turn e).Stepped pieces id turn req.drains
      (req.Good e) notes more := by
  have same : ∀ {r : DeltaReq}, r.sent = req.sent → r.at_ = req.at_ → r.read = req.read → r.drains = req.drains →
      r.ended = req.ended → r.delta = req.delta → r.Told pieces id turn notes := by
    intro r sent at_ read drains ended delta
    constructor
    · exact sent ▸ holds.tells
    · exact holds.said
    · rw [delta, at_, read, drains, ended]
      exact holds.goes
    · rw [delta, drains, ended]
      exact holds.stops
  cases e with
  | step memory room answers =>
    rw [DeltaReq.next]
    by_cases goes : req.ready ∧ req.delta
    · rw [if_pos goes, mcpReqDelta]
      cases memory with
      | false => exact ⟨[], holds.aborts (r := { req with ready := false }) rfl rfl _⟩
      | true =>
        obtain ⟨more, told, ready, drained, progress⟩ := mcpReqDeltaFrom_stepped fit answers _ 0 room rfl
          (same (r := { req with ready := false }) rfl rfl rfl rfl rfl rfl) goes.2
        exact ⟨more, told, ready, drained, fun good => progress ⟨good.2.2.2, good.2.2.1⟩⟩
    · rw [if_neg goes]
      exact ⟨[], holds.stays queued fun good => goes ⟨good.1, good.2.1⟩⟩
  | block => exact ⟨[], (same (r := { req with blocked := true }) rfl rfl rfl rfl rfl rfl).stays (fun _ free => nomatch free) False.elim⟩
  | writable => exact ⟨[], (same (r := { req with blocked := false, tick := true, ready := true }) rfl rfl rfl rfl rfl rfl).stays (fun _ _ => rfl) False.elim⟩
  | timer => exact ⟨[], (same (r := { req with tick := true, ready := true }) rfl rfl rfl rfl rfl rfl).stays (fun _ _ => rfl) False.elim⟩
  | wake => exact ⟨[], (same (r := { req with ready := true }) rfl rfl rfl rfl rfl rfl).stays (fun _ _ => rfl) False.elim⟩
  | end_ => exact ⟨[], holds.aborts rfl rfl _⟩

/-! ## A run -/

theorem DeltaReq.Told.start (fit : ∀ p ∈ pieces, p.Fit) (blocked tick : Bool) :
    DeltaReq.Told pieces id turn { blocked, tick } [] :=
  ⟨.nil, nil_prefix, fun _ => ⟨DeltaAt.begins fit (nil_append _).symm, rfl, rfl⟩, fun goes => nomatch goes⟩

/-- No step counts once the mailbox is told or the request has ended. -/
theorem goodSteps_stopped (mailbox wire : Bytes) (events : List DeltaEvent) :
    ∀ {req : DeltaReq}, req.delta = false → goodSteps mailbox wire turn req events = 0 := by
  induction events with
  | nil => exact fun _ => rfl
  | cons e events ih =>
    intro req stopped
    have not : req.delta ≠ true := by rw [stopped]; decide
    rw [goodSteps, ih, if_neg]
    · cases e with
      | step memory room answers => exact fun good => not good.2.1
      | _ => exact fun good => good
    · cases e with
      | step memory room answers =>
        rw [DeltaReq.next, if_neg fun goes => not goes.2]
        exact stopped
      | end_ => rfl
      | _ => exact stopped

/-- A run. -/
theorem DeltaReq.Told.run (fit : ∀ p ∈ pieces, p.Fit) (events : List DeltaEvent) :
    ∀ {req : DeltaReq} {notes : List DeltaSaid}, req.Told pieces id turn notes → req.Queued →
      ∃ more, (req.run (deltaBytes pieces) (jbWire id.value) turn events).Told pieces id turn (notes ++ more) ∧
        (req.run (deltaBytes pieces) (jbWire id.value) turn events).Queued ∧
        goodSteps (deltaBytes pieces) (jbWire id.value) turn req events ≤ more.length + 1 := by
  induction events with
  | nil => exact fun holds queued => ⟨[], by rwa [append_nil], queued, Nat.zero_le _⟩
  | cons e events ih =>
    intro req notes holds queued
    obtain ⟨first, told, ready, -, progress⟩ := holds.next fit queued e
    obtain ⟨rest, ends, queue, steps⟩ := ih told ready
    refine ⟨first ++ rest, by rwa [← append_assoc], queue, ?_⟩
    rw [goodSteps, length_append]
    by_cases good : req.Good e
    · rw [if_pos good]
      rcases progress good with some_ | stopped
      · have := length_pos_iff.mpr some_
        omega
      · rw [goodSteps_stopped _ _ events stopped]
        omega
    · rw [if_neg good]
      omega

end Stepping

end Askai
