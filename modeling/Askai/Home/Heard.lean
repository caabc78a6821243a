import Askai.Home.Notified
import Askai.Sse.Feed

/-!
# What the client hears of a mailbox

The notifications that a front writes, in any pieces on their way, as the client's parser of event streams hands them on.
-/

namespace Askai

open Library List

/-- The lines of events that have a line of data each. -/
def eventLines (texts : List Bytes) : List Bytes :=
  texts.flatMap fun text => [ascii "data: " ++ text, []]

theorem readLine_data {text : Bytes} (line : ∀ c ∈ text, space ≤ c) (done : List Bytes) :
    readLine (readLine (done, []) (ascii "data: " ++ text)) [] = (done ++ [text], []) := by
  have field : ascii "data: " = dataField ++ [space] := by decide
  have trim : sseTrim (ascii "data: " ++ text) = ascii "data: " ++ text := by
    rw [sseTrim, if_neg]
    intro last
    rcases mem_append.mp (mem_of_getLast? last) with front | back
    · exact absurd front (by decide)
    · exact absurd (line cr back) (by decide)
  have data : sseField (ascii "data: " ++ text) = some text := by
    rw [field, append_assoc, sseField, if_pos (prefix_append _ _), sseData, if_pos (prefix_append _ _)]
    rfl
  have first : readLine (done, []) (ascii "data: " ++ text) = (done, [text]) := by rw [readLine, trim, data]; rfl
  rw [first]
  change (done ++ [[lf].intercalate [text]], []) = _
  rw [intercalate_singleton]

theorem readLines_eventLines {texts : List Bytes} (lines : ∀ text ∈ texts, ∀ c ∈ text, space ≤ c) :
    readLines (eventLines texts) = (texts, []) := by
  induction texts using List.reverseRecOn with
  | nil => rfl
  | append_singleton texts text ih =>
    obtain ⟨before, last⟩ := forall_mem_append.mp lines
    rw [readLines, eventLines, flatMap_append, foldl_append]
    change readLine (readLine (readLines (eventLines texts)) (ascii "data: " ++ text)) [] = _
    rw [ih before, readLine_data (last text mem_cons_self)]

/-- The events that notifications are. -/
theorem sent_eq_eventLines {id : McpId} {turn : UInt32} {sent : List DeltaNote} {notes : List DeltaSaid}
    (tells : List.Forall₂ (fun note said => note.Tells id turn said) sent notes) : ∃ texts,
      List.Forall₂ (fun text said => ∃ name, id.Names name ∧ JsonText text (deltaJson name turn said)) texts notes ∧
      sent.flatMap DeltaNote.bytes = closed lf (eventLines texts) ∧ ∀ text ∈ texts, ∀ c ∈ text, space ≤ c := by
  induction tells with
  | nil => exact ⟨[], .nil, rfl, nofun⟩
  | cons first rest ih =>
    obtain ⟨texts, json, same, lines⟩ := ih
    obtain ⟨text, name, bytes, names, here, line⟩ := first.json
    refine ⟨text :: texts, .cons ⟨name, names, here⟩ json, ?_, forall_mem_cons.mpr ⟨line, lines⟩⟩
    rw [flatMap_cons, same, bytes]
    change _ = closed lf ([ascii "data: " ++ text, []] ++ eventLines texts)
    rw [closed_append, closed_cons, closed_cons]
    simp only [append_assoc, cons_append, nil_append]
    rfl

namespace Sse

variable {σ : Type*} {event : Bytes → σ → Nat × σ} {user : σ}

/-- With a callback that does not fail, what is left of the input has no whole line. -/
theorem Fed.feeds_whole (succeeds : ∀ text u, (event text u).1 = 0) (pieces : List Bytes) :
    ∀ {stream : Bytes} {sse : Sse σ} {lines : List Bytes}, Fed event user stream sse lines → lf ∉ sse.input →
      ∃ lines', Fed event user (stream ++ pieces.flatten) (sseFeeds event sse pieces) lines' ∧
        lf ∉ (sseFeeds event sse pieces).input := by
  induction pieces with
  | nil =>
    intro stream sse lines fed whole
    exact ⟨lines, by rwa [flatten_nil, append_nil], whole⟩
  | cons piece pieces ih =>
    intro stream sse lines fed whole
    obtain ⟨more, fed', all, fails⟩ := fed.feed piece
    have fine : (sseFeed event sse piece).1 = 0 := by
      by_contra failed
      obtain ⟨before, blank, -, -, text, u, -, error⟩ := fails failed
      exact failed (error.symm.trans (succeeds text u))
    obtain ⟨lines', fed'', whole'⟩ := ih fed' (all fine)
    refine ⟨lines', ?_, whole'⟩
    rw [flatten_cons, ← append_assoc]
    exact fed''

end Sse

/-- Whatever home publishes and whatever happens to the front and its transport, and in whatever pieces the bytes that the
transport took reach the client: the client's parser hands on the notifications that were written, each once and in order,
each as one JSON text, and these say the mailbox from its start, all of it once the mailbox is drained. -/
theorem delta_reaches_client {σ : Type*} (event : Bytes → σ → σ) (user : σ) (id : McpId) (turn : UInt32) (job : DeltaJob)
    (puts : List DeltaPut) (blocked tick : Bool) (events : List DeltaEvent) :
    let home := DeltaJob.puts { job with delta := { job.delta with bytes := [] } } puts
    let start : DeltaReq := { blocked, tick }
    let req := start.run home.1.delta.bytes (jbWire id.value) turn events
    ∃ notes texts,
      List.Forall₂ (fun text said => ∃ name, id.Names name ∧ JsonText text (deltaJson name turn said)) texts notes ∧
      told notes <+: tagged home.2 ∧ (req.drains = 1 → told notes = tagged home.2) ∧
      ∀ pieces : List Bytes, pieces.flatten = req.sent.flatMap DeltaNote.bytes →
        let sse := Sse.sseFeeds (fun text u => (0, event text u)) { user } pieces
        sse.given = texts ∧ sse.user = texts.foldl (fun u text => event text u) user ∧ sse.input = [] ∧ sse.data = [] := by
  intro home start req
  obtain ⟨mailbox, fit⟩ := DeltaJob.puts_spec puts (k := { job with delta := { job.delta with bytes := [] } }) (l := []) rfl
  rw [nil_append] at mailbox
  have begins : start.Told home.2 id turn [] := .start fit blocked tick
  obtain ⟨notes, holds, -, -⟩ := begins.run fit events fun _ _ => rfl
  rw [← mailbox, nil_append] at holds
  obtain ⟨texts, json, sent, lines⟩ := sent_eq_eventLines holds.tells
  refine ⟨notes, texts, json, holds.said, fun drained => ?_, fun pieces whole => ?_⟩
  · cases delta : req.delta with
    | true => exact absurd ((holds.goes delta).2.1.symm.trans drained) (by decide)
    | false =>
      obtain ⟨none_, -⟩ | ⟨-, all⟩ := holds.stops delta
      · exact absurd (none_.symm.trans drained) (by decide)
      · exact all
  · intro sse
    obtain ⟨read, ⟨split, lone, given, data, users⟩, rest⟩ :=
      (Sse.fed_start (fun text u => (0, event text u)) user).feeds_whole (fun _ _ => rfl) pieces not_mem_nil
    rw [nil_append, whole, sent] at split
    have unbroken : ∀ line ∈ eventLines texts, lf ∉ line := by
      intro line among
      obtain ⟨text, inside, here⟩ := mem_flatMap.mp among
      obtain rfl | rfl := mem_pair.mp here
      · intro broken
        rcases mem_append.mp broken with front | back
        · exact absurd front (by decide)
        · exact absurd (lines text inside lf back) (by decide)
      · exact not_mem_nil
    have same := congrArg (List.splitOn lf) split
    rw [← append_nil (closed lf (eventLines texts)), splitOn_closed unbroken not_mem_nil, splitOn_closed lone rest] at same
    obtain ⟨rfl, left⟩ := append_inj' same rfl
    rw [readLines_eventLines lines] at given data
    refine ⟨given, ?_, (List.cons.inj left).1.symm, data⟩
    rw [users, given]

end Askai
