import Askai.Util.Buf
import Askai.Util.Utf8

/-!
# Streamed tool calls

The tool calls of a streamed answer, which come in pieces (`home_put_call` of `home.c`), and how a job
stores them (`struct job_call` of `job.h`).
-/

namespace Askai

open Library

/-- `JOB_CALLS`. -/
abbrev jobCalls : Nat := 16

/-- `AI_CALL_NEXT`. -/
abbrev aiCallNext : UInt32 := 0xffffffff

/-- `struct ai_call`. -/
structure AiCall where
  id : Bytes := []
  name : Bytes := []
  extra : Bytes := []
  args : Bytes := []
  index : UInt32 := 0
  deriving DecidableEq

/-- `struct job_call`. -/
structure JobCall where
  index : UInt32 := 0
  replay : UInt32 := 0
  id : UInt32 := 0
  name : UInt32 := 0
  extra : UInt32 := 0
  args : UInt32 := 0
  deriving DecidableEq

/-- A `uint32_t` as memory has it. -/
def wordBytes (w : UInt32) : Bytes :=
  let n := w.toNat
  [UInt8.ofNat n, UInt8.ofNat (n / 2 ^ 8), UInt8.ofNat (n / 2 ^ 16), UInt8.ofNat (n / 2 ^ 24)]

/-- The `uint32_t` at the start of some memory. -/
def readWord (p : Bytes) : UInt32 :=
  UInt32.ofNat ((p.getD 0 0).toNat + 2 ^ 8 * (p.getD 1 0).toNat + 2 ^ 16 * (p.getD 2 0).toNat +
    2 ^ 24 * (p.getD 3 0).toNat)

namespace JobCall

/-- `sizeof (struct job_call)`. -/
abbrev size : Nat := 24

/-- The header as memory has it. -/
def bytes (c : JobCall) : Bytes :=
  wordBytes c.index ++ wordBytes c.replay ++ wordBytes c.id ++ wordBytes c.name ++
    wordBytes c.extra ++ wordBytes c.args

/-- The header at the start of some memory. -/
def read (p : Bytes) : JobCall where
  index := readWord p
  replay := readWord (p.drop 4)
  id := readWord (p.drop 8)
  name := readWord (p.drop 12)
  extra := readWord (p.drop 16)
  args := readWord (p.drop 20)

end JobCall

/-- `job_call_parts`. -/
def jobCallParts (p : Bytes) : JobCall × AiCall :=
  let call := JobCall.read p
  let id := p.drop JobCall.size
  let extra := id.drop (call.id.toNat + call.name.toNat)
  (call,
    { id := id.take call.id.toNat
      name := (id.drop call.id.toNat).take call.name.toNat
      extra := extra.take call.extra.toNat
      args := (extra.drop call.extra.toNat).take call.args.toNat
      index := call.index })

/-- What `home_put_call` uses of a job: whether the front asks `JOB_TOOLS`, and the buffers of the
calls. -/
structure CallJob where
  tools : Bool := true
  calls : Nat → Buf := fun _ => {}

/-- What decides beside a piece: what `home_thought_end` returns, the bytes of the job's replay, and
whether there is memory. -/
structure CallShare where
  thought : Int := 0
  replay : Nat := 0
  memory : Bool := true

inductive CallError where
  | thought (e : Int)
  | eproto
  | eilseq
  | buf (e : BufError)
  deriving DecidableEq

/-- What the loop of `home_put_call` keeps: `n`, `k`, `bytes`, `c` and `last`. -/
structure CallScan where
  n : Nat := 0
  k : Nat := jobCalls
  bytes : Nat := 0
  c : JobCall := {}
  last : AiCall := {}

namespace CallJob

/-- The loop of `home_put_call`, over so many buffers more. -/
def scan (job : CallJob) (index : UInt32) : Nat → CallScan → CallScan
  | 0, s => s
  | left + 1, s =>
    let p := (job.calls s.n).bytes
    if p = [] then s
    else
      let (c, last) := jobCallParts p
      job.scan index left
        { n := s.n + 1, k := if c.index = index then s.n else s.k, bytes := s.bytes + p.length,
          c, last }

/-- The end of `home_put_call`: `piece` is what is new of the piece, which belongs to the call in
buffer `k`, whose header is `c` and has `head` bytes to be added. -/
def append (job : CallJob) (share : CallShare) (bytes k head : Nat) (c : JobCall) (piece : AiCall) :
    CallJob × Except CallError Unit :=
  let later := c.extra ≠ 0 ∨ c.args ≠ 0
  if (piece.id ≠ [] ∧ (c.name ≠ 0 ∨ later)) ∨ ((piece.name ≠ [] ∨ piece.extra ≠ []) ∧ later) then
    (job, .error .eproto)
  else if jbUtf8 piece.id < piece.id.length ∨ jbUtf8 piece.name < piece.name.length ∨
      jbUtf8 piece.extra < piece.extra.length ∨ jbUtf8 piece.args < piece.args.length then
    (job, .error .eilseq)
  else
    let len := head + piece.id.length + piece.name.length + piece.extra.length + piece.args.length
    if len = 0 then (job, .ok ())
    else
      match bufReserve share.memory (job.calls k) len
          (maxResponse - (bytes - (job.calls k).bytes.length)) with
      | .error e => (job, .error (.buf e))
      | .ok (buf, _) =>
        let text := piece.id ++ piece.name ++ piece.extra ++ piece.args
        let buf := buf.commit (List.replicate head 0 ++ text)
        let c :=
          { c with
            id := c.id + UInt32.ofNat piece.id.length
            name := c.name + UInt32.ofNat piece.name.length
            extra := c.extra + UInt32.ofNat piece.extra.length
            args := c.args + UInt32.ofNat piece.args.length }
        let buf := { buf with bytes := c.bytes ++ buf.bytes.drop JobCall.size }
        ({ job with calls := Function.update job.calls k buf }, .ok ())

end CallJob

/-- A part of a piece, but for one that repeats what is stored. -/
def unlessStored (stored part : Bytes) : Bytes :=
  if stored = part then [] else part

/-- `home_put_call`, as far as the buffers of the calls go. -/
def CallJob.putCall (job : CallJob) (share : CallShare) (call : AiCall) : CallJob × Except CallError Unit :=
  if share.thought ≠ 0 then (job, .error (.thought share.thought))
  else if job.tools = false then (job, .ok ())
  else
    let s := job.scan call.index jobCalls {}
    let next := call.index = aiCallNext
    let continues := next ∧ s.n ≠ 0 ∧ (call.id = [] ∨ s.last.id = call.id)
    let index := if next then UInt32.ofNat s.n else call.index
    let k := if continues then s.n - 1 else s.k
    let id := if continues then [] else call.id
    if k < s.n then
      let (c, stored) := if k + 1 = s.n then (s.c, s.last) else jobCallParts (job.calls k).bytes
      job.append share s.bytes k 0 c
        { id := if stored.id = call.id then [] else id
          name := unlessStored stored.name call.name
          extra := unlessStored stored.extra call.extra
          args := call.args }
    else if s.n = jobCalls then (job, .error .eproto)
    else
      job.append share s.bytes s.n JobCall.size { index, replay := UInt32.ofNat share.replay }
        { call with id }

end Askai

/-!
# Tool calls as they are stored

The buffers of a job's tool calls hold one packed record each: a header with the lengths of the parts,
and the parts behind one another.
-/

namespace Askai

open Library

/-! ## Headers -/

theorem readWord_wordBytes (w : UInt32) (rest : Bytes) : readWord (wordBytes w ++ rest) = w := by
  have bytes : (UInt8.ofNat w.toNat).toNat + 2 ^ 8 * (UInt8.ofNat (w.toNat / 2 ^ 8)).toNat +
      2 ^ 16 * (UInt8.ofNat (w.toNat / 2 ^ 16)).toNat +
      2 ^ 24 * (UInt8.ofNat (w.toNat / 2 ^ 24)).toNat = w.toNat := by
    have small := w.toNat_lt
    simp only [UInt8.toNat_ofNat']
    omega
  exact (congrArg UInt32.ofNat bytes).trans UInt32.ofNat_toNat

theorem JobCall.bytes_length (c : JobCall) : c.bytes.length = JobCall.size := rfl

theorem JobCall.read_bytes (c : JobCall) (rest : Bytes) : JobCall.read (c.bytes ++ rest) = c := by
  have index := readWord_wordBytes c.index
  rw [JobCall.read, JobCall.bytes]
  congr 1
  · simpa only [List.append_assoc] using index _
  · exact readWord_wordBytes c.replay _
  · exact readWord_wordBytes c.id _
  · exact readWord_wordBytes c.name _
  · exact readWord_wordBytes c.extra _
  · exact readWord_wordBytes c.args _

/-! ## Records -/

/-- A stored call: the bytes of the replay before it, and its parts. -/
structure ToolCall where
  replay : UInt32
  call : AiCall

namespace ToolCall

def header (t : ToolCall) : JobCall where
  index := t.call.index
  replay := t.replay
  id := UInt32.ofNat t.call.id.length
  name := UInt32.ofNat t.call.name.length
  extra := UInt32.ofNat t.call.extra.length
  args := UInt32.ofNat t.call.args.length

def text (t : ToolCall) : Bytes :=
  t.call.id ++ t.call.name ++ t.call.extra ++ t.call.args

def bytes (t : ToolCall) : Bytes :=
  t.header.bytes ++ t.text

variable {t : ToolCall}

theorem length_text (t : ToolCall) : t.text.length =
    t.call.id.length + t.call.name.length + t.call.extra.length + t.call.args.length := by
  rw [text, List.length_append, List.length_append, List.length_append]

theorem length_bytes (t : ToolCall) : t.bytes.length = JobCall.size + t.text.length := by
  rw [bytes, List.length_append, JobCall.bytes_length]

theorem bytes_ne_nil (t : ToolCall) : t.bytes ≠ [] :=
  List.cons_ne_nil _ _

theorem drop_bytes (t : ToolCall) : t.bytes.drop JobCall.size = t.text :=
  List.drop_left' (JobCall.bytes_length _)

/-- The lengths of the parts of a record that an answer may hold are as its header has them. -/
theorem lengths (fits : t.bytes.length ≤ maxResponse) :
    t.header.id.toNat = t.call.id.length ∧ t.header.name.toNat = t.call.name.length ∧
      t.header.extra.toNat = t.call.extra.length ∧ t.header.args.toNat = t.call.args.length := by
  have most : maxResponse < UInt32.size := by decide
  rw [length_bytes, length_text] at fits
  refine ⟨UInt32.toNat_ofNat_of_lt' ?_, UInt32.toNat_ofNat_of_lt' ?_, UInt32.toNat_ofNat_of_lt' ?_,
    UInt32.toNat_ofNat_of_lt' ?_⟩
  all_goals omega

/-- What is read of a record is its parts. -/
theorem parts (fits : t.bytes.length ≤ maxResponse) : jobCallParts t.bytes = (t.header, t.call) := by
  have header : JobCall.read t.bytes = t.header := JobCall.read_bytes ..
  obtain ⟨ids, names, extras, arguments⟩ := lengths fits
  rw [jobCallParts, header, drop_bytes, ids, names, extras, arguments]
  have id : t.text.take t.call.id.length = t.call.id := by
    rw [ToolCall.text, List.append_assoc, List.append_assoc, List.take_left]
  have name : (t.text.drop t.call.id.length).take t.call.name.length = t.call.name := by
    rw [ToolCall.text, List.append_assoc, List.append_assoc, List.drop_left, List.take_left]
  have extra : t.text.drop (t.call.id.length + t.call.name.length) = t.call.extra ++ t.call.args := by
    rw [ToolCall.text, List.append_assoc]
    exact List.drop_left' (List.length_append ..)
  rw [id, name, extra, List.take_left, List.drop_left, List.take_length]
  rfl

end ToolCall

end Askai
