import Askai.Httpd.Accepted
import Askai.Httpd.Output

/-!
# Responses as they are told

A response as the application tells it: its head, and the pieces of its data. What the server queues
for one whose data goes in chunks is a chunked body, and no part of it is one before the end.
-/

namespace Askai

open Library HttpdOutput List

/-! ## Sizes in hexadecimal -/

theorem hexDigit_value {n : Nat} (small : n < 16) : Hex ((ascii "0123456789abcdef").getD n 0) ∧
      hexValue ((ascii "0123456789abcdef").getD n 0) = n := by
  have all : ∀ n < 16, Hex ((ascii "0123456789abcdef").getD n 0) ∧
      hexValue ((ascii "0123456789abcdef").getD n 0) = n := by
    decide
  exact all n small

theorem hexNumber_append (n : Nat) (front back : Bytes) :
    hexNumber n (front ++ back) = hexNumber (hexNumber n front) back :=
  foldl_append

/-- The digits of a number say it. -/
theorem httpdHex_digits (n : Nat) : httpdHex n ≠ [] ∧ (∀ c ∈ httpdHex n, Hex c) ∧ hexNumber 0 (httpdHex n) = n := by
  induction n using Nat.strong_induction_on with
  | _ n ih =>
    rw [httpdHex]
    split
    · next small =>
        obtain ⟨hex, value⟩ := hexDigit_value small
        refine ⟨cons_ne_nil _ _, fun c mem => ?_, ?_⟩
        · rw [mem_singleton.mp mem]
          exact hex
        · change 16 * 0 + hexValue _ = n
          rw [value, Nat.mul_zero, Nat.zero_add]
    · next large =>
        obtain ⟨-, hexes, number⟩ := ih (n / 16) (by omega)
        obtain ⟨hex, value⟩ := hexDigit_value (Nat.mod_lt n (by decide : 16 > 0))
        refine ⟨by simp, fun c mem => ?_, ?_⟩
        · rcases mem_append.mp mem with mem | mem
          · exact hexes c mem
          · rw [mem_singleton.mp mem]
            exact hex
        · rw [hexNumber_append, number]
          change 16 * (n / 16) + hexValue _ = n
          rw [value]
          exact Nat.div_add_mod n 16

theorem length_httpdHex {n k : Nat} (small : n < 16 ^ (k + 1)) : (httpdHex n).length ≤ k + 1 := by
  induction k generalizing n with
  | zero =>
    rw [httpdHex, if_pos (show n < 16 by simpa using small)]
    exact Nat.le_refl _
  | succ k ih =>
    rw [httpdHex]
    split
    · exact Nat.succ_le_succ (Nat.zero_le _)
    · rw [length_append, length_singleton]
      refine Nat.succ_le_succ (ih ?_)
      rw [Nat.div_lt_iff_lt_mul (by decide)]
      exact small

/-! ## Responses -/

/-- An application's response: its head, whether its data goes in chunks, and the pieces of it. -/
structure Response where
  head : Bytes
  chunks : Bool
  pieces : List Bytes
  filled : ∀ piece ∈ pieces, piece ≠ []

namespace Response

def data (a : Response) : Bytes :=
  a.pieces.flatten

/-- What is queued behind the head for the data. -/
def body (a : Response) : Bytes :=
  a.pieces.flatMap (dataBytes a.chunks)

/-- What is queued for the whole of it. -/
def bytes (a : Response) : Bytes :=
  a.head ++ (a.body ++ endBytes a.chunks)

/-- Without chunks, the bytes behind the head are the data. -/
theorem body_plain {a : Response} (plain : a.chunks = false) : a.body ++ endBytes a.chunks = a.data := by
  rw [body, plain, endBytes, data, flatMap_def]
  have same : dataBytes false = id := rfl
  rw [same, map_id]
  exact append_nil _

end Response

/-- The chunk that a piece of data goes in. -/
def pieceChunk (piece : Bytes) (some_ : piece ≠ []) : Chunk where
  line :=
    { digits := httpdHex piece.length
      blanks := []
      ext := none
      some_ := (httpdHex_digits piece.length).1
      hex := (httpdHex_digits piece.length).2.1
      white := nofun
      clear := nofun }
  data := piece
  some_ := some_
  sized := (httpdHex_digits piece.length).2.2

theorem pieceChunk_bytes (piece : Bytes) (some_ : piece ≠ []) :
    (pieceChunk piece some_).bytes = dataBytes true piece := by
  have line : (pieceChunk piece some_).line.bytes = httpdHex piece.length := by
    change httpdHex piece.length ++ ([] ++ []) = _
    rw [append_nil, append_nil]
  rw [Chunk.bytes, line, dataBytes, if_pos rfl]
  simp only [append_assoc]
  rfl

namespace Response

/-- The chunks of a response. -/
def toChunks (a : Response) : List Chunk :=
  a.pieces.attach.map fun piece => pieceChunk piece.1 (a.filled piece.1 piece.2)

theorem toChunks_bytes {a : Response} (chunks : a.chunks = true) : chunksBytes a.toChunks = a.body := by
  rw [body, chunks, chunksBytes, toChunks, flatMap_map]
  simp only [pieceChunk_bytes]
  exact flatMap_subtype (fun piece _ => rfl) |>.trans (by rw [unattach_attach])

theorem toChunks_data (a : Response) : chunksData a.toChunks = a.data := by
  rw [data, chunksData, toChunks, flatMap_map]
  calc
    _ = a.pieces.attach.unattach.flatMap id := flatMap_subtype fun piece _ => rfl
    _ = a.pieces.flatten := by rw [unattach_attach, flatMap_id]

/-- The chunked body of a response that has ended. -/
def toBody (a : Response) : ChunkedBody where
  chunks := a.toChunks
  last :=
    { digits := [48]
      blanks := []
      ext := none
      some_ := nofun
      hex := by
        intro c mem
        rw [mem_singleton.mp mem]
        decide
      white := nofun
      clear := nofun }
  trailer := []
  zero := by decide

theorem toBody_bytes {a : Response} (chunks : a.chunks = true) : a.toBody.bytes = a.body ++ endBytes a.chunks := by
  rw [ChunkedBody.bytes, toBody, toChunks_bytes chunks, chunks]
  rfl

theorem toBody_data (a : Response) : a.toBody.data = a.data :=
  a.toChunks_data

/-- It is within the limits that let as much data in. -/
theorem toBody_within (a : Response) {lim : HttpdLimits} (small : lim.body < sizeWrap)
    (fits : a.data.length ≤ lim.body) (head : 2 ≤ lim.head) : a.toBody.Within lim where
  lines := by
    intro c mem
    obtain ⟨piece, -, rfl⟩ := mem_map.mp mem
    have inside : piece.1.length ≤ a.data.length :=
      (sublist_flatten_of_mem piece.2).length_le
    have digits : (httpdHex piece.1.length).length ≤ 15 + 1 := by
      apply length_httpdHex
      change lim.body < 2 ^ 64 at small
      omega
    change (httpdHex piece.1.length ++ ([] ++ [])).length + 2 ≤ 1024
    rw [append_nil, append_nil]
    omega
  last := by
    change ([48] ++ ([] ++ []) : Bytes).length + 2 ≤ chunkLine
    decide
  head := head
  fields := Nat.zero_le _
  body := by
    rw [toBody_data]
    exact fits

end Response

/-! ## What a cut response is not -/

/-- The digits of a size line are those its bytes begin with. -/
theorem SizeLine.takeWhile (l : SizeLine) : l.bytes.takeWhile (fun c => decide (Hex c)) = l.digits := by
  have hex : ∀ c ∈ l.digits, decide (Hex c) = true := fun c mem => decide_eq_true (l.hex c mem)
  rw [SizeLine.bytes, takeWhile_append_of_pos hex]
  cases behind : l.blanks ++ l.after with
  | nil => simp
  | cons c rest =>
    have other := l.other c (by rw [behind]; rfl)
    rw [takeWhile_cons_of_neg (by rw [decide_eq_true_iff]; exact other), append_nil]

/-- Chunks alone are no body, nor do they begin with one. -/
theorem chunks_not_body (chunks : List Chunk) (b : ChunkedBody) (rest : Bytes) :
    chunksBytes chunks ≠ b.bytes ++ rest := by
  induction chunks generalizing b with
  | nil =>
    intro same
    have none_ := (append_eq_nil_iff.mp same.symm).1
    rw [ChunkedBody.bytes] at none_
    simp [crlf] at none_
  | cons c chunks ih =>
    intro same
    have first : chunksBytes (c :: chunks) = c.line.bytes ++ cr :: lf :: (c.data ++ (crlf ++ chunksBytes chunks)) := by
      rw [chunksBytes, flatMap_cons, Chunk.bytes]
      simp [crlf, chunksBytes]
    cases begins : b.chunks with
    | nil =>
      have last : b.bytes ++ rest = b.last.bytes ++ cr :: lf :: (trailerBytes b.trailer ++ (crlf ++ rest)) := by
        rw [b.bytes_nil begins]
        simp [crlf]
      obtain ⟨line, -⟩ := line_unique c.line.not_mem b.last.not_mem (first.symm.trans (same.trans last))
      have digits : c.line.digits = b.last.digits := by
        rw [← c.line.takeWhile, line, b.last.takeWhile]
      have size : c.line.size = b.last.size := by rw [SizeLine.size, digits, SizeLine.size]
      rw [c.sized, b.zero] at size
      exact c.some_ (length_eq_zero_iff.mp size)
    | cons c' chunks' =>
      have next : b.bytes ++ rest = c'.line.bytes ++ cr :: lf :: (c'.data ++ (crlf ++ (b.behind.bytes ++ rest))) := by
        rw [b.bytes_cons begins]
        simp [crlf]
      obtain ⟨line, behind⟩ := line_unique c.line.not_mem c'.line.not_mem (first.symm.trans (same.trans next))
      have digits : c.line.digits = c'.line.digits := by
        rw [← c.line.takeWhile, line, c'.line.takeWhile]
      have size : c.line.size = c'.line.size := by rw [SizeLine.size, digits, SizeLine.size]
      rw [c.sized, c'.sized] at size
      obtain ⟨-, after⟩ := append_inj behind size
      exact ih b.behind (append_cancel_left after)

/-- However the chunks of a response are sliced, no part of them is taken for a whole body. -/
theorem Response.body_open (a : Response) (chunks : a.chunks = true) {lim : HttpdLimits}
    (small : lim.body < sizeWrap) {req : HttpdReq} (begins : ChunkedBegins req) {stream : Bytes}
    (front : stream <+: a.body) {calls : List (Nat × (Nat → Bool))} {b : HttpdBody}
    (done : httpdConnSlices lim { req, rest := stream } calls = .ok b) : b.req.bodyIn = false := by
  rw [Bool.eq_false_iff]
  intro in_
  obtain ⟨body, whole, -⟩ := accepted_body small begins done in_
  obtain ⟨back, same⟩ := front
  rw [whole, append_assoc, ← toChunks_bytes chunks] at same
  exact chunks_not_body _ _ _ same.symm

end Askai
