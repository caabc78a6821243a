import Askai.Autocomplete.Model

/-!
# Lists of Compiler Explorer

How the elements of a JSON array are parsed in slices (`godbolt_array_next` and `godbolt_list_parse` of
`godbolt.c`), with a tokener that can be fed a value in parts.
-/

namespace Askai

open Library List

/-- `GODBOLT_ELEMENT_MAX`. -/
abbrev godboltElementMax : Nat := 4096

/-- The state of the parse of a list: `GODBOLT_LIST_OPEN` is `start`, and `GODBOLT_LIST_END` is `last`. -/
inductive GodboltList where
  | start | first | value | next | comma | last | bad
  deriving DecidableEq

/-- The list is not parsed any further. -/
def GodboltList.ended : GodboltList → Bool
  | .last => true
  | .bad => true
  | _ => false

/-- What `json_tokener_parse_ex` returns: a value, with `json_tokener_get_parse_end`, or
`json_tokener_continue`, or another error. -/
inductive Token (V : Type*) where
  | success (v : V) (took : Nat)
  | more
  | error

/-- A tokener: its state after `json_tokener_reset`, and what it makes of text. -/
structure Tokener (τ V : Type*) where
  reset : τ
  parse : τ → Bytes → Token V × τ

/-- What the element function does: its error, the state of the list, which it may end, and the rest of the
call. -/
structure ElementDone (σ : Type*) where
  error : Nat := 0
  list : GodboltList := .next
  call : σ
  ends : list = .next ∨ list.ended := by decide

theorem ElementDone.outside {σ : Type*} (done : ElementDone σ) : done.list ≠ .value := by
  intro value
  obtain next | ended := done.ends
  · exact nomatch value.symm.trans next
  · rw [value] at ended
    exact nomatch ended

/-- The part of `struct godbolt` that the parse uses, with the rest of the call, and the elements handed over
so far. -/
structure GodboltCall (τ V σ : Type*) where
  off : Nat := 0
  start : Nat := 0
  list : GodboltList := .start
  tok : τ
  call : σ
  elements : List V := []
  deriving DecidableEq

namespace GodboltCall

variable {τ V σ : Type*} (T : Tokener τ V) (fn : σ → V → ElementDone σ) (body : Bytes)

/-- The state of the list after a byte outside an element. -/
def after (s : GodboltList) (c : UInt8) : GodboltList :=
  if cstrViewSpace c then s
  else if s = .start then if c = 91 then .first else .bad
  else if c = 93 ∧ s ≠ .comma then .last
  else if s ≠ .next then .value
  else if c = 44 then .comma else .bad

/-- `godbolt_array_next`. -/
def godboltArrayNext (call : GodboltCall τ V σ) : GodboltCall τ V σ × Nat :=
  let list := after call.list (body.getD call.off 0)
  let consumed := if list ≠ .value then 1 else 0
  ({ call with start := call.off, list, off := call.off + consumed }, consumed)

/-- The parse of the element under way, as far as `room` bytes of it. -/
def godboltElement (call : GodboltCall τ V σ) (room : Nat) : Nat × GodboltCall τ V σ × Nat :=
  let part := (body.drop call.off).take room
  let (token, tok) := T.parse call.tok part
  let took := match token with
    | .success _ n => n
    | _ => part.length
  let call := { call with off := call.off + took, tok }
  match token with
  | .error => (0, { call with list := .bad }, took)
  | .more =>
    (0, if godboltElementMax < call.off - call.start then { call with list := .bad } else call, took)
  | .success v _ =>
    if godboltElementMax < call.off - call.start then (0, { call with list := .bad }, took)
    else
      let done := fn call.call v
      (done.error, { call with
        tok := T.reset
        list := done.list
        call := done.call
        elements := call.elements ++ [v] }, took)

/-- One iteration of the loop of `godbolt_list_parse`: the error, and the bytes that it used. -/
def parseOnce (call : GodboltCall τ V σ) (room : Nat) : Nat × GodboltCall τ V σ × Nat :=
  if call.list ≠ .value then (0, godboltArrayNext body call) else godboltElement T fn body call room

/-- The loop of `godbolt_list_parse`, with as many iterations as `fuel` at most. -/
def parseLoop (room : Nat) : Nat → GodboltCall τ V σ → Nat → Nat × GodboltCall τ V σ
  | 0, call, _ => (0, call)
  | fuel + 1, call, used =>
    if call.list.ended = false ∧ used < room ∧ call.off < body.length then
      let (e, call, n) := parseOnce T fn body call (room - used)
      if e ≠ 0 then (e, call) else parseLoop room fuel call (used + n)
    else (0, call)

/-- How far the state is from one that takes a byte. -/
def rank : GodboltList → Nat
  | .start | .first | .comma => 2
  | .value => 1
  | .next | .last | .bad => 0

/-- An iteration leaves less of this. -/
def work (call : GodboltCall τ V σ) : Nat :=
  3 * (body.length - call.off) + rank call.list

/-- `godbolt_list_parse`, where `godbolt_parse_room` is `room`. -/
def godboltListParse (call : GodboltCall τ V σ) (room : Nat) : Nat × GodboltCall τ V σ :=
  let (e, call) := parseLoop T fn body room (work body call + 1) call 0
  if e = 0 ∧ call.list.ended = false ∧ call.off = body.length then (e, { call with list := .bad }) else (e, call)

/-- Steps one after the other until the parse ends, with the room of each: none if they are too few. -/
def parseSteps : List Nat → GodboltCall τ V σ → Option (Nat × GodboltCall τ V σ)
  | [], _ => none
  | room :: rooms, call =>
    let (e, call) := godboltListParse T fn body call room
    if e ≠ 0 ∨ call.list.ended then some (e, call) else parseSteps rooms call

end GodboltCall

/-! ## What a list holds -/

/-- What is read of a value after `n` bytes of it. -/
def Token.shift {V : Type*} (n : Nat) : Token V → Token V
  | .success v took => .success v (n + took)
  | token => token

theorem Token.shift_zero {V : Type*} (token : Token V) : token.shift 0 = token := by
  cases token with
  | success v took => rw [Token.shift, Nat.zero_add]
  | more => rfl
  | error => rfl

theorem Token.shift_shift {V : Type*} (token : Token V) (m n : Nat) :
    (token.shift m).shift n = token.shift (n + m) := by
  cases token with
  | success v took => rw [Token.shift, Token.shift, Token.shift, Nat.add_assoc]
  | more => rfl
  | error => rfl

theorem Token.shift_more {V : Type*} {token : Token V} {n : Nat} (more : token.shift n = .more) : token = .more := by
  cases token with
  | success | error => exact nomatch more
  | more => rfl

theorem Token.shift_success {V : Type*} {token : Token V} {n k : Nat} {v : V} (success : token.shift n = .success v k) :
    ∃ took, token = .success v took ∧ k = n + took := by
  cases token with
  | success w took =>
    obtain ⟨rfl, rfl⟩ := Token.success.inj success
    exact ⟨took, rfl, rfl⟩
  | more | error => exact nomatch success

theorem Token.shift_error {V : Type*} {token : Token V} {n : Nat} (error : token.shift n = .error) :
    token = .error := by
  cases token with
  | success | more => exact nomatch error
  | error => rfl

/-- A tokener reads a value the same way however its text is cut. -/
structure Tokener.Alike {τ V : Type*} (T : Tokener τ V) : Prop where
  more : ∀ t u a b, T.parse t a = (.more, u) → T.parse t (a ++ b) = ((T.parse u b).1.shift a.length, (T.parse u b).2)
  success : ∀ t a b v n, (T.parse t a).1 = .success v n → (T.parse t (a ++ b)).1 = .success v n
  error : ∀ t a b, (T.parse t a).1 = .error → (T.parse t (a ++ b)).1 = .error
  within : ∀ t a v n, (T.parse t a).1 = .success v n → n ≤ a.length

/-- The call after a list, with its elements. -/
structure ListEnd (V σ : Type*) where
  error : Nat
  list : GodboltList
  call : σ
  elements : List V

/-- What the text after a state of a list makes of the call: a list is read from its start to its end. -/
inductive ReadsList {τ V σ : Type*} (T : Tokener τ V) (fn : σ → V → ElementDone σ) :
    GodboltList → Bytes → σ → List V → ListEnd V σ → Prop
  | ended (s : GodboltList) (text : Bytes) (u : σ) (vs : List V) (ended : s.ended) :
      ReadsList T fn s text u vs ⟨0, s, u, vs⟩
  | short (s : GodboltList) (u : σ) (vs : List V) (active : s.ended = false) (outside : s ≠ .value) :
      ReadsList T fn s [] u vs ⟨0, .bad, u, vs⟩
  | byte (s : GodboltList) (c : UInt8) (text : Bytes) (u : σ) (vs : List V) (done : ListEnd V σ)
      (active : s.ended = false) (outside : s ≠ .value)
      (rest : ReadsList T fn (GodboltCall.after s c)
        (if GodboltCall.after s c = .value then c :: text else text) u vs done) :
      ReadsList T fn s (c :: text) u vs done
  | bad (text : Bytes) (u : σ) (vs : List V)
      (refused : ∀ v n, (T.parse T.reset text).1 = .success v n → godboltElementMax < n) :
      ReadsList T fn .value text u vs ⟨0, .bad, u, vs⟩
  | stop (text : Bytes) (u : σ) (vs : List V) (v : V) (n : Nat)
      (success : (T.parse T.reset text).1 = .success v n) (short : n ≤ godboltElementMax)
      (fails : (fn u v).error ≠ 0) :
      ReadsList T fn .value text u vs ⟨(fn u v).error, (fn u v).list, (fn u v).call, vs ++ [v]⟩
  | element (text : Bytes) (u : σ) (vs : List V) (v : V) (n : Nat) (done : ListEnd V σ)
      (success : (T.parse T.reset text).1 = .success v n) (short : n ≤ godboltElementMax)
      (goes : (fn u v).error = 0)
      (rest : ReadsList T fn (fn u v).list (text.drop n) (fn u v).call (vs ++ [v]) done) :
      ReadsList T fn .value text u vs done

namespace ReadsList

variable {τ V σ : Type*} {T : Tokener τ V} {fn : σ → V → ElementDone σ} {s : GodboltList} {text : Bytes} {u : σ}
  {vs : List V} {done : ListEnd V σ}

/-- The text decides. -/
theorem unique (reads : ReadsList T fn s text u vs done) {done' : ListEnd V σ}
    (reads' : ReadsList T fn s text u vs done') : done = done' := by
  induction reads with
  | ended s text u vs ended =>
    cases reads' with
    | ended => rfl
    | short _ _ _ active => exact nomatch (ended.symm.trans active)
    | byte _ _ _ _ _ _ active => exact nomatch (ended.symm.trans active)
    | bad | stop | element => exact nomatch ended
  | short s u vs active outside =>
    cases reads' with
    | ended _ _ _ _ ended => exact nomatch (ended.symm.trans active)
    | short => rfl
    | bad | stop | element => exact absurd rfl outside
  | byte s c text u vs done active outside rest ih =>
    cases reads' with
    | ended _ _ _ _ ended => exact nomatch (ended.symm.trans active)
    | byte _ _ _ _ _ _ _ _ rest' => exact ih rest'
    | bad | stop | element => exact absurd rfl outside
  | bad text u vs refused =>
    cases reads' with
    | ended _ _ _ _ ended => exact nomatch ended
    | short _ _ _ _ outside => exact absurd rfl outside
    | byte _ _ _ _ _ _ _ outside => exact absurd rfl outside
    | bad => rfl
    | stop _ _ _ v n success short => exact absurd (refused v n success) (Nat.not_lt.mpr short)
    | element _ _ _ v n _ success short => exact absurd (refused v n success) (Nat.not_lt.mpr short)
  | stop text u vs v n success short fails =>
    cases reads' with
    | ended _ _ _ _ ended => exact nomatch ended
    | short _ _ _ _ outside => exact absurd rfl outside
    | byte _ _ _ _ _ _ _ outside => exact absurd rfl outside
    | bad _ _ _ refused => exact absurd (refused v n success) (Nat.not_lt.mpr short)
    | stop _ _ _ w m success' =>
      obtain ⟨rfl, rfl⟩ := Token.success.inj (success.symm.trans success')
      rfl
    | element _ _ _ w m _ success' _ goes =>
      obtain ⟨rfl, rfl⟩ := Token.success.inj (success.symm.trans success')
      exact absurd goes fails
  | element text u vs v n done success short goes rest ih =>
    cases reads' with
    | ended _ _ _ _ ended => exact nomatch ended
    | short _ _ _ _ outside => exact absurd rfl outside
    | byte _ _ _ _ _ _ _ outside => exact absurd rfl outside
    | bad _ _ _ refused => exact absurd (refused v n success) (Nat.not_lt.mpr short)
    | stop _ _ _ w m success' _ fails =>
      obtain ⟨rfl, rfl⟩ := Token.success.inj (success.symm.trans success')
      exact absurd goes fails
    | element _ _ _ w m _ success' _ _ rest' =>
      obtain ⟨rfl, rfl⟩ := Token.success.inj (success.symm.trans success')
      exact ih rest'

end ReadsList

namespace GodboltCall

variable {τ V σ : Type*} {T : Tokener τ V} {fn : σ → V → ElementDone σ} {body : Bytes} {call : GodboltCall τ V σ}

/-- The text from the element under way on, or from the next byte on. -/
def ahead (body : Bytes) (call : GodboltCall τ V σ) : Bytes :=
  if call.list = .value then body.drop call.start else body.drop call.off

/-- The tokener has read an element up to the offset. -/
def InElement (T : Tokener τ V) (text : Bytes) (n : Nat) (tok : τ) : Prop :=
  n = 0 ∧ tok = T.reset ∨ T.parse T.reset (text.take n) = (.more, tok)

/-- What holds between two steps. -/
structure Paused (T : Tokener τ V) (body : Bytes) (call : GodboltCall τ V σ) : Prop where
  within : call.off ≤ body.length
  fresh : call.list ≠ .value → call.list.ended = false → call.tok = T.reset
  element : call.list = .value → call.start ≤ call.off ∧ call.start < body.length ∧
    call.off - call.start ≤ godboltElementMax ∧
    InElement T (body.drop call.start) (call.off - call.start) call.tok

/-- What the call comes to from here on. -/
abbrev ReadsOn (T : Tokener τ V) (fn : σ → V → ElementDone σ) (body : Bytes) (call : GodboltCall τ V σ)
    (done : ListEnd V σ) : Prop :=
  ReadsList T fn call.list (call.ahead body) call.call call.elements done

/-- The end of a call. -/
def ending (r : Nat × GodboltCall τ V σ) : ListEnd V σ :=
  ⟨r.1, r.2.list, r.2.call, r.2.elements⟩

theorem InElement.resume (alike : T.Alike) {text : Bytes} {n : Nat} {tok : τ} (inElement : InElement T text n tok)
    (within : n ≤ text.length) (room : Nat) : T.parse T.reset (text.take (n + room)) =
      ((T.parse tok ((text.drop n).take room)).1.shift n, (T.parse tok ((text.drop n).take room)).2) := by
  obtain ⟨rfl, rfl⟩ | begun := inElement
  · rw [Nat.zero_add, drop_zero]
    rw [Token.shift_zero]
  · rw [take_add, alike.more _ _ _ _ begun, length_take_of_le within]

variable {room : Nat}

theorem godboltElement_reads (alike : T.Alike) (paused : Paused T body call) (value : call.list = .value)
    (unread : call.off < body.length) (roomy : 1 ≤ room) :
    let r := godboltElement T fn body call room
    (r.1 ≠ 0 → ReadsOn T fn body call (ending (r.1, r.2.1))) ∧
      (r.1 = 0 → Paused T body r.2.1 ∧ ∀ done, ReadsOn T fn body r.2.1 done → ReadsOn T fn body call done) := by
  obtain ⟨off, start, list, tok, u, vs⟩ := call
  obtain ⟨within, -, element⟩ := paused
  dsimp only at value within element unread
  rw [value] at element ⊢
  obtain ⟨order, inside, short, inElement⟩ := element rfl
  obtain ⟨n, rfl⟩ : ∃ n, off = start + n := ⟨off - start, by omega⟩
  rw [Nat.add_sub_cancel_left] at inElement short
  obtain ⟨text, textIs⟩ : ∃ text, text = body.drop start := ⟨_, rfl⟩
  have textLength : text.length = body.length - start := by rw [textIs, length_drop]
  have rest : body.drop (start + n) = text.drop n := by rw [textIs, drop_drop]
  rw [← textIs] at inElement
  have resumed := inElement.resume alike (by omega) room
  have split := take_append_drop (n + room) text
  obtain ⟨part, partIs⟩ : ∃ part, part = (text.drop n).take room := ⟨_, rfl⟩
  have partLength : part.length = min room (text.length - n) := by
    rw [partIs, length_take, length_drop]
  rw [← partIs] at resumed
  have bad : (∀ v k, (T.parse T.reset text).1 = .success v k → godboltElementMax < k) →
      ∀ tok' off' done, ReadsOn T fn body (⟨off', start, .bad, tok', u, vs⟩ : GodboltCall τ V σ) done →
        ReadsOn T fn body (⟨start + n, start, .value, tok, u, vs⟩ : GodboltCall τ V σ) done := by
    intro refused tok' off' done reads
    obtain rfl := reads.unique (.ended _ _ _ _ rfl)
    rw [ReadsOn, ahead, if_pos rfl, ← textIs]
    exact .bad _ _ _ refused
  rcases parsed : T.parse tok part with ⟨token, tok'⟩
  rw [parsed] at resumed
  simp only [godboltElement, rest, ← partIs, parsed]
  cases token with
  | error =>
    refine ⟨fun fails => absurd rfl fails, fun _ => ⟨⟨?_, nofun, nofun⟩, bad ?_ _ _⟩⟩
    · dsimp only
      omega
    · intro v k success
      have refused := alike.error T.reset _ (text.drop (n + room)) (congrArg Prod.fst resumed)
      rw [split, success] at refused
      cases refused
  | more =>
    refine ⟨fun fails => absurd rfl fails, fun _ => ?_⟩
    dsimp only
    have more : T.parse T.reset (text.take (n + room)) = (.more, tok') := resumed
    split
    · next long =>
      refine ⟨⟨?_, nofun, nofun⟩, bad ?_ _ _⟩
      · dsimp only
        omega
      · intro v k success
        have later := alike.more _ _ _ (text.drop (n + room)) more
        rw [split, length_take] at later
        rw [later] at success
        dsimp only at success
        cases rested : (T.parse tok' (text.drop (n + room))).1 with
        | success w took =>
          rw [rested] at success
          obtain ⟨-, rfl⟩ := Token.success.inj success
          omega
        | more | error => rw [rested] at success; cases success
    · next short =>
      refine ⟨⟨?_, fun outside => absurd rfl outside, fun _ => ⟨?_, inside, ?_, ?_⟩⟩, fun done reads => reads⟩
      · dsimp only
        omega
      · dsimp only
        omega
      · dsimp only
        omega
      · right
        have whole : start + n + part.length - start = n + part.length := by omega
        rw [← textIs, whole, ← more]
        congr 1
        rw [take_eq_take_iff]
        omega
  | success v took =>
    have success := alike.success T.reset _ (text.drop (n + room)) _ _ (congrArg Prod.fst resumed)
    rw [split] at success
    have tookIn := alike.within _ _ _ _ (congrArg Prod.fst parsed)
    dsimp only
    split
    · next long =>
      refine ⟨fun fails => absurd rfl fails, fun _ => ⟨⟨?_, nofun, nofun⟩, bad ?_ _ _⟩⟩
      · dsimp only
        omega
      · intro w k success'
        obtain ⟨-, rfl⟩ := Token.success.inj (success.symm.trans success')
        omega
    · next short =>
      constructor
      · intro fails
        rw [ReadsOn, ahead, if_pos rfl, ← textIs]
        exact .stop _ _ _ _ _ success (by omega) fails
      · intro goes
        refine ⟨⟨?_, fun _ _ => rfl, ?_⟩, ?_⟩
        · dsimp only
          omega
        · intro value
          exact absurd value (fn u v).outside
        · intro done reads
          rw [ReadsOn, ahead, if_pos rfl, ← textIs]
          refine .element _ _ _ _ _ _ success (by omega) goes ?_
          rw [ReadsOn, ahead, if_neg (fn u v).outside] at reads
          rw [textIs, drop_drop, ← Nat.add_assoc]
          exact reads

theorem godboltArrayNext_reads (paused : Paused T body call) (active : call.list.ended = false)
    (outside : call.list ≠ .value) (unread : call.off < body.length) : Paused T body (godboltArrayNext body call).1 ∧
      ∀ done, ReadsOn T fn body (godboltArrayNext body call).1 done → ReadsOn T fn body call done := by
  have fresh := paused.fresh outside active
  obtain ⟨off, start, list, tok, u, vs⟩ := call
  dsimp only at unread active outside fresh
  subst fresh
  have first : body.getD off 0 = body[off] := by
    rw [getD_eq_getElem?_getD, List.getElem?_eq_getElem unread, Option.getD_some]
  simp only [godboltArrayNext, first]
  have reads : ∀ done, ReadsList T fn (after list body[off])
      (if after list body[off] = .value then body.drop off else body.drop (off + 1)) u vs done →
        ReadsOn T fn body (⟨off, start, list, T.reset, u, vs⟩ : GodboltCall τ V σ) done := by
    intro done reads
    rw [ReadsOn, ahead, if_neg outside]
    rw [drop_eq_getElem_cons unread] at reads ⊢
    exact .byte _ _ _ _ _ _ active outside reads
  by_cases value : after list body[off] = .value
  · rw [if_neg (not_not.mpr value), Nat.add_zero]
    refine ⟨⟨unread.le, fun _ _ => rfl, fun _ => ⟨le_refl _, unread, ?_, .inl ⟨Nat.sub_self _, rfl⟩⟩⟩, ?_⟩
    · rw [Nat.sub_self]
      exact Nat.zero_le _
    · intro done rest
      apply reads
      rw [ReadsOn, ahead, if_pos value] at rest
      rw [if_pos value]
      exact rest
  · rw [if_pos value]
    refine ⟨⟨unread, fun _ _ => rfl, fun is => absurd is value⟩, ?_⟩
    intro done rest
    apply reads
    rw [ReadsOn, ahead, if_neg value] at rest
    rw [if_neg value]
    exact rest

variable (fn) in
theorem parseOnce_reads (alike : T.Alike) (paused : Paused T body call) (active : call.list.ended = false)
    (unread : call.off < body.length) (roomy : 1 ≤ room) :
    let r := parseOnce T fn body call room
    (r.1 ≠ 0 → ReadsOn T fn body call (ending (r.1, r.2.1))) ∧
      (r.1 = 0 → Paused T body r.2.1 ∧ ∀ done, ReadsOn T fn body r.2.1 done → ReadsOn T fn body call done) := by
  by_cases value : call.list = .value
  · rw [parseOnce, if_neg (not_not.mpr value)]
    exact godboltElement_reads alike paused value unread roomy
  · rw [parseOnce, if_pos value]
    exact ⟨fun fails => absurd rfl fails, fun _ => godboltArrayNext_reads paused active value unread⟩

variable (fn) in
theorem parseLoop_reads (alike : T.Alike) (room fuel : Nat) :
    ∀ (call : GodboltCall τ V σ) (used : Nat), Paused T body call →
      let r := parseLoop T fn body room fuel call used
      (r.1 ≠ 0 → ReadsOn T fn body call (ending r)) ∧
        (r.1 = 0 → Paused T body r.2 ∧ ∀ done, ReadsOn T fn body r.2 done → ReadsOn T fn body call done) := by
  induction fuel with
  | zero => exact fun call used paused => ⟨fun fails => absurd rfl fails, fun _ => ⟨paused, fun done reads => reads⟩⟩
  | succ fuel ih =>
    intro call used paused
    rw [parseLoop]
    split
    · next goes =>
      obtain ⟨active, roomy, unread⟩ := goes
      obtain ⟨fails, passes⟩ := parseOnce_reads fn alike paused active unread (Nat.sub_pos_of_lt roomy)
      obtain ⟨once, onceIs⟩ : ∃ once, once = parseOnce T fn body call (room - used) := ⟨_, rfl⟩
      rw [← onceIs] at fails passes ⊢
      obtain ⟨e, later, n⟩ := once
      dsimp only at fails passes ⊢
      by_cases goesOn : e = 0
      · rw [if_neg (not_not.mpr goesOn)]
        obtain ⟨pausedLater, back⟩ := passes goesOn
        obtain ⟨failsLater, passesLater⟩ := ih later (used + n) pausedLater
        refine ⟨fun failed => back _ (failsLater failed), fun passed => ?_⟩
        obtain ⟨pausedAt, backAt⟩ := passesLater passed
        exact ⟨pausedAt, fun done reads => back _ (backAt done reads)⟩
      · rw [if_pos goesOn]
        exact ⟨fun _ => fails goesOn, fun passed => absurd passed goesOn⟩
    · exact ⟨fun fails => absurd rfl fails, fun _ => ⟨paused, fun done reads => reads⟩⟩

/-- The text ended before the list did. -/
theorem Paused.short (paused : Paused T body call) (active : call.list.ended = false)
    (all : call.off = body.length) : ReadsOn T fn body call ⟨0, .bad, call.call, call.elements⟩ := by
  rw [ReadsOn, ahead]
  by_cases value : call.list = .value
  · rw [if_pos value, value]
    obtain ⟨order, inside, short, ⟨none_, -⟩ | more⟩ := paused.element value
    · omega
    · apply ReadsList.bad
      intro v n success
      rw [all, ← length_drop, take_length] at more
      rw [more] at success
      exact nomatch success
  · rw [if_neg value, all, drop_length]
    exact .short _ _ _ active value

variable (fn) in
theorem godboltListParse_reads (alike : T.Alike) (paused : Paused T body call) (room : Nat) :
    let r := godboltListParse T fn body call room
    (r.1 ≠ 0 ∨ r.2.list.ended → ReadsOn T fn body call (ending r)) ∧
      (r.1 = 0 → Paused T body r.2 ∧ ∀ done, ReadsOn T fn body r.2 done → ReadsOn T fn body call done) := by
  obtain ⟨fails, passes⟩ := parseLoop_reads fn alike room (work body call + 1) call 0 paused
  rw [godboltListParse]
  obtain ⟨r, rIs⟩ : ∃ r, r = parseLoop T fn body room (work body call + 1) call 0 := ⟨_, rfl⟩
  rw [← rIs] at fails passes ⊢
  obtain ⟨e, later⟩ := r
  dsimp only at fails passes ⊢
  split
  · next short =>
    obtain ⟨rfl, active, all⟩ := short
    obtain ⟨pausedLater, back⟩ := passes rfl
    have reads := back _ (pausedLater.short active all)
    refine ⟨fun _ => reads, fun _ => ⟨⟨pausedLater.within, nofun, nofun⟩, fun done rest => ?_⟩⟩
    obtain rfl := rest.unique (.ended _ _ _ _ rfl)
    exact reads
  · refine ⟨fun ends => ?_, passes⟩
    by_cases goes : e = 0
    · obtain failed | ended := ends
      · exact absurd goes failed
      · rw [ending]
        dsimp only
        rw [goes]
        exact (passes goes).2 _ (.ended _ _ _ _ ended)
    · exact fails goes

/-- However a list is cut, its text decides what comes of it. -/
theorem parseSteps_reads (alike : T.Alike) {rooms : List Nat} :
    ∀ {call : GodboltCall τ V σ} {r : Nat × GodboltCall τ V σ}, Paused T body call →
      parseSteps T fn body rooms call = some r → ReadsOn T fn body call (ending r) := by
  induction rooms with
  | nil => exact fun _ none_ => nomatch none_
  | cons room rooms ih =>
    intro call r paused steps
    obtain ⟨ends, passes⟩ := godboltListParse_reads fn alike paused room
    rw [parseSteps] at steps
    dsimp only at steps ends passes
    split at steps
    · next ended =>
      obtain rfl := Option.some.inj steps
      exact ends ended
    · next active =>
      obtain ⟨passed, -⟩ := not_or.mp active
      obtain ⟨pausedLater, back⟩ := passes (not_not.mp passed)
      exact back _ (ih pausedLater steps)

/-- An iteration uses what it takes, and comes nearer to the end. -/
structure Nearer (body : Bytes) (call : GodboltCall τ V σ) (n : Nat) (later : GodboltCall τ V σ) : Prop where
  used : later.off = call.off + n
  less : work body later < work body call

theorem rank_le (s : GodboltList) : rank s ≤ 2 := by
  cases s <;> decide

theorem rank_done {done : ElementDone σ} : rank done.list = 0 := by
  obtain next | ended := done.ends
  · rw [next]
    rfl
  · cases list : done.list with
    | start | first | comma => rw [list] at ended; exact nomatch ended
    | value => exact absurd list done.outside
    | next => rfl
    | last => rfl
    | bad => rfl

theorem after_next (c : UInt8) : after .next c ≠ .value := by
  rw [after]
  split_ifs <;> simp_all

theorem after_value {s : GodboltList} {c : UInt8} (solid : cstrViewSpace c = false)
    (before : s = .comma ∨ s = .first ∧ c ≠ 93) : after s c = .value := by
  rw [after, solid, if_neg nofun]
  obtain rfl | ⟨rfl, unclosed⟩ := before
  · rw [if_neg nofun, if_neg (fun is => is.2 rfl), if_pos nofun]
  · rw [if_neg nofun, if_neg (fun is => unclosed is.1), if_pos nofun]

theorem Nearer.bytes {later : GodboltCall τ V σ} {n : Nat} (unread : call.off < body.length)
    (used : later.off = call.off + n) (some_ : 1 ≤ n) (lower : rank later.list ≤ rank call.list + 2) :
    Nearer body call n later := by
  refine ⟨used, ?_⟩
  rw [work, work, used]
  omega

theorem Nearer.state {later : GodboltCall τ V σ} {n : Nat} (used : later.off = call.off + n)
    (lower : rank later.list < rank call.list) : Nearer body call n later := by
  refine ⟨used, ?_⟩
  rw [work, work, used]
  omega

theorem godboltArrayNext_nearer (active : call.list.ended = false) (outside : call.list ≠ .value)
    (unread : call.off < body.length) :
    Nearer body call (godboltArrayNext body call).2 (godboltArrayNext body call).1 := by
  rw [godboltArrayNext]
  dsimp only
  by_cases value : after call.list (body.getD call.off 0) = .value
  · apply Nearer.state rfl
    rw [value]
    cases list : call.list with
    | start | first | comma => exact Nat.one_lt_two
    | value => exact absurd list outside
    | next =>
      rw [list] at value
      exact absurd value (after_next _)
    | last | bad => rw [list] at active; exact nomatch active
  · apply Nearer.bytes unread rfl
    · rw [if_pos value]
    · have low := rank_le (after call.list (body.getD call.off 0))
      dsimp only
      omega

theorem godboltElement_nearer (value : call.list = .value) (unread : call.off < body.length) (roomy : 1 ≤ room) :
    Nearer body call (godboltElement T fn body call room).2.2 (godboltElement T fn body call room).2.1 := by
  have partLength : 1 ≤ ((body.drop call.off).take room).length := by
    rw [length_take, length_drop]
    omega
  obtain ⟨part, partIs⟩ : ∃ part, part = (body.drop call.off).take room := ⟨_, rfl⟩
  rw [← partIs] at partLength
  have own : rank call.list = 1 := by rw [value]; rfl
  rcases parsed : T.parse call.tok part with ⟨token, tok⟩
  simp only [godboltElement, ← partIs, parsed]
  cases token with
  | error =>
    apply Nearer.state rfl
    rw [own]
    exact Nat.zero_lt_one
  | more =>
    dsimp only
    split
    · apply Nearer.state rfl
      rw [own]
      exact Nat.zero_lt_one
    · exact Nearer.bytes unread rfl partLength (Nat.le_add_right _ _)
  | success v took =>
    dsimp only
    split
    · apply Nearer.state rfl
      rw [own]
      exact Nat.zero_lt_one
    · apply Nearer.state rfl
      rw [own, rank_done]
      exact Nat.zero_lt_one

variable (T fn) in
theorem parseOnce_nearer (active : call.list.ended = false) (unread : call.off < body.length)
    (roomy : 1 ≤ room) : Nearer body call (parseOnce T fn body call room).2.2 (parseOnce T fn body call room).2.1 := by
  by_cases value : call.list = .value
  · rw [parseOnce, if_neg (not_not.mpr value)]
    exact godboltElement_nearer value unread roomy
  · rw [parseOnce, if_pos value]
    exact godboltArrayNext_nearer active value unread

/-- The loop stops for one of its reasons. -/
structure LoopStops (body : Bytes) (room : Nat) (call : GodboltCall τ V σ) (used : Nat)
    (r : Nat × GodboltCall τ V σ) : Prop where
  onward : call.off ≤ r.2.off
  least : work body r.2 ≤ work body call
  reason : r.1 ≠ 0 ∨ r.2.list.ended ∨ room + call.off ≤ used + r.2.off ∨ body.length ≤ r.2.off

variable (T fn) in
theorem parseLoop_stops (room fuel : Nat) : ∀ (call : GodboltCall τ V σ) (used : Nat), work body call < fuel →
      LoopStops body room call used (parseLoop T fn body room fuel call used) := by
  induction fuel with
  | zero => exact fun call used none_ => absurd none_ (Nat.not_lt_zero _)
  | succ fuel ih =>
    intro call used enough
    rw [parseLoop]
    split
    · next goes =>
      obtain ⟨active, roomy, unread⟩ := goes
      obtain ⟨usedOnce, less⟩ := parseOnce_nearer T fn active unread (Nat.sub_pos_of_lt roomy)
      obtain ⟨once, onceIs⟩ : ∃ once, once = parseOnce T fn body call (room - used) := ⟨_, rfl⟩
      rw [← onceIs] at usedOnce less ⊢
      obtain ⟨e, later, n⟩ := once
      dsimp only at usedOnce less ⊢
      split
      · next failed => exact ⟨by dsimp only; omega, less.le, .inl failed⟩
      · obtain ⟨onward, least, reason⟩ := ih later (used + n) (by omega)
        refine ⟨by omega, least.trans less.le, ?_⟩
        exact reason.imp_right (Or.imp_right (Or.imp_left fun full => by omega))
    · next stops =>
      refine ⟨le_refl _, le_refl _, .inr ?_⟩
      dsimp only
      cases ended : call.list.ended with
      | true => exact .inl rfl
      | false =>
        by_cases roomy : used < room
        · exact .inr (.inr (Nat.not_lt.mp fun unread => stops ⟨ended, roomy, unread⟩))
        · exact .inr (.inl (by omega))

variable (T fn) in
/-- A step with room takes a byte, comes to another state, or ends the parse. -/
theorem godboltListParse_moves (active : call.list.ended = false) (within : call.off ≤ body.length) (roomy : 1 ≤ room) :
    let r := godboltListParse T fn body call room
    r.1 ≠ 0 ∨ r.2.list.ended ∨
      work body r.2 < work body call ∧ (call.off < r.2.off ∨ call.off = r.2.off ∧ r.2.list ≠ call.list) := by
  rw [godboltListParse]
  by_cases unread : call.off < body.length
  · rw [parseLoop, if_pos ⟨active, roomy, unread⟩]
    obtain ⟨usedOnce, less⟩ := parseOnce_nearer T fn active unread (show 1 ≤ room - 0 from roomy)
    obtain ⟨once, onceIs⟩ : ∃ once, once = parseOnce T fn body call (room - 0) := ⟨_, rfl⟩
    rw [← onceIs] at usedOnce less ⊢
    obtain ⟨e, later, n⟩ := once
    dsimp only at usedOnce less ⊢
    by_cases failed : e = 0
    · rw [if_neg (not_not.mpr failed)]
      obtain ⟨onward, least, -⟩ := parseLoop_stops T fn room _ later (0 + n) less
      obtain ⟨r, rIs⟩ : ∃ r, r = parseLoop T fn body room (work body call) later (0 + n) := ⟨_, rfl⟩
      rw [← rIs] at onward least ⊢
      obtain ⟨e', last⟩ := r
      dsimp only at onward least ⊢
      split
      · exact .inr (.inl rfl)
      · refine .inr (.inr ⟨by dsimp only; omega, ?_⟩)
        dsimp only
        by_cases same : call.off = last.off
        · refine .inr ⟨same, fun list => ?_⟩
          have fewer := least.trans_lt less
          rw [work, work, ← same, list] at fewer
          exact Nat.lt_irrefl _ fewer
        · left
          omega
    · rw [if_pos failed]
      left
      dsimp only
      rw [if_neg (fun ends => failed ends.1)]
      exact failed
  · rw [parseLoop, if_neg (fun goes => unread goes.2.2)]
    dsimp only
    rw [if_pos ⟨rfl, active, by omega⟩]
    exact .inr (.inl rfl)

/-- Enough steps end the parse. -/
theorem parseSteps_ends (alike : T.Alike) {rooms : List Nat} (roomy : ∀ room ∈ rooms, 1 ≤ room) :
    ∀ {call : GodboltCall τ V σ}, Paused T body call → call.list.ended = false → work body call < rooms.length →
      (parseSteps T fn body rooms call).isSome := by
  induction rooms with
  | nil => exact fun _ _ none_ => absurd none_ (Nat.not_lt_zero _)
  | cons room rooms ih =>
    intro call paused active enough
    obtain ⟨-, passes⟩ := godboltListParse_reads fn alike paused room
    have moves := godboltListParse_moves T fn active paused.within (roomy room mem_cons_self)
    rw [parseSteps]
    dsimp only at moves passes ⊢
    split
    · rfl
    · next goes =>
      obtain ⟨passed, unended⟩ := not_or.mp goes
      obtain failed | ended | ⟨less, -⟩ := moves
      · exact absurd failed passed
      · exact absurd ended unended
      · apply ih (fun r among => roomy r (mem_cons_of_mem _ among)) (passes (not_not.mp passed)).1
        · rw [Bool.not_eq_true] at unended
          exact unended
        · rw [length_cons] at enough
          omega

/-- A step with the room of the text ends the parse. -/
theorem godboltListParse_whole (alike : T.Alike) (paused : Paused T body call) (whole : body.length ≤ room + call.off) :
    (godboltListParse T fn body call room).1 ≠ 0 ∨ (godboltListParse T fn body call room).2.list.ended := by
  obtain ⟨-, passes⟩ := parseLoop_reads fn alike room (work body call + 1) call 0 paused
  obtain ⟨-, -, reason⟩ := parseLoop_stops T fn room _ call 0 (Nat.lt_succ_self (work body call))
  rw [godboltListParse]
  obtain ⟨r, rIs⟩ : ∃ r, r = parseLoop T fn body room (work body call + 1) call 0 := ⟨_, rfl⟩
  rw [← rIs] at passes reason ⊢
  obtain ⟨e, last⟩ := r
  dsimp only at passes reason ⊢
  split
  · exact .inr rfl
  · next unended =>
    by_cases failed : e = 0
    · have within := (passes failed).1.within
      right
      cases ended : last.list.ended with
      | true => rfl
      | false =>
        rw [ended] at reason
        obtain fails | ended' | full | all := reason
        · exact absurd failed fails
        · exact nomatch ended'
        · exact absurd ⟨failed, ended, by omega⟩ unended
        · exact absurd ⟨failed, ended, by omega⟩ unended
    · exact .inl failed

end GodboltCall

end Askai
