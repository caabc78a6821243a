import Askai.Godbolt.List

/-!
# The grammar of a list

Which texts are a list of values, and that the parse in slices finds just these.
-/

namespace Askai

open Library List

/-- White space of JSON. -/
def JsonSpace (text : Bytes) : Prop :=
  ∀ c ∈ text, cstrViewSpace c

section Grammar

variable {τ V : Type*} (T : Tokener τ V)

/-- A text that begins with a value, which is not too long and begins with no white space, and the rest after the
value. -/
structure BeginsValue (text : Bytes) (v : V) (rest : Bytes) : Prop where
  solid : ∃ c ∈ text.head?, cstrViewSpace c = false
  value : ∃ value, text = value ++ rest ∧ value.length ≤ godboltElementMax ∧
    (T.parse T.reset text).1 = .success v value.length

/-- One or more values with a comma between two of them, and a bracket after the last. -/
inductive ListValues : Bytes → List V → Prop
  | last (before text between tail : Bytes) (v : V) (value : BeginsValue T text v (between ++ 93 :: tail))
      (blank : JsonSpace before) (blank' : JsonSpace between) : ListValues (before ++ text) [v]
  | more (before text between rest : Bytes) (v : V) (vs : List V) (value : BeginsValue T text v (between ++ 44 :: rest))
      (blank : JsonSpace before) (blank' : JsonSpace between) (values : ListValues rest vs) :
      ListValues (before ++ text) (v :: vs)

/-- A text that begins with a list of values. -/
inductive IsValueList : Bytes → List V → Prop
  | empty (before between tail : Bytes) (blank : JsonSpace before) (blank' : JsonSpace between) :
      IsValueList (before ++ 91 :: (between ++ 93 :: tail)) []
  | values (before between text : Bytes) (vs : List V) (blank : JsonSpace before) (blank' : JsonSpace between)
      (filled : text.head? ≠ some 93) (solid : ∃ c ∈ text.head?, cstrViewSpace c = false)
      (values : ListValues T text vs) :
      IsValueList (before ++ 91 :: (between ++ text)) vs

/-- What the rest of the text of a list is after a state. -/
def ListRest : GodboltList → Bytes → List V → Prop
  | .start, text, vs => IsValueList T text vs
  | .first, text, vs =>
    (vs = [] ∧ ∃ between tail, text = between ++ 93 :: tail ∧ JsonSpace between) ∨
      ∃ between rest, text = between ++ rest ∧ JsonSpace between ∧ rest.head? ≠ some 93 ∧
        (∃ c ∈ rest.head?, cstrViewSpace c = false) ∧ ListValues T rest vs
  | .value, text, vs => ∃ v n ws, vs = v :: ws ∧ (T.parse T.reset text).1 = .success v n ∧ n ≤ godboltElementMax ∧
      ((ws = [] ∧ ∃ between tail, text.drop n = between ++ 93 :: tail ∧ JsonSpace between) ∨
        ∃ between rest, text.drop n = between ++ 44 :: rest ∧ JsonSpace between ∧ ListValues T rest ws)
  | .next, text, vs =>
    (vs = [] ∧ ∃ between tail, text = between ++ 93 :: tail ∧ JsonSpace between) ∨
      ∃ between rest, text = between ++ 44 :: rest ∧ JsonSpace between ∧ ListValues T rest vs
  | .comma, text, vs => ListValues T text vs
  | .last, _, vs => vs = []
  | .bad, _, _ => False

variable {T} {s : GodboltList} {text : Bytes} {vs : List V}

theorem JsonSpace.cons {c : UInt8} (space : cstrViewSpace c) (blank : JsonSpace text) : JsonSpace (c :: text) :=
  forall_mem_cons.mpr ⟨space, blank⟩

theorem JsonSpace.nil : JsonSpace [] :=
  fun _ none_ => absurd none_ not_mem_nil

theorem ListRest.space {c : UInt8} (space : cstrViewSpace c) (outside : s ≠ .value)
    (rests : ListRest T s text vs) : ListRest T s (c :: text) vs := by
  cases s with
  | start =>
    obtain ⟨before, between, tail, blank, blank'⟩ | ⟨before, between, text, _, blank, blank', filled, solid, values⟩ :=
      rests
    · exact .empty (c :: before) between tail (blank.cons space) blank'
    · exact .values (c :: before) between text vs (blank.cons space) blank' filled solid values
  | first =>
    obtain ⟨none_, between, tail, rfl, blank⟩ | ⟨between, rest, rfl, blank, filled⟩ := rests
    · exact .inl ⟨none_, c :: between, tail, rfl, blank.cons space⟩
    · exact .inr ⟨c :: between, rest, rfl, blank.cons space, filled⟩
  | value => exact absurd rfl outside
  | next =>
    obtain ⟨none_, between, tail, rfl, blank⟩ | ⟨between, rest, rfl, blank, values⟩ := rests
    · exact .inl ⟨none_, c :: between, tail, rfl, blank.cons space⟩
    · exact .inr ⟨c :: between, rest, rfl, blank.cons space, values⟩
  | comma =>
    obtain ⟨before, text, between, tail, v, value, blank, blank'⟩ |
      ⟨before, text, between, rest, v, vs, value, blank, blank', values⟩ := rests
    · exact .last (c :: before) text between tail v value (blank.cons space) blank'
    · exact .more (c :: before) text between rest v vs value (blank.cons space) blank' values
  | last => exact rests
  | bad => exact rests

theorem ListRest.values (alike : T.Alike) {c : UInt8} (solid : cstrViewSpace c = false)
    (rests : ListRest T .value (c :: text) vs) : ListValues T (c :: text) vs := by
  obtain ⟨v, n, ws, rfl, success, short, rests⟩ := rests
  have within := alike.within _ _ _ _ success
  have begins : ∀ rest, (c :: text).drop n = rest → BeginsValue T (c :: text) v rest := by
    rintro rest rfl
    refine ⟨⟨c, rfl, solid⟩, (c :: text).take n, (take_append_drop n _).symm, ?_⟩
    rw [length_take_of_le within]
    exact ⟨short, success⟩
  obtain ⟨rfl, between, tail, dropped, blank⟩ | ⟨between, rest, dropped, blank, values⟩ := rests
  · exact .last [] _ between tail v (begins _ dropped) .nil blank
  · exact .more [] _ between rest v ws (begins _ dropped) .nil blank values

theorem ListRest.byte (alike : T.Alike) {c : UInt8} (active : s.ended = false) (outside : s ≠ .value)
    (rests : ListRest T (GodboltCall.after s c) (if GodboltCall.after s c = .value then c :: text else text) vs) :
    ListRest T s (c :: text) vs := by
  rw [GodboltCall.after] at rests
  by_cases space : cstrViewSpace c
  · rw [if_pos space, if_neg outside] at rests
    exact rests.space space outside
  · rw [if_neg space] at rests
    rw [Bool.not_eq_true] at space
    cases s with
    | start =>
      rw [if_pos rfl] at rests
      by_cases is : c = 91
      · rw [if_pos is, if_neg (by simp)] at rests
        rw [is]
        obtain ⟨rfl, between, tail, rfl, blank⟩ | ⟨between, rest, rfl, blank, filled, solid, values⟩ := rests
        · exact .empty [] between tail .nil blank
        · exact IsValueList.values [] between rest vs .nil blank filled solid values
      · rw [if_neg is, if_neg (by simp)] at rests
        exact rests.elim
    | first =>
      rw [if_neg (by simp)] at rests
      by_cases closes : c = 93
      · rw [if_pos ⟨closes, by simp⟩, if_neg (by simp)] at rests
        exact .inl ⟨rests, [], text, by rw [closes]; rfl, .nil⟩
      · rw [if_neg (fun is => closes is.1), if_pos (by simp), if_pos rfl] at rests
        exact .inr ⟨[], c :: text, rfl, .nil, fun is => closes (Option.some.inj is), ⟨c, rfl, space⟩,
          rests.values alike space⟩
    | value => exact absurd rfl outside
    | next =>
      rw [if_neg (by simp)] at rests
      by_cases closes : c = 93
      · rw [if_pos ⟨closes, by simp⟩, if_neg (by simp)] at rests
        exact .inl ⟨rests, [], text, by rw [closes]; rfl, .nil⟩
      · rw [if_neg (fun is => closes is.1), if_neg (not_not.mpr rfl)] at rests
        by_cases is : c = 44
        · rw [if_pos is, if_neg (by simp)] at rests
          exact .inr ⟨[], text, by rw [is]; rfl, .nil, rests⟩
        · rw [if_neg is, if_neg (by simp)] at rests
          exact rests.elim
    | comma =>
      rw [if_neg (by simp), if_neg (fun is => absurd rfl is.2), if_pos (by simp), if_pos rfl] at rests
      exact rests.values alike space
    | last | bad => cases active

variable {σ : Type*} {fn : σ → V → ElementDone σ} {u : σ} {done : ListEnd V σ}

/-- A list that is read to its end is one. -/
theorem ReadsList.listed (alike : T.Alike) (goesOn : ∀ u v, (fn u v).error = 0 ∧ (fn u v).list = .next)
    (reads : ReadsList T fn s text u vs done) (last : done.list = .last) :
    ∃ ws, done.elements = vs ++ ws ∧ ListRest T s text ws := by
  induction reads with
  | ended s text u vs ended =>
    dsimp only at last
    rw [last]
    exact ⟨[], (append_nil vs).symm, rfl⟩
  | short | bad => exact nomatch last
  | byte s c text u vs done active outside rest ih =>
    obtain ⟨ws, elements, rests⟩ := ih last
    exact ⟨ws, elements, rests.byte alike active outside⟩
  | stop text u vs v n success short fails => exact absurd (goesOn u v).1 fails
  | element text u vs v n done success short goes rest ih =>
    obtain ⟨ws, elements, rests⟩ := ih last
    rw [(goesOn u v).2] at rests
    refine ⟨v :: ws, ?_, v, n, ws, rfl, success, short, rests⟩
    rw [elements, append_assoc]
    rfl

theorem ReadsList.spaces {between : Bytes} (active : s.ended = false) (outside : s ≠ .value)
    (blank : JsonSpace between) (reads : ReadsList T fn s text u vs done) :
    ReadsList T fn s (between ++ text) u vs done := by
  induction between with
  | nil => exact reads
  | cons c between ih =>
    obtain ⟨space, blank⟩ := forall_mem_cons.mp blank
    apply ReadsList.byte _ _ _ _ _ _ active outside
    rw [GodboltCall.after, if_pos space, if_neg outside]
    exact ih blank

/-- An element function that does not stop the parse has been called once for each element, in order. -/
theorem ReadsList.handed (goesOn : ∀ u v, (fn u v).error = 0 ∧ (fn u v).list = .next)
    (reads : ReadsList T fn s text u vs done) : done.error = 0 ∧ (done.list = .last ∨ done.list = .bad) ∧
      ∃ ws, done.elements = vs ++ ws ∧ done.call = ws.foldl (fun u v => (fn u v).call) u := by
  induction reads with
  | ended s text u vs ended =>
    refine ⟨rfl, ?_, [], (append_nil vs).symm, rfl⟩
    cases s with
    | last => exact .inl rfl
    | bad => exact .inr rfl
    | _ => exact nomatch ended
  | short s u vs => exact ⟨rfl, .inr rfl, [], (append_nil vs).symm, rfl⟩
  | byte s c text u vs done active outside rest ih => exact ih
  | bad text u vs => exact ⟨rfl, .inr rfl, [], (append_nil vs).symm, rfl⟩
  | stop text u vs v n success short fails => exact absurd (goesOn u v).1 fails
  | element text u vs v n done success short goes rest ih =>
    obtain ⟨passed, verdict, ws, elements, calls⟩ := ih
    refine ⟨passed, verdict, v :: ws, ?_, calls⟩
    rw [elements, append_assoc]
    rfl

/-- A byte that is not white space. -/
theorem ReadsList.solid {c : UInt8} {n : GodboltList} (active : s.ended = false) (outside : s ≠ .value)
    (after : GodboltCall.after s c = n) (reads : ReadsList T fn n (if n = .value then c :: text else text) u vs done) :
    ReadsList T fn s (c :: text) u vs done := by
  rw [← after] at reads
  exact .byte _ _ _ _ _ _ active outside reads

theorem BeginsValue.reads {v : V} {rest : Bytes} (value : BeginsValue T text v rest)
    (goesOn : ∀ u v, (fn u v).error = 0 ∧ (fn u v).list = .next)
    (reads : ReadsList T fn .next rest (fn u v).call (vs ++ [v]) done) : ReadsList T fn .value text u vs done := by
  obtain ⟨-, value, rfl, short, success⟩ := value
  apply ReadsList.element _ _ _ _ _ _ success short (goesOn u v).1
  rw [(goesOn u v).2, drop_left]
  exact reads

/-- The end of a list whose elements are all handed over. -/
def handedAll (fn : σ → V → ElementDone σ) (u : σ) (vs ws : List V) : ListEnd V σ :=
  ⟨0, .last, ws.foldl (fun u v => (fn u v).call) u, vs ++ ws⟩

variable (T fn) in
theorem ReadsList.closes (u : σ) (vs : List V) (first : s = .first ∨ s = .next) {between : Bytes} (tail : Bytes)
    (blank : JsonSpace between) : ReadsList T fn s (between ++ 93 :: tail) u vs (handedAll fn u vs []) := by
  rw [handedAll, append_nil]
  obtain rfl | rfl := first
  · exact .spaces rfl nofun blank (.solid rfl nofun rfl (.ended _ _ _ _ rfl))
  · exact .spaces rfl nofun blank (.solid rfl nofun rfl (.ended _ _ _ _ rfl))

theorem ListValues.reads (goesOn : ∀ u v, (fn u v).error = 0 ∧ (fn u v).list = .next) (values : ListValues T text vs) :
    ∃ before t, text = before ++ t ∧ JsonSpace before ∧ (∃ c ∈ t.head?, cstrViewSpace c = false) ∧
      ∀ u ws, ReadsList T fn .value t u ws (handedAll fn u ws vs) := by
  induction values with
  | last before text between tail v value blank blank' =>
    refine ⟨before, text, rfl, blank, value.solid, fun u ws => value.reads goesOn ?_⟩
    have closes := ReadsList.closes T fn (fn u v).call (ws ++ [v]) (.inr rfl) tail blank'
    rw [handedAll, append_nil] at closes
    exact closes
  | more before text between rest v vs value blank blank' values ih =>
    refine ⟨before, text, rfl, blank, value.solid, fun u ws => value.reads goesOn ?_⟩
    obtain ⟨before', t, rfl, blank'', ⟨c, head, solid⟩, reads⟩ := ih
    refine ReadsList.spaces rfl nofun blank' ?_
    refine ReadsList.solid rfl nofun rfl ?_
    rw [if_neg nofun]
    refine ReadsList.spaces rfl nofun blank'' ?_
    obtain ⟨t, rfl⟩ := List.head?_eq_some_iff.mp head
    refine ReadsList.solid rfl nofun (GodboltCall.after_value solid (.inl rfl)) ?_
    have reads := reads (fn u v).call (ws ++ [v])
    rw [handedAll, append_assoc] at reads
    exact reads

theorem IsValueList.reads (goesOn : ∀ u v, (fn u v).error = 0 ∧ (fn u v).list = .next) (list : IsValueList T text vs) :
    ReadsList T fn .start text u [] (handedAll fn u [] vs) := by
  obtain ⟨before, between, tail, blank, blank'⟩ | ⟨before, between, text, _, blank, blank', filled, solid, values⟩ := list
  · exact .spaces rfl nofun blank (.solid rfl nofun rfl (.closes T fn u [] (.inl rfl) tail blank'))
  · refine ReadsList.spaces rfl nofun blank ?_
    refine ReadsList.solid rfl nofun rfl ?_
    rw [if_neg nofun]
    refine ReadsList.spaces rfl nofun blank' ?_
    obtain ⟨white, t, rfl, blank'', -, reads⟩ := values.reads goesOn
    obtain ⟨c, head, solid⟩ := solid
    cases white with
    | cons d white =>
      obtain rfl := Option.some.inj head
      exact nomatch (blank'' _ mem_cons_self).symm.trans solid
    | nil =>
      rw [nil_append] at head filled ⊢
      obtain ⟨t, rfl⟩ := List.head?_eq_some_iff.mp head
      refine ReadsList.solid rfl nofun (GodboltCall.after_value solid (.inr ⟨rfl, ?_⟩)) (reads u [])
      exact fun is => filled (congrArg some is)

end Grammar

namespace GodboltCall

variable {τ V σ : Type*} {T : Tokener τ V} {fn : σ → V → ElementDone σ} {body : Bytes}

/-- A call before its list is parsed. -/
abbrev unparsed (T : Tokener τ V) (u : σ) : GodboltCall τ V σ :=
  { tok := T.reset, call := u }

theorem unparsed_paused (T : Tokener τ V) (body : Bytes) (u : σ) : Paused T body (unparsed (V := V) T u) :=
  ⟨Nat.zero_le _, fun _ _ => rfl, nofun⟩

/-- A list is parsed alike in any slices: what it comes to is what one step with room for all of it comes to,
whatever the element function does, so one that ends the parse ends it at the same element. Enough steps end it, and
each takes a byte, comes to another state or ends it. If the element function does not stop the parse, it is given
each element of the list once and in order, and the verdict is whether the text begins with a list. -/
theorem lists_alike (alike : T.Alike) (fn : σ → V → ElementDone σ) (body : Bytes) (u : σ) :
    (∀ rooms r, parseSteps T fn body rooms (unparsed T u) = some r →
      (∀ room, body.length ≤ room → ending (godboltListParse T fn body (unparsed T u) room) = ending r) ∧
        ((∀ u v, (fn u v).error = 0 ∧ (fn u v).list = .next) →
          r.1 = 0 ∧ r.2.call = r.2.elements.foldl (fun u v => (fn u v).call) u ∧ (r.2.list = .last ∨ r.2.list = .bad) ∧
            ∀ vs, r.2.list = .last ∧ r.2.elements = vs ↔ IsValueList T body vs)) ∧
      (∀ rooms, (∀ room ∈ rooms, 1 ≤ room) → 3 * body.length + 3 ≤ rooms.length →
        (parseSteps T fn body rooms (unparsed T u)).isSome) ∧
      ∀ (call : GodboltCall τ V σ) (room : Nat), call.list.ended = false → call.off ≤ body.length → 1 ≤ room →
        let r := godboltListParse T fn body call room
        r.1 ≠ 0 ∨ r.2.list.ended ∨ call.off < r.2.off ∨ call.off = r.2.off ∧ r.2.list ≠ call.list := by
  have paused := unparsed_paused T body u
  refine ⟨fun rooms r steps => ?_, fun rooms roomy enough => ?_, fun call room active within roomy => ?_⟩
  · have reads := parseSteps_reads alike paused steps
    refine ⟨fun room whole => ?_, fun goesOn => ?_⟩
    · have once := (godboltListParse_reads fn alike paused room).1 (godboltListParse_whole alike paused whole)
      exact once.unique reads
    · obtain ⟨passed, verdict, ws, elements, calls⟩ := reads.handed goesOn
      rw [ending] at passed verdict elements calls
      dsimp only at passed verdict elements calls
      rw [nil_append] at elements
      refine ⟨passed, by rw [calls, elements], verdict, fun vs => ⟨?_, fun list => ?_⟩⟩
      · rintro ⟨last, rfl⟩
        obtain ⟨ws', elements', rests⟩ := reads.listed alike goesOn last
        rw [nil_append] at elements'
        rw [show r.2.elements = ws' from elements']
        exact rests
      · have whole := reads.unique (list.reads goesOn)
        exact ⟨congrArg ListEnd.list whole, congrArg ListEnd.elements whole⟩
  · apply parseSteps_ends alike roomy paused rfl
    rw [work]
    change 3 * (body.length - 0) + 2 < _
    omega
  · exact (godboltListParse_moves T fn active within roomy).imp_right (Or.imp_right And.right)

/-- A tokener of strings without escapes: what has been read of the string is its state. -/
def stringParse : Option Bytes → Bytes → Token Bytes × Option Bytes
  | t, [] => (.more, t)
  | none, c :: text =>
    if c = 34 then ((stringParse (some []) text).1.shift 1, (stringParse (some []) text).2) else (.error, none)
  | some v, c :: text =>
    if c = 34 then (.success v 1, some v)
    else ((stringParse (some (v ++ [c])) text).1.shift 1, (stringParse (some (v ++ [c])) text).2)

def stringTokener : Tokener (Option Bytes) Bytes where
  reset := none
  parse := stringParse

/-- The rest of a string after one byte of it. -/
theorem stringParse_cons (t : Option Bytes) (c : UInt8) : (∀ text, (stringParse t (c :: text)).1 = .error) ∨
      (∃ v, ∀ text, (stringParse t (c :: text)).1 = .success v 1) ∨
      ∃ u, ∀ text, stringParse t (c :: text) = ((stringParse u text).1.shift 1, (stringParse u text).2) := by
  cases t with
  | none =>
    by_cases quote : c = 34
    · exact .inr (.inr ⟨some [], fun text => by rw [stringParse, if_pos quote]⟩)
    · exact .inl fun text => by rw [stringParse, if_neg quote]
  | some v =>
    by_cases quote : c = 34
    · exact .inr (.inl ⟨v, fun text => by rw [stringParse, if_pos quote]⟩)
    · exact .inr (.inr ⟨some (v ++ [c]), fun text => by rw [stringParse, if_neg quote]⟩)

theorem stringTokener_alike : stringTokener.Alike where
  more t u a b more := by
    induction a generalizing t with
    | nil =>
      obtain rfl : t = u := congrArg Prod.snd more
      change stringParse t b = _
      rw [length_nil, Token.shift_zero]
      rfl
    | cons c a ih =>
      change stringParse t (c :: a) = _ at more
      change stringParse t (c :: (a ++ b)) = _
      obtain error | ⟨v, success⟩ | ⟨w, goesOn⟩ := stringParse_cons t c
      · exact nomatch (error a).symm.trans (congrArg Prod.fst more)
      · exact nomatch (success a).symm.trans (congrArg Prod.fst more)
      · rw [goesOn] at more ⊢
        obtain ⟨token, state⟩ := Prod.mk.inj more
        have rest := ih w (Prod.ext (Token.shift_more token) state)
        change stringParse w (a ++ b) = _ at rest
        rw [rest, Token.shift_shift, length_cons, Nat.add_comm a.length]
  success t a b v n success := by
    induction a generalizing t n with
    | nil => exact nomatch success
    | cons c a ih =>
      change (stringParse t (c :: a)).1 = _ at success
      change (stringParse t (c :: (a ++ b))).1 = _
      obtain error | ⟨w, ends⟩ | ⟨w, goesOn⟩ := stringParse_cons t c
      · exact nomatch (error a).symm.trans success
      · rw [ends] at success ⊢
        exact success
      · rw [goesOn] at success ⊢
        obtain ⟨took, rest, rfl⟩ := Token.shift_success success
        have whole : (stringParse w (a ++ b)).1 = _ := ih w took rest
        rw [whole]
        rfl
  error t a b error := by
    induction a generalizing t with
    | nil => exact nomatch error
    | cons c a ih =>
      change (stringParse t (c :: a)).1 = _ at error
      change (stringParse t (c :: (a ++ b))).1 = _
      obtain fails | ⟨w, ends⟩ | ⟨w, goesOn⟩ := stringParse_cons t c
      · exact fails _
      · exact nomatch (ends a).symm.trans error
      · rw [goesOn] at error ⊢
        have whole : (stringParse w (a ++ b)).1 = _ := ih w (Token.shift_error error)
        rw [whole]
        rfl
  within t a v n success := by
    induction a generalizing t n with
    | nil => exact nomatch success
    | cons c a ih =>
      change (stringParse t (c :: a)).1 = _ at success
      rw [length_cons]
      obtain fails | ⟨w, ends⟩ | ⟨w, goesOn⟩ := stringParse_cons t c
      · exact nomatch (fails a).symm.trans success
      · obtain ⟨-, rfl⟩ := Token.success.inj ((ends a).symm.trans success)
        exact Nat.le_add_left _ _
      · rw [goesOn] at success
        obtain ⟨took, rest, rfl⟩ := Token.shift_success success
        have inside := ih w took rest
        omega

theorem lists_alike_strings : IsValueList stringTokener (ascii "[ \"a\",\"bc\" ]") [ascii "a", ascii "bc"] := by
  have parsed : parseSteps stringTokener (fun u v => { call := u + v.length }) (ascii "[ \"a\",\"bc\" ]")
      (List.replicate 10 2) (unparsed stringTokener 0) =
        some (0, { off := 12, start := 11, list := .last, tok := none, call := 3, elements := [ascii "a", ascii "bc"] }) := by
    decide
  exact (((lists_alike stringTokener_alike _ _ _).1 _ _ parsed).2 (fun _ _ => ⟨rfl, rfl⟩)).2.2.2 _ |>.mp ⟨rfl, rfl⟩

end GodboltCall

end Askai
