import Askai.Roster.Records

/-!
# Cancels across loops

What a cancel asks, and what any run of the threads leaves of the records.
-/

namespace Askai

open Library List

namespace Roster

variable {seeded : Bytes → Nat} {r r₀ : Roster} {c : Nat} {key : Bytes}

/-- The roster while a cancel searches, as if it had unlocked. -/
def searching (r : Roster) (hits : Option Nat) (matched : List Nat) : Roster :=
  { r with asking := r.asking ++ [{ hits, matched }] }

theorem unposted_searching (r : Roster) (hits : Option Nat) (matched : List Nat) :
    (r.searching hits matched).unposted = r.unposted ++ matched := by
  change (r.asking ++ [_]).flatMap Asking.waiting = _
  rw [flatMap_append, flatMap_singleton]
  rfl

/-- A record that matches is asked. -/
def ask (r : Roster) (c : Nat) (call : RosterCall) (hits : Option Nat) : Roster :=
  { r with call := Function.update r.call c (some { call with asked := true, refs := call.refs + 1, hit := hits }) }

variable {hits : Option Nat} {matched : List Nat}

theorem call_ask {call call' : RosterCall} {d : Nat} (here : (r.ask c call hits).call d = some call') :
    (d = c ∧ call' = { call with asked := true, refs := call.refs + 1, hit := hits }) ∨
      d ≠ c ∧ r.call d = some call' := by
  change Function.update r.call c _ d = _ at here
  rcases eq_or_ne d c with rfl | other
  · rw [Function.update_self] at here
    exact .inl ⟨rfl, (Option.some.inj here).symm⟩
  · rw [Function.update_of_ne other] at here
    exact .inr ⟨other, here⟩

theorem Sound.ask (sound : Sound seeded none (r.searching hits matched))
    (inside : c ∈ r.roster) {call : RosterCall} (here : r.call c = some call) (unasked : call.asked = false) :
    Sound seeded none ((r.ask c call hits).searching (some c) (c :: matched)) := by
  have unposted := unposted_searching r hits matched
  have fresh : c ∉ r.posts ++ (r.unposted ++ matched) := by
    intro member
    rw [← unposted] at member
    have asked := (sound.asked c call here).mpr member
    rw [unasked] at asked
    exact nomatch asked
  have later : c ∉ r.unposted ++ matched := fun member => fresh (mem_append_right _ member)
  have idle : c ∉ r.mail ++ (r.unposted ++ matched) := by
    intro member
    rcases mem_append.mp member with mail | rest
    · exact fresh (mem_append_left _ (sound.mail.2 c mail))
    · exact later rest
  obtain ⟨made, stays⟩ := mem_roster.mp inside
  have unposted' : ((r.ask c call hits).searching (some c) (c :: matched)).unposted =
      r.unposted ++ c :: matched := unposted_searching _ _ _
  have pend : ∀ d, d ≠ c → (d ∈ r.mail ++ (r.unposted ++ c :: matched) ↔ d ∈ r.mail ++ (r.unposted ++ matched)) := by
    intro d other
    simp [other]
  have perm : (r.unposted ++ c :: matched).Perm (c :: (r.unposted ++ matched)) := perm_middle
  have both : (r.posts ++ (r.unposted ++ c :: matched)).Perm (c :: (r.posts ++ (r.unposted ++ matched))) :=
    (perm.append_left _).trans perm_middle
  have once := sound.once
  rw [unposted] at once
  have hits_ : ∀ d, d ≠ c → (r.ask c call hits).hit d = r.hit d := by
    intro d other
    change (Function.update r.call c _ d).bind _ = _
    rw [Function.update_of_ne other]
    rfl
  refine ⟨sound.stores, sound.left, nofun, fun d => ?_, fun d call' same => ?_, fun d => ?_, sound.distinct, ?_,
    sound.mail, fun d member => ?_, fun d call' same => ?_, fun a member => ?_, fun d call' same => ?_, sound.fine⟩
  · change Function.update r.call c _ d ≠ none ↔ d < r.made ∧ d ∉ r.freed
    have alive : r.call d ≠ none ↔ d < r.made ∧ d ∉ r.freed := sound.alive d
    rw [← alive]
    rcases eq_or_ne d c with rfl | other
    · rw [Function.update_self, here]
      simp
    · rw [Function.update_of_ne other]
  · change call'.refs = (if d ∈ r.left then 0 else 1) +
      (if d ∈ r.mail ++ ((r.ask c call hits).searching (some c) (c :: matched)).unposted then 1 else 0) + 0
    rw [unposted']
    have refs : ∀ call, r.call d = some call → call.refs =
        (if d ∈ r.left then 0 else 1) + (if d ∈ r.mail ++ (r.unposted ++ matched) then 1 else 0) + 0 := by
      intro call same
      rw [← unposted]
      exact sound.refs d call same
    rcases call_ask same with ⟨rfl, rfl⟩ | ⟨other, same'⟩
    · dsimp only
      rw [refs call here, if_neg stays, if_neg idle, if_pos (by simp)]
    · rw [refs call' same']
      simp only [pend d other]
  · change d ∈ r.freed ↔ d < r.made ∧ d ∈ r.left ∧
      d ∉ r.mail ++ ((r.ask c call hits).searching (some c) (c :: matched)).unposted ∧ none ≠ some d
    rw [unposted']
    have freed : d ∈ r.freed ↔ d < r.made ∧ d ∈ r.left ∧ d ∉ r.mail ++ (r.unposted ++ matched) ∧ none ≠ some d := by
      rw [← unposted]
      exact sound.freed d
    rw [freed]
    rcases eq_or_ne d c with rfl | other
    · simp [stays]
    · rw [pend d other]
  · change (r.posts ++ ((r.ask c call hits).searching (some c) (c :: matched)).unposted).Nodup
    rw [unposted', both.nodup_iff]
    exact nodup_cons.mpr ⟨fresh, once⟩
  · change d ∈ r.posts ++ ((r.ask c call hits).searching (some c) (c :: matched)).unposted at member
    rw [unposted', both.mem_iff] at member
    rcases mem_cons.mp member with rfl | old
    · exact made
    · rw [← unposted] at old
      exact sound.made d old
  · change _ ↔ d ∈ r.posts ++ ((r.ask c call hits).searching (some c) (c :: matched)).unposted
    rw [unposted', both.mem_iff, mem_cons]
    rcases call_ask same with ⟨rfl, rfl⟩ | ⟨other, same'⟩
    · simp
    · rw [or_iff_right other, ← unposted]
      exact sound.asked d call' same'
  · change a ∈ r.asking ++ [_] at member
    change Chain (r.ask c call hits).hit a.hits a.matched
    rcases mem_append.mp member with old | new
    · apply (sound.chains a (mem_append_left _ old)).congr
      intro d waits
      apply hits_
      rintro rfl
      exact later (mem_append_left _ (mem_unposted old (mem_append_right _ waits)))
    · obtain rfl := mem_singleton.mp new
      refine ⟨rfl, ?_⟩
      have first : (r.ask c call hits).hit c = hits := by
        change (Function.update r.call c _ c).bind _ = _
        rw [Function.update_self]
        rfl
      rw [first]
      have chain : Chain r.hit hits matched := sound.chains _ (mem_append_right _ mem_cons_self)
      apply chain.congr
      intro d waits
      apply hits_
      rintro rfl
      exact later (mem_append_right _ waits)
  · rcases call_ask same with ⟨rfl, rfl⟩ | ⟨-, same'⟩
    · exact sound.hashes d call here
    · exact sound.hashes d call' same'

/-- What a search has done so far: it asked those that it matched, which were on the roster with the key and
not asked before, and left all else alone. -/
structure Asked (key : Bytes) (r₀ r : Roster) (matched : List Nat) : Prop where
  rest : r = { r₀ with call := r.call }
  others : ∀ c ∉ matched, r.call c = r₀.call c
  those : ∀ c ∈ matched, c ∈ r₀.roster ∧ ∃ call call', r₀.call c = some call ∧ call.asked = false ∧ call.key = key ∧
    r.call c = some call' ∧ call'.asked = true ∧ call'.key = key

theorem Asked.more (asked : Asked key r₀ r matched) (inside : c ∈ r.roster)
    {call : RosterCall} (here : r.call c = some call) (unasked : call.asked = false) (same : call.key = key)
    (hits : Option Nat) : Asked key r₀ (r.ask c call hits) (c :: matched) := by
  have fresh : c ∉ matched := by
    intro member
    obtain ⟨-, -, call', -, -, -, again, asked', -⟩ := asked.those c member
    rw [here] at again
    obtain rfl := Option.some.inj again
    rw [unasked] at asked'
    exact nomatch asked'
  have on : c ∈ r₀.roster := by
    rw [asked.rest] at inside
    exact inside
  refine ⟨?_, fun d absent => ?_, fun d member => ?_⟩
  · rw [Roster.ask]
    conv_lhs => rw [asked.rest]
  · rw [mem_cons, not_or] at absent
    rw [← asked.others d absent.2]
    exact Function.update_of_ne absent.1 _ _
  · rcases mem_cons.mp member with rfl | old
    · exact ⟨on, call, _, (asked.others d fresh).symm.trans here, unasked, same, Function.update_self _ _ _, rfl, same⟩
    · obtain ⟨on', call₀, call', before, unasked', same', after, asked', key'⟩ := asked.those d old
      have other : d ≠ c := fun equal => fresh (equal ▸ old)
      exact ⟨on', call₀, call', before, unasked', same', (Function.update_of_ne other _ _).trans after, asked', key'⟩

theorem callMatch_iff {r : Roster} : r.callMatch key c = true ↔
    ∃ call, r.call c = some call ∧ call.asked = false ∧ call.key = key := by
  rw [callMatch]
  split
  · next none_ => simp [none_]
  · next call some_ => simp [some_]

/-- The search ends, with all that match asked. -/
theorem search_spec (sound : Sound seeded none (r.searching hits matched))
    (asked : Asked key r₀ r matched) (first : hits = matched.head?) : ∃ t matched' enough, (∀ fuel ≥ enough,
        search key (seeded key) fuel r hits matched = some (t, matched'.head?, matched')) ∧
      Sound seeded none (t.searching matched'.head? matched') ∧ Asked key r₀ t matched' ∧
      ∀ c ∈ t.roster, ∀ call, t.call c = some call → call.key = key → call.asked = true := by
  induction work : r.made - matched.length using Nat.strong_induction_on generalizing r hits matched with
  | _ work ih =>
    subst work
    cases found : r.table.find r.node (seeded key) (r.callMatch key) with
    | none =>
      refine ⟨r, matched, 1, fun fuel some_ => ?_, first ▸ sound, asked, fun c inside call here same => ?_⟩
      · obtain ⟨fuel, rfl⟩ : ∃ k, fuel = k + 1 := ⟨fuel - 1, by omega⟩
        rw [search, found, first]
      · have hash : (r.node c).hash = seeded key := by
          rw [← same]
          exact sound.hashes c call here
        have stores : r.table.Stores r.node r.roster := sound.stores
        have passed := stores.find_none found inside hash
        cases unasked : call.asked with
        | true => rfl
        | false =>
          rw [callMatch_iff.mpr ⟨call, here, unasked, same⟩] at passed
          exact nomatch passed
    | some c =>
      have stores : r.table.Stores r.node r.roster := sound.stores
      obtain ⟨inside, -, match_⟩ := stores.find_some found
      obtain ⟨call, here, unasked, same⟩ := callMatch_iff.mp match_
      have sound' := sound.ask inside here unasked
      have asked' := asked.more inside here unasked same hits
      have few : (c :: matched).length ≤ r.made := by
        have distinct := sound'.once
        rw [unposted_searching] at distinct
        have distinct' := (nodup_append.mp (nodup_append.mp distinct).2.1).2.1
        rw [← toFinset_card_of_nodup distinct', ← Finset.card_range r.made]
        apply Finset.card_le_card
        intro d member
        rw [Finset.mem_range]
        apply sound'.made d
        rw [unposted_searching]
        exact mem_append_right _ (mem_append_right _ (mem_toFinset.mp member))
      have less : (r.ask c call hits).made - (c :: matched).length < r.made - matched.length := by
        change r.made - _ < _
        rw [length_cons] at few ⊢
        omega
      obtain ⟨t, matched', enough, ends, rest⟩ := ih _ less sound' asked' rfl rfl
      refine ⟨t, matched', enough + 1, fun fuel some_ => ?_, rest⟩
      obtain ⟨fuel, rfl⟩ : ∃ k, fuel = k + 1 := ⟨fuel - 1, by omega⟩
      rw [search, found]
      dsimp only
      rw [here]
      exact ends fuel (by omega)

/-- What a cancel does before it unlocks. -/
structure Cancels (key : Bytes) (r t : Roster) (matched : List Nat) : Prop where
  asking : t.asking = r.asking ++ [{ hits := matched.head?, matched }]
  distinct : matched.Nodup
  those : ∀ c, c ∈ matched ↔
    c ∈ r.roster ∧ ∃ call, r.call c = some call ∧ call.key = key ∧ call.asked = false
  asked : ∀ c call', t.call c = some call' → ∃ call, r.call c = some call ∧ call'.key = call.key ∧
    (call'.asked = true ↔ call.asked = true ∨ c ∈ matched)
  posts : t.posts = r.posts

theorem Sound.cancel (sound : Sound seeded none r) (key : Bytes) :
    ∃ t matched enough, (∀ fuel ≥ enough, r.cancel key (seeded key) fuel = some t) ∧ Sound seeded none t ∧
      Cancels key r t matched := by
  have idle : Sound seeded none (r.searching none []) := by
    apply sound.reask _ _ sound.fine
    · rw [flatMap_append, flatMap_singleton]
      exact append_nil _
    · intro a member
      rcases mem_append.mp member with old | new
      · exact sound.chains a old
      · obtain rfl := mem_singleton.mp new
        rfl
  have nothing : Asked key r r [] := ⟨rfl, fun _ _ => rfl, fun _ member => nomatch member⟩
  obtain ⟨t, matched, enough, ends, sound', asked, all⟩ := search_spec idle nothing rfl
  have same : t.asking = r.asking := by rw [asked.rest]
  refine ⟨t.searching matched.head? matched, matched, enough, fun fuel some_ => ?_, sound', ?_⟩
  · rw [Roster.cancel, ends fuel some_, Option.map_some]
    rfl
  · refine ⟨?_, ?_, fun c => ⟨fun member => ?_, ?_⟩, fun c call' here => ?_, ?_⟩
    · rw [searching, same]
    · have distinct := sound'.once
      rw [unposted_searching] at distinct
      exact (nodup_append.mp (nodup_append.mp distinct).2.1).2.1
    · obtain ⟨on, call, -, here, unasked, key', -⟩ := asked.those c member
      exact ⟨on, call, here, key', unasked⟩
    · rintro ⟨on, call, here, key', unasked⟩
      by_contra absent
      have on' : c ∈ t.roster := by
        rw [asked.rest]
        exact on
      have later := all c on' call ((asked.others c absent).trans here) key'
      rw [unasked] at later
      exact nomatch later
    · by_cases member : c ∈ matched
      · obtain ⟨-, call, call'', here', unasked, key', after, asked', key''⟩ := asked.those c member
        obtain rfl := Option.some.inj (here.symm.trans after)
        exact ⟨call, here', key''.trans key'.symm, by simp [asked', member]⟩
      · exact ⟨call', (asked.others c member).symm.trans here, rfl, by simp [member]⟩
    · change t.posts = r.posts
      rw [asked.rest]

/-- A step touches the chain of one cancel at most, its own, and what that has posted and has still to post
stays the same. -/
structure Keeps (r t : Roster) (e : Event) : Prop where
  chains : ∃ front own own' back, r.asking = front ++ own ++ back ∧ t.asking = front ++ own' ++ back ∧
    own.length ≤ 1 ∧ ((∀ key, e ≠ .cancel key) →
      t.posts ++ own'.flatMap Asking.waiting = r.posts ++ own.flatMap Asking.waiting)

theorem put_rest (r : Roster) (c : Nat) : (r.put c).asking = r.asking ∧ (r.put c).posts = r.posts := by
  rw [put]
  split
  · exact ⟨rfl, rfl⟩
  · split <;> exact ⟨rfl, rfl⟩

theorem search_le {hash fuel fuel' : Nat} (more : fuel ≤ fuel')
    {result : Roster × Option Nat × List Nat} (ends : search key hash fuel r hits matched = some result) :
    search key hash fuel' r hits matched = some result := by
  induction fuel generalizing fuel' r hits matched with
  | zero => exact nomatch ends
  | succ fuel ih =>
    obtain ⟨fuel', rfl⟩ : ∃ k, fuel' = k + 1 := ⟨fuel' - 1, by omega⟩
    rw [search] at ends ⊢
    split at ends
    · exact ends
    · split at ends
      · exact ends
      · exact ih (Nat.le_of_succ_le_succ more) ends

theorem cancel_enough {t t' : Roster} {hash fuel enough : Nat} (ends : r.cancel key hash fuel = some t)
    (others : ∀ fuel ≥ enough, r.cancel key hash fuel = some t') : t = t' := by
  obtain ⟨result, searched, rfl⟩ := Option.map_eq_some_iff.mp ends
  have same := others (max fuel enough) (le_max_right _ _)
  rw [Roster.cancel, search_le (le_max_left _ _) searched, Option.map_some] at same
  exact Option.some.inj same

theorem Sound.step {e : Event} {t : Roster} (sound : Sound seeded none r) (step : Step seeded r e t) :
    Sound seeded none t ∧ Keeps r t e := by
  have idle : ∀ {t : Roster}, t.asking = r.asking → t.posts = r.posts → Keeps r t e := by
    intro t asking posts
    exact ⟨[], [], [], r.asking, rfl, asking, Nat.zero_le 1, fun _ => by rw [posts]⟩
  cases step with
  | enter key => exact ⟨sound.enter key, idle rfl rfl⟩
  | @leave c made stays =>
    refine ⟨sound.leave made stays, ?_⟩
    obtain ⟨asking, posts⟩ := put_rest { r with
      table := (r.table.unlink r.node c).1, node := (r.table.unlink r.node c).2, left := r.left ++ [c] } c
    exact idle asking posts
  | @cancel t key fuel ends =>
    obtain ⟨t', matched, enough, others, sound', cancels⟩ := sound.cancel key
    obtain rfl := cancel_enough ends others
    refine ⟨sound', r.asking, [], [{ hits := matched.head?, matched }], [], by simp, ?_, Nat.zero_le 1, fun other => absurd rfl (other key)⟩
    rw [append_nil]
    exact cancels.asking
  | @read front back a c here free hits =>
    have inside : a ∈ r.asking := by
      rw [here]
      simp
    have chain := sound.chains a inside
    rw [hits] at chain
    obtain ⟨m, matched, rest⟩ := Chain.some_iff.mp chain
    have alive : (r.call c).isNone = false := by
      have waits : c ∈ r.pending := by
        apply mem_append_right
        exact mem_unposted inside (mem_append_right _ (matched ▸ mem_cons_self))
      obtain ⟨call, some_⟩ := sound.pending_alive waits
      rw [some_]
      rfl
    have waiting : Asking.waiting { hits := r.hit c, posting := some c, matched := a.matched.tail } = a.waiting := by
      rw [Asking.waiting, Asking.waiting, free, matched]
      rfl
    refine ⟨sound.reask ?_ (fun b member => ?_) ?_, front, [a],
      [{ hits := r.hit c, posting := some c, matched := a.matched.tail }], back, ?_, ?_, Nat.le_refl 1, fun _ => ?_⟩
    · rw [unposted, here, flatMap_append, flatMap_append, flatMap_cons, flatMap_cons, waiting]
    · rcases mem_append.mp member with old | new
      · exact sound.chains b (by rw [here]; exact mem_append_left _ old)
      · rcases mem_cons.mp new with rfl | old
        · dsimp only
          rw [matched]
          exact rest
        · exact sound.chains b (by rw [here]; simp [old])
    · rw [sound.fine, alive]
      rfl
    · rw [here]
      simp
    · simp
    · rw [flatMap_singleton, flatMap_singleton, waiting]
  | @post front back a c accepted here posting =>
    obtain ⟨sound', off⟩ := sound.posted here posting
    have inside : a ∈ r.asking := by
      rw [here]
      simp
    have alive : (r.fault || (r.call c).isNone) = r.fault := by
      have waits : c ∈ r.pending := by
        apply mem_append_right
        exact mem_unposted inside (mem_append_left _ (by rw [posting]; exact mem_cons_self))
      obtain ⟨call, some_⟩ := sound.pending_alive waits
      rw [some_]
      exact Bool.or_false _
    obtain ⟨mid, midIs⟩ : ∃ mid, mid = { r with
        asking := front ++ { a with posting := none } :: back, posts := r.posts ++ [c] } := ⟨_, rfl⟩
    have keeps : ∀ {t : Roster}, t.asking = mid.asking → t.posts = mid.posts → Keeps r t (.post accepted) := by
      intro t asking posts
      refine ⟨front, [a], [{ a with posting := none }], back, ?_, ?_, Nat.le_refl 1, fun _ => ?_⟩
      · rw [here]
        simp
      · rw [asking, midIs]
        simp
      · rw [posts, midIs, flatMap_singleton, flatMap_singleton, Asking.waiting, Asking.waiting, posting]
        simp
    rw [alive]
    dsimp only
    rw [← midIs] at sound'
    cases accepted with
    | true =>
      rw [if_pos rfl]
      have posted : c ∈ mid.posts := by
        rw [midIs]
        exact mem_append_right _ mem_cons_self
      have off' : c ∉ mid.pending := by
        rw [midIs]
        exact off
      have accepted := sound'.accept posted off'
      rw [midIs] at accepted keeps
      exact ⟨accepted, keeps rfl rfl⟩
    | false =>
      rw [if_neg Bool.false_ne_true, ← midIs]
      obtain ⟨asking, posts⟩ := put_rest mid c
      exact ⟨sound'.put, keeps asking posts⟩
  | @done front back a here free hits =>
    have inside : a ∈ r.asking := by
      rw [here]
      simp
    have chain := sound.chains a inside
    rw [hits] at chain
    have none_ : a.waiting = [] := by
      rw [Asking.waiting, free, Chain.none_iff.mp chain]
      rfl
    refine ⟨sound.reask ?_ (fun b member => ?_) sound.fine, front, [a], [], back, ?_, ?_, Nat.le_refl 1, fun _ => ?_⟩
    · rw [unposted, here, flatMap_append, flatMap_append, flatMap_cons, none_, nil_append]
    · apply sound.chains b
      rw [here]
      rcases mem_append.mp member with old | old <;> simp [old]
    · rw [here]
      simp
    · simp
    · rw [flatMap_singleton, none_]
      rfl
  | @handle c accepted =>
    obtain ⟨asking, posts⟩ := put_rest { r with mail := r.mail.erase c } c
    exact ⟨(sound.taken accepted).put, idle asking posts⟩

theorem sound_of_run {es : List Event} (run : Trace (Step seeded) {} es r) : Sound seeded none r :=
  run.invariant .start fun _ _ _ sound step => (sound.step step).1

/-- Cancels across loops, after any run of the threads. -/
theorem roster_cancels {es : List Event} (run : Trace (Step seeded) {} es r) :
    r.fault = false ∧ r.posts.Nodup ∧ r.freed.Nodup ∧ (∀ c, r.call c ≠ none ↔ c < r.made ∧ c ∉ r.freed) ∧
    (∀ c, c ∈ r.freed ↔ c < r.made ∧ c ∈ r.left ∧ c ∉ r.mail ∧ ∀ a ∈ r.asking, a.posting ≠ some c ∧ c ∉ a.matched) ∧
    (∀ a ∈ r.asking, Chain r.hit a.hits a.matched) ∧
    (∀ key, ∃ t matched enough, (∀ fuel ≥ enough, r.cancel key (seeded key) fuel = some t) ∧ Cancels key r t matched) ∧
    ∀ e t, Step seeded r e t → Keeps r t e := by
  have sound := sound_of_run run
  refine ⟨sound.fine, (nodup_append.mp sound.once).1, sound.distinct, sound.alive, fun c => ?_, sound.chains,
    fun key => ?_, fun e t step => (sound.step step).2⟩
  · rw [sound.freed, pending, mem_append, not_or, and_assoc]
    have waits : c ∉ r.unposted ↔ ∀ a ∈ r.asking, a.posting ≠ some c ∧ c ∉ a.matched := by
      rw [unposted, mem_flatMap]
      push Not
      apply forall₂_congr
      intro a _
      rw [Asking.waiting, mem_append, not_or, Option.mem_toList]
    rw [waits]
    simp
  · obtain ⟨t, matched, enough, ends, -, cancels⟩ := sound.cancel key
    exact ⟨t, matched, enough, ends, cancels⟩

/-- After a call has entered. -/
theorem roster_cancels_entered : ∃ t matched, Cancels [1] (({} : Roster).enter [1] 0) t matched := by
  have run : Trace (Step fun _ => 0) {} [.enter [1]] (({} : Roster).enter [1] 0) := .single (.enter [1])
  obtain ⟨-, -, -, -, -, -, cancels, -⟩ := roster_cancels run
  obtain ⟨t, matched, -, -, those⟩ := cancels [1]
  exact ⟨t, matched, those⟩

end Roster

end Askai
