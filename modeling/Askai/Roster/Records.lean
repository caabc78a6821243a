import Askai.Library.Bytes
import Askai.Library.Trace
import Askai.Util.Htab

/-!
# The roster

The records of the tool calls that can be cancelled, and what the threads do with them (`roster.c`): calls
that enter and leave, cancels that search under the lock and post outside it, and messages that are handled.
-/

namespace Askai

open Library

/-- `struct roster_call`, but for its link, its loop and its handle. Records are named in the order in which
they are made. -/
structure RosterCall where
  key : Bytes
  refs : Nat := 1
  asked : Bool := false
  hit : Option Nat := none
  deriving DecidableEq

/-- A call of `roster_cancel` that has unlocked. -/
structure Asking where
  hits : Option Nat
  /-- The record that it is about to post. -/
  posting : Option Nat := none
  /-- The matches that its search left in `hits`, those not read yet. -/
  matched : List Nat
  deriving DecidableEq

/-- `struct roster`, with the records, the cancels under way and the messages that loops have accepted. -/
structure Roster where
  table : Htab Nat := { mask := 1023 }
  node : Nat → HtabNode Nat := fun _ => {}
  /-- None once a record has been freed. -/
  call : Nat → Option RosterCall := fun _ => none
  /-- How many records have been made. -/
  made : Nat := 0
  /-- Those that have left. -/
  left : List Nat := []
  asking : List Asking := []
  mail : List Nat := []
  /-- Those whose messages were posted, in order. -/
  posts : List Nat := []
  /-- Those that have been freed, in order. -/
  freed : List Nat := []
  /-- A record was used after it was freed. -/
  fault : Bool := false

namespace Roster

/-- `roster_call_put`. -/
def put (r : Roster) (c : Nat) : Roster :=
  match r.call c with
  | none => { r with fault := true }
  | some call =>
    if call.refs = 1 then { r with call := Function.update r.call c none, freed := r.freed ++ [c] }
    else { r with call := Function.update r.call c (some { call with refs := call.refs - 1 }) }

/-- `roster_enter`, while there is memory. -/
def enter (r : Roster) (key : Bytes) (hash : Nat) : Roster :=
  let c := r.made
  let (table, node) := r.table.link (Function.update r.node c { hash }) c
  { r with table, node, call := Function.update r.call c (some { key }), made := r.made + 1 }

/-- `roster_leave`. -/
def leave (r : Roster) (c : Nat) : Roster :=
  let (table, node) := r.table.unlink r.node c
  put { r with table, node, left := r.left ++ [c] } c

/-- `roster_call_match`. -/
def callMatch (r : Roster) (key : Bytes) (c : Nat) : Bool :=
  match r.call c with
  | none => false
  | some call => !call.asked && decide (call.key = key)

/-- The search of `roster_cancel`: `hits`, and the matches, the last first. None once the fuel is gone. -/
def search (key : Bytes) (hash : Nat) : Nat → Roster → Option Nat → List Nat → Option (Roster × Option Nat × List Nat)
  | 0, _, _, _ => none
  | fuel + 1, r, hits, matched =>
    match r.table.find r.node hash (r.callMatch key) with
    | none => some (r, hits, matched)
    | some c =>
      match r.call c with
      | none => some ({ r with fault := true }, hits, matched)
      | some call =>
        let call := { call with asked := true, refs := call.refs + 1, hit := hits }
        search key hash fuel { r with call := Function.update r.call c (some call) } (some c) (c :: matched)

/-- `roster_cancel` until it unlocks. -/
def cancel (r : Roster) (key : Bytes) (hash fuel : Nat) : Option Roster :=
  (search key hash fuel r none []).map fun (r, hits, matched) =>
    { r with asking := r.asking ++ [{ hits, matched }] }

/-- `c->hit`. -/
def hit (r : Roster) (c : Nat) : Option Nat :=
  (r.call c).bind RosterCall.hit

/-- What the threads do. A cancel reads the record that it posts next, and then posts it, and the message is
accepted or refused. -/
inductive Event where
  | enter (key : Bytes)
  | leave (c : Nat)
  | cancel (key : Bytes)
  | read
  | post (accepted : Bool)
  | done
  | handle (c : Nat)

/-- The steps of the threads, where keys have the hashes that `seeded` gives. -/
inductive Step (seeded : Bytes → Nat) : Roster → Event → Roster → Prop
  | enter {r : Roster} (key : Bytes) : Step seeded r (.enter key) (r.enter key (seeded key))
  | leave {r : Roster} {c : Nat} (made : c < r.made) (stays : c ∉ r.left) : Step seeded r (.leave c) (r.leave c)
  | cancel {r t : Roster} (key : Bytes) (fuel : Nat) (ends : r.cancel key (seeded key) fuel = some t) :
      Step seeded r (.cancel key) t
  | read {r : Roster} {front back : List Asking} {a : Asking} {c : Nat} (here : r.asking = front ++ a :: back)
      (idle : a.posting = none) (hits : a.hits = some c) :
      Step seeded r .read { r with
        asking := front ++ { hits := r.hit c, posting := some c, matched := a.matched.tail } :: back
        fault := r.fault || (r.call c).isNone }
  | post {r : Roster} {front back : List Asking} {a : Asking} {c : Nat} (accepted : Bool)
      (here : r.asking = front ++ a :: back) (posting : a.posting = some c) :
      Step seeded r (.post accepted)
        (let r := { r with
          asking := front ++ { a with posting := none } :: back
          posts := r.posts ++ [c]
          fault := r.fault || (r.call c).isNone }
        if accepted then { r with mail := r.mail ++ [c] } else r.put c)
  | done {r : Roster} {front back : List Asking} {a : Asking} (here : r.asking = front ++ a :: back)
      (idle : a.posting = none) (hits : a.hits = none) : Step seeded r .done { r with asking := front ++ back }
  | handle {r : Roster} {c : Nat} (accepted : c ∈ r.mail) :
      Step seeded r (.handle c) ({ r with mail := r.mail.erase c }.put c)

end Roster

end Askai

/-!
# The records of the roster

How the asked mark, the references and the chains of the cancels agree, in any order of steps.
-/

namespace Askai

open Library

/-- The records that a cancel has still to post. -/
def Asking.waiting (a : Asking) : List Nat :=
  a.posting.toList ++ a.matched

namespace Roster

/-- The records on the roster. -/
def roster (r : Roster) : Finset Nat :=
  (Finset.range r.made).filter (· ∉ r.left)

/-- The records that some cancel has still to post. -/
def unposted (r : Roster) : List Nat :=
  r.asking.flatMap Asking.waiting

/-- The records with a message under way, or about to be. -/
def pending (r : Roster) : List Nat :=
  r.mail ++ r.unposted

/-- Roster, references and chains agree, when a reference to `owed` is about to be dropped. -/
structure Sound (seeded : Bytes → Nat) (owed : Option Nat) (r : Roster) : Prop where
  stores : r.table.Stores r.node r.roster
  left : ∀ c ∈ r.left, c < r.made
  owes : ∀ c, owed = some c → c < r.made
  alive : ∀ c, r.call c ≠ none ↔ c < r.made ∧ c ∉ r.freed
  refs : ∀ c call, r.call c = some call →
    call.refs = (if c ∈ r.left then 0 else 1) + (if c ∈ r.pending then 1 else 0) + (if owed = some c then 1 else 0)
  freed : ∀ c, c ∈ r.freed ↔ c < r.made ∧ c ∈ r.left ∧ c ∉ r.pending ∧ owed ≠ some c
  distinct : r.freed.Nodup
  once : (r.posts ++ r.unposted).Nodup
  mail : r.mail.Nodup ∧ ∀ c ∈ r.mail, c ∈ r.posts
  made : ∀ c ∈ r.posts ++ r.unposted, c < r.made
  asked : ∀ c call, r.call c = some call → (call.asked = true ↔ c ∈ r.posts ++ r.unposted)
  chains : ∀ a ∈ r.asking, Chain r.hit a.hits a.matched
  hashes : ∀ c call, r.call c = some call → (r.node c).hash = seeded call.key
  fine : r.fault = false

variable {seeded : Bytes → Nat} {owed : Option Nat} {r : Roster} {c : Nat}

theorem owed_none (d : Nat) : (if (none : Option Nat) = some d then 1 else 0) = 0 :=
  rfl

theorem mem_roster : c ∈ r.roster ↔ c < r.made ∧ c ∉ r.left := by
  rw [roster, Finset.mem_filter, Finset.mem_range]

namespace Sound

theorem start : Sound seeded none {} where
  stores := .empty (fun _ => rfl) rfl
  left _ member := nomatch member
  owes _ same := nomatch same
  alive _ := by simp
  refs _ _ same := nomatch same
  freed _ := by simp
  distinct := List.nodup_nil
  once := List.nodup_nil
  mail := ⟨List.nodup_nil, fun _ member => nomatch member⟩
  made _ member := nomatch member
  asked _ _ same := nomatch same
  chains _ member := nomatch member
  hashes _ _ same := nomatch same
  fine := rfl

theorem mem_unposted {a : Asking} (here : a ∈ r.asking) (waits : c ∈ a.waiting) : c ∈ r.unposted :=
  List.mem_flatMap.mpr ⟨a, here, waits⟩

/-- A record that is pending has not been freed. -/
theorem pending_alive (sound : Sound seeded owed r) (waits : c ∈ r.pending) : ∃ call, r.call c = some call := by
  apply Option.ne_none_iff_exists'.mp
  rw [ne_eq, ← ne_eq, sound.alive c]
  refine ⟨?_, fun gone => ((sound.freed c).mp gone).2.2.1 waits⟩
  apply sound.made
  rcases List.mem_append.mp waits with mail | later
  · exact List.mem_append_left _ (sound.mail.2 c mail)
  · exact List.mem_append_right _ later

/-- A reference is dropped. -/
theorem put (sound : Sound seeded (some c) r) : Sound seeded none (r.put c) := by
  have made := sound.owes c rfl
  have kept : c ∉ r.freed := fun gone => ((sound.freed c).mp gone).2.2.2 rfl
  obtain ⟨call, here⟩ := Option.ne_none_iff_exists'.mp ((sound.alive c).mpr ⟨made, kept⟩)
  have refs := sound.refs c call here
  rw [if_pos rfl] at refs
  rw [Roster.put, here]
  dsimp only
  split
  · next last =>
    -- the last reference
    have gone : c ∈ r.left ∧ c ∉ r.pending := by
      rw [last] at refs
      constructor
      · by_contra stays
        rw [if_neg stays] at refs
        omega
      · intro waits
        rw [if_pos waits] at refs
        omega
    have others : ∀ d, d ≠ c → Function.update r.call c none d = r.call d := fun d other => Function.update_of_ne other _ _
    have some_ : ∀ d call', Function.update r.call c none d = some call' → d ≠ c ∧ r.call d = some call' := by
      intro d call' same
      rcases eq_or_ne d c with rfl | other
      · rw [Function.update_self] at same
        exact nomatch same
      · rw [others d other] at same
        exact ⟨other, same⟩
    refine ⟨sound.stores, sound.left, nofun, fun d => ?_, fun d call' same => ?_, fun d => ?_, ?_, sound.once,
      sound.mail, sound.made, fun d call' same => sound.asked d call' (some_ d call' same).2, fun a here' => ?_,
      fun d call' same => sound.hashes d call' (some_ d call' same).2, sound.fine⟩
    · change Function.update r.call c none d ≠ none ↔ d < r.made ∧ d ∉ r.freed ++ [c]
      rw [List.mem_append, List.mem_singleton]
      rcases eq_or_ne d c with rfl | other
      · simp
      · rw [others d other, sound.alive]
        simp [other]
    · obtain ⟨other, same'⟩ := some_ d call' same
      rw [sound.refs d call' same', if_neg fun owe => other (Option.some.inj owe).symm]
      rfl
    · change d ∈ r.freed ++ [c] ↔ d < r.made ∧ d ∈ r.left ∧ d ∉ r.pending ∧ none ≠ some d
      rw [List.mem_append, List.mem_singleton, sound.freed]
      rcases eq_or_ne d c with rfl | other
      · simp [made, gone]
      · simp [other, Ne.symm other]
    · change (r.freed ++ [c]).Nodup
      exact List.nodup_append.mpr ⟨sound.distinct, List.nodup_singleton c, by
        rintro x inside y new rfl
        exact kept (List.mem_singleton.mp new ▸ inside)⟩
    · apply (sound.chains a here').congr
      intro d inside
      have other : d ≠ c := by
        rintro rfl
        exact gone.2 (List.mem_append_right _ (mem_unposted here' (List.mem_append_right _ inside)))
      change (Function.update r.call c none d).bind _ = (r.call d).bind _
      rw [others d other]
  · next more =>
    obtain ⟨call', callIs⟩ : ∃ call', call' = { call with refs := call.refs - 1 } := ⟨_, rfl⟩
    rw [← callIs]
    have old : ∀ d call'', Function.update r.call c (some call') d = some call'' →
        (d = c ∧ call'' = call') ∨ (d ≠ c ∧ r.call d = some call'') := by
      intro d call'' same
      rcases eq_or_ne d c with rfl | other
      · rw [Function.update_self] at same
        exact .inl ⟨rfl, (Option.some.inj same).symm⟩
      · rw [Function.update_of_ne other] at same
        exact .inr ⟨other, same⟩
    refine ⟨sound.stores, sound.left, nofun, fun d => ?_, fun d call'' same => ?_, fun d => ?_, sound.distinct,
      sound.once, sound.mail, sound.made, fun d call'' same => ?_, fun a here' => ?_, fun d call'' same => ?_,
      sound.fine⟩
    · change Function.update r.call c (some call') d ≠ none ↔ _
      rw [← sound.alive]
      rcases eq_or_ne d c with rfl | other
      · rw [Function.update_self, here]
        simp
      · rw [Function.update_of_ne other]
    · rcases old d call'' same with ⟨rfl, rfl⟩ | ⟨other, same'⟩
      · change call''.refs = (if d ∈ r.left then 0 else 1) + (if d ∈ r.pending then 1 else 0) + _
        rw [callIs]
        dsimp only
        rw [refs]
        rfl
      · rw [sound.refs d call'' same', if_neg fun owe => other (Option.some.inj owe).symm]
        rfl
    · change d ∈ r.freed ↔ d < r.made ∧ d ∈ r.left ∧ d ∉ r.pending ∧ none ≠ some d
      rw [sound.freed]
      rcases eq_or_ne d c with rfl | other
      · constructor
        · exact fun gone => absurd rfl gone.2.2.2
        · rintro ⟨-, gone, done, -⟩
          rw [if_pos gone, if_neg done] at refs
          exact absurd refs more
      · simp [Ne.symm other]
    · rcases old d call'' same with ⟨rfl, rfl⟩ | ⟨-, same'⟩
      · rw [callIs]
        exact sound.asked d call here
      · exact sound.asked d call'' same'
    · apply (sound.chains a here').congr
      intro d _
      change (Function.update r.call c (some call') d).bind _ = (r.call d).bind _
      rcases eq_or_ne d c with rfl | other
      · rw [Function.update_self, here, callIs]
        rfl
      · rw [Function.update_of_ne other]
    · rcases old d call'' same with ⟨rfl, rfl⟩ | ⟨-, same'⟩
      · rw [callIs]
        exact sound.hashes d call here
      · exact sound.hashes d call'' same'

/-- A call enters. -/
theorem enter (sound : Sound seeded none r) (key : Bytes) : Sound seeded none (r.enter key (seeded key)) := by
  obtain ⟨c, cIs⟩ : ∃ c, c = r.made := ⟨_, rfl⟩
  have fresh : ∀ d, d < r.made → d ≠ c := fun d less => cIs ▸ less.ne
  have stays : c ∉ r.left := fun gone => fresh c (sound.left c gone) rfl
  have unposted : c ∉ r.posts ++ r.unposted := fun here => fresh c (sound.made c here) rfl
  have idle : c ∉ r.pending := by
    intro here
    rcases List.mem_append.mp here with mail | later
    · exact unposted (List.mem_append_left _ (sound.mail.2 c mail))
    · exact unposted (List.mem_append_right _ later)
  obtain ⟨node, nodeIs⟩ : ∃ node, node = Function.update r.node c { hash := seeded key } := ⟨_, rfl⟩
  obtain ⟨linked, linkedIs⟩ : ∃ linked, linked = r.table.link node c := ⟨_, rfl⟩
  obtain ⟨call, callIs⟩ : ∃ call, call = Function.update r.call c (some ({ key } : RosterCall)) := ⟨_, rfl⟩
  have state : r.enter key (seeded key) = { r with table := linked.1, node := linked.2, call, made := r.made + 1 } := by
    rw [Roster.enter, callIs, linkedIs, nodeIs, cIs]
  have old : ∀ d call', call d = some call' → (d = c ∧ call' = { key }) ∨ (d ≠ c ∧ r.call d = some call') := by
    intro d call' same
    rw [callIs] at same
    rcases eq_or_ne d c with rfl | other
    · rw [Function.update_self] at same
      exact .inl ⟨rfl, (Option.some.inj same).symm⟩
    · rw [Function.update_of_ne other] at same
      exact .inr ⟨other, same⟩
  rw [state]
  refine ⟨?_, fun d gone => ?_, nofun, fun d => ?_, fun d call' same => ?_, fun d => ?_, sound.distinct, sound.once,
    sound.mail, fun d here => ?_, fun d call' same => ?_, fun a here => ?_, fun d call' same => ?_, sound.fine⟩
  · have outside : c ∉ r.roster := fun here => fresh c (mem_roster.mp here).1 rfl
    have before : r.table.Stores node r.roster := by
      apply sound.stores.congr
      intro d here
      rw [nodeIs, Function.update_of_ne (fresh d (mem_roster.mp here).1)]
    have roster_ : Roster.roster { r with table := linked.1, node := linked.2, call, made := r.made + 1 } =
        insert c r.roster := by
      ext d
      rw [mem_roster, Finset.mem_insert, mem_roster]
      change d < r.made + 1 ∧ d ∉ r.left ↔ _
      rw [Nat.lt_succ_iff_lt_or_eq, ← cIs]
      constructor
      · rintro ⟨less | rfl, stays⟩
        · exact .inr ⟨less, stays⟩
        · exact .inl rfl
      · rintro (rfl | ⟨less, stays⟩)
        · exact ⟨.inr rfl, stays⟩
        · exact ⟨.inl less, stays⟩
    rw [roster_, linkedIs]
    exact before.link outside
  · exact (sound.left d gone).trans (Nat.lt_succ_self _)
  · change call d ≠ none ↔ d < r.made + 1 ∧ d ∉ r.freed
    rw [callIs]
    rcases eq_or_ne d c with rfl | other
    · rw [Function.update_self]
      have kept : d ∉ r.freed := fun gone => fresh d ((sound.freed d).mp gone).1 rfl
      rw [cIs] at kept
      simp [kept, cIs]
    · rw [Function.update_of_ne other, sound.alive]
      have same : d < r.made + 1 ↔ d < r.made := by omega
      rw [same]
  · rcases old d call' same with ⟨rfl, rfl⟩ | ⟨-, same'⟩
    · change 1 = (if d ∈ r.left then 0 else 1) + (if d ∈ r.pending then 1 else 0) + 0
      rw [if_neg stays, if_neg idle]
    · exact sound.refs d call' same'
  · change d ∈ r.freed ↔ d < r.made + 1 ∧ d ∈ r.left ∧ d ∉ r.pending ∧ none ≠ some d
    rw [sound.freed]
    constructor
    · rintro ⟨less, gone⟩
      exact ⟨less.trans (Nat.lt_succ_self _), gone⟩
    · rintro ⟨-, gone, rest⟩
      exact ⟨sound.left d gone, gone, rest⟩
  · exact (sound.made d here).trans (Nat.lt_succ_self _)
  · rcases old d call' same with ⟨rfl, rfl⟩ | ⟨-, same'⟩
    · exact ⟨nofun, fun here => absurd here unposted⟩
    · exact sound.asked d call' same'
  · apply (sound.chains a here).congr
    intro d inside
    have other : d ≠ c := by
      rintro rfl
      exact idle (List.mem_append_right _ (mem_unposted here (List.mem_append_right _ inside)))
    change (call d).bind _ = (r.call d).bind _
    rw [callIs, Function.update_of_ne other]
  · change (linked.2 d).hash = _
    rw [linkedIs, Htab.link_hash, nodeIs]
    rcases old d call' same with ⟨rfl, rfl⟩ | ⟨other, same'⟩
    · rw [Function.update_self]
    · rw [Function.update_of_ne other]
      exact sound.hashes d call' same'

/-- A call leaves. -/
theorem leave (sound : Sound seeded none r) (made : c < r.made) (stays : c ∉ r.left) :
    Sound seeded none (r.leave c) := by
  obtain ⟨unlinked, unlinkedIs⟩ : ∃ unlinked, unlinked = r.table.unlink r.node c := ⟨_, rfl⟩
  have state : r.leave c = Roster.put { r with table := unlinked.1, node := unlinked.2, left := r.left ++ [c] } c := by
    rw [Roster.leave, unlinkedIs]
  rw [state]
  apply Sound.put
  refine ⟨?_, fun d gone => ?_, fun d same => ?_, sound.alive, fun d call same => ?_, fun d => ?_, sound.distinct,
    sound.once, sound.mail, sound.made, sound.asked, sound.chains, fun d call same => ?_, sound.fine⟩
  · have roster_ : Roster.roster { r with table := unlinked.1, node := unlinked.2, left := r.left ++ [c] } =
        r.roster.erase c := by
      ext d
      rw [mem_roster, Finset.mem_erase, mem_roster]
      change d < r.made ∧ d ∉ r.left ++ [c] ↔ _
      rw [List.mem_append, List.mem_singleton, not_or]
      exact ⟨fun ⟨less, here, other⟩ => ⟨other, less, here⟩, fun ⟨other, less, here⟩ => ⟨less, here, other⟩⟩
    rw [roster_, unlinkedIs]
    exact sound.stores.unlink (mem_roster.mpr ⟨made, stays⟩)
  · rcases List.mem_append.mp gone with before | now
    · exact sound.left d before
    · rw [List.mem_singleton.mp now]
      exact made
  · obtain rfl := Option.some.inj same
    exact made
  · change call.refs = (if d ∈ r.left ++ [c] then 0 else 1) + (if d ∈ r.pending then 1 else 0) +
      (if some c = some d then 1 else 0)
    rw [sound.refs d call same]
    rcases eq_or_ne d c with rfl | other
    · rw [if_neg stays, if_pos (List.mem_append_right _ List.mem_cons_self), if_pos rfl, owed_none]
      omega
    · have same' : d ∈ r.left ++ [c] ↔ d ∈ r.left := by simp [other]
      rw [owed_none, if_neg fun equal => other (Option.some.inj equal).symm]
      simp only [same']
  · change d ∈ r.freed ↔ d < r.made ∧ d ∈ r.left ++ [c] ∧ d ∉ r.pending ∧ some c ≠ some d
    rw [sound.freed, List.mem_append, List.mem_singleton]
    rcases eq_or_ne d c with rfl | other
    · simp [stays]
    · simp [other, Ne.symm other]
  · change (unlinked.2 d).hash = _
    rw [unlinkedIs, Htab.unlink_hash]
    exact sound.hashes d call same

/-- A cancel goes on with the same records to post. -/
theorem reask (sound : Sound seeded owed r) {asking : List Asking} {fault : Bool}
    (same : asking.flatMap Asking.waiting = r.unposted) (chains : ∀ a ∈ asking, Chain r.hit a.hits a.matched)
    (fine : fault = false) : Sound seeded owed { r with asking, fault } where
  stores := sound.stores
  left := sound.left
  owes := sound.owes
  alive := sound.alive
  refs d call here := by
    change call.refs = _ + (if d ∈ r.mail ++ asking.flatMap Asking.waiting then 1 else 0) + _
    rw [same]
    exact sound.refs d call here
  freed d := by
    change d ∈ r.freed ↔ d < r.made ∧ d ∈ r.left ∧ d ∉ r.mail ++ asking.flatMap Asking.waiting ∧ _
    rw [same]
    exact sound.freed d
  distinct := sound.distinct
  once := by
    change (r.posts ++ asking.flatMap Asking.waiting).Nodup
    rw [same]
    exact sound.once
  mail := sound.mail
  made d here := by
    change d ∈ r.posts ++ asking.flatMap Asking.waiting at here
    rw [same] at here
    exact sound.made d here
  asked d call here := by
    change _ ↔ d ∈ r.posts ++ asking.flatMap Asking.waiting
    rw [same]
    exact sound.asked d call here
  chains := chains
  hashes := sound.hashes
  fine := fine

/-- A record whose post is under way: a reference to it is owed. -/
theorem posted (sound : Sound seeded none r) {front back : List Asking} {a : Asking}
    (here : r.asking = front ++ a :: back) (posting : a.posting = some c) :
    Sound seeded (some c) { r with asking := front ++ { a with posting := none } :: back, posts := r.posts ++ [c] } ∧
      c ∉ r.mail ++ (front ++ { a with posting := none } :: back).flatMap Asking.waiting := by
  obtain ⟨rest, restIs⟩ : ∃ rest, rest = (front ++ { a with posting := none } :: back).flatMap Asking.waiting :=
    ⟨_, rfl⟩
  have perm : r.unposted.Perm (c :: rest) := by
    rw [unposted, here, restIs, List.flatMap_append, List.flatMap_append, List.flatMap_cons, List.flatMap_cons]
    change (_ ++ ((a.posting.toList ++ a.matched) ++ _)).Perm (c :: (_ ++ (([] ++ a.matched) ++ _)))
    rw [posting]
    exact List.perm_middle
  have both : (r.posts ++ r.unposted).Perm (r.posts ++ [c] ++ rest) := by
    rw [List.append_assoc]
    exact perm.append_left _
  have once : (r.posts ++ [c] ++ rest).Nodup := both.nodup_iff.mp sound.once
  have fresh : c ∉ r.posts ∧ c ∉ rest := by
    rw [List.append_assoc, List.nodup_append] at once
    obtain ⟨-, later, apart⟩ := once
    exact ⟨fun old => apart c old c List.mem_cons_self rfl, (List.nodup_cons.mp later).1⟩
  have off : c ∉ r.mail ++ rest := by
    intro member
    exact (List.mem_append.mp member).elim (fun mail => fresh.1 (sound.mail.2 c mail)) fresh.2
  have member : ∀ d, d ∈ r.pending ↔ d = c ∨ d ∈ r.mail ++ rest := by
    intro d
    rw [pending, List.mem_append, perm.mem_iff, List.mem_cons, List.mem_append]
    tauto
  have waits : c ∈ r.pending := (member c).mpr (.inl rfl)
  rw [← restIs]
  refine ⟨?_, off⟩
  obtain ⟨call, alive⟩ := sound.pending_alive waits
  have made : c < r.made := ((sound.alive c).mp (by rw [alive]; exact Option.some_ne_none call)).1
  refine ⟨sound.stores, sound.left, fun d same => ?_, sound.alive, fun d call same => ?_, fun d => ?_,
    sound.distinct, ?_, ⟨sound.mail.1, fun d old => List.mem_append_left _ (sound.mail.2 d old)⟩, fun d inside => ?_,
    fun d call same => ?_, fun b inside => ?_, sound.hashes, sound.fine⟩
  · obtain rfl := Option.some.inj same
    exact made
  · change call.refs = _ + (if d ∈ r.mail ++ (front ++ _ :: back).flatMap Asking.waiting then 1 else 0) + _
    rw [← restIs, sound.refs d call same, owed_none]
    rcases eq_or_ne d c with rfl | other
    · rw [if_pos waits, if_neg off, if_pos rfl]
    · have same' : d ∈ r.pending ↔ d ∈ r.mail ++ rest := by rw [member, or_iff_right other]
      rw [if_neg fun equal => other (Option.some.inj equal).symm]
      simp only [same']
  · change d ∈ r.freed ↔ d < r.made ∧ d ∈ r.left ∧ d ∉ r.mail ++ (front ++ _ :: back).flatMap Asking.waiting ∧ _
    rw [← restIs, sound.freed, member]
    rcases eq_or_ne d c with rfl | other
    · simp
    · simp [other, Ne.symm other]
  · change (r.posts ++ [c] ++ (front ++ _ :: back).flatMap Asking.waiting).Nodup
    rw [← restIs]
    exact once
  · apply sound.made
    rw [both.mem_iff, restIs]
    exact inside
  · rw [sound.asked d call same, both.mem_iff, restIs]
    rfl
  · have before : ∃ b' ∈ r.asking, b'.hits = b.hits ∧ b'.matched = b.matched := by
      rw [here]
      rcases List.mem_append.mp inside with front_ | back_
      · exact ⟨b, List.mem_append_left _ front_, rfl, rfl⟩
      · rcases List.mem_cons.mp back_ with rfl | back_
        · exact ⟨a, by simp, rfl, rfl⟩
        · exact ⟨b, by simp [back_], rfl, rfl⟩
    obtain ⟨b', old, hits, matched⟩ := before
    have chain := sound.chains b' old
    rw [hits, matched] at chain
    exact chain

/-- The reference that is owed is that of a message. -/
theorem accept (sound : Sound seeded (some c) r) (posted : c ∈ r.posts) (off : c ∉ r.pending) :
    Sound seeded none { r with mail := r.mail ++ [c] } := by
  have member : ∀ d, d ∈ r.mail ++ [c] ++ r.unposted ↔ d = c ∨ d ∈ r.pending := by
    intro d
    rw [pending, List.mem_append, List.mem_append, List.mem_append, List.mem_singleton]
    tauto
  refine ⟨sound.stores, sound.left, nofun, sound.alive, fun d call same => ?_, fun d => ?_, sound.distinct,
    sound.once, ⟨?_, fun d inside => ?_⟩, sound.made, sound.asked, sound.chains, sound.hashes, sound.fine⟩
  · change call.refs = _ + (if d ∈ r.mail ++ [c] ++ r.unposted then 1 else 0) + 0
    rw [sound.refs d call same]
    rcases eq_or_ne d c with rfl | other
    · rw [if_neg off, if_pos rfl, if_pos ((member d).mpr (.inl rfl))]
    · have same' : d ∈ r.mail ++ [c] ++ r.unposted ↔ d ∈ r.pending := by rw [member, or_iff_right other]
      rw [if_neg fun equal => other (Option.some.inj equal).symm]
      simp only [same']
  · change d ∈ r.freed ↔ d < r.made ∧ d ∈ r.left ∧ d ∉ r.mail ++ [c] ++ r.unposted ∧ none ≠ some d
    rw [sound.freed, member]
    rcases eq_or_ne d c with rfl | other
    · simp
    · simp [other, Ne.symm other]
  · change (r.mail ++ [c]).Nodup
    apply List.nodup_append.mpr ⟨sound.mail.1, List.nodup_singleton c, ?_⟩
    rintro x inside y new rfl
    exact off (List.mem_append_left _ (List.mem_singleton.mp new ▸ inside))
  · rcases List.mem_append.mp inside with old | new
    · exact sound.mail.2 d old
    · rw [List.mem_singleton.mp new]
      exact posted

/-- A message is taken to be handled. -/
theorem taken (sound : Sound seeded none r) (accepted : c ∈ r.mail) :
    Sound seeded (some c) { r with mail := r.mail.erase c } := by
  have distinct := sound.mail.1
  have waits : c ∈ r.pending := List.mem_append_left _ accepted
  have off : c ∉ r.mail.erase c ++ r.unposted := by
    intro member
    rcases List.mem_append.mp member with mail | later
    · exact (distinct.mem_erase_iff.mp mail).1 rfl
    · exact (List.nodup_append.mp sound.once).2.2 c (sound.mail.2 c accepted) c later rfl
  have member : ∀ d, d ≠ c → (d ∈ r.mail.erase c ++ r.unposted ↔ d ∈ r.pending) := by
    intro d other
    rw [pending, List.mem_append, List.mem_append, List.mem_erase_of_ne other]
  obtain ⟨call, alive⟩ := sound.pending_alive waits
  have made : c < r.made := ((sound.alive c).mp (by rw [alive]; exact Option.some_ne_none call)).1
  refine ⟨sound.stores, sound.left, fun d same => ?_, sound.alive, fun d call same => ?_, fun d => ?_,
    sound.distinct, sound.once, ⟨distinct.erase c, fun d inside => sound.mail.2 d (List.mem_of_mem_erase inside)⟩,
    sound.made, sound.asked, sound.chains, sound.hashes, sound.fine⟩
  · obtain rfl := Option.some.inj same
    exact made
  · change call.refs = _ + (if d ∈ r.mail.erase c ++ r.unposted then 1 else 0) + _
    rw [sound.refs d call same, owed_none]
    rcases eq_or_ne d c with rfl | other
    · rw [if_pos waits, if_neg off, if_pos rfl]
    · rw [if_neg fun equal => other (Option.some.inj equal).symm]
      simp only [member d other]
  · change d ∈ r.freed ↔ d < r.made ∧ d ∈ r.left ∧ d ∉ r.mail.erase c ++ r.unposted ∧ some c ≠ some d
    rw [sound.freed]
    rcases eq_or_ne d c with rfl | other
    · simp [waits]
    · simp [member d other, Ne.symm other]

end Sound

end Roster

end Askai
