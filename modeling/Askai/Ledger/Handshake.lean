import Askai.Ledger.Wake
import Mathlib.Logic.Relation

/-!
# The handshake of the waits

A call of the ledger chains waits under the lock; its thread walks the chain without it and posts
each message; a loop delivers it; the handler says that it has heard, and its wait looks at the
ledger later.  The steps of all of these interleave.
-/

namespace Askai

open Library List

/-- A walk of `ledger_wake`: the wait that it has read and not posted, and `hits`.  The waits that
it has still to read are `chain`, which the source does not keep. -/
structure Walk where
  held : Option WaitRef
  rest : Option WaitRef
  chain : List WaitRef
  deriving DecidableEq

/-- The walk of what a call has chained. -/
def Walk.start (hits : List WaitRef) : Walk :=
  { held := none, rest := hits.head?, chain := hits }

/-- The messages that the walk has not posted. -/
def Walk.unposted (walk : Walk) : List WaitRef :=
  walk.held.toList ++ walk.chain

/-- The ledger, the threads that post for it, the loops' messages of waits, and their handlers. -/
structure Handshake where
  ledger : Ledger
  walks : List Walk
  /-- Posted, the newest first. -/
  inbox : List WaitRef
  /-- Taken from the inboxes. -/
  mail : List WaitRef
  /-- Handlers that run, before `ledger_wait_heard`. -/
  delivered : List WaitRef
  /-- Handlers that run, before their `ledger_wait_put`. -/
  closing : List WaitRef
  /-- Waits whose handler has heard and that have not called `ledger_tell` since. -/
  owes : List WaitRef
  /-- Waits with an end or a timer of their owner since their last `ledger_tell` or their entry. -/
  news : Set WaitRef
  /-- Waits freed, each time. -/
  freed : List WaitRef

def handshakeCreate : Handshake where
  ledger := ledgerCreate
  walks := []
  inbox := []
  mail := []
  delivered := []
  closing := []
  owes := []
  news := ∅
  freed := []

/-- `loop_post`: the inboxes with the message; no answer stands for `EALREADY`, of a message that is
the newest of its loop's inbox. -/
def loopPost (wait : WaitRef → Wait) (inbox : List WaitRef) (w : WaitRef) : Option (List WaitRef) :=
  if (inbox.find? fun v => (wait v).loop == (wait w).loop) = some w then none else some (w :: inbox)

namespace Handshake

/-- Messages whose handler has not said that it has heard. -/
def unheard (s : Handshake) : List WaitRef :=
  s.walks.flatMap Walk.unposted ++ (s.inbox ++ (s.mail ++ s.delivered))

/-- Only the lists of messages tell what is unheard. -/
@[simp] theorem unheard_with (s : Handshake) (l : Ledger) (closing owes : List WaitRef)
    (news : Set WaitRef) (freed : List WaitRef) :
    unheard { s with
      ledger := l, closing := closing, owes := owes, news := news, freed := freed } = s.unheard :=
  rfl

/-- `ledger_wait_put`, which frees a wait that no one refers to. -/
def put (s : Handshake) (w : WaitRef) : Handshake :=
  { s with
    ledger := (ledgerWaitPut s.ledger w).1
    freed := if (ledgerWaitPut s.ledger w).2 then w :: s.freed else s.freed }

end Handshake

/-- One step of a thread, a loop, a handler or a waiting call. -/
inductive HandshakeStep (s : Handshake) : Handshake → Prop
  | call (turn : Turn) (before : turn.before = s.ledger) (plain : turn.call.plain = true)
      (allowed : turn.call.Allowed s.ledger) :
      HandshakeStep s
        { s with
          ledger := turn.outcome.ledger
          walks := Walk.start turn.outcome.hits :: s.walks
          news := s.news ∪
            {w | ∃ o, (turn.outcome.ledger.wait w).owner = some o ∧ turn.Happens o} }
  | waitEnter (env : Env) (key : UInt64) (loop : Nat) :
      HandshakeStep s
        { s with
          ledger := (ledgerWaitEnter s.ledger env key loop).ledger
          news := s.news \ {s.ledger.nextWait} }
  /-- `w = hits; hits = w->hit`. -/
  | read (front back : List Walk) (walk : Walk) (w : WaitRef)
      (walks : s.walks = front ++ walk :: back) (idle : walk.held = none)
      (rest : walk.rest = some w) :
      HandshakeStep s
        { s with
          walks := front ++
            { held := some w, rest := (s.ledger.wait w).hit, chain := walk.chain.tail } :: back }
  | post (front back : List Walk) (walk : Walk) (w : WaitRef) (inbox : List WaitRef)
      (walks : s.walks = front ++ walk :: back) (held : walk.held = some w)
      (accepted : loopPost s.ledger.wait s.inbox w = some inbox) :
      HandshakeStep s { s with walks := front ++ { walk with held := none } :: back, inbox := inbox }
  | refused (front back : List Walk) (walk : Walk) (w : WaitRef)
      (walks : s.walks = front ++ walk :: back) (held : walk.held = some w)
      (refused : loopPost s.ledger.wait s.inbox w = none) :
      HandshakeStep s
        (Handshake.put { s with walks := front ++ { walk with held := none } :: back } w)
  | collect (loop : Nat) :
      HandshakeStep s
        { s with
          inbox := s.inbox.filter fun w => (s.ledger.wait w).loop != loop
          mail := s.mail ++ (s.inbox.filter fun w => (s.ledger.wait w).loop == loop).reverse }
  | deliver (w : WaitRef) (inside : w ∈ s.mail) :
      HandshakeStep s { s with mail := s.mail.erase w, delivered := w :: s.delivered }
  | heard (w : WaitRef) (inside : w ∈ s.delivered) :
      HandshakeStep s
        { s with
          ledger := ledgerWaitHeard s.ledger w
          delivered := s.delivered.erase w
          closing := w :: s.closing
          owes := w :: s.owes }
  | put (w : WaitRef) (inside : w ∈ s.closing) :
      HandshakeStep s (Handshake.put { s with closing := s.closing.erase w } w)
  | tell (env : Env) (w : WaitRef) (ids : List HexId)
      (inside : (s.ledger.wait w).owner.isSome = true) :
      HandshakeStep s
        { s with
          ledger := (ledgerTell s.ledger env w ids).ledger
          owes := s.owes.filter (· != w)
          news := s.news \ {w} }
  | leave (w : WaitRef) (inside : (s.ledger.wait w).owner.isSome = true) :
      HandshakeStep s (Handshake.put { s with ledger := ledgerWaitUnlink s.ledger w } w)

namespace Handshake

/-- The invariant of the handshake. -/
structure Kept (s : Handshake) : Prop where
  sound : s.ledger.Sound
  linked : ∀ walk ∈ s.walks, Linked s.ledger.wait walk.rest walk.chain
  nodup : s.unheard.Nodup
  posted : ∀ w, (s.ledger.wait w).posted = true ↔ w ∈ s.unheard
  /-- The ledger, each message, and each handler that runs, have a reference. -/
  refs : ∀ w, (s.ledger.wait w).refs =
    (s.ledger.wait w).owner.isSome.toNat + s.unheard.count w + s.closing.count w
  fresh : ∀ w, s.ledger.nextWait ≤ w → (s.ledger.wait w).refs = 0
  hears : ∀ w ∈ s.news, (s.ledger.wait w).owner.isSome = true → w ∈ s.unheard ∨ w ∈ s.owes
  freed_nodup : s.freed.Nodup
  freed_iff : ∀ w, w ∈ s.freed ↔ w < s.ledger.nextWait ∧ (s.ledger.wait w).refs = 0

theorem Kept.create : Kept handshakeCreate := by
  refine ⟨Ledger.sound_create, ?_, ?_, ?_, ?_, ?_, ?_, ?_, ?_⟩ <;> simp [handshakeCreate, ledgerCreate, unheard]

/-- Messages that move on, from walk to inbox to mail to handler. -/
theorem Kept.moved {s t : Handshake} (kept : Kept s) (ledger : t.ledger = s.ledger) (unheard : t.unheard.Perm s.unheard)
    (linked : ∀ walk ∈ t.walks, Linked s.ledger.wait walk.rest walk.chain)
    (same : t.closing = s.closing ∧ t.owes = s.owes ∧ t.news = s.news ∧ t.freed = s.freed) : Kept t := by
  obtain ⟨closing, owes, news, freed⟩ := same
  refine ⟨ledger ▸ kept.sound, ledger ▸ linked, unheard.nodup_iff.mpr kept.nodup, ?_, ?_, ?_, ?_, ?_, ?_⟩
  · intro w
    rw [ledger, unheard.mem_iff]
    exact kept.posted w
  · intro w
    rw [ledger, unheard.count_eq, closing]
    exact kept.refs w
  · rw [ledger]
    exact kept.fresh
  · intro w
    rw [ledger, news, owes, unheard.mem_iff]
    exact kept.hears w
  · rw [freed]
    exact kept.freed_nodup
  · rw [freed, ledger]
    exact kept.freed_iff

variable {s : Handshake} {w : WaitRef}

/-- A walk replaced by one with the messages `more` instead of `less`. -/
theorem unheard_walks {front back : List Walk} {walk : Walk}
    (walks : s.walks = front ++ walk :: back) (other : Walk) (inbox : List WaitRef) :
    unheard { s with walks := front ++ other :: back, inbox := inbox } =
        front.flatMap Walk.unposted ++ (other.unposted ++ (back.flatMap Walk.unposted ++
          (inbox ++ (s.mail ++ s.delivered)))) ∧
      s.unheard = front.flatMap Walk.unposted ++ (walk.unposted ++ (back.flatMap Walk.unposted ++
          (s.inbox ++ (s.mail ++ s.delivered)))) := by
  constructor <;> simp [unheard, walks]

theorem Kept.read (kept : Kept s) {front back : List Walk} {walk : Walk}
    (walks : s.walks = front ++ walk :: back) (idle : walk.held = none) (rest : walk.rest = some w) :
    Kept { s with
      walks := front ++ { held := some w, rest := (s.ledger.wait w).hit, chain := walk.chain.tail } :: back } := by
  have linked := kept.linked
  have mine := linked walk (by simp [walks])
  obtain ⟨chain, eq⟩ : ∃ chain, walk.chain = w :: chain := by
    cases eq : walk.chain with
    | nil => simp [Linked, eq, rest] at mine
    | cons v chain =>
      rw [eq] at mine
      exact ⟨chain, by rw [Option.some.inj (rest.symm.trans mine.1)]⟩
  rw [eq] at mine
  obtain ⟨after, before⟩ := unheard_walks walks
    { held := some w, rest := (s.ledger.wait w).hit, chain := walk.chain.tail } s.inbox
  refine kept.moved rfl (.of_eq ?_) ?_ ⟨rfl, rfl, rfl, rfl⟩
  · rw [after, before]
    simp [Walk.unposted, idle, eq]
  · intro other inside
    simp only [walks] at linked
    simp only [mem_append, mem_cons] at inside linked
    rcases inside with inside | rfl | inside
    · exact linked other (.inl inside)
    · simpa [eq] using mine.2
    · exact linked other (.inr (.inr inside))

theorem Kept.post (kept : Kept s) {front back : List Walk} {walk : Walk}
    {inbox : List WaitRef} (walks : s.walks = front ++ walk :: back)
    (held : walk.held = some w) (accepted : loopPost s.ledger.wait s.inbox w = some inbox) :
    Kept { s with walks := front ++ { walk with held := none } :: back, inbox := inbox } := by
  have linked := kept.linked
  have put : inbox = w :: s.inbox := by
    unfold loopPost at accepted
    split at accepted
    · simp at accepted
    · exact (Option.some.inj accepted).symm
  obtain ⟨after, before⟩ := unheard_walks walks { walk with held := none } inbox
  refine kept.moved rfl ?_ ?_ ⟨rfl, rfl, rfl, rfl⟩
  · rw [after, before, put]
    refine List.Perm.append_left _ ?_
    have moved : (walk.chain ++ back.flatMap Walk.unposted ++
        w :: (s.inbox ++ (s.mail ++ s.delivered))).Perm (w :: (walk.chain ++
        back.flatMap Walk.unposted ++ (s.inbox ++ (s.mail ++ s.delivered)))) := perm_middle
    simpa [Walk.unposted, held] using moved
  · intro other inside
    simp only [walks] at linked
    simp only [mem_append, mem_cons] at inside linked
    rcases inside with inside | rfl | inside
    · exact linked other (.inl inside)
    · exact linked walk (.inr (.inl rfl))
    · exact linked other (.inr (.inr inside))

/-- A message that a walk holds is in no inbox, so its post is never refused. -/
theorem Kept.accepts (kept : Kept s) {walk : Walk}
    (inside : walk ∈ s.walks) (held : walk.held = some w) : loopPost s.ledger.wait s.inbox w = some (w :: s.inbox) := by
  have absent : w ∉ s.inbox := by
    intro posted
    have apart := (nodup_append.mp kept.nodup).2.2
    refine apart w (mem_flatMap.mpr ⟨walk, inside, ?_⟩) w (by simp [posted]) rfl
    simp [Walk.unposted, held]
  unfold loopPost
  rw [if_neg fun first => absent (mem_of_find?_eq_some first)]

open scoped List in
/-- What a loop takes from its inbox stays unheard. -/
theorem Kept.collect (kept : Kept s) (loop : Nat) :
    Kept { s with
      inbox := s.inbox.filter fun w => (s.ledger.wait w).loop != loop
      mail := s.mail ++ (s.inbox.filter fun w => (s.ledger.wait w).loop == loop).reverse } := by
  refine kept.moved rfl ?_ kept.linked ⟨rfl, rfl, rfl, rfl⟩
  refine List.Perm.append_left _ ?_
  set taken := s.inbox.filter fun w => (s.ledger.wait w).loop == loop
  set left := s.inbox.filter fun w => (s.ledger.wait w).loop != loop
  have parts : (taken ++ left).Perm s.inbox := filter_append_perm _ _
  calc left ++ (s.mail ++ taken.reverse ++ s.delivered)
      = left ++ s.mail ++ taken.reverse ++ s.delivered := by simp
    _ ~ taken.reverse ++ (left ++ s.mail) ++ s.delivered := perm_append_comm.append_right _
    _ ~ taken ++ (left ++ s.mail) ++ s.delivered :=
        (taken.reverse_perm.append_right _).append_right _
    _ = taken ++ left ++ (s.mail ++ s.delivered) := by simp
    _ ~ s.inbox ++ (s.mail ++ s.delivered) := parts.append_right _

theorem Kept.deliver (kept : Kept s) (inside : w ∈ s.mail) :
    Kept { s with mail := s.mail.erase w, delivered := w :: s.delivered } := by
  refine kept.moved rfl ?_ kept.linked ⟨rfl, rfl, rfl, rfl⟩
  refine List.Perm.append_left _ (List.Perm.append_left _ ?_)
  exact perm_middle.trans ((perm_cons_erase inside).symm.append_right s.delivered)

/-- A chain of messages that are unheard stays linked while their waits stay as they are. -/
theorem Kept.linked_after (kept : Kept s) {wait : WaitRef → Wait}
    (same : ∀ w ∈ s.unheard, (wait w).hit = (s.ledger.wait w).hit) :
    ∀ walk ∈ s.walks, Linked wait walk.rest walk.chain := by
  intro walk inside
  refine (kept.linked walk inside).congr fun w chained => same w ?_
  refine mem_append_left _ (mem_flatMap.mpr ⟨walk, inside, ?_⟩)
  exact mem_append_right _ chained

theorem Kept.call (kept : Kept s) {turn : Turn} (before : turn.before = s.ledger)
    (plain : turn.call.plain = true) (allowed : turn.call.Allowed s.ledger) :
    Kept { s with
      ledger := turn.outcome.ledger
      walks := Walk.start turn.outcome.hits :: s.walks
      news := s.news ∪ {w | ∃ o, (turn.outcome.ledger.wait w).owner = some o ∧ turn.Happens o} } := by
  obtain ⟨woke, mine, next, hears⟩ := Ledger.Sound.rouses (before ▸ kept.sound) plain
  rw [before] at woke mine next
  have unheard : ∀ news, unheard { s with
      ledger := turn.outcome.ledger, walks := Walk.start turn.outcome.hits :: s.walks
      news := news } = turn.outcome.hits ++ s.unheard := by
    intro news
    simp [Handshake.unheard, Walk.start, Walk.unposted]
  have apart : ∀ w ∈ turn.outcome.hits, w ∉ s.unheard := by
    intro w inside also
    have unposted := (woke.woken w inside).1
    rw [(kept.posted w).mpr also] at unposted
    contradiction
  have linked := kept.linked_after fun w inside =>
    congrArg Wait.hit (woke.same w fun also => apart w also inside)
  have owner : ∀ w, (turn.outcome.ledger.wait w).owner = (s.ledger.wait w).owner := by
    intro w
    by_cases inside : w ∈ turn.outcome.hits
    · rw [(woke.woken w inside).2]
    · rw [woke.same w inside]
  have refs : ∀ w, (turn.outcome.ledger.wait w).refs = turn.outcome.hits.count w + (s.ledger.wait w).refs := by
    intro w
    by_cases inside : w ∈ turn.outcome.hits
    · rw [(woke.woken w inside).2, count_eq_one_of_mem woke.nodup inside, Nat.add_comm]
    · rw [woke.same w inside, count_eq_zero_of_not_mem inside, Nat.zero_add]
  have known : ∀ w ∈ turn.outcome.hits, (s.ledger.wait w).refs ≠ 0 := by
    intro w inside
    rw [kept.refs, mine w inside, Bool.toNat_true]
    omega
  have sound : Ledger.Sound turn.before := before ▸ kept.sound
  refine ⟨sound.call turn.env (before ▸ allowed), ?_, ?_, ?_, ?_, ?_, ?_, kept.freed_nodup, ?_⟩
  · intro walk inside
    rcases mem_cons.mp inside with rfl | inside
    · exact woke.linked
    · exact linked walk inside
  · rw [unheard]
    exact nodup_append.mpr ⟨woke.nodup, kept.nodup, fun v inside w also same => apart v inside (same ▸ also)⟩
  · intro w
    rw [unheard, mem_append]
    by_cases inside : w ∈ turn.outcome.hits
    · have posted := congrArg Wait.posted (woke.woken w inside).2
      simp [posted, inside]
    · simp [woke.same w inside, inside, kept.posted]
  · intro w
    rw [unheard, count_append, refs, owner, kept.refs]
    simp only
    omega
  · intro w old
    rw [next] at old
    have zero := kept.fresh w old
    rw [refs, zero, count_eq_zero_of_not_mem fun inside => known w inside zero]
  · intro w told inside
    rw [owner] at inside
    rw [unheard, mem_append, or_assoc]
    rcases told with told | ⟨o, mine, happens⟩
    · exact .inr (kept.hears w told inside)
    · have posted := hears o happens w mine
      by_cases chained : w ∈ turn.outcome.hits
      · exact .inl chained
      · rw [woke.same w chained] at posted
        exact .inr (.inl ((kept.posted w).mp posted))
  · intro w
    rw [kept.freed_iff, next, refs]
    refine and_congr_right fun _ => ⟨fun zero => ?_, fun zero => (Nat.add_eq_zero_iff.mp zero).2⟩
    rw [zero, count_eq_zero_of_not_mem fun inside => known w inside zero]

/-- A call that leaves the waits as they are, and their messages. -/
theorem Kept.looked (kept : Kept s) {m : Ledger} (sound : m.Sound)
    (same : s.ledger.SameWaits m) {owes : List WaitRef} {news : Set WaitRef}
    (hears : ∀ w ∈ news, w ∈ s.news ∧ (w ∈ s.owes → w ∈ owes)) :
    Kept { s with ledger := m, owes := owes, news := news } := by
  obtain ⟨wait, next⟩ := same
  refine ⟨sound, ?_, kept.nodup, ?_, ?_, ?_, ?_, kept.freed_nodup, ?_⟩ <;> simp only [wait, next]
  · exact kept.linked
  · exact kept.posted
  · exact kept.refs
  · exact kept.fresh
  · intro w told inside
    exact (kept.hears w (hears w told).1 inside).imp_right (hears w told).2
  · exact kept.freed_iff

/-- No message is of a wait that has not entered. -/
theorem Kept.absent (kept : Kept s) (new : s.ledger.nextWait ≤ w) : w ∉ s.unheard ∧ w ∉ s.closing := by
  have refs := kept.refs w
  rw [kept.fresh w new] at refs
  exact ⟨count_eq_zero.mp (by omega), count_eq_zero.mp (by omega)⟩

theorem Kept.waitEnter (kept : Kept s) (env : Env) (key : UInt64) (loop : Nat) :
    Kept { s with
      ledger := (ledgerWaitEnter s.ledger env key loop).ledger
      news := s.news \ {s.ledger.nextWait} } := by
  have sound := kept.sound.waitEnter env key loop
  have older : ∀ w ∈ s.news \ {s.ledger.nextWait}, w ∈ s.news ∧ (w ∈ s.owes → w ∈ s.owes) :=
    fun w told => ⟨told.1, id⟩
  obtain eq | ⟨m, ⟨e, got, eq⟩ | ⟨o, got, ⟨_, eq⟩ | ⟨room, eq⟩⟩⟩ :=
    Ledger.waitEnter_cases s.ledger env key loop <;> rw [eq] at sound ⊢
  · exact kept.looked sound (Ledger.SameWaits.refl _) older
  · exact kept.looked sound (kept.sound.get_error got).2.less.sameWaits older
  · exact kept.looked sound (kept.sound.get_ok got).same.less.sameWaits older
  obtain ⟨wait, next⟩ := (kept.sound.get_ok got).same.less.sameWaits
  obtain ⟨unheard, closing⟩ := kept.absent (le_refl s.ledger.nextWait)
  have entered : (ledgerWaitLink m o loop).wait = Function.update s.ledger.wait s.ledger.nextWait
      { owner := some o, loop := loop, hit := none, refs := 1, posted := false } := by
    simp [ledgerWaitLink, wait, next]
  have after : (ledgerWaitLink m o loop).nextWait = s.ledger.nextWait + 1 := by
    simp [ledgerWaitLink, next]
  refine ⟨sound, ?_, kept.nodup, ?_, ?_, ?_, ?_, kept.freed_nodup, ?_⟩ <;> simp only [entered, after, unheard_with]
  · refine kept.linked_after fun w inside => ?_
    have old : w ≠ s.ledger.nextWait := fun same => unheard (same ▸ inside)
    rw [Function.update_of_ne old]
  · intro w
    by_cases new : w = s.ledger.nextWait
    · simp [new, unheard]
    · simpa [new] using kept.posted w
  · intro w
    by_cases new : w = s.ledger.nextWait
    · simp [new, count_eq_zero_of_not_mem unheard, count_eq_zero_of_not_mem closing]
    · simpa [new] using kept.refs w
  · intro w old
    have other : w ≠ s.ledger.nextWait := (Nat.lt_of_succ_le old).ne'
    rw [Function.update_of_ne other]
    exact kept.fresh w (Nat.le_of_succ_le old)
  · rintro w ⟨told, other⟩ inside
    rw [Function.update_of_ne other] at inside
    exact kept.hears w told inside
  · intro w
    by_cases new : w = s.ledger.nextWait
    · subst new
      simp [kept.freed_iff]
    · rw [kept.freed_iff, Function.update_of_ne new]
      have order : w < s.ledger.nextWait ↔ w < s.ledger.nextWait + 1 :=
        ⟨Nat.lt_succ_of_lt, fun later => lt_of_le_of_ne (Nat.le_of_lt_succ later) new⟩
      rw [order]

theorem Kept.tell (kept : Kept s) (env : Env) (w : WaitRef) (ids : List HexId) :
    Kept { s with
      ledger := (ledgerTell s.ledger env w ids).ledger
      owes := s.owes.filter (· != w)
      news := s.news \ {w} } := by
  have same : s.ledger.SameWaits (ledgerTell s.ledger env w ids).ledger := by
    unfold ledgerTell
    split
    · exact Ledger.SameWaits.refl _
    · simp only [ledgerOwnerTell]
      constructor
      · exact (Ledger.SameWaits.tell ids _ (s.ledger.setOwner _ _) _).wait
      · exact (Ledger.SameWaits.tell ids _ (s.ledger.setOwner _ _) _).next
  refine kept.looked (kept.sound.tell env w ids) same fun v told => ⟨told.1, fun owes => ?_⟩
  exact mem_filter.mpr ⟨owes, by simpa using told.2⟩

/-- The references that a step leaves when it drops one of the wait at `w`. -/
theorem Kept.dropped {s t : Handshake} (kept : Kept s) (next : t.ledger.nextWait = s.ledger.nextWait)
    (some : (s.ledger.wait w).refs ≠ 0)
    (refs : ∀ v, (t.ledger.wait v).refs = (s.ledger.wait v).refs - if v = w then 1 else 0)
    (freed : t.freed = if (s.ledger.wait w).refs = 1 then w :: s.freed else s.freed) :
    (∀ v, t.ledger.nextWait ≤ v → (t.ledger.wait v).refs = 0) ∧ t.freed.Nodup ∧
      ∀ v, v ∈ t.freed ↔ v < t.ledger.nextWait ∧ (t.ledger.wait v).refs = 0 := by
  have known : w < s.ledger.nextWait := by
    by_contra late
    exact some (kept.fresh w (Nat.le_of_not_lt late))
  have kept_w : w ∉ s.freed := fun inside => some ((kept.freed_iff w).mp inside).2
  refine ⟨fun v old => ?_, ?_, fun v => ?_⟩
  · rw [refs, kept.fresh v (next ▸ old), Nat.zero_sub]
  · rw [freed]
    split
    · exact nodup_cons.mpr ⟨kept_w, kept.freed_nodup⟩
    · exact kept.freed_nodup
  · rw [freed, next, refs]
    by_cases same : v = w
    · subst same
      rw [if_pos rfl]
      split
      · rename_i one
        simp [known, one]
      · rename_i more
        simp only [kept_w, known, true_and, false_iff]
        omega
    · rw [if_neg same, Nat.sub_zero, ← kept.freed_iff]
      split <;> simp [same]

/-- A handler that hears takes one message, and has its reference until it drops it. -/
theorem Kept.heard (kept : Kept s) (inside : w ∈ s.delivered) :
    Kept { s with
      ledger := ledgerWaitHeard s.ledger w
      delivered := s.delivered.erase w
      closing := w :: s.closing
      owes := w :: s.owes } := by
  set left := unheard { s with delivered := s.delivered.erase w } with rest
  have unheard : unheard { s with
      ledger := ledgerWaitHeard s.ledger w, delivered := s.delivered.erase w
      closing := w :: s.closing, owes := w :: s.owes } = left := rfl
  have moved : s.unheard.Perm (w :: left) := by
    simp only [rest, Handshake.unheard, ← append_assoc]
    exact ((perm_cons_erase inside).append_left _).trans perm_middle
  obtain ⟨alone, nodup⟩ := nodup_cons.mp (moved.nodup_iff.mp kept.nodup)
  have refs : ∀ v, ((ledgerWaitHeard s.ledger w).wait v).refs = (s.ledger.wait v).refs := by
    intro v
    by_cases same : v = w <;> simp [ledgerWaitHeard, same]
  have owner : ∀ v, ((ledgerWaitHeard s.ledger w).wait v).owner = (s.ledger.wait v).owner := by
    intro v
    by_cases same : v = w <;> simp [ledgerWaitHeard, same]
  refine ⟨kept.sound.heard w, kept.linked_after fun v _ => ?_, nodup, fun v => ?_, fun v => ?_,
    fun v old => ?_, fun v told entered => ?_, kept.freed_nodup, fun v => ?_⟩
  · by_cases same : v = w <;> simp [ledgerWaitHeard, same]
  · rw [unheard]
    by_cases same : v = w
    · subst same
      simp [ledgerWaitHeard, alone]
    · have posted := kept.posted v
      rw [moved.mem_iff] at posted
      simpa [ledgerWaitHeard, same] using posted
  · rw [unheard, refs, owner, kept.refs, moved.count_eq, count_cons, count_cons]
    omega
  · rw [refs]
    exact kept.fresh v old
  · rw [owner] at entered
    have hears := kept.hears v told entered
    rw [moved.mem_iff] at hears
    rw [unheard]
    simp only [mem_cons] at hears ⊢
    tauto
  · rw [refs]
    exact kept.freed_iff v

theorem Kept.put (kept : Kept s) (inside : w ∈ s.closing) :
    Kept (Handshake.put { s with closing := s.closing.erase w } w) := by
  have wait : ∀ v, (ledgerWaitPut s.ledger w).1.wait v =
      { s.ledger.wait v with refs := (s.ledger.wait v).refs - if v = w then 1 else 0 } := by
    intro v
    by_cases same : v = w
    · subst same
      simp [ledgerWaitPut]
    · simp [ledgerWaitPut, same]
  have some : (s.ledger.wait w).refs ≠ 0 := by
    have positive := count_pos_iff.mpr inside
    rw [kept.refs]
    omega
  obtain ⟨fresh, freed_nodup, freed_iff⟩ := kept.dropped (t := Handshake.put { s with
      closing := s.closing.erase w } w) rfl some (fun v => by simp [Handshake.put, wait])
    (by simp [Handshake.put, ledgerWaitPut])
  refine ⟨kept.sound.put w, kept.linked_after fun v _ => ?_, kept.nodup, fun v => ?_, fun v => ?_,
    fresh, fun v told => ?_, freed_nodup, freed_iff⟩ <;>
    simp only [Handshake.put, unheard_with, wait]
  · exact kept.posted v
  · rw [kept.refs]
    by_cases same : v = w
    · have positive := count_pos_iff.mpr inside
      rw [same, count_erase_self, if_pos rfl]
      omega
    · rw [count_erase_of_ne same, if_neg same, Nat.sub_zero]
  · exact kept.hears v told

/-- What the exit of a wait leaves of it. -/
theorem waitUnlink_wait {l : Ledger} (inside : (l.wait w).owner.isSome = true) :
    (ledgerWaitUnlink l w).wait = Function.update l.wait w { l.wait w with owner := none } ∧
      (ledgerWaitUnlink l w).nextWait = l.nextWait := by
  obtain ⟨o, owner⟩ := Option.isSome_iff_exists.mp inside
  simp only [ledgerWaitUnlink, owner]
  exact ⟨(Ledger.SameTasks.gc _ o).wait, (Ledger.SameTasks.gc _ o).nextWait⟩

theorem waitLeave_wait {l : Ledger} (inside : (l.wait w).owner.isSome = true) (v : WaitRef) :
    (ledgerWaitPut (ledgerWaitUnlink l w) w).1.wait v =
      if v = w then { l.wait w with owner := none, refs := (l.wait w).refs - 1 } else l.wait v := by
  by_cases here : v = w <;> simp [ledgerWaitPut, waitUnlink_wait inside, here]

theorem Kept.leave (kept : Kept s) (inside : (s.ledger.wait w).owner.isSome = true) :
    Kept (Handshake.put { s with ledger := ledgerWaitUnlink s.ledger w } w) := by
  have left := waitLeave_wait inside
  have some : (s.ledger.wait w).refs ≠ 0 := by
    rw [kept.refs, inside, Bool.toNat_true]
    omega
  set t : Handshake := Handshake.put { s with ledger := ledgerWaitUnlink s.ledger w } w
  have refs : ∀ v, (t.ledger.wait v).refs = (s.ledger.wait v).refs - if v = w then 1 else 0 := by
    intro v
    by_cases same : v = w <;> simp [t, Handshake.put, left, same]
  have freed : t.freed = if (s.ledger.wait w).refs = 1 then w :: s.freed else s.freed := by
    simp [t, Handshake.put, ledgerWaitPut, waitUnlink_wait inside]
  obtain ⟨fresh, freed_nodup, freed_iff⟩ :=
    kept.dropped (waitUnlink_wait inside).2 some refs freed
  refine ⟨(kept.sound.waitUnlink w).put w, kept.linked_after fun v _ => ?_, kept.nodup,
    fun v => ?_, fun v => ?_, fresh, fun v told => ?_, freed_nodup, freed_iff⟩ <;>
    simp only [t, Handshake.put, unheard_with, left v]
  · split
    · rename_i same
      rw [same]
    · rfl
  · rw [← kept.posted]
    split
    · rename_i same
      rw [same]
    · rfl
  · have refs := kept.refs v
    split
    · rename_i same
      rw [same, inside, Bool.toNat_true] at refs
      simp only [same, refs, Option.isSome_none, Bool.toNat_false]
      omega
    · exact refs
  · split
    · simp
    · exact kept.hears v told

theorem Kept.step {s t : Handshake} (kept : Kept s) (step : HandshakeStep s t) : Kept t := by
  cases step with
  | call turn before plain allowed => exact kept.call before plain allowed
  | waitEnter env key loop => exact kept.waitEnter env key loop
  | read front back walk w walks idle rest => exact kept.read walks idle rest
  | post front back walk w inbox walks held accepted => exact kept.post walks held accepted
  | refused front back walk w walks held refused =>
    rw [kept.accepts (by simp [walks]) held] at refused
    simp at refused
  | collect loop => exact kept.collect loop
  | deliver w inside => exact kept.deliver inside
  | heard w inside => exact kept.heard inside
  | put w inside => exact kept.put inside
  | tell env w ids inside => exact kept.tell env w ids
  | leave w inside => exact kept.leave inside

theorem Kept.run (run : Relation.ReflTransGen HandshakeStep handshakeCreate s) : Kept s := by
  induction run with
  | refl => exact Kept.create
  | tail _ step kept => exact kept.step step

/-- What the handshake promises. -/
structure Promise (s : Handshake) : Prop where
  /-- A wait has one message at most that is posted and not heard, and none is refused. -/
  once : ∀ w, s.unheard.count w ≤ 1
  accepts : ∀ walk ∈ s.walks, ∀ w, walk.held = some w →
    loopPost s.ledger.wait s.inbox w = some (w :: s.inbox)
  /-- A wait in the ledger for which something happened has its message to come, or its handler
  has its look at the ledger to come. -/
  hears : ∀ w ∈ s.news, (s.ledger.wait w).owner.isSome = true → w ∈ s.unheard ∨ w ∈ s.owes
  /-- A wait is freed once, when it has left and no message of it is left or handled. -/
  freed_nodup : s.freed.Nodup
  freed_iff : ∀ w, w ∈ s.freed ↔ w < s.ledger.nextWait ∧ (s.ledger.wait w).owner = none ∧
    w ∉ s.unheard ∧ w ∉ s.closing

/-- No wake of a wait is lost or doubled, in every order of steps. -/
theorem handshake_promise {s : Handshake}
    (run : Relation.ReflTransGen HandshakeStep handshakeCreate s) : Promise s := by
  have kept := Kept.run run
  refine ⟨nodup_iff_count_le_one.mp kept.nodup, fun walk inside w held => kept.accepts inside held,
    kept.hears, kept.freed_nodup, fun w => ?_⟩
  have alone : (s.ledger.wait w).refs = 0 ↔ (s.ledger.wait w).owner = none ∧ w ∉ s.unheard ∧ w ∉ s.closing := by
    rw [kept.refs]
    cases (s.ledger.wait w).owner <;> simp [count_eq_zero]
  rw [kept.freed_iff, alone]

/-- A wait leaves while the handler of its message runs, which frees it. -/
theorem handshake_promise_left :
    ∃ s, Relation.ReflTransGen HandshakeStep handshakeCreate s ∧ Promise s ∧ s.freed = [0] := by
  let entered := (ledgerWaitEnter ledgerCreate (.steady 1) 7 0).ledger
  let set : Turn := ⟨entered, .steady 2, .timerSet 7 100 []⟩
  have run := Relation.ReflTransGen.refl (r := HandshakeStep) (a := handshakeCreate)
  have run := run.tail (.waitEnter (.steady 1) 7 0)
  have run := run.tail (.call set rfl rfl trivial)
  have run := run.tail (.read [] [] (Walk.start [0]) 0 (by decide +kernel) rfl rfl)
  have run := run.tail (.post [] [] { held := some 0, rest := none, chain := [] } 0 [0]
    (by decide +kernel) rfl (by decide +kernel))
  have run := run.tail (.collect 0)
  have run := run.tail (.deliver 0 (by decide +kernel))
  have run := run.tail (.heard 0 (by decide))
  have run := run.tail (.leave 0 (by decide +kernel))
  have run := run.tail (.put 0 (by decide))
  exact ⟨_, run, handshake_promise run, by decide +kernel⟩

end Handshake

end Askai
