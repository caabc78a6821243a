import Askai.Loop.Model

/-!
# Delivery of the messages posted

Every message posted is delivered once, in the order of the compare-and-swaps: what the loop has
collected, what it is reversing and its inbox are one queue.
-/

namespace Askai

open Library List

namespace Loop

variable {P : Type*}

/-- What a stage holds of the queue, oldest first. -/
def Batch (next : Msg → Option Msg) : Stage → List Msg → Prop
  | .reverses msg fifo last, batch =>
    batch ≠ [] ∧ last = batch.getLast? ∧
      ∃ rest done, batch = rest.reverse ++ done ∧ Chain next msg rest ∧ Chain next fifo done
  | _, batch => batch = []

/-- The queue of a loop, in its three parts. -/
structure Holds (s : Loop P) (mail batch box : List Msg) : Prop where
  inboxed : Chain s.next s.inbox box
  mailed : Chain s.next s.mail mail
  lasting : s.mailLast = mail.getLast?
  batched : Batch s.next s.stage batch
  order : s.accepted = s.delivered ++ (mail ++ batch ++ box.reverse)
  distinct : (mail ++ batch ++ box.reverse).Nodup
  owned : ∀ p msg, (s.posters p).own = some msg → msg ∉ mail ++ batch ++ box.reverse
  apart : ∀ p q msg, (s.posters p).own = some msg → (s.posters q).own = some msg → p = q
  linked : ∀ p msg head, s.posters p = .swaps msg head → s.next msg = head
  taking : s.stage = .takes → s.inbox ≠ none

/-- A loop whose queue is in order. -/
def Orderly (s : Loop P) : Prop :=
  ∃ mail batch box, s.Holds mail batch box

theorem start_orderly (next : Msg → Option Msg) : (start next : Loop P).Orderly :=
  ⟨[], [], [],
    { inboxed := rfl
      mailed := rfl
      lasting := rfl
      batched := rfl
      order := rfl
      distinct := nodup_nil
      owned := fun _ _ _ => not_mem_nil
      apart := nofun
      linked := nofun
      taking := nofun }⟩

section

variable {s : Loop P} {mail batch box : List Msg} {msg : Msg}

/-- What a free message is not in. -/
theorem Holds.free_notMem (holds : s.Holds mail batch box) (free : s.Free msg) :
    msg ∉ mail ++ batch ++ box.reverse := by
  have counted := free.1
  rw [holds.order, count_append] at counted
  intro member
  have := count_pos_iff.mpr member
  omega

/-- Messages queued may lead on to others without a poster's noticing. -/
theorem Holds.linked_update (holds : s.Holds mail batch box) {x : Msg} {b : Option Msg}
    (member : x ∈ mail ++ batch ++ box.reverse) (p : P) (msg : Msg) (head : Option Msg)
    (at_ : s.posters p = .swaps msg head) : Function.update s.next x b msg = head := by
  have other : msg ≠ x := by
    rintro rfl
    exact holds.owned p msg (by rw [at_]; rfl) member
  rw [Function.update_of_ne other]
  exact holds.linked p msg head at_

/-- A stage that holds nothing of the queue follows another. -/
theorem Holds.move (holds : s.Holds mail batch box) {t : Loop P} {before : Stage} (after : Stage)
    (at_ : s.stage = before) (idle : ∀ l, Batch s.next before l → l = [])
    (next_idle : Batch s.next after []) (ready : after = .takes → s.inbox ≠ none)
    (eq : t = { s with
      stage := after
      wake := t.wake
      asleep := t.asleep
      exit := t.exit
      closing := t.closing }) : t.Orderly := by
  have empty := holds.batched
  rw [at_] at empty
  obtain rfl := idle _ empty
  rw [eq]
  exact ⟨mail, [], box, { holds with batched := next_idle, taking := ready }⟩

/-! ## The loop -/

theorem Holds.take (holds : s.Holds mail batch box) (at_ : s.stage = .takes) :
    Loop.Holds { s with inbox := none, stage := .reverses s.inbox none s.inbox } mail box.reverse [] := by
  have idle := holds.batched
  rw [at_] at idle
  obtain rfl : batch = [] := idle
  have filled : box ≠ [] := fun empty =>
    holds.taking at_ (holds.inboxed.eq_nil_iff.mp empty)
  refine
    { holds with
      inboxed := rfl
      batched := ?_
      order := by simpa using holds.order
      distinct := by simpa using holds.distinct
      owned := by simpa using holds.owned
      taking := nofun }
  refine ⟨by simpa using filled, ?_, box, [], by simp, holds.inboxed, rfl⟩
  rw [List.getLast?_reverse]
  exact holds.inboxed.head

theorem Holds.reverse (holds : s.Holds mail batch box) {fifo last : Option Msg}
    (at_ : s.stage = .reverses (some msg) fifo last) : Loop.Holds
      { s with
        next := Function.update s.next msg fifo
        stage := .reverses (s.next msg) (some msg) last } mail batch box := by
  have going := holds.batched
  rw [at_] at going
  obtain ⟨filled, ends, rest, done, parts, left, right⟩ := going
  obtain ⟨rest, rfl, ahead⟩ := Chain.some_iff.mp left
  have member : msg ∈ batch := by simp [parts]
  have distinct := holds.distinct
  have queued : msg ∈ mail ++ batch ++ box.reverse := by simp [member]
  have apart_mail : msg ∉ mail := by
    intro both
    exact (nodup_append.mp (nodup_append.mp distinct).1).2.2 msg both msg member rfl
  have apart_box : msg ∉ box := by
    intro both
    exact (nodup_append.mp distinct).2.2 msg (by simp [member]) msg (by simpa using both) rfl
  have once : (rest.reverse ++ msg :: done).Nodup := by
    have := (nodup_append.mp (nodup_append.mp distinct).1).2.1
    simpa [parts] using this
  have apart_rest : msg ∉ rest := by
    have := (nodup_append.mp once).2.2
    intro both
    exact this msg (by simpa using both) msg (by simp) rfl
  have apart_done : msg ∉ done :=
    (nodup_cons.mp (nodup_append.mp once).2.1).1
  exact
    { holds with
      inboxed := holds.inboxed.update apart_box
      mailed := holds.mailed.update apart_mail
      batched := ⟨filled, ends, rest, msg :: done, by simp [parts], ahead.update apart_rest,
        right.push apart_done⟩
      linked := holds.linked_update queued
      taking := nofun }

theorem Holds.append (holds : s.Holds mail batch box) {fifo last : Option Msg}
    (at_ : s.stage = .reverses none fifo last) :
    Loop.Holds { s.loopAppend fifo last with stage := .delivers 0 } (mail ++ batch) [] box := by
  have going := holds.batched
  rw [at_] at going
  obtain ⟨filled, ends, rest, done, parts, left, right⟩ := going
  obtain rfl := Chain.none_iff.mp left
  obtain rfl : batch = done := by simpa using parts
  have distinct : (mail ++ batch).Nodup := (nodup_append.mp holds.distinct).1
  have lastly : last = (mail ++ batch).getLast? := by
    rw [ends, List.getLast?_append_of_ne_nil _ filled]
  rcases eq_nil_or_concat mail with rfl | ⟨front, x, rfl⟩
  · have none_last : s.mailLast = none := holds.lasting
    simp only [loopAppend, none_last]
    exact
      { holds with
        mailed := by simpa using right
        lasting := by simpa using lastly
        batched := rfl
        order := by simpa using holds.order
        distinct := by simpa using holds.distinct
        owned := by simpa using holds.owned
        taking := nofun }
  · have some_last : s.mailLast = some x := by simpa using holds.lasting
    have queued : x ∈ front ++ [x] ++ batch ++ box.reverse := by simp
    have apart_box : x ∉ box := by
      intro both
      exact (nodup_append.mp holds.distinct).2.2 x (by simp) x (by simpa using both) rfl
    simp only [concat_eq_append] at holds lastly distinct ⊢
    simp only [loopAppend, some_last]
    refine
      { holds with
        inboxed := holds.inboxed.update apart_box
        mailed := ?_
        lasting := lastly
        batched := rfl
        order := by simpa using holds.order
        distinct := by simpa using holds.distinct
        owned := by simpa using holds.owned
        linked := holds.linked_update queued
        taking := nofun }
    have joined := holds.mailed.append right (by simpa using distinct)
    simpa using joined

/-- The oldest message queued goes to its handler. -/
theorem Holds.deliver (holds : s.Holds mail batch box) {t : Stage} {n : Nat}
    (at_ : s.stage = .delivers n) (first : s.mail = some msg) (idle : Batch s.next t []) (ready : t ≠ .takes) :
    ∃ rest, Loop.Holds { s.loopDeliver msg with stage := t } rest [] box := by
  have empty := holds.batched
  rw [at_] at empty
  obtain rfl : batch = [] := empty
  have chain := holds.mailed
  rw [first] at chain
  obtain ⟨rest, rfl, behind⟩ := Chain.some_iff.mp chain
  refine ⟨rest,
    { holds with
      mailed := behind
      lasting := ?_
      batched := idle
      order := by simpa [loopDeliver] using holds.order
      distinct := ?_
      owned := ?_
      taking := fun same => absurd same ready }⟩
  · simp only [loopDeliver]
    rw [behind.head, holds.lasting]
    simp only [List.head?_eq_none_iff]
    split
    · rename_i none_left
      simp [none_left]
    · rename_i some_left
      rw [List.getLast?_cons_of_ne_nil some_left]
  · have := holds.distinct
    simp only [cons_append, append_nil, nodup_cons] at this
    simpa using this.2
  · intro p other own member
    exact holds.owned p other own (by
      simp only [append_nil, mem_append, cons_append, mem_cons] at member ⊢
      tauto)

/-! ## The posters -/

variable [DecidableEq P]

/-- A poster owns no more than before. -/
theorem Holds.poster (holds : s.Holds mail batch box) {p : P} {at_ : Poster}
    (owns : ∀ msg, at_.own = some msg → (s.posters p).own = some msg)
    (linked : ∀ msg head, at_ = .swaps msg head → s.next msg = head) : (s.poster p at_).Holds mail batch box := by
  have owned (q : P) (msg : Msg) (own : ((s.poster p at_).posters q).own = some msg) :
      (s.posters q).own = some msg := by
    by_cases same : q = p
    · subst same
      exact owns msg (by simpa [Loop.poster] using own)
    · simpa [Loop.poster, Function.update_of_ne same] using own
  refine { holds with owned := ?_, apart := ?_, linked := ?_ }
  · exact fun q msg own => holds.owned q msg (owned q msg own)
  · exact fun q r msg first second => holds.apart q r msg (owned q msg first) (owned r msg second)
  · intro q msg head at_q
    by_cases same : q = p
    · subst same
      exact linked msg head (by simpa [Loop.poster] using at_q)
    · exact holds.linked q msg head (by simpa [Loop.poster, Function.update_of_ne same] using at_q)

theorem Holds.post (holds : s.Holds mail batch box) {p : P}
    (away : s.posters p = .away) (may : s.Free msg ∨ s.inbox = some msg) :
    (s.poster p (loopPost msg s.inbox)).Holds mail batch box := by
  unfold loopPost
  split
  · exact holds.poster nofun nofun
  rename_i fresh
  obtain ⟨counted, unowned⟩ := may.resolve_right fresh
  have outside := holds.free_notMem ⟨counted, unowned⟩
  refine { holds with owned := ?_, apart := ?_, linked := ?_ }
  · intro q other own
    by_cases same : q = p
    · subst same
      obtain rfl : msg = other := by simpa [Loop.poster, Poster.own] using own
      exact outside
    · exact holds.owned q other (by simpa [Loop.poster, Function.update_of_ne same] using own)
  · intro q r other first second
    by_cases at_q : q = p <;> by_cases at_r : r = p
    · rw [at_q, at_r]
    · subst at_q
      obtain rfl : msg = other := by simpa [Loop.poster, Poster.own] using first
      exact absurd (by simpa [Loop.poster, Function.update_of_ne at_r] using second) (unowned r)
    · subst at_r
      obtain rfl : msg = other := by simpa [Loop.poster, Poster.own] using second
      exact absurd (by simpa [Loop.poster, Function.update_of_ne at_q] using first) (unowned q)
    · exact holds.apart q r other (by simpa [Loop.poster, Function.update_of_ne at_q] using first)
        (by simpa [Loop.poster, Function.update_of_ne at_r] using second)
  · intro q other head at_q
    by_cases same : q = p
    · subst same
      simp [Loop.poster] at at_q
    · exact holds.linked q other head (by simpa [Loop.poster, Function.update_of_ne same] using at_q)

theorem Batch.update {next : Msg → Option Msg} {stage : Stage} {x : Msg} {b : Option Msg}
    (holds : Batch next stage batch) (outside : x ∉ batch) : Batch (Function.update next x b) stage batch := by
  cases stage with
  | reverses msg fifo last =>
    obtain ⟨filled, ends, rest, done, rfl, left, right⟩ := holds
    simp only [mem_append, mem_reverse, not_or] at outside
    exact ⟨filled, ends, rest, done, rfl, left.update outside.1, right.update outside.2⟩
  | _ => exact holds

/-- A poster's own message leads on to what it found in the inbox. -/
theorem Holds.link (holds : s.Holds mail batch box) {p : P} {head : Option Msg} (at_ : s.posters p = .links msg head) :
    (Loop.poster { s with next := Function.update s.next msg head } p (.swaps msg head)).Holds mail batch box := by
  have own : (s.posters p).own = some msg := by rw [at_]; rfl
  have outside := holds.owned p msg own
  simp only [mem_append, mem_reverse, not_or] at outside
  have relinked : Loop.Holds { s with next := Function.update s.next msg head } mail batch box :=
    { holds with
      inboxed := holds.inboxed.update outside.2
      mailed := holds.mailed.update outside.1.1
      batched := Batch.update holds.batched outside.1.2
      linked := by
        intro q other head' at_q
        have other_q : other ≠ msg := by
          rintro rfl
          have same := holds.apart q p other (by rw [at_q]; rfl) own
          rw [same, at_] at at_q
          simp at at_q
        exact (Function.update_of_ne other_q ..).trans (holds.linked q other head' at_q) }
  refine relinked.poster (fun other own' => ?_) fun other head' same => ?_
  · rwa [at_]
  · obtain ⟨rfl, rfl⟩ := Poster.swaps.inj same
    exact Function.update_self ..

/-- The compare-and-swap puts a message at the end of the queue. -/
theorem Holds.swap (holds : s.Holds mail batch box) {p : P} (at_ : s.posters p = .swaps msg s.inbox) :
    (Loop.poster { s with inbox := some msg, accepted := s.accepted ++ [msg] } p
      (.rouses msg)).Holds mail batch (msg :: box) := by
  have own : (s.posters p).own = some msg := by rw [at_]; rfl
  have outside := holds.owned p msg own
  have queue : mail ++ batch ++ (msg :: box).reverse = mail ++ batch ++ box.reverse ++ [msg] := by
    simp
  have elsewhere (q : P) (other : P) (m : Msg) (same : q ≠ p)
      (own' : ((Function.update s.posters p (.rouses msg)) q).own = some m) :
      (s.posters q).own = some m := by
    simpa [Function.update_of_ne same] using own'
  have unowned (m : Msg) : ((Function.update s.posters p (.rouses msg)) p).own ≠ some m := by
    simp [Poster.own]
  refine
    { inboxed := ⟨rfl, (holds.linked p msg _ at_).symm ▸ holds.inboxed⟩
      mailed := holds.mailed
      lasting := holds.lasting
      batched := holds.batched
      order := ?_
      distinct := ?_
      owned := ?_
      apart := ?_
      linked := ?_
      taking := fun _ => Option.some_ne_none msg }
  · rw [queue]
    simp only [Loop.poster]
    rw [holds.order, append_assoc]
  · rw [queue]
    exact nodup_append.mpr ⟨holds.distinct, nodup_singleton msg, by
      rintro x member y single rfl
      exact outside (mem_singleton.mp single ▸ member)⟩
  · intro q m own'
    rw [queue]
    by_cases same : q = p
    · subst same
      exact absurd own' (unowned m)
    · have before := elsewhere q p m same own'
      simp only [mem_append, mem_singleton, not_or]
      refine ⟨by simpa [and_assoc] using holds.owned q m before, ?_⟩
      rintro rfl
      exact same (holds.apart q p m before own)
  · intro q r m first second
    by_cases at_q : q = p
    · subst at_q
      exact absurd first (unowned m)
    by_cases at_r : r = p
    · subst at_r
      exact absurd second (unowned m)
    exact holds.apart q r m (elsewhere q p m at_q first) (elsewhere r p m at_r second)
  · intro q m head at_q
    by_cases same : q = p
    · subst same
      simp [Loop.poster] at at_q
    · exact holds.linked q m head (by simpa [Loop.poster, Function.update_of_ne same] using at_q)

theorem Holds.miss (holds : s.Holds mail batch box) {p : P} {head : Option Msg}
    (at_ : s.posters p = .swaps msg head) : (s.poster p (loopPost msg s.inbox)).Holds mail batch box := by
  unfold loopPost
  split
  · exact holds.poster nofun nofun
  · refine holds.poster (fun other own => ?_) nofun
    rwa [at_]

end

/-! ## Every step -/

section

variable [DecidableEq P] {s t : Loop P} {e : LoopEvent P}

/-- Every step keeps the queue in order. -/
theorem Orderly.step (orderly : s.Orderly) (step : LoopStep s e t) : t.Orderly := by
  obtain ⟨mail, batch, box, holds⟩ := orderly
  cases step with
  | post away may => exact ⟨_, _, _, holds.post away may⟩
  | link at_ => exact ⟨_, _, _, holds.link at_⟩
  | swap at_ same =>
    subst same
    exact ⟨_, _, _, holds.swap at_⟩
  | miss at_ => exact ⟨_, _, _, holds.miss at_⟩
  | @rouse p msg at_ =>
    have stirred : Loop.Holds { s with asleep := false } mail batch box := { holds with }
    refine ⟨_, _, _, stirred.poster ?_ ?_⟩
    · intro other own
      split at own <;> simp [Poster.own] at own
    · intro other head same
      split at same <;> simp at same
  | signal at_ =>
    have written : Loop.Holds { s with wake := s.wake + 1 } mail batch box := { holds with }
    exact ⟨_, _, _, written.poster nofun nofun⟩
  | stay at_ goes filled => exact holds.move (.waits false) at_ (fun _ h => h) rfl nofun rfl
  | busy at_ goes => exact holds.move (.waits false) at_ (fun _ h => h) rfl nofun rfl
  | doze at_ goes empty => exact holds.move .looks at_ (fun _ h => h) rfl nofun rfl
  | look at_ => exact holds.move (.waits (s.inbox = none)) at_ (fun _ h => h) rfl nofun rfl
  | wake at_ readable => exact holds.move (.returned true) at_ (fun _ h => h) rfl nofun rfl
  | elapse at_ => exact holds.move (.returned false) at_ (fun _ h => h) rfl nofun rfl
  | stir at_ => exact holds.move (.returned false) at_ (fun _ h => h) rfl nofun rfl
  | interrupt at_ => exact holds.move .turn at_ (fun _ h => h) rfl nofun rfl
  | fail at_ => exact holds.move .collects at_ (fun _ h => h) rfl nofun rfl
  | @rise woken at_ =>
    refine holds.move (if woken then .reads else .collects) at_ (fun _ h => h) ?_ ?_ rfl
    · cases woken <;> rfl
    · cases woken <;> nofun
  | read at_ => exact holds.move .collects at_ (fun _ h => h) rfl nofun rfl
  | skip at_ exits => exact holds.move .collects at_ (fun _ h => h) rfl nofun rfl
  | exits => exact ⟨_, _, _, { holds with }⟩
  | collect at_ =>
    refine holds.move (if s.inbox = none then .delivers 0 else .takes) at_ (fun _ h => h) ?_ ?_ rfl
    · split <;> rfl
    · intro taking
      by_contra empty
      simp [empty] at taking
  | take at_ => exact ⟨_, _, _, holds.take at_⟩
  | reverse at_ => exact ⟨_, _, _, holds.reverse at_⟩
  | append at_ => exact ⟨_, _, _, holds.append at_⟩
  | @deliver n msg at_ first goes =>
    obtain ⟨rest, after⟩ := holds.deliver at_ first
      (t := if s.closing then .collects else .delivers (n + 1))
      (by split <;> rfl) (by split <;> nofun)
    exact ⟨_, _, _, after⟩
  | rest at_ turns stops => exact holds.move .runs at_ (fun _ h => h) rfl nofun rfl
  | run at_ => exact holds.move .turn at_ (fun _ h => h) rfl nofun rfl
  | close at_ exits => exact holds.move .collects at_ (fun _ h => h) rfl nofun rfl
  | finish at_ closes empty => exact holds.move .finished at_ (fun _ h => h) rfl nofun rfl

/-- In every state that a run reaches, the queue is in order. -/
theorem orderly_of_trace {next : Msg → Option Msg} {es : List (LoopEvent P)}
    (run : Trace LoopStep (start next) es s) : s.Orderly :=
  run.invariant (start_orderly next) fun _ _ _ orderly step => orderly.step step

end

end Loop

end Askai
