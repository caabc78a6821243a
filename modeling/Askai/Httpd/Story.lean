import Askai.Httpd.Responses
import Askai.Library.Trace

/-!
# Responses in turn

What is queued on a connection is the responses in turn, each whole before the next begins, as long as
no interim response comes once one has begun.
-/

namespace Askai

open Library List

/-! ## The story of a connection -/

/-- The response with more data. -/
def Response.add (r : Response) (bytes : Bytes) : Response where
  head := r.head
  chunks := r.chunks
  pieces := r.pieces ++ if bytes = [] then [] else [bytes]
  filled := by
    intro piece mem
    rcases mem_append.mp mem with mem | mem
    · exact r.filled piece mem
    · split at mem
      · cases mem
      · next some_ =>
          rw [mem_singleton.mp mem]
          exact some_

/-- What is queued for more data: nothing if there is none. -/
def moreBytes (chunks : Bool) (bytes : Bytes) : Bytes :=
  if bytes = [] then [] else HttpdOutput.dataBytes chunks bytes

theorem Response.add_body (r : Response) (bytes : Bytes) : (r.add bytes).body = r.body ++ moreBytes r.chunks bytes := by
  rw [body, add, flatMap_append, body, moreBytes]
  dsimp only
  split
  · rw [flatMap_nil]
  · rw [flatMap_singleton]

/-- What has been said on a connection, and is all queued. -/
inductive Spoken where
  | interim
  | whole (r : Response)
  | own (bytes : Bytes)

def Spoken.bytes : Spoken → Bytes
  | .interim => ascii "HTTP/1.1 100 Continue\r\n\r\n"
  | .whole r => r.bytes
  | .own bytes => bytes

/-- The responses of a connection: those that have ended, the one under way, and whether it is cut
off. -/
structure Story where
  spoken : List Spoken := []
  current : Option Response := none
  cut : Bool := false

namespace Story

def tell (story : Story) : OutEvent → Story
  | .interim => { story with spoken := story.spoken ++ [.interim] }
  | .began head chunks => { story with current := some ⟨head, chunks, [], nofun⟩ }
  | .data bytes => { story with current := story.current.map fun r => r.add bytes }
  | .ended =>
    { story with
      spoken := story.spoken ++ (story.current.map Spoken.whole).toList
      current := none }
  | .own bytes => { story with spoken := story.spoken ++ [.own bytes] }
  | .cut => { story with cut := true }

/-- The story of the events of a run. -/
def of (events : List (List OutEvent)) : Story :=
  events.flatten.foldl tell {}

/-- Of the response under way, what is queued. -/
def begun (story : Story) : Bytes :=
  (story.current.map fun r => r.head ++ r.body).getD []

/-- The responses in turn. -/
def bytes (story : Story) : Bytes :=
  story.spoken.flatMap Spoken.bytes ++ story.begun

theorem tell_own_bytes (story : Story) (bytes : Bytes) : (story.tell (.own bytes)).bytes =
      story.spoken.flatMap Spoken.bytes ++ bytes ++ story.begun := by
  simp [Story.bytes, tell, begun, Spoken.bytes]

end Story

/-! ## What is queued -/

namespace HttpdOutput

variable {s : HttpdOutput} {share : OutShare} {lim : OutLimits} {bytes : Bytes}

theorem put_true (queued : (s.put share bytes).2 = true) :
    (s.put share bytes).1 = { s with queued := s.queued ++ bytes } ∧ s.doomed = false := by
  rw [put] at queued ⊢
  split at queued
  · cases queued
  · next sound =>
      rw [if_neg sound]
      rw [Bool.not_eq_true] at sound
      split at queued
      · next none_ =>
          rw [if_pos none_, none_, append_nil]
          exact ⟨rfl, sound⟩
      · next some_ =>
          rw [if_neg some_]
          split at queued
          · next memory =>
              rw [if_pos memory]
              exact ⟨rfl, sound⟩
          · cases queued

theorem put_false (failed : (s.put share bytes).2 = false) :
    (s.put share bytes).1 = s.doom ∨ (s.put share bytes).1 = s ∧ s.doomed = true := by
  rw [put] at failed ⊢
  split at failed
  · next doomed =>
      rw [if_pos doomed]
      exact .inr ⟨rfl, doomed⟩
  · next sound =>
      rw [if_neg sound]
      split at failed
      · cases failed
      · next some_ =>
          rw [if_neg some_]
          split at failed
          · cases failed
          · next none_ =>
              rw [if_neg none_]
              exact .inl rfl

/-- A doomed connection's step is queued, which closes it. -/
def Queued (s : HttpdOutput) : Prop :=
  s.doomed = true → s.ready = true

/-- Bytes are queued behind others, and none once a connection is doomed. -/
structure Adds (s s' : HttpdOutput) : Prop where
  queued : ∃ bytes, s'.queued = s.queued ++ bytes ∧ (s.doomed = true → bytes = [])
  doomed : s.doomed = true → s'.doomed = true
  ready : s.Queued → s'.Queued

/-- Nothing is queued, and the connection may be doomed. -/
theorem Adds.of_same {s s' : HttpdOutput} (queued : s'.queued = s.queued)
    (doomed : s.doomed = true → s'.doomed = true) (ready : s.Queued → s'.Queued) : Adds s s' :=
  ⟨⟨[], by rw [queued, append_nil], fun _ => rfl⟩, doomed, ready⟩

theorem Adds.trans {s t u : HttpdOutput} (front : Adds s t) (back : Adds t u) : Adds s u := by
  obtain ⟨bytes, queued, none_⟩ := front.queued
  obtain ⟨more, queued', none'⟩ := back.queued
  refine ⟨⟨bytes ++ more, ?_, fun doomed => ?_⟩, fun doomed => back.doomed (front.doomed doomed),
    fun ready => back.ready (front.ready ready)⟩
  · rw [queued', queued, append_assoc]
  · rw [none_ doomed, none' (front.doomed doomed), append_nil]

theorem put_adds (s : HttpdOutput) (share : OutShare) (bytes : Bytes) : Adds s (s.put share bytes).1 := by
  cases queued : (s.put share bytes).2 with
  | true =>
    obtain ⟨after, sound⟩ := put_true queued
    rw [after]
    refine ⟨⟨bytes, rfl, fun doomed => ?_⟩, id, id⟩
    cases sound.symm.trans doomed
  | false =>
    rcases put_false queued with after | ⟨after, doomed⟩
    · rw [after]
      exact .of_same rfl (fun _ => rfl) fun _ _ => rfl
    · rw [after]
      exact .of_same rfl id id

theorem put_req (s : HttpdOutput) (share : OutShare) (bytes : Bytes) : (s.put share bytes).1.req = s.req := by
  cases queued : (s.put share bytes).2 with
  | true => rw [(put_true queued).1]
  | false =>
    rcases put_false queued with after | ⟨after, -⟩
    · rw [after]
      rfl
    · rw [after]

/-- What fails to be queued leaves the connection doomed. -/
theorem put_fails (failed : (s.put share bytes).2 = false) (was : s.Queued) :
    (s.put share bytes).1.queued = s.queued ∧ (s.put share bytes).1.doomed = true ∧
      (s.put share bytes).1.ready = true := by
  rcases put_false failed with after | ⟨after, doomed⟩
  · rw [after]
    exact ⟨rfl, rfl, rfl⟩
  · rw [after]
    exact ⟨rfl, doomed, was doomed⟩

/-- A response of the server's own has been queued, as far as it could be. -/
structure Responded (s s' : HttpdOutput) : Prop extends Adds s s' where
  replied : s'.req.replied = true
  done : s'.req.done = true
  isOpen : s'.req.isOpen = s.req.isOpen

theorem heads_adds (s : HttpdOutput) (share : OutShare) (length : Option Nat) : Adds s (s.heads share length) :=
  .of_same rfl id id

theorem respond_responded (s : HttpdOutput) (share : OutShare) (status : Nat) (extra : List Bytes)
    (body : Option Bytes) : Responded s (s.respond share status extra body) := by
  rw [respond]
  dsimp only
  rw [connHead]
  generalize httpdConnHead s.req s.head _ status _ extra _ = bytes
  generalize length : some (body.getD []).length = n
  have head := (heads_adds s share n).trans (put_adds (s.heads share n) share bytes)
  have req := put_req (s.heads share n) share bytes
  cases queued : (s.heads share n).put share bytes with
  | mk t whole =>
    rw [queued] at head req
    dsimp only at head req
    cases whole with
    | true =>
      dsimp only
      have both := head.trans (put_adds t share (body.getD []))
      have req' := put_req t share (body.getD [])
      refine ⟨⟨both.queued, both.doomed, both.ready⟩, ?_, rfl, ?_⟩
      · change (t.put share (body.getD [])).1.req.replied = true
        rw [req', req]
        rfl
      · change (t.put share (body.getD [])).1.req.isOpen = s.req.isOpen
        rw [req', req]
        rfl
    | false =>
      refine ⟨⟨head.queued, head.doomed, head.ready⟩, ?_, rfl, ?_⟩
      · change t.req.replied = true
        rw [req]
        rfl
      · change t.req.isOpen = s.req.isOpen
        rw [req]
        rfl

/-- No more downcalls are taken. -/
def shut (s : HttpdOutput) : HttpdOutput :=
  { s with req := { s.req with isOpen := false }, writable := false }

/-- The response is over, and the connection's step is queued. -/
def finish (s : HttpdOutput) : HttpdOutput :=
  { s with req := { s.req with done := true }, ready := true }

theorem streamEnd_eq {failed : Bool} (isOpen : s.req.isOpen = true) : s.streamEnd share failed =
      (if s.req.replied = false then s.shut.error share 500 [] []
      else if failed then ({ s.shut with closing := true } : HttpdOutput).doom
      else (s.shut.put share (endBytes s.req.chunks)).1).finish := by
  rw [streamEnd, if_neg (by rw [isOpen]; nofun)]
  rfl

/-- The request is failed: no more downcalls are taken, and the connection will close. -/
def failing (s : HttpdOutput) : HttpdOutput :=
  { s with req := { s.req with isOpen := false }, writable := s.writable && !s.req.isOpen,
           closing := true }

theorem fail_eq (s : HttpdOutput) (share : OutShare) (status : Nat) : s.fail share status =
      if s.req.replied then s.failing.doom else s.failing.error share status [] [] :=
  rfl

theorem Responded.finished {t : HttpdOutput} (responded : Responded s t) : Responded s t.finish where
  queued := responded.queued
  doomed := responded.doomed
  ready := fun _ _ => rfl
  replied := responded.replied
  done := rfl
  isOpen := responded.isOpen

end HttpdOutput

/-! ## A step -/

/-- What is queued is the story. -/
structure Recounts (s : HttpdOutput) (story : Story) : Prop where
  queued : s.queued = story.bytes
  cut : story.cut = s.doomed
  current : s.doomed = false → story.current.isSome = (s.req.replied && !s.req.done)
  chunks : s.doomed = false → ∀ r, story.current = some r → r.chunks = s.req.chunks
  undone : s.req.isOpen = true → s.req.done = false
  ready : s.Queued

namespace Recounts

open HttpdOutput

variable {s s' : HttpdOutput} {story : Story}

theorem start : Recounts {} {} :=
  ⟨rfl, rfl, fun _ => rfl, fun _ _ => nofun, nofun, nofun⟩

/-- The connection is cut off, or was. -/
theorem cuts (queued : s'.queued = story.bytes) (was : story.cut = true → s'.doomed = true)
    (current : s'.doomed = false → story.current.isSome = (s'.req.replied && !s'.req.done))
    (chunks : s'.doomed = false → ∀ r, story.current = some r → r.chunks = s'.req.chunks)
    (undone : s'.req.isOpen = true → s'.req.done = false) (ready : s'.Queued) :
    Recounts s' (s'.cuts.foldl Story.tell story) := by
  rw [HttpdOutput.cuts]
  cases doomed : s'.doomed with
  | true =>
    rw [if_pos rfl]
    exact ⟨queued, doomed.symm, fun sound => (by cases doomed.symm.trans sound),
      fun sound => (by cases doomed.symm.trans sound), undone, ready⟩
  | false =>
    rw [if_neg (by nofun)]
    refine ⟨queued, ?_, current, chunks, undone, ready⟩
    rw [doomed, Bool.eq_false_iff]
    intro cut
    cases doomed.symm.trans (was cut)

/-- The response under way is cut off. -/
theorem dooms (queued : s'.queued = story.bytes) (doomed : s'.doomed = true) (ready : s'.ready = true)
    (undone : s'.req.isOpen = true → s'.req.done = false) : Recounts s' (story.tell .cut) :=
  ⟨queued, doomed.symm, fun sound => (by cases doomed.symm.trans sound),
    fun sound => (by cases doomed.symm.trans sound), undone, fun _ => ready⟩

/-- A doomed connection's response is cut off, or was. -/
theorem falls (queued : s'.queued = story.bytes) (doomed : s'.doomed = true) (ready : s'.ready = true)
    (undone : s'.req.isOpen = true → s'.req.done = false) : Recounts s' (s'.cuts.foldl Story.tell story) := by
  rw [HttpdOutput.cuts, if_pos doomed]
  exact dooms queued doomed ready undone

/-- Nothing is said. -/
theorem still (recounts : Recounts s story) (queued : s'.queued = s.queued)
    (doomed : s'.doomed = s.doomed) (req : s'.req = s.req) (ready : s'.Queued) : Recounts s' story := by
  refine ⟨?_, ?_, ?_, ?_, ?_, ready⟩
  · rw [queued, recounts.queued]
  · rw [doomed, recounts.cut]
  · rw [doomed, req]
    exact recounts.current
  · rw [doomed, req]
    exact recounts.chunks
  · rw [req]
    exact recounts.undone

theorem keeps_cut (recounts : Recounts s story) : Recounts s (s.cuts.foldl Story.tell story) :=
  cuts recounts.queued (fun cut => recounts.cut.symm.trans cut) recounts.current recounts.chunks
    recounts.undone recounts.ready

/-- Before a response begins there is none under way. -/
theorem alone (recounts : Recounts s story) (sound : s.doomed = false)
    (idle : s.req.replied = false) : story.current = none := by
  have none_ := recounts.current sound
  rw [idle, Bool.false_and] at none_
  exact Option.isNone_iff_eq_none.mp (by rw [← Option.not_isSome, none_]; rfl)

/-- A response of the server's own. -/
theorem owns {t : HttpdOutput} (recounts : Recounts s story) (queued : t.queued = s.queued)
    (doomed : t.doomed = s.doomed) (ready : t.ready = s.ready) (idle : s.req.replied = false)
    (shut : t.req.isOpen = false) (responded : Responded t s') : Recounts s' ((s.owns s').foldl Story.tell story) := by
  obtain ⟨bytes, after, none_⟩ := responded.queued
  rw [queued] at after
  rw [doomed] at none_
  have more : s.more s' = bytes := by rw [more, after, drop_left]
  rw [HttpdOutput.owns, foldl_cons, more]
  have alone : s.doomed = false → story.current = none := fun sound => recounts.alone sound idle
  have sound_ : s'.doomed = false → s.doomed = false := by
    intro sound
    rw [Bool.eq_false_iff] at sound ⊢
    exact fun was => sound (responded.doomed (doomed.trans was))
  refine cuts ?_ ?_ ?_ ?_ ?_ ?_
  · rw [after, recounts.queued, Story.tell_own_bytes]
    cases was : s.doomed with
    | true => rw [none_ was, append_nil, Story.bytes, append_nil]
    | false => rw [Story.bytes, Story.begun, alone was]; simp
  · intro cut
    exact responded.doomed (doomed.trans (recounts.cut.symm.trans cut))
  · intro sound
    rw [responded.replied, responded.done]
    exact congrArg Option.isSome (alone (sound_ sound))
  · intro sound r under
    cases (alone (sound_ sound)).symm.trans under
  · intro isOpen
    cases (responded.isOpen.trans shut).symm.trans isOpen
  · apply responded.ready
    rw [HttpdOutput.Queued, doomed, ready]
    exact recounts.ready

/-! ### The downcalls -/

theorem streamHead {share : OutShare} {status : Nat} {fields : Bytes} {length : Option Nat}
    (recounts : Recounts s story) : Recounts (s.streamHead share status fields length).1
      ((if (s.streamHead share status fields length).2 = .ok then
          [OutEvent.began (s.more (s.streamHead share status fields length).1)
            (s.streamHead share status fields length).1.req.chunks]
        else (s.streamHead share status fields length).1.cuts).foldl Story.tell story) := by
  rw [HttpdOutput.streamHead]
  split
  · next stays =>
      rw [if_neg (by simp)]
      exact recounts.keeps_cut
  · next goes =>
      push Not at goes
      rw [Bool.ne_false_iff, ne_eq, Bool.not_eq_true] at goes
      obtain ⟨isOpen, idle⟩ := goes
      have undone := recounts.undone isOpen
      rw [connHead]
      generalize httpdConnHead s.req s.head _ status fields [] length = bytes
      have req := put_req (s.heads share length) share bytes
      cases whole : (s.heads share length).put share bytes with
      | mk t ok =>
        rw [whole] at req
        dsimp only at req
        cases ok with
        | true =>
          obtain ⟨after, sound⟩ := put_true (congrArg Prod.snd whole)
          rw [whole] at after
          change s.doomed = false at sound
          dsimp only at after
          have more : s.more { t with ready := true } = bytes := by
            rw [HttpdOutput.more, after]
            exact drop_left
          dsimp only
          rw [if_pos rfl, foldl_cons, foldl_nil, more]
          have alone := recounts.alone sound idle
          refine ⟨?_, ?_, ?_, ?_, ?_, fun _ => rfl⟩
          · rw [after]
            change s.queued ++ bytes = _
            rw [recounts.queued, Story.bytes, Story.begun, alone, Story.bytes, Story.begun]
            simp [Story.tell, Response.body]
          · rw [after]
            exact recounts.cut
          · intro _
            rw [req]
            change true = (true && !s.req.done)
            rw [undone]
            rfl
          · intro _ r under
            rw [← Option.some.inj under]
          · intro _
            rw [req]
            exact undone
        | false =>
          have fails := put_fails (congrArg Prod.snd whole) (s := s.heads share length) recounts.ready
          rw [whole] at fails
          obtain ⟨same, doomed, ready⟩ := fails
          dsimp only
          rw [if_neg (by simp)]
          refine falls (same.trans recounts.queued) doomed ready fun _ => ?_
          rw [req]
          exact undone

/-- The response under way has more data. -/
theorem goes_on {bytes : Bytes} (recounts : Recounts s story)
    (queued : s'.queued = s.queued ++ moreBytes s.req.chunks bytes) (doomed : s'.doomed = s.doomed)
    (req : s'.req = s.req) (ready : s'.Queued)
    (under : bytes = [] ∨ s.doomed = false ∧ s.req.replied = true ∧ s.req.done = false) :
    Recounts s' (story.tell (.data bytes)) := by
  refine ⟨?_, ?_, ?_, ?_, ?_, ready⟩
  · rw [queued, recounts.queued, Story.bytes, Story.begun, Story.bytes, Story.begun, Story.tell, append_assoc]
    congr 1
    cases current : story.current with
    | none =>
      rcases under with none_ | ⟨sound, replied, undone⟩
      · rw [none_]
        rfl
      · have some_ := recounts.current sound
        rw [current, replied, undone] at some_
        cases some_
    | some r =>
      change r.head ++ r.body ++ _ = r.head ++ (r.add bytes).body
      rw [r.add_body, ← append_assoc]
      congr 1
      rcases under with none_ | ⟨sound, -, -⟩
      · rw [none_]
        rfl
      · rw [recounts.chunks sound r current]
  · rw [doomed]
    exact recounts.cut
  · rw [doomed, req]
    intro sound
    rw [← recounts.current sound]
    exact Option.isSome_map
  · rw [doomed, req]
    intro sound r current
    obtain ⟨q, was, rfl⟩ := Option.map_eq_some_iff.mp current
    exact recounts.chunks sound q was
  · rw [req]
    exact recounts.undone

theorem streamData {share : OutShare} {lim : OutLimits} {bytes : Bytes} (recounts : Recounts s story) :
    Recounts (s.streamData share lim bytes).1
      ((if (s.streamData share lim bytes).2 = .epipe then (s.streamData share lim bytes).1.cuts
        else [OutEvent.data bytes]).foldl Story.tell story) := by
  rw [HttpdOutput.streamData]
  split
  · rw [if_pos rfl]
    exact recounts.keeps_cut
  · next goes =>
      push Not at goes
      rw [Bool.ne_false_iff, Bool.ne_false_iff] at goes
      obtain ⟨isOpen, replied⟩ := goes
      have undone := recounts.undone isOpen
      split
      · next none_ =>
          rw [if_neg (by nofun), none_]
          exact recounts.goes_on (append_nil _).symm rfl rfl recounts.ready (.inl rfl)
      · next some_ =>
          split
          · rw [if_pos rfl]
            exact falls recounts.queued rfl rfl recounts.undone
          · have req := put_req s share (dataBytes s.req.chunks bytes)
            cases whole : s.put share (dataBytes s.req.chunks bytes) with
            | mk t ok =>
              rw [whole] at req
              dsimp only at req
              cases ok with
              | true =>
                obtain ⟨after, sound⟩ := put_true (congrArg Prod.snd whole)
                rw [whole] at after
                dsimp only at after
                have queued : t.queued = s.queued ++ moreBytes s.req.chunks bytes := by
                  rw [after, moreBytes, if_neg some_]
                have doomed : t.doomed = s.doomed := by rw [after]
                dsimp only
                split
                · rw [if_neg (by nofun)]
                  exact recounts.goes_on queued doomed req (fun _ => rfl) (.inr ⟨sound, replied, undone⟩)
                · rw [if_neg (by nofun)]
                  exact recounts.goes_on queued doomed req (fun _ => rfl) (.inr ⟨sound, replied, undone⟩)
              | false =>
                have fails := put_fails (congrArg Prod.snd whole) recounts.ready
                rw [whole] at fails
                obtain ⟨same, doomed, ready⟩ := fails
                dsimp only
                rw [if_pos rfl]
                refine falls (same.trans recounts.queued) doomed ready fun _ => ?_
                rw [req]
                exact undone

/-- The response under way ends. -/
theorem ends (recounts : Recounts s story) (sound : s.doomed = false) (replied : s.req.replied = true)
    (undone : s.req.done = false) (queued : s'.queued = s.queued ++ endBytes s.req.chunks)
    (doomed : s'.doomed = s.doomed) (done : s'.req.done = true) (shut : s'.req.isOpen = false)
    (ready : s'.Queued) : Recounts s' (story.tell .ended) := by
  have some_ := recounts.current sound
  rw [replied, undone] at some_
  obtain ⟨r, current⟩ := Option.isSome_iff_exists.mp some_
  refine ⟨?_, ?_, ?_, ?_, ?_, ready⟩
  · rw [queued, recounts.queued, Story.bytes, Story.begun, current, ← recounts.chunks sound r current,
      Story.bytes, Story.begun, Story.tell, current]
    simp [Spoken.bytes, Response.bytes]
  · rw [doomed]
    exact recounts.cut
  · intro _
    rw [done, Bool.not_true, Bool.and_false]
    rfl
  · exact fun _ r under => nomatch under
  · intro isOpen
    cases shut.symm.trans isOpen

theorem streamEnd {share : OutShare} {failed : Bool} (recounts : Recounts s story) : Recounts (s.streamEnd share failed)
      ((if s.req.isOpen = false then []
        else if s.req.replied = false then s.owns (s.streamEnd share failed)
        else if (s.streamEnd share failed).doomed then [.cut]
        else [.ended]).foldl Story.tell story) := by
  cases isOpen : s.req.isOpen with
  | false =>
    rw [HttpdOutput.streamEnd, if_pos isOpen, if_pos rfl]
    exact recounts
  | true =>
    have undone := recounts.undone isOpen
    rw [if_neg (by nofun)]
    cases replied : s.req.replied with
    | false =>
      rw [if_pos rfl, streamEnd_eq isOpen, if_pos replied, HttpdOutput.error]
      exact recounts.owns (t := s.shut) rfl rfl rfl replied rfl (respond_responded _ share 500 [] _).finished
    | true =>
      rw [if_neg (by nofun), streamEnd_eq isOpen, if_neg (by rw [replied]; nofun)]
      cases failed with
      | true =>
        rw [if_pos rfl]
        change Recounts _ (story.tell .cut)
        exact dooms recounts.queued rfl rfl nofun
      | false =>
        rw [if_neg (by nofun)]
        have req := put_req s.shut share (endBytes s.req.chunks)
        have closed : (s.shut.put share (endBytes s.req.chunks)).1.req.isOpen = false := by
          rw [req]
          rfl
        cases ok : (s.shut.put share (endBytes s.req.chunks)).2 with
        | true =>
          obtain ⟨after, sound⟩ := put_true ok
          change s.doomed = false at sound
          rw [after, if_neg (by change ¬s.doomed = true; rw [sound]; nofun)]
          exact recounts.ends sound replied undone rfl rfl rfl rfl fun _ => rfl
        | false =>
          obtain ⟨same, doomed, -⟩ := put_fails ok (s := s.shut) recounts.ready
          rw [if_pos (show HttpdOutput.doomed (finish _) = true from doomed)]
          refine dooms (same.trans recounts.queued) doomed rfl fun isOpen => ?_
          cases closed.symm.trans isOpen

/-! ### The server's own -/

theorem fail {share : OutShare} {status : Nat} (recounts : Recounts s story) : Recounts (s.fail share status)
      ((if s.req.replied then [.cut] else s.owns (s.fail share status)).foldl Story.tell story) := by
  cases replied : s.req.replied with
  | true =>
    rw [if_pos rfl, fail_eq, if_pos replied]
    exact dooms recounts.queued rfl rfl nofun
  | false =>
    rw [if_neg (by nofun), fail_eq, if_neg (by rw [replied]; nofun)]
    exact recounts.owns (t := s.failing) rfl rfl rfl replied rfl (respond_responded _ share status [] _)

theorem refuse {share : OutShare} {head message : Bytes} {status : Nat} {req : HttpdReq}
    (recounts : Recounts s story) (idle : s.req.replied = false) (shut : req.isOpen = false) :
    Recounts (HttpdOutput.refuse { s with head } share req status message)
      ((s.owns (HttpdOutput.refuse { s with head } share req status message)).foldl Story.tell story) := by
  rw [HttpdOutput.refuse]
  dsimp only
  refine recounts.owns
    (t := { s with head, closing := true, req := if status = 401 then req else {} }) rfl rfl rfl idle
    ?_ (respond_responded _ share status _ _)
  dsimp only
  split
  · exact shut
  · rfl

/-- The interim response, before a response begins. -/
theorem continues {share : OutShare} (recounts : Recounts s story) (undone : s.req.done = false)
    (idle : (s.put share (ascii "HTTP/1.1 100 Continue\r\n\r\n")).2 = true → s.req.replied = false) :
    Recounts (s.continue_ share) ((if (s.put share (ascii "HTTP/1.1 100 Continue\r\n\r\n")).2 then [.interim]
        else (s.continue_ share).cuts).foldl Story.tell story) := by
  rw [continue_]
  dsimp only
  have req := put_req s share (ascii "HTTP/1.1 100 Continue\r\n\r\n")
  cases ok : (s.put share (ascii "HTTP/1.1 100 Continue\r\n\r\n")).2 with
  | true =>
    obtain ⟨after, sound⟩ := put_true ok
    have alone := recounts.alone sound (idle ok)
    rw [if_pos rfl, after]
    refine ⟨?_, recounts.cut, recounts.current, recounts.chunks, recounts.undone, recounts.ready⟩
    change s.queued ++ _ = _
    rw [recounts.queued, Story.bytes, Story.begun, alone, Story.bytes, Story.begun]
    simp [Story.tell, Spoken.bytes, alone]
  | false =>
    obtain ⟨same, doomed, ready⟩ := put_fails ok recounts.ready
    rw [if_neg (by nofun)]
    refine falls (same.trans recounts.queued) doomed ready fun _ => ?_
    rw [req]
    exact undone

end Recounts

/-- A step that queues no interim response behind the head of a response. -/
def OrderlyStep (lim : OutLimits) (s : HttpdOutput) (es : List OutEvent) (s' : HttpdOutput) : Prop :=
  OutStep lim s es s' ∧ (.interim ∈ es → s.req.replied = false)

namespace Recounts

variable {s s' : HttpdOutput} {story : Story} {lim : OutLimits} {es : List OutEvent}

/-- What is queued is the story after each step. -/
theorem step (recounts : Recounts s story) (orderly : OrderlyStep lim s es s') :
    Recounts s' (es.foldl Story.tell story) := by
  obtain ⟨step, timely⟩ := orderly
  cases step with
  | begins here sound quiet idle fresh undone plain =>
    have alone := recounts.alone sound idle
    refine ⟨recounts.queued, recounts.cut, fun _ => ?_, fun _ r under => ?_, fun _ => undone, recounts.ready⟩
    · change story.current.isSome = (HttpdReq.replied _ && _)
      rw [alone, fresh]
      rfl
    · cases alone.symm.trans under
  | @preflight req head share here sound idle fresh shut =>
    exact recounts.owns (t := { s with req, head }) rfl rfl rfl idle shut
      (HttpdOutput.respond_responded _ share 204 _ none)
  | refuse here sound idle fresh shut => exact recounts.refuse idle shut
  | reset here sound done bodyIn =>
    have over_ := recounts.current sound
    rw [done, Bool.not_true, Bool.and_false] at over_
    refine ⟨recounts.queued, recounts.cut, fun _ => over_, fun _ r under => ?_, nofun, recounts.ready⟩
    change story.current = some r at under
    rw [under] at over_
    cases over_
  | bodyIn here =>
    exact ⟨recounts.queued, recounts.cut, recounts.current, recounts.chunks, recounts.undone, recounts.ready⟩
  | continues here expect more undone =>
    refine recounts.continues undone fun queued => timely ?_
    rw [if_pos queued]
    exact mem_singleton.mpr rfl
  | head here => exact recounts.streamHead
  | data here => exact recounts.streamData
  | end_ here => exact recounts.streamEnd
  | fail here => exact recounts.fail
  | sends | writable | closes =>
    exact recounts.still rfl rfl rfl recounts.ready
  | turn here ready =>
    rw [HttpdOutput.connStep]
    split
    · exact recounts.still rfl rfl rfl recounts.ready
    · next sound => exact recounts.still rfl rfl rfl fun doomed => absurd doomed sound

/-- What is queued is the story after every run. -/
theorem run {events : List (List OutEvent)} (run : Trace (OrderlyStep lim) {} events s) : Recounts s (.of events) := by
  induction run with
  | nil => exact .start
  | @snoc events t u es front last ih =>
    have after := ih.step last
    rw [Story.of, flatten_append, foldl_append, flatten_singleton]
    exact after

end Recounts

end Askai