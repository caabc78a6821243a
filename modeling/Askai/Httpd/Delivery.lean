import Askai.Httpd.Story

/-!
# Responses delivered

Each response of a connection is followed on the wire by the next, and is what the application has told,
whole or cut off for good.
-/

namespace Askai

open Library

/-- The server's own decoder takes what is behind the head for a whole body, in whatever slices it
comes, and hands on the data. -/
def Response.Decodes (r : Response) : Prop :=
  ∀ (lim : HttpdLimits) (req : HttpdReq), 2 ≤ lim.head → r.data.length ≤ lim.body →
    lim.body < sizeWrap → ChunkedBegins req → ∀ lens : List Nat, ∃ b,
      httpdConnSlices lim { req, rest := r.body ++ HttpdOutput.endBytes r.chunks }
        (lens.map fun len => (len, fun _ => true)) = .ok b ∧
      ∀ len, b.rest.length ≤ len →
        ∃ b', httpdConnSlice lim b len (fun _ => true) = .ok b' ∧ b'.req.bodyIn = true ∧
          b'.rest = [] ∧ b'.handed = r.data

/-- No decoder takes what is queued behind the head, or a part of it, for a whole body. -/
def Response.Unended (r : Response) : Prop :=
  ∀ (lim : HttpdLimits) (req : HttpdReq) (stream : Bytes) (calls : List (Nat × (Nat → Bool)))
    (b : HttpdBody), lim.body < sizeWrap → ChunkedBegins req → stream <+: r.body →
    httpdConnSlices lim { req, rest := stream } calls = .ok b → b.req.bodyIn = false

theorem Response.decodes {r : Response} (chunks : r.chunks = true) : r.Decodes := by
  intro lim req head fits small begins lens
  have within := r.toBody_within small fits head
  obtain ⟨b, taken, last⟩ := body_accepted small begins within [] lens
  rw [r.toBody_bytes chunks, List.append_nil] at taken
  refine ⟨b, taken, fun len all => ?_⟩
  obtain ⟨b', called, whole, rest, handed⟩ := last len all
  exact ⟨b', called, whole, rest, handed.trans r.toBody_data⟩

theorem Response.unended {r : Response} (chunks : r.chunks = true) : r.Unended :=
  fun _ _ _ _ _ small begins front done => r.body_open chunks small begins front done

namespace HttpdOutput

variable {lim : OutLimits} {s s' : HttpdOutput} {es : List OutEvent} {share : OutShare}

/-! ## Connections that are cut off -/

/-- A doomed connection's next step is queued and closes it, and until then nothing more is queued or
sent. -/
structure CutOff (lim : OutLimits) (s : HttpdOutput) : Prop where
  ready : s.ready = true
  closes : ∀ waits, (s.connStep waits).closed = true
  still : ∀ es s', OutStep lim s es s' → s'.doomed = true ∧ s'.queued = s.queued ∧ s'.sent = s.sent

theorem put_doomed (doomed : s.doomed = true) (bytes : Bytes) : s.put share bytes = (s, false) := by
  rw [put, if_pos doomed]

theorem connHead_doomed (doomed : s.doomed = true) (status : Nat) (field : Bytes)
    (extra : List Bytes) (length : Option Nat) :
    s.connHead share status field extra length = (s.heads share length, false) := by
  rw [connHead]
  exact put_doomed (s := s.heads share length) doomed _

/-- Nothing is queued or sent of a connection, which stays doomed. -/
structure Still (s s' : HttpdOutput) : Prop where
  doomed : s'.doomed = true
  queued : s'.queued = s.queued
  sent : s'.sent = s.sent

theorem error_still {t : HttpdOutput} (still : Still s t) (status : Nat) (message : Bytes)
    (extra : List Bytes) : Still s (t.error share status message extra) := by
  rw [error, respond]
  dsimp only
  rw [connHead_doomed still.doomed]
  exact ⟨still.doomed, still.queued, still.sent⟩

/-- A doomed connection stays so, and nothing more is queued or sent. -/
theorem step_still (doomed : s.doomed = true) (step : OutStep lim s es s') : Still s s' := by
  have kept : Still s s := ⟨doomed, rfl, rfl⟩
  cases step with
  | begins here sound | preflight here sound | refuse here sound | reset here sound
  | sends here sound =>
    cases sound.symm.trans doomed
  | bodyIn here | writable here drained | closes here => exact ⟨doomed, rfl, rfl⟩
  | continues here expect more undone =>
    rw [continue_]
    dsimp only
    rw [put_doomed doomed]
    exact ⟨doomed, rfl, rfl⟩
  | head here =>
    rw [streamHead]
    split
    · exact kept
    · rw [connHead_doomed doomed]
      exact ⟨doomed, rfl, rfl⟩
  | data here =>
    rw [streamData]
    split
    · exact kept
    · split
      · exact kept
      · split
        · exact ⟨rfl, rfl, rfl⟩
        · rw [put_doomed doomed]
          exact kept
  | @end_ share failed here =>
    cases isOpen : s.req.isOpen with
    | false =>
      rw [streamEnd, if_pos isOpen]
      exact kept
    | true =>
      rw [streamEnd_eq isOpen]
      have after : ∀ {t : HttpdOutput}, Still s t → Still s t.finish :=
        fun still => ⟨still.doomed, still.queued, still.sent⟩
      apply after
      have shut : Still s s.shut := ⟨doomed, rfl, rfl⟩
      split
      · exact error_still shut 500 [] []
      · split
        · exact ⟨rfl, rfl, rfl⟩
        · rw [put_doomed shut.doomed]
          exact shut
  | @fail share status here =>
    have failing : Still s s.failing := ⟨doomed, rfl, rfl⟩
    rw [fail_eq]
    split
    · exact ⟨rfl, rfl, rfl⟩
    · exact error_still failing status [] []
  | turn here ready =>
    rw [connStep, if_pos doomed]
    exact ⟨doomed, rfl, rfl⟩

theorem cutOff (doomed : s.doomed = true) (ready : s.Queued) : CutOff lim s where
  ready := ready doomed
  closes := fun waits => by rw [connStep, if_pos doomed]
  still := fun es s' step =>
    have still := step_still doomed step
    ⟨still.doomed, still.queued, still.sent⟩

/-- What cuts a response off: an error at its end, data that is not taken, or a failure of the
server's. -/
structure Cuts (lim : OutLimits) (s : HttpdOutput) : Prop where
  end_ : ∀ share, s.req.isOpen = true → (s.streamEnd share true).doomed = true
  data : ∀ share bytes, s.req.isOpen = true → (s.streamData share lim bytes).2 = .epipe →
    (s.streamData share lim bytes).1.doomed = true
  fail : ∀ share status, (s.fail share status).doomed = true

theorem cuts_begun (replied : s.req.replied = true) : Cuts lim s where
  end_ := by
    intro share isOpen
    rw [streamEnd_eq isOpen, if_neg (by rw [replied]; simp), if_pos rfl]
    rfl
  data := by
    intro share bytes isOpen
    rw [streamData, if_neg (by rw [isOpen, replied]; simp)]
    split
    · simp
    · split
      · exact fun _ => rfl
      · cases whole : s.put share (dataBytes s.req.chunks bytes) with
        | mk t ok =>
          cases ok with
          | true =>
            dsimp only
            split <;> simp
          | false =>
            intro _
            rcases put_false (congrArg Prod.snd whole) with after | ⟨after, doomed⟩
            · rw [whole] at after
              rw [show t = s.doom from after]
              rfl
            · rw [whole] at after
              rw [show t = s from after]
              exact doomed
  fail := by
    intro share status
    rw [fail_eq, if_pos replied]
    rfl

/-! ## The framing of a response -/

/-- Before its response begins, a request's data is not to go in chunks. -/
def Plain (s : HttpdOutput) : Prop :=
  s.req.isOpen = true → s.req.replied = false → s.req.chunks = false

theorem Plain.of_shut (shut : s.req.isOpen = false) : Plain s := by
  intro isOpen
  cases shut.symm.trans isOpen

theorem Plain.of_req (plain : Plain s) (req : s'.req = s.req) : Plain s' := by
  rw [Plain, req]
  exact plain

theorem step_plain (plain : Plain s) (step : OutStep lim s es s') : Plain s' := by
  cases step with
  | begins here sound quiet idle fresh undone whole => exact fun _ _ => whole
  | preflight here sound idle fresh shut =>
    exact .of_shut ((respond_responded _ _ 204 _ none).isOpen.trans shut)
  | @refuse req head message status share here sound idle fresh shut =>
    apply Plain.of_shut
    refine (respond_responded _ share status _ _).isOpen.trans ?_
    dsimp only
    split
    · exact shut
    · rfl
  | reset => exact fun _ _ => rfl
  | bodyIn | sends | writable | closes => exact plain
  | continues here expect more undone =>
    rw [continue_, Plain]
    dsimp only
    rw [put_req]
    exact plain
  | @head share status fields length here =>
    rw [streamHead]
    split
    · exact plain
    · have req := put_req (s.heads share length) share
        (httpdConnHead s.req s.head (s.heads share length).closing status fields [] length)
      rw [connHead]
      cases whole : (s.heads share length).put share
          (httpdConnHead s.req s.head (s.heads share length).closing status fields [] length) with
      | mk t ok =>
        rw [whole] at req
        have replied : t.req.replied = true := by
          rw [show t.req = (s.heads share length).req from req]
          rfl
        cases ok with
        | true | false =>
          intro _ idle
          cases replied.symm.trans idle
  | @data share bytes here =>
    rw [streamData]
    split
    · exact plain
    · split
      · exact plain
      · split
        · exact plain
        · have req := put_req s share (dataBytes s.req.chunks bytes)
          cases whole : s.put share (dataBytes s.req.chunks bytes) with
          | mk t ok =>
            rw [whole] at req
            cases ok with
            | true =>
              dsimp only
              split
              · exact plain.of_req req
              · exact plain.of_req req
            | false => exact plain.of_req req
  | @end_ share failed here =>
    cases isOpen : s.req.isOpen with
    | false =>
      rw [streamEnd, if_pos isOpen]
      exact plain
    | true =>
      rw [streamEnd_eq isOpen]
      apply Plain.of_shut
      split
      · exact (respond_responded s.shut share 500 [] _).isOpen
      · split
        · rfl
        · change (s.shut.put share _).1.req.isOpen = false
          rw [put_req]
          rfl
  | @fail share status here =>
    rw [fail_eq]
    apply Plain.of_shut
    split
    · rfl
    · exact (respond_responded s.failing share status [] _).isOpen
  | turn here ready =>
    rw [connStep]
    split
    · exact plain
    · exact plain

/-- A head says whether the data behind it goes in chunks. -/
theorem streamHead_chunks (plain : Plain s) {status : Nat} {fields : Bytes} {length : Option Nat}
    (done : (s.streamHead share status fields length).2 = .ok) :
    (s.streamHead share status fields length).1.req.chunks = (length.isNone && !s.req.http10) := by
  rw [streamHead] at done ⊢
  split at done
  · cases done
  · next goes =>
      rw [if_neg goes]
      push Not at goes
      rw [Bool.ne_false_iff, ne_eq, Bool.not_eq_true] at goes
      have req := put_req (s.heads share length) share
        (httpdConnHead s.req s.head (s.heads share length).closing status fields [] length)
      rw [connHead]
      cases whole : (s.heads share length).put share
          (httpdConnHead s.req s.head (s.heads share length).closing status fields [] length) with
      | mk t ok =>
        rw [whole] at req
        have chunks : t.req.chunks = (length.isNone && !s.req.http10) := by
          rw [show t.req = (s.heads share length).req from req]
          change (s.req.chunks || _) = _
          rw [plain goes.1 goes.2]
          rfl
        cases ok with
        | true | false => exact chunks

end HttpdOutput

/-! ## Every run -/

section

variable {lim : OutLimits} {events : List (List OutEvent)} {s : HttpdOutput}

theorem responses_framed (run : Trace (OrderlyStep lim) {} events s) : s.queued = (Story.of events).bytes ∧
      (∀ r, .whole r ∈ (Story.of events).spoken →
        (r.chunks = false → r.body ++ HttpdOutput.endBytes r.chunks = r.data) ∧ (r.chunks = true → r.Decodes)) ∧
      (∀ r, (Story.of events).current = some r → (r.chunks = true → r.Unended) ∧ (s.doomed = false → s.Cuts lim)) ∧
      (s.doomed = true → s.CutOff lim) ∧
      ∀ share status fields length, (s.streamHead share status fields length).2 = .ok →
        (s.streamHead share status fields length).1.req.chunks = (length.isNone && !s.req.http10) := by
  have recounts := Recounts.run run
  have plain : s.Plain := by
    apply run.invariant nofun
    intro s es s' plain step
    exact HttpdOutput.step_plain plain step.1
  refine ⟨recounts.queued, fun r _ => ⟨Response.body_plain, Response.decodes⟩,
    fun r under => ⟨Response.unended, fun sound => ?_⟩, fun doomed => HttpdOutput.cutOff doomed recounts.ready,
    fun share status fields length done => HttpdOutput.streamHead_chunks plain done⟩
  have begun := recounts.current sound
  rw [under] at begun
  exact HttpdOutput.cuts_begun (Bool.and_eq_true_iff.mp begun.symm).1

theorem data_step {share : OutShare} {bytes : Bytes} (here : s.closed = false)
    (taken : (s.streamData share lim bytes).2 ≠ .epipe) :
    OutStep lim s [.data bytes] (s.streamData share lim bytes).1 := by
  have step : OutStep lim s _ (s.streamData share lim bytes).1 := .data here
  rwa [if_neg taken] at step

theorem end_step {share : OutShare} {failed : Bool} (here : s.closed = false)
    (isOpen : s.req.isOpen = true) (replied : s.req.replied = true)
    (sound : (s.streamEnd share failed).doomed = false) : OutStep lim s [.ended] (s.streamEnd share failed) := by
  have step : OutStep lim s _ (s.streamEnd share failed) := .end_ here
  rwa [if_neg (by rw [isOpen]; nofun), if_neg (by rw [replied]; nofun), if_neg (by rw [sound]; nofun)] at step

/-- A request that asks for 100 Continue, and is let in before its body. -/
def askedFor : HttpdOutput :=
  { req := { expect := true, isOpen := true } }

/-- Its response begins, whose length is not known. -/
def begunFor : HttpdOutput :=
  (askedFor.streamHead {} 200 [] none).1

theorem begins_askedFor : OutStep lim {} [] askedFor :=
  @OutStep.begins lim {} { expect := true } [] rfl rfl rfl rfl rfl rfl rfl

theorem head_begunFor : OutStep lim askedFor [.began begunFor.queued true] begunFor :=
  @OutStep.head lim askedFor {} 200 [] none rfl

/-- Data is told, and the end. -/
def helloTo (s : HttpdOutput) : HttpdOutput :=
  (s.streamData {} ⟨1024, 4096⟩ (ascii "hello")).1

theorem hello_begunFor : OutStep ⟨1024, 4096⟩ begunFor [.data (ascii "hello")] (helloTo begunFor) :=
  data_step rfl (by decide +kernel)

theorem end_begunFor : OutStep ⟨1024, 4096⟩ (helloTo begunFor) [.ended] ((helloTo begunFor).streamEnd {} false) :=
  end_step (by decide +kernel) (by decide +kernel) (by decide +kernel) (by decide +kernel)

theorem responses_framed_hello : ∃ (events : List (List OutEvent)) (s : HttpdOutput) (r : Response),
      Trace (OrderlyStep ⟨1024, 4096⟩) {} events s ∧ s.queued = r.bytes ∧ r.data = ascii "hello" ∧ r.Decodes := by
  have begins : OrderlyStep ⟨1024, 4096⟩ {} [] askedFor := ⟨begins_askedFor, nofun⟩
  have run := (((Trace.single begins).snoc ⟨head_begunFor, fun _ => rfl⟩).snoc
    ⟨hello_begunFor, by simp⟩).snoc ⟨end_begunFor, by simp⟩
  obtain ⟨queued, whole, -⟩ := responses_framed run
  refine ⟨_, _, ⟨begunFor.queued, true, [ascii "hello"], by decide⟩, run, ?_, rfl, ?_⟩
  · rw [queued]
    decide +kernel
  · exact (whole _ (List.mem_singleton.mpr rfl)).2 rfl

theorem continues_begunFor : OutStep lim begunFor [.interim] (begunFor.continue_ {}) :=
  @OutStep.continues lim begunFor {} rfl rfl rfl rfl

/-- The interim response comes in the middle of a response that has begun. -/
theorem interim_in_response : ∃ (events : List (List OutEvent)) (s : HttpdOutput) (head rest : Bytes),
      Trace (OutStep ⟨1024, 4096⟩) {} events s ∧ s.doomed = false ∧
      events.flatten = [.began head true, .interim, .data (ascii "hello"), .ended] ∧ s.queued = head ++ rest ∧
      (httpdConnSlices someLimits { req := {}, rest } [(64, fun _ => true)]).toOption.isNone = true := by
  have hello : OutStep ⟨1024, 4096⟩ (begunFor.continue_ {}) [.data (ascii "hello")] (helloTo (begunFor.continue_ {})) :=
    data_step rfl (by decide +kernel)
  have end_ : OutStep ⟨1024, 4096⟩ (helloTo (begunFor.continue_ {})) [.ended]
      ((helloTo (begunFor.continue_ {})).streamEnd {} false) :=
    end_step (by decide +kernel) (by decide +kernel) (by decide +kernel) (by decide +kernel)
  have run := ((((Trace.single begins_askedFor).snoc head_begunFor).snoc continues_begunFor).snoc hello).snoc end_
  exact ⟨_, _, begunFor.queued,
    ascii "HTTP/1.1 100 Continue\r\n\r\n5\r\nhello\r\n0\r\n\r\n", run, by decide +kernel, rfl,
    by decide +kernel, by decide +kernel⟩

end

end Askai