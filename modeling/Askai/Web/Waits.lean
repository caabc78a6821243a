import Askai.Web.Model

/-!
# Runs and their waits

A wait is on the list of one run that is under way, or home is to post it, or it has its reply; and the
body of a run is what curl gave it and within its bound, unless the run has failed.
-/

namespace Askai

open Library List

/-- What a run under way has received. -/
structure WebRun.Received (hash : WebKey → Nat) (run : WebRun) : Prop where
  hashed : run.hash = hash run.key
  most : run.body.length ≤ run.key.max
  whole : run.fault = none → run.body = run.given

/-- A wait that has nothing yet. -/
structure WebWait.Pending (run : Option Nat) (wait : WebWait) : Prop where
  run : wait.run = run
  reply : wait.reply = none
  posted : wait.posted = false
  done : wait.done = false

variable {hash : WebKey → Nat}

theorem WebRun.Received.write {run : WebRun} (received : run.Received hash) (data : Bytes) (memory : Bool) :
    (run.write data memory).1.Received hash := by
  rw [WebRun.write]
  dsimp only
  split
  · next nothing =>
    subst nothing
    exact ⟨received.hashed, received.most, fun ok => by rw [append_nil]; exact received.whole ok⟩
  · split
    · exact ⟨received.hashed, received.most, nofun⟩
    · split
      · exact ⟨received.hashed, received.most, nofun⟩
      · next roomy _ =>
        have most := received.most
        refine ⟨received.hashed, ?_, fun ok => congrArg (· ++ data) (received.whole ok)⟩
        change (run.body ++ data).length ≤ run.key.max
        rw [length_append]
        omega

theorem WebRun.write_same (run : WebRun) (data : Bytes) (memory : Bool) :
    (run.write data memory).1.waits = run.waits ∧ (run.write data memory).1.keep = run.keep := by
  rw [WebRun.write]
  dsimp only
  split_ifs <;> exact ⟨rfl, rfl⟩

namespace WebWorld

/-- What holds of the runs and the waits. -/
structure Awaited (hash : WebKey → Nat) (w : WebWorld) : Prop where
  live : w.live.Nodup
  made : ∀ v ∈ w.live, v < w.nWaits
  under : w.under.Nodup
  runsMade : ∀ run ∈ w.under, run < w.nRuns
  received : ∀ run ∈ w.under, (w.runs run).Received hash
  sharedNodup : w.shared.Nodup
  shared : ∀ run ∈ w.shared, run ∈ w.under ∧ (w.runs run).keep ≠ 0
  distinct : ∀ run ∈ w.under, (w.runs run).waits.Nodup
  waits : ∀ run ∈ w.under, ∀ v ∈ (w.runs run).waits, v ∈ w.live ∧ (w.waits v).Pending (some run)
  listed : ∀ v ∈ w.live, ∀ run, (w.waits v).run = some run → run ∈ w.under ∧ v ∈ (w.runs run).waits
  ending : ∀ r vs, w.ending = some (r, vs) →
    vs.Nodup ∧ ∀ v ∈ vs, v ∈ w.live ∧ (w.waits v).Pending none

variable {w w' : WebWorld}

theorem Awaited.create (w : WebWorld) : Awaited hash w.create where
  live := nodup_nil
  made _ inside := absurd inside not_mem_nil
  under := nodup_nil
  runsMade _ inside := absurd inside not_mem_nil
  received _ inside := absurd inside not_mem_nil
  sharedNodup := nodup_nil
  shared _ inside := absurd inside not_mem_nil
  distinct _ inside := absurd inside not_mem_nil
  waits _ inside := absurd inside not_mem_nil
  listed _ inside := absurd inside not_mem_nil
  ending _ _ ends := nomatch ends

/-- The cache and the replies play no part. -/
theorem Awaited.frame (awaited : Awaited hash w) (cache : WebCache) (replies : Nat → WebReply)
    (nReplies nEntries : Nat) (gone : List Nat) : Awaited hash { w with cache, replies, nReplies, nEntries, gone } :=
  ⟨awaited.live, awaited.made, awaited.under, awaited.runsMade, awaited.received, awaited.sharedNodup,
    awaited.shared, awaited.distinct, awaited.waits, awaited.listed, awaited.ending⟩

/-- A run of which neither the waits nor the keep change. -/
theorem Awaited.update (awaited : Awaited hash w) {run : Nat} {record : WebRun}
    (waits : record.waits = (w.runs run).waits) (keep : record.keep = (w.runs run).keep)
    (received : run ∈ w.under → record.Received hash) :
    Awaited hash { w with runs := Function.update w.runs run record } := by
  have same : ∀ r, (Function.update w.runs run record r).waits = (w.runs r).waits ∧
      (Function.update w.runs run record r).keep = (w.runs r).keep := by
    intro r
    rcases eq_or_ne r run with rfl | other
    · rw [Function.update_self]
      exact ⟨waits, keep⟩
    · rw [Function.update_of_ne other]
      exact ⟨rfl, rfl⟩
  refine { awaited with received := ?_, shared := ?_, distinct := ?_, waits := ?_, listed := ?_ }
  · intro r inside
    dsimp only
    rcases eq_or_ne r run with rfl | other
    · rw [Function.update_self]
      exact received inside
    · rw [Function.update_of_ne other]
      exact awaited.received r inside
  · intro r inside
    dsimp only
    rw [(same r).2]
    exact awaited.shared r inside
  · intro r inside
    dsimp only
    rw [(same r).1]
    exact awaited.distinct r inside
  · intro r inside
    dsimp only
    rw [(same r).1]
    exact awaited.waits r inside
  · intro v inside r on
    dsimp only
    rw [(same r).1]
    exact awaited.listed v inside r on

theorem Awaited.fresh (awaited : Awaited hash w) : w.nWaits ∉ w.live :=
  fun inside => absurd (awaited.made _ inside) (Nat.lt_irrefl _)

/-- A new wait does not touch those in memory. -/
theorem Awaited.addWait_of_live (awaited : Awaited hash w) (wait : WebWait) {v : Nat} (inside : v ∈ w.live) :
    v ∈ (w.addWait wait).live ∧ (w.addWait wait).waits v = w.waits v := by
  have other : v ≠ w.nWaits := fun same => awaited.fresh (same ▸ inside)
  exact ⟨mem_append_left _ inside, Function.update_of_ne other _ _⟩

theorem Awaited.live_addWait (awaited : Awaited hash w) (wait : WebWait) :
    (w.addWait wait).live.Nodup ∧ ∀ v ∈ (w.addWait wait).live, v < w.nWaits + 1 := by
  constructor
  · exact nodup_append.mpr ⟨awaited.live, nodup_singleton _, fun v inside u here =>
      fun same => awaited.fresh (mem_singleton.mp here ▸ same ▸ inside)⟩
  · intro v inside
    rcases mem_append.mp inside with inside | here
    · exact Nat.lt_succ_of_lt (awaited.made v inside)
    · rw [mem_singleton.mp here]
      exact Nat.lt_succ_self _

/-- A wait that has its reply at once. -/
theorem Awaited.addWait (awaited : Awaited hash w) {wait : WebWait} (alone : wait.run = none) :
    Awaited hash (w.addWait wait) := by
  obtain ⟨live, made⟩ := awaited.live_addWait wait
  have old : ∀ v run, v ∈ w.live ∧ (w.waits v).Pending run →
      v ∈ (w.addWait wait).live ∧ ((w.addWait wait).waits v).Pending run := by
    rintro v run ⟨inside, pending⟩
    obtain ⟨inside', same⟩ := awaited.addWait_of_live wait inside
    rw [same]
    exact ⟨inside', pending⟩
  refine { awaited with live := live, made := made, waits := ?_, listed := ?_, ending := ?_ }
  · exact fun run inside v here => old v _ (awaited.waits run inside v here)
  · intro v inside run on
    rcases mem_append.mp inside with inside | here
    · rw [(awaited.addWait_of_live wait inside).2] at on
      exact awaited.listed v inside run on
    · rw [mem_singleton.mp here] at on
      change (Function.update w.waits w.nWaits wait w.nWaits).run = some run at on
      rw [Function.update_self, alone] at on
      exact nomatch on
  · exact fun r vs ends => ⟨(awaited.ending r vs ends).1, fun v here => old v _ ((awaited.ending r vs ends).2 v here)⟩

/-- A wait that joins a run. -/
theorem Awaited.await (awaited : Awaited hash w) {run : Nat} (under : run ∈ w.under) (keep : Nat) :
    Awaited hash (w.await run keep) := by
  obtain ⟨live, made⟩ := awaited.live_addWait { run := some run }
  have old : ∀ v run', v ∈ w.live ∧ (w.waits v).Pending run' →
      v ∈ (w.await run keep).live ∧ ((w.await run keep).waits v).Pending run' := by
    rintro v run' ⟨inside, pending⟩
    obtain ⟨inside', same⟩ := awaited.addWait_of_live { run := some run } inside
    exact ⟨inside', same.symm ▸ pending⟩
  have new : (w.await run keep).waits w.nWaits = { run := some run } := Function.update_self _ _ _
  refine { awaited with live := live, made := made, received := ?_, shared := ?_, distinct := ?_, waits := ?_,
                        listed := ?_, ending := ?_ }
  · intro r inside
    rw [WebWorld.await]
    dsimp only
    rcases eq_or_ne r run with rfl | other
    · rw [Function.update_self]
      have received := awaited.received r inside
      exact ⟨received.hashed, received.most, received.whole⟩
    · rw [Function.update_of_ne other]
      exact awaited.received r inside
  · intro r inside
    rw [WebWorld.await]
    dsimp only
    rcases eq_or_ne r run with rfl | other
    · rw [Function.update_self]
      exact awaited.shared r inside
    · rw [Function.update_of_ne other]
      exact awaited.shared r inside
  · intro r inside
    rw [WebWorld.await]
    dsimp only
    rcases eq_or_ne r run with rfl | other
    · rw [Function.update_self]
      exact nodup_append.mpr ⟨awaited.distinct r inside, nodup_singleton _, fun v here u last =>
        fun same => awaited.fresh (mem_singleton.mp last ▸ same ▸ (awaited.waits r inside v here).1)⟩
    · rw [Function.update_of_ne other]
      exact awaited.distinct r inside
  · intro r inside v here
    change v ∈ (Function.update w.runs run _ r).waits at here
    rcases eq_or_ne r run with rfl | other
    · rw [Function.update_self] at here
      rcases mem_append.mp here with here | last
      · exact old v _ (awaited.waits r inside v here)
      · rw [mem_singleton.mp last, new]
        exact ⟨mem_append_right _ mem_cons_self, rfl, rfl, rfl, rfl⟩
    · rw [Function.update_of_ne other] at here
      exact old v _ (awaited.waits r inside v here)
  · intro v inside r on
    change r ∈ w.under ∧ v ∈ (Function.update w.runs run _ r).waits
    rcases mem_append.mp inside with inside | last
    · change ((w.addWait { run := some run }).waits v).run = some r at on
      rw [(awaited.addWait_of_live _ inside).2] at on
      obtain ⟨under', here⟩ := awaited.listed v inside r on
      refine ⟨under', ?_⟩
      rcases eq_or_ne r run with rfl | other
      · rw [Function.update_self]
        exact mem_append_left _ here
      · rw [Function.update_of_ne other]
        exact here
    · rw [mem_singleton.mp last, new] at on
      obtain rfl := Option.some.inj on
      rw [Function.update_self, mem_singleton.mp last]
      exact ⟨under, mem_append_right _ mem_cons_self⟩
  · exact fun r vs ends => ⟨(awaited.ending r vs ends).1, fun v here => old v _ ((awaited.ending r vs ends).2 v here)⟩

/-- A new run. -/
theorem Awaited.start (awaited : Awaited hash w) {record : WebRun} {shared : List Nat} (waits : record.waits = [])
    (received : record.Received hash) (shares : shared = w.shared ∨ record.keep ≠ 0 ∧ shared = w.shared ++ [w.nRuns]) :
    Awaited hash
      { w with
        runs := Function.update w.runs w.nRuns record
        nRuns := w.nRuns + 1
        under := w.under ++ [w.nRuns]
        shared := shared } := by
  have fresh : w.nRuns ∉ w.under := fun inside => absurd (awaited.runsMade _ inside) (Nat.lt_irrefl _)
  have old : ∀ r ∈ w.under, Function.update w.runs w.nRuns record r = w.runs r := by
    intro r inside
    have other : r ≠ w.nRuns := fun same => fresh (same ▸ inside)
    exact Function.update_of_ne other _ _
  have mem : ∀ r ∈ w.under ++ [w.nRuns], r ∈ w.under ∨ r = w.nRuns := by
    intro r inside
    exact (mem_append.mp inside).imp_right mem_singleton.mp
  have outside : w.nRuns ∉ w.shared := fun inside => fresh (awaited.shared _ inside).1
  have sharedOld : ∀ run ∈ w.shared, run ∈ w.under ++ [w.nRuns] ∧
      (Function.update w.runs w.nRuns record run).keep ≠ 0 := by
    intro r inside
    obtain ⟨under, keep⟩ := awaited.shared r inside
    rw [old r under]
    exact ⟨mem_append_left _ under, keep⟩
  refine { awaited with under := ?_, runsMade := ?_, received := ?_, sharedNodup := ?_, shared := ?_,
                        distinct := ?_, waits := ?_, listed := ?_ }
  · exact nodup_append.mpr ⟨awaited.under, nodup_singleton _, fun r inside u last =>
      fun same => fresh (mem_singleton.mp last ▸ same ▸ inside)⟩
  · intro r inside
    dsimp only
    rcases mem r inside with inside | rfl
    · exact Nat.lt_succ_of_lt (awaited.runsMade r inside)
    · exact Nat.lt_succ_self _
  · intro r inside
    dsimp only
    rcases mem r inside with inside | rfl
    · rw [old r inside]
      exact awaited.received r inside
    · rw [Function.update_self]
      exact received
  · rcases shares with rfl | ⟨-, rfl⟩
    · exact awaited.sharedNodup
    · exact nodup_append.mpr ⟨awaited.sharedNodup, nodup_singleton _, fun r inside u last =>
        fun same => outside (mem_singleton.mp last ▸ same ▸ inside)⟩
  · rcases shares with rfl | ⟨keep, rfl⟩
    · exact sharedOld
    · intro r inside
      rcases mem_append.mp inside with inside | last
      · exact sharedOld r inside
      · rw [mem_singleton.mp last]
        dsimp only
        rw [Function.update_self]
        exact ⟨mem_append_right _ mem_cons_self, keep⟩
  · intro r inside
    dsimp only
    rcases mem r inside with inside | rfl
    · rw [old r inside]
      exact awaited.distinct r inside
    · rw [Function.update_self, waits]
      exact nodup_nil
  · intro r inside
    dsimp only
    rcases mem r inside with inside | rfl
    · rw [old r inside]
      exact awaited.waits r inside
    · rw [Function.update_self, waits]
      exact fun _ here => absurd here not_mem_nil
  · intro v inside r on
    obtain ⟨under, here⟩ := awaited.listed v inside r on
    dsimp only
    rw [old r under]
    exact ⟨mem_append_left _ under, here⟩

theorem Awaited.mail (awaited : Awaited hash w) {wait : Nat} (posted : (w.waits wait).posted = true) :
    Awaited hash (w.mail wait) := by
  have old : ∀ v run, v ∈ w.live ∧ (w.waits v).Pending run → v ∈ w.live ∧ ((w.mail wait).waits v).Pending run := by
    rintro v run ⟨inside, pending⟩
    have other : v ≠ wait := by
      rintro rfl
      exact nomatch posted.symm.trans pending.posted
    rw [WebWorld.mail]
    dsimp only
    rw [Function.update_of_ne other]
    exact ⟨inside, pending⟩
  refine { awaited with waits := ?_, listed := ?_, ending := ?_ }
  · exact fun run inside v here => old v _ (awaited.waits run inside v here)
  · intro v inside run on
    apply awaited.listed v inside run
    rw [← on, WebWorld.mail]
    dsimp only
    rcases eq_or_ne v wait with rfl | other
    · rw [Function.update_self]
    · rw [Function.update_of_ne other]
  · exact fun r vs ends => ⟨(awaited.ending r vs ends).1, fun v here => old v _ ((awaited.ending r vs ends).2 v here)⟩

/-- A wait of which no list has anything is freed. -/
theorem Awaited.drop (awaited : Awaited hash w) {wait : Nat} (off : ∀ run, ¬ (w.waits wait).Pending run) :
    Awaited hash { w with live := w.live.erase wait } := by
  have old : ∀ v run, v ∈ w.live ∧ (w.waits v).Pending run → v ∈ w.live.erase wait ∧ (w.waits v).Pending run := by
    rintro v run ⟨inside, pending⟩
    have other : v ≠ wait := fun same => off run (same ▸ pending)
    exact ⟨(mem_erase_of_ne other).mpr inside, pending⟩
  exact { awaited with
    live := awaited.live.erase wait
    made := fun v inside => awaited.made v (mem_of_mem_erase inside)
    waits := fun run inside v here => old v _ (awaited.waits run inside v here)
    listed := fun v inside => awaited.listed v (mem_of_mem_erase inside)
    ending := fun r vs ends => ⟨(awaited.ending r vs ends).1,
      fun v here => old v _ ((awaited.ending r vs ends).2 v here)⟩ }

/-- A wait leaves the list of its run. -/
theorem Awaited.part (awaited : Awaited hash w) {wait run : Nat} (on : (w.waits wait).run = some run) : Awaited hash
      { w with
        runs := Function.update w.runs run { w.runs run with waits := (w.runs run).waits.erase wait }
        live := w.live.erase wait } := by
  have old : ∀ v, v ≠ wait → ∀ run', v ∈ w.live ∧ (w.waits v).Pending run' →
      v ∈ w.live.erase wait ∧ (w.waits v).Pending run' :=
    fun v other run' ⟨inside, pending⟩ => ⟨(mem_erase_of_ne other).mpr inside, pending⟩
  refine { awaited with live := awaited.live.erase wait, made := ?_, received := ?_, shared := ?_,
                        distinct := ?_, waits := ?_, listed := ?_, ending := ?_ }
  · exact fun v inside => awaited.made v (mem_of_mem_erase inside)
  · intro r inside
    dsimp only
    rcases eq_or_ne r run with rfl | other
    · rw [Function.update_self]
      have received := awaited.received r inside
      exact ⟨received.hashed, received.most, received.whole⟩
    · rw [Function.update_of_ne other]
      exact awaited.received r inside
  · intro r inside
    dsimp only
    rcases eq_or_ne r run with rfl | other
    · rw [Function.update_self]
      exact awaited.shared r inside
    · rw [Function.update_of_ne other]
      exact awaited.shared r inside
  · intro r inside
    dsimp only
    rcases eq_or_ne r run with rfl | other
    · rw [Function.update_self]
      exact (awaited.distinct r inside).erase wait
    · rw [Function.update_of_ne other]
      exact awaited.distinct r inside
  · intro r inside v here
    dsimp only at here
    rcases eq_or_ne r run with rfl | other
    · rw [Function.update_self] at here
      obtain ⟨differs, here⟩ := (awaited.distinct r inside).mem_erase_iff.mp here
      exact old v differs _ (awaited.waits r inside v here)
    · rw [Function.update_of_ne other] at here
      have pending := awaited.waits r inside v here
      refine old v ?_ _ pending
      rintro rfl
      exact other (Option.some.inj (pending.2.run.symm.trans on))
  · intro v inside r named
    obtain ⟨differs, inside⟩ := awaited.live.mem_erase_iff.mp inside
    obtain ⟨under, here⟩ := awaited.listed v inside r named
    refine ⟨under, ?_⟩
    dsimp only
    rcases eq_or_ne r run with rfl | other
    · rw [Function.update_self]
      exact (mem_erase_of_ne differs).mpr here
    · rw [Function.update_of_ne other]
      exact here
  · intro r vs ends
    refine ⟨(awaited.ending r vs ends).1, fun v here => ?_⟩
    have pending := (awaited.ending r vs ends).2 v here
    refine old v ?_ _ pending
    rintro rfl
    exact nomatch pending.2.run.symm.trans on

theorem Awaited.leave (awaited : Awaited hash w) (wait : Nat) : Awaited hash (w.leave wait) := by
  rw [WebWorld.leave]
  split
  · next done =>
    have off : ∀ run, ¬ (w.waits wait).Pending run := fun _ pending => nomatch done.symm.trans pending.done
    exact (awaited.drop off).frame w.cache _ w.nReplies w.nEntries w.gone
  · split
    · next run on => exact awaited.part on
    · exact awaited

theorem Awaited.close (awaited : Awaited hash w) {run : Nat} (inside : run ∈ w.under) (reply : Option Nat) :
    Awaited hash (w.close run reply) := by
  have other : ∀ r ∈ w.under.erase run, r ≠ run ∧ r ∈ w.under :=
    fun r here => awaited.under.mem_erase_iff.mp here
  rw [WebWorld.close]
  refine { awaited with under := awaited.under.erase run, runsMade := ?_, received := ?_,
                        sharedNodup := awaited.sharedNodup.erase run, shared := ?_, distinct := ?_,
                        waits := ?_, listed := ?_, ending := ?_ }
  · exact fun r here => awaited.runsMade r (other r here).2
  · intro r here
    dsimp only
    rw [Function.update_of_ne (other r here).1]
    exact awaited.received r (other r here).2
  · intro r here
    obtain ⟨differs, listed⟩ := awaited.sharedNodup.mem_erase_iff.mp here
    dsimp only
    rw [Function.update_of_ne differs, awaited.under.mem_erase_iff]
    exact ⟨⟨differs, (awaited.shared r listed).1⟩, (awaited.shared r listed).2⟩
  · intro r here
    dsimp only
    rw [Function.update_of_ne (other r here).1]
    exact awaited.distinct r (other r here).2
  · intro r here v waits
    dsimp only at waits ⊢
    rw [Function.update_of_ne (other r here).1] at waits
    obtain ⟨live, pending⟩ := awaited.waits r (other r here).2 v waits
    have off : v ∉ (w.runs run).waits := by
      intro on
      have named := (awaited.waits run inside v on).2.run
      exact (other r here).1 (Option.some.inj (pending.run.symm.trans named))
    rw [if_neg off]
    exact ⟨live, pending⟩
  · intro v live r on
    dsimp only at on ⊢
    split at on
    · exact nomatch on
    · next off =>
      obtain ⟨under, here⟩ := awaited.listed v live r on
      have differs : r ≠ run := by
        rintro rfl
        exact off here
      rw [Function.update_of_ne differs, awaited.under.mem_erase_iff]
      exact ⟨⟨differs, under⟩, here⟩
  · rintro r vs ends
    obtain ⟨rfl, rfl⟩ := Prod.mk.inj (Option.some.inj ends)
    refine ⟨awaited.distinct run inside, fun v here => ?_⟩
    obtain ⟨live, pending⟩ := awaited.waits run inside v here
    dsimp only
    rw [if_pos here]
    exact ⟨live, rfl, pending.reply, pending.posted, pending.done⟩

theorem Awaited.give (awaited : Awaited hash w) {reply : Option Nat} {wait : Nat} {rest : List Nat}
    (ends : w.ending = some (reply, wait :: rest)) : Awaited hash (w.give reply wait rest) := by
  obtain ⟨distinct, pending⟩ := awaited.ending reply _ ends
  obtain ⟨outside, distinct⟩ := nodup_cons.mp distinct
  have here := (pending wait mem_cons_self).2
  have given : Awaited hash
      { w with
        waits := Function.update w.waits wait { w.waits wait with reply := reply, posted := true }
        ending := some (reply, rest) } := by
    refine { awaited with waits := ?_, listed := ?_, ending := ?_ }
    · intro run inside v listed
      obtain ⟨live, pending⟩ := awaited.waits run inside v listed
      have other : v ≠ wait := by
        rintro rfl
        exact nomatch here.run.symm.trans (awaited.waits run inside v listed).2.run
      dsimp only
      rw [Function.update_of_ne other]
      exact ⟨live, pending⟩
    · intro v live run on
      apply awaited.listed v live run
      rw [← on]
      dsimp only
      rcases eq_or_ne v wait with rfl | other
      · rw [Function.update_self]
      · rw [Function.update_of_ne other]
    · rintro r vs same
      obtain ⟨rfl, rfl⟩ := Prod.mk.inj (Option.some.inj same)
      refine ⟨distinct, fun v listed => ?_⟩
      have other : v ≠ wait := fun same => outside (same ▸ listed)
      dsimp only
      rw [Function.update_of_ne other]
      exact pending v (mem_cons_of_mem _ listed)
  exact given.frame w.cache _ w.nReplies w.nEntries w.gone

end WebWorld

end Askai
